import Tollgate.Expr.Evaluator
import Tollgate.Risk.Message

/-!
# Verdicts

A verdict is what the rules of one phase amount to.  Each rule that applies is
triggered, fails to evaluate, or neither; the first triggered exception
overrules the most severe action.
-/

namespace Tollgate

structure TriggeredRule where
  id : String
  kind : RuleKind
  action : Decision
  riskFactor : Float
  message : String

structure RuleFailure where
  rule : String
  message : String
  deriving DecidableEq, Repr

structure Verdict where
  phase : Phase
  triggered : List TriggeredRule := []
  risk : Float := 0.0
  decision : Decision := .proceed
  escalationLevel : Option Nat := none
  appliedException : Option String := none
  failures : List RuleFailure := []

structure Finding where
  rule : Rule
  outcome : Except Expr.EvalError Bool

namespace Finding

def ofRule (scope : Scope) (rule : Rule) : Finding := ⟨rule, Expr.holds scope rule.condition⟩

end Finding

def Evaluator.findings (evaluator : Evaluator) (scope : Scope) :
    List Rule → List Finding × Evaluator
  | [] => ([], evaluator)
  | rule :: rest =>
      let (outcome, evaluator) := evaluator.holds scope rule.condition
      let (found, evaluator) := evaluator.findings scope rest
      (⟨rule, outcome⟩ :: found, evaluator)

@[simp] theorem Evaluator.findings_fst (evaluator : Evaluator) (scope : Scope)
    (rules : List Rule) :
    (evaluator.findings scope rules).1 = rules.map (Finding.ofRule scope) := by
  induction rules generalizing evaluator with
  | nil => rfl
  | cons rule rest ih =>
      simp [findings, Finding.ofRule, ih]

namespace Verdict

/-- The higher of two levels; any level is above none. -/
def higher : Option Nat → Option Nat → Option Nat
  | none, b => b
  | a, none => a
  | some a, some b => some (max a b)

def triggeredBy (phase : Phase) (scope : Scope) (rule : Rule) : TriggeredRule where
  id := rule.id
  kind := rule.kind
  action := rule.action
  riskFactor := rule.riskFactor
  message := rule.render phase scope

structure Tally where
  verdict : Verdict
  ranked : Decision := .proceed

def Tally.add (scope : Scope) (tally : Tally) (finding : Finding) : Tally :=
  let verdict := tally.verdict
  let rule := finding.rule
  match finding.outcome with
  | .error error =>
      { tally with
        verdict := { verdict with failures := verdict.failures ++ [⟨rule.id, error.message⟩] } }
  | .ok false => tally
  | .ok true =>
      { ranked := tally.ranked.mostSevere rule.action
        verdict :=
          { verdict with
            risk := verdict.risk + rule.riskFactor
            appliedException :=
              if rule.kind == .exception && verdict.appliedException.isNone then some rule.id
              else verdict.appliedException
            escalationLevel :=
              if rule.kind == .escalation then
                higher verdict.escalationLevel rule.escalationLevel
              else verdict.escalationLevel
            triggered := verdict.triggered ++ [triggeredBy verdict.phase scope rule] } }

/-- The action of the first triggered rule named like the applied exception stands, if there is
one, or else the most severe action. -/
def Tally.close (tally : Tally) : Verdict :=
  let verdict := tally.verdict
  let decision :=
    match verdict.appliedException with
    | none => tally.ranked
    | some id =>
        ((verdict.triggered.find? fun record => record.id == id).map TriggeredRule.action).getD
          tally.ranked
  { verdict with decision }

def ofFindings (phase : Phase) (scope : Scope) (findings : List Finding) : Verdict :=
  (findings.foldl (Tally.add scope) { verdict := { phase } }).close

private theorem Tally.phase_add (scope : Scope) (tally : Tally) (finding : Finding) :
    (tally.add scope finding).verdict.phase = tally.verdict.phase := by
  unfold Tally.add
  split <;> rfl

@[simp] theorem phase_ofFindings (phase : Phase) (scope : Scope) (findings : List Finding) :
    (ofFindings phase scope findings).phase = phase := by
  have kept (tally : Tally) :
      (findings.foldl (Tally.add scope) tally).verdict.phase = tally.verdict.phase := by
    induction findings generalizing tally with
    | nil => rfl
    | cons finding rest ih => rw [List.foldl_cons, ih, Tally.phase_add]
  exact kept { verdict := { phase } }

def triggeredIds (verdict : Verdict) : List String := verdict.triggered.map TriggeredRule.id

def summary (verdict : Verdict) : String :=
  String.intercalate "; " (verdict.triggered.map TriggeredRule.message)

end Verdict

def Evaluator.verdict (evaluator : Evaluator) (rules : List Rule) (phase : Phase)
    (scope : Scope) : Verdict × Evaluator :=
  let (findings, evaluator) := evaluator.findings scope (rules.filter fun r => r.appliesTo phase)
  (.ofFindings phase scope findings, evaluator)

end Tollgate
