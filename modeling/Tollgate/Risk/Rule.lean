import Tollgate.Risk.Decision

/-!
# Rules

A rule belongs to a kind and a scope, which fix the phases of a run at which it
is considered: before the run, after a step, and at the end.
-/

namespace Tollgate

inductive RuleKind where
  | global
  | step
  | exception
  | escalation
  deriving DecidableEq, Repr

namespace RuleKind

def name : RuleKind → String
  | .global => "global"
  | .step => "step"
  | .exception => "exception"
  | .escalation => "escalation"

def all : List RuleKind := [.global, .step, .exception, .escalation]

def ofName? (name : String) : Option RuleKind := all.find? fun k => k.name == name

theorem ofName?_name (k : RuleKind) : ofName? k.name = some k := by
  cases k <;> decide

end RuleKind

inductive RuleScope where
  | any
  | step (number : Nat)
  deriving DecidableEq, Repr

namespace RuleScope

def step? : RuleScope → Option Nat
  | .any => none
  | .step n => some n

def ofStep? : Option Nat → RuleScope
  | none => .any
  | some n => .step n

def covers : RuleScope → Nat → Bool
  | .any, _ => true
  | .step n, number => n == number

def text : RuleScope → String
  | .any => "*"
  | .step n => toString n

end RuleScope

inductive Phase where
  | global
  | step (number : Nat)
  | final
  deriving DecidableEq, Repr

def Phase.text : Phase → String
  | .global => "global"
  | .step n => "step_" ++ toString n
  | .final => "final"

structure Rule where
  id : String
  kind : RuleKind
  scope : RuleScope := .any
  /-- A blank condition always holds. -/
  condition : String := ""
  riskFactor : Float := 0.0
  action : Decision := .proceed
  message : String := ""
  escalationLevel : Option Nat := none
  enabled : Bool := true
  deriving BEq

namespace Rule

def global (id condition : String) (riskFactor : Float) (action : Decision) : Rule :=
  { id, kind := .global, condition, riskFactor, action }

def step (id : String) (number : Nat) (condition : String) (riskFactor : Float)
    (action : Decision) : Rule :=
  { id, kind := .step, scope := .step number, condition, riskFactor, action }

def exception (id : String) (number : Option Nat) (condition : String)
    (action : Decision) : Rule :=
  { id, kind := .exception, scope := .ofStep? number, condition, action }

def escalation (id : String) (number : Option Nat) (condition : String) (riskFactor : Float)
    (level : Nat) : Rule :=
  { id, kind := .escalation, scope := .ofStep? number, condition, riskFactor,
    action := .escalate, escalationLevel := some level }

def appliesTo (rule : Rule) (phase : Phase) : Bool :=
  rule.enabled &&
    match phase, rule.kind with
    | .global, .global => true
    | .step n, .step => rule.scope.covers n
    | .step n, .exception | .step n, .escalation => rule.scope == .step n
    | .final, .exception | .final, .escalation => rule.scope == .any
    | _, _ => false

end Rule

end Tollgate
