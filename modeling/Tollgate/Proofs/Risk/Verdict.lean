import Mathlib.Data.List.Induction
import Mathlib.Data.List.Nodup
import Mathlib.Order.Bounds.Basic
import Tollgate.Proofs.Selection
import Tollgate.Risk.Verdict

/-!
# What a verdict says about rules

Rules that apply to a phase are triggered or fail by their conditions alone.  A
verdict lists both in definition order, and its risk, level, exception and
decision are told by the triggered rules.  A rule that fails leaves no other
trace than its failure.
-/

namespace Tollgate

/-! ## Counting in findings -/

namespace Finding

def fired? (finding : Finding) : Option Rule :=
  match finding.outcome with
  | .ok true => some finding.rule
  | _ => none

def failure? (finding : Finding) : Option RuleFailure :=
  match finding.outcome with
  | .ok _ => none
  | .error error => some ⟨finding.rule.id, error.message⟩

end Finding

namespace Verdict

def totalRisk (fired : List Rule) : Float :=
  fired.foldl (fun total rule => total + rule.riskFactor) 0.0

def mostSevere (fired : List Rule) : Decision :=
  fired.foldl (fun worst rule => worst.mostSevere rule.action) .proceed

def highestLevel (fired : List Rule) : Option Nat :=
  (fired.filter fun rule => rule.kind == .escalation).foldl
    (fun level rule => higher level rule.escalationLevel) none

def firstException (fired : List Rule) : Option String :=
  (fired.find? fun rule => rule.kind == .exception).map Rule.id

def decide (fired : List Rule) : Decision :=
  match firstException fired with
  | none => mostSevere fired
  | some id =>
      ((fired.find? fun rule => rule.id == id).map Rule.action).getD (mostSevere fired)

def tallied (phase : Phase) (scope : Scope) (fired : List Rule) (failures : List RuleFailure) :
    Tally where
  ranked := mostSevere fired
  verdict :=
    { phase
      triggered := fired.map (triggeredBy phase scope)
      risk := totalRisk fired
      escalationLevel := highestLevel fired
      appliedException := firstException fired
      failures }

section Tallied

variable {phase : Phase} {scope : Scope}

private theorem highestLevel_concat (fired : List Rule) (rule : Rule) :
    highestLevel (fired ++ [rule]) =
      if rule.kind == .escalation then higher (highestLevel fired) rule.escalationLevel
      else highestLevel fired := by
  unfold highestLevel
  rw [List.filter_append, List.foldl_append]
  cases asks : rule.kind == .escalation <;> simp [asks]

private theorem firstException_concat (fired : List Rule) (rule : Rule) :
    firstException (fired ++ [rule]) =
      if rule.kind == .exception && (firstException fired).isNone then some rule.id
      else firstException fired := by
  unfold firstException
  rw [List.find?_append]
  cases first : fired.find? fun rule => rule.kind == .exception with
  | some earlier => simp
  | none => cases overrules : rule.kind == .exception <;> simp [overrules]

private theorem add_fired (fired : List Rule) (failures : List RuleFailure) {finding : Finding}
    (fires : finding.outcome = .ok true) :
    (tallied phase scope fired failures).add scope finding =
      tallied phase scope (fired ++ [finding.rule]) failures := by
  unfold Tally.add
  rw [fires]
  simp only [tallied, highestLevel_concat, firstException_concat, mostSevere, totalRisk,
    List.foldl_append, List.foldl_cons, List.foldl_nil, List.map_append, List.map_cons,
    List.map_nil]
  rfl

private theorem add_failed (fired : List Rule) (failures : List RuleFailure) {finding : Finding}
    {error : Expr.EvalError} (fails : finding.outcome = .error error) :
    (tallied phase scope fired failures).add scope finding =
      tallied phase scope fired (failures ++ [⟨finding.rule.id, error.message⟩]) := by
  unfold Tally.add
  rw [fails]
  rfl

theorem foldl_add (findings : List Finding) :
    findings.foldl (Tally.add scope) { verdict := { phase } } =
      tallied phase scope (findings.filterMap Finding.fired?)
        (findings.filterMap Finding.failure?) := by
  induction findings using List.reverseRecOn with
  | nil => rfl
  | append_singleton findings finding ih =>
      rw [List.foldl_append, ih, List.foldl_cons, List.foldl_nil, List.filterMap_append,
        List.filterMap_append]
      rcases outcome : finding.outcome with error | _ | _
      · rw [add_failed _ _ outcome]
        simp [Finding.fired?, Finding.failure?, outcome]
      · unfold Tally.add
        simp [Finding.fired?, Finding.failure?, outcome]
      · rw [add_fired _ _ outcome]
        simp [Finding.fired?, Finding.failure?, outcome]

theorem ofFindings_eq (findings : List Finding) :
    ofFindings phase scope findings =
      { phase
        triggered := (findings.filterMap Finding.fired?).map (triggeredBy phase scope)
        risk := totalRisk (findings.filterMap Finding.fired?)
        decision := decide (findings.filterMap Finding.fired?)
        escalationLevel := highestLevel (findings.filterMap Finding.fired?)
        appliedException := firstException (findings.filterMap Finding.fired?)
        failures := findings.filterMap Finding.failure? } := by
  have named (fired : List Rule) (id : String) :
      ((fired.map (triggeredBy phase scope)).find? fun record => record.id == id).map
          TriggeredRule.action =
        (fired.find? fun rule => rule.id == id).map Rule.action := by
    rw [List.find?_map, Option.map_map]
    rfl
  rw [ofFindings, foldl_add]
  simp only [Tally.close, tallied, named]
  rfl

end Tallied

end Verdict

/-! ## Severity -/

def Decision.ladder : List Decision := [.proceed, .warn, .pause, .escalate, .block]

private theorem Decision.severity_eq (decision : Decision) :
    decision.severity = ladder.idxOf decision := by
  cases decision <;> rfl

namespace Verdict

theorem mostSevere_best (fired : List Rule) :
    mostSevere fired ∈ .proceed :: fired.map Rule.action ∧
      ∀ rule ∈ fired, Decision.ladder.idxOf rule.action ≤
        Decision.ladder.idxOf (mostSevere fired) := by
  have best := foldl_best Decision.severity Decision.mostSevere (fun _ _ => rfl) .proceed
    (fired.map Rule.action)
  rw [List.foldl_map] at best
  refine ⟨best.1, fun rule member => ?_⟩
  rw [← Decision.severity_eq, ← Decision.severity_eq]
  exact best.2 _ (List.mem_cons_of_mem _ (List.mem_map_of_mem member))

/-! ## Levels -/

def levelRank (level : Option Nat) : Nat := (level.map Nat.succ).getD 0

private theorem higher_eq (a b : Option Nat) :
    higher a b = if levelRank a < levelRank b then b else a := by
  rcases a with _ | a <;> rcases b with _ | b
  · rfl
  · simp [higher, levelRank]
  · simp [higher, levelRank]
  · simp only [higher, levelRank, Option.map_some, Option.getD_some, Nat.succ_lt_succ_iff]
    split
    · next lt => rw [Nat.max_eq_right lt.le]
    · next ge => rw [Nat.max_eq_left (not_lt.mp ge)]

def levels (fired : List Rule) : Set Nat :=
  {level | ∃ rule ∈ fired, rule.kind = .escalation ∧ rule.escalationLevel = some level}

theorem highestLevel_best (fired : List Rule) :
    (highestLevel fired = none ∧ levels fired = ∅) ∨
      ∃ level, highestLevel fired = some level ∧ IsGreatest (levels fired) level := by
  let asked := (fired.filter fun rule => rule.kind == .escalation).map Rule.escalationLevel
  have best := foldl_best levelRank higher higher_eq none asked
  have same : asked.foldl higher none = highestLevel fired := List.foldl_map
  rw [same] at best
  have asks (level : Nat) : some level ∈ asked ↔ level ∈ levels fired := by
    simp [asked, levels, and_assoc]
  have below (level : Nat) (h : level ∈ levels fired) :
      levelRank (some level) ≤ levelRank (highestLevel fired) :=
    best.2 _ (List.mem_cons_of_mem _ ((asks level).mpr h))
  cases highest : highestLevel fired with
  | none =>
      refine .inl ⟨rfl, Set.eq_empty_of_forall_notMem fun level h => ?_⟩
      have impossible := below level h
      simp [highest, levelRank] at impossible
  | some top =>
      refine .inr ⟨top, rfl, ?_, fun level h => ?_⟩
      · have member := best.1
        rw [highest, List.mem_cons] at member
        exact (asks top).mp (member.resolve_left (Option.some_ne_none top))
      · have le := below level h
        rw [highest] at le
        exact Nat.succ_le_succ_iff.mp le

end Verdict

/-! ## What becomes of a rule -/

namespace Rule

variable {phase : Phase} {scope : Scope} {rule : Rule}

/-- The rule applies to the phase, and its condition is true. -/
def Fires (phase : Phase) (scope : Scope) (rule : Rule) : Prop :=
  rule.appliesTo phase = true ∧ Expr.holds scope rule.condition = .ok true

/-- The rule applies to the phase, and its condition cannot be evaluated. -/
def Fails (phase : Phase) (scope : Scope) (rule : Rule) : Prop :=
  rule.appliesTo phase = true ∧ ∃ error, Expr.holds scope rule.condition = .error error

instance : Decidable (rule.Fires phase scope) :=
  match outcome : Expr.holds scope rule.condition with
  | .ok true => decidable_of_iff (rule.appliesTo phase = true) (by simp [Fires, outcome])
  | .ok false => isFalse (by simp [Fires, outcome])
  | .error _ => isFalse (by simp [Fires, outcome])

instance : Decidable (rule.Fails phase scope) :=
  match outcome : Expr.holds scope rule.condition with
  | .ok _ => isFalse (by simp [Fails, outcome])
  | .error _ => decidable_of_iff (rule.appliesTo phase = true) (by simp [Fails, outcome])

theorem Fires.not_fails (fires : rule.Fires phase scope) : ¬rule.Fails phase scope := by
  rintro ⟨_, error, fails⟩
  rw [fires.2] at fails
  cases fails

theorem not_fires_and_not_fails_iff :
    ¬rule.Fires phase scope ∧ ¬rule.Fails phase scope ↔
      rule.appliesTo phase = false ∨ Expr.holds scope rule.condition = .ok false := by
  unfold Fires Fails
  cases rule.appliesTo phase with
  | false => simp
  | true => rcases Expr.holds scope rule.condition with _ | _ | _ <;> simp

end Rule

namespace Verdict

variable {rules : List Rule} {phase : Phase} {scope : Scope}

def findings (phase : Phase) (scope : Scope) (rules : List Rule) : List Finding :=
  (rules.filter fun rule => rule.appliesTo phase).map (Finding.ofRule scope)

theorem filterMap_findings {β : Type} (look : Finding → Option β) :
    (findings phase scope rules).filterMap look =
      rules.filterMap fun rule =>
        if rule.appliesTo phase then look (.ofRule scope rule) else none := by
  simp [findings, List.filterMap_map, List.filterMap_filter]

def fired (phase : Phase) (scope : Scope) (rules : List Rule) : List Rule :=
  rules.filter fun rule => rule.Fires phase scope

theorem mem_fired {rule : Rule} :
    rule ∈ fired phase scope rules ↔ rule ∈ rules ∧ rule.Fires phase scope := by
  simp [fired]

theorem fired_findings :
    (findings phase scope rules).filterMap Finding.fired? = fired phase scope rules := by
  unfold fired
  rw [filterMap_findings, ← List.filterMap_eq_filter]
  refine List.filterMap_congr fun rule _ => ?_
  cases applies : rule.appliesTo phase with
  | false => simp [Option.guard, Rule.Fires, applies]
  | true =>
      rcases outcome : Expr.holds scope rule.condition with _ | _ | _ <;>
        simp [Option.guard, Finding.fired?, Finding.ofRule, Rule.Fires, applies, outcome]

theorem failed_findings :
    ((findings phase scope rules).filterMap Finding.failure?).map RuleFailure.rule =
      (rules.filter fun rule => rule.Fails phase scope).map Rule.id := by
  rw [filterMap_findings, List.map_filterMap, ← List.filterMap_eq_map, List.filterMap_filter]
  refine List.filterMap_congr fun rule _ => ?_
  cases applies : rule.appliesTo phase with
  | false => simp [Rule.Fails, applies]
  | true =>
      rcases outcome : Expr.holds scope rule.condition with _ | _ <;>
        simp [Finding.failure?, Finding.ofRule, Rule.Fails, applies, outcome]

theorem mem_failures {failure : RuleFailure} :
    failure ∈ (findings phase scope rules).filterMap Finding.failure? ↔
      ∃ rule ∈ rules, rule.appliesTo phase = true ∧ ∃ error,
        Expr.holds scope rule.condition = .error error ∧ failure = ⟨rule.id, error.message⟩ := by
  rw [filterMap_findings, List.mem_filterMap]
  refine exists_congr fun rule => and_congr_right fun _ => ?_
  cases rule.appliesTo phase with
  | false => simp
  | true =>
      rcases outcome : Expr.holds scope rule.condition with _ | _ <;>
        simp [Finding.failure?, Finding.ofRule, outcome, eq_comm]

/-! ## Which rules a verdict names -/

def failedIds (verdict : Verdict) : List String := verdict.failures.map RuleFailure.rule

/-- A verdict names the rules that trigger and those that fail, each in definition order, and
none of the others. -/
structure Sorts (phase : Phase) (scope : Scope) (rules : List Rule) (verdict : Verdict) :
    Prop where
  triggers : ∀ rule ∈ rules, rule.id ∈ verdict.triggeredIds ↔ rule.Fires phase scope
  fails : ∀ rule ∈ rules, rule.id ∈ verdict.failedIds ↔ rule.Fails phase scope
  quiet : ∀ rule ∈ rules,
    rule.id ∉ verdict.triggeredIds ∧ rule.id ∉ verdict.failedIds ↔
      rule.appliesTo phase = false ∨ Expr.holds scope rule.condition = .ok false
  apart : verdict.triggeredIds.Disjoint verdict.failedIds
  records : ∀ record ∈ verdict.triggered,
    ∃ rule ∈ rules, rule.Fires phase scope ∧ record = triggeredBy phase scope rule
  reasons : ∀ failure ∈ verdict.failures,
    ∃ rule ∈ rules, rule.appliesTo phase = true ∧ ∃ error,
      Expr.holds scope rule.condition = .error error ∧ failure = ⟨rule.id, error.message⟩
  triggeredOrder : verdict.triggeredIds.Sublist (rules.map Rule.id)
  failureOrder : verdict.failedIds.Sublist (rules.map Rule.id)

theorem id_mem_filter (distinct : (rules.map Rule.id).Nodup) {rule : Rule} (member : rule ∈ rules)
    (part : Rule → Bool) : rule.id ∈ (rules.filter part).map Rule.id ↔ part rule = true := by
  constructor
  · intro named
    obtain ⟨other, chosen, same⟩ := List.mem_map.mp named
    obtain ⟨known, holds⟩ := List.mem_filter.mp chosen
    exact List.inj_on_of_nodup_map distinct known member same ▸ holds
  · exact fun holds => List.mem_map_of_mem (List.mem_filter.mpr ⟨member, holds⟩)

section OfRules

variable (phase : Phase) (scope : Scope) (rules : List Rule)

def ofRules : Verdict := ofFindings phase scope (findings phase scope rules)

theorem ofRules_eq :
    ofRules phase scope rules =
      { phase
        triggered := (fired phase scope rules).map (triggeredBy phase scope)
        risk := totalRisk (fired phase scope rules)
        decision := decide (fired phase scope rules)
        escalationLevel := highestLevel (fired phase scope rules)
        appliedException := firstException (fired phase scope rules)
        failures := (findings phase scope rules).filterMap Finding.failure? } := by
  rw [ofRules, ofFindings_eq, fired_findings]

theorem triggered_ofRules :
    (ofRules phase scope rules).triggered =
      (fired phase scope rules).map (triggeredBy phase scope) := by
  rw [ofRules_eq]

theorem triggeredIds_ofRules :
    (ofRules phase scope rules).triggeredIds = (fired phase scope rules).map Rule.id := by
  simp [triggeredIds, triggered_ofRules, triggeredBy, Function.comp_def]

private theorem failedIds_ofRules :
    (ofRules phase scope rules).failedIds =
      (rules.filter fun rule => rule.Fails phase scope).map Rule.id := by
  rw [failedIds, ofRules_eq]
  exact failed_findings

end OfRules

theorem sorts_ofRules (distinct : (rules.map Rule.id).Nodup) :
    Sorts phase scope rules (ofRules phase scope rules) := by
  have triggers : ∀ rule ∈ rules,
      rule.id ∈ (ofRules phase scope rules).triggeredIds ↔ rule.Fires phase scope := by
    intro rule member
    rw [triggeredIds_ofRules, fired, id_mem_filter distinct member, decide_eq_true_iff]
  have fails : ∀ rule ∈ rules,
      rule.id ∈ (ofRules phase scope rules).failedIds ↔ rule.Fails phase scope := by
    intro rule member
    rw [failedIds_ofRules, id_mem_filter distinct member, decide_eq_true_iff]
  constructor
  case triggers => exact triggers
  case fails => exact fails
  case quiet =>
    intro rule member
    rw [triggers rule member, fails rule member, Rule.not_fires_and_not_fails_iff]
  case apart =>
    rintro id triggered failed
    rw [triggeredIds_ofRules] at triggered
    obtain ⟨rule, fires, rfl⟩ := List.mem_map.mp triggered
    obtain ⟨member, fires⟩ := mem_fired.mp fires
    exact fires.not_fails ((fails rule member).mp failed)
  case records =>
    intro record member
    rw [triggered_ofRules] at member
    obtain ⟨rule, fires, rfl⟩ := List.mem_map.mp member
    obtain ⟨member, fires⟩ := mem_fired.mp fires
    exact ⟨rule, member, fires, rfl⟩
  case reasons =>
    intro failure member
    rw [ofRules_eq] at member
    exact mem_failures.mp member
  case triggeredOrder =>
    rw [triggeredIds_ofRules]
    exact List.filter_sublist.map Rule.id
  case failureOrder =>
    rw [failedIds_ofRules]
    exact List.filter_sublist.map Rule.id

/-! ## What follows from the triggered rules -/

/-- Risk, level, exception and decision of a verdict are those of the rules that trigger. -/
structure Sums (phase : Phase) (scope : Scope) (rules : List Rule) (verdict : Verdict) :
    Prop where
  risk : verdict.risk = (verdict.triggered.map TriggeredRule.riskFactor).foldl (· + ·) 0.0
  level : ∀ level, verdict.escalationLevel = some level ↔
    IsGreatest {level | ∃ rule ∈ rules, rule.Fires phase scope ∧ rule.kind = .escalation ∧
      rule.escalationLevel = some level} level
  unescalated : verdict.escalationLevel = none ↔
    ∀ rule ∈ rules, rule.Fires phase scope → rule.kind = .escalation →
      rule.escalationLevel = none
  exception : verdict.appliedException =
    (verdict.triggered.find? fun record => record.kind == .exception).map TriggeredRule.id
  overruled : ∀ record,
    verdict.triggered.find? (fun record => record.kind == .exception) = some record →
      verdict.decision = record.action
  ranked : (∀ record ∈ verdict.triggered, record.kind ≠ .exception) →
    verdict.decision ∈ .proceed :: verdict.triggered.map TriggeredRule.action ∧
      ∀ record ∈ verdict.triggered,
        Decision.ladder.idxOf record.action ≤ Decision.ladder.idxOf verdict.decision

section Decisions

variable {fired : List Rule}

private theorem decide_of_exception (distinct : (fired.map Rule.id).Nodup)
    {rule : Rule} (first : fired.find? (fun rule => rule.kind == .exception) = some rule) :
    decide fired = rule.action := by
  unfold decide firstException
  rw [first, Option.map_some]
  dsimp only
  rw [find?_key distinct (List.mem_of_find?_eq_some first)]
  rfl

private theorem decide_of_ranked (ranked : ∀ rule ∈ fired, rule.kind ≠ .exception) :
    decide fired = mostSevere fired := by
  have no_exception : fired.find? (fun rule => rule.kind == .exception) = none := by
    simpa using ranked
  unfold decide firstException
  rw [no_exception, Option.map_none]

end Decisions

private theorem find?_exception (fired : List Rule) :
    (fired.map (triggeredBy phase scope)).find? (fun record => record.kind == .exception) =
      (fired.find? fun rule => rule.kind == .exception).map (triggeredBy phase scope) := by
  rw [List.find?_map]
  rfl

private theorem levels_fired :
    levels (fired phase scope rules) =
      {level | ∃ rule ∈ rules, rule.Fires phase scope ∧ rule.kind = .escalation ∧
        rule.escalationLevel = some level} := by
  simp only [levels, mem_fired, and_assoc]

theorem sums_ofRules (distinct : (rules.map Rule.id).Nodup) :
    Sums phase scope rules (ofRules phase scope rules) := by
  have highest := highestLevel_best (fired phase scope rules)
  rw [levels_fired] at highest
  rw [ofRules_eq]
  constructor
  case risk => simp [totalRisk, triggeredBy, List.foldl_map]
  case level =>
    intro level
    dsimp only
    rcases highest with ⟨none_asked, nothing⟩ | ⟨top, same, greatest⟩
    · rw [none_asked, nothing]
      simp [IsGreatest]
    · rw [same, Option.some.injEq]
      exact ⟨fun equal => equal ▸ greatest, fun other => greatest.unique other⟩
  case unescalated =>
    dsimp only
    rcases highest with ⟨none_asked, nothing⟩ | ⟨top, same, greatest⟩
    · refine iff_of_true none_asked fun rule member fires kind => ?_
      refine Option.eq_none_iff_forall_ne_some.mpr fun level asks => ?_
      exact Set.eq_empty_iff_forall_notMem.mp nothing level ⟨rule, member, fires, kind, asks⟩
    · obtain ⟨⟨rule, member, fires, kind, asks⟩, _⟩ := greatest
      rw [same]
      refine iff_of_false (Option.some_ne_none top) fun none_asked => ?_
      rw [none_asked rule member fires kind] at asks
      cases asks
  case exception =>
    rw [find?_exception, Option.map_map]
    rfl
  case overruled =>
    intro record first
    rw [find?_exception, Option.map_eq_some_iff] at first
    obtain ⟨rule, first, rfl⟩ := first
    exact decide_of_exception (distinct.sublist (List.filter_sublist.map Rule.id)) first
  case ranked =>
    intro none_overrules
    rw [List.forall_mem_map] at none_overrules ⊢
    dsimp only
    rw [decide_of_ranked none_overrules, List.map_map]
    exact mostSevere_best _

/-! ## Evaluating rules -/

theorem verdict_fst (evaluator : Evaluator) :
    (evaluator.verdict rules phase scope).1 = ofRules phase scope rules := by
  simp [Evaluator.verdict, ofRules, findings]

theorem ofRules_filter_appliesTo :
    ofRules phase scope (rules.filter fun rule => rule.appliesTo phase) =
      ofRules phase scope rules := by
  simp [ofRules, findings]

theorem ofRules_filter_not_fails :
    ofRules phase scope (rules.filter fun rule => ¬rule.Fails phase scope) =
      { ofRules phase scope rules with failures := [] } := by
  have same : fired phase scope (rules.filter fun rule => ¬rule.Fails phase scope) =
      fired phase scope rules := by
    unfold fired
    rw [List.filter_filter]
    refine List.filter_congr fun rule _ => ?_
    by_cases fires : rule.Fires phase scope
    · simp [fires, fires.not_fails]
    · simp [fires]
  have none_left : (findings phase scope
      (rules.filter fun rule => ¬rule.Fails phase scope)).filterMap Finding.failure? = [] := by
    refine List.eq_nil_iff_forall_not_mem.mpr fun failure member => ?_
    obtain ⟨rule, kept, applies, error, fails, _⟩ := mem_failures.mp member
    obtain ⟨_, succeeds⟩ := List.mem_filter.mp kept
    exact of_decide_eq_true succeeds ⟨applies, error, fails⟩
  rw [ofRules_eq, ofRules_eq, same, none_left]

end Verdict

namespace Evaluator

/-- What the rules say at a phase, whatever the evaluator remembers: each is triggered, fails or
does neither by its condition, and rules that do not apply or that fail change nothing else. -/
theorem verdict_meets_rules (evaluator : Evaluator) {rules : List Rule}
    (distinct : (rules.map Rule.id).Nodup) (phase : Phase) (scope : Scope) :
    let verdict := (evaluator.verdict rules phase scope).1
    verdict.phase = phase ∧ verdict.Sorts phase scope rules ∧ verdict.Sums phase scope rules ∧
      ∀ other : Evaluator,
        (other.verdict (rules.filter fun rule => rule.appliesTo phase) phase scope).1 =
            verdict ∧
          (other.verdict (rules.filter fun rule => ¬rule.Fails phase scope) phase scope).1 =
            { verdict with failures := [] } := by
  intro verdict
  have told : verdict = .ofRules phase scope rules := Verdict.verdict_fst evaluator
  rw [told]
  refine ⟨by rw [Verdict.ofRules_eq], Verdict.sorts_ofRules distinct,
    Verdict.sums_ofRules distinct, fun other => ?_⟩
  rw [Verdict.verdict_fst, Verdict.verdict_fst]
  exact ⟨Verdict.ofRules_filter_appliesTo, Verdict.ofRules_filter_not_fails⟩

def mixedRules : List Rule :=
  [.step "size" 2 "1 < 2" 0.4 .block,
    .step "ratio" 2 "1 / 0 > 2" 0.9 .block,
    .escalation "review" (some 2) "" 0.25 1,
    .escalation "board" (some 2) "true" 0.5 3,
    .exception "waiver" (some 2) "" .warn,
    { Rule.step "retired" 2 "" 0.7 .pause with enabled := false },
    .global "start" "" 0.1 .pause]

theorem verdict_meets_rules_mixed :
    let verdict := (empty.verdict mixedRules (.step 2) fun _ => none).1
    (verdict.triggeredIds = ["size", "review", "board", "waiver"] ∧
      verdict.failedIds = ["ratio"] ∧ verdict.escalationLevel = some 3 ∧
      verdict.decision = .warn) ∧
    (mixedRules.map Rule.id).Nodup ∧
      verdict.phase = .step 2 ∧ verdict.Sorts (.step 2) (fun _ => none) mixedRules ∧
        verdict.Sums (.step 2) (fun _ => none) mixedRules ∧
        ∀ other : Evaluator,
          (other.verdict (mixedRules.filter fun rule => rule.appliesTo (.step 2)) (.step 2)
              fun _ => none).1 = verdict ∧
            (other.verdict
                (mixedRules.filter fun rule => ¬rule.Fails (.step 2) fun _ => none) (.step 2)
                fun _ => none).1 = { verdict with failures := [] } := by
  intro verdict
  have distinct : (mixedRules.map Rule.id).Nodup := by decide
  have told : verdict.triggeredIds = ["size", "review", "board", "waiver"] ∧
      verdict.failedIds = ["ratio"] ∧ verdict.escalationLevel = some 3 ∧
      verdict.decision = .warn := by
    decide +kernel
  exact ⟨told, distinct, verdict_meets_rules empty distinct (.step 2) fun _ => none⟩

end Evaluator

end Tollgate
