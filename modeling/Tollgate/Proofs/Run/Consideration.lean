import Tollgate.Proofs.Audit.Trail
import Tollgate.Proofs.Plan.Analysis

/-!
# When rules are considered

A run that reaches its last decision point has considered every enabled rule of
its definition where the kind and the scope of the rule put it, once at each of
these points, and nowhere else.
-/

namespace Tollgate

theorem filter_key {α β : Type} [BEq β] [LawfulBEq β] {key : α → β} {members : List α}
    (distinct : (members.map key).Nodup) {a : α} (ha : a ∈ members) :
    members.filter (fun b => key b == key a) = [a] := by
  induction members with
  | nil => cases ha
  | cons b rest ih =>
      rw [List.map_cons, List.nodup_cons] at distinct
      rcases List.mem_cons.mp ha with rfl | later
      · rw [List.filter_cons_of_pos (by simp), List.cons_inj_right, List.filter_eq_nil_iff]
        intro other member same
        exact distinct.1 (beq_iff_eq.mp same ▸ List.mem_map_of_mem member)
      · have other : key b ≠ key a := fun same => distinct.1 (same ▸ List.mem_map_of_mem later)
        rw [List.filter_cons_of_neg (by simpa using other)]
        exact ih distinct.2 later

namespace Rule

/-- The decision points at which a rule is due in a run of the steps with the given numbers. -/
def duePhases (numbers : List Nat) (rule : Rule) : List Phase :=
  if rule.enabled then
    match rule.kind, rule.scope with
    | .global, _ => [.global]
    | .step, .any => numbers.map .step
    | .step, .step n | .exception, .step n | .escalation, .step n => [.step n]
    | .exception, .any | .escalation, .any => [.final]
  else []

variable {rule : Rule} {numbers others : List Nat}

theorem duePhases_perm (same : numbers.Perm others) :
    (rule.duePhases numbers).Perm (rule.duePhases others) := by
  unfold duePhases
  split
  · split
    case h_2 => exact same.map _
    all_goals exact .refl _
  · exact .refl _

theorem nodup_duePhases (distinct : numbers.Nodup) : (rule.duePhases numbers).Nodup := by
  unfold duePhases
  split
  · split
    case h_2 => exact distinct.map fun _ _ => Phase.step.inj
    all_goals exact List.nodup_singleton _
  · exact List.nodup_nil

theorem duePhases_ne_nil (enabled : rule.enabled = true) (nonempty : numbers ≠ []) :
    rule.duePhases numbers ≠ [] := by
  unfold duePhases
  rw [if_pos enabled]
  split
  case h_2 => simpa using nonempty
  all_goals exact List.cons_ne_nil _ _

theorem filter_appliesTo (distinct : numbers.Nodup)
    (known : ∀ n, rule.scope = .step n → n ∈ numbers) :
    (Phase.global :: (numbers.map .step ++ [.final])).filter rule.appliesTo =
      rule.duePhases numbers := by
  have single {n : Nat} (listed : n ∈ numbers) : numbers.filter (n == ·) = [n] := by
    have turned : ∀ m ∈ numbers, (n == m) = (m == n) := fun m _ => BEq.comm
    rw [List.filter_congr turned, List.filter_beq, List.count_eq_one_of_mem distinct listed,
      List.replicate_one]
  have same (n m : Nat) : (RuleScope.step n == RuleScope.step m) = (n == m) := by
    rw [Bool.eq_iff_iff]
    simp
  unfold duePhases
  cases enabled : rule.enabled with
  | false => simp [appliesTo, enabled]
  | true =>
      cases kind : rule.kind <;> cases scope : rule.scope with
      | any =>
          simp [appliesTo, enabled, kind, scope, RuleScope.covers, List.filter_map,
            Function.comp_def]
      | step n =>
          simp [appliesTo, enabled, kind, scope, RuleScope.covers, List.filter_map,
            Function.comp_def, same, single (known n scope)]

end Rule

namespace Definition

structure HasPlacedRules (definition : Definition) : Prop where
  nonempty : definition.steps ≠ []
  ids : (definition.rules.map Rule.id).Nodup
  scopes : ∀ rule ∈ definition.rules, ∀ n, rule.scope = .step n →
    n ∈ definition.steps.map Step.number

theorem hasPlacedRules_of_check {definition : Definition} (h : definition.check = .ok ()) :
    definition.HasPlacedRules where
  nonempty := by
    obtain ⟨clean, _⟩ := Plan.build_eq_ok_iff.mp (isAccepted_of_check h).plan
    exact (Structure.issues_eq_nil_iff.mp (List.append_eq_nil_iff.mp clean).1).1
  ids := (nodup_of_checkRules (checkRules_of_check h)).1
  scopes rule member n scope := by
    have sound := isSound_of_checkRules (checkRules_of_check h) rule member
    obtain ⟨step, found⟩ := Option.isSome_iff_exists.mp (sound.placed n scope)
    exact List.mem_map.mpr ⟨step, List.mem_of_find?_eq_some found, number_of_step? found⟩

end Definition

structure Consideration where
  phase : Phase
  finding : Finding

namespace Run

variable {σ τ : Type} {env : Environment σ τ}

/-- The rules considered at a decision point, each with what its condition came to. -/
def findingsAt (env : Environment σ τ) (phase : Phase) (run : Run σ τ) : List Finding :=
  (run.evaluator.findings
    (run.context.assessedScope (some (run.assessmentAt env phase).toValue))
    (run.definition.rules.filter fun rule => rule.appliesTo phase)).1

theorem verdictAt_eq (env : Environment σ τ) (phase : Phase) (run : Run σ τ) :
    run.verdictAt env phase =
      .ofFindings phase
        (run.context.assessedScope (some (run.assessmentAt env phase).toValue))
        (run.findingsAt env phase) := rfl

theorem rule_findingsAt (env : Environment σ τ) (phase : Phase) (run : Run σ τ) :
    (run.findingsAt env phase).map Finding.rule =
      run.definition.rules.filter fun rule => rule.appliesTo phase := by
  unfold findingsAt
  rw [Evaluator.findings_fst, List.map_map]
  exact List.map_id _

def firedAt (env : Environment σ τ) (phase : Phase) (run : Run σ τ) : List Rule :=
  (run.findingsAt env phase).filterMap Finding.fired?

def considerations (env : Environment σ τ) (points : List (Phase × Run σ τ)) :
    List Consideration :=
  points.flatMap fun (phase, run) => (run.findingsAt env phase).map fun finding => ⟨phase, finding⟩

def phasesOf (env : Environment σ τ) (points : List (Phase × Run σ τ)) (rule : Rule) : List Phase :=
  ((considerations env points).filter fun c => c.finding.rule.id == rule.id).map Consideration.phase

section Points

variable {definition : Definition} {points : List (Phase × Run σ τ)}

private theorem phasesOf_cons (env : Environment σ τ) (point : Phase × Run σ τ)
    (rest : List (Phase × Run σ τ)) (rule : Rule) :
    phasesOf env (point :: rest) rule =
      phasesOf env [point] rule ++ phasesOf env rest rule := by
  simp [phasesOf, considerations]

private theorem phasesOf_singleton (ids : (definition.rules.map Rule.id).Nodup) {rule : Rule}
    (member : rule ∈ definition.rules) {phase : Phase} {run : Run σ τ}
    (about : run.definition = definition) :
    phasesOf env [(phase, run)] rule = if rule.appliesTo phase then [phase] else [] := by
  have considered : ((run.findingsAt env phase).map Finding.rule).filter
      (fun other => other.id == rule.id) = [rule].filter (·.appliesTo phase) := by
    rw [rule_findingsAt, about, List.filter_comm, filter_key ids member]
  rw [List.filter_map] at considered
  unfold phasesOf considerations
  rw [List.flatMap_singleton, List.filter_map, List.map_map]
  have phases := congrArg (List.map fun _ => phase) considered
  rw [List.map_map] at phases
  refine phases.trans ?_
  cases applies : rule.appliesTo phase <;> simp [applies]

theorem phasesOf_eq (ids : (definition.rules.map Rule.id).Nodup) {rule : Rule}
    (member : rule ∈ definition.rules)
    (about : ∀ point ∈ points, point.2.definition = definition) :
    phasesOf env points rule = (points.map Prod.fst).filter rule.appliesTo := by
  induction points with
  | nil => rfl
  | cons point rest ih =>
      rw [phasesOf_cons, ih fun other later => about other (List.mem_cons_of_mem _ later),
        phasesOf_singleton ids member (about point List.mem_cons_self), List.map_cons,
        List.filter_cons]
      split <;> rfl

theorem mem_considerations {consideration : Consideration}
    (about : ∀ point ∈ points, point.2.definition = definition)
    (member : consideration ∈ considerations env points) :
    consideration.finding.rule ∈ definition.rules ∧
      consideration.finding.rule.appliesTo consideration.phase = true := by
  obtain ⟨⟨phase, run⟩, present, found⟩ := List.mem_flatMap.mp member
  obtain ⟨finding, known, rfl⟩ := List.mem_map.mp found
  have chosen : finding.rule ∈ (run.findingsAt env phase).map Finding.rule :=
    List.mem_map_of_mem known
  rw [rule_findingsAt, about _ present] at chosen
  exact List.mem_filter.mp chosen

theorem nodup_firedAt (ids : (definition.rules.map Rule.id).Nodup) {phase : Phase}
    {run : Run σ τ} (about : run.definition = definition) :
    ((run.firedAt env phase).map Rule.id).Nodup := by
  have fired : run.firedAt env phase = Verdict.fired phase
      (run.context.assessedScope (some (run.assessmentAt env phase).toValue))
      run.definition.rules := by
    unfold firedAt findingsAt
    rw [Evaluator.findings_fst]
    exact Verdict.fired_findings
  rw [fired, about]
  exact ids.sublist (List.filter_sublist.map Rule.id)

end Points

def riskOver (env : Environment σ τ) (risk : Float) (points : List (Phase × Run σ τ)) : Float :=
  points.foldl
    (fun risk (phase, run) =>
      riskAfter risk (run.verdictAt env phase)
        (if phase = .final then some (run.assessmentAt env phase).weightedTotal else none))
    risk

theorem trail_eq (env : Environment σ τ) (trace : List (Stage × Run σ τ)) :
    trail env trace = (points trace).map fun (phase, run) => run.entryAt env phase := by
  unfold trail points
  rw [List.map_filterMap]
  refine List.filterMap_congr fun entry _ => ?_
  cases entry.1.phase? <;> rfl

theorem phases_points (trace : List (Stage × Run σ τ)) :
    (points trace).map Prod.fst = Stage.phases (trace.map Prod.fst) := by
  unfold points Stage.phases
  rw [List.map_filterMap, List.filterMap_map]
  refine List.filterMap_congr fun entry _ => ?_
  unfold Function.comp
  cases entry.1.phase? <;> rfl

theorem finalRisk_eq {points : List (Phase × Run σ τ)} {risk : Float}
    (chained : AuditEntry.Chained risk (points.map fun (phase, run) => run.entryAt env phase)) :
    AuditEntry.finalRisk risk (points.map fun (phase, run) => run.entryAt env phase) =
      riskOver env risk points := by
  induction points generalizing risk with
  | nil => rfl
  | cons point rest ih =>
      obtain ⟨phase, run⟩ := point
      obtain ⟨before, _, later⟩ := chained
      have same : run.execution.cumulativeRisk = risk := before
      refine (ih later).trans ?_
      unfold riskOver
      rw [List.foldl_cons, ← same]
      rfl

theorem triggeredIds_entryAt (env : Environment σ τ) (phase : Phase) (run : Run σ τ) :
    (run.entryAt env phase).triggeredIds = (run.firedAt env phase).map Rule.id := by
  change (run.verdictAt env phase).triggeredIds = _
  rw [verdictAt_eq, Verdict.triggeredIds, Verdict.ofFindings_eq, List.map_map]
  rfl

/-- Over the decision points of a run every rule of its definition is considered where it is due,
and what is counted at a point are the contributions of distinct rules. -/
structure ConsidersRules (env : Environment σ τ) (definition : Definition)
    (points : List (Phase × Run σ τ)) : Prop where
  due : ∀ rule ∈ definition.rules,
    (phasesOf env points rule).Perm (rule.duePhases (definition.steps.map Step.number))
  once : ∀ rule ∈ definition.rules, (phasesOf env points rule).Nodup
  enabled : ∀ consideration ∈ considerations env points,
    consideration.finding.rule ∈ definition.rules ∧ consideration.finding.rule.enabled = true
  alive : ∀ rule ∈ definition.rules, rule.enabled = true → phasesOf env points rule ≠ []
  counted : ∀ phase run, (phase, run) ∈ points →
    (run.verdictAt env phase).risk = Verdict.totalRisk (run.firedAt env phase) ∧
      ((run.firedAt env phase).map Rule.id).Nodup

theorem considersRules {definition : Definition} (accepted : definition.IsAccepted)
    (placed : definition.HasPlacedRules) {points : List (Phase × Run σ τ)}
    (about : ∀ point ∈ points, point.2.definition = definition)
    (whole : points.map Prod.fst =
      Stage.phases (Stage.agenda (Edges.ofSteps definition.steps).levels)) :
    ConsidersRules env definition points := by
  have visited := accepted.isLevelling.perm
  have distinct := accepted.steps.numbers
  have due : ∀ rule ∈ definition.rules,
      (phasesOf env points rule).Perm (rule.duePhases (definition.steps.map Step.number)) := by
    intro rule member
    rw [phasesOf_eq placed.ids member about, whole, Stage.phases_agenda,
      Rule.filter_appliesTo (visited.nodup_iff.mpr distinct) fun n scope =>
        visited.mem_iff.mpr (placed.scopes rule member n scope)]
    exact Rule.duePhases_perm visited
  constructor
  case due => exact due
  case once =>
    exact fun rule member => (due rule member).nodup_iff.mpr (Rule.nodup_duePhases distinct)
  case enabled =>
    intro consideration member
    obtain ⟨known, applies⟩ := mem_considerations about member
    unfold Rule.appliesTo at applies
    exact ⟨known, (Bool.and_eq_true_iff.mp applies).1⟩
  case alive =>
    intro rule member enabled unconsidered
    have never := due rule member
    rw [unconsidered] at never
    refine Rule.duePhases_ne_nil enabled ?_ never.nil_eq.symm
    simpa using placed.nonempty
  case counted =>
    intro phase run member
    refine ⟨?_, nodup_firedAt placed.ids (about _ member)⟩
    rw [verdictAt_eq, Verdict.ofFindings_eq]
    rfl

end Run

namespace Session

variable {σ τ : Type} {session : Session}

private theorem store_open? (session : Session) (registry : Registry σ) (id : String) :
    (session.open? registry id).2.store = session.store := by
  unfold open?
  split
  · rfl
  · split
    · rfl
    · dsimp only
      split <;> rfl

private theorem store_execute (session : Session) (env : Environment σ τ) (request : RunRequest)
    (state : σ) (log : τ) :
    (session.execute env request state log).session.store = session.store := by
  have kept := session.store_open? env.executor.registry request.definition
  unfold execute
  split
  · next opened =>
      rw [opened] at kept
      exact kept
  · next opened =>
      rw [opened] at kept
      split <;> exact kept

theorem Reachable.check (reachable : session.Reachable) :
    ∀ definition ∈ session.store.definitions, definition.check = .ok () := by
  induction reachable with
  | fresh => exact nofun
  | insert _ _ inserted ih =>
      obtain ⟨checked, stored⟩ := Definition.check_of_insert inserted
      intro other member
      rw [stored] at member
      rcases List.mem_cons.mp member with rfl | old
      · exact checked
      · exact ih other (List.mem_of_mem_filter old)
  | forget _ ih => exact ih
  | evaluate _ _ ih => exact ih
  | execute env request state log _ ih =>
      rw [store_execute]
      exact ih

private theorem Opened.definition_points {env : Environment σ τ} {request : RunRequest} {state : σ}
    {log : τ} {definition : Definition} {start : Run σ τ}
    (opened : Opened session env request state log definition start) :
    ∀ point ∈ Run.points (session.trace env request state log),
      point.2.definition = definition := by
  rintro ⟨phase, run⟩ member
  obtain ⟨past, later, split⟩ := List.append_of_mem (Run.mem_points.mp member)
  exact ((opened.reaches split).1.isAmount_risk opened.accepted opened.fresh).1

/-- A run that reaches its last decision point has considered every enabled rule exactly where
it is due, and its risk counts every contribution once. -/
theorem execution_considers_rules (reachable : session.Reachable) (env : Environment σ τ)
    (request : RunRequest) (state : σ) (log : τ) {definition : Definition}
    (stored : session.store.get request.definition = .ok definition)
    (reached : .point .final ∈ (session.trace env request state log).map Prod.fst) :
    let points := Run.points (session.trace env request state log)
    Run.ConsidersRules env definition points ∧
      ∀ execution, (session.execute env request state log).outcome = .ok execution →
        execution.audit.map AuditEntry.triggeredIds =
            points.map (fun (phase, run) => (run.firedAt env phase).map Rule.id) ∧
          execution.cumulativeRisk = Run.riskOver env 0.0 points := by
  intro points
  rcases execute_cases reachable.isSound env request state log with
    ⟨other, start, opened⟩ | ⟨error, _, _, _, _, no_trace⟩
  · obtain rfl := opened.definition_eq stored
    have placed := Definition.hasPlacedRules_of_check
      (reachable.check definition (Store.mem_of_get stored))
    obtain ⟨progress, ending, _⟩ := opened.ending
    obtain ⟨rest, same⟩ := ending.begun
    obtain rfl := Stage.eq_agenda_of_final same reached
    rw [List.append_nil] at same
    have whole : points.map Prod.fst =
        Stage.phases (Stage.agenda (Edges.ofSteps definition.steps).levels) := by
      rw [Run.phases_points, same]
    refine ⟨Run.considersRules opened.accepted placed opened.definition_points whole, ?_⟩
    intro execution ran
    have kept := opened.isRecorded.recorded execution ran
    have chained := opened.isRecorded.chained
    rw [kept.risk, kept.complete]
    rw [Run.trail_eq] at chained ⊢
    refine ⟨?_, Run.finalRisk_eq chained⟩
    rw [List.map_map]
    exact List.map_congr_left fun point _ => Run.triggeredIds_entryAt env point.1 point.2
  · rw [no_trace] at reached
    cases reached

theorem execution_considers_rules_doubling :
    let points := Run.points (Session.doubling.trace .arithmetic .doubling () [])
    Run.ConsidersRules .arithmetic .doubling points ∧
      ∀ execution, (Session.doubling.execute .arithmetic .doubling () []).outcome = .ok execution →
        execution.audit.map AuditEntry.triggeredIds =
            points.map (fun (phase, run) => (run.firedAt .arithmetic phase).map Rule.id) ∧
          execution.cumulativeRisk = Run.riskOver .arithmetic 0.0 points := by
  have reached : .point .final ∈
      (Session.doubling.trace .arithmetic .doubling () []).map Prod.fst := by
    decide +kernel
  exact execution_considers_rules reachable_doubling .arithmetic .doubling () [] rfl reached

end Session

end Tollgate
