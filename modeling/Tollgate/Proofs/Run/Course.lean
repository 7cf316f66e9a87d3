import Tollgate.Proofs.Definition.Accepted
import Tollgate.Proofs.Run.Stage

/-!
# The course of a run

What a run is after any number of stages: still running, with an amount as its
risk, one audit entry for each decision point behind it, one result for each
step of its levels, and the outputs of these results in its context.
-/

namespace Tollgate

namespace Stage

def phase? : Stage → Option Phase
  | .point phase => some phase
  | .level _ => none

def level? : Stage → Option (List Nat)
  | .point _ => none
  | .level numbers => some numbers

def levels (stages : List Stage) : List (List Nat) := stages.filterMap level?

theorem levels_append (stages later : List Stage) :
    levels (stages ++ later) = levels stages ++ levels later :=
  List.filterMap_append

private theorem levels_ofLevel (level : List Nat) : levels (ofLevel level) = [level] := by
  simp [levels, ofLevel, level?, List.filterMap_map, Function.comp_def]

@[simp] theorem levels_agenda (all : List (List Nat)) : levels (agenda all) = all := by
  have each : levels (all.flatMap ofLevel) = all := by
    induction all with
    | nil => rfl
    | cons level rest ih => rw [List.flatMap_cons, levels_append, levels_ofLevel, ih]; rfl
  rw [agenda, List.cons_append, ← List.singleton_append, levels_append, levels_append, each]
  simp [levels, List.filterMap_cons, level?]

theorem eq_agenda_of_final {levels : List (List Nat)} {stages rest : List Stage}
    (h : stages ++ rest = agenda levels) (member : .point .final ∈ stages) : rest = [] := by
  rcases List.eq_nil_or_concat rest with none_left | ⟨others, last, rfl⟩
  · exact none_left
  · rw [List.concat_eq_append, ← List.append_assoc, agenda] at h
    obtain ⟨same, _⟩ := List.append_inj' h rfl
    have inside : Stage.point .final ∈ .point .global :: levels.flatMap ofLevel := by
      rw [← same]
      exact List.mem_append_left _ member
    simp [ofLevel] at inside

theorem final_not_mem {levels : List (List Nat)} {stages : List Stage} {stage : Stage}
    (begun : stages ++ [stage] <+: agenda levels) : .point .final ∉ stages := by
  intro member
  obtain ⟨rest, same⟩ := begun
  rw [List.append_assoc] at same
  cases eq_agenda_of_final same member

theorem levels_prefix {all : List (List Nat)} {stages : List Stage}
    (begun : stages <+: agenda all) : levels stages <+: all := by
  have kept := begun.filterMap level?
  rwa [show (agenda all).filterMap level? = all from levels_agenda all] at kept

end Stage

namespace Run

variable {σ τ : Type} {env : Environment σ τ} {run later : Run σ τ}

/-! ## What a stage comes to -/

theorem going_point {phase : Phase} (h : run.perform env (.point phase) = .going later) :
    ∃ log, env.sink.record (run.entryAt env phase) run.log = (.ok (), log) ∧
      (run.routingAt env phase).canContinue = true ∧ later = run.recorded env phase log := by
  rw [perform_point] at h
  split at h
  · cases h
  · next log taken =>
      split at h
      · next goes =>
          injection h with same
          exact ⟨log, taken, goes, same.symm⟩
      · cases h

theorem ended_point {phase : Phase} (h : run.perform env (.point phase) = .ended later) :
    ∃ log, env.sink.record (run.entryAt env phase) run.log = (.ok (), log) ∧
      (run.routingAt env phase).canContinue = false ∧
      later = (run.recorded env phase log).halt phase (run.routingAt env phase) := by
  rw [perform_point] at h
  split at h
  · cases h
  · next log taken =>
      split at h
      · cases h
      · next stops =>
          injection h with same
          exact ⟨log, taken, by simpa using stops, same.symm⟩

theorem failed_point {phase : Phase} {error : RunError}
    (h : run.perform env (.point phase) = .failed later error) :
    ∃ reason log, env.sink.record (run.entryAt env phase) run.log = (.error reason, log) ∧
      error = .audit reason ∧ later = { run.judged env phase with log } := by
  rw [perform_point] at h
  split at h
  · next reason log refused =>
      injection h with same why
      exact ⟨reason, log, refused, why.symm, same.symm⟩
  · split at h <;> cases h

theorem going_level {level : List Nat} (h : run.perform env (.level level) = .going later) :
    run.seesCancel env = false ∧ ∃ results, (run.levelAt env level).outcome = .ok results ∧
      results.find? StepResult.abortsRun = none ∧
      later = (run.adopted env level).withResults results := by
  change run.runLevel env level = .going later at h
  unfold runLevel at h
  split at h
  · cases h
  · next calm =>
      refine ⟨by simpa using calm, ?_⟩
      split at h
      · cases h
      · next results outcome =>
          dsimp only at h
          split at h
          · cases h
          · next none_aborts =>
              injection h with same
              exact ⟨results, outcome, none_aborts, same.symm⟩

theorem ended_level {level : List Nat} (h : run.perform env (.level level) = .ended later) :
    (run.seesCancel env = true ∧
      later = { run with state := env.meanwhile run.state }.finish .failed "Run cancelled") ∨
    (run.seesCancel env = false ∧ ∃ results failed, (run.levelAt env level).outcome = .ok results ∧
      results.find? StepResult.abortsRun = some failed ∧
      later = ((run.adopted env level).withResults results).finish .failed
        (failed.error.getD ("step " ++ toString failed.number ++ " failed"))) := by
  change run.runLevel env level = .ended later at h
  unfold runLevel at h
  split at h
  · next cancelled =>
      injection h with same
      exact .inl ⟨cancelled, same.symm⟩
  · next calm =>
      refine .inr ⟨by simpa using calm, ?_⟩
      split at h
      · cases h
      · next results outcome =>
          dsimp only at h
          split at h
          · next failed aborts =>
              injection h with same
              exact ⟨results, failed, outcome, aborts, same.symm⟩
          · cases h

theorem failed_level {level : List Nat} {error : RunError}
    (h : run.perform env (.level level) = .failed later error) :
    ∃ reason, (run.levelAt env level).outcome = .error reason ∧ error = .context reason := by
  change run.runLevel env level = .failed later error at h
  unfold runLevel at h
  split at h
  · cases h
  · split at h
    · next reason outcome =>
        injection h with _ why
        exact ⟨reason, outcome, why.symm⟩
    · dsimp only at h
      split at h <;> cases h

/-! ## Fields of a recorded run -/

section Recorded

variable (env : Environment σ τ) (phase : Phase) (run : Run σ τ) (log : τ)

@[simp] theorem recorded_definition : (run.recorded env phase log).definition = run.definition := by
  cases phase <;> rfl

@[simp] theorem recorded_context : (run.recorded env phase log).context = run.context := by
  cases phase <;> rfl

@[simp] theorem recorded_status :
    (run.recorded env phase log).execution.status = run.execution.status := by
  cases phase <;> rfl

@[simp] theorem recorded_results :
    (run.recorded env phase log).execution.results = run.execution.results := by
  cases phase <;> rfl

@[simp] theorem recorded_approval :
    (run.recorded env phase log).execution.approval = run.execution.approval := by
  cases phase <;> rfl

@[simp] theorem recorded_autoApproved :
    (run.recorded env phase log).execution.autoApproved = run.execution.autoApproved := by
  cases phase <;> rfl

@[simp] theorem judged_state : (run.judged env phase).state = run.state := by
  cases phase <;> rfl

end Recorded

/-! ## Risk -/

private theorem isAmount_riskAfter {before : Float} {verdict : Verdict}
    (hb : Number.IsAmount before) (hv : Number.IsAmount verdict.risk) (floor : Option Float) :
    before ≤ riskAfter before verdict floor ∧
      Number.IsAmount (riskAfter before verdict floor) := by
  have grows := hb.le_add hv
  have sum := hb.add hv
  unfold riskAfter
  cases floor with
  | none => exact ⟨grows, sum⟩
  | some floor =>
      dsimp only
      rw [sum.isNaN, Bool.or_false]
      split
      · next above =>
          have le := Number.le_of_lt (of_decide_eq_true above)
          exact ⟨Number.le_trans grows le, sum.of_le le⟩
      · exact ⟨grows, sum⟩

private theorem isAmount_verdictAt (env : Environment σ τ) (phase : Phase)
    (h : ∀ rule ∈ run.definition.rules, Number.IsAmount rule.riskFactor) :
    Number.IsAmount (run.verdictAt env phase).risk :=
  Evaluator.isAmount_verdict h _ _ _

theorem le_riskAt (env : Environment σ τ) (phase : Phase)
    (h : ∀ rule ∈ run.definition.rules, Number.IsAmount rule.riskFactor)
    (amount : Number.IsAmount run.execution.cumulativeRisk) :
    run.execution.cumulativeRisk ≤ run.riskAt env phase ∧
      Number.IsAmount (run.riskAt env phase) :=
  isAmount_riskAfter amount (isAmount_verdictAt env phase h) _

end Run

/-! ## Committed outputs -/

namespace Context

theorem mem_entries {declared : List Step} {results : List StepResult} {output : String}
    {value : Json} :
    (output, value) ∈ entries declared results ↔
      ∃ result ∈ results, result.committed? = some value ∧
        Structure.outputOf? declared result.number = some output := by
  constructor
  · intro member
    obtain ⟨result, present, found⟩ := List.mem_filterMap.mp member
    obtain ⟨committed, write, known⟩ := Option.bind_eq_some_iff.mp found
    obtain ⟨name, same, pair⟩ := Option.map_eq_some_iff.mp known
    obtain ⟨rfl, rfl⟩ := Prod.mk.inj pair
    exact ⟨result, present, write, same⟩
  · rintro ⟨result, present, write, known⟩
    exact List.mem_filterMap.mpr ⟨result, present, by simp [write, known]⟩

theorem nodup_entries {declared : List Step} (sound : Structure.IsSound declared)
    {results : List StepResult} (distinct : (results.map StepResult.number).Nodup) :
    ((entries declared results).map Prod.fst).Nodup := by
  induction results with
  | nil => exact List.nodup_nil
  | cons result rest ih =>
      rw [List.map_cons, List.nodup_cons] at distinct
      obtain ⟨new, distinct⟩ := distinct
      change ((entries declared ([result] ++ rest)).map Prod.fst).Nodup
      rw [entries_append, List.map_append, List.nodup_append]
      refine ⟨?_, ih distinct, ?_⟩
      · unfold entries
        rw [List.filterMap_cons]
        split <;> simp
      · rintro name first _ later rfl
        obtain ⟨⟨_, value⟩, written, rfl⟩ := List.mem_map.mp first
        obtain ⟨⟨_, other⟩, rewritten, equal⟩ := List.mem_map.mp later
        dsimp only at equal
        subst equal
        obtain ⟨_, member, _, output⟩ := mem_entries.mp written
        obtain ⟨second, present, _, same⟩ := mem_entries.mp rewritten
        rw [List.mem_singleton] at member
        subst member
        obtain ⟨step, known, number, names⟩ := Structure.outputOf?_mem output
        obtain ⟨step', known', number', names'⟩ := Structure.outputOf?_mem same
        have equal := sound.number_of_output known known' (names.trans names'.symm)
        refine new (List.mem_map.mpr ⟨second, present, ?_⟩)
        rw [← number, ← number', equal]

end Context

namespace Run

variable {σ τ : Type} {env : Environment σ τ}

/-! ## Where a run stands -/

/-- The entries of the decision points of a trace. -/
def trail (env : Environment σ τ) (past : List (Stage × Run σ τ)) : List AuditEntry :=
  past.filterMap fun entry => entry.1.phase?.map fun phase => entry.2.entryAt env phase

structure IsFresh (definition : Definition) (run : Run σ τ) : Prop where
  about : run.definition = definition
  status : run.execution.status = .running
  results : run.execution.results = []
  risk : run.execution.cumulativeRisk = 0.0
  approval : run.execution.approval = none
  audit : run.execution.audit = []
  autoApproved : run.execution.autoApproved = false
  steps : run.context.steps = []
  declared : run.context.declared = definition.steps

/-- What a run is once the stages of `past` are behind it. -/
structure Stands (env : Environment σ τ) (start : Run σ τ) (past : List (Stage × Run σ τ))
    (run : Run σ τ) : Prop where
  definition : run.definition = start.definition
  status : run.execution.status = .running
  approval : run.execution.approval = none
  autoApproved : run.execution.autoApproved = false
  audit : run.execution.audit = trail env past
  numbers : run.execution.results.map StepResult.number =
    (Stage.levels (past.map Prod.fst)).flatten
  context : run.context =
    { start.context with
      steps := Json.ofPairs (Context.entries start.definition.steps run.execution.results) }

variable {start here : Run σ τ} {past : List (Stage × Run σ τ)} {definition : Definition}

theorem IsFresh.stands (fresh : IsFresh definition start) : Stands env start [] start where
  definition := rfl
  status := fresh.status
  approval := fresh.approval
  autoApproved := fresh.autoApproved
  audit := fresh.audit
  numbers := by simp [fresh.results, Stage.levels]
  context := by
    have empty : Json.ofPairs (Context.entries start.definition.steps start.execution.results) =
        start.context.steps := by
      rw [fresh.results, fresh.steps]
      rfl
    rw [empty]

theorem trail_append (env : Environment σ τ) (past next : List (Stage × Run σ τ)) :
    trail env (past ++ next) = trail env past ++ trail env next :=
  List.filterMap_append

theorem Stands.point (stands : Stands env start past here) {phase : Phase} {later : Run σ τ}
    (h : here.perform env (.point phase) = .going later) :
    Stands env start (past ++ [(.point phase, here)]) later := by
  obtain ⟨log, _, _, rfl⟩ := going_point h
  constructor
  · simpa using stands.definition
  · simpa using stands.status
  · simpa using stands.approval
  · simpa using stands.autoApproved
  · rw [trail_append, ← stands.audit]
    rfl
  · simp only [recorded_results, List.map_append, List.map_cons, List.map_nil,
      Stage.levels_append, stands.numbers]
    simp [Stage.levels, Stage.level?]
  · simpa using stands.context

theorem exists_levels {levels : List (List Nat)} {stages : List Stage} {level : List Nat}
    (h : stages ++ [.level level] <+: Stage.agenda levels) :
    ∃ after, levels = Stage.levels stages ++ level :: after := by
  obtain ⟨rest, same⟩ := h
  have split := congrArg Stage.levels same
  rw [Stage.levels_agenda, Stage.levels_append, Stage.levels_append] at split
  refine ⟨Stage.levels rest, ?_⟩
  rw [← split]
  simp [Stage.levels, Stage.level?]

theorem nodup_levels (sound : Structure.IsSound definition.steps) {stages : List Stage}
    {level : List Nat}
    (h : stages ++ [.level level] <+: Stage.agenda (Edges.ofSteps definition.steps).levels) :
    ((Stage.levels stages).flatten ++ level).Nodup ∧ definition.CanRun level := by
  obtain ⟨after, split⟩ := exists_levels h
  have levelling := sound.isLevelling
  constructor
  · have all : (Edges.ofSteps definition.steps).levels.flatten.Nodup :=
      levelling.perm.symm.nodup sound.numbers
    rw [split, List.flatten_append, List.flatten_cons, ← List.append_assoc] at all
    exact all.of_append_left
  · exact levelling.canRun sound level (by simp [split])

theorem Stands.commitAll (sound : Structure.IsSound definition.steps)
    (fresh : IsFresh definition start) (stands : Stands env start past here) {level : List Nat}
    (begun : past.map Prod.fst ++ [.level level] <+:
      Stage.agenda (Edges.ofSteps definition.steps).levels) :
    here.definition.CanRun level ∧
      here.context.commitAll (here.resultsAt env level) =
        (.ok (),
          { here.context with
            steps := Json.ofPairs (Context.entries start.definition.steps
              (here.execution.results ++ here.resultsAt env level)) }) := by
  obtain ⟨distinct, runs⟩ := nodup_levels sound begun
  have same : here.definition = definition := stands.definition.trans fresh.about
  have can_run : here.definition.CanRun level := same ▸ runs
  have numbers := number_resultsAt env can_run
  have declared : here.context.declared = definition.steps := by
    rw [stands.context]
    exact fresh.declared
  refine ⟨can_run, ?_⟩
  have ok := Context.commitAll_ok here.context (here.resultsAt env level)
    (Context.entries definition.steps here.execution.results)
    (by rw [stands.context, fresh.about])
    (fun result member => ?_) ?_
  · have all : Context.entries definition.steps here.execution.results ++
        Context.entries here.context.declared (here.resultsAt env level) =
          Context.entries start.definition.steps
            (here.execution.results ++ here.resultsAt env level) := by
      rw [declared, fresh.about, Context.entries_append]
    rw [ok, all]
  · have inside : result.number ∈ level := numbers ▸ List.mem_map_of_mem member
    obtain ⟨step, found⟩ := runs.defined result.number inside
    have output := sound.outputOf? (List.mem_of_find?_eq_some found)
    rw [Definition.number_of_step? found] at output
    unfold Context.outputOf?
    rw [declared, output]
    rfl
  · rw [declared, ← Context.entries_append]
    refine Context.nodup_entries sound ?_
    rw [List.map_append, stands.numbers, numbers]
    exact distinct

theorem Stands.levelAt (sound : Structure.IsSound definition.steps)
    (fresh : IsFresh definition start) (stands : Stands env start past here) {level : List Nat}
    (begun : past.map Prod.fst ++ [.level level] <+:
      Stage.agenda (Edges.ofSteps definition.steps).levels) :
    (here.levelAt env level).outcome = .ok (here.resultsAt env level) := by
  obtain ⟨can_run, commits⟩ := stands.commitAll sound fresh begun
  rw [(levelAt_eq can_run).1, commits]
  rfl

private theorem Stands.level (sound : Structure.IsSound definition.steps)
    (fresh : IsFresh definition start)
    (stands : Stands env start past here) {level : List Nat} {later : Run σ τ}
    (begun : past.map Prod.fst ++ [.level level] <+:
      Stage.agenda (Edges.ofSteps definition.steps).levels)
    (h : here.perform env (.level level) = .going later) :
    Stands env start (past ++ [(.level level, here)]) later := by
  obtain ⟨_, results, outcome, _, rfl⟩ := going_level h
  obtain ⟨can_run, commits⟩ := stands.commitAll sound fresh begun
  have same : results = here.resultsAt env level := by
    rw [stands.levelAt sound fresh begun] at outcome
    injection outcome with same
    exact same.symm
  subst same
  constructor
  · exact stands.definition
  · exact stands.status
  · exact stands.approval
  · exact stands.autoApproved
  · rw [trail_append]
    change here.execution.audit = trail env past ++ []
    rw [List.append_nil, stands.audit]
  · change (here.execution.results ++ here.resultsAt env level).map StepResult.number = _
    simp only [List.map_append, stands.numbers, number_resultsAt env can_run, Stage.levels_append,
      List.map_cons, List.map_nil]
    simp [Stage.levels, Stage.level?]
  · change (here.levelAt env level).context = _
    rw [(levelAt_eq can_run).2, commits, stands.context]
    rfl

theorem Reaches.stands (sound : Structure.IsSound definition.steps)
    (fresh : IsFresh definition start) (reaches : Reaches env start past here)
    (begun : past.map Prod.fst <+: Stage.agenda (Edges.ofSteps definition.steps).levels) :
    Stands env start past here := by
  induction reaches with
  | start => exact fresh.stands
  | @perform past here later stage reaches performed ih =>
      rw [List.map_append] at begun
      have stands := ih ((List.prefix_append _ _).trans begun)
      cases stage with
      | point phase => exact stands.point performed
      | level level => exact stands.level sound fresh begun performed

theorem Reaches.isAmount_risk (accepted : definition.IsAccepted)
    (fresh : IsFresh definition start) (reaches : Reaches env start past here) :
    here.definition = definition ∧ Number.IsAmount here.execution.cumulativeRisk := by
  induction reaches with
  | start => exact ⟨fresh.about, fresh.risk ▸ Number.isAmount_zero⟩
  | @perform past here later stage reaches performed ih =>
      obtain ⟨same, amount⟩ := ih
      cases stage with
      | point phase =>
          obtain ⟨log, _, _, rfl⟩ := going_point performed
          have rules : ∀ rule ∈ here.definition.rules, Number.IsAmount rule.riskFactor :=
            same ▸ accepted.contributions
          exact ⟨by simpa using same, (le_riskAt env phase rules amount).2⟩
      | level level =>
          obtain ⟨_, results, _, _, rfl⟩ := going_level performed
          exact ⟨same, amount⟩

theorem Reaches.rises (accepted : definition.IsAccepted) (fresh : IsFresh definition start)
    (reaches : Reaches env start past here) (phase : Phase) :
    here.execution.cumulativeRisk ≤ here.riskAt env phase ∧
      Number.IsAmount (here.riskAt env phase) := by
  obtain ⟨same, amount⟩ := reaches.isAmount_risk accepted fresh
  exact le_riskAt env phase (same ▸ accepted.contributions) amount

/-! ## Endings -/

/-- The ways in which a run can end: it completes, halts at a decision point, has an entry
refused there, or stops at a level. -/
inductive Ending (env : Environment σ τ) (start : Run σ τ) (agenda : List Stage)
    (trace : List (Stage × Run σ τ)) : Progress σ τ → Prop
  | completed {last : Run σ τ} (whole : trace.map Prod.fst = agenda)
      (reaches : Reaches env start trace last) :
      Ending env start agenda trace (.ended last.complete)
  | halted {past : List (Stage × Run σ τ)} {phase : Phase} {here : Run σ τ} {log : τ}
      (split : trace = past ++ [(.point phase, here)])
      (begun : past.map Prod.fst ++ [.point phase] <+: agenda)
      (reaches : Reaches env start past here)
      (taken : env.sink.record (here.entryAt env phase) here.log = (.ok (), log))
      (halts : (here.routingAt env phase).canContinue = false) :
      Ending env start agenda trace
        (.ended ((here.recorded env phase log).halt phase (here.routingAt env phase)))
  | refused {past : List (Stage × Run σ τ)} {phase : Phase} {here : Run σ τ} {log : τ}
      {error : AuditError} (split : trace = past ++ [(.point phase, here)])
      (begun : past.map Prod.fst ++ [.point phase] <+: agenda)
      (reaches : Reaches env start past here)
      (refused : env.sink.record (here.entryAt env phase) here.log = (.error error, log)) :
      Ending env start agenda trace (.failed { here.judged env phase with log } (.audit error))
  | stopped {past : List (Stage × Run σ τ)} {level : List Nat} {here last : Run σ τ}
      (split : trace = past ++ [(.level level, here)])
      (begun : past.map Prod.fst ++ [.level level] <+: agenda)
      (reaches : Reaches env start past here)
      (ended : here.perform env (.level level) = .ended last) :
      Ending env start agenda trace (.ended last)

theorem ending_follow (env : Environment σ τ) (accepted : definition.IsAccepted)
    (fresh : IsFresh definition start) :
    let agenda := Stage.agenda (Edges.ofSteps definition.steps).levels
    Ending env start agenda (trace env agenda start)
      ((follow env agenda start).andThen fun last => .ended last.complete) := by
  intro agenda
  have ends := ends_follow env agenda start
  generalize follow env agenda start = progress at ends ⊢
  cases ends with
  | going whole reaches => exact .completed whole reaches
  | @stopped past stage rest here _ split begun reaches performed stops =>
      have begun : past.map Prod.fst ++ [stage] <+: agenda := ⟨rest, by simp [begun]⟩
      cases progress with
      | going later => exact absurd rfl (stops later)
      | ended last =>
          cases stage with
          | point phase =>
              obtain ⟨log, taken, halts, rfl⟩ := ended_point performed
              exact .halted split begun reaches taken halts
          | level level => exact .stopped split begun reaches performed
      | failed last error =>
          cases stage with
          | point phase =>
              obtain ⟨reason, log, refused, rfl, rfl⟩ := failed_point performed
              exact .refused split begun reaches refused
          | level level =>
              obtain ⟨reason, outcome, _⟩ := failed_level performed
              have stands :=
                reaches.stands accepted.steps fresh ((List.prefix_append _ _).trans begun)
              rw [stands.levelAt accepted.steps fresh begun] at outcome
              cases outcome

end Run

end Tollgate
