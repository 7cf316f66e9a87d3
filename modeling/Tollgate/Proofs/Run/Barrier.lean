import Tollgate.Proofs.Plan.Dependence
import Tollgate.Proofs.Run.Calls
import Tollgate.Proofs.Run.Settled

/-!
# Levels as barriers

Before an engine is called for a step, all that the step depends on has come to
a result and is committed.  No step is taken up twice, and once a run stops no
engine is called any more.  What is returned accounts for the levels that the
run has taken, from the first one on.
-/

namespace Tollgate

/-! ## Accounts of calls -/

/-- Results that have an output exactly if their status says so, and that count the calls made
for their steps. -/
structure Accounts {σ : Type} (calls : List (Job σ)) (results : List StepResult) : Prop where
  written : ∀ result ∈ results, result.status.hasOutput = result.output.isSome
  attempts : ∀ result ∈ results,
    calls.countP (fun job => job.step.number == result.number) = result.attempts
  answered : ∀ job ∈ calls, job.step.number ∈ results.map StepResult.number

theorem StepResult.committed?_eq_output {result : StepResult}
    (written : result.status.hasOutput = result.output.isSome) :
    result.committed? = result.output := by
  unfold committed?
  rw [written]
  cases result.output <;> rfl

theorem StepResult.hasOutput_failure (step : Step) (message : String) (startedAt now : Moment) :
    (failure step message startedAt now).status.hasOutput =
      (failure step message startedAt now).output.isSome := by
  unfold failure
  cases step.onError with
  | fail => rfl
  | skip => rfl
  | «continue» => cases step.fallback <;> rfl

private theorem Finished.hasOutput_result (finished : Finished) (origin : Moment) :
    (finished.result origin).status.hasOutput = (finished.result origin).output.isSome := by
  unfold result
  dsimp only
  cases finished.invocation.result with
  | ok value => cases finished.invocation.usedFallback <;> rfl
  | error error => exact StepResult.hasOutput_failure _ _ _ _

namespace Executor

variable {σ : Type} {executor : Executor σ} {context : Context} {step : Step} {now : Moment}

private theorem hasOutput_of_place_inl {result : StepResult}
    (h : executor.place step context now = .inl result) :
    result.status.hasOutput = result.output.isSome := by
  unfold place at h
  split at h
  · next skips =>
      injection h with same
      cases same ▸ Step.isSkip_of_preparation skips <;> rfl
  · split at h
    · injection h with same
      exact same ▸ StepResult.hasOutput_failure _ _ _ _
    · cases h

theorem accounts_level (executor : Executor σ) {steps : List Step}
    (ascending : (steps.map Step.number).Pairwise (· < ·)) (context : Context) (state : σ)
    (now : Moment) :
    Accounts (executor.jobCalls (executor.placeAll steps context now).jobs state)
      (executor.levelResults steps context state now) where
  written result member := by
    rcases mem_levelResults member with ⟨step, _, placed⟩ | ⟨finished, rfl⟩
    · exact hasOutput_of_place_inl placed
    · exact finished.hasOutput_result now
  attempts result member := countP_jobCalls ascending member
  answered job member := by
    obtain ⟨step, known, placed⟩ := exists_place_of_mem_jobCalls member
    rw [executor.number_levelResults context state now ascending, step_of_place_inr placed]
    exact List.mem_map_of_mem known

end Executor

namespace Accounts

variable {σ : Type} {calls more : List (Job σ)} {results later : List StepResult}

theorem nil : Accounts ([] : List (Job σ)) [] := ⟨by simp, by simp, by simp⟩

theorem append (accounts : Accounts calls results) (next : Accounts more later)
    (distinct : ((results ++ later).map StepResult.number).Nodup) :
    Accounts (calls ++ more) (results ++ later) := by
  rw [List.map_append, List.nodup_append] at distinct
  obtain ⟨_, _, apart⟩ := distinct
  have none_of {part : List (Job σ)} {number : Nat}
      (h : ∀ job ∈ part, job.step.number ≠ number) :
      part.countP (fun job => job.step.number == number) = 0 :=
    List.countP_eq_zero.mpr fun job member same => h job member (beq_iff_eq.mp same)
  refine ⟨fun result member => ?_, fun result member => ?_, fun job member => ?_⟩
  · exact (List.mem_append.mp member).elim (accounts.written result) (next.written result)
  · rw [List.countP_append]
    rcases List.mem_append.mp member with earlier | afterwards
    · rw [accounts.attempts result earlier, none_of, Nat.add_zero]
      exact fun job called same => apart _ (List.mem_map_of_mem earlier) _
        (next.answered job called) same.symm
    · rw [next.attempts result afterwards, none_of, Nat.zero_add]
      exact fun job called same => apart _ (accounts.answered job called) _
        (List.mem_map_of_mem afterwards) same
  · rw [List.map_append]
    exact (List.mem_append.mp member).elim
      (fun called => List.mem_append_left _ (accounts.answered job called))
      (fun called => List.mem_append_right _ (next.answered job called))

end Accounts

namespace Run

variable {σ τ : Type} {env : Environment σ τ} {start here : Run σ τ}
  {trace past later : List (Stage × Run σ τ)} {definition : Definition} {level : List Nat}

theorem callsAt_of_calm (calm : here.seesCancel env = false)
    (runs : here.definition.CanRun level) :
    here.callsAt env level =
      env.executor.jobCalls
        (env.executor.placeAll (here.definition.stepsAt level) here.context here.now).jobs
        (env.meanwhile here.state) := by
  unfold callsAt
  rw [calm, env.executor.levelCalls_eq here.definition here.context here.evaluator _ here.now
    runs.steps_eq]
  rfl

theorem callsAt_of_cancelled (cancelled : here.seesCancel env = true) :
    here.callsAt env level = [] :=
  if_pos cancelled

theorem accounts_resultsAt (calm : here.seesCancel env = false)
    (runs : here.definition.CanRun level) :
    Accounts (here.callsAt env level) (here.resultsAt env level) := by
  rw [callsAt_of_calm calm runs]
  exact env.executor.accounts_level (runs.numbers_eq.symm ▸ runs.ascending) _ _ _

def calls (env : Environment σ τ) (trace : List (Stage × Run σ τ)) : List (Job σ) :=
  trace.flatMap (stageCalls env)

theorem calls_append_point (env : Environment σ τ) (past : List (Stage × Run σ τ))
    (phase : Phase) (run : Run σ τ) :
    calls env (past ++ [(.point phase, run)]) = calls env past := by
  simp [calls, stageCalls]

theorem calls_append_level (env : Environment σ τ) (past : List (Stage × Run σ τ))
    (level : List Nat) (run : Run σ τ) :
    calls env (past ++ [(.level level, run)]) = calls env past ++ run.callsAt env level := by
  simp [calls, stageCalls]

theorem Reaches.accounts (sound : Structure.IsSound definition.steps)
    (fresh : IsFresh definition start) (reaches : Reaches env start past here)
    (begun : past.map Prod.fst <+: Stage.agenda (Edges.ofSteps definition.steps).levels) :
    Accounts (calls env past) here.execution.results := by
  induction reaches with
  | start =>
      rw [fresh.results]
      exact .nil
  | @perform past here later stage reaches performed ih =>
      rw [List.map_append] at begun
      have earlier := (List.prefix_append _ _).trans begun
      have stands := reaches.stands sound fresh earlier
      cases stage with
      | point phase =>
          obtain ⟨log, _, _, rfl⟩ := going_point performed
          rw [recorded_results, calls_append_point]
          exact ih earlier
      | level level =>
          obtain ⟨calm, results, outcome, _, rfl⟩ := going_level performed
          rw [stands.levelAt sound fresh begun] at outcome
          injection outcome with same
          subst same
          rw [calls_append_level]
          exact (ih earlier).append (accounts_resultsAt calm (stands.commitAll sound fresh begun).1)
            (stands.nodup_results sound fresh begun)

/-! ## Barriers -/

/-- All that a step depends on is behind a run: it has a result, whose output is committed. -/
def HasBehind (definition : Definition) (run : Run σ τ) (step : Step) : Prop :=
  ∀ number, (Edges.ofSteps definition.steps).DependsOn step.number number →
    ∃ result ∈ run.execution.results, result.number = number ∧
      run.context.committed? number = result.output

theorem Reaches.hasBehind (sound : Structure.IsSound definition.steps)
    (fresh : IsFresh definition start) (reaches : Reaches env start past here)
    (begun : past.map Prod.fst ++ [.level level] <+:
      Stage.agenda (Edges.ofSteps definition.steps).levels)
    {step : Step} (member : step.number ∈ level) : here.HasBehind definition step := by
  intro number depends
  have earlier := (List.prefix_append _ _).trans begun
  have stands := reaches.stands sound fresh earlier
  have accounts := reaches.accounts sound fresh earlier
  obtain ⟨after, split⟩ := exists_levels begun
  have behind := depends.mem split member
  have planned : number ∈ (Edges.ofSteps definition.steps).levels.flatten := by
    rw [split, List.flatten_append]
    exact List.mem_append_left _ behind
  obtain ⟨owner, listed, about⟩ := List.mem_map.mp (sound.isLevelling.perm.mem_iff.mp planned)
  rw [← stands.numbers] at behind
  obtain ⟨result, present, rfl⟩ := List.mem_map.mp behind
  have distinct : (here.execution.results.map StepResult.number).Nodup := by
    have all := stands.nodup_results sound fresh begun
    rw [List.map_append] at all
    exact all.of_append_left
  refine ⟨result, present, rfl, ?_⟩
  rw [stands.context_after fresh,
    Context.committed?_after sound fresh.declared distinct present listed about]
  exact StepResult.committed?_eq_output (accounts.written result present)

/-- How a trace keeps calls to engines apart. -/
structure KeepsBarriers (env : Environment σ τ) (definition : Definition)
    (trace : List (Stage × Run σ τ)) : Prop where
  called : ∀ level here, (.level level, here) ∈ trace → ∀ job ∈ here.callsAt env level,
    job.step ∈ definition.steps ∧ job.step.number ∈ level ∧ here.HasBehind definition job.step
  once : (Stage.levels (trace.map Prod.fst)).flatten.Nodup
  halted : ∀ past phase here later, trace = past ++ (.point phase, here) :: later →
    (here.routingAt env phase).canContinue = false → later = []
  aborted : ∀ past level here later results, trace = past ++ (.level level, here) :: later →
    (here.levelAt env level).outcome = .ok results →
    (∃ result ∈ results, result.abortsRun = true) → later = []
  cancelled : ∀ past level here later, trace = past ++ (.level level, here) :: later →
    here.seesCancel env = true → here.callsAt env level = [] ∧ later = []

theorem keepsBarriers_nil (env : Environment σ τ) (definition : Definition) :
    KeepsBarriers env definition [] :=
  ⟨by simp, by simp [Stage.levels], by simp, by simp, by simp⟩

theorem keepsBarriers_trace (env : Environment σ τ) (sound : Structure.IsSound definition.steps)
    (fresh : IsFresh definition start) :
    KeepsBarriers env definition
      (Run.trace env (Stage.agenda (Edges.ofSteps definition.steps).levels) start) where
  called level here member job called := by
    obtain ⟨past, later, split⟩ := List.append_of_mem member
    obtain ⟨reaches, rest, whole, _⟩ := reaches_of_mem_trace split
    have begun : past.map Prod.fst ++ [.level level] <+:
        Stage.agenda (Edges.ofSteps definition.steps).levels := ⟨rest, by simp [whole]⟩
    have stands := reaches.stands sound fresh ((List.prefix_append _ _).trans begun)
    have same : here.definition = definition := stands.definition.trans fresh.about
    cases flag : here.seesCancel env with
    | true =>
        rw [callsAt_of_cancelled flag] at called
        cases called
    | false =>
        rw [callsAt_of_calm flag (stands.commitAll sound fresh begun).1] at called
        obtain ⟨step, at_level, placed⟩ := Executor.exists_place_of_mem_jobCalls called
        obtain ⟨known, inside⟩ := Definition.mem_of_stepsAt at_level
        obtain rfl := Executor.step_of_place_inr placed
        exact ⟨same ▸ known, inside, reaches.hasBehind sound fresh begun inside⟩
  once := by
    have taken := Stage.levels_prefix
      (stages_trace env (Stage.agenda (Edges.ofSteps definition.steps).levels) start)
    obtain ⟨rest, whole⟩ := taken
    have all := sound.isLevelling.perm.symm.nodup sound.numbers
    rw [← whole, List.flatten_append] at all
    exact all.of_append_left
  halted past phase here later split halts := by
    obtain ⟨_, _, _, ⟨next, performed⟩ | last⟩ := reaches_of_mem_trace split
    · obtain ⟨_, _, goes, _⟩ := going_point performed
      rw [halts] at goes
      cases goes
    · exact last
  aborted past level here later results split outcome aborts := by
    obtain ⟨_, _, _, ⟨next, performed⟩ | last⟩ := reaches_of_mem_trace split
    · obtain ⟨_, others, same, none_aborts, _⟩ := going_level performed
      rw [outcome] at same
      injection same with same
      subst same
      obtain ⟨result, member, aborts⟩ := aborts
      exact absurd aborts (List.find?_eq_none.mp none_aborts result member)
    · exact last
  cancelled past level here later split flag := by
    refine ⟨callsAt_of_cancelled flag, ?_⟩
    obtain ⟨_, _, _, ⟨next, performed⟩ | last⟩ := reaches_of_mem_trace split
    · obtain ⟨calm, _⟩ := going_level performed
      rw [flag] at calm
      cases calm
    · exact last

end Run

/-! ## What is returned -/

/-- How an execution accounts for the levels of its trace. -/
structure Execution.ReportsLevels {σ τ : Type} (env : Environment σ τ) (definition : Definition)
    (trace : List (Stage × Run σ τ)) (execution : Execution) : Prop where
  numbers : ∃ k ≤ (Edges.ofSteps definition.steps).levels.length,
    execution.results.map StepResult.number =
        ((Edges.ofSteps definition.steps).levels.take k).flatten ∧
      (.point .final ∈ trace.map Prod.fst → k = (Edges.ofSteps definition.steps).levels.length)
  once : (execution.results.map StepResult.number).Nodup
  accounts : Accounts (Run.calls env trace) execution.results
  outputs : ∃ fields, execution.outputs = .object fields ∧ (fields.map Prod.fst).Nodup ∧
    fields.length = execution.results.countP (fun result => result.status.hasOutput) ∧
    ∀ name value, (name, value) ∈ fields ↔
      ∃ result ∈ execution.results, ∃ step ∈ definition.steps, step.number = result.number ∧
        step.output = name ∧ result.status.hasOutput = true ∧ result.output = some value

private theorem StepResult.committed?_eq_some_iff {result : StepResult} {value : Json} :
    result.committed? = some value ↔
      result.status.hasOutput = true ∧ result.output = some value := by
  unfold committed?
  rw [Option.filter_eq_some_iff]
  exact and_comm

private theorem Context.length_entries {steps : List Step} (sound : Structure.IsSound steps)
    {results : List StepResult}
    (known : ∀ result ∈ results, result.number ∈ steps.map Step.number)
    (written : ∀ result ∈ results, result.status.hasOutput = result.output.isSome) :
    (entries steps results).length = results.countP fun result => result.status.hasOutput := by
  unfold entries
  rw [List.length_filterMap_eq_countP]
  refine List.countP_congr fun result member => ?_
  obtain ⟨step, listed, same⟩ := List.mem_map.mp (known result member)
  rw [StepResult.committed?_eq_output (written result member), ← same, sound.outputOf? listed,
    written result member]
  cases result.output <;> simp

namespace Run

variable {σ τ : Type} {env : Environment σ τ} {start here : Run σ τ}
  {trace past : List (Stage × Run σ τ)} {definition : Definition} {results : List StepResult}
  {taken : List (List Nat)} {execution : Execution}

theorem reportsLevels (sound : Structure.IsSound definition.steps)
    (begun : taken <+: (Edges.ofSteps definition.steps).levels)
    (final : .point .final ∈ trace.map Prod.fst → taken = (Edges.ofSteps definition.steps).levels)
    (numbers : results.map StepResult.number = taken.flatten)
    (accounts : Accounts (calls env trace) results) (same : execution.results = results)
    (outputs : execution.outputs =
      .object (Json.ofPairs (Context.entries definition.steps results))) :
    execution.ReportsLevels env definition trace := by
  subst same
  obtain ⟨rest, whole⟩ := begun
  have planned := sound.isLevelling.perm
  rw [← whole, List.flatten_append, ← numbers] at planned
  have distinct : (execution.results.map StepResult.number).Nodup :=
    (planned.symm.nodup sound.numbers).of_append_left
  have known : ∀ result ∈ execution.results, result.number ∈ definition.steps.map Step.number :=
    fun result member =>
      planned.mem_iff.mp (List.mem_append_left _ (List.mem_map_of_mem member))
  have keys := Context.nodup_entries sound distinct
  have fields := Json.perm_ofPairs keys
  constructor
  · refine ⟨taken.length, ?_, ?_, fun reached => by rw [final reached]⟩
    · simp [← whole]
    · simp [← whole, numbers]
  · exact distinct
  · exact accounts
  · refine ⟨_, outputs, (fields.map Prod.fst).symm.nodup keys, ?_, fun name value => ?_⟩
    · rw [fields.length_eq, Context.length_entries sound known accounts.written]
    · rw [fields.mem_iff, Context.mem_entries]
      simp only [StepResult.committed?_eq_some_iff, Structure.outputOf?_eq_some_iff sound.numbers]
      constructor
      · rintro ⟨result, member, ⟨status, output⟩, step, listed, about, names⟩
        exact ⟨result, member, step, listed, about, names, status, output⟩
      · rintro ⟨result, member, step, listed, about, names, status, output⟩
        exact ⟨result, member, ⟨status, output⟩, step, listed, about, names⟩

theorem reportsLevels_complete (sound : Structure.IsSound definition.steps)
    (fresh : IsFresh definition start)
    (whole : trace.map Prod.fst = Stage.agenda (Edges.ofSteps definition.steps).levels)
    (reaches : Reaches env start trace here) :
    here.complete.execution.ReportsLevels env definition trace := by
  have begun : trace.map Prod.fst <+: Stage.agenda (Edges.ofSteps definition.steps).levels :=
    whole ▸ List.prefix_rfl
  have stands := reaches.stands sound fresh begun
  refine reportsLevels sound (Stage.levels_prefix begun) (fun _ => ?_) stands.numbers
    (reaches.accounts sound fresh begun) rfl ?_
  · rw [whole, Stage.levels_agenda]
  · change Json.object here.context.steps = _
    rw [stands.context, fresh.about]

theorem reportsLevels_halt (sound : Structure.IsSound definition.steps)
    (fresh : IsFresh definition start) {phase : Phase} {log : τ}
    (split : trace = past ++ [(.point phase, here)])
    (begun : past.map Prod.fst ++ [.point phase] <+:
      Stage.agenda (Edges.ofSteps definition.steps).levels)
    (reaches : Reaches env start past here) :
    ((here.recorded env phase log).halt phase
      (here.routingAt env phase)).execution.ReportsLevels env definition trace := by
  have earlier := (List.prefix_append _ _).trans begun
  have stands := reaches.stands sound fresh earlier
  refine reportsLevels sound (Stage.levels_prefix earlier) (fun reached => ?_) stands.numbers
    ?_ (recorded_results env phase here log) ?_
  · rw [split, List.map_append, List.mem_append,
      or_iff_right (Stage.final_not_mem begun)] at reached
    obtain rfl : Phase.final = phase := by simpa using reached
    obtain ⟨rest, whole⟩ := begun
    obtain rfl := Stage.eq_agenda_of_final whole (by simp)
    rw [List.append_nil] at whole
    have all := congrArg Stage.levels whole
    rw [Stage.levels_agenda, Stage.levels_append] at all
    exact (List.append_nil _).symm.trans all
  · rw [split, calls_append_point]
    exact reaches.accounts sound fresh earlier
  · change Json.object (here.recorded env phase log).context.steps = _
    rw [recorded_context, stands.context, fresh.about]

private theorem reportsLevels_level (sound : Structure.IsSound definition.steps)
    (fresh : IsFresh definition start) {level : List Nat} {last : Run σ τ}
    (split : trace = past ++ [(.level level, here)])
    (begun : past.map Prod.fst ++ [.level level] <+:
      Stage.agenda (Edges.ofSteps definition.steps).levels)
    (reaches : Reaches env start past here)
    (ended : here.perform env (.level level) = .ended last) :
    last.execution.ReportsLevels env definition trace := by
  have earlier := (List.prefix_append _ _).trans begun
  have stands := reaches.stands sound fresh earlier
  have accounts := reaches.accounts sound fresh earlier
  have not_final : .point .final ∉ trace.map Prod.fst := by
    rw [split, List.map_append, List.mem_append, or_iff_right (Stage.final_not_mem begun)]
    simp
  rcases ended_level ended with ⟨flag, rfl⟩ | ⟨calm, results, failed, outcome, _, rfl⟩
  · refine reportsLevels sound (Stage.levels_prefix earlier)
      (fun reached => absurd reached not_final) stands.numbers ?_ rfl ?_
    · rw [split, calls_append_level, callsAt_of_cancelled flag, List.append_nil]
      exact accounts
    · change Json.object here.context.steps = _
      rw [stands.context, fresh.about]
  · obtain ⟨runs, commits⟩ := stands.commitAll sound fresh begun
    rw [stands.levelAt sound fresh begun] at outcome
    injection outcome with same
    subst same
    have numbers : (here.execution.results ++ here.resultsAt env level).map StepResult.number =
        (Stage.levels (past.map Prod.fst ++ [.level level])).flatten := by
      rw [List.map_append, stands.numbers, number_resultsAt env runs, Stage.levels_append,
        List.flatten_append]
      simp [Stage.levels, Stage.level?]
    refine reportsLevels sound (Stage.levels_prefix begun) (fun reached => absurd reached not_final)
      numbers ?_ rfl ?_
    · rw [split, calls_append_level]
      exact accounts.append (accounts_resultsAt calm runs) (stands.nodup_results sound fresh begun)
    · change Json.object (here.levelAt env level).context.steps = _
      rw [(levelAt_eq runs).2, commits, fresh.about]

private theorem Ending.reportsLevels {progress : Progress σ τ}
    (sound : Structure.IsSound definition.steps) (fresh : IsFresh definition start)
    (ending : Ending env start (Stage.agenda (Edges.ofSteps definition.steps).levels) trace
      progress) (ran : progress.outcome = .ok execution) :
    execution.ReportsLevels env definition trace := by
  cases ending with
  | completed whole reaches =>
      injection ran with same
      exact same ▸ reportsLevels_complete sound fresh whole reaches
  | halted split begun reaches =>
      injection ran with same
      exact same ▸ reportsLevels_halt sound fresh split begun reaches
  | refused => cases ran
  | stopped split begun reaches ended =>
      injection ran with same
      exact same ▸ reportsLevels_level sound fresh split begun reaches ended

end Run

/-- Engines are called level by level and each step is executed once at most, whatever the
engines and the flag do; what is returned accounts for all calls. -/
theorem Session.execution_keeps_barriers {σ τ : Type} {session : Session}
    (reachable : session.Reachable) (env : Environment σ τ) (request : RunRequest) (state : σ)
    (log : τ) {definition : Definition}
    (stored : session.store.get request.definition = .ok definition) :
    let trace := session.trace env request state log
    let after := session.execute env request state log
    Run.KeepsBarriers env definition trace ∧ after.state = Run.replay env trace state ∧
      ∀ execution, after.outcome = .ok execution →
        execution.ReportsLevels env definition trace := by
  have sound := reachable.isSound
  dsimp only
  refine ⟨?_, state_execute sound env request state log, fun execution ran => ?_⟩
  · rcases execute_cases sound env request state log with
      ⟨other, start, opened⟩ | ⟨_, _, _, _, _, none_begun⟩
    · obtain rfl := opened.definition_eq stored
      rw [opened.trace]
      exact Run.keepsBarriers_trace env opened.accepted.steps opened.fresh
    · rw [none_begun]
      exact Run.keepsBarriers_nil env definition
  · rcases execute_cases sound env request state log with
      ⟨other, start, opened⟩ | ⟨error, _, failed, _⟩
    · obtain rfl := opened.definition_eq stored
      obtain ⟨progress, ending, outcome, _⟩ := opened.ending
      rw [ran] at outcome
      exact ending.reportsLevels opened.accepted.steps opened.fresh outcome.symm
    · rw [failed] at ran
      cases ran

theorem Session.execution_keeps_barriers_doubling :
    let trace := Session.doubling.trace .arithmetic .doubling () []
    let after := Session.doubling.execute .arithmetic .doubling () []
    Run.KeepsBarriers .arithmetic .doubling trace ∧
      after.state = Run.replay .arithmetic trace () ∧
      ∀ execution, after.outcome = .ok execution →
        execution.ReportsLevels .arithmetic .doubling trace :=
  execution_keeps_barriers reachable_doubling _ _ _ _ rfl

example : (Run.calls .arithmetic (Session.doubling.trace .arithmetic .doubling () [])).map
    (fun job => job.step.number) = [1, 2] := by
  decide +kernel

end Tollgate
