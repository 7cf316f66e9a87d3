import Tollgate.Proofs.Run.Course
import Tollgate.Proofs.Run.Visibility

/-!
# Settled results

With engines that always answer alike, a step comes to the same in every
context that has the outputs it refers to.  Results that are closed under
references are therefore fixed by the numbers of their steps alone.
-/

namespace Tollgate

namespace StepResult

def timeless (result : StepResult) : StepResult :=
  { result with startedAt := default, finishedAt := default }

@[simp] theorem number_timeless (result : StepResult) : result.timeless.number = result.number :=
  rfl

@[simp] theorem committed?_timeless (result : StepResult) :
    result.timeless.committed? = result.committed? := rfl

theorem timeless_skipped (step : Step) (reason : Option String) (now later : Moment) :
    (skipped step reason now).timeless = (skipped step reason later).timeless := by
  simp only [skipped, timeless, ofStep]

theorem timeless_failure (step : Step) (message : String) (started now other later : Moment) :
    (failure step message started now).timeless = (failure step message other later).timeless := by
  unfold failure
  cases step.onError <;> simp only [timeless, ofStep]

end StepResult

theorem Finished.timeless_result (finished : Finished) (origin : Moment) {step : Step}
    {invocation : Invocation} (hs : finished.step = step) (hi : finished.invocation = invocation)
    (started ended : Nat) (other : Moment) :
    (finished.result origin).timeless =
      ((Finished.mk step invocation started ended).result other).timeless := by
  subst hs hi
  obtain ⟨step, ⟨result, retries, backoffs, usedFallback⟩, startedAt, finishedAt⟩ := finished
  cases result with
  | ok value => simp only [Finished.result, StepResult.timeless, StepResult.ofStep]
  | error error =>
      simp only [Finished.result, StepResult.failure]
      cases step.onError <;> simp only [StepResult.timeless, StepResult.ofStep]

def Registry.IsSteady {σ : Type} (registry : Registry σ) : Prop :=
  ∀ entry ∈ registry.engines, entry.2.IsSteady

theorem Registry.IsSteady.resolve {σ : Type} {registry : Registry σ} (steady : registry.IsSteady)
    {tool function : String} {engine : Engine σ}
    (h : registry.resolve tool function = .ok engine) : engine.IsSteady := by
  unfold Registry.resolve at h
  split at h
  · next found =>
      injection h with same
      subst same
      obtain ⟨listed, _⟩ := Option.filter_eq_some_iff.mp found
      obtain ⟨before, after, split, _⟩ := List.lookup_eq_some_iff.mp listed
      exact steady (tool, _) (by simp [split])
  · cases h

namespace Executor

variable {σ : Type} {executor : Executor σ} {any : σ} {context other : Context} {step : Step}
  {now : Moment}

def alone (executor : Executor σ) (any : σ) (context : Context) (step : Step) : StepResult :=
  match executor.place step context default with
  | .inl result => result.timeless
  | .inr job => (Finished.result ⟨step, job.invocation any, 0, 0⟩ default).timeless

theorem alone_congr (agree : Context.Agree step context other) (executor : Executor σ)
    (any : σ) : executor.alone any context step = executor.alone any other step := by
  unfold alone
  rw [agree.place]

@[simp] theorem number_alone : (executor.alone any context step).number = step.number := by
  unfold alone
  split
  · next placed =>
      rw [StepResult.number_timeless]
      exact number_of_place_inl placed
  · rw [StepResult.number_timeless]
    exact Finished.number_result _ _

theorem place_default (executor : Executor σ) (step : Step) (context : Context) (now : Moment) :
    (executor.place step context now).map StepResult.timeless id =
      (executor.place step context default).map StepResult.timeless id := by
  have resolved : (step.preparation context now = step.preparation context default ∧
        ∃ arguments, step.preparation context now = .run arguments) ∨
      ∃ error, step.preparation context now = .skip (.skipped step error now) ∧
        step.preparation context default = .skip (.skipped step error default) := by
    unfold Step.preparation
    cases step.activeCondition.map (Expr.holds context.scope) with
    | none => exact .inl ⟨rfl, _, rfl⟩
    | some outcome =>
        rcases outcome with error | _ | _
        · exact .inr ⟨_, rfl, rfl⟩
        · exact .inr ⟨_, rfl, rfl⟩
        · exact .inl ⟨rfl, _, rfl⟩
  unfold place
  rcases resolved with ⟨same, arguments, runs⟩ | ⟨error, skips, skips_default⟩
  · rw [← same, runs]
    dsimp only
    cases executor.registry.resolve step.tool step.function with
    | error error =>
        simp only [Sum.map_inl]
        rw [StepResult.timeless_failure step error.message now now default default]
    | ok engine => rfl
  · rw [skips, skips_default]
    exact congrArg Sum.inl (StepResult.timeless_skipped step error now default)

theorem timeless_of_place_inl {result : StepResult}
    (h : executor.place step context now = .inl result) :
    result.timeless = executor.alone any context step := by
  have same := executor.place_default step context now
  rw [h] at same
  unfold alone
  cases placed : executor.place step context default with
  | inl other =>
      rw [placed] at same
      injection same
  | inr job =>
      rw [placed] at same
      cases same

theorem timeless_of_place_inr {job : Job σ} (h : executor.place step context now = .inr job)
    {finished : Finished} (about : finished.step = step)
    (invocation : finished.invocation = job.invocation any) (origin : Moment) :
    (finished.result origin).timeless = executor.alone any context step := by
  have same := executor.place_default step context now
  rw [h] at same
  unfold alone
  cases placed : executor.place step context default with
  | inl other =>
      rw [placed] at same
      cases same
  | inr other =>
      rw [placed] at same
      injection same with same
      obtain rfl : job = other := same
      exact Finished.timeless_result finished origin about invocation 0 0 default

theorem timeless_levelResults (steady : executor.registry.IsSteady) {steps : List Step}
    {state : σ} (any : σ) {result : StepResult}
    (h : result ∈ executor.levelResults steps context state now) :
    ∃ step ∈ steps, result.timeless = executor.alone any context step := by
  rcases List.mem_append.mp ((inStepOrder_perm _).mem_iff.mp h) with settled | ran
  · obtain ⟨step, member, placed⟩ := exists_place_of_mem_settled settled
    exact ⟨step, member, timeless_of_place_inl placed⟩
  · have admitted : ∀ job ∈ (executor.placeAll steps context now).jobs, job.engine.IsSteady := by
      intro job member
      obtain ⟨step, _, placed⟩ := exists_place_of_mem_jobs member
      exact steady.resolve (resolve_of_place_inr placed)
    obtain ⟨finished, done, rfl⟩ := List.mem_map.mp ran
    have account := executor.finished_perm (executor.placeAll steps context now).jobs state
      (Pool.invocations any) admitted
    have accounted := account.mem_iff.mp (List.mem_map_of_mem done)
    obtain ⟨job, queued, same⟩ := List.mem_map.mp accounted
    obtain ⟨about, invocation⟩ := Prod.mk.inj same
    obtain ⟨step, member, placed⟩ := exists_place_of_mem_jobs queued
    refine ⟨step, member, timeless_of_place_inr placed ?_ invocation.symm now⟩
    exact about.symm.trans (step_of_place_inr placed)

end Executor

namespace Context

def after (context : Context) (results : List StepResult) : Context :=
  { context with steps := Json.ofPairs (entries context.declared results) }

variable {definition : Definition} {base : Context} {results later : List StepResult}

theorem committed?_after (sound : Structure.IsSound definition.steps)
    (declared : base.declared = definition.steps)
    (distinct : (results.map StepResult.number).Nodup) {result : StepResult}
    (member : result ∈ results) {step : Step} (known : step ∈ definition.steps)
    (number : step.number = result.number) :
    (base.after results).committed? result.number = result.committed? := by
  have output : Structure.outputOf? definition.steps result.number = some step.output :=
    number ▸ sound.outputOf? known
  have committed : (base.after results).committed? result.number =
      (Json.ofPairs (entries definition.steps results)).lookup step.output := by
    unfold committed? outputOf? after
    rw [declared, output]
    rfl
  rw [committed]
  refine Option.ext fun value => ?_
  rw [Json.lookup_ofPairs (nodup_entries sound distinct), mem_entries]
  constructor
  · rintro ⟨other, present, written, same⟩
    obtain ⟨owner, listed, names, outputs⟩ := Structure.outputOf?_mem same
    have equal := sound.number_of_output listed known outputs
    obtain rfl : other = result :=
      List.inj_on_of_nodup_map distinct present member (by rw [← names, equal, number])
    exact written
  · exact fun written => ⟨result, member, written, output⟩

theorem agree_after (sound : Structure.IsSound definition.steps)
    (declared : base.declared = definition.steps)
    (distinct : ((results ++ later).map StepResult.number).Nodup) {step : Step}
    (known : step ∈ definition.steps)
    (closed : ∀ raw target number, (raw, target, number) ∈ step.stepReferences →
      number ∈ results.map StepResult.number) :
    Agree step (base.after results) (base.after (results ++ later)) where
  input := rfl
  metadata := rfl
  declared := rfl
  committed raw target number refers := by
    obtain ⟨_, other, present, same, _⟩ := sound.references step known raw target number refers
    obtain ⟨result, member, rfl⟩ := List.mem_map.mp (closed raw target number refers)
    have earlier : (results.map StepResult.number).Nodup := by
      rw [List.map_append] at distinct
      exact distinct.of_append_left
    rw [committed?_after sound declared earlier member present same,
      committed?_after sound declared distinct (List.mem_append_left _ member) present same]

end Context

namespace Run.Stands

variable {σ τ : Type} {env : Environment σ τ} {start here : Run σ τ}
  {past : List (Stage × Run σ τ)} {definition : Definition}

theorem context_after (fresh : IsFresh definition start) (stands : Stands env start past here) :
    here.context = start.context.after here.execution.results := by
  rw [stands.context, fresh.about, ← fresh.declared]
  rfl

theorem nodup_results (sound : Structure.IsSound definition.steps)
    (fresh : IsFresh definition start) (stands : Stands env start past here) {level : List Nat}
    (begun : past.map Prod.fst ++ [.level level] <+:
      Stage.agenda (Edges.ofSteps definition.steps).levels) :
    ((here.execution.results ++ here.resultsAt env level).map StepResult.number).Nodup := by
  obtain ⟨distinct, runs⟩ := nodup_levels sound begun
  have same : here.definition = definition := stands.definition.trans fresh.about
  rw [List.map_append, stands.numbers, number_resultsAt env (same ▸ runs)]
  exact distinct

end Run.Stands

/-- Results each of which is what its step comes to, given all of them. -/
def Settled {σ : Type} (executor : Executor σ) (any : σ) (definition : Definition)
    (base : Context) (results : List StepResult) : Prop :=
  ∀ result ∈ results, ∃ step ∈ definition.steps, step.number = result.number ∧
    result.timeless = executor.alone any (base.after results) step ∧
    ∀ raw target number, (raw, target, number) ∈ step.stepReferences →
      number ∈ results.map StepResult.number

namespace Settled

variable {σ : Type} {executor : Executor σ} {any : σ} {definition : Definition} {base : Context}
  {results later others : List StepResult}

theorem append (sound : Structure.IsSound definition.steps)
    (declared : base.declared = definition.steps)
    (distinct : ((results ++ later).map StepResult.number).Nodup)
    (settled : Settled executor any definition base results)
    (new : ∀ result ∈ later, ∃ step ∈ definition.steps, step.number = result.number ∧
      result.timeless = executor.alone any (base.after results) step ∧
      ∀ raw target number, (raw, target, number) ∈ step.stepReferences →
        number ∈ results.map StepResult.number) :
    Settled executor any definition base (results ++ later) := by
  intro result member
  obtain ⟨step, known, number, alone, closed⟩ :=
    (List.mem_append.mp member).elim (settled result) (new result)
  refine ⟨step, known, number, ?_, fun raw target n refers => ?_⟩
  · rw [alone]
    exact Executor.alone_congr (Context.agree_after sound declared distinct known closed) _ _
  · rw [List.map_append]
    exact List.mem_append_left _ (closed raw target n refers)

theorem unique (sound : Structure.IsSound definition.steps)
    (declared : base.declared = definition.steps)
    (settled : Settled executor any definition base results)
    (settled' : Settled executor any definition base others)
    (distinct : (results.map StepResult.number).Nodup)
    (distinct' : (others.map StepResult.number).Nodup) {result other : StepResult}
    (member : result ∈ results) (member' : other ∈ others) (same : result.number = other.number) :
    result.timeless = other.timeless := by
  -- References go to lower numbers, so the induction is on the number of the step.
  induction number : result.number using Nat.strongRecOn generalizing result other with
  | ind _ ih =>
      obtain ⟨step, known, number_step, alone, closed⟩ := settled result member
      obtain ⟨step', known', number_step', alone', closed'⟩ := settled' other member'
      obtain rfl : step = step' :=
        List.inj_on_of_nodup_map sound.numbers known known'
          (by rw [number_step, number_step', same])
      rw [alone, alone']
      suffices agree : Context.Agree step (base.after results) (base.after others) from
        Executor.alone_congr agree executor any
      refine ⟨rfl, rfl, rfl, fun raw target n refers => ?_⟩
      obtain ⟨lower, owner, present, about, _⟩ := sound.references step known raw target n refers
      obtain ⟨first, inside, rfl⟩ := List.mem_map.mp (closed raw target n refers)
      obtain ⟨second, inside', equal⟩ := List.mem_map.mp (closed' raw target _ refers)
      have alike := ih first.number (by omega) inside inside' equal.symm rfl
      rw [Context.committed?_after sound declared distinct inside present about]
      rw [← equal] at about ⊢
      rw [Context.committed?_after sound declared distinct' inside' present about]
      rw [← StepResult.committed?_timeless first, alike, StepResult.committed?_timeless]

end Settled

end Tollgate
