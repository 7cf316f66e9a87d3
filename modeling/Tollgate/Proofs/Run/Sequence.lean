import Tollgate.Proofs.Run.Settled
import Tollgate.Proofs.Run.Session

/-!
# Running in turn

The reference for a levelled run is the interpreter that takes the steps one by
one in the order of their numbers, each against all that has been committed
before it.  With engines that always answer alike, a run that gets as far as
its last decision point has the same results and the same outputs.
-/

namespace Tollgate

namespace Executor

variable {σ : Type}

def runStep (executor : Executor σ) (step : Step) (context : Context) (state : σ)
    (now : Moment) : StepResult × σ :=
  match (executor.prepareStep step context .empty now).1 with
  | .inl result => (result, state)
  | .inr job =>
      let (invocation, state) := job.policy.invoke step.fallback job.call state
      (Finished.result { step, invocation, startedAt := 0, finishedAt := 0 } now, state)

/-- Runs steps one after another and commits what each comes to before the next begins. -/
def runInTurn (executor : Executor σ) (now : Moment) :
    List Step → Context → σ → Except ContextError (List StepResult × Context)
  | [], context, _ => .ok ([], context)
  | step :: rest, context, state =>
      let (result, state) := executor.runStep step context state now
      match context.commitAll [result] with
      | (.error error, _) => .error error
      | (.ok (), context) =>
          (executor.runInTurn now rest context state).map fun (results, context) =>
            (result :: results, context)

variable {executor : Executor σ} {context : Context} {step : Step}

theorem timeless_runStep (steady : executor.registry.IsSteady) (any state : σ) (now : Moment) :
    (executor.runStep step context state now).1.timeless = executor.alone any context step := by
  unfold runStep
  rw [executor.prepareStep_fst]
  cases placed : executor.place step context now with
  | inl result => exact timeless_of_place_inl placed
  | inr job =>
      have engine := steady.resolve (resolve_of_place_inr placed)
      have about := step_of_place_inr placed
      refine timeless_of_place_inr placed rfl ?_ now
      rw [← about]
      exact RetryPolicy.invokeFrom_steady (engine _ _) {} state any

theorem number_runStep (executor : Executor σ) (step : Step) (context : Context) (state : σ)
    (now : Moment) : (executor.runStep step context state now).1.number = step.number := by
  unfold runStep
  rw [executor.prepareStep_fst]
  cases placed : executor.place step context now with
  | inl result => exact number_of_place_inl placed
  | inr job => exact Finished.number_result _ _

end Executor

theorem Definition.sorted_perm (definition : Definition) :
    definition.sorted.steps.Perm definition.steps :=
  List.mergeSort_perm _ _

theorem Definition.pairwise_sorted (definition : Definition) :
    definition.sorted.steps.Pairwise fun step other => step.number ≤ other.number :=
  Executor.pairwise_mergeSort_key Step.number definition.steps

theorem Definition.mem_of_refers {definition : Definition}
    (sound : Structure.IsSound definition.steps) {past rest : List Step} {step : Step}
    (order : definition.sorted.steps = past ++ step :: rest) {raw : String} {target : Reference}
    {n : Nat} (refers : (raw, target, n) ∈ step.stepReferences) : n ∈ past.map Step.number := by
  have known : step ∈ definition.steps := definition.sorted_perm.mem_iff.mp (by simp [order])
  obtain ⟨lower, other, present, rfl, _⟩ := sound.references step known raw target n refers
  have listed : other ∈ past ++ step :: rest :=
    order ▸ definition.sorted_perm.mem_iff.mpr present
  have ascending := definition.pairwise_sorted
  rw [order, List.pairwise_append, List.pairwise_cons] at ascending
  rcases List.mem_append.mp listed with before | behind
  · exact List.mem_map_of_mem before
  · rcases List.mem_cons.mp behind with rfl | later
    · omega
    · have := ascending.2.1.1 other later
      omega

theorem Definition.nodup_sorted {definition : Definition}
    (sound : Structure.IsSound definition.steps) :
    (definition.sorted.steps.map Step.number).Nodup :=
  (definition.sorted_perm.map _).symm.nodup sound.numbers

section Settled

variable {σ : Type} {executor : Executor σ} {any : σ} {definition : Definition} {base : Context}

private theorem Context.commitAll_after (sound : Structure.IsSound definition.steps)
    (declared : base.declared = definition.steps) {results : List StepResult}
    {result : StepResult} {step : Step} (known : step ∈ definition.steps)
    (number : step.number = result.number)
    (distinct : ((results ++ [result]).map StepResult.number).Nodup) :
    (base.after results).commitAll [result] = (.ok (), base.after (results ++ [result])) := by
  have ok := Context.commitAll_ok (base.after results) [result]
    (Context.entries base.declared results) rfl (fun other member => ?_) ?_
  · rw [ok]
    unfold after
    rw [Context.entries_append]
  · rw [List.mem_singleton] at member
    unfold outputOf? after
    rw [member, declared, ← number, sound.outputOf? known]
    rfl
  · change ((entries base.declared results ++ entries base.declared [result]).map Prod.fst).Nodup
    rw [← Context.entries_append, declared]
    exact Context.nodup_entries sound distinct

theorem Executor.runInTurn_settled (sound : Structure.IsSound definition.steps)
    (declared : base.declared = definition.steps) (steady : executor.registry.IsSteady)
    (now : Moment) {past rest : List Step} (order : definition.sorted.steps = past ++ rest)
    {results : List StepResult}
    (numbers : results.map StepResult.number = past.map Step.number)
    (settled : Settled executor any definition base results) (state : σ) :
    ∃ later, executor.runInTurn now rest (base.after results) state =
        .ok (later, base.after (results ++ later)) ∧
      (results ++ later).map StepResult.number = definition.sorted.steps.map Step.number ∧
      Settled executor any definition base (results ++ later) := by
  induction rest generalizing past results state with
  | nil =>
      rw [List.append_nil] at order
      exact ⟨[], by simp [runInTurn], by simp [numbers, order], by simpa using settled⟩
  | cons step rest ih =>
      have known : step ∈ definition.steps :=
        definition.sorted_perm.mem_iff.mp (by simp [order])
      rcases ran : executor.runStep step (base.after results) state now with ⟨result, after⟩
      have number : step.number = result.number := by
        rw [← executor.number_runStep step (base.after results) state now, ran]
      have alone : result.timeless = executor.alone any (base.after results) step := by
        rw [← timeless_runStep steady any state now, ran]
      have extended : (results ++ [result]).map StepResult.number =
          (past ++ [step]).map Step.number := by
        simp [numbers, number]
      have distinct : ((results ++ [result]).map StepResult.number).Nodup := by
        have all := Definition.nodup_sorted sound
        rw [order, List.append_cons, List.map_append] at all
        exact extended ▸ all.of_append_left
      have closed : ∀ raw target n, (raw, target, n) ∈ step.stepReferences →
          n ∈ results.map StepResult.number :=
        fun raw target n refers => numbers ▸ Definition.mem_of_refers sound order refers
      have next := settled.append sound declared distinct (by
        intro other member
        rw [List.mem_singleton] at member
        subst member
        exact ⟨step, known, number, alone, closed⟩)
      obtain ⟨later, ran_later, all_numbers, all_settled⟩ :=
        ih (order.trans (List.append_cons past step rest)) extended next after
      rw [List.append_assoc, List.singleton_append] at ran_later all_numbers all_settled
      refine ⟨result :: later, ?_, all_numbers, all_settled⟩
      rw [runInTurn, ran]
      dsimp only
      rw [Context.commitAll_after sound declared known number distinct]
      dsimp only
      rw [ran_later]
      rfl

end Settled

namespace Run

variable {σ τ : Type} {env : Environment σ τ} {start here last : Run σ τ}
  {past : List (Stage × Run σ τ)} {definition : Definition}

private theorem Stands.settled_level (sound : Structure.IsSound definition.steps)
    (fresh : IsFresh definition start) (steady : env.executor.registry.IsSteady) {any : σ}
    (stands : Stands env start past here) {level : List Nat}
    (begun : past.map Prod.fst ++ [.level level] <+:
      Stage.agenda (Edges.ofSteps definition.steps).levels)
    (settled : Settled env.executor any definition start.context here.execution.results) :
    Settled env.executor any definition start.context
      (here.execution.results ++ here.resultsAt env level) := by
  have distinct := stands.nodup_results sound fresh begun
  have context := stands.context_after fresh
  refine settled.append sound fresh.declared distinct fun result member => ?_
  obtain ⟨step, at_level, alone⟩ := Executor.timeless_levelResults steady any member
  obtain ⟨present, inside⟩ := Definition.mem_of_stepsAt at_level
  rw [stands.definition, fresh.about] at present
  refine ⟨step, present, ?_, context ▸ alone, fun raw target n refers => ?_⟩
  · rw [← StepResult.number_timeless, alone, Executor.number_alone]
  · obtain ⟨behind, split⟩ := exists_levels begun
    rw [stands.numbers]
    exact sound.isLevelling.earlier _ level behind split step present inside raw target n refers

theorem Reaches.settled (sound : Structure.IsSound definition.steps)
    (fresh : IsFresh definition start) (steady : env.executor.registry.IsSteady) (any : σ)
    (reaches : Reaches env start past here)
    (begun : past.map Prod.fst <+: Stage.agenda (Edges.ofSteps definition.steps).levels) :
    Settled env.executor any definition start.context here.execution.results := by
  induction reaches with
  | start =>
      rw [fresh.results]
      intro result member
      cases member
  | @perform past here later stage reaches performed ih =>
      rw [List.map_append] at begun
      have earlier := (List.prefix_append _ _).trans begun
      have settled := ih earlier
      have stands := reaches.stands sound fresh earlier
      cases stage with
      | point phase =>
          obtain ⟨log, _, _, rfl⟩ := going_point performed
          rwa [recorded_results]
      | level level =>
          obtain ⟨_, results, outcome, _, rfl⟩ := going_level performed
          rw [stands.levelAt sound fresh begun] at outcome
          injection outcome with same
          subst same
          exact stands.settled_level sound fresh steady begun settled

theorem of_final (env : Environment σ τ) {levels : List (List Nat)}
    (member : (.point .final, last) ∈ trace env (Stage.agenda levels) start) :
    ∃ past, Reaches env start past last ∧
      past.map Prod.fst ++ [.point .final] = Stage.agenda levels ∧
      follow env (Stage.agenda levels) start = last.perform env (.point .final) := by
  obtain ⟨past, later, split⟩ := List.append_of_mem member
  obtain ⟨reaches, rest, begun, _⟩ := reaches_of_mem_trace split
  have whole : past.map Prod.fst ++ [.point .final] ++ rest = Stage.agenda levels := by
    rw [begun, List.append_assoc, List.singleton_append]
  obtain rfl := Stage.eq_agenda_of_final whole (by simp)
  rw [List.append_nil] at whole
  refine ⟨past, reaches, whole, ?_⟩
  rw [← whole, follow_append, reaches.follow]
  change (last.perform env (.point .final)).andThen .going = _
  cases last.perform env (.point .final) <;> rfl

theorem results_of_final {execution : Execution}
    (h : ((last.perform env (.point .final)).andThen fun run => .ended run.complete).outcome =
      .ok execution) :
    execution.results = last.execution.results ∧
      execution.outputs = .object last.context.steps := by
  cases performed : last.perform env (.point .final) with
  | going later =>
      obtain ⟨log, _, _, rfl⟩ := going_point performed
      rw [performed] at h
      injection h with same
      subst same
      exact ⟨rfl, rfl⟩
  | ended later =>
      obtain ⟨log, _, _, rfl⟩ := ended_point performed
      rw [performed] at h
      injection h with same
      subst same
      exact ⟨rfl, rfl⟩
  | failed later error =>
      rw [performed] at h
      cases h

end Run

theorem map_eq_of_map_eq {α α' β γ : Type} {f : α → β} {f' : α' → β} {g : α → γ} {g' : α' → γ}
    {members : List α} {others : List α'} (same : members.map f = others.map f')
    (h : ∀ a ∈ members, ∀ b ∈ others, f a = f' b → g a = g' b) :
    members.map g = others.map g' := by
  induction members generalizing others with
  | nil =>
      obtain rfl : others = [] := by simpa using same.symm
      rfl
  | cons a members ih =>
      cases others with
      | nil => simp at same
      | cons b others =>
          simp only [List.map_cons, List.cons.injEq] at same ⊢
          exact ⟨h a List.mem_cons_self b List.mem_cons_self same.1,
            ih same.2 fun c hc d hd =>
              h c (List.mem_cons_of_mem a hc) d (List.mem_cons_of_mem b hd)⟩

private theorem Context.entries_timeless (declared : List Step) (results : List StepResult) :
    entries declared (results.map StepResult.timeless) = entries declared results := by
  unfold entries
  rw [List.filterMap_map]
  rfl

private theorem Settled.same {σ : Type} {executor : Executor σ} {any : σ} {definition : Definition}
    {base : Context} {results others : List StepResult}
    (sound : Structure.IsSound definition.steps) (declared : base.declared = definition.steps)
    (settled : Settled executor any definition base results)
    (settled' : Settled executor any definition base others)
    (numbers : (results.map StepResult.number).Perm (definition.steps.map Step.number))
    (numbers' : others.map StepResult.number = definition.sorted.steps.map Step.number) :
    (inStepOrder results).map StepResult.timeless = others.map StepResult.timeless ∧
      base.after results = base.after others := by
  have distinct : (results.map StepResult.number).Nodup := numbers.symm.nodup sound.numbers
  have sorted := definition.sorted_perm.map Step.number
  have distinct' : (others.map StepResult.number).Nodup :=
    numbers' ▸ Definition.nodup_sorted sound
  have order := Executor.inStepOrder_perm results
  have same_numbers : (inStepOrder results).map StepResult.number =
      others.map StepResult.number := by
    rw [numbers']
    exact Executor.eq_of_perm_of_ascending ((order.map _).trans (numbers.trans sorted.symm))
      (Executor.pairwise_inStepOrder results) (List.pairwise_map.mpr definition.pairwise_sorted)
  have alike : (inStepOrder results).map StepResult.timeless = others.map StepResult.timeless :=
    map_eq_of_map_eq same_numbers fun result member other member' =>
      settled.unique sound declared settled' distinct distinct' (order.mem_iff.mp member) member'
  refine ⟨alike, ?_⟩
  have written : Json.ofPairs (Context.entries base.declared results) =
      Json.ofPairs (Context.entries base.declared (inStepOrder results)) :=
    Json.ofPairs_perm (order.symm.filterMap _) (declared ▸ Context.nodup_entries sound distinct)
  unfold Context.after
  rw [written, ← Context.entries_timeless, alike, Context.entries_timeless]

/-- Up to its last decision point a levelled run does what running in turn does. -/
theorem Session.execution_refines_sequence {σ τ : Type} {session : Session}
    {env : Environment σ τ} {request : RunRequest} {state : σ} {log : τ}
    {definition : Definition} {plan : Plan}
    (opens : (session.open? env.executor.registry request.definition).1 = .ok (definition, plan))
    (built : Plan.build definition.steps = .ok plan) (steady : env.executor.registry.IsSteady)
    {last : Run σ τ} (final : (.point .final, last) ∈ session.trace env request state log)
    (other : σ) (now : Moment) :
    ∃ results context,
      env.executor.runInTurn now definition.sorted.steps
          (session.startRun request definition state log).context other = .ok (results, context) ∧
        (inStepOrder last.execution.results).map StepResult.timeless =
          results.map StepResult.timeless ∧
        last.context.steps = context.steps ∧
        ∀ execution, (session.execute env request state log).outcome = .ok execution →
          execution.results = last.execution.results ∧
            execution.outputs = .object context.steps := by
  obtain ⟨sound, rfl⟩ := Plan.build_ok built
  rcases shape : session.open? env.executor.registry request.definition with ⟨outcome, after⟩
  rw [shape] at opens
  subst opens
  have fresh := isFresh_startRun after request definition state log
  unfold Session.trace at final
  rw [shape] at final
  obtain ⟨past, reaches, whole, follows⟩ := Run.of_final env final
  have begun : past.map Prod.fst <+: Stage.agenda (Edges.ofSteps definition.steps).levels :=
    ⟨_, whole⟩
  have stands := reaches.stands sound fresh begun
  have levels : Stage.levels (past.map Prod.fst) = (Edges.ofSteps definition.steps).levels := by
    have all := congrArg Stage.levels whole
    rw [Stage.levels_agenda, Stage.levels_append] at all
    exact (List.append_nil _).symm.trans all
  have numbers : (last.execution.results.map StepResult.number).Perm
      (definition.steps.map Step.number) := by
    rw [stands.numbers, levels]
    exact sound.isLevelling.perm
  have settled := reaches.settled sound fresh steady other begun
  obtain ⟨results, ran, numbers', settled'⟩ :=
    env.executor.runInTurn_settled sound fresh.declared steady now
      (show definition.sorted.steps = [] ++ definition.sorted.steps from rfl)
      (show ([] : List StepResult).map StepResult.number = [] from rfl)
      (fun _ member => by cases member) other
  obtain ⟨alike, same⟩ := settled.same sound fresh.declared settled' numbers numbers'
  have steps : last.context.steps =
      ((after.startRun request definition state log).context.after results).steps := by
    rw [← List.nil_append results, ← same, stands.context]
    rfl
  refine ⟨results, _, ran, alike, steps, fun execution finished => ?_⟩
  have runs : ∀ level ∈ (Plan.ofEdges (Edges.ofSteps definition.steps)).levels,
      definition.CanRun level := sound.isLevelling.canRun sound
  have passes := Run.passAll_eq_follow env (after.startRun request definition state log) runs
  rw [(execute_of_open? state log shape).1, passes, follows] at finished
  obtain ⟨same_results, outputs⟩ := Run.results_of_final finished
  exact ⟨same_results, steps ▸ outputs⟩

theorem Session.execution_refines_sequence_doubling :
    ∃ last : Run Unit (List AuditEntry),
      (.point .final, last) ∈ Session.doubling.trace .arithmetic .doubling () [] ∧
      ∃ results context,
        Environment.arithmetic.executor.runInTurn default Definition.doubling.sorted.steps
            (Session.doubling.startRun .doubling .doubling () ([] : List AuditEntry)).context () =
          .ok (results, context) ∧
        (inStepOrder last.execution.results).map StepResult.timeless =
          results.map StepResult.timeless ∧
        last.context.steps = context.steps := by
  have ends : (Session.doubling.trace .arithmetic .doubling () []).getLast?.map Prod.fst =
      some (.point .final) := by
    decide +kernel
  obtain ⟨⟨stage, last⟩, latest, rfl⟩ := Option.map_eq_some_iff.mp ends
  have final := List.mem_of_getLast? latest
  have built := (Definition.isAccepted_of_check Definition.check_doubling).plan
  have planned : (Session.doubling.plans.planFor .doubling).1 =
      .ok ⟨0, .ofEdges (Edges.ofSteps Definition.doubling.steps)⟩ := by
    simp [PlanCache.planFor, Session.doubling, built]
  have stored : Session.doubling.store.get "doubling" = .ok .doubling := rfl
  have opens := open?_of_planFor stored planned Environment.verify_arithmetic
  have steady : Environment.arithmetic.executor.registry.IsSteady := by
    intro entry member
    obtain rfl := List.mem_singleton.mp member
    exact fun _ _ _ _ => rfl
  obtain ⟨results, context, ran, alike, steps, _⟩ :=
    execution_refines_sequence opens built steady final () default
  exact ⟨last, final, results, context, ran, alike, steps⟩

end Tollgate
