import Tollgate.Engine.Arithmetic
import Tollgate.Proofs.Plan.Cache
import Tollgate.Proofs.Run.Course

/-!
# Sessions

A session that came about by storing definitions and running them holds only
accepted definitions and kept plans that are right.  An execution in it either
fails before the run begins, or follows the agenda of the definition's plan.
-/

namespace Tollgate

namespace Store

theorem mem_of_get {store : Store} {id : String} {definition : Definition}
    (h : store.get id = .ok definition) : definition ∈ store.definitions := by
  unfold get at h
  split at h
  · next found =>
      injection h with same
      exact same ▸ List.mem_of_find?_eq_some found
  · cases h

theorem mem_of_insert {store later : Store} {definition other : Definition}
    (h : store.insert definition = .ok later) (member : other ∈ later.definitions) :
    (other = definition ∧ definition.IsAccepted) ∨ other ∈ store.definitions := by
  unfold insert at h
  split at h
  · cases h
  · next checked =>
      injection h with same
      subst same
      rcases List.mem_cons.mp member with new | old
      · exact .inl ⟨new, Definition.isAccepted_of_check checked⟩
      · exact .inr (List.mem_of_mem_filter old)

end Store

namespace Progress

variable {σ τ : Type}

def last : Progress σ τ → Run σ τ
  | .going run | .ended run | .failed run _ => run

def outcome : Progress σ τ → Except RunError Execution
  | .going run | .ended run => .ok run.execution
  | .failed _ error => .error error

end Progress

namespace Session

/-- Sessions that come about by storing definitions, running them, and using what is kept. -/
inductive Reachable : Session → Prop
  | fresh : Reachable {}
  | insert {session : Session} {definition : Definition} {store : Store} :
      Reachable session → (∀ step ∈ definition.steps, step.FitsWord) →
      session.store.insert definition = .ok store → Reachable { session with store }
  | forget {session : Session} : Reachable session →
      Reachable { session with plans := session.plans.clear }
  | evaluate {session : Session} (evaluator : Evaluator) : Reachable session →
      Reachable { session with evaluator }
  | execute {session : Session} {σ τ : Type} (env : Environment σ τ) (request : RunRequest)
      (state : σ) (log : τ) : Reachable session →
      Reachable (session.execute env request state log).session

structure IsSound (session : Session) : Prop where
  accepted : ∀ definition ∈ session.store.definitions, definition.IsAccepted
  fits : ∀ definition ∈ session.store.definitions, ∀ step ∈ definition.steps, step.FitsWord
  plans : session.plans.IsSound

variable {σ τ : Type} {session : Session}

theorem IsSound.open? (sound : session.IsSound) (registry : Registry σ) (id : String) :
    (session.open? registry id).2.IsSound ∧
      ∀ definition plan, (session.open? registry id).1 = .ok (definition, plan) →
        session.store.get id = .ok definition ∧ definition.IsAccepted ∧
          registry.verify definition.steps = .ok () ∧
          plan.levels = (Edges.ofSteps definition.steps).levels := by
  unfold Session.open?
  cases stored : session.store.get id with
  | error error => exact ⟨sound, fun _ _ h => by cases h⟩
  | ok definition =>
      have member := Store.mem_of_get stored
      have accepted := sound.accepted definition member
      obtain ⟨plan, plans⟩ := sound.plans.planFor (sound.fits definition member)
      rw [accepted.plan] at plan
      dsimp only
      rcases planned : session.plans.planFor definition with ⟨_ | kept, cache⟩
      · simp [planned, Except.map] at plan
      · rw [planned] at plan plans
        dsimp only at plan plans ⊢
        have later : Session.IsSound { session with plans := cache } :=
          ⟨sound.accepted, sound.fits, plans⟩
        cases verified : registry.verify definition.steps with
        | error rejection => exact ⟨later, fun _ _ h => by cases h⟩
        | ok _ =>
            refine ⟨later, fun other built h => ?_⟩
            simp only [Except.ok.injEq, Prod.mk.injEq] at h
            obtain ⟨rfl, rfl⟩ := h
            refine ⟨rfl, accepted, verified, ?_⟩
            have same : kept.plan = .ofEdges (Edges.ofSteps definition.steps) := by
              simpa [Except.map] using plan
            rw [same]
            rfl

theorem open?_of_planFor {registry : Registry σ} {id : String} {definition : Definition}
    {kept : KeptPlan} (stored : session.store.get id = .ok definition)
    (planned : (session.plans.planFor definition).1 = .ok kept)
    (verified : registry.verify definition.steps = .ok ()) :
    (session.open? registry id).1 = .ok (definition, kept.plan) := by
  unfold Session.open?
  rcases shape : session.plans.planFor definition with ⟨_, plans⟩
  rw [shape] at planned
  subst planned
  simp [stored, verified, shape]

theorem IsSound.open?_ok (sound : session.IsSound) {registry : Registry σ} {id : String}
    {definition : Definition} (stored : session.store.get id = .ok definition)
    (verified : registry.verify definition.steps = .ok ()) :
    ∃ plan, (session.open? registry id).1 = .ok (definition, plan) := by
  have member := Store.mem_of_get stored
  obtain ⟨plan, _⟩ := sound.plans.planFor (sound.fits definition member)
  rw [(sound.accepted definition member).plan] at plan
  cases planned : (session.plans.planFor definition).1 with
  | error rejection => simp [planned, Except.map] at plan
  | ok kept => exact ⟨kept.plan, open?_of_planFor stored planned verified⟩

private theorem isSound_execute (sound : session.IsSound) (env : Environment σ τ)
    (request : RunRequest) (state : σ) (log : τ) :
    (session.execute env request state log).session.IsSound := by
  have opened := (sound.open? env.executor.registry request.definition).1
  unfold execute
  rcases shape : session.open? env.executor.registry request.definition with ⟨_ | ⟨_, plan⟩, later⟩
  · rw [shape] at opened
    exact opened
  · rw [shape] at opened
    have with_evaluator (evaluator : Evaluator) : Session.IsSound { later with evaluator } :=
      ⟨opened.accepted, opened.fits, opened.plans⟩
    dsimp only
    split <;> exact with_evaluator _

theorem Reachable.isSound (h : session.Reachable) : session.IsSound := by
  induction h with
  | fresh => exact ⟨by simp, by simp, fun _ _ member => by cases member⟩
  | insert _ fits stored ih =>
      refine ⟨fun other member => ?_, fun other member => ?_, ih.plans⟩
      · rcases Store.mem_of_insert stored member with ⟨rfl, accepted⟩ | old
        · exact accepted
        · exact ih.accepted other old
      · rcases Store.mem_of_insert stored member with ⟨rfl, _⟩ | old
        · exact fits
        · exact ih.fits other old
  | forget _ ih => exact ⟨ih.accepted, ih.fits, PlanCache.isSound_clear _⟩
  | evaluate _ _ ih => exact ⟨ih.accepted, ih.fits, ih.plans⟩
  | execute env request state log _ ih => exact isSound_execute ih env request state log

/-- The stages that an execution begins, each with the run as it stands then. -/
def trace (session : Session) (env : Environment σ τ) (request : RunRequest) (state : σ)
    (log : τ) : List (Stage × Run σ τ) :=
  match session.open? env.executor.registry request.definition with
  | (.error _, _) => []
  | (.ok (definition, plan), session) =>
      Run.trace env (Stage.agenda plan.levels) (session.startRun request definition state log)

structure Opened (session : Session) (env : Environment σ τ) (request : RunRequest) (state : σ)
    (log : τ) (definition : Definition) (start : Run σ τ) : Prop where
  stored : session.store.get request.definition = .ok definition
  accepted : definition.IsAccepted
  verified : env.executor.registry.verify definition.steps = .ok ()
  fresh : start.IsFresh definition
  context : start.context =
    { input := request.input
      metadata := start.context.metadata
      declared := definition.steps }
  begins : start.state = state ∧ start.log = log
  trace : session.trace env request state log =
    Run.trace env (Stage.agenda (Edges.ofSteps definition.steps).levels) start
  after :
    let after := session.execute env request state log
    let progress :=
      (Run.follow env (Stage.agenda (Edges.ofSteps definition.steps).levels) start).andThen
        fun last => .ended last.complete
    after.outcome = progress.outcome ∧ after.state = progress.last.state ∧
      after.log = progress.last.log

theorem isFresh_startRun (session : Session) (request : RunRequest) (definition : Definition)
    (state : σ) (log : τ) : (session.startRun request definition state log).IsFresh definition where
  about := rfl
  status := rfl
  results := rfl
  risk := rfl
  approval := rfl
  audit := rfl
  autoApproved := rfl
  steps := rfl
  declared := rfl

theorem execute_of_open? {env : Environment σ τ} {request : RunRequest} {definition : Definition}
    {plan : Plan} {later : Session} (state : σ) (log : τ)
    (opens : session.open? env.executor.registry request.definition =
      (.ok (definition, plan), later)) :
    let after := session.execute env request state log
    let progress := (later.startRun request definition state log).passAll env plan.levels
    after.outcome = progress.outcome ∧ after.state = progress.last.state ∧
      after.log = progress.last.log := by
  unfold execute
  rw [opens]
  dsimp only
  cases (later.startRun request definition state log).passAll env plan.levels <;>
    exact ⟨rfl, rfl, rfl⟩

theorem trace_of_open? {env : Environment σ τ} {request : RunRequest} {definition : Definition}
    {plan : Plan} {later : Session} (state : σ) (log : τ)
    (opens : session.open? env.executor.registry request.definition =
      (.ok (definition, plan), later)) :
    session.trace env request state log =
      Run.trace env (Stage.agenda plan.levels) (later.startRun request definition state log) := by
  unfold trace
  rw [opens]

theorem execute_cases (sound : session.IsSound) (env : Environment σ τ)
    (request : RunRequest) (state : σ) (log : τ) :
    (∃ definition start, Opened session env request state log definition start) ∨
      ∃ error, (session.open? env.executor.registry request.definition).1 = .error error ∧
        (session.execute env request state log).outcome = .error error ∧
        (session.execute env request state log).state = state ∧
        (session.execute env request state log).log = log ∧
        session.trace env request state log = [] := by
  rcases shape : session.open? env.executor.registry request.definition with
    ⟨error | ⟨definition, plan⟩, later⟩
  · exact .inr ⟨error, rfl, by simp [execute, shape], by simp [execute, shape],
      by simp [execute, shape], by simp [trace, shape]⟩
  · obtain ⟨stored, accepted, verified, levels⟩ :=
      (sound.open? env.executor.registry request.definition).2 definition plan (by rw [shape])
    let start := later.startRun request definition state log
    have fresh : start.IsFresh definition := isFresh_startRun later request definition state log
    refine .inl ⟨definition, start, stored, accepted, verified, fresh, rfl, ⟨rfl, rfl⟩, ?_, ?_⟩
    · rw [trace_of_open? state log shape, levels]
    · have runs := accepted.isLevelling.canRun accepted.steps
      rw [← levels] at runs
      have follows := Run.passAll_eq_follow env start runs
      have runs_plan := execute_of_open? state log shape
      dsimp only at runs_plan ⊢
      rw [← levels, ← follows]
      exact runs_plan

theorem Opened.ending {env : Environment σ τ} {request : RunRequest} {state : σ} {log : τ}
    {definition : Definition} {start : Run σ τ}
    (opened : Opened session env request state log definition start) :
    let after := session.execute env request state log
    ∃ progress, Run.Ending env start (Stage.agenda (Edges.ofSteps definition.steps).levels)
        (session.trace env request state log) progress ∧
      after.outcome = progress.outcome ∧ after.state = progress.last.state ∧
        after.log = progress.last.log := by
  refine ⟨_, ?_, opened.after⟩
  rw [opened.trace]
  exact Run.ending_follow env opened.accepted opened.fresh

section Opened

variable {env : Environment σ τ} {request : RunRequest} {state : σ} {log : τ}
  {definition other : Definition} {start here : Run σ τ} {stage : Stage}
  {past later : List (Stage × Run σ τ)}

theorem Opened.definition_eq (opened : Opened session env request state log other start)
    (stored : session.store.get request.definition = .ok definition) : definition = other := by
  rw [opened.stored] at stored
  injection stored with same
  exact same.symm

theorem Opened.reaches (opened : Opened session env request state log definition start)
    (split : session.trace env request state log = past ++ (stage, here) :: later) :
    Run.Reaches env start past here ∧
      past.map Prod.fst ++ [stage] <+:
        Stage.agenda (Edges.ofSteps definition.steps).levels := by
  rw [opened.trace] at split
  obtain ⟨reaches, rest, begun, _⟩ := Run.reaches_of_mem_trace split
  exact ⟨reaches, rest, by simp [begun]⟩

end Opened

end Session

theorem Definition.check_of_isOk {definition : Definition}
    (passes : definition.check.isOk = true) : definition.check = .ok () := by
  cases checked : definition.check with
  | error error =>
      rw [checked] at passes
      cases passes
  | ok _ => rfl

theorem Session.Reachable.single {definition : Definition}
    (fits : ∀ step ∈ definition.steps, step.FitsWord) (checked : definition.check = .ok ()) :
    Session.Reachable { store := ⟨[definition]⟩ } := by
  have stored : Store.insert {} definition = .ok ⟨[definition]⟩ := by
    unfold Store.insert
    rw [checked]
    rfl
  exact .insert .fresh fits stored

def Definition.doubling : Definition where
  id := "doubling"
  steps :=
    [((Step.make 1 "math" "add").withInput "a" (.string "$input.x")).withInput "b"
        (.string "$input.x"),
      { (Step.make 2 "math" "identity").withInput "value"
          (.string "$step1.step1_output.result") with
        condition := some "$step1.step1_output.result > 3" }]
  rules := [.step "doubled" 1 "" 0.25 .warn]

def Session.doubling : Session where
  store := ⟨[.doubling]⟩

def RunRequest.doubling : RunRequest where
  definition := "doubling"
  input := .object [("x", Json.ofNat 2)]
  user := "operator"
  runId := "run"
  now := default

def Environment.arithmetic : Environment Unit (List AuditEntry) where
  executor := { registry := ⟨[("math", Arithmetic.engine)]⟩ }
  sink := .memory
  cancelled := fun _ => false

theorem Definition.check_doubling : Definition.doubling.check = .ok () :=
  check_of_isOk (by decide +kernel)

theorem Session.reachable_doubling : Session.doubling.Reachable :=
  .single (by decide) Definition.check_doubling

theorem Environment.verify_arithmetic :
    Environment.arithmetic.executor.registry.verify Definition.doubling.steps = .ok () := by
  decide +kernel

end Tollgate
