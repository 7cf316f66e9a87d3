import Tollgate.Proofs.Risk.Routing
import Tollgate.Proofs.Run.Session

/-!
# Outcomes of executions

How a run ends says what happened on its way: a completed run was clear at
every decision point, a run that awaits approval stopped at the first point
that asked for it, and a failed run was cancelled or met a failure that aborts.
-/

namespace Tollgate

namespace Run

variable {σ τ : Type} {env : Environment σ τ} {start here : Run σ τ}
  {past : List (Stage × Run σ τ)} {definition : Definition}

theorem Reaches.split (reaches : Reaches env start past here) {stage : Stage} {run : Run σ τ}
    (member : (stage, run) ∈ past) :
    ∃ before after next, past = before ++ (stage, run) :: after ∧
      Reaches env start before run ∧ run.perform env stage = .going next := by
  induction reaches with
  | start => cases member
  | @perform past last next other reaches performed ih =>
      rcases List.mem_append.mp member with earlier | latest
      · obtain ⟨before, after, later, rfl, first, went⟩ := ih earlier
        exact ⟨before, after ++ [(other, last)], later, by simp, first, went⟩
      · obtain ⟨rfl, rfl⟩ := Prod.mk.inj (List.mem_singleton.mp latest)
        exact ⟨past, [], next, rfl, reaches, performed⟩

/-- A decision point at which nothing stands against going on. -/
structure IsClear (env : Environment σ τ) (definition : Definition) (phase : Phase)
    (run : Run σ τ) : Prop where
  decision : (run.routingAt env phase).decision = .proceed ∨
    (run.routingAt env phase).decision = .warn
  level : (run.routingAt env phase).escalationLevel = none
  intervention : (run.routingAt env phase).intervention = .clear ∨
    (run.routingAt env phase).intervention = .warning
  risk : run.riskAt env phase < definition.thresholds.requireHuman

private theorem Reaches.isClear (accepted : definition.IsAccepted)
    (fresh : IsFresh definition start) (reaches : Reaches env start past here) {phase : Phase}
    (goes : (here.routingAt env phase).canContinue = true) : IsClear env definition phase here := by
  obtain ⟨same, _⟩ := reaches.isAmount_risk accepted fresh
  obtain ⟨_, amount⟩ := reaches.rises accepted fresh phase
  obtain ⟨decision, level, intervention⟩ := Routing.of_canContinue goes
  obtain ⟨_, _, below⟩ := Routing.canContinue_iff.mp goes
  refine ⟨decision, level, intervention, ?_⟩
  rw [same] at below
  exact Number.lt_of_not_le amount.isNaN accepted.isNaN_requireHuman below

private theorem requiresApproval_routingAt (env : Environment σ τ) (phase : Phase) (run : Run σ τ) :
    (run.routingAt env phase).requiresApproval = !(run.routingAt env phase).canContinue :=
  Routing.requiresApproval_eq _ _ _ _

def points (trace : List (Stage × Run σ τ)) : List (Phase × Run σ τ) :=
  trace.filterMap fun entry => entry.1.phase?.map fun phase => (phase, entry.2)

def executed (env : Environment σ τ) (trace : List (Stage × Run σ τ)) :
    List (List Nat × Run σ τ) :=
  trace.filterMap fun entry =>
    if entry.2.seesCancel env then none else entry.1.level?.map fun level => (level, entry.2)

theorem mem_points {trace : List (Stage × Run σ τ)} {phase : Phase} {run : Run σ τ} :
    (phase, run) ∈ points trace ↔ (.point phase, run) ∈ trace := by
  constructor
  · intro member
    obtain ⟨⟨stage, other⟩, present, same⟩ := List.mem_filterMap.mp member
    cases stage <;> simp [Stage.phase?] at same
    obtain ⟨rfl, rfl⟩ := same
    exact present
  · intro member
    exact List.mem_filterMap.mpr ⟨_, member, rfl⟩

private theorem mem_of_executed {trace : List (Stage × Run σ τ)} {level : List Nat} {run : Run σ τ}
    (member : (level, run) ∈ executed env trace) : (.level level, run) ∈ trace := by
  obtain ⟨⟨stage, other⟩, present, same⟩ := List.mem_filterMap.mp member
  dsimp only at same
  split at same
  · cases same
  · cases stage <;> simp [Stage.level?] at same
    obtain ⟨rfl, rfl⟩ := same
    exact present

private theorem executed_append_level {past : List (Stage × Run σ τ)} {level : List Nat}
    {run : Run σ τ} (calm : run.seesCancel env = false) :
    executed env (past ++ [(.level level, run)]) = executed env past ++ [(level, run)] := by
  simp [executed, Stage.level?, calm]

private theorem points_append_point (past : List (Stage × Run σ τ)) (phase : Phase)
    (run : Run σ τ) : points (past ++ [(.point phase, run)]) = points past ++ [(phase, run)] := by
  simp [points, Stage.phase?]

private theorem points_append_level (past : List (Stage × Run σ τ)) (level : List Nat)
    (run : Run σ τ) : points (past ++ [(.level level, run)]) = points past := by
  simp [points, Stage.phase?]

theorem Reaches.goes (reaches : Reaches env start past here) {phase : Phase} {run : Run σ τ}
    (member : (.point phase, run) ∈ past) : (run.routingAt env phase).canContinue = true := by
  obtain ⟨_, _, _, _, _, performed⟩ := reaches.split member
  obtain ⟨_, _, goes, _⟩ := going_point performed
  exact goes

private theorem Reaches.calm (reaches : Reaches env start past here) {level : List Nat}
    {run : Run σ τ} (member : (.level level, run) ∈ past) :
    run.seesCancel env = false ∧ ∀ results, (run.levelAt env level).outcome = .ok results →
      ∀ result ∈ results, result.abortsRun = false := by
  obtain ⟨_, _, _, _, _, performed⟩ := reaches.split member
  obtain ⟨calm, results, outcome, none_aborts, _⟩ := going_level performed
  refine ⟨calm, fun other same result member => ?_⟩
  rw [outcome] at same
  injection same with same
  subst same
  simpa using List.find?_eq_none.mp none_aborts result member

end Run

/-- How the status of an execution reflects the trace of its run. -/
structure Execution.Reflects {σ τ : Type} (env : Environment σ τ) (definition : Definition)
    (trace : List (Stage × Run σ τ)) (execution : Execution) : Prop where
  settled : execution.status ≠ .running
  completed : execution.status = .completed → ∀ phase run, (.point phase, run) ∈ trace →
    Run.IsClear env definition phase run
  awaiting : execution.status = .awaitingApproval ↔ execution.approval.isSome = true
  halted : execution.status = .awaitingApproval ↔
    ∃ phase run, (Run.points trace).getLast? = some (phase, run) ∧
      (run.routingAt env phase).canContinue = false
  /-- The point that halts a run is its last stage, and the first that asks for approval. -/
  first : ∀ approval, execution.approval = some approval →
    ∃ past phase run, trace = past ++ [(.point phase, run)] ∧
      (run.routingAt env phase).requiresApproval = true ∧
      (∀ earlier before, (.point earlier, before) ∈ past →
        (before.routingAt env earlier).requiresApproval = false) ∧
      approval.decisionPoint = phase.text ∧ approval.expiresAt.isSome = true
  failed : execution.status = .failed ↔
    (∃ level run, (.level level, run) ∈ trace ∧ run.seesCancel env = true) ∨
      ∃ level run results, (Run.executed env trace).getLast? = some (level, run) ∧
        (run.levelAt env level).outcome = .ok results ∧
        ∃ result ∈ results, result.abortsRun = true
  autoApproved : execution.autoApproved = true →
    execution.status = .completed ∧
      execution.cumulativeRisk ≤ definition.thresholds.autoApprove ∧
      definition.thresholds.autoApprove < definition.thresholds.requireReview

namespace Run

variable {σ τ : Type} {env : Environment σ τ} {start here : Run σ τ}
  {trace past : List (Stage × Run σ τ)} {definition : Definition}

theorem Reaches.not_halted (reaches : Reaches env start past here) :
    ¬∃ phase run, (points past).getLast? = some (phase, run) ∧
      (run.routingAt env phase).canContinue = false := by
  rintro ⟨phase, run, last, stops⟩
  rw [reaches.goes (mem_points.mp (List.mem_of_getLast? last))] at stops
  cases stops

theorem Reaches.not_failed (reaches : Reaches env start past here)
    (levels : ∀ level run, (.level level, run) ∈ trace → (.level level, run) ∈ past) :
    ¬((∃ level run, (.level level, run) ∈ trace ∧ run.seesCancel env = true) ∨
      ∃ level run results, (executed env trace).getLast? = some (level, run) ∧
        (run.levelAt env level).outcome = .ok results ∧
        ∃ result ∈ results, result.abortsRun = true) := by
  rintro (⟨level, run, member, cancelled⟩ |
    ⟨level, run, results, last, outcome, result, found, aborts⟩)
  · rw [(reaches.calm (levels level run member)).1] at cancelled
    cases cancelled
  · have member := levels level run (mem_of_executed (List.mem_of_getLast? last))
    rw [(reaches.calm member).2 results outcome result found] at aborts
    cases aborts

private theorem reflects_complete (accepted : definition.IsAccepted)
    (fresh : IsFresh definition start)
    (begun : trace.map Prod.fst <+: Stage.agenda (Edges.ofSteps definition.steps).levels)
    (reaches : Reaches env start trace here) :
    here.complete.execution.Reflects env definition trace := by
  have stands := reaches.stands accepted.steps fresh begun
  constructor
  · intro same
    cases same
  · intro _ phase run member
    obtain ⟨_, _, _, _, earlier, _⟩ := reaches.split member
    exact earlier.isClear accepted fresh (reaches.goes member)
  · have none_asked : here.complete.execution.approval = none := stands.approval
    rw [none_asked]
    exact ⟨fun same => (by cases same), fun same => (by cases same)⟩
  · exact ⟨fun same => (by cases same), fun halted => absurd halted reaches.not_halted⟩
  · intro approval asked
    rw [show here.complete.execution.approval = none from stands.approval] at asked
    cases asked
  · exact ⟨fun same => (by cases same),
      fun failed => absurd failed (reaches.not_failed fun _ _ member => member)⟩
  · intro approved
    have same : here.definition = definition := stands.definition.trans fresh.about
    have le : here.execution.cumulativeRisk ≤ here.definition.thresholds.autoApprove :=
      of_decide_eq_true approved
    exact ⟨rfl, same ▸ le, accepted.ascending.1⟩

private theorem reflects_halt (accepted : definition.IsAccepted) (fresh : IsFresh definition start)
    {phase : Phase} {log : τ} (split : trace = past ++ [(.point phase, here)])
    (begun : past.map Prod.fst ++ [.point phase] <+:
      Stage.agenda (Edges.ofSteps definition.steps).levels)
    (reaches : Reaches env start past here)
    (halts : (here.routingAt env phase).canContinue = false) :
    ((here.recorded env phase log).halt phase (here.routingAt env phase)).execution.Reflects env
      definition trace := by
  have stands := reaches.stands accepted.steps fresh ((List.prefix_append _ _).trans begun)
  constructor
  · intro same
    cases same
  · intro same
    cases same
  · exact ⟨fun _ => rfl, fun _ => rfl⟩
  · refine ⟨fun _ => ⟨phase, here, ?_, halts⟩, fun _ => rfl⟩
    rw [split, points_append_point, List.getLast?_append_of_ne_nil _ (by simp)]
    rfl
  · intro approval asked
    injection asked with asked
    refine ⟨past, phase, here, split, ?_, ?_, ?_, ?_⟩
    · rw [requiresApproval_routingAt, halts]
      rfl
    · intro earlier before member
      rw [requiresApproval_routingAt, reaches.goes member]
      rfl
    · rw [← asked]
    · rw [← asked]
      change (here.routingAt env phase).expiresAt.isSome = true
      have expires := Routing.isSome_expiresAt (here.verdictAt env phase) (here.riskAt env phase)
        here.definition.thresholds here.now
      change _ = !(here.routingAt env phase).canContinue at expires
      rw [halts] at expires
      exact expires
  · refine ⟨fun same => (by cases same), fun failed => absurd failed (reaches.not_failed ?_)⟩
    intro level run member
    rw [split] at member
    simpa using member
  · intro approved
    have not_approved := stands.autoApproved
    rw [← recorded_autoApproved env phase here log] at not_approved
    change (here.recorded env phase log).execution.autoApproved = true at approved
    rw [not_approved] at approved
    cases approved

private theorem reflects_level (accepted : definition.IsAccepted) (fresh : IsFresh definition start)
    {level : List Nat} {last : Run σ τ} (split : trace = past ++ [(.level level, here)])
    (begun : past.map Prod.fst ++ [.level level] <+:
      Stage.agenda (Edges.ofSteps definition.steps).levels)
    (reaches : Reaches env start past here)
    (ended : here.perform env (.level level) = .ended last) :
    last.execution.Reflects env definition trace := by
  have stands := reaches.stands accepted.steps fresh ((List.prefix_append _ _).trans begun)
  have status : last.execution.status = .failed ∧ last.execution.approval = none ∧
      last.execution.autoApproved = false := by
    rcases ended_level ended with ⟨_, rfl⟩ | ⟨_, results, failed, _, _, rfl⟩
    · exact ⟨rfl, stands.approval, stands.autoApproved⟩
    · exact ⟨rfl, stands.approval, stands.autoApproved⟩
  obtain ⟨failed, no_approval, not_approved⟩ := status
  constructor
  · simp [failed]
  · simp [failed]
  · simp [failed, no_approval]
  · rw [split, points_append_level]
    exact ⟨fun same => by simp [failed] at same, fun halted => absurd halted reaches.not_halted⟩
  · simp [no_approval]
  · refine ⟨fun _ => ?_, fun _ => failed⟩
    rcases ended_level ended with ⟨cancelled, _⟩ | ⟨calm, results, failed, outcome, aborts, _⟩
    · exact .inl ⟨level, here, by simp [split], cancelled⟩
    · refine .inr ⟨level, here, results, ?_, outcome, failed, List.mem_of_find?_eq_some aborts,
        List.find?_some aborts⟩
      rw [split, executed_append_level calm, List.getLast?_append_of_ne_nil _ (by simp)]
      rfl
  · simp [not_approved]

theorem Ending.reflects {progress : Progress σ τ} {execution : Execution}
    (accepted : definition.IsAccepted) (fresh : IsFresh definition start)
    (ending : Ending env start (Stage.agenda (Edges.ofSteps definition.steps).levels) trace
      progress) (ran : progress.outcome = .ok execution) :
    execution.Reflects env definition trace := by
  cases ending with
  | completed whole reaches =>
      injection ran with same
      subst same
      exact reflects_complete accepted fresh (whole ▸ List.prefix_rfl) reaches
  | halted split begun reaches _ halts =>
      injection ran with same
      subst same
      exact reflects_halt accepted fresh split begun reaches halts
  | refused => cases ran
  | stopped split begun reaches ended =>
      injection ran with same
      subst same
      exact reflects_level accepted fresh split begun reaches ended

end Run

/-- Whatever the engines, the sink and the flag do, the status of an execution reflects its run. -/
theorem Session.execution_reflects {σ τ : Type} {session : Session}
    (reachable : session.Reachable) (env : Environment σ τ) (request : RunRequest) (state : σ)
    (log : τ) {execution : Execution}
    (ran : (session.execute env request state log).outcome = .ok execution) :
    ∃ definition, session.store.get request.definition = .ok definition ∧
      execution.Reflects env definition (session.trace env request state log) := by
  rcases execute_cases reachable.isSound env request state log with
    ⟨definition, start, opened⟩ | ⟨error, _, failed, _⟩
  · obtain ⟨progress, ending, outcome, _⟩ := opened.ending
    rw [ran] at outcome
    exact ⟨definition, opened.stored, ending.reflects opened.accepted opened.fresh outcome.symm⟩
  · rw [failed] at ran
    cases ran

theorem Session.execution_reflects_doubling :
    ∃ execution, (Session.doubling.execute .arithmetic .doubling () []).outcome = .ok execution ∧
      execution.status = .completed ∧
      ∃ definition, Session.doubling.store.get "doubling" = .ok definition ∧
        execution.Reflects .arithmetic definition
          (Session.doubling.trace .arithmetic .doubling () []) := by
  have status : (Session.doubling.execute .arithmetic .doubling () []).outcome.toOption.map
      Execution.status = some .completed := by
    decide +kernel
  cases ran : (Session.doubling.execute .arithmetic .doubling () []).outcome with
  | error error =>
      rw [ran] at status
      cases status
  | ok execution =>
      rw [ran] at status
      injection status with completed
      exact ⟨execution, rfl, completed, execution_reflects reachable_doubling _ _ _ _ ran⟩

end Tollgate
