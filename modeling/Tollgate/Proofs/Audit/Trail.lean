import Tollgate.Proofs.Run.Outcome

/-!
# Audit trails

The entries of a run are chained by their risks, follow the agenda of its plan,
and are handed to the sink one by one before anything depends on them.  A sink
that refuses an entry ends the run there.
-/

namespace Tollgate

/-! ## Chains of entries -/

namespace AuditEntry

/-- Every entry goes on from the risk of the one before it, and none lowers the risk. -/
def Chained : Float → List AuditEntry → Prop
  | _, [] => True
  | risk, entry :: rest =>
      entry.riskBefore = risk ∧ entry.riskBefore ≤ entry.riskAfter ∧ Chained entry.riskAfter rest

def finalRisk (risk : Float) (entries : List AuditEntry) : Float :=
  entries.foldl (fun _ entry => entry.riskAfter) risk

theorem finalRisk_append (risk : Float) (entries : List AuditEntry) (entry : AuditEntry) :
    finalRisk risk (entries ++ [entry]) = entry.riskAfter := by
  simp [finalRisk]

theorem chained_append {risk : Float} {entries : List AuditEntry} {entry : AuditEntry}
    (h : Chained risk entries) (before : entry.riskBefore = finalRisk risk entries)
    (grows : entry.riskBefore ≤ entry.riskAfter) : Chained risk (entries ++ [entry]) := by
  induction entries generalizing risk with
  | nil => exact ⟨before, grows, trivial⟩
  | cons first rest ih =>
      obtain ⟨start, first_grows, later⟩ := h
      exact ⟨start, first_grows, ih later before⟩

end AuditEntry

/-! ## Sinks -/

namespace Sink

variable {τ : Type}

def deliver (sink : Sink τ) : List AuditEntry → τ → Option τ
  | [], log => some log
  | entry :: rest, log =>
      match sink.record entry log with
      | (.ok (), log) => sink.deliver rest log
      | (.error _, _) => none

theorem deliver_append (sink : Sink τ) {entries : List AuditEntry} {entry : AuditEntry}
    {log between after : τ} (h : sink.deliver entries log = some between)
    (taken : sink.record entry between = (.ok (), after)) :
    sink.deliver (entries ++ [entry]) log = some after := by
  induction entries generalizing log with
  | nil =>
      injection h with same
      subst same
      simp [deliver, taken]
  | cons first rest ih =>
      rw [List.cons_append, deliver]
      rw [deliver] at h
      split at h
      · next next_log _ =>
          exact ih h
      · cases h

end Sink

/-! ## The order of decision points -/

namespace Stage

def phases (stages : List Stage) : List Phase := stages.filterMap phase?

private theorem phases_append (stages later : List Stage) :
    phases (stages ++ later) = phases stages ++ phases later :=
  List.filterMap_append

theorem phases_agenda (levels : List (List Nat)) :
    phases (agenda levels) = .global :: (levels.flatten.map .step ++ [.final]) := by
  have each (level : List Nat) : phases (ofLevel level) = level.map .step := by
    simp [phases, ofLevel, phase?, List.filterMap_cons, List.filterMap_map, Function.comp_def]
  have all : phases (levels.flatMap ofLevel) = levels.flatten.map .step := by
    induction levels with
    | nil => rfl
    | cons level rest ih =>
        rw [List.flatMap_cons, phases_append, each, ih, List.flatten_cons, List.map_append]
  rw [agenda, List.cons_append, ← List.singleton_append, phases_append, phases_append, all]
  simp [phases, phase?]

theorem text_ne_final {phase : Phase} (h : phase ≠ .final) : phase.text ≠ "final" := by
  cases phase with
  | global => decide
  | final => exact absurd rfl h
  | step n =>
      intro same
      have first := congrArg (fun text => text.toList.head?) same
      simp [Phase.text] at first

def pointTexts (levels : List (List Nat)) : List String :=
  "global" :: (levels.flatten.map (fun number => "step_" ++ toString number) ++ ["final"])

theorem text_phases_agenda (levels : List (List Nat)) :
    (phases (agenda levels)).map Phase.text = pointTexts levels := by
  rw [phases_agenda]
  simp [pointTexts, Phase.text, Function.comp_def]

theorem text_phases_iff {levels : List (List Nat)} {stages : List Stage}
    (begun : stages <+: agenda levels) :
    (phases stages).map Phase.text = pointTexts levels ↔ .point .final ∈ stages := by
  constructor
  · intro whole
    have last : "final" ∈ (phases stages).map Phase.text := by
      rw [whole]
      simp [pointTexts]
    obtain ⟨phase, reached, text⟩ := List.mem_map.mp last
    obtain rfl : phase = .final := Decidable.byContradiction fun ne => text_ne_final ne text
    obtain ⟨stage, member, same⟩ := List.mem_filterMap.mp reached
    cases stage <;> simp [phase?] at same
    exact same ▸ member
  · intro member
    obtain ⟨rest, same⟩ := begun
    obtain rfl := eq_agenda_of_final same member
    rw [List.append_nil] at same
    rw [same, text_phases_agenda]

end Stage

namespace Run

variable {σ τ : Type} {env : Environment σ τ} {start here : Run σ τ}
  {past : List (Stage × Run σ τ)} {definition : Definition}

theorem decisionPoint_trail (env : Environment σ τ) (past : List (Stage × Run σ τ)) :
    (trail env past).map AuditEntry.decisionPoint =
      (Stage.phases (past.map Prod.fst)).map Phase.text := by
  induction past with
  | nil => rfl
  | cons entry rest ih =>
      obtain ⟨stage, run⟩ := entry
      cases stage with
      | point phase =>
          simp only [trail, Stage.phases, List.filterMap_cons, Stage.phase?, Option.map_some,
            List.map_cons] at ih ⊢
          rw [ih]
          rfl
      | level level =>
          simpa [trail, Stage.phases, List.filterMap_cons, Stage.phase?] using ih

theorem decisionPoint_trail_iff (env : Environment σ τ) {past : List (Stage × Run σ τ)}
    {levels : List (List Nat)} (begun : past.map Prod.fst <+: Stage.agenda levels) :
    (trail env past).map AuditEntry.decisionPoint = Stage.pointTexts levels ↔
      .point .final ∈ past.map Prod.fst := by
  rw [decisionPoint_trail]
  exact Stage.text_phases_iff begun

theorem trail_append_point (env : Environment σ τ) (past : List (Stage × Run σ τ))
    (phase : Phase) (run : Run σ τ) :
    trail env (past ++ [(.point phase, run)]) = trail env past ++ [run.entryAt env phase] := by
  rw [trail_append]
  rfl

theorem trail_append_level (env : Environment σ τ) (past : List (Stage × Run σ τ))
    (level : List Nat) (run : Run σ τ) :
    trail env (past ++ [(.level level, run)]) = trail env past := by
  rw [trail_append]
  exact List.append_nil _

/-! ## Chains and logs along a run -/

theorem Reaches.entryAt (accepted : definition.IsAccepted) (fresh : IsFresh definition start)
    (reaches : Reaches env start past here) (phase : Phase) :
    (here.entryAt env phase).riskBefore = here.execution.cumulativeRisk ∧
      (here.entryAt env phase).riskBefore ≤ (here.entryAt env phase).riskAfter :=
  ⟨rfl, (reaches.rises accepted fresh phase).1⟩

theorem Reaches.chained (accepted : definition.IsAccepted) (fresh : IsFresh definition start)
    (reaches : Reaches env start past here) :
    AuditEntry.Chained 0.0 (trail env past) ∧
      here.execution.cumulativeRisk = AuditEntry.finalRisk 0.0 (trail env past) := by
  induction reaches with
  | start => exact ⟨trivial, fresh.risk⟩
  | @perform past here later stage reaches performed ih =>
      obtain ⟨chained, risk⟩ := ih
      cases stage with
      | point phase =>
          obtain ⟨log, _, _, rfl⟩ := going_point performed
          obtain ⟨before, grows⟩ := reaches.entryAt accepted fresh phase
          rw [trail_append_point, AuditEntry.finalRisk_append]
          exact ⟨AuditEntry.chained_append chained (before.trans risk) grows, rfl⟩
      | level level =>
          obtain ⟨_, results, _, _, rfl⟩ := going_level performed
          rw [trail_append_level]
          exact ⟨chained, risk⟩

theorem Reaches.delivered (reaches : Reaches env start past here) :
    env.sink.deliver (trail env past) start.log = some here.log := by
  induction reaches with
  | start => rfl
  | @perform past here later stage reaches performed ih =>
      cases stage with
      | point phase =>
          obtain ⟨log, taken, _, rfl⟩ := going_point performed
          rw [trail_append_point]
          exact env.sink.deliver_append ih taken
      | level level =>
          obtain ⟨_, results, _, _, rfl⟩ := going_level performed
          rw [trail_append_level]
          exact ih

/-! ## Trails at the end of a run -/

section Ending

variable {trace : List (Stage × Run σ τ)} {progress : Progress σ τ}

theorem Ending.begun {agenda : List Stage} (ending : Ending env start agenda trace progress) :
    trace.map Prod.fst <+: agenda := by
  cases ending with
  | completed whole => exact whole ▸ List.prefix_rfl
  | halted split begun => simpa [split] using begun
  | refused split begun => simpa [split] using begun
  | stopped split begun => simpa [split] using begun

theorem Ending.order {levels : List (List Nat)}
    (ending : Ending env start (Stage.agenda levels) trace progress) :
    (trail env trace).map AuditEntry.decisionPoint <+: Stage.pointTexts levels := by
  rw [decisionPoint_trail, ← Stage.text_phases_agenda]
  exact (ending.begun.filterMap _).map _

private theorem Reaches.chained_point (accepted : definition.IsAccepted)
    (fresh : IsFresh definition start) (reaches : Reaches env start past here) (phase : Phase) :
    AuditEntry.Chained 0.0 (trail env (past ++ [(.point phase, here)])) := by
  obtain ⟨chained, risk⟩ := reaches.chained accepted fresh
  obtain ⟨before, grows⟩ := reaches.entryAt accepted fresh phase
  rw [trail_append_point]
  exact AuditEntry.chained_append chained (before.trans risk) grows

theorem Ending.chained (accepted : definition.IsAccepted) (fresh : IsFresh definition start)
    {agenda : List Stage} (ending : Ending env start agenda trace progress) :
    AuditEntry.Chained 0.0 (trail env trace) := by
  cases ending with
  | completed whole reaches => exact (reaches.chained accepted fresh).1
  | halted split begun reaches => exact split ▸ reaches.chained_point accepted fresh _
  | refused split begun reaches => exact split ▸ reaches.chained_point accepted fresh _
  | stopped split begun reaches =>
      rw [split, trail_append_level]
      exact (reaches.chained accepted fresh).1

end Ending

end Run

/-! ## What an execution records -/

/-- An execution and the log that it leaves, against the trace of its run. -/
structure Execution.IsRecorded {σ τ : Type} (env : Environment σ τ) (levels : List (List Nat))
    (trace : List (Stage × Run σ τ)) (log after : τ) (execution : Execution) : Prop where
  complete : execution.audit = Run.trail env trace
  whole : execution.audit.map AuditEntry.decisionPoint = Stage.pointTexts levels ↔
    execution.status = .completed ∨
      ∃ approval, execution.approval = some approval ∧ approval.decisionPoint = "final"
  risk : execution.cumulativeRisk = AuditEntry.finalRisk 0.0 execution.audit
  delivered : env.sink.deliver execution.audit log = some after

namespace Run

variable {σ τ : Type} {env : Environment σ τ} {start here last : Run σ τ}
  {definition : Definition} {trace past : List (Stage × Run σ τ)} {progress : Progress σ τ}
  {execution : Execution}

theorem isRecorded_complete (accepted : definition.IsAccepted) (fresh : IsFresh definition start)
    (whole : trace.map Prod.fst = Stage.agenda (Edges.ofSteps definition.steps).levels)
    (reaches : Reaches env start trace last) :
    last.complete.execution.IsRecorded env (Edges.ofSteps definition.steps).levels trace
      start.log last.complete.log := by
  have begun : trace.map Prod.fst <+: Stage.agenda (Edges.ofSteps definition.steps).levels :=
    whole ▸ List.prefix_rfl
  have audit : last.complete.execution.audit = trail env trace :=
    (reaches.stands accepted.steps fresh begun).audit
  refine ⟨audit, ?_, ?_, ?_⟩
  · refine ⟨fun _ => .inl rfl, fun _ => ?_⟩
    rw [audit]
    exact (decisionPoint_trail_iff env begun).mpr (by simp [whole, Stage.agenda])
  · rw [audit]
    exact (reaches.chained accepted fresh).2
  · rw [audit]
    exact reaches.delivered

theorem isRecorded_halt (accepted : definition.IsAccepted) (fresh : IsFresh definition start)
    {phase : Phase} {log : τ} (split : trace = past ++ [(.point phase, here)])
    (begun : past.map Prod.fst ++ [.point phase] <+:
      Stage.agenda (Edges.ofSteps definition.steps).levels)
    (reaches : Reaches env start past here)
    (taken : env.sink.record (here.entryAt env phase) here.log = (.ok (), log)) :
    ((here.recorded env phase log).halt phase (here.routingAt env phase)).execution.IsRecorded env
      (Edges.ofSteps definition.steps).levels trace start.log log := by
  have stands := reaches.stands accepted.steps fresh ((List.prefix_append _ _).trans begun)
  have audit : ((here.recorded env phase log).halt phase
      (here.routingAt env phase)).execution.audit = trail env trace := by
    rw [split, trail_append_point, ← stands.audit]
    rfl
  have reached : .point .final ∈ trace.map Prod.fst ↔ phase = .final := by
    rw [split, List.map_append, List.mem_append, or_iff_right (Stage.final_not_mem begun)]
    simp [eq_comm]
  refine ⟨audit, ?_, ?_, ?_⟩
  · rw [audit, decisionPoint_trail_iff env (by simpa [split] using begun), reached]
    constructor
    · intro same
      exact .inr ⟨_, rfl, same ▸ rfl⟩
    · rintro (completed | ⟨approval, asked, last⟩)
      · cases completed
      · injection asked with asked
        subst asked
        exact Decidable.byContradiction fun ne => Stage.text_ne_final ne last
  · rw [audit, split, trail_append_point, AuditEntry.finalRisk_append]
    rfl
  · rw [audit, split, trail_append_point]
    exact env.sink.deliver_append reaches.delivered taken

private theorem isRecorded_level (accepted : definition.IsAccepted)
    (fresh : IsFresh definition start)
    {level : List Nat} (split : trace = past ++ [(.level level, here)])
    (begun : past.map Prod.fst ++ [.level level] <+:
      Stage.agenda (Edges.ofSteps definition.steps).levels)
    (reaches : Reaches env start past here)
    (ended : here.perform env (.level level) = .ended last) :
    last.execution.IsRecorded env (Edges.ofSteps definition.steps).levels trace start.log
      last.log := by
  have stands := reaches.stands accepted.steps fresh ((List.prefix_append _ _).trans begun)
  have kept : last.execution.audit = here.execution.audit ∧
      last.execution.cumulativeRisk = here.execution.cumulativeRisk ∧
      last.log = here.log ∧ last.execution.status = .failed ∧
      last.execution.approval = here.execution.approval := by
    rcases ended_level ended with ⟨_, rfl⟩ | ⟨_, results, failed, _, _, rfl⟩ <;>
      exact ⟨rfl, rfl, rfl, rfl, rfl⟩
  obtain ⟨same_audit, same_risk, same_log, failed, same_approval⟩ := kept
  have audit : last.execution.audit = trail env trace := by
    rw [same_audit, stands.audit, split, trail_append_level]
  refine ⟨audit, ?_, ?_, ?_⟩
  · have not_final : .point .final ∉ trace.map Prod.fst := by
      rw [split, List.map_append, List.mem_append]
      rintro (earlier | last)
      · exact Stage.final_not_mem begun earlier
      · simp at last
    rw [audit, decisionPoint_trail_iff env (by simpa [split] using begun), same_approval,
      stands.approval, failed]
    simp [not_final]
  · rw [audit, split, trail_append_level, same_risk]
    exact (reaches.chained accepted fresh).2
  · rw [audit, split, trail_append_level]
    exact same_log ▸ reaches.delivered

theorem Ending.isRecorded (accepted : definition.IsAccepted) (fresh : IsFresh definition start)
    (ending : Ending env start (Stage.agenda (Edges.ofSteps definition.steps).levels) trace
      progress) (ran : progress.outcome = .ok execution) :
    execution.IsRecorded env (Edges.ofSteps definition.steps).levels trace start.log
      progress.last.log := by
  cases ending with
  | completed whole reaches =>
      injection ran with same
      subst same
      exact isRecorded_complete accepted fresh whole reaches
  | halted split begun reaches taken _ =>
      injection ran with same
      subst same
      exact isRecorded_halt accepted fresh split begun reaches taken
  | refused => cases ran
  | stopped split begun reaches ended =>
      injection ran with same
      subst same
      exact isRecorded_level accepted fresh split begun reaches ended

private theorem Reaches.taken (reaches : Reaches env start past here) {phase : Phase}
    {run : Run σ τ} (member : (.point phase, run) ∈ past) :
    ∃ log, env.sink.record (run.entryAt env phase) run.log = (.ok (), log) := by
  obtain ⟨_, _, _, _, _, performed⟩ := reaches.split member
  obtain ⟨log, taken, _⟩ := going_point performed
  exact ⟨log, taken⟩

theorem Ending.of_refused {agenda : List Stage} (ending : Ending env start agenda trace progress)
    {past later : List (Stage × Run σ τ)} {phase : Phase} {run : Run σ τ} {reason : AuditError}
    {log : τ} (split : trace = past ++ (.point phase, run) :: later)
    (refused : env.sink.record (run.entryAt env phase) run.log = (.error reason, log)) :
    later = [] ∧ progress = .failed { run.judged env phase with log } (.audit reason) := by
  have untaken {other : τ} :
      env.sink.record (run.entryAt env phase) run.log ≠ (.ok (), other) := by
    rw [refused]
    exact fun same => (by cases same)
  have member : (.point phase, run) ∈ trace := by simp [split]
  have last {before : List (Stage × Run σ τ)} {stage : Stage} {here : Run σ τ}
      (same : trace = before ++ [(stage, here)]) (reaches : Reaches env start before here) :
      stage = .point phase ∧ here = run ∧ later = [] := by
    rcases List.eq_nil_or_concat later with none_later | ⟨others, other, rfl⟩
    · rw [split, none_later] at same
      obtain ⟨_, ends⟩ := List.append_inj' same rfl
      cases ends
      exact ⟨rfl, rfl, none_later⟩
    · rw [split, List.concat_eq_append, ← List.cons_append, ← List.append_assoc] at same
      obtain ⟨front, _⟩ := List.append_inj' same rfl
      have behind : (.point phase, run) ∈ before := by simp [← front]
      obtain ⟨_, taken⟩ := reaches.taken behind
      exact absurd taken untaken
  cases ending with
  | completed _ reaches =>
      obtain ⟨_, taken⟩ := reaches.taken member
      exact absurd taken untaken
  | halted same _ reaches taken =>
      obtain ⟨point, rfl, _⟩ := last same reaches
      injection point with phases
      exact absurd (phases ▸ taken) untaken
  | refused same _ reaches rejected =>
      obtain ⟨point, rfl, none_later⟩ := last same reaches
      injection point with phases
      subst phases
      rw [refused] at rejected
      simp only [Prod.mk.injEq, Except.error.injEq] at rejected
      obtain ⟨rfl, rfl⟩ := rejected
      exact ⟨none_later, rfl⟩
  | stopped same _ reaches =>
      obtain ⟨point, _⟩ := last same reaches
      cases point

end Run

/-- The trail of a run of a stored definition, whatever ends the run. -/
structure Session.IsRecorded {σ τ : Type} (session : Session) (env : Environment σ τ)
    (request : RunRequest) (state : σ) (log : τ) (plan : Plan) : Prop where
  order : (Run.trail env (session.trace env request state log)).map AuditEntry.decisionPoint <+:
    Stage.pointTexts plan.levels
  chained : AuditEntry.Chained 0.0 (Run.trail env (session.trace env request state log))
  /-- When a stage begins, the sink holds the entries of all points before it. -/
  ahead : ∀ past stage run later,
    session.trace env request state log = past ++ (stage, run) :: later →
      env.sink.deliver (Run.trail env past) log = some run.log
  recorded : ∀ execution, (session.execute env request state log).outcome = .ok execution →
    execution.IsRecorded env plan.levels (session.trace env request state log) log
      (session.execute env request state log).log
  /-- After a refusal nothing happens, and what the sink has taken lacks the last point. -/
  refused : ∀ past phase run later reason refusedLog,
    session.trace env request state log = past ++ (.point phase, run) :: later →
    env.sink.record (run.entryAt env phase) run.log = (.error reason, refusedLog) →
      later = [] ∧ (session.execute env request state log).outcome = .error (.audit reason) ∧
        (session.execute env request state log).log = refusedLog ∧
        (session.execute env request state log).state = run.state ∧
        (Run.trail env past).map AuditEntry.decisionPoint ≠ Stage.pointTexts plan.levels
  rejection : ∀ reason,
    (session.execute env request state log).outcome = .error (.audit reason) →
      ∃ past phase run, session.trace env request state log = past ++ [(.point phase, run)] ∧
        (env.sink.record (run.entryAt env phase) run.log).1 = .error reason

theorem Session.open?_ne_audit {σ : Type} (session : Session) (registry : Registry σ)
    (id : String) (reason : AuditError) :
    (session.open? registry id).1 ≠ .error (.audit reason) := by
  unfold open?
  split
  · exact fun same => (by cases same)
  · split
    · exact fun same => (by cases same)
    · dsimp only
      split <;> exact fun same => (by cases same)

namespace Session

variable {σ τ : Type} {session : Session} {env : Environment σ τ} {request : RunRequest}
  {state : σ} {log : τ} {definition : Definition} {start : Run σ τ}

theorem Opened.isRecorded (opened : Opened session env request state log definition start) :
    session.IsRecorded env request state log (.ofEdges (Edges.ofSteps definition.steps)) := by
  obtain ⟨progress, ending, outcome, last_state, last_log⟩ := opened.ending
  obtain ⟨first_state, first_log⟩ := opened.begins
  constructor
  · exact ending.order
  · exact ending.chained opened.accepted opened.fresh
  · intro past stage run later split
    rw [← first_log]
    exact (opened.reaches split).1.delivered
  · intro execution ran
    rw [outcome] at ran
    have recorded := ending.isRecorded opened.accepted opened.fresh ran
    rw [first_log, ← last_log] at recorded
    exact recorded
  · intro past phase run later reason refusedLog split refused
    obtain ⟨none_later, rfl⟩ := ending.of_refused split refused
    obtain ⟨_, begun⟩ := opened.reaches split
    have whole := Run.decisionPoint_trail_iff env ((List.prefix_append _ _).trans begun)
    exact ⟨none_later, outcome, last_log, last_state.trans (Run.judged_state env phase run),
      fun all => Stage.final_not_mem begun (whole.mp all)⟩
  · intro reason ran
    rw [outcome] at ran
    cases ending with
    | completed => cases ran
    | halted => cases ran
    | @refused past phase here _ error split _ _ refused =>
        injection ran with same
        injection same with same
        exact ⟨past, phase, here, split, by rw [refused, same]⟩
    | stopped => cases ran

private theorem isRecorded_of_unopened {error : RunError} (plan : Plan)
    (unopened : (session.open? env.executor.registry request.definition).1 = .error error)
    (failed : (session.execute env request state log).outcome = .error error)
    (no_trace : session.trace env request state log = []) :
    session.IsRecorded env request state log plan := by
  constructor
  · simp [no_trace, Run.trail]
  · simp [no_trace, Run.trail, AuditEntry.Chained]
  · simp [no_trace]
  · simp [failed]
  · simp [no_trace]
  · intro reason ran
    rw [failed] at ran
    injection ran with same
    exact absurd (same ▸ unopened) (open?_ne_audit session _ _ reason)

end Session

/-- Every decision point is recorded before anything depends on it, in the plan's order, and
a sink that refuses an entry is asked for nothing more. -/
theorem Session.execution_recorded {σ τ : Type} {session : Session}
    (reachable : session.Reachable) (env : Environment σ τ) (request : RunRequest) (state : σ)
    (log : τ) {definition : Definition}
    (stored : session.store.get request.definition = .ok definition) :
    ∃ plan, Plan.build definition.steps = .ok plan ∧
      Structure.IsLevelling definition.steps plan.levels ∧
      session.IsRecorded env request state log plan := by
  have sound := reachable.isSound
  have accepted := sound.accepted definition (Store.mem_of_get stored)
  refine ⟨_, accepted.plan, accepted.isLevelling, ?_⟩
  rcases execute_cases sound env request state log with
    ⟨_, start, opened⟩ | ⟨error, unopened, failed, _, _, no_trace⟩
  · obtain rfl := opened.definition_eq stored
    exact opened.isRecorded
  · exact isRecorded_of_unopened _ unopened failed no_trace

theorem Session.execution_recorded_doubling :
    ∃ plan, Plan.build Definition.doubling.steps = .ok plan ∧
      Structure.IsLevelling Definition.doubling.steps plan.levels ∧
      Session.doubling.IsRecorded .arithmetic .doubling () [] plan :=
  execution_recorded reachable_doubling .arithmetic .doubling () [] rfl

end Tollgate
