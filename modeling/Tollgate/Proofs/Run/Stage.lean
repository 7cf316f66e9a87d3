import Mathlib.Data.List.Basic
import Mathlib.Data.Option.Basic
import Tollgate.Proofs.Plan.Levelling
import Tollgate.Proofs.Run.Level
import Tollgate.Run.Session

/-!
# Stages of runs

A run takes its decision points and its levels one after another, in an order
that its plan fixes.  The trace of a run lists the stages that it has begun,
each with the run as it stood then.
-/

namespace Tollgate

inductive Stage where
  | point (phase : Phase)
  | level (numbers : List Nat)
  deriving DecidableEq

namespace Stage

def ofLevel (level : List Nat) : List Stage :=
  .level level :: level.map fun number => .point (.step number)

/-- The stages of a run that nothing stops. -/
def agenda (levels : List (List Nat)) : List Stage :=
  .point .global :: levels.flatMap ofLevel ++ [.point .final]

end Stage

namespace Run

variable {σ τ : Type}

/-! ## Decision points -/

def assessmentAt (env : Environment σ τ) (phase : Phase) (run : Run σ τ) : Assessment :=
  run.assess env (if phase = .final then run.execution.finalOutput? else none)

def verdictAt (env : Environment σ τ) (phase : Phase) (run : Run σ τ) : Verdict :=
  (run.judge phase (run.assessmentAt env phase)).1

def riskAt (env : Environment σ τ) (phase : Phase) (run : Run σ τ) : Float :=
  riskAfter run.execution.cumulativeRisk (run.verdictAt env phase)
    (if phase = .final then some (run.assessmentAt env phase).weightedTotal else none)

def routingAt (env : Environment σ τ) (phase : Phase) (run : Run σ τ) : Routing :=
  .of (run.verdictAt env phase) (run.riskAt env phase) run.definition.thresholds run.now

def entryAt (env : Environment σ τ) (phase : Phase) (run : Run σ τ) : AuditEntry :=
  run.auditEntry phase (run.routingAt env phase) run.execution.cumulativeRisk
    (run.riskAt env phase) (env.elapsed phase run.state)

def judged (env : Environment σ τ) (phase : Phase) (run : Run σ τ) : Run σ τ :=
  let assessment := run.assessmentAt env phase
  let run := (run.judge phase assessment).2
  if phase = .final then
    { run with execution := { run.execution with assessment := some assessment } }
  else run

def recorded (env : Environment σ τ) (phase : Phase) (run : Run σ τ) (log : τ) : Run σ τ :=
  let judged := run.judged env phase
  { judged with
    log
    execution :=
      { judged.execution with
        cumulativeRisk := run.riskAt env phase
        audit := run.execution.audit ++ [run.entryAt env phase]
        routing := some (run.routingAt env phase) } }

/-! ## Levels -/

def seesCancel (env : Environment σ τ) (run : Run σ τ) : Bool :=
  env.cancelled (env.meanwhile run.state)

def levelAt (env : Environment σ τ) (level : List Nat) (run : Run σ τ) : AfterLevel σ :=
  env.executor.runLevel run.definition level run.context run.evaluator
    (env.meanwhile run.state) run.now

def adopted (env : Environment σ τ) (level : List Nat) (run : Run σ τ) : Run σ τ :=
  let after := run.levelAt env level
  { run with
    context := after.context
    evaluator := after.evaluator
    state := after.state
    now := after.now }

def withResults (run : Run σ τ) (results : List StepResult) : Run σ τ :=
  { run with execution := run.execution.addResults results }

def runLevel (env : Environment σ τ) (level : List Nat) (run : Run σ τ) : Progress σ τ :=
  if run.seesCancel env then
    .ended ({ run with state := env.meanwhile run.state }.finish .failed "Run cancelled")
  else
    match (run.levelAt env level).outcome with
    | .error error => .failed (run.adopted env level) (.context error)
    | .ok results =>
        let later := (run.adopted env level).withResults results
        match results.find? StepResult.abortsRun with
        | some failed =>
            let message := failed.error.getD ("step " ++ toString failed.number ++ " failed")
            .ended (later.finish .failed message)
        | none => .going later

/-! ## Following an agenda -/

def perform (env : Environment σ τ) (run : Run σ τ) : Stage → Progress σ τ
  | .point .final => run.passFinal env
  | .point phase => run.pass env phase
  | .level level => run.runLevel env level

def follow (env : Environment σ τ) : List Stage → Run σ τ → Progress σ τ
  | [], run => .going run
  | stage :: rest, run => (run.perform env stage).andThen (follow env rest)

def trace (env : Environment σ τ) : List Stage → Run σ τ → List (Stage × Run σ τ)
  | [], _ => []
  | stage :: rest, run =>
      (stage, run) ::
        match run.perform env stage with
        | .going later => trace env rest later
        | _ => []

theorem andThen_assoc (progress : Progress σ τ) (next later : Run σ τ → Progress σ τ) :
    (progress.andThen next).andThen later =
      progress.andThen fun run => (next run).andThen later := by
  cases progress <;> rfl

theorem follow_append (env : Environment σ τ) (stages later : List Stage) (run : Run σ τ) :
    follow env (stages ++ later) run = (follow env stages run).andThen (follow env later) := by
  induction stages generalizing run with
  | nil => rfl
  | cons stage rest ih =>
      simp only [List.cons_append, follow, andThen_assoc]
      congr 1
      funext later
      exact ih later

/-! ## Performing a decision point -/

/-- A decision point is recorded first; only then does its routing take effect. -/
theorem perform_point (env : Environment σ τ) (phase : Phase) (run : Run σ τ) :
    run.perform env (.point phase) =
      match env.sink.record (run.entryAt env phase) run.log with
      | (.error error, log) => .failed { run.judged env phase with log } (.audit error)
      | (.ok (), log) =>
          if (run.routingAt env phase).canContinue then .going (run.recorded env phase log)
          else .ended ((run.recorded env phase log).halt phase (run.routingAt env phase)) := by
  have about : (run.verdictAt env phase).phase = phase := Verdict.phase_ofFindings _ _ _
  have decided : run.perform env (.point phase) =
      (run.judged env phase).decide env (run.verdictAt env phase)
        (if phase = .final then some (run.assessmentAt env phase).weightedTotal else none) := by
    cases phase <;> rfl
  rw [decided, Run.decide]
  simp only [about]
  cases phase <;> rfl

/-! ## Performing a level -/

theorem passLevel_eq (env : Environment σ τ) (level : List Nat) (run : Run σ τ)
    (numbers : ∀ results, (run.levelAt env level).outcome = .ok results →
      results.map StepResult.number = level) :
    run.passLevel env level = (run.runLevel env level).andThen (passSteps env level) := by
  unfold passLevel runLevel
  change (if run.seesCancel env = true then _ else _) = _
  by_cases cancelled : run.seesCancel env = true
  · rw [if_pos cancelled, if_pos cancelled]
    rfl
  · rw [if_neg cancelled, if_neg cancelled]
    change (match (run.levelAt env level).outcome with | .error error => _ | .ok results => _) = _
    cases outcome : (run.levelAt env level).outcome with
    | error error => rfl
    | ok results =>
        dsimp only
        cases results.find? StepResult.abortsRun with
        | some failed => rfl
        | none => exact numbers results outcome ▸ rfl

theorem passSteps_eq (env : Environment σ τ) (numbers : List Nat) (run : Run σ τ) :
    passSteps env numbers run =
      follow env (numbers.map fun number => .point (.step number)) run := by
  induction numbers generalizing run with
  | nil => rfl
  | cons number rest ih =>
      simp only [passSteps, List.map_cons, follow, perform]
      congr 1
      funext later
      exact ih later

end Run

/-! ## Levels of a definition -/

namespace Definition

def stepsAt (definition : Definition) (level : List Nat) : List Step :=
  level.filterMap definition.step?

theorem number_of_step? {definition : Definition} {number : Nat} {step : Step}
    (h : definition.step? number = some step) : step.number = number := by
  simpa using List.find?_some h

theorem step?_of_mem {definition : Definition} (sound : Structure.IsSound definition.steps)
    {step : Step} (member : step ∈ definition.steps) :
    definition.step? step.number = some step :=
  find?_key sound.numbers member

theorem mem_of_stepsAt {definition : Definition} {level : List Nat} {step : Step}
    (h : step ∈ definition.stepsAt level) : step ∈ definition.steps ∧ step.number ∈ level := by
  obtain ⟨number, inside, found⟩ := List.mem_filterMap.mp h
  exact ⟨List.mem_of_find?_eq_some found, number_of_step? found ▸ inside⟩

structure CanRun (definition : Definition) (level : List Nat) : Prop where
  ascending : level.Pairwise (· < ·)
  defined : ∀ number ∈ level, ∃ step, definition.step? number = some step

namespace CanRun

variable {definition : Definition} {level : List Nat}

theorem steps_eq (h : definition.CanRun level) :
    level.map definition.step? = (definition.stepsAt level).map some := by
  have defined := h.defined
  clear h
  induction level with
  | nil => rfl
  | cons number rest ih =>
      obtain ⟨step, found⟩ := defined number List.mem_cons_self
      have later := ih fun n hn => defined n (List.mem_cons_of_mem number hn)
      unfold stepsAt at later ⊢
      rw [List.map_cons, List.filterMap_cons, found, later]
      rfl

theorem numbers_eq (h : definition.CanRun level) :
    (definition.stepsAt level).map Step.number = level := by
  have same := congrArg (List.map (Option.map Step.number)) h.steps_eq
  rw [List.map_map, List.map_map] at same
  have left : level.map (Option.map Step.number ∘ definition.step?) = level.map some := by
    refine List.map_congr_left fun number member => ?_
    obtain ⟨step, found⟩ := h.defined number member
    simp [found, number_of_step? found]
  rw [left] at same
  have right : (definition.stepsAt level).map (Option.map Step.number ∘ some) =
      ((definition.stepsAt level).map Step.number).map some := by
    simp [Function.comp_def]
  rw [right] at same
  exact ((Option.some_injective _).list_map same).symm

end CanRun

end Definition

theorem Structure.IsLevelling.canRun {definition : Definition} {levels : List (List Nat)}
    (sound : Structure.IsSound definition.steps)
    (levelling : Structure.IsLevelling definition.steps levels) :
    ∀ level ∈ levels, definition.CanRun level := by
  intro level member
  refine ⟨levelling.ascending level member, fun number inside => ?_⟩
  have known := levelling.perm.mem_iff.mp (List.mem_flatten.mpr ⟨level, member, inside⟩)
  obtain ⟨step, present, rfl⟩ := List.mem_map.mp known
  exact ⟨step, Definition.step?_of_mem sound present⟩

namespace Run

variable {σ τ : Type} {env : Environment σ τ} {run : Run σ τ} {level : List Nat}

def resultsAt (env : Environment σ τ) (level : List Nat) (run : Run σ τ) : List StepResult :=
  env.executor.levelResults (run.definition.stepsAt level) run.context
    (env.meanwhile run.state) run.now

theorem levelAt_eq (h : run.definition.CanRun level) :
    (run.levelAt env level).outcome =
        (run.context.commitAll (run.resultsAt env level)).1.map
          (fun _ => run.resultsAt env level) ∧
      (run.levelAt env level).context = (run.context.commitAll (run.resultsAt env level)).2 :=
  env.executor.runLevel_eq run.definition run.context run.evaluator _ run.now h.steps_eq

theorem number_resultsAt (env : Environment σ τ) (h : run.definition.CanRun level) :
    (run.resultsAt env level).map StepResult.number = level := by
  have ascending : ((run.definition.stepsAt level).map Step.number).Pairwise (· < ·) :=
    h.numbers_eq.symm ▸ h.ascending
  exact (env.executor.number_levelResults _ _ _ ascending).trans h.numbers_eq

theorem passLevel_eq_follow (h : run.definition.CanRun level) :
    run.passLevel env level = follow env (Stage.ofLevel level) run := by
  rw [run.passLevel_eq env level]
  · unfold Stage.ofLevel follow
    congr 1
    funext later
    exact passSteps_eq env level later
  · intro results ok
    rw [(levelAt_eq h).1] at ok
    cases committed : (run.context.commitAll (run.resultsAt env level)).1 with
    | error error => simp [committed, Except.map] at ok
    | ok _ =>
        simp only [committed, Except.map, Except.ok.injEq] at ok
        exact ok ▸ number_resultsAt env h

/-! ## What a stage leaves alone -/

theorem definition_perform {stage : Stage} {later : Run σ τ}
    (h : run.perform env stage = .going later) : later.definition = run.definition := by
  cases stage with
  | point phase =>
      rw [perform_point] at h
      split at h
      · cases h
      · split at h
        · injection h with same
          rw [← same]
          cases phase <;> rfl
        · cases h
  | level level =>
      change run.runLevel env level = .going later at h
      unfold runLevel at h
      split at h
      · cases h
      · split at h
        · cases h
        · dsimp only at h
          split at h
          · cases h
          · injection h with same
            rw [← same]
            rfl

/-! ## Runs as agendas -/

private theorem definition_follow {stages : List Stage} {later : Run σ τ}
    (h : follow env stages run = .going later) : later.definition = run.definition := by
  induction stages generalizing run with
  | nil =>
      injection h with same
      rw [← same]
  | cons stage rest ih =>
      unfold follow at h
      cases performed : run.perform env stage with
      | going next =>
          rw [performed] at h
          exact (ih h).trans (definition_perform performed)
      | ended last =>
          rw [performed] at h
          cases h
      | failed last error =>
          rw [performed] at h
          cases h

theorem andThen_congr {progress : Progress σ τ} {next other : Run σ τ → Progress σ τ}
    (h : ∀ later, progress = .going later → next later = other later) :
    progress.andThen next = progress.andThen other := by
  cases progress with
  | going later => exact h later rfl
  | ended last => rfl
  | failed last error => rfl

theorem passLevels_eq_follow {levels : List (List Nat)}
    (h : ∀ level ∈ levels, run.definition.CanRun level) :
    passLevels env levels run = follow env (levels.flatMap Stage.ofLevel) run := by
  induction levels generalizing run with
  | nil => rfl
  | cons level rest ih =>
      rw [List.flatMap_cons, follow_append, passLevels,
        passLevel_eq_follow (h level List.mem_cons_self)]
      refine andThen_congr fun later followed => ih fun other member => ?_
      rw [definition_follow followed]
      exact h other (List.mem_cons_of_mem level member)

theorem passAll_eq_follow (env : Environment σ τ) (run : Run σ τ) {levels : List (List Nat)}
    (h : ∀ level ∈ levels, run.definition.CanRun level) :
    run.passAll env levels =
      (follow env (Stage.agenda levels) run).andThen fun last => .ended last.complete := by
  have last (later : Run σ τ) : later.passFinal env = follow env [.point .final] later := by
    change _ = (later.passFinal env).andThen .going
    cases later.passFinal env <;> rfl
  unfold passAll Stage.agenda
  congr 1
  rw [follow_append, follow, andThen_assoc, andThen_assoc]
  refine andThen_congr fun first passed => ?_
  have performed : run.perform env (.point .global) = .going first := passed
  have same : first.definition = run.definition := definition_perform performed
  rw [passLevels_eq_follow (same ▸ h)]
  exact andThen_congr fun later _ => last later

/-! ## Traces -/

/-- How a run gets from its start to where it stands, stage by stage. -/
inductive Reaches (env : Environment σ τ) (start : Run σ τ) :
    List (Stage × Run σ τ) → Run σ τ → Prop
  | start : Reaches env start [] start
  | perform {past : List (Stage × Run σ τ)} {here later : Run σ τ} {stage : Stage} :
      Reaches env start past here → here.perform env stage = .going later →
      Reaches env start (past ++ [(stage, here)]) later

inductive Ends (env : Environment σ τ) (start : Run σ τ) (stages : List Stage)
    (trace : List (Stage × Run σ τ)) : Progress σ τ → Prop
  | going {last : Run σ τ} (whole : trace.map Prod.fst = stages)
      (reaches : Reaches env start trace last) : Ends env start stages trace (.going last)
  | stopped {past : List (Stage × Run σ τ)} {stage : Stage} {rest : List Stage}
      {here : Run σ τ} {progress : Progress σ τ} (split : trace = past ++ [(stage, here)])
      (begun : stages = past.map Prod.fst ++ stage :: rest)
      (reaches : Reaches env start past here) (performed : here.perform env stage = progress)
      (stops : ∀ later, progress ≠ .going later) : Ends env start stages trace progress

theorem Reaches.trans {start here later : Run σ τ} {past next : List (Stage × Run σ τ)}
    (first : Reaches env start past here) (second : Reaches env here next later) :
    Reaches env start (past ++ next) later := by
  induction second with
  | start => simpa using first
  | perform _ performed ih =>
      rw [← List.append_assoc]
      exact ih.perform performed

theorem Reaches.follow {here : Run σ τ} {past : List (Stage × Run σ τ)}
    (reaches : Reaches env run past here) : follow env (past.map Prod.fst) run = .going here := by
  induction reaches with
  | start => rfl
  | @perform past here later stage _ performed ih =>
      rw [List.map_append, follow_append, ih]
      change (here.perform env stage).andThen .going = _
      rw [performed]
      rfl

theorem reaches_of_perform {later : Run σ τ} {stage : Stage}
    (h : run.perform env stage = .going later) : Reaches env run [(stage, run)] later :=
  Reaches.start.perform h

theorem ends_follow (env : Environment σ τ) (stages : List Stage) (run : Run σ τ) :
    Ends env run stages (trace env stages run) (follow env stages run) := by
  induction stages generalizing run with
  | nil => exact .going rfl .start
  | cons stage rest ih =>
      unfold trace follow
      cases performed : run.perform env stage with
      | going later =>
          have first := reaches_of_perform performed
          change Ends env run (stage :: rest) ((stage, run) :: trace env rest later)
            (follow env rest later)
          have rest_ends := ih later
          generalize follow env rest later = progress at rest_ends ⊢
          cases rest_ends with
          | going whole reaches =>
              exact .going (by rw [List.map_cons, whole]) (first.trans reaches)
          | stopped split begun reaches ended stops =>
              exact .stopped (by rw [split]; rfl) (by rw [begun]; rfl) (first.trans reaches)
                ended stops
      | ended last =>
          exact .stopped (show _ = [] ++ [_] from rfl) rfl .start performed
            (fun _ => by simp [Progress.andThen])
      | failed last error =>
          exact .stopped (show _ = [] ++ [_] from rfl) rfl .start performed
            (fun _ => by simp [Progress.andThen])

theorem stages_trace (env : Environment σ τ) (stages : List Stage) (run : Run σ τ) :
    (trace env stages run).map Prod.fst <+: stages := by
  induction stages generalizing run with
  | nil => exact List.prefix_rfl
  | cons stage rest ih =>
      unfold trace
      rw [List.map_cons, List.prefix_cons_inj]
      cases run.perform env stage with
      | going later => exact ih later
      | ended last => exact List.nil_prefix
      | failed last error => exact List.nil_prefix

theorem reaches_of_mem_trace {stages : List Stage} {past later : List (Stage × Run σ τ)}
    {stage : Stage} {here : Run σ τ}
    (h : trace env stages run = past ++ (stage, here) :: later) :
    Reaches env run past here ∧ ∃ rest, stages = past.map Prod.fst ++ stage :: rest ∧
      ((∃ next, here.perform env stage = .going next) ∨ later = []) := by
  induction stages generalizing run past with
  | nil => simp [trace] at h
  | cons first rest ih =>
      unfold trace at h
      cases past with
      | nil =>
          rw [List.nil_append, List.cons.injEq, Prod.mk.injEq] at h
          obtain ⟨⟨rfl, rfl⟩, tail⟩ := h
          refine ⟨.start, rest, rfl, ?_⟩
          cases performed : run.perform env first with
          | going next => exact .inl ⟨next, rfl⟩
          | ended last => exact .inr (by rw [← tail, performed])
          | failed last error => exact .inr (by rw [← tail, performed])
      | cons entry past =>
          rw [List.cons_append, List.cons.injEq] at h
          obtain ⟨rfl, tail⟩ := h
          cases performed : run.perform env first with
          | going next =>
              rw [performed] at tail
              obtain ⟨reaches, left, begun, ends⟩ := ih tail
              refine ⟨(reaches_of_perform performed).trans reaches, left, ?_, ends⟩
              rw [begun]
              rfl
          | ended last => simp [performed] at tail
          | failed last error => simp [performed] at tail

end Run

end Tollgate
