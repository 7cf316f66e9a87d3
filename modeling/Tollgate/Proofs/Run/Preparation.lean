import Tollgate.Proofs.Plan.Levelling
import Tollgate.Proofs.Run.Settled

/-!
# What a plan lets a step see

The references that make the dependencies of a step are all that preparing the
step reads of other steps.  So the outputs of steps that it does not depend on
have no influence on its arguments, nor on whether and why it is skipped.
-/

namespace Tollgate

def Preparation.timeless : Preparation → Preparation
  | .skip result => .skip result.timeless
  | .run arguments => .run arguments

private theorem Step.timeless_preparation (step : Step) (context : Context) (now later : Moment) :
    (step.preparation context now).timeless = (step.preparation context later).timeless := by
  unfold preparation
  cases step.activeCondition.map (Expr.holds context.scope) with
  | none => rfl
  | some outcome =>
      rcases outcome with error | _ | _
      · exact congrArg Preparation.skip (StepResult.timeless_skipped step _ now later)
      · exact congrArg Preparation.skip (StepResult.timeless_skipped step none now later)
      · rfl

namespace Plan

variable {steps : List Step} {plan : Plan} {step : Step} {context other : Context}

private theorem mem_dependencies (built : build steps = .ok plan) (member : step ∈ steps)
    {raw : String}
    {target : Reference} {number : Nat} (refers : (raw, target, number) ∈ step.stepReferences) :
    number ∈ plan.dependencies.of step.number := by
  obtain ⟨sound, rfl⟩ := build_ok built
  obtain ⟨_, producer, known, rfl, _⟩ := sound.references step member raw target number refers
  exact Edges.mem_of_ofSteps member refers (List.mem_map_of_mem known)

/-- Two contexts of one definition that differ at most in the outputs of steps which the given
step does not depend on. -/
structure SameView (plan : Plan) (step : Step) (context other : Context) : Prop where
  declared : context.declared = other.declared
  input : context.input = other.input
  metadata : context.metadata = other.metadata
  committed : ∀ number ∈ plan.dependencies.of step.number,
    context.committed? number = other.committed? number

private theorem SameView.agree (view : plan.SameView step context other)
    (built : build steps = .ok plan)
    (member : step ∈ steps) : Context.Agree step context other where
  input := view.input
  metadata := view.metadata
  declared := view.declared
  committed _ _ number refers := view.committed number (mem_dependencies built member refers)

/-- A step is prepared alike in all contexts that agree on the input, the metadata and the
outputs of its dependencies. -/
theorem prepare_of_sameView (built : build steps = .ok plan) (member : step ∈ steps)
    (view : plan.SameView step context other) (evaluator evaluator' : Evaluator)
    (now later : Moment) :
    (step.prepare context evaluator now).1.timeless =
      (step.prepare other evaluator' later).1.timeless := by
  rw [step.prepare_fst, step.prepare_fst, step.timeless_preparation context now later,
    (view.agree built member).preparation later]

def forkEnd : Step :=
  { (Step.make 3 "math" "identity").withInput "value"
      (.array [.string " $step1.step1_output", .string "was $step1.step1_output.result"]) with
    condition := some "$step1.step1_output.result > $input.limit" }

def fork : List Step := [Step.make 1 "math" "identity", Step.make 2 "math" "identity", forkEnd]

def afterFork (outputs : List (String × Json)) : Context where
  input := .object [("limit", Json.ofNat 3)]
  steps := ("step1_output", .object [("result", Json.ofNat 4)]) :: outputs
  declared := fork

theorem prepare_of_sameView_fork :
    ∃ plan, build fork = .ok plan ∧ forkEnd ∈ fork ∧
      plan.SameView forkEnd (afterFork []) (afterFork [("step2_output", .null)]) ∧
      (afterFork []).committed? 2 ≠ (afterFork [("step2_output", .null)]).committed? 2 ∧
      (forkEnd.prepare (afterFork []) .empty default).1.timeless =
        (forkEnd.prepare (afterFork [("step2_output", .null)]) .empty default).1.timeless := by
  obtain ⟨plan, built⟩ : ∃ plan, build fork = .ok plan := by
    have sound : issues fork = [] := by decide +kernel
    exact ⟨_, by rw [build, sound]⟩
  have view : plan.SameView forkEnd (afterFork []) (afterFork [("step2_output", .null)]) := by
    refine ⟨rfl, rfl, rfl, fun number depends => ?_⟩
    have only : (Edges.ofSteps fork).of forkEnd.number = [1] := by decide +kernel
    rw [(build_ok built).2] at depends
    obtain rfl : number = 1 := by simpa [ofEdges, only] using depends
    rfl
  refine ⟨plan, built, by simp [fork], view, ?_, ?_⟩
  · exact nofun
  · exact prepare_of_sameView built (by simp [fork]) view .empty .empty default default

end Plan

end Tollgate
