import Tollgate.Proofs.Expr.Template
import Tollgate.Proofs.Expr.Variables
import Tollgate.Proofs.Run.Level

/-!
# What a step can see

A step is prepared from the input, the metadata and the outputs of the steps
that it refers to.  Contexts that agree on these prepare it alike, whatever
else has been committed to them.
-/

namespace Tollgate

namespace Step

variable {step : Step} {raw : String} {target : Reference}

theorem mem_references_of_input (h : (raw, target) ∈ Json.fieldReferences step.inputs) :
    raw ∈ step.references := by
  unfold references
  exact List.mem_eraseDups.mpr (List.mem_append_left _ (List.mem_map_of_mem h))

theorem mem_references_of_condition {condition : String}
    (active : step.activeCondition = some condition) (h : raw ∈ Reference.scan condition) :
    raw ∈ step.references := by
  unfold references
  rw [active]
  exact List.mem_eraseDups.mpr (List.mem_append_right _ h)

theorem mem_stepReferences (h : raw ∈ step.references)
    (reads : Reference.parse? raw = some target) {number : Nat}
    (source : target.source = .step number) :
    (raw, target, number) ∈ step.stepReferences := by
  refine List.mem_filterMap.mpr ⟨raw, h, ?_⟩
  simp [reads, Reference.step?, source]

theorem trim_activeCondition {condition : String}
    (active : step.activeCondition = some condition) : Text.trim condition = condition := by
  unfold activeCondition at active
  obtain ⟨trimmed, _⟩ := Option.filter_eq_some_iff.mp active
  obtain ⟨original, _, rfl⟩ := Option.map_eq_some_iff.mp trimmed
  exact Text.trim_trim original

end Step

namespace Context

theorem scope_step {context : Context} {target : Reference} {number : Nat}
    (source : target.source = .step number) :
    context.scope target =
      if target.path.head? = context.outputOf? number then
        (context.committed? number).bind (Json.lookup target.path.tail)
      else none := by
  unfold scope
  rw [source]
  dsimp only
  split
  · next same =>
      unfold committed?
      rw [← same]
      cases target.path <;> rfl
  · rfl

structure Agree (step : Step) (context other : Context) : Prop where
  input : context.input = other.input
  metadata : context.metadata = other.metadata
  declared : context.declared = other.declared
  committed : ∀ raw target number, (raw, target, number) ∈ step.stepReferences →
    context.committed? number = other.committed? number

namespace Agree

variable {step : Step} {context other : Context}

theorem scope (agree : Agree step context other) {raw : String} {target : Reference}
    (h : raw ∈ step.references) (reads : Reference.parse? raw = some target) :
    context.scope target = other.scope target := by
  cases source : target.source with
  | input => simp [Context.scope, source, agree.input]
  | context => simp [Context.scope, source, agree.metadata]
  | assessment => simp [Context.scope, source]
  | step number =>
      have committed := agree.committed raw target number (Step.mem_stepReferences h reads source)
      have outputs : context.outputOf? number = other.outputOf? number := by
        unfold outputOf?
        rw [agree.declared]
      rw [scope_step source, scope_step source, committed, outputs]

private theorem arguments (agree : Agree step context other) :
    step.arguments context.scope = step.arguments other.scope := by
  refine congrArg Json.object (Json.fillFields_congr step.inputs fun raw target member => ?_)
  exact agree.scope (Step.mem_references_of_input member)
    (Json.parse?_of_mem_fieldReferences step.inputs member)

private theorem holds (agree : Agree step context other) {condition : String}
    (active : step.activeCondition = some condition) :
    Expr.holds context.scope condition = Expr.holds other.scope condition := by
  refine Expr.holds_congr fun raw listed target reads => ?_
  rw [Step.trim_activeCondition active] at listed
  exact agree.scope (Step.mem_references_of_condition active listed) reads

theorem preparation (agree : Agree step context other) (now : Moment) :
    step.preparation context now = step.preparation other now := by
  have condition : step.activeCondition.map (Expr.holds context.scope) =
      step.activeCondition.map (Expr.holds other.scope) := by
    cases active : step.activeCondition with
    | none => rfl
    | some condition => simp [agree.holds active]
  unfold Step.preparation
  rw [condition, agree.arguments]

theorem place {σ : Type} (agree : Agree step context other) (executor : Executor σ)
    (now : Moment) : executor.place step context now = executor.place step other now := by
  unfold Executor.place
  rw [agree.preparation now]

end Agree

end Context

end Tollgate
