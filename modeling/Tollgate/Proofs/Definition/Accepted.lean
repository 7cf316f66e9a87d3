import Tollgate.Definition.Store
import Tollgate.Proofs.Number.Amount
import Tollgate.Proofs.Plan.Levelling
import Tollgate.Proofs.Risk.Verdict

/-!
# Accepted definitions

The checks of the store promise ascending thresholds, contributions that are
amounts, and a sound step list.  The risk of every verdict is then an amount.
-/

namespace Tollgate

namespace Thresholds

theorem usable_of_check {thresholds : Thresholds} (h : thresholds.check = .ok ()) :
    ∀ x ∈ thresholds.all, isUnusable x = false := by
  unfold check at h
  dsimp only at h
  split at h
  · cases h
  · next usable => simpa using usable

theorem ascending_of_check {thresholds : Thresholds} (h : thresholds.check = .ok ()) :
    thresholds.autoApprove < thresholds.requireReview ∧
      thresholds.requireReview < thresholds.requireHuman := by
  unfold check at h
  dsimp only at h
  split at h
  · cases h
  · split at h
    · next ascending => simpa using ascending
    · cases h

end Thresholds

structure Rule.IsSound (definition : Definition) (rule : Rule) : Prop where
  usable : Thresholds.isUnusable rule.riskFactor = false
  levelled : rule.kind = .escalation → rule.escalationLevel.isSome = true
  placed : ∀ n, rule.scope = .step n → (definition.step? n).isSome = true
  readable : Text.isBlank rule.condition = true ∨ ∃ tree, Expr.parse rule.condition = .ok tree

private theorem Rule.isSound_of_fault? {definition : Definition} {rule : Rule}
    (h : rule.fault? definition = none) : rule.IsSound definition := by
  unfold fault? at h
  split at h
  · cases h
  · next usable =>
      split at h
      · cases h
      · next levelled =>
          split at h
          · cases h
          · next known =>
              constructor
              case usable => simpa using usable
              case levelled =>
                intro escalation
                simpa [escalation, Option.isSome_iff_ne_none] using levelled
              case placed =>
                intro n scope
                rw [scope] at known
                cases found : definition.step? n with
                | none => simp [RuleScope.step?, found] at known
                | some step => rfl
              case readable =>
                split at h
                · next blank => exact .inl blank
                · split at h
                  · next tree parsed => exact .inr ⟨tree, parsed⟩
                  · cases h

namespace Definition

theorem checkRules_cons {definition : Definition} {seen : List String} {rule : Rule}
    {rest : List Rule} (h : definition.checkRules seen (rule :: rest) = .ok ()) :
    rule.id ∉ seen ∧ rule.IsSound definition ∧
      definition.checkRules (rule.id :: seen) rest = .ok () := by
  unfold checkRules at h
  split at h
  · cases h
  · split at h
    · cases h
    · next new =>
        split at h
        · cases h
        · next clean => exact ⟨by simpa using new, Rule.isSound_of_fault? clean, h⟩

theorem isSound_of_checkRules {definition : Definition} {seen : List String} {rules : List Rule}
    (h : definition.checkRules seen rules = .ok ()) : ∀ rule ∈ rules, rule.IsSound definition := by
  induction rules generalizing seen with
  | nil => simp
  | cons rule rest ih =>
      obtain ⟨_, sound, others⟩ := checkRules_cons h
      exact List.forall_mem_cons.mpr ⟨sound, ih others⟩

theorem nodup_of_checkRules {definition : Definition} {seen : List String} {rules : List Rule}
    (h : definition.checkRules seen rules = .ok ()) :
    (rules.map Rule.id).Nodup ∧ ∀ rule ∈ rules, rule.id ∉ seen := by
  induction rules generalizing seen with
  | nil => simp
  | cons rule rest ih =>
      obtain ⟨new, _, others⟩ := checkRules_cons h
      obtain ⟨distinct, apart⟩ := ih others
      rw [List.map_cons, List.nodup_cons]
      refine ⟨⟨?_, distinct⟩, ?_⟩
      · intro again
        obtain ⟨other, member, same⟩ := List.mem_map.mp again
        exact apart other member (same ▸ List.mem_cons_self)
      · refine List.forall_mem_cons.mpr ⟨new, ?_⟩
        exact fun other later old => apart other later (List.mem_cons_of_mem _ old)

theorem checkSettings_of_check {definition : Definition} (h : definition.check = .ok ()) :
    definition.checkSettings = .ok () := by
  unfold check at h
  split at h
  · cases h
  · next settings => exact settings

theorem checkRules_of_check {definition : Definition} (h : definition.check = .ok ()) :
    definition.checkRules [] definition.rules = .ok () := by
  have settings := checkSettings_of_check h
  unfold checkSettings at settings
  split at settings
  · cases settings
  · exact settings

theorem exists_insert_of_isOk {store : Store} {definition : Definition}
    (h : (store.insert definition).isOk = true) :
    ∃ later, store.insert definition = .ok later := by
  cases inserted : store.insert definition with
  | error error =>
      rw [inserted] at h
      cases h
  | ok later => exact ⟨later, rfl⟩

theorem check_of_insert {store later : Store} {definition : Definition}
    (h : store.insert definition = .ok later) :
    definition.check = .ok () ∧
      later.definitions =
        definition :: store.definitions.filter fun other => other.id != definition.id := by
  unfold Store.insert at h
  split at h
  · cases h
  · next checked =>
      injection h with same
      exact ⟨checked, same ▸ rfl⟩

/-- What the store promises about the definitions that it holds. -/
structure IsAccepted (definition : Definition) : Prop where
  usable : ∀ x ∈ definition.thresholds.all, Thresholds.isUnusable x = false
  ascending : definition.thresholds.autoApprove < definition.thresholds.requireReview ∧
    definition.thresholds.requireReview < definition.thresholds.requireHuman
  contributions : ∀ rule ∈ definition.rules, Number.IsAmount rule.riskFactor
  steps : Structure.IsSound definition.steps
  plan : Plan.build definition.steps = .ok (.ofEdges (Edges.ofSteps definition.steps))

theorem isAccepted_of_check {definition : Definition} (h : definition.check = .ok ()) :
    definition.IsAccepted := by
  unfold check at h
  split at h
  · cases h
  · next settings =>
      split at h
      · cases h
      · next plan built =>
          obtain ⟨sound, same⟩ := Plan.build_ok built
          unfold checkSettings at settings
          split at settings
          · cases settings
          · next thresholds =>
              have sound_rules := isSound_of_checkRules settings
              exact
                { usable := Thresholds.usable_of_check thresholds
                  ascending := Thresholds.ascending_of_check thresholds
                  contributions := fun rule member =>
                    Number.isAmount_of_usable (sound_rules rule member).usable
                  steps := sound
                  plan := same ▸ built }

theorem IsAccepted.isLevelling {definition : Definition} (h : definition.IsAccepted) :
    Structure.IsLevelling definition.steps (Edges.ofSteps definition.steps).levels :=
  h.steps.isLevelling

theorem IsAccepted.isNaN_requireHuman {definition : Definition} (h : definition.IsAccepted) :
    definition.thresholds.requireHuman.isNaN = false :=
  (Number.isAmount_of_usable
    (h.usable definition.thresholds.requireHuman (by simp [Thresholds.all]))).isNaN

end Definition

theorem Evaluator.isAmount_verdict {rules : List Rule}
    (h : ∀ rule ∈ rules, Number.IsAmount rule.riskFactor) (evaluator : Evaluator)
    (phase : Phase) (scope : Scope) :
    Number.IsAmount (evaluator.verdict rules phase scope).1.risk := by
  rw [Verdict.verdict_fst, Verdict.ofRules_eq]
  refine Number.isAmount_foldl_add Rule.riskFactor (fun rule fired => ?_) Number.isAmount_zero
  exact h rule (Verdict.mem_fired.mp fired).1

end Tollgate
