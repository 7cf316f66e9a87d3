import Mathlib.Order.Basic
import Tollgate.Proofs.Number.Amount
import Tollgate.Proofs.Risk.Routing

/-!
# Routing at a higher risk

Everything that a routing takes from the risk climbs in steps: a limit that is
reached stays reached.  So a higher risk is never routed more leniently,
whatever the thresholds are, and at no risk does a run go on that has to be
approved.
-/

namespace Tollgate

/-- Never falls when the risk rises, and never exceeds `top`. -/
structure Climbs (top : Nat) (f : Float → Nat) : Prop where
  le : ∀ {low high : Float}, low ≤ high → f low ≤ f high
  bound : ∀ risk, f risk ≤ top

namespace Climbs

theorem const (n : Nat) : Climbs n fun _ => n := ⟨fun _ => le_rfl, fun _ => le_rfl⟩

theorem step {n top : Nat} {f : Float → Nat} (below : Climbs n f) (le : n ≤ top)
    (limit : Float) : Climbs top fun risk => if risk ≥ limit then top else f risk where
  le := by
    intro low high rises
    by_cases reached : low ≥ limit
    · have stays : high ≥ limit := Number.le_trans reached rises
      rw [if_pos reached, if_pos stays]
    · rw [if_neg reached]
      split
      · exact (below.bound low).trans le
      · exact below.le rises
  bound := by
    intro risk
    split
    · exact le_rfl
    · exact (below.bound risk).trans le

end Climbs

theorem Priority.climbs_rank : Climbs (rank .urgent) fun risk => (Priority.ofRisk risk).rank := by
  have steps := ((Climbs.const (rank .normal)).step (by decide : _ ≤ rank .high) 0.7).step
    (by decide : _ ≤ rank .urgent) 0.9
  simpa only [Priority.ofRisk, apply_ite rank] using steps

theorem Priority.expiryHours_le {a b : Priority} (le : a.rank ≤ b.rank) :
    b.expiryHours ≤ a.expiryHours := by
  cases a <;> cases b <;> simp_all [rank, expiryHours]

theorem approverSeniority_le (level : Option Nat) {low high : Float} (le : low ≤ high) :
    approverSeniority low level ≤ approverSeniority high level := by
  have steps := ((((Climbs.const 0).step (Nat.zero_le 1) 0.3).step (by decide : 1 ≤ 2) 0.5).step
    (by decide : 2 ≤ 3) 0.7).step (by decide : 3 ≤ 4) 0.9
  exact max_le_max_right _ (steps.le le)

theorem Moment.nanos_addHours_le {now : Moment} {a b : Nat} (le : a ≤ b) :
    (now.addHours a).nanos ≤ (now.addHours b).nanos := by
  unfold addHours addSeconds nanos
  dsimp only
  omega

theorem Intervention.rank_of_le (verdict : Verdict) (thresholds : Thresholds) {low high : Float}
    (le : low ≤ high) :
    (Intervention.of verdict low thresholds).rank ≤
      (Intervention.of verdict high thresholds).rank := by
  unfold Intervention.of
  by_cases blocked : verdict.decision = .block
  · rw [if_pos blocked, if_pos blocked]
  · by_cases escalated : verdict.escalationLevel.isSome = true
    · rw [if_neg blocked, if_neg blocked, if_pos escalated, if_pos escalated]
    · rw [if_neg blocked, if_neg blocked, if_neg escalated, if_neg escalated]
      have steps {n : Nat} {f : Float → Nat} (below : Climbs n f) (bound : n ≤ rank .hardStop) :=
        (below.step bound thresholds.requireHuman).le le
      cases decision : verdict.decision with
      | block => exact absurd decision blocked
      | pause | escalate =>
          simpa only [apply_ite rank] using steps (.const (rank .softStop)) (by decide)
      | warn => simpa only [apply_ite rank] using steps (.const (rank .warning)) (by decide)
      | proceed =>
          have review := (Climbs.const (rank .clear)).step (by decide : _ ≤ rank .warning)
            thresholds.requireReview
          simpa only [apply_ite rank] using steps review (by decide)

namespace Routing

/-- Of two routings the second is no more lenient than the first. -/
structure Tightens (low high : Routing) : Prop where
  intervention : low.intervention.rank ≤ high.intervention.rank
  priority : low.priority.rank ≤ high.priority.rank
  seniority : low.minSeniority ≤ high.minSeniority
  continues : high.canContinue = true → low.canContinue = true
  expiry : ∀ later earlier, low.expiresAt = some later → high.expiresAt = some earlier →
    earlier.nanos ≤ later.nanos

/-- A routing asks for approval, and says until when, exactly if the run may not go on, and an
escalation level is a lower bound on who may approve it. -/
structure IsConsistent (verdict : Verdict) (routing : Routing) : Prop where
  approval : routing.requiresApproval = true ↔ routing.canContinue = false
  expiry : routing.expiresAt.isSome = true ↔ routing.canContinue = false
  seniority : ∀ level, verdict.escalationLevel = some level → level ≤ routing.minSeniority

variable {verdict : Verdict} {thresholds : Thresholds} {now : Moment}

private theorem eq_of_expiresAt {risk : Float} {moment : Moment}
    (h : (Routing.of verdict risk thresholds now).expiresAt = some moment) :
    moment = now.addHours (Routing.of verdict risk thresholds now).priority.expiryHours := by
  unfold Routing.of at h ⊢
  dsimp only at h ⊢
  split at h
  · exact (Option.some.inj h).symm
  · cases h

private theorem tightens_of_le {low high : Float} (le : low ≤ high) :
    (Routing.of verdict low thresholds now).Tightens (Routing.of verdict high thresholds now) := by
  have priority : (Routing.of verdict low thresholds now).priority.rank ≤
      (Routing.of verdict high thresholds now).priority.rank := by
    unfold Routing.of
    dsimp only
    split
    · exact le_rfl
    · exact Priority.climbs_rank.le le
  constructor
  case intervention => exact Intervention.rank_of_le verdict thresholds le
  case priority => exact priority
  case seniority => exact approverSeniority_le verdict.escalationLevel le
  case continues =>
    intro goes
    obtain ⟨decision, level, below⟩ := canContinue_iff.mp goes
    exact canContinue_iff.mpr ⟨decision, level, fun reached => below (Number.le_trans reached le)⟩
  case expiry =>
    intro later earlier expires_low expires_high
    rw [eq_of_expiresAt expires_low, eq_of_expiresAt expires_high]
    exact Moment.nanos_addHours_le (Priority.expiryHours_le priority)

theorem isConsistent_of (risk : Float) :
    (Routing.of verdict risk thresholds now).IsConsistent verdict where
  approval := by simp [requiresApproval_eq]
  expiry := by simp [isSome_expiresAt]
  seniority := by
    intro level asked
    change level ≤ approverSeniority risk verdict.escalationLevel
    rw [asked]
    exact le_max_right _ _

/-- A verdict is routed no more leniently at a higher risk, and at every risk approval is asked
for exactly where the run has to stop. -/
theorem routing_monotone (verdict : Verdict) (thresholds : Thresholds) (now : Moment) :
    (∀ low high : Float, low ≤ high →
      (Routing.of verdict low thresholds now).Tightens
        (Routing.of verdict high thresholds now)) ∧
      ∀ risk, (Routing.of verdict risk thresholds now).IsConsistent verdict :=
  ⟨fun _ _ => tightens_of_le, isConsistent_of⟩

theorem routing_monotone_paused :
    let verdict : Verdict := { phase := .step 2, decision := .pause }
    let thresholds : Thresholds := ⟨0.3, 0.9, 0.8⟩
    let low := Routing.of verdict 0.75 thresholds default
    let high := Routing.of verdict 0.95 thresholds default
    (0.75 : Float) ≤ 0.95 ∧
      (low.intervention = .softStop ∧ high.intervention = .hardStop ∧
        low.expiresAt = some (Moment.addHours default 24) ∧
        high.expiresAt = some (Moment.addHours default 4)) ∧
      low.Tightens high := by
  intro verdict thresholds low high
  have le : (0.75 : Float) ≤ 0.95 := by decide +kernel
  exact ⟨le, by decide +kernel, (routing_monotone verdict thresholds default).1 _ _ le⟩

end Routing

end Tollgate
