import Tollgate.Risk.Routing

/-!
# What lets a run continue

A run may continue exactly when no stopping decision, no escalation level and
no cumulative risk from the human threshold up stands against it.  Approval is
asked for exactly when it may not.
-/

namespace Tollgate

theorem Intervention.isStop_of (verdict : Verdict) (risk : Float) (thresholds : Thresholds) :
    (Intervention.of verdict risk thresholds).isStop = false ↔
      verdict.decision.isStop = false ∧ verdict.escalationLevel = none ∧
        ¬risk ≥ thresholds.requireHuman := by
  unfold Intervention.of
  by_cases blocked : verdict.decision = .block
  · simp [blocked, Intervention.isStop, Decision.isStop]
  · by_cases escalated : verdict.escalationLevel.isSome = true
    · have some_level : verdict.escalationLevel ≠ none := Option.isSome_iff_ne_none.mp escalated
      simp [blocked, escalated, some_level, Intervention.isStop]
    · have no_level : verdict.escalationLevel = none := by simpa using escalated
      by_cases human : risk ≥ thresholds.requireHuman
      · simp [blocked, no_level, human, Intervention.isStop]
      · rw [if_neg blocked, if_neg escalated, if_neg human]
        cases decision : verdict.decision with
        | block => exact absurd decision blocked
        | pause => simp [Intervention.isStop, Decision.isStop]
        | escalate => simp [Intervention.isStop, Decision.isStop]
        | warn => simp [no_level, human, Intervention.isStop, Decision.isStop]
        | proceed =>
            simp only [Decision.isStop, no_level, human, not_false_eq_true, and_self, iff_true]
            split <;> rfl

theorem needsApproval_eq (verdict : Verdict) (risk : Float) (thresholds : Thresholds) :
    needsApproval (.of verdict risk thresholds) verdict =
      (Intervention.of verdict risk thresholds).isStop := by
  cases stop : (Intervention.of verdict risk thresholds).isStop with
  | false =>
      obtain ⟨decision, level, _⟩ := (Intervention.isStop_of verdict risk thresholds).mp stop
      cases shape : Intervention.of verdict risk thresholds <;>
        simp_all [needsApproval, Intervention.isStop]
  | true =>
      by_cases decision : verdict.decision.isStop = true
      · simp [needsApproval, decision]
      · by_cases level : verdict.escalationLevel.isSome = true
        · simp [needsApproval, level]
        · have human : risk ≥ thresholds.requireHuman := by
            refine Decidable.byContradiction fun below => ?_
            have goes := (Intervention.isStop_of verdict risk thresholds).mpr
              ⟨by simpa using decision, by simpa using level, below⟩
            rw [goes] at stop
            cases stop
          have not_block : verdict.decision ≠ .block := by
            intro block
            simp [block, Decision.isStop] at decision
          have hard : Intervention.of verdict risk thresholds = .hardStop := by
            simp [Intervention.of, not_block, level, human]
          simp [needsApproval, hard]

namespace Routing

variable {verdict : Verdict} {risk : Float} {thresholds : Thresholds} {now : Moment}

theorem canContinue_iff :
    (Routing.of verdict risk thresholds now).canContinue = true ↔
      verdict.decision.isStop = false ∧ verdict.escalationLevel = none ∧
        ¬risk ≥ thresholds.requireHuman := by
  rw [← Intervention.isStop_of]
  simp [Routing.of]

theorem requiresApproval_eq (verdict : Verdict) (risk : Float) (thresholds : Thresholds)
    (now : Moment) :
    (Routing.of verdict risk thresholds now).requiresApproval =
      !(Routing.of verdict risk thresholds now).canContinue := by
  simp only [Routing.of, needsApproval_eq, Bool.not_not]

theorem isSome_expiresAt (verdict : Verdict) (risk : Float) (thresholds : Thresholds)
    (now : Moment) :
    (Routing.of verdict risk thresholds now).expiresAt.isSome =
      !(Routing.of verdict risk thresholds now).canContinue := by
  rw [← requiresApproval_eq]
  simp only [Routing.of]
  split <;> simp_all

theorem of_canContinue (h : (Routing.of verdict risk thresholds now).canContinue = true) :
    let routing := Routing.of verdict risk thresholds now
    (routing.decision = .proceed ∨ routing.decision = .warn) ∧
      routing.escalationLevel = none ∧
      (routing.intervention = .clear ∨ routing.intervention = .warning) := by
  obtain ⟨decision, level, _⟩ := canContinue_iff.mp h
  refine ⟨?_, level, ?_⟩
  · change verdict.decision = .proceed ∨ verdict.decision = .warn
    cases shape : verdict.decision <;> simp_all [Decision.isStop]
  · have goes : (Intervention.of verdict risk thresholds).isStop = false := by
      simpa [Routing.of] using h
    change Intervention.of verdict risk thresholds = .clear ∨
      Intervention.of verdict risk thresholds = .warning
    cases shape : Intervention.of verdict risk thresholds <;> simp_all [Intervention.isStop]

end Routing

end Tollgate
