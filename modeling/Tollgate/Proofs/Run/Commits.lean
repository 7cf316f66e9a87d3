import Tollgate.Proofs.Json.Fields
import Tollgate.Proofs.Plan.Soundness
import Tollgate.Proofs.Run.Visibility

/-!
# Commits to a context

The first value that is committed for a step of the definition stays, and all
later ones are refused.  A reference to a step reads what was committed for
that step, and nothing that was committed for another.
-/

namespace Tollgate.Context

/-- The context after an attempt to commit a value for a step; one that is refused changes
nothing. -/
def offer (context : Context) (write : Nat × Json) : Context :=
  match context.commit write.1 write.2 with
  | .ok later => later
  | .error _ => context

def Accepts (context : Context) (number : Nat) (value : Json) : Prop :=
  ∃ later, context.commit number value = .ok later

variable {context later : Context} {number : Nat} {value : Json}

theorem commit_eq_ok_iff :
    context.commit number value = .ok later ↔
      ∃ output, context.outputOf? number = some output ∧ context.steps.lookup output = none ∧
        later = { context with steps := Json.insert output value context.steps } := by
  constructor
  · intro h
    unfold commit at h
    split at h
    · cases h
    · next output found =>
        split at h
        · cases h
        · next new =>
            cases h
            exact ⟨output, found, new, rfl⟩
  · rintro ⟨output, found, new, rfl⟩
    simp only [commit, found, new]

theorem accepts_iff :
    context.Accepts number value ↔
      number ∈ context.declared.map Step.number ∧ context.committed? number = none := by
  unfold Accepts
  simp only [commit_eq_ok_iff]
  constructor
  · rintro ⟨_, output, found, new, _⟩
    obtain ⟨step, member, rfl, _⟩ := Structure.outputOf?_mem found
    exact ⟨List.mem_map_of_mem member, by rw [committed?, found, Option.bind_some, new]⟩
  · rintro ⟨known, uncommitted⟩
    obtain ⟨output, found⟩ := Structure.exists_outputOf? known
    rw [committed?, outputOf?, found, Option.bind_some] at uncommitted
    exact ⟨_, output, found, uncommitted, rfl⟩

private theorem outputOf?_inj (outputs : (context.declared.map Step.output).Nodup) {other : Nat}
    {output : String} (found : context.outputOf? number = some output)
    (found' : context.outputOf? other = some output) : number = other := by
  obtain ⟨step, member, rfl, rfl⟩ := Structure.outputOf?_mem found
  obtain ⟨step', member', rfl, same⟩ := Structure.outputOf?_mem found'
  rw [List.inj_on_of_nodup_map outputs member member' same.symm]

/-- Everything that a commit changes is what is committed for its step. -/
structure Extends (context : Context) (number : Nat) (value : Json) (later : Context) : Prop where
  input : later.input = context.input
  metadata : later.metadata = context.metadata
  declared : later.declared = context.declared
  committed : later.committed? number = some value
  others : ∀ other, other ≠ number → later.committed? other = context.committed? other

theorem extends_of_commit (outputs : (context.declared.map Step.output).Nodup)
    (h : context.commit number value = .ok later) : context.Extends number value later := by
  obtain ⟨output, found, _, rfl⟩ := commit_eq_ok_iff.mp h
  refine ⟨rfl, rfl, rfl, ?_, fun other ne => ?_⟩
  · change (context.outputOf? number).bind _ = _
    rw [found]
    exact Json.lookup_insert_self output value context.steps
  · change (context.outputOf? other).bind _ = _
    unfold committed?
    cases found' : context.outputOf? other with
    | none => rfl
    | some output' =>
        have ne_output : output' ≠ output := by
          rintro rfl
          exact ne (outputOf?_inj outputs found' found)
        exact Json.lookup_insert_of_ne ne_output value context.steps

def offerAll (context : Context) (writes : List (Nat × Json)) : Context :=
  writes.foldl offer context

theorem declared_offer (write : Nat × Json) :
    (context.offer write).declared = context.declared := by
  unfold offer
  split
  · next accepted =>
      obtain ⟨_, _, _, rfl⟩ := commit_eq_ok_iff.mp accepted
      rfl
  · rfl

theorem declared_offerAll (writes : List (Nat × Json)) :
    (context.offerAll writes).declared = context.declared := by
  refine List.foldlRecOn (motive := fun later => later.declared = context.declared) writes offer
    rfl fun later same write _ => ?_
  rw [declared_offer, same]

private theorem committed?_offer (outputs : (context.declared.map Step.output).Nodup)
    (write : Nat × Json) :
    (context.offer write).committed? number =
      (context.committed? number).or
        (if number ∈ context.declared.map Step.number ∧ number = write.1 then some write.2
          else none) := by
  unfold offer
  split
  · next later accepted =>
      have changes := extends_of_commit outputs accepted
      obtain ⟨known, uncommitted⟩ := accepts_iff.mp ⟨later, accepted⟩
      by_cases same : number = write.1
      · rw [same, changes.committed, uncommitted, if_pos ⟨known, rfl⟩, Option.none_or]
      · rw [changes.others number same, if_neg fun h => same h.2, Option.or_none]
  · next error refused =>
      split
      · next here =>
          obtain ⟨known, rfl⟩ := here
          cases committed : context.committed? write.1 with
          | some value => rfl
          | none =>
              obtain ⟨later, accepted⟩ := accepts_iff.mpr ⟨known, committed⟩
              rw [refused] at accepted
              cases accepted
      · rw [Option.or_none]

private theorem committed?_offerAll (outputs : (context.declared.map Step.output).Nodup)
    (writes : List (Nat × Json)) :
    (context.offerAll writes).committed? number =
      (context.committed? number).or
        (if number ∈ context.declared.map Step.number then writes.lookup number else none) := by
  induction writes generalizing context with
  | nil => simp [offerAll]
  | cons write rest ih =>
      rw [offerAll, List.foldl_cons, ← offerAll, ih (by rwa [declared_offer]), declared_offer,
        committed?_offer outputs, List.lookup_cons]
      cases context.committed? number with
      | some value => rfl
      | none =>
          by_cases known : number ∈ context.declared.map Step.number
          · by_cases same : number = write.1
            · subst same
              simp only [known, and_self, ↓reduceIte, beq_self_eq_true, Option.none_or,
                Option.some_or]
            · simp only [known, same, and_false, ↓reduceIte, beq_false_of_ne same, Option.none_or]
          · simp only [known, false_and, ↓reduceIte, Option.none_or]

/-- One of the attempts was to commit the value for the step, and was accepted. -/
def Succeeded (start : Context) (writes : List (Nat × Json)) (number : Nat) (value : Json) :
    Prop :=
  ∃ before rest, writes = before ++ (number, value) :: rest ∧
    (start.offerAll before).Accepts number value

section

variable {start : Context} {writes : List (Nat × Json)}

private theorem committed?_of_new (new : start.steps = []) : start.committed? number = none := by
  rw [committed?, new]
  cases start.outputOf? number <;> rfl

theorem committed?_offerAll_of_new (outputs : (start.declared.map Step.output).Nodup)
    (new : start.steps = []) :
    (start.offerAll writes).committed? number =
      if number ∈ start.declared.map Step.number then writes.lookup number else none := by
  rw [committed?_offerAll outputs, committed?_of_new new, Option.none_or]

theorem accepts_offerAll_iff :
    (start.offerAll writes).Accepts number value ↔
      number ∈ start.declared.map Step.number ∧
        (start.offerAll writes).committed? number = none := by
  rw [accepts_iff, declared_offerAll]

theorem outputOf?_offerAll : (start.offerAll writes).outputOf? number = start.outputOf? number := by
  rw [outputOf?, declared_offerAll]
  rfl

theorem lookup_filter_key (number : Nat) (writes : List (Nat × Json)) :
    (writes.filter (·.1 == number)).lookup number = writes.lookup number := by
  induction writes with
  | nil => rfl
  | cons write rest ih =>
      by_cases same : write.1 = number
      · rw [List.filter_cons_of_pos (by simpa using same), List.lookup_cons, List.lookup_cons, ih]
      · rw [List.filter_cons_of_neg (by simpa using same), List.lookup_cons, ih,
          beq_false_of_ne (Ne.symm same)]

private theorem succeeded_iff (outputs : (start.declared.map Step.output).Nodup)
    (new : start.steps = []) :
    Succeeded start writes number value ↔
      (start.offerAll writes).committed? number = some value := by
  simp only [Succeeded, accepts_offerAll_iff, committed?_offerAll_of_new outputs new]
  by_cases known : number ∈ start.declared.map Step.number
  · simp only [known, true_and, ↓reduceIte, List.lookup_eq_some_iff, List.lookup_eq_none_iff]
  · simp [known]

end

/-- What holds after any attempts to commit, whether accepted or refused. -/
structure IsWriteOnce (start : Context) (writes : List (Nat × Json)) : Prop where
  accepts : ∀ number value, (start.offerAll writes).Accepts number value ↔
    number ∈ start.declared.map Step.number ∧
      ∀ earlier, ¬Succeeded start writes number earlier
  refused : ∀ number value, ¬(start.offerAll writes).Accepts number value →
    start.offerAll (writes ++ [(number, value)]) = start.offerAll writes
  accepted : ∀ number value later, (start.offerAll writes).commit number value = .ok later →
    start.offerAll (writes ++ [(number, value)]) = later ∧
      (start.offerAll writes).Extends number value later
  reads : ∀ number path value, (start.offerAll writes).scope ⟨.step number, path⟩ = some value ↔
    ∃ step ∈ start.declared, ∃ rest whole, step.number = number ∧ path = step.output :: rest ∧
      Succeeded start writes number whole ∧ Json.lookup rest whole = some value
  isolated : ∀ number path, (start.offerAll writes).scope ⟨.step number, path⟩ =
    (start.offerAll (writes.filter (·.1 == number))).scope ⟨.step number, path⟩
  unassessed : ∀ path, (start.offerAll writes).scope ⟨.assessment, path⟩ = none
  assessed : ∀ assessment target, (start.offerAll writes).assessedScope assessment target =
    if target.source = .assessment then assessment.bind (Json.lookup target.path)
    else (start.offerAll writes).scope target

/-- In the context of a run each step is committed at most once, by the first attempt for it, and
a reference to the step reads that value and no other. -/
theorem commits_are_write_once {start : Context}
    (numbers : (start.declared.map Step.number).Nodup)
    (outputs : (start.declared.map Step.output).Nodup) (new : start.steps = [])
    (writes : List (Nat × Json)) : IsWriteOnce start writes where
  accepts number value := by
    rw [accepts_offerAll_iff, Option.eq_none_iff_forall_ne_some]
    simp only [succeeded_iff outputs new]
  refused number value refused := by
    rw [offerAll, List.foldl_append]
    change offer (start.offerAll writes) (number, value) = _
    unfold offer
    split
    · next later accepted => exact absurd ⟨later, accepted⟩ refused
    · rfl
  accepted number value later accepted := by
    refine ⟨?_, extends_of_commit (by rwa [declared_offerAll]) accepted⟩
    rw [offerAll, List.foldl_append]
    change offer (start.offerAll writes) (number, value) = _
    simp only [offer, accepted]
  reads number path value := by
    rw [scope_step rfl, outputOf?_offerAll]
    simp only [succeeded_iff outputs new]
    constructor
    · intro h
      split at h
      · next same =>
          obtain ⟨whole, committed, found⟩ := Option.bind_eq_some_iff.mp h
          obtain ⟨output, known, _⟩ := Option.bind_eq_some_iff.mp committed
          rw [outputOf?_offerAll] at known
          rw [known] at same
          obtain ⟨step, member, rfl, rfl⟩ := (Structure.outputOf?_eq_some_iff numbers).mp known
          cases path with
          | nil => cases same
          | cons first rest =>
              cases same
              exact ⟨step, member, rest, whole, rfl, rfl, committed, found⟩
      · cases h
    · rintro ⟨step, member, rest, whole, rfl, rfl, committed, found⟩
      have known : start.outputOf? step.number = some step.output :=
        (Structure.outputOf?_eq_some_iff numbers).mpr ⟨step, member, rfl, rfl⟩
      rw [known, List.head?_cons, if_pos rfl, committed]
      exact found
  isolated number path := by
    rw [scope_step rfl, scope_step rfl, outputOf?_offerAll, outputOf?_offerAll,
      committed?_offerAll_of_new outputs new, committed?_offerAll_of_new outputs new,
      lookup_filter_key]
  unassessed path := rfl
  assessed assessment target := by
    unfold assessedScope
    cases target.source <;> simp

def ledger : Context where
  input := .object [("amount", Json.ofNat 250)]
  metadata := [("user_id", .string "u-1")]
  declared := [(Step.make 1 "math" "add").withOutput "total",
    (Step.make 2 "math" "add").withOutput "scores"]

def attempts : List (Nat × Json) :=
  [(2, .array [.bool true]), (9, .null), (2, .null), (1, .object [("result", Json.ofNat 7)])]

theorem commits_are_write_once_ledger :
    (ledger.declared.map Step.number).Nodup ∧ (ledger.declared.map Step.output).Nodup ∧
      ledger.steps = [] ∧ IsWriteOnce ledger attempts := by
  have numbers : (ledger.declared.map Step.number).Nodup := by decide
  have outputs : (ledger.declared.map Step.output).Nodup := by decide +kernel
  exact ⟨numbers, outputs, rfl, commits_are_write_once numbers outputs rfl attempts⟩

example : (ledger.offerAll attempts).scope ⟨.step 2, ["scores", "0"]⟩ = some (.bool true) := by
  rfl

end Tollgate.Context
