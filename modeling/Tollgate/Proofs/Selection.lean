import Mathlib.Order.Bounds.Basic
import Mathlib.Data.List.Nodup

/-!
# Selecting from lists

The member with a given key, the value that belongs to a key, and the first of
the members that rank highest.
-/

namespace Tollgate

theorem find?_key {α β : Type} [BEq β] [LawfulBEq β] {key : α → β} {members : List α}
    (distinct : (members.map key).Nodup) {a : α} (ha : a ∈ members) :
    members.find? (fun b => key b == key a) = some a := by
  induction members with
  | nil => cases ha
  | cons b rest ih =>
      rw [List.map_cons, List.nodup_cons] at distinct
      rcases List.mem_cons.mp ha with rfl | later
      · simp
      · have other : key b ≠ key a := fun same => distinct.1 (same ▸ List.mem_map_of_mem later)
        rw [List.find?_cons_of_neg (by simpa using other)]
        exact ih distinct.2 later

theorem lookup_map {β : Type} (f : Nat → β) {members : List Nat} {n : Nat} (h : n ∈ members) :
    (members.map fun m => (m, f m)).lookup n = some (f n) := by
  induction members with
  | nil => cases h
  | cons m rest ih =>
      by_cases same : n = m
      · subst same
        simp
      · rw [List.map_cons, List.lookup_cons, beq_false_of_ne same]
        exact ih ((List.mem_cons.mp h).resolve_left same)

section Best

variable {α β : Type} [LinearOrder β] (rank : α → β) (pick : α → α → α)
  (picks : ∀ a b, pick a b = if rank a < rank b then b else a)

include picks

/-- Going through a list with the best member so far, which gives way only to a higher rank,
ends with the first member that none ranks above. -/
theorem foldl_first_best (first : α) (rest : List α) :
    ∃ before after, first :: rest = before ++ rest.foldl pick first :: after ∧
      (∀ a ∈ before, rank a < rank (rest.foldl pick first)) ∧
      ∀ a ∈ after, rank a ≤ rank (rest.foldl pick first) := by
  induction rest generalizing first with
  | nil => exact ⟨[], [], by simp⟩
  | cons next rest ih =>
      rw [List.foldl_cons, picks]
      by_cases higher : rank first < rank next
      · rw [if_pos higher]
        obtain ⟨before, after, split, below, rest_le⟩ := ih next
        have next_le : rank next ≤ rank (rest.foldl pick next) := by
          have member : next ∈ before ++ rest.foldl pick next :: after := by simp [← split]
          rcases List.mem_append.mp member with earlier | later
          · exact (below next earlier).le
          · rcases List.mem_cons.mp later with same | later
            · exact le_of_eq (congrArg rank same)
            · exact rest_le next later
        refine ⟨first :: before, after, by rw [split, List.cons_append], ?_, rest_le⟩
        exact List.forall_mem_cons.mpr ⟨higher.trans_le next_le, below⟩
      · rw [if_neg higher]
        have next_le := not_lt.mp higher
        obtain ⟨before, after, split, below, rest_le⟩ := ih first
        cases before with
        | nil =>
            obtain ⟨same, rfl⟩ := List.cons.inj split
            refine ⟨[], next :: rest, by rw [← same, List.nil_append], by simp, ?_⟩
            rw [← same] at rest_le ⊢
            exact List.forall_mem_cons.mpr ⟨next_le, rest_le⟩
        | cons a before =>
            obtain ⟨rfl, later⟩ := List.cons.inj split
            obtain ⟨below_first, below_rest⟩ := List.forall_mem_cons.mp below
            refine ⟨first :: next :: before, after, ?_, ?_, rest_le⟩
            · exact congrArg (first :: next :: ·) later
            · exact List.forall_mem_cons.mpr
                ⟨below_first, List.forall_mem_cons.mpr ⟨next_le.trans_lt below_first, below_rest⟩⟩

theorem foldl_best (first : α) (rest : List α) :
    rest.foldl pick first ∈ first :: rest ∧
      ∀ a ∈ first :: rest, rank a ≤ rank (rest.foldl pick first) := by
  obtain ⟨before, after, split, below, rest_le⟩ := foldl_first_best rank pick picks first rest
  rw [split]
  refine ⟨by simp, fun a member => ?_⟩
  rcases List.mem_append.mp member with earlier | later
  · exact (below a earlier).le
  · exact (List.mem_cons.mp later).elim (fun same => le_of_eq (congrArg rank same)) (rest_le a)

end Best

end Tollgate
