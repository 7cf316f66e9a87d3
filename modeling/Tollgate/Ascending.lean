/-!
# Ascending lists

A finite set is kept as the ascending list of its members.
-/

namespace Tollgate.Ascending

variable {α : Type} [LT α] [DecidableLT α] [DecidableEq α]

def insert (a : α) : List α → List α
  | [] => [a]
  | b :: rest =>
      if a < b then a :: b :: rest
      else if a = b then b :: rest
      else b :: insert a rest

def ofList (members : List α) : List α :=
  members.foldr insert []

theorem mem_insert {a b : α} {members : List α} :
    b ∈ insert a members ↔ b = a ∨ b ∈ members := by
  induction members with
  | nil => simp [insert]
  | cons c rest ih =>
      unfold insert
      split
      · simp
      · split
        · next h => subst h; simp
        · simp only [List.mem_cons, ih]
          constructor
          · rintro (h | h | h) <;> simp [h]
          · rintro (h | h | h) <;> simp [h]

theorem mem_ofList {a : α} {members : List α} : a ∈ ofList members ↔ a ∈ members := by
  induction members with
  | nil => simp [ofList]
  | cons b rest ih => simpa [ofList, mem_insert] using or_congr_right ih

theorem pairwise_insert {a : Nat} {members : List Nat} (h : members.Pairwise (· < ·)) :
    (insert a members).Pairwise (· < ·) := by
  induction members with
  | nil => simp [insert]
  | cons b rest ih =>
      obtain ⟨above, ordered⟩ := List.pairwise_cons.mp h
      unfold insert
      split
      · next lt =>
          refine List.pairwise_cons.mpr ⟨fun c member => ?_, h⟩
          rcases List.mem_cons.mp member with rfl | later
          · exact lt
          · exact Nat.lt_trans lt (above c later)
      · split
        · exact h
        · next not_lt ne =>
            refine List.pairwise_cons.mpr ⟨fun c member => ?_, ih ordered⟩
            rcases mem_insert.mp member with rfl | later
            · omega
            · exact above c later

theorem pairwise_ofList (members : List Nat) : (ofList members).Pairwise (· < ·) := by
  induction members with
  | nil => exact .nil
  | cons a rest ih => exact pairwise_insert ih

theorem nodup_ofList (members : List Nat) : (ofList members).Nodup :=
  (pairwise_ofList members).imp Nat.ne_of_lt

theorem ofList_perm {members : List Nat} (h : members.Nodup) : (ofList members).Perm members :=
  (List.perm_ext_iff_of_nodup (nodup_ofList members) h).mpr fun _ => mem_ofList

end Tollgate.Ascending
