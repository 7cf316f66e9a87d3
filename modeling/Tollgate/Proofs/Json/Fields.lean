import Mathlib.Data.List.Induction
import Mathlib.Data.List.Nodup
import Tollgate.Json.Basic

/-!
# Fields of objects

Writing a key changes what is found under that key only, and writes of
different keys commute.  So the object that pairs with distinct keys describe
does not depend on their order.
-/

namespace Tollgate.Json

theorem lookup_insert_self (key : String) (value : Json) (fields : List (String × Json)) :
    (insert key value fields).lookup key = some value := by
  induction fields with
  | nil => simp [insert]
  | cons field rest ih =>
      obtain ⟨k, v⟩ := field
      unfold insert
      split
      · simp
      · split
        · simp
        · next other =>
            rw [List.lookup_cons, beq_false_of_ne other]
            exact ih

theorem lookup_insert_of_ne {key other : String} (ne : other ≠ key) (value : Json)
    (fields : List (String × Json)) :
    (insert key value fields).lookup other = fields.lookup other := by
  induction fields with
  | nil => simp [insert, List.lookup_cons, beq_false_of_ne ne]
  | cons field rest ih =>
      obtain ⟨k, v⟩ := field
      unfold insert
      split
      · rw [List.lookup_cons, beq_false_of_ne ne]
      · split
        · next same =>
            rw [List.lookup_cons, List.lookup_cons, ← same, beq_false_of_ne ne]
        · rw [List.lookup_cons, List.lookup_cons, ih]

theorem insert_perm {key : String} {fields : List (String × Json)}
    (new : key ∉ fields.map Prod.fst) (value : Json) :
    (insert key value fields).Perm ((key, value) :: fields) := by
  induction fields with
  | nil => exact .refl _
  | cons field rest ih =>
      obtain ⟨k, v⟩ := field
      rw [List.map_cons, List.mem_cons, not_or] at new
      unfold insert
      split
      · exact .refl _
      · rw [if_neg new.1]
        exact ((ih new.2).cons (k, v)).trans (.swap _ _ _)

private theorem insert_comm_of_lt {j k : String} (lt : j < k) (u v : Json)
    (fields : List (String × Json)) :
    insert j u (insert k v fields) = insert k v (insert j u fields) := by
  have not_lt : ¬k < j := String.lt_asymm lt
  have ne : ¬k = j := fun same => String.lt_irrefl j (same ▸ lt)
  induction fields with
  | nil => simp [insert, lt, not_lt, ne]
  | cons field rest ih =>
      obtain ⟨key, value⟩ := field
      by_cases below : key < j
      · have below' : key < k := String.lt_trans below lt
        have skip : ¬j < key ∧ ¬j = key :=
          ⟨String.lt_asymm below, fun same => String.lt_irrefl j (same ▸ below)⟩
        have skip' : ¬k < key ∧ ¬k = key :=
          ⟨String.lt_asymm below', fun same => String.lt_irrefl k (same ▸ below')⟩
        simp [insert, skip, skip', ih]
      · by_cases same : j = key
        · subst same
          simp [insert, not_lt, ne]
        · have above : j < key :=
            Decidable.byContradiction fun le =>
              same (String.le_antisymm (String.not_lt.mp below) (String.not_lt.mp le))
          by_cases first : k < key
          · simp [insert, first, lt, not_lt, ne, above]
          · by_cases equal : k = key
            · subst equal
              simp [insert, lt, not_lt, ne]
            · simp [insert, first, equal, above, not_lt, ne]

theorem insert_comm {j k : String} (ne : j ≠ k) (u v : Json) (fields : List (String × Json)) :
    insert j u (insert k v fields) = insert k v (insert j u fields) := by
  by_cases lt : j < k
  · exact insert_comm_of_lt lt u v fields
  · have gt : k < j :=
      Decidable.byContradiction fun le =>
        ne (String.le_antisymm (String.not_lt.mp le) (String.not_lt.mp lt))
    exact (insert_comm_of_lt gt v u fields).symm

theorem ofPairs_append_singleton (pairs : List (String × Json)) (pair : String × Json) :
    ofPairs (pairs ++ [pair]) = insert pair.1 pair.2 (ofPairs pairs) := by
  simp [ofPairs]

theorem lookup_ofPairs_of_not_mem {pairs : List (String × Json)} {key : String}
    (h : key ∉ pairs.map Prod.fst) : (ofPairs pairs).lookup key = none := by
  induction pairs using List.reverseRecOn with
  | nil => rfl
  | append_singleton pairs pair ih =>
      simp only [List.map_append, List.map_cons, List.map_nil, List.mem_append,
        List.mem_singleton, not_or] at h
      rw [ofPairs_append_singleton, lookup_insert_of_ne h.2]
      exact ih h.1

theorem lookup_ofPairs {pairs : List (String × Json)} (distinct : (pairs.map Prod.fst).Nodup)
    {key : String} {value : Json} :
    (ofPairs pairs).lookup key = some value ↔ (key, value) ∈ pairs := by
  induction pairs using List.reverseRecOn with
  | nil => simp [ofPairs]
  | append_singleton pairs pair ih =>
      rw [List.map_append, List.map_singleton, List.nodup_append] at distinct
      obtain ⟨before, _, apart⟩ := distinct
      rw [ofPairs_append_singleton, List.mem_append, List.mem_singleton]
      by_cases same : key = pair.1
      · subst same
        have new : (pair.1, value) ∉ pairs := fun member =>
          apart pair.1 (List.mem_map.mpr ⟨_, member, rfl⟩) pair.1 List.mem_cons_self rfl
        rw [lookup_insert_self]
        simp [new, Prod.ext_iff, eq_comm]
      · have other : (key, value) ≠ pair := fun equal => same (congrArg Prod.fst equal)
        rw [lookup_insert_of_ne same, ih before]
        simp [other]

theorem perm_ofPairs {pairs : List (String × Json)} (distinct : (pairs.map Prod.fst).Nodup) :
    (ofPairs pairs).Perm pairs := by
  induction pairs using List.reverseRecOn with
  | nil => exact .refl _
  | append_singleton pairs pair ih =>
      rw [List.map_append, List.map_singleton, List.nodup_append] at distinct
      obtain ⟨before, _, apart⟩ := distinct
      have same := ih before
      have new : pair.1 ∉ (ofPairs pairs).map Prod.fst := fun member =>
        apart pair.1 ((same.map Prod.fst).mem_iff.mp member) pair.1 List.mem_cons_self rfl
      rw [ofPairs_append_singleton]
      exact (insert_perm new pair.2).trans
        ((same.cons pair).trans (List.perm_append_singleton pair pairs).symm)

theorem ofPairs_perm {pairs others : List (String × Json)} (h : pairs.Perm others)
    (distinct : (pairs.map Prod.fst).Nodup) : ofPairs pairs = ofPairs others := by
  refine h.foldl_eq' (fun pair member other present fields => ?_) []
  by_cases same : pair.1 = other.1
  · rw [List.inj_on_of_nodup_map distinct member present same]
  · exact insert_comm (Ne.symm same) other.2 pair.2 fields

end Tollgate.Json
