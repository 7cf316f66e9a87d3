import Tollgate.Definition.Document
import Tollgate.Proofs.Json.Fields

/-!
# Reading back what was written

A record is written as its fields that have a value, and each field is found
again under its own name.  Every kind of field reads back what is written for
it, as long as it fits the word that it is read into.
-/

namespace Tollgate

namespace Json

private theorem insert_of_lt {key : String} {fields : List (String × Json)}
    (above : ∀ k ∈ fields.map Prod.fst, k < key) (value : Json) :
    insert key value fields = fields ++ [(key, value)] := by
  induction fields with
  | nil => rfl
  | cons field rest ih =>
      obtain ⟨k, v⟩ := field
      have lower : k < key := above k List.mem_cons_self
      have other : key ≠ k := fun same => String.lt_irrefl k (same ▸ lower)
      rw [insert, if_neg (String.lt_asymm lower), if_neg other, List.cons_append,
        ih fun k member => above k (List.mem_cons_of_mem _ member)]

theorem ofPairs_of_ascending {pairs : List (String × Json)}
    (h : (pairs.map Prod.fst).Pairwise (· < ·)) : ofPairs pairs = pairs := by
  induction pairs using List.reverseRecOn with
  | nil => rfl
  | append_singleton pairs pair ih =>
      rw [List.map_append, List.map_singleton, List.pairwise_append] at h
      obtain ⟨ordered, _, above⟩ := h
      rw [ofPairs_append_singleton, ih ordered]
      exact insert_of_lt (fun k member => above k member pair.1 List.mem_cons_self) pair.2

def present (fields : List (String × Option Json)) : List (String × Json) :=
  fields.flatMap fun (name, value) => optionalField name value

theorem present_cons (name : String) (value : Option Json)
    (rest : List (String × Option Json)) :
    present ((name, value) :: rest) = optionalField name value ++ present rest := rfl

theorem sublist_present (fields : List (String × Option Json)) :
    ((present fields).map Prod.fst).Sublist (fields.map Prod.fst) := by
  induction fields with
  | nil => exact .refl _
  | cons field rest ih =>
      obtain ⟨name, value⟩ := field
      rw [present_cons, List.map_append, List.map_cons]
      cases value with
      | none => exact ih.cons name
      | some doc => exact ih.cons_cons name

theorem lookup_present {fields : List (String × Option Json)}
    (distinct : (fields.map Prod.fst).Nodup) {name : String} {value : Option Json}
    (member : (name, value) ∈ fields) : (present fields).lookup name = value := by
  induction fields with
  | nil => cases member
  | cons field rest ih =>
      obtain ⟨first, written⟩ := field
      rw [List.map_cons, List.nodup_cons] at distinct
      obtain ⟨new, distinct⟩ := distinct
      rw [present_cons, List.lookup_append]
      rcases List.mem_cons.mp member with here | later
      · obtain ⟨rfl, rfl⟩ := Prod.mk.inj here
        cases value with
        | some doc => simp [optionalField]
        | none =>
            have absent : (present rest).lookup name = none := by
              rw [List.lookup_eq_none_iff]
              intro pair listed
              rw [bne_iff_ne]
              rintro rfl
              exact new ((sublist_present rest).subset (List.mem_map_of_mem listed))
            simpa [optionalField] using absent
      · have other : name ≠ first := by
          rintro rfl
          exact new (List.mem_map.mpr ⟨_, later, rfl⟩)
        have elsewhere : (optionalField first written).lookup name = none := by
          cases written <;> simp [optionalField, List.lookup_cons, beq_false_of_ne other]
        rw [elsewhere, ih distinct later]
        rfl

end Json

theorem Read.ok_bind {β γ : Type} (b : β) (next : β → Read γ) :
    ((.ok b : Read β) >>= next) = next b := rfl

namespace Document

theorem text_string (s : String) : text (Json.string s) = .ok s := rfl

theorem bool_bool (b : Bool) : bool (Json.bool b) = .ok b := rfl

theorem ofNat_eq {n : Nat} (wide : n < Bound.longWord) :
    ∃ range, Json.ofNat n = .number (.integer n range) := by
  have range : -0x8000000000000000 ≤ (n : Int) ∧ (n : Int) < 0x10000000000000000 := by
    unfold Bound.longWord at wide
    omega
  exact ⟨range, by simp [Json.ofNat, Json.ofInt, Json.Number.ofInt?, range]⟩

theorem natural_ofNat {n bound : Nat} (small : bound ≤ Bound.longWord) (fits : n < bound) :
    (Json.ofNat n).isNull = false ∧ natural bound (Json.ofNat n) = .ok n := by
  obtain ⟨range, written⟩ := ofNat_eq (Nat.lt_of_lt_of_le fits small)
  rw [written]
  refine ⟨rfl, ?_⟩
  have read : natural? (Json.number (.integer n range)) = some n := by
    change (if 0 ≤ (n : Int) then some (n : Int).toNat else none) = some n
    simp
  unfold natural
  rw [read, Option.filter_some, if_pos (by simpa using fits)]
  rfl

theorem float_ofFloat {x : Float} (finite : x.isFinite = true) :
    float (Json.ofFloat x) = .ok x := by
  have written : Json.ofFloat x = .number (.float x finite) := by
    simp [Json.ofFloat, Json.Number.ofFloat?, finite]
  rw [written]
  rfl

theorem named_string {β : Type} {ofName? : String → Option β} {name : String} {b : β}
    (known : ofName? name = some b) : named ofName? (Json.string name) = .ok b := by
  change orMalformed (ofName? name) = _
  rw [known]
  rfl

theorem optional_eq {β : Type} {read : Json → Read β} {doc : Json} {b : β}
    (present : doc.isNull = false) (reads : read doc = .ok b) :
    optional read doc = .ok (some b) := by
  have there : absent? doc = some false := congrArg some present
  unfold optional
  rw [there, reads]
  rfl

theorem list_array {β γ : Type} {read : Json → Read γ} {encode : β → Json} {f : β → γ}
    {items : List β} (each : ∀ item ∈ items, read (encode item) = .ok (f item)) :
    list read (Json.array (items.map encode)) = .ok (items.map f) := by
  change (items.map encode).mapM read = .ok (items.map f)
  induction items with
  | nil => rfl
  | cons item rest ih =>
      rw [List.map_cons, List.mapM_cons, each item List.mem_cons_self,
        ih fun other later => each other (List.mem_cons_of_mem item later)]
      rfl

theorem fields_object {pairs : List (String × Json)}
    (ascending : (pairs.map Prod.fst).Pairwise (· < ·)) :
    fields (Json.object pairs) = .ok pairs := by
  have each : ∀ pairs : List (String × Json),
      pairs.mapM (fun (name, doc) => do return (name, ← value doc)) = (.ok pairs : Read _) := by
    intro pairs
    induction pairs with
    | nil => rfl
    | cons pair rest ih =>
        rw [List.mapM_cons, ih]
        rfl
  have read : fields (Json.object pairs) =
      (pairs.mapM (fun (name, doc) => do return (name, ← value doc)) : Read _).map
        Json.ofPairs := rfl
  rw [read, each]
  exact congrArg Except.ok (Json.ofPairs_of_ascending ascending)

end Document

namespace Record

private theorem of_object {names : List String} {members : List (String × Json)}
    (distinct : (members.map Prod.fst).Nodup) :
    Record.of names (Json.object members) = .ok ⟨false, members⟩ := by
  have once (name : String) : countName name members ≤ 1 := by
    have count := List.nodup_iff_count_le_one.mp distinct name
    rwa [List.count, List.countP_map, List.countP_eq_length_filter] at count
  change (if names.any (fun name => 1 < countName name members) then _ else _) = _
  rw [if_neg]
  simp [once]

def ofFields (fields : List (String × Option Json)) : Record Json := ⟨false, Json.present fields⟩

section Fields

variable {fields : List (String × Option Json)} (distinct : (fields.map Prod.fst).Nodup)
  {β : Type} {name : String}

include distinct

theorem of_present (names : List String) :
    Record.of names (Json.object (Json.present fields)) = .ok (ofFields fields) :=
  of_object ((Json.sublist_present fields).nodup distinct)

theorem field?_present {doc : Json} (member : (name, some doc) ∈ fields) (read : Json → Read β) :
    (ofFields fields).field? name read = (read doc).map some := by
  unfold field? ofFields
  dsimp only
  rw [Json.lookup_present distinct member]

theorem field?_some {doc : Json} {read : Json → Read β} {b : β}
    (member : (name, some doc) ∈ fields) (reads : read doc = .ok b) :
    (ofFields fields).field? name read = .ok (some b) := by
  rw [field?_present distinct member, reads]
  rfl

theorem field?_none (member : (name, none) ∈ fields) (read : Json → Read β) :
    (ofFields fields).field? name read = .ok none := by
  unfold field? ofFields
  dsimp only
  rw [Json.lookup_present distinct member]

theorem field?_optional {value : Option β} (encode : β → Json) {read : Json → Read β}
    (member : (name, value.map encode) ∈ fields)
    (reads : ∀ b, value = some b → (encode b).isNull = false ∧ read (encode b) = .ok b) :
    (ofFields fields).field? name (Document.optional read) = .ok (value.map some) := by
  cases value with
  | none => exact field?_none distinct member _
  | some b =>
      obtain ⟨there, same⟩ := reads b rfl
      exact field?_some distinct member (Document.optional_eq there same)

theorem field?_value {value : Option Json} (member : (name, value) ∈ fields) :
    ∃ kept, (ofFields fields).field? name (Document.optional Document.value) = .ok kept ∧
      kept.getD none = value.filter fun doc => !doc.isNull := by
  cases value with
  | none => exact ⟨none, field?_none distinct member _, rfl⟩
  | some doc =>
      by_cases null : doc.isNull = true
      · have reads : Document.optional Document.value doc = .ok none := by
          cases doc <;> first | rfl | cases null
        exact ⟨some none, field?_some distinct member reads, by simp [Option.filter_some, null]⟩
      · have reads : Document.optional Document.value doc = .ok (some doc) :=
          Document.optional_eq (by simpa using null) rfl
        exact ⟨some (some doc), field?_some distinct member reads,
          by simp [Option.filter_some, null]⟩

end Fields

end Record

end Tollgate
