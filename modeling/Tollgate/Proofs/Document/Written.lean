import Tollgate.Document.OfJson
import Tollgate.Proofs.Document.Record
import Tollgate.Proofs.Json.Reading

/-!
# Documents as they are written

The document that is cut out of the text of a value is read like the value
itself: every kind of field finds in it what it finds in the value, and every
record has the same fields.
-/

namespace Tollgate

namespace Json

theorem writtenItems_eq (items : List Json) : writtenItems items = items.map written := by
  induction items with
  | nil => rfl
  | cons item rest ih => rw [writtenItems, ih, List.map_cons]

theorem writtenFields_eq (fields : List (String × Json)) :
    writtenFields fields =
      fields.map fun (key, value) => (key.toList.map Written.pieceOf, written value) := by
  induction fields with
  | nil => rfl
  | cons field rest ih => rw [writtenFields, ih, List.map_cons]

namespace Written

theorem text?_pieceOf (text : String) : text? (text.toList.map pieceOf) = some text := by
  rw [text?, decode_pieceOf, Option.map_some, String.ofList_toList]

theorem exists_number {n : Number} (legible : n.IsLegible) :
    ∃ negative numeral, n.written = .number negative numeral ∧
      Number.ofNumeral? negative numeral = some n := by
  obtain ⟨negative, numeral, read, stands⟩ := Number.isLegible_iff.mp legible
  exact ⟨negative, numeral, by rw [Number.written, read], stands⟩

theorem bind_scalar?_written {β : Type} {value : Json} (legible : IsLegible value)
    (view : Json → Option β) (array : ∀ items, view (.array items) = none)
    (object : ∀ fields, view (.object fields) = none) :
    (scalar? (written value)).bind view = view value := by
  cases value with
  | null => rfl
  | bool b => rfl
  | number n =>
      obtain ⟨_, _, number, stands⟩ := exists_number legible.of_number
      simp [written, number, scalar?, valueWithin?, stands]
  | string s => simp [written, scalar?, valueWithin?, text?_pieceOf]
  | array items => exact (array items).symm
  | object fields => exact (object fields).symm

theorem absent?_written {value : Json} (legible : IsLegible value) :
    Document.absent? (written value) = Document.absent? value := by
  cases value with
  | number n =>
      obtain ⟨_, _, number, _⟩ := exists_number legible.of_number
      rw [written, number]
      rfl
  | _ => rfl

theorem items?_written {value : Json} (legible : IsLegible value) :
    Written.items? (written value) = value.items?.map (List.map written) := by
  cases value with
  | number n =>
      obtain ⟨_, _, number, _⟩ := exists_number legible.of_number
      rw [written, number]
      rfl
  | array items => rw [written, writtenItems_eq]; rfl
  | _ => rfl

def fieldsOf (fields : List (String × Json)) : List (String × Written) :=
  fields.map fun (key, value) => (key, written value)

private theorem mapM_text? (fields : List (String × Json)) :
    fields.mapM ((fun (name, content) => do return (← text? name, content)) ∘
      fun (key, value) => (key.toList.map pieceOf, written value)) = some (fieldsOf fields) := by
  induction fields with
  | nil => rfl
  | cons field rest ih =>
      rw [List.mapM_cons, ih]
      simp [text?_pieceOf, fieldsOf]

theorem namedMembers?_written {value : Json} (legible : IsLegible value) :
    namedMembers? (written value) = value.members?.map fieldsOf := by
  cases value with
  | number n =>
      obtain ⟨_, _, number, _⟩ := exists_number legible.of_number
      rw [written, number]
      rfl
  | object fields =>
      rw [written, writtenFields_eq, namedMembers?, members?, Option.map_some, List.mapM_map]
      exact mapM_text? fields
  | _ => rfl

theorem alternative?_written {value : Json} (legible : IsLegible value) :
    alternative? (written value) =
      value.variant?.map fun (name, content) => (name, content.map written) := by
  cases value with
  | number n =>
      obtain ⟨_, _, number, _⟩ := exists_number legible.of_number
      rw [written, number]
      rfl
  | string s => simp [written, alternative?, variant?, text?_pieceOf]
  | object fields =>
      match fields with
      | [] => rfl
      | [(name, content)] =>
          simp [written, writtenFields, alternative?, variant?, text?_pieceOf]
      | _ :: _ :: _ => rfl
  | _ => rfl

end Written

end Json

namespace Document

open Json (Written IsLegible written)

/-- The document of a legible value is read as the value is. -/
def Alike {β : Type} (read : Written → Read β) (read' : Json → Read β) : Prop :=
  ∀ value, IsLegible value → read (written value) = read' value

theorem alike_text : Alike text text := fun _ legible =>
  congrArg orMalformed
    (Written.bind_scalar?_written legible Json.string? (fun _ => rfl) fun _ => rfl)

theorem alike_float : Alike float float := fun _ legible =>
  congrArg orMalformed
    (Written.bind_scalar?_written legible Json.float? (fun _ => rfl) fun _ => rfl)

theorem alike_natural (bound : Nat) : Alike (natural bound) (natural bound) := fun _ legible =>
  congrArg (fun found => orMalformed (Option.filter (fun n => n < bound) found))
    (Written.bind_scalar?_written legible Json.natural? (fun _ => rfl) fun _ => rfl)

theorem alike_named {β : Type} (ofName? : String → Option β) :
    Alike (named ofName?) (named ofName?) := by
  intro value legible
  have variant : variant? (written value) = (variant? value).map
      fun (name, content) => (name, content.map written) := Written.alternative?_written legible
  unfold named
  rw [variant]
  cases shape : Json.variant? value with
  | none =>
      change variant? value = none at shape
      rw [shape]
      rfl
  | some alternative =>
      obtain ⟨name, content⟩ := alternative
      change variant? value = some (name, content) at shape
      rw [shape]
      cases content with
      | none => rfl
      | some content =>
          have inside : IsLegible content := by
            obtain rfl : value = .object [(name, content)] := by
              cases value with
              | object fields =>
                  match fields, shape with
                  | [(_, _)], rfl => rfl
              | _ => cases shape
            exact legible.fields _ List.mem_cons_self
          dsimp only [Option.map_some]
          rw [Written.absent?_written inside]

private theorem mapM_alike {β : Type} {read : Written → Read β} {read' : Json → Read β}
    (h : Alike read read') {items : List Json} (legible : ∀ item ∈ items, IsLegible item) :
    items.mapM (read ∘ written) = items.mapM read' := by
  induction items with
  | nil => rfl
  | cons item rest ih =>
      rw [List.mapM_cons, List.mapM_cons, Function.comp_apply,
        h item (legible item List.mem_cons_self),
        ih fun other later => legible other (List.mem_cons_of_mem item later)]

theorem alike_list {β : Type} {read : Written → Read β} {read' : Json → Read β}
    (h : Alike read read') : Alike (list read) (list read') := by
  intro value legible
  have found : items? (written value) = (items? value).map (List.map written) :=
    Written.items?_written legible
  unfold list
  rw [found]
  cases value with
  | array items =>
      change (items.map written).mapM read = items.mapM read'
      rw [List.mapM_map]
      exact mapM_alike h legible.items
  | _ => rfl

end Document

namespace Record

open Json (Written IsLegible written)

variable {names : List String} {value : Json}

private theorem countName_fieldsOf (name : String) (fields : List (String × Json)) :
    countName name (Written.fieldsOf fields) = countName name fields := by
  simp [countName, Written.fieldsOf, List.filter_map, Function.comp_def]

theorem of_written (legible : IsLegible value) (names : List String) :
    Record.of names (written value) =
      (Record.of names value).map fun record =>
        ⟨record.positional, Written.fieldsOf record.members⟩ := by
  have members : Document.members? (written value) =
      (Document.members? value).map Written.fieldsOf := Written.namedMembers?_written legible
  have row : Document.row? (written value) = (Document.row? value).map (List.map written) :=
    Written.items?_written legible
  unfold Record.of
  rw [members, row]
  cases Document.members? value with
  | some fields =>
      dsimp only [Option.map_some]
      simp only [countName_fieldsOf]
      split <;> rfl
  | none =>
      cases Document.row? value with
      | none => rfl
      | some values =>
          dsimp only [Option.map_some, Option.map_none]
          rw [List.length_map]
          split
          · rfl
          · rw [List.zip_map_right]
            rfl

theorem isLegible_of_of (legible : IsLegible value) {record : Record Json}
    (read : Record.of names value = .ok record) :
    ∀ member ∈ record.members, IsLegible member.2 := by
  cases value with
  | object fields =>
      change (if _ then .error .malformed else .ok ⟨false, fields⟩ : Read (Record Json)) = _ at read
      split at read
      · cases read
      · injection read with same
        subst same
        exact legible.fields
  | array items =>
      change (if _ then .error .malformed else .ok ⟨true, names.zip items⟩ : Read (Record Json)) = _
        at read
      split at read
      · cases read
      · injection read with same
        subst same
        intro member listed
        exact legible.items _ (List.of_mem_zip listed).2
  | _ => cases read

theorem field?_written {β : Type} {record : Record Json}
    (legible : ∀ member ∈ record.members, IsLegible member.2) {read : Written → Read β}
    {read' : Json → Read β} (alike : Document.Alike read read') (name : String) :
    Record.field? ⟨record.positional, Written.fieldsOf record.members⟩ name read =
      record.field? name read' := by
  have found : (Written.fieldsOf record.members).lookup name =
      (record.members.lookup name).map written := by
    unfold Written.fieldsOf
    induction record.members with
    | nil => rfl
    | cons member rest ih =>
        rw [List.map_cons, List.lookup_cons, List.lookup_cons, ih]
        cases name == member.1 <;> rfl
  unfold field?
  dsimp only
  rw [found]
  cases shape : record.members.lookup name with
  | none => rfl
  | some doc =>
      obtain ⟨before, after, split, _⟩ := List.lookup_eq_some_iff.mp shape
      have member : (name, doc) ∈ record.members := by simp [split]
      dsimp only [Option.map_some]
      rw [alike doc (legible _ member)]

end Record

end Tollgate
