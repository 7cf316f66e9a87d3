import Tollgate.Proofs.Json.Numeral

/-!
# Reading JSON texts back

A compact text whose numbers are legible is cut into the parts that it was
written from: the pieces of its strings, its numerals, and its items and
members in order.  Strings are decoded to what they were.
-/

namespace Tollgate.Json

namespace Written

private theorem decode_unit {n : Nat} (control : n < 0x20) (rest : List Piece) :
    decode (.unit n :: rest) = (decode rest).map (Char.ofNat n :: ·) := by
  have leading : isLeading n = false := by
    simp only [isLeading, Bool.and_eq_false_iff, decide_eq_false_iff_not]
    omega
  have trailing : isTrailing n = false := by
    simp only [isTrailing, Bool.and_eq_false_iff, decide_eq_false_iff_not]
    omega
  cases rest with
  | nil => simp [decode, leading, trailing]
  | cons piece rest => cases piece <;> simp [decode, leading, trailing]

theorem decode_pieceOf (chars : List Char) : decode (chars.map pieceOf) = some chars := by
  induction chars with
  | nil => rfl
  | cons c chars ih =>
      rw [List.map_cons]
      by_cases plain : c = '\n' ∨ c = '\r' ∨ c = '\t' ∨ c = '\x08' ∨ c = '\x0c' ∨ 0x20 ≤ c.toNat
      · rw [pieceOf, if_pos plain, decode, ih]
        rfl
      · have control : c.toNat < 0x20 := by
          simp only [not_or] at plain
          omega
        rw [pieceOf, if_neg plain, decode_unit control, ih, Char.ofNat_toNat]
        rfl

end Written

def Number.written (n : Number) : Written :=
  match Written.readNumber n.text.toList with
  | some (document, _) => document
  | none => .null

mutual

/-- The document that the text of a value is. -/
def written : Json → Written
  | .null => .null
  | .bool b => .bool b
  | .number n => n.written
  | .string s => .string (s.toList.map Written.pieceOf)
  | .array items => .array (writtenItems items)
  | .object fields => .object (writtenFields fields)

def writtenItems : List Json → List Written
  | [] => []
  | item :: rest => written item :: writtenItems rest

def writtenFields : List (String × Json) → List (List Written.Piece × Written)
  | [] => []
  | (key, value) :: rest => (key.toList.map Written.pieceOf, written value) :: writtenFields rest

end

inductive IsLegible : Json → Prop
  | null : IsLegible .null
  | bool (b : Bool) : IsLegible (.bool b)
  | number {n : Number} : n.IsLegible → IsLegible (.number n)
  | string (s : String) : IsLegible (.string s)
  | array {items : List Json} : (∀ item ∈ items, IsLegible item) → IsLegible (.array items)
  | object {fields : List (String × Json)} :
      (∀ field ∈ fields, IsLegible field.2) → IsLegible (.object fields)

namespace IsLegible

theorem of_number {n : Number} (h : IsLegible (.number n)) : n.IsLegible := by
  cases h with
  | number legible => exact legible

theorem items {items : List Json} (h : IsLegible (.array items)) :
    ∀ item ∈ items, IsLegible item := by
  cases h with
  | array legible => exact legible

theorem fields {fields : List (String × Json)} (h : IsLegible (.object fields)) :
    ∀ field ∈ fields, IsLegible field.2 := by
  cases h with
  | object legible => exact legible

end IsLegible

theorem readNumber_of_isLegible {n : Number} (legible : n.IsLegible) {rest : List Char}
    (closes : Closes rest) :
    Written.readNumber (n.text.toList ++ rest) = some (n.written, rest) := by
  obtain ⟨_, _, read, _⟩ := Number.isLegible_iff.mp legible
  rw [Written.readNumber_append closes, Number.written, read]
  rfl

private theorem chars_ne_nil (value : Json) : chars value ≠ [] := by
  intro none
  have first := lead_chars value []
  rw [none] at first
  cases first

theorem two_le_length_chars (value : Json) : 2 ≤ 2 * (chars value).length := by
  have := List.length_pos_iff.mpr (chars_ne_nil value)
  omega

namespace Written

private theorem skipBlanks_chars (value : Json) (rest : List Char) :
    skipBlanks (chars value ++ rest) = chars value ++ rest := by
  cases shape : chars value ++ rest with
  | nil => rfl
  | cons c after =>
      refine List.dropWhile_cons_of_neg fun blank => leadOf_ne shape.symm ?_
      simp only [isBlankChar, Bool.or_eq_true, beq_iff_eq] at blank
      rcases blank with ((rfl | rfl) | rfl) | rfl <;> decide

theorem readValue_string (fuel : Nat) (text : String) (rest : List Char) :
    readValue (fuel + 1) (quotedChars text ++ rest) =
      some (.string (text.toList.map pieceOf), rest) := by
  have quote : quotedChars text ++ rest = '"' :: (escape text.toList ++ '"' :: rest) := by
    simp [quotedChars]
  have shown (chars : List Char) : skipBlanks ('"' :: chars) = '"' :: chars := rfl
  rw [quote, readValue, shown]
  simp [readString_escape]

theorem readValue_array (fuel : Nat) (item : Json) (rest : List Char) :
    readValue (fuel + 1) ('[' :: (chars item ++ rest)) =
      (readItems fuel (chars item ++ rest)).map fun (items, rest) => (.array items, rest) := by
  have shown (chars : List Char) : skipBlanks ('[' :: chars) = '[' :: chars := rfl
  rw [readValue, shown]
  simp only [skipBlanks_chars]
  split
  · next closed => exact absurd (by decide) (leadOf_ne closed.symm)
  · rfl

def readMore (fuel : Nat) (name : List Piece) (read : Written × List Char) :
    Option (List (List Piece × Written) × List Char) :=
  match skipBlanks read.2 with
  | ',' :: rest =>
      (readMembers fuel rest).map fun (members, rest) => ((name, read.1) :: members, rest)
  | '\x7d' :: rest => some ([(name, read.1)], rest)
  | _ => none

theorem readMember (fuel : Nat) (key : String) (value : Json) (rest : List Char) :
    readMembers (fuel + 1) (quotedChars key ++ ':' :: (chars value ++ rest)) =
      (readValue fuel (chars value ++ rest)).bind (readMore fuel (key.toList.map pieceOf)) := by
  have quote : quotedChars key ++ ':' :: (chars value ++ rest) =
      '"' :: (escape key.toList ++ '"' :: ':' :: (chars value ++ rest)) := by
    simp [quotedChars]
  have shown (chars : List Char) : skipBlanks ('"' :: chars) = '"' :: chars := rfl
  have colon (chars : List Char) : skipBlanks (':' :: chars) = ':' :: chars := rfl
  rw [quote, readMembers, shown]
  simp only [readString_escape, colon]
  cases readValue fuel (chars value ++ rest) <;> rfl

private theorem readValue_object (fuel : Nat) (key : String) (rest : List Char) :
    readValue (fuel + 1) ('\x7b' :: (quotedChars key ++ rest)) =
      (readMembers fuel (quotedChars key ++ rest)).map fun (members, rest) =>
        (.object members, rest) := rfl

end Written

open Written (readValue readItems readMembers)

mutual

theorem readValue_chars : ∀ (value : Json) (fuel : Nat) (rest : List Char), IsLegible value →
    Closes rest → 2 * (chars value).length ≤ fuel →
    readValue fuel (chars value ++ rest) = some (written value, rest)
  | value, 0, rest, _, _, enough => by
      have := two_le_length_chars value
      omega
  | .null, fuel + 1, rest, _, _, _ => rfl
  | .bool true, fuel + 1, rest, _, _, _ => rfl
  | .bool false, fuel + 1, rest, _, _, _ => rfl
  | .number n, fuel + 1, rest, legible, closes, _ => by
      have read := readNumber_of_isLegible legible.of_number closes
      rw [chars, written]
      cases shape : n.text.toList with
      | nil => exact absurd shape n.text_ne_nil
      | cons c text =>
          have numeral := n.inNumeral_text c (shape ▸ List.mem_cons_self)
          rw [shape] at read
          rw [← read]
          exact Written.readValue_numeral numeral fuel (text ++ rest)
  | .string s, fuel + 1, rest, _, _, _ => Written.readValue_string fuel s rest
  | .array [], fuel + 1, rest, _, _, _ => rfl
  | .array (item :: items), fuel + 1, rest, legible, _, enough => by
      have inside := readItems_chars (item :: items) fuel rest legible.items
        (by simp) (by simp only [chars, List.length_cons] at enough; omega)
      rw [chars, List.cons_append, written, itemChars, List.append_assoc, Written.readValue_array]
      rw [itemChars, List.append_assoc] at inside
      rw [inside]
      rfl
  | .object [], fuel + 1, rest, _, _, _ => rfl
  | .object ((key, value) :: fields), fuel + 1, rest, legible, _, enough => by
      have inside := readMembers_chars ((key, value) :: fields) fuel rest
        legible.fields (by simp) (by simp only [chars, List.length_cons] at enough; omega)
      rw [chars, List.cons_append, written, fieldChars, List.append_assoc,
        Written.readValue_object]
      rw [fieldChars, List.append_assoc] at inside
      rw [inside]
      rfl

theorem readItems_chars : ∀ (items : List Json) (fuel : Nat) (rest : List Char),
    (∀ item ∈ items, IsLegible item) → items ≠ [] → 2 * (itemChars items).length ≤ fuel →
    readItems fuel (itemChars items ++ rest) = some (writtenItems items, rest)
  | [], fuel, rest, _, some_item, _ => absurd rfl some_item
  | item :: items, 0, rest, legible, _, enough => by
      have := two_le_length_chars item
      simp only [itemChars, List.length_append] at enough
      omega
  | [item], fuel + 1, rest, legible, _, enough => by
      simp only [itemChars, laterItems, List.length_append, List.length_singleton] at enough
      have first := readValue_chars item fuel _ (legible item List.mem_cons_self)
        (.bracket rest) (by omega)
      rw [itemChars, laterItems, List.append_assoc, List.singleton_append, readItems, first]
      rfl
  | item :: next :: items, fuel + 1, rest, legible, _, enough => by
      have size := two_le_length_chars item
      simp only [itemChars, laterItems, List.length_append, List.length_cons] at enough
      have first := readValue_chars item fuel _ (legible item List.mem_cons_self)
        (.comma (itemChars (next :: items) ++ rest)) (by omega)
      have later := readItems_chars (next :: items) fuel rest
        (fun other later => legible other (List.mem_cons_of_mem item later))
        (by simp) (by simp only [itemChars, List.length_append]; omega)
      rw [itemChars, laterItems, List.append_assoc, List.cons_append]
      rw [itemChars] at first later
      rw [readItems, first, writtenItems]
      change (readItems fuel (chars next ++ laterItems items ++ rest)).map
        (fun (items, rest) => (written item :: items, rest)) = _
      rw [later]
      rfl

theorem readMembers_chars : ∀ (fields : List (String × Json)) (fuel : Nat) (rest : List Char),
    (∀ field ∈ fields, IsLegible field.2) → fields ≠ [] → 2 * (fieldChars fields).length ≤ fuel →
    readMembers fuel (fieldChars fields ++ rest) = some (writtenFields fields, rest)
  | [], fuel, rest, _, some_field, _ => absurd rfl some_field
  | (key, value) :: fields, 0, rest, legible, _, enough => by
      have := two_le_length_chars value
      simp only [fieldChars, List.length_append, List.length_cons] at enough
      omega
  | [(key, value)], fuel + 1, rest, legible, _, enough => by
      simp only [fieldChars, laterFields, List.length_append, List.length_cons] at enough
      have first := readValue_chars value fuel _ (legible _ List.mem_cons_self)
        (.brace rest) (by omega)
      rw [fieldChars, laterFields, List.append_assoc, List.cons_append, List.append_assoc,
        List.singleton_append, Written.readMember, first]
      rfl
  | (key, value) :: (name, next) :: fields, fuel + 1, rest, legible, _, enough => by
      have size := two_le_length_chars value
      simp only [fieldChars, laterFields, List.length_append, List.length_cons] at enough
      have first := readValue_chars value fuel _ (legible _ List.mem_cons_self)
        (.comma (fieldChars ((name, next) :: fields) ++ rest)) (by omega)
      have later := readMembers_chars ((name, next) :: fields) fuel rest
        (fun other later => legible other (List.mem_cons_of_mem _ later)) (by simp)
        (by simp only [fieldChars, List.length_append, List.length_cons]; omega)
      rw [fieldChars, laterFields, List.append_assoc, List.cons_append, List.append_assoc,
        List.cons_append, Written.readMember]
      rw [fieldChars] at first later
      rw [first, writtenFields]
      change (readMembers fuel
        (quotedChars name ++ ':' :: (chars next ++ laterFields fields) ++ rest)).map
        (fun (members, rest) => ((key.toList.map Written.pieceOf, written value) :: members, rest))
          = _
      rw [later]
      rfl

end

theorem parse?_compact {value : Json} (legible : IsLegible value) :
    Written.parse? value.compact = some (written value) := by
  have read := readValue_chars value _ [] legible .nil
    (Nat.le_add_right (2 * (chars value).length) 2)
  rw [List.append_nil] at read
  rw [Written.parse?, toList_compact, read]
  rfl

def IsVisible (chars : List Char) : Prop := ∀ c ∈ chars, 0x20 ≤ c.toNat

instance (chars : List Char) : Decidable (IsVisible chars) := List.decidableBAll _ chars

theorem IsVisible.append {chars more : List Char} (h : IsVisible chars) (hm : IsVisible more) :
    IsVisible (chars ++ more) := fun c member =>
  (List.mem_append.mp member).elim (h c) (hm c)

theorem IsVisible.cons {c : Char} {chars : List Char} (visible : 0x20 ≤ c.toNat)
    (h : IsVisible chars) : IsVisible (c :: chars) :=
  List.forall_mem_cons.mpr ⟨visible, h⟩

private theorem isVisible_of_inNumeral {chars : List Char} (h : InNumeral chars) :
    IsVisible chars := by
  intro c member
  have numeral := h c member
  by_contra control
  have code : c.val.toNat = c.toNat := rfl
  have zero : '0'.val.toNat = 48 := rfl
  simp only [isNumeralChar, Char.isDigit, Bool.or_eq_true, Bool.and_eq_true, decide_eq_true_eq,
    beq_iff_eq, ge_iff_le, UInt32.le_iff_toNat_le, code, zero] at numeral
  rcases numeral with (((digit | rfl) | rfl) | rfl) | rfl
  · omega
  all_goals exact control (by decide)

private theorem isVisible_escapeChar (c : Char) : IsVisible (escapeChar c) := by
  have hex : ∀ n, n < 16 → 0x20 ≤ (hexDigit n).toNat := by decide
  unfold escapeChar
  iterate 7
    split
    · decide
  split
  · next control =>
      have high := hex (c.toNat / 16) (by omega)
      have low := hex (c.toNat % 16) (by omega)
      simp only [IsVisible, List.forall_mem_cons]
      exact ⟨by decide, by decide, by decide, by decide, high, low, List.forall_mem_nil _⟩
  · next plain => exact .cons (Nat.le_of_not_lt plain) (List.forall_mem_nil _)

private theorem isVisible_escape (chars : List Char) : IsVisible (escape chars) := by
  intro c member
  obtain ⟨d, _, inside⟩ := List.mem_flatMap.mp member
  exact isVisible_escapeChar d c inside

theorem isVisible_quotedChars (text : String) : IsVisible (quotedChars text) :=
  .cons (by decide) (.append (isVisible_escape _) (.cons (by decide) (List.forall_mem_nil _)))

mutual

private theorem isVisible_chars : ∀ value : Json, IsVisible (chars value)
  | .null => by unfold chars; decide
  | .bool true => by unfold chars; decide
  | .bool false => by unfold chars; decide
  | .number n => isVisible_of_inNumeral n.inNumeral_text
  | .string s => isVisible_quotedChars s
  | .array [] => by unfold chars itemChars; decide
  | .array (item :: items) =>
      .cons (by decide) (.append (isVisible_chars item) (isVisible_laterItems items))
  | .object [] => by unfold chars fieldChars; decide
  | .object ((key, value) :: fields) =>
      .cons (by decide) (.append (isVisible_quotedChars key) (.cons (by decide)
        (.append (isVisible_chars value) (isVisible_laterFields fields))))

theorem isVisible_laterItems : ∀ items : List Json, IsVisible (laterItems items)
  | [] => by unfold laterItems; decide
  | item :: items =>
      .cons (by decide) (.append (isVisible_chars item) (isVisible_laterItems items))

theorem isVisible_laterFields : ∀ fields : List (String × Json), IsVisible (laterFields fields)
  | [] => by unfold laterFields; decide
  | (key, value) :: fields =>
      .cons (by decide) (.append (isVisible_quotedChars key) (.cons (by decide)
        (.append (isVisible_chars value) (isVisible_laterFields fields))))

end

theorem isVisible_compact (value : Json) : IsVisible value.compact.toList := by
  rw [toList_compact]
  exact isVisible_chars value

end Tollgate.Json
