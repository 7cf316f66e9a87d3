import Mathlib.Data.List.Basic
import Tollgate.Json.Printer
import Tollgate.Json.Written

/-!
# What a JSON text determines

A compact text determines the value that it was written from, except that of a
number it only determines how it is spelled.  The texts form a prefix code, as
long as what follows a text does not go on with the characters of a numeral.
-/

namespace Tollgate.Json

/-! ## Strings -/

namespace Written

def pieceOf (c : Char) : Piece :=
  if c = '\n' ∨ c = '\r' ∨ c = '\t' ∨ c = '\x08' ∨ c = '\x0c' ∨ 0x20 ≤ c.toNat then .char c
  else .unit c.toNat

theorem pieceOf_injective : Function.Injective pieceOf := by
  intro c d h
  unfold pieceOf at h
  split at h <;> split at h
  · injection h
  · cases h
  · cases h
  · injection h with same
    exact Char.ext (UInt32.toNat_inj.mp same)

private theorem hexValue?_hexDigit : ∀ n, n < 16 → hexValue? (hexDigit n) = some n := by
  decide

private theorem readString_plain {c : Char} (quote : c ≠ '"') (slash : c ≠ '\\')
    (plain : 0x20 ≤ c.toNat) (rest : List Char) :
    readString (c :: rest) =
      (readString rest).map fun (pieces, rest) => (.char c :: pieces, rest) := by
  rw [readString]
  · have shown : ¬(c.toNat < 0x20 ∨ c = '\\') := by
      rintro (below | same)
      · omega
      · exact slash same
    simp only [Bool.or_eq_true, decide_eq_true_eq, beq_iff_eq, if_neg shown]
  · exact quote
  · exact fun _ _ _ _ _ same => absurd same slash
  · exact fun _ _ same => absurd same slash

private theorem readString_escapeChar (c : Char) (rest : List Char) :
    readString (escapeChar c ++ rest) =
      (readString rest).map fun (pieces, rest) => (pieceOf c :: pieces, rest) := by
  unfold escapeChar
  iterate 7
    split
    · next same =>
        subst same
        simp [readString, pieceOf, simpleEscape?]
  split
  · next control =>
      have high := hexValue?_hexDigit (c.toNat / 16) (by omega)
      have low := hexValue?_hexDigit (c.toNat % 16) (by omega)
      have zero : hexValue? '0' = some 0 := by decide
      have value : unit? '0' '0' (hexDigit (c.toNat / 16)) (hexDigit (c.toNat % 16)) =
          some c.toNat := by
        simp only [unit?, zero, high, low, Option.bind_eq_bind, Option.bind_some,
          Option.some.injEq]
        omega
      have piece : pieceOf c = .unit c.toNat := by
        simp_all [pieceOf]
      simp only [List.cons_append, List.nil_append]
      rw [readString, value, piece]
  · next quote slash _ _ _ _ _ plain =>
      have piece : pieceOf c = .char c := by
        simp only [pieceOf, ite_eq_left_iff]
        omega
      rw [piece]
      exact readString_plain quote slash (by omega) rest

theorem readString_escape (chars rest : List Char) :
    readString (escape chars ++ '"' :: rest) = some (chars.map pieceOf, rest) := by
  induction chars with
  | nil => simp [escape, readString]
  | cons c chars ih =>
      have first : escape (c :: chars) = escapeChar c ++ escape chars := by simp [escape]
      rw [first, List.append_assoc, readString_escapeChar, ih]
      rfl

end Written

private theorem escape_prefix {chars others rest after : List Char}
    (h : escape chars ++ '"' :: rest = escape others ++ '"' :: after) :
    chars = others ∧ rest = after := by
  have read := Written.readString_escape chars rest
  rw [h, Written.readString_escape, Option.some.injEq, Prod.mk.injEq] at read
  obtain ⟨pieces, same⟩ := read
  exact ⟨(Written.pieceOf_injective.list_map pieces).symm, same.symm⟩

def quotedChars (text : String) : List Char := '"' :: (escape text.toList ++ ['"'])

theorem quoted_prefix {text other : String} {rest after : List Char}
    (h : quotedChars text ++ rest = quotedChars other ++ after) : text = other ∧ rest = after := by
  simp only [quotedChars, List.cons_append, List.append_assoc, List.nil_append,
    List.cons.injEq, true_and] at h
  obtain ⟨chars, same⟩ := escape_prefix h
  exact ⟨String.toList_inj.mp chars, same⟩

/-! ## Numerals -/

def isNumeralChar (c : Char) : Bool :=
  c.isDigit || c == '-' || c == '+' || c == '.' || c == 'e'

def InNumeral (chars : List Char) : Prop := ∀ c ∈ chars, isNumeralChar c = true

instance (chars : List Char) : Decidable (InNumeral chars) :=
  inferInstanceAs (Decidable (∀ c ∈ chars, isNumeralChar c = true))

theorem InNumeral.append {chars more : List Char} (h : InNumeral chars) (hm : InNumeral more) :
    InNumeral (chars ++ more) := by
  intro c member
  rcases List.mem_append.mp member with first | second
  · exact h c first
  · exact hm c second

private theorem inNumeral_zeros (n : Nat) : InNumeral (List.replicate n '0') := by
  intro c member
  rw [List.eq_of_mem_replicate member]
  decide

private theorem isNumeralChar_of_isDigit {c : Char} (h : c.isDigit = true) :
    isNumeralChar c = true := by
  simp [isNumeralChar, h]

theorem inNumeral_toString (n : Nat) : InNumeral (toString n).toList := by
  intro c member
  rw [Nat.toString_eq_repr, Nat.toList_repr] at member
  exact isNumeralChar_of_isDigit (Nat.isDigit_of_mem_toDigits (by decide) (by decide) member)

theorem toString_ne_nil (n : Nat) : (toString n).toList ≠ [] := by
  rw [Nat.toString_eq_repr, Nat.toList_repr]
  exact Nat.toDigits_ne_nil

theorem inNumeral_positional {digits : String} (h : InNumeral digits.toList) (point : Int) :
    InNumeral (numberLayout.positional digits point).toList := by
  have dot : InNumeral ".".toList := List.all_eq_true.mp (by decide)
  have whole : InNumeral ".0".toList := List.all_eq_true.mp (by decide)
  have start : InNumeral "0.".toList := List.all_eq_true.mp (by decide)
  unfold Decimal.Layout.positional
  dsimp only
  split
  · simp only [String.toList_append, String.toList_ofList]
    exact (start.append (inNumeral_zeros _)).append h
  · split
    · simp only [String.toList_append, String.toList_ofList]
      exact (h.append (inNumeral_zeros _)).append whole
    · simp only [String.toList_append, String.toList_ofList]
      have left : InNumeral (digits.toList.take point.toNat) :=
        fun c member => h c (List.mem_of_mem_take member)
      have right : InNumeral (digits.toList.drop point.toNat) :=
        fun c member => h c (List.mem_of_mem_drop member)
      exact (left.append dot).append right

private theorem inNumeral_withExponent {digits : String} (h : InNumeral digits.toList)
    (exponent : Int) : InNumeral (numberLayout.withExponent digits exponent).toList := by
  have minus : InNumeral "e-".toList := List.all_eq_true.mp (by decide)
  have plus : InNumeral "e+".toList := List.all_eq_true.mp (by decide)
  unfold Decimal.Layout.withExponent
  simp only [String.toList_append]
  refine .append (.append ?_ ?_) (inNumeral_toString _)
  · split
    · simp [InNumeral]
    · next shape =>
        rw [String.toList_ofList, ← shape]
        exact h
    · next d rest _ shape =>
        rw [shape] at h
        rw [String.toList_ofList]
        intro c member
        simp only [List.mem_cons] at member
        rcases member with first | point | later
        · exact h c (List.mem_cons.mpr (.inl first))
        · rw [point]
          decide
        · exact h c (List.mem_cons_of_mem d later)
  · split
    · exact minus
    · exact plus

theorem place_ne_nil (d : Decimal.Scientific) : (numberLayout.place d).toList ≠ [] := by
  unfold Decimal.Layout.place Decimal.Layout.positional Decimal.Layout.withExponent
  dsimp only
  split
  · split
    · simp
    · split <;> simp
  · simp

private theorem inNumeral_place (d : Decimal.Scientific) :
    InNumeral (numberLayout.place d).toList := by
  unfold Decimal.Layout.place
  dsimp only
  split
  · exact inNumeral_positional (inNumeral_toString _) _
  · exact inNumeral_withExponent (inNumeral_toString _) _

private theorem inNumeral_signText (negative : Bool) :
    InNumeral (Decimal.signText negative).toList := by
  cases negative
  · simp [InNumeral, Decimal.signText]
  · exact List.all_eq_true.mp (by decide)

namespace Number

theorem inNumeral_text (n : Number) : InNumeral n.text.toList := by
  cases n with
  | integer value _ =>
      cases value with
      | ofNat n => exact inNumeral_toString n
      | negSucc n =>
          change InNumeral ("-" ++ toString (n + 1)).toList
          rw [String.toList_append]
          exact (inNumeral_signText true).append (inNumeral_toString _)
  | float value finite =>
      change InNumeral (numberLayout.write value).toList
      change value.toModel.unpack.isFinite = true at finite
      unfold Decimal.Layout.write
      cases shape : value.toModel.unpack with
      | notANumber => rw [shape] at finite; cases finite
      | infinity sign => rw [shape] at finite; cases finite
      | zero sign =>
          rw [String.toList_append]
          refine (inNumeral_signText _).append ?_
          change InNumeral "0.0".toList
          exact List.all_eq_true.mp (by decide)
      | finite sign mantissa exponent _ =>
          rw [String.toList_append]
          exact (inNumeral_signText _).append (inNumeral_place _)

theorem text_ne_nil (n : Number) : n.text.toList ≠ [] := by
  cases n with
  | integer value _ =>
      cases value with
      | ofNat n => exact toString_ne_nil n
      | negSucc n =>
          change ("-" ++ toString (n + 1)).toList ≠ []
          simp
  | float value finite =>
      change (numberLayout.write value).toList ≠ []
      change value.toModel.unpack.isFinite = true at finite
      unfold Decimal.Layout.write
      cases shape : value.toModel.unpack with
      | notANumber => rw [shape] at finite; cases finite
      | infinity sign => rw [shape] at finite; cases finite
      | zero sign =>
          rw [String.toList_append]
          exact List.append_ne_nil_of_right_ne_nil _ (by decide)
      | finite sign mantissa exponent _ =>
          rw [String.toList_append]
          exact List.append_ne_nil_of_right_ne_nil _ (place_ne_nil _)

end Number

/-! ## Values -/

/-- What follows a text does not go on with the characters of a numeral. -/
def Ends (rest : List Char) : Prop := ∀ c ∈ rest.head?, isNumeralChar c = false

theorem numeral_prefix {chars others rest after : List Char} (h : InNumeral chars)
    (ho : InNumeral others) (ends : Ends rest) (ends' : Ends after)
    (same : chars ++ rest = others ++ after) : chars = others ∧ rest = after := by
  induction chars generalizing others with
  | nil =>
      cases others with
      | nil => exact ⟨rfl, same⟩
      | cons c others =>
          have no := ends c (by rw [List.nil_append] at same; simp [same])
          rw [ho c List.mem_cons_self] at no
          cases no
  | cons c chars ih =>
      cases others with
      | nil =>
          have no := ends' c (by rw [List.nil_append] at same; simp [← same])
          rw [h c List.mem_cons_self] at no
          cases no
      | cons d others =>
          simp only [List.cons_append, List.cons.injEq] at same
          obtain ⟨first, rfl⟩ := ih (fun c hc => h c (List.mem_cons_of_mem _ hc))
            (fun c hc => ho c (List.mem_cons_of_mem _ hc)) same.2
          exact ⟨by rw [same.1, first], rfl⟩

mutual

def chars : Json → List Char
  | .null => ['n', 'u', 'l', 'l']
  | .bool true => ['t', 'r', 'u', 'e']
  | .bool false => ['f', 'a', 'l', 's', 'e']
  | .number n => n.text.toList
  | .string s => quotedChars s
  | .array items => '[' :: itemChars items
  | .object fields => '\x7b' :: fieldChars fields

def itemChars : List Json → List Char
  | [] => [']']
  | item :: rest => chars item ++ laterItems rest

def fieldChars : List (String × Json) → List Char
  | [] => ['\x7d']
  | (key, value) :: rest => quotedChars key ++ ':' :: (chars value ++ laterFields rest)

def laterItems : List Json → List Char
  | [] => [']']
  | item :: rest => ',' :: (chars item ++ laterItems rest)

def laterFields : List (String × Json) → List Char
  | [] => ['\x7d']
  | (key, value) :: rest =>
      ',' :: (quotedChars key ++ ':' :: (chars value ++ laterFields rest))

end

mutual

/-- A value in which the text of each number stands for the number. -/
def spelled : Json → Json
  | .number n => .object [(n.text, .null)]
  | .array items => .array (spelledItems items)
  | .object fields => .object (spelledFields fields)
  | value => value

def spelledItems : List Json → List Json
  | [] => []
  | item :: rest => spelled item :: spelledItems rest

def spelledFields : List (String × Json) → List (String × Json)
  | [] => []
  | (key, value) :: rest => (key, spelled value) :: spelledFields rest

end

theorem toList_quoted (text : String) : (quoted text).toList = quotedChars text := by
  simp [quoted, quotedChars]

mutual

theorem toList_compact : ∀ value : Json, (compact value).toList = chars value
  | .null => by simp [compact, chars]
  | .bool true => by simp [compact, chars]
  | .bool false => by simp [compact, chars]
  | .number n => by simp [compact, chars]
  | .string s => by simp [compact, chars, toList_quoted]
  | .array items => by
      simp only [compact, chars, String.toList_append, List.append_assoc]
      rw [toList_compactItems items]
      rfl
  | .object fields => by
      simp only [compact, chars, String.toList_append, List.append_assoc]
      rw [toList_compactFields fields]
      rfl

theorem toList_compactItems : ∀ items : List Json,
    (compactItems items).toList ++ "]".toList = itemChars items
  | [] => by simp [compactItems, itemChars]
  | [item] => by simp [compactItems, itemChars, laterItems, toList_compact item]
  | item :: next :: rest => by
      have later := toList_compactItems (next :: rest)
      simp only [compactItems, String.toList_append, List.append_assoc, itemChars,
        laterItems] at later ⊢
      rw [later, toList_compact item]
      rfl

theorem toList_compactFields : ∀ fields : List (String × Json),
    (compactFields fields).toList ++ "\x7d".toList = fieldChars fields
  | [] => by simp [compactFields, fieldChars]
  | [(key, value)] => by
      simp [compactFields, fieldChars, laterFields, toList_compact value, toList_quoted]
  | (key, value) :: next :: rest => by
      have later := toList_compactFields (next :: rest)
      simp only [compactFields, String.toList_append, List.append_assoc, fieldChars,
        laterFields] at later ⊢
      rw [later, toList_compact value, toList_quoted]
      rfl

end

/-! ## The beginning of a text -/

inductive Lead where
  | null
  | bool
  | numeral
  | quote
  | bracket
  | brace
  | other
  deriving DecidableEq

def lead : Json → Lead
  | .null => .null
  | .bool _ => .bool
  | .number _ => .numeral
  | .string _ => .quote
  | .array _ => .bracket
  | .object _ => .brace

def leadOf (c : Char) : Lead :=
  if isNumeralChar c then .numeral
  else if c = 'n' then .null
  else if c = 't' ∨ c = 'f' then .bool
  else if c = '"' then .quote
  else if c = '[' then .bracket
  else if c = '\x7b' then .brace
  else .other

theorem lead_chars (value : Json) (rest : List Char) :
    (chars value ++ rest).head?.map leadOf = some value.lead := by
  cases value with
  | null => rfl
  | bool b => cases b <;> rfl
  | number n =>
      cases shape : n.text.toList with
      | nil => exact absurd shape n.text_ne_nil
      | cons c text =>
          have numeral := n.inNumeral_text c (shape ▸ List.mem_cons_self)
          simp [chars, shape, leadOf, numeral, lead]
  | string s => rfl
  | array items => rfl
  | object fields => rfl

theorem lead_eq {value other : Json} {rest after : List Char}
    (h : chars value ++ rest = chars other ++ after) : other.lead = value.lead := by
  have first := lead_chars value rest
  rw [h, lead_chars, Option.some.injEq] at first
  exact first

section Lead

variable {value : Json}

theorem eq_of_lead_null (h : value.lead = .null) : value = .null := by
  cases value <;> first | rfl | cases h

theorem eq_of_lead_bool (h : value.lead = .bool) : ∃ b, value = .bool b := by
  cases value <;> first | exact ⟨_, rfl⟩ | cases h

theorem eq_of_lead_numeral (h : value.lead = .numeral) : ∃ n, value = .number n := by
  cases value <;> first | exact ⟨_, rfl⟩ | cases h

theorem eq_of_lead_quote (h : value.lead = .quote) : ∃ s, value = .string s := by
  cases value <;> first | exact ⟨_, rfl⟩ | cases h

theorem eq_of_lead_bracket (h : value.lead = .bracket) : ∃ items, value = .array items := by
  cases value <;> first | exact ⟨_, rfl⟩ | cases h

theorem eq_of_lead_brace (h : value.lead = .brace) : ∃ fields, value = .object fields := by
  cases value <;> first | exact ⟨_, rfl⟩ | cases h

end Lead

theorem leadOf_ne {value : Json} {c : Char} {rest after : List Char}
    (h : c :: after = chars value ++ rest) : leadOf c ≠ .other := by
  have first := lead_chars value rest
  rw [← h, List.head?_cons, Option.map_some, Option.some.injEq] at first
  rw [first]
  cases value <;> simp [lead]

/-! ## Unique texts -/

theorem ends_cons {c : Char} (h : isNumeralChar c = false) (rest : List Char) :
    Ends (c :: rest) := by
  intro d first
  obtain rfl : d = c := by simpa [eq_comm] using first
  exact h

theorem ends_laterItems (items : List Json) (rest : List Char) :
    Ends (laterItems items ++ rest) := by
  cases items <;> exact ends_cons (by decide) _

theorem ends_laterFields (fields : List (String × Json)) (rest : List Char) :
    Ends (laterFields fields ++ rest) := by
  cases fields <;> exact ends_cons (by decide) _

private theorem laterItems_eq {items others : List Json} {rest after : List Char}
    (h : itemChars items ++ rest = itemChars others ++ after) :
    laterItems items ++ rest = laterItems others ++ after := by
  cases items with
  | nil =>
      cases others with
      | nil => exact h
      | cons other others =>
          rw [itemChars, itemChars, List.append_assoc] at h
          exact absurd (by decide) (leadOf_ne h)
  | cons item items =>
      cases others with
      | nil =>
          rw [itemChars, itemChars, List.append_assoc] at h
          exact absurd (by decide) (leadOf_ne h.symm)
      | cons other others => exact congrArg (List.cons ',') h

private theorem laterFields_eq {fields others : List (String × Json)} {rest after : List Char}
    (h : fieldChars fields ++ rest = fieldChars others ++ after) :
    laterFields fields ++ rest = laterFields others ++ after := by
  cases fields with
  | nil =>
      cases others with
      | nil => exact h
      | cons other others => simp [fieldChars, quotedChars] at h
  | cons field fields =>
      cases others with
      | nil => simp [fieldChars, quotedChars] at h
      | cons other others => exact congrArg (List.cons ',') h

mutual

theorem spelled_of_chars : ∀ (value other : Json) {rest after : List Char}, Ends rest →
    Ends after → chars value ++ rest = chars other ++ after →
    spelled value = spelled other ∧ rest = after
  | .null, other, rest, after, _, _, h => by
      obtain rfl := eq_of_lead_null (lead_eq h)
      exact ⟨rfl, List.append_cancel_left h⟩
  | .bool b, other, rest, after, _, _, h => by
      obtain ⟨c, rfl⟩ := eq_of_lead_bool (lead_eq h)
      cases b <;> cases c <;> simp [chars] at h <;> exact ⟨rfl, h⟩
  | .number n, other, rest, after, ends, ends', h => by
      obtain ⟨m, rfl⟩ := eq_of_lead_numeral (lead_eq h)
      obtain ⟨text, later⟩ := numeral_prefix n.inNumeral_text m.inNumeral_text ends ends' h
      exact ⟨by rw [spelled, spelled, String.toList_inj.mp text], later⟩
  | .string s, other, rest, after, _, _, h => by
      obtain ⟨t, rfl⟩ := eq_of_lead_quote (lead_eq h)
      obtain ⟨text, later⟩ := quoted_prefix h
      exact ⟨by rw [text], later⟩
  | .array items, other, rest, after, _, _, h => by
      obtain ⟨others, rfl⟩ := eq_of_lead_bracket (lead_eq h)
      simp only [chars, List.cons_append, List.cons.injEq, true_and] at h
      obtain ⟨inside, later⟩ := spelledItems_of_laterItems items others (laterItems_eq h)
      exact ⟨by rw [spelled, spelled, inside], later⟩
  | .object fields, other, rest, after, _, _, h => by
      obtain ⟨others, rfl⟩ := eq_of_lead_brace (lead_eq h)
      simp only [chars, List.cons_append, List.cons.injEq, true_and] at h
      obtain ⟨inside, later⟩ :=
        spelledFields_of_laterFields fields others (laterFields_eq h)
      exact ⟨by rw [spelled, spelled, inside], later⟩

theorem spelledItems_of_laterItems : ∀ (items others : List Json) {rest after : List Char},
    laterItems items ++ rest = laterItems others ++ after →
    spelledItems items = spelledItems others ∧ rest = after
  | [], [], rest, after, h => ⟨rfl, List.append_cancel_left h⟩
  | [], other :: others, rest, after, h => by
      simp [laterItems] at h
  | item :: items, [], rest, after, h => by
      simp [laterItems] at h
  | item :: items, other :: others, rest, after, h => by
      simp only [laterItems, List.cons_append, List.cons.injEq, true_and, List.append_assoc] at h
      obtain ⟨first, later⟩ :=
        spelled_of_chars item other (ends_laterItems items rest) (ends_laterItems others after) h
      obtain ⟨more, same⟩ := spelledItems_of_laterItems items others later
      exact ⟨by rw [spelledItems, spelledItems, first, more], same⟩

theorem spelledFields_of_laterFields : ∀ (fields others : List (String × Json))
    {rest after : List Char}, laterFields fields ++ rest = laterFields others ++ after →
    spelledFields fields = spelledFields others ∧ rest = after
  | [], [], rest, after, h => ⟨rfl, List.append_cancel_left h⟩
  | [], (key, other) :: others, rest, after, h => by
      simp [laterFields] at h
  | (key, value) :: fields, [], rest, after, h => by
      simp [laterFields] at h
  | (key, value) :: fields, (name, other) :: others, rest, after, h => by
      simp only [laterFields, List.cons_append, List.cons.injEq, true_and,
        List.append_assoc] at h
      obtain ⟨rfl, members⟩ := quoted_prefix h
      simp only [List.cons.injEq, true_and] at members
      obtain ⟨first, later⟩ :=
        spelled_of_chars value other (ends_laterFields fields rest)
          (ends_laterFields others after) members
      obtain ⟨more, same⟩ := spelledFields_of_laterFields fields others later
      exact ⟨by rw [spelledFields, spelledFields, first, more], same⟩

end

theorem spelled_eq_of_compact_eq {value other : Json} (h : value.compact = other.compact) :
    spelled value = spelled other := by
  have ends : Ends [] := fun c first => by cases first
  refine (spelled_of_chars value other ends ends ?_).1
  rw [← toList_compact, ← toList_compact, h]

end Tollgate.Json
