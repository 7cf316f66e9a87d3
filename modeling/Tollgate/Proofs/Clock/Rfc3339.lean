import Mathlib.Data.List.TakeWhile
import Tollgate.Clock.Rfc3339
import Tollgate.Proofs.Clock.Calendar
import Tollgate.Proofs.Text.Digits

/-!
# Moments read back

The text of a moment is read as the moment, to the nanosecond, as long as its
year is one that moments are read in and it runs on past a full second only at
the end of a minute.
-/

namespace Tollgate.Moment

open Decimal (padded)

namespace Reading

theorem run_bind {α β : Type} {first : Reading α} {next : α → Reading β} {chars rest : List Char}
    {a : α} (h : first.run chars = some (a, rest)) :
    (first >>= next).run chars = (next a).run rest := by
  rw [StateT.run_bind, h]
  rfl

theorem run_pure {α : Type} (a : α) (chars : List Char) :
    (pure a : Reading α).run chars = some (a, chars) := rfl

theorem run_get (chars : List Char) : (get : Reading (List Char)).run chars = some (chars, chars) :=
  rfl

theorem run_set (chars rest : List Char) : (set rest : Reading Unit).run chars = some ((), rest) :=
  rfl

theorem run_skipBlank {c : Char} (visible : Text.isSpace c = false) (rest : List Char) :
    skipBlank.run (c :: rest) = some ((), c :: rest) := by
  have kept : (c :: rest).dropWhile Text.isSpace = c :: rest :=
    List.dropWhile_cons_of_neg (by simp [visible])
  change some ((), (c :: rest).dropWhile Text.isSpace) = _
  rw [kept]

theorem run_digits {limit : Nat} {found rest : List Char} (digits : ∀ c ∈ found, c.isDigit = true)
    (short : found.length ≤ limit)
    (stops : found.length = limit ∨ ∀ c ∈ rest.head?, c.isDigit = false) :
    (Reading.digits limit).run (found ++ rest) = some (found, rest) := by
  have front : ((found ++ rest).take limit).takeWhile Char.isDigit = found := by
    have ended : ∀ c ∈ (rest.take (limit - found.length)).head?, c.isDigit = false := by
      rcases stops with whole | stops
      · simp [whole]
      · intro c first
        rw [List.head?_take] at first
        split at first
        · cases first
        · exact stops c first
    rw [List.take_append, List.take_of_length_le short,
      (Text.takeWhile_append_of_head ended found).1, List.takeWhile_eq_self_iff.mpr digits]
  change some (((found ++ rest).take limit).takeWhile Char.isDigit,
    (found ++ rest).drop (((found ++ rest).take limit).takeWhile Char.isDigit).length) = _
  rw [front, List.drop_left]

theorem run_number {limit width n : Nat} {rest : List Char}
    (short : (padded width n).length ≤ limit)
    (stops : (padded width n).length = limit ∨ ∀ c ∈ rest.head?, c.isDigit = false) :
    (number limit).run (padded width n ++ rest) = some (n, rest) := by
  rw [number, run_bind (run_digits Decimal.isDigit_of_mem_padded short stops),
    Text.digits?_padded]
  rfl

theorem exists_padded (width n : Nat) :
    ∃ c more, padded width n = c :: more ∧ Text.isSpace c = false ∧ c.isDigit = true := by
  cases shape : padded width n with
  | nil => exact absurd shape (Decimal.padded_ne_nil width n)
  | cons c more =>
      have digit : c.isDigit = true :=
        Decimal.isDigit_of_mem_padded c (shape ▸ List.mem_cons_self)
      exact ⟨c, more, rfl, Text.isSpace_of_isDigit digit, digit⟩

theorem run_part {n : Nat} (fits : n < 100) (rest : List Char) :
    (part 2).run (padded 2 n ++ rest) = some (n, rest) := by
  obtain ⟨c, more, shape, visible, _⟩ := exists_padded 2 n
  have length : (padded 2 n).length = 2 := Decimal.length_padded (by decide) fits
  have skipped : skipBlank.run (padded 2 n ++ rest) = some ((), padded 2 n ++ rest) := by
    rw [shape, List.cons_append]
    exact run_skipBlank visible _
  rw [part, run_bind skipped]
  exact run_number (le_of_eq length) (.inl length)

theorem run_char {p : Char → Bool} {c : Char} (h : p c = true) (rest : List Char) :
    (char p).run (c :: rest) = some (c, rest) := by
  change (if p c = true then (do set rest; return c : Reading Char) else failure).run
    (c :: rest) = _
  rw [if_pos h]
  rfl

theorem run_separator {c : Char} (visible : Text.isSpace c = false) (rest : List Char) :
    (separator c).run (c :: rest) = some ((), rest) := by
  rw [separator, run_bind (run_skipBlank visible rest), run_bind (run_char (by simp) rest)]
  rfl

def yearChars (year : Int) : List Char :=
  if 0 ≤ year ∧ year ≤ 9999 then padded 4 year.toNat
  else (if year < 0 then '-' else '+') :: padded 4 year.natAbs

theorem run_year (year : Int) (rest : List Char) :
    Reading.year.run (yearChars year ++ '-' :: rest) = some (year, '-' :: rest) := by
  have stops : ∀ c ∈ ('-' :: rest).head?, c.isDigit = false := by
    intro c first
    cases first
    rfl
  have signed (n : Nat) : (padded 4 n).length ≤ (padded 4 n ++ '-' :: rest).length := by simp
  unfold yearChars
  split
  · next plain =>
      obtain ⟨c, more, shape, visible, digit⟩ := exists_padded 4 year.toNat
      have length : (padded 4 year.toNat).length = 4 :=
        Decimal.length_padded (by decide) (by omega)
      have read : (number 4).run (padded 4 year.toNat ++ '-' :: rest) =
          some (year.toNat, '-' :: rest) := run_number (le_of_eq length) (.inl length)
      rw [shape, List.cons_append] at read ⊢
      have minus : c ≠ '-' := by
        rintro rfl
        cases digit
      have plus : c ≠ '+' := by
        rintro rfl
        cases digit
      rw [Reading.year, run_bind (run_skipBlank visible _), run_bind (run_get _)]
      split
      · next same => exact absurd (List.cons.inj same).1 minus
      · next same => exact absurd (List.cons.inj same).1 plus
      · have same : Int.ofNat year.toNat = year := Int.toNat_of_nonneg plain.1
        rw [run_bind read, run_pure, same]
  · split
    · next negative =>
        have same : -Int.ofNat year.natAbs = year := by
          rw [Int.ofNat_eq_natCast]
          omega
        rw [List.cons_append, Reading.year, run_bind (run_skipBlank (by decide) _),
          run_bind (run_get _)]
        simp only
        rw [run_bind (run_set _ _), run_bind (run_number (signed _) (.inr stops)), run_pure, same]
    · next positive =>
        have same : Int.ofNat year.natAbs = year := by
          rw [Int.ofNat_eq_natCast]
          omega
        rw [List.cons_append, Reading.year, run_bind (run_skipBlank (by decide) _),
          run_bind (run_get _)]
        simp only
        rw [run_bind (run_set _ _), run_bind (run_number (signed _) (.inr stops)), run_pure, same]

theorem run_date {date : Calendar.Date} (month : date.month < 100) (day : date.day < 100)
    (rest : List Char) :
    Reading.date.run (yearChars date.year ++ '-' :: (padded 2 date.month ++
      '-' :: (padded 2 date.day ++ rest))) = some (date, rest) := by
  rw [Reading.date, run_bind (run_year date.year _), run_bind (run_separator (by decide) _),
    run_bind (run_part month _), run_bind (run_separator (by decide) _),
    run_bind (run_part day _)]
  rfl

def fractionChars (nano : Nat) : List Char :=
  if nano = 0 then []
  else if nano % 1000000 = 0 then '.' :: padded 3 (nano / 1000000)
  else if nano % 1000 = 0 then '.' :: padded 6 (nano / 1000)
  else '.' :: padded 9 nano

private theorem run_fraction_padded {places n : Nat} {rest : List Char} (pos : 0 < places)
    (short : places ≤ 9) (fits : n < 10 ^ places) (stops : ∀ c ∈ rest.head?, c.isDigit = false) :
    fraction.run ('.' :: (padded places n ++ rest)) =
      some (n * Decimal.tenTo (9 - places), rest) := by
  have length := Decimal.length_padded pos fits
  have found : (Reading.digits 9).run (padded places n ++ rest) = some (padded places n, rest) :=
    run_digits Decimal.isDigit_of_mem_padded (by omega) (.inr stops)
  have none_left : (Reading.digits (padded places n ++ rest).length).run rest =
      some ([], rest) := @run_digits _ [] rest (by simp) (by simp) (.inr stops)
  rw [fraction, run_bind (run_get _)]
  simp only
  rw [run_bind (run_set _ _), run_bind found, run_bind none_left, Text.digits?_padded, length,
    run_pure]

private theorem run_fraction {nano : Nat} (fits : nano < 1000000000) {c : Char} (point : c ≠ '.')
    (stops : c.isDigit = false) (rest : List Char) :
    fraction.run (fractionChars nano ++ c :: rest) = some (nano, c :: rest) := by
  have ended : ∀ d ∈ (c :: rest).head?, d.isDigit = false := by
    intro d first
    cases first
    exact stops
  unfold fractionChars
  split
  · next none =>
      rw [List.nil_append, fraction, run_bind (run_get _)]
      split
      · next same => exact absurd (List.cons.inj same).1 point
      · rw [run_pure, none]
  · split
    · next millis =>
        have whole : nano / 1000000 * Decimal.tenTo (9 - 3) = nano := by
          change nano / 1000000 * 1000000 = nano
          omega
        rw [List.cons_append, run_fraction_padded (by decide) (by decide) (by omega) ended, whole]
    · split
      · next micros =>
          have whole : nano / 1000 * Decimal.tenTo (9 - 6) = nano := by
            change nano / 1000 * 1000 = nano
            omega
          rw [List.cons_append, run_fraction_padded (by decide) (by decide) (by omega) ended, whole]
      · rw [List.cons_append, run_fraction_padded (by decide) (by decide) fits ended]
        exact congrArg (fun nano => some (nano, c :: rest)) (Nat.mul_one nano)

private theorem run_time {time : Time} (hour : time.hour < 100) (minute : time.minute < 100)
    (second : time.second < 100) (nano : time.nano < 1000000000) :
    Reading.time.run (padded 2 time.hour ++ ':' :: (padded 2 time.minute ++
      ':' :: (padded 2 time.second ++ (fractionChars time.nano ++ ['Z'])))) =
        some (time, ['Z']) := by
  rw [Reading.time, run_bind (run_part hour _), run_bind (run_separator (by decide) _),
    run_bind (run_part minute _), run_bind (run_separator (by decide) _),
    run_bind (run_part second _), run_bind (run_fraction nano (by decide) (by decide) _)]
  rfl

theorem run_whole {date : Calendar.Date} {time : Time} (month : date.month < 100)
    (day : date.day < 100) (hour : time.hour < 100) (minute : time.minute < 100)
    (second : time.second < 100) (nano : time.nano < 1000000000) :
    whole.run (yearChars date.year ++ '-' :: (padded 2 date.month ++
      '-' :: (padded 2 date.day ++ 'T' :: (padded 2 time.hour ++ ':' :: (padded 2 time.minute ++
        ':' :: (padded 2 time.second ++ (fractionChars time.nano ++ ['Z'])))))))
      = some ((date, time, 0), []) := by
  have zone : offset.run ['Z'] = some (0, []) := rfl
  rw [whole, run_bind (run_date month day _), run_bind (run_char (by decide) _),
    run_bind (run_time hour minute second nano), run_bind zone]
  rfl

end Reading

open Reading (yearChars fractionChars)

theorem toList_pad (width n : Nat) : (pad width n).toList = padded width n :=
  Decimal.toList_padLeft width n

private theorem toList_yearText (year : Int) : (yearText year).toList = yearChars year := by
  unfold yearText yearChars
  split
  · exact toList_pad 4 _
  · rw [String.toList_append, toList_pad]
    split <;> rfl

private theorem toList_fractionText (nano : Nat) :
    (fractionText nano).toList = fractionChars nano := by
  unfold fractionText fractionChars
  split
  · rfl
  · split
    · rw [String.toList_append, toList_pad]
      rfl
    · split <;>
      · rw [String.toList_append, toList_pad]
        rfl

/-- What clocks show: a year that is read back, and a leap second only after the last second of a
minute. -/
structure IsOnClock (moment : Moment) : Prop where
  year : isYear (Calendar.ofDays (moment.second / 86400)).year = true
  leap : 1000000000 ≤ moment.nano → moment.second % 60 = 59

instance (moment : Moment) : Decidable moment.IsOnClock :=
  decidable_of_iff (isYear (Calendar.ofDays (moment.second / 86400)).year = true ∧
      (1000000000 ≤ moment.nano → moment.second % 60 = 59))
    ⟨fun ⟨year, leap⟩ => ⟨year, leap⟩, fun h => ⟨h.year, h.leap⟩⟩

def timeOf (moment : Moment) : Reading.Time :=
  let time := (moment.second % 86400).toNat
  { hour := time / 3600
    minute := time / 60 % 60
    second := time % 60 + moment.nano / 1000000000
    nano := moment.nano % 1000000000 }

theorem toList_text (moment : Moment) :
    let date := Calendar.ofDays (moment.second / 86400)
    let time := timeOf moment
    moment.text.toList = yearChars date.year ++ '-' :: (padded 2 date.month ++
      '-' :: (padded 2 date.day ++ 'T' :: (padded 2 time.hour ++ ':' :: (padded 2 time.minute ++
        ':' :: (padded 2 time.second ++ (fractionChars time.nano ++ ['Z'])))))) := by
  simp [text, clockText, timeOf, toList_pad, toList_yearText, toList_fractionText]

theorem timeOf_bounds (moment : Moment) :
    (timeOf moment).hour ≤ 23 ∧ (timeOf moment).minute ≤ 59 ∧ (timeOf moment).second ≤ 60 ∧
      (timeOf moment).nano < 1000000000 := by
  have := moment.inSecond
  unfold timeOf
  dsimp only
  omega

private theorem ofParts?_timeOf {moment : Moment} (h : moment.IsOnClock) :
    ofParts? (Calendar.ofDays (moment.second / 86400)) (timeOf moment) 0 = some moment := by
  obtain ⟨hour, minute, second, nano⟩ := timeOf_bounds moment
  have within := moment.inSecond
  have leap := h.leap
  have clock : (timeOf moment).hour * 3600 + (timeOf moment).minute * 60 +
      min (timeOf moment).second 59 = (moment.second % 86400).toNat := by
    unfold timeOf
    dsimp only
    omega
  have same : moment.second / 86400 * 86400 +
      (((timeOf moment).hour * 3600 + (timeOf moment).minute * 60 +
        min (timeOf moment).second 59 : Nat) : Int) - 0 = moment.second := by
    rw [clock]
    omega
  have run_on : (if (timeOf moment).second = 60 then 1000000000 else 0) + (timeOf moment).nano =
      moment.nano := by
    unfold timeOf
    dsimp only
    split <;> omega
  have accepted : (Calendar.ofDays (moment.second / 86400)).isValid &&
      isYear (Calendar.ofDays (moment.second / 86400)).year && (timeOf moment).hour ≤ 23 &&
      (timeOf moment).minute ≤ 59 && (timeOf moment).second ≤ 60 && (-86400 : Int) < 0 &&
      (0 : Int) < 86400 := by
    simp [Calendar.isValid_ofDays, h.year, hour, minute, second]
  unfold ofParts?
  rw [dif_pos nano, if_pos accepted]
  simp only [Calendar.daysTo_ofDays, same, h.year, run_on, if_true]

theorem lt_of_isValid {date : Calendar.Date} (h : date.isValid = true) :
    date.month < 100 ∧ date.day < 100 := by
  simp only [Calendar.Date.isValid, Bool.and_eq_true, decide_eq_true_eq] at h
  have month : Calendar.daysInMonth date.year date.month ≤ 31 := by
    unfold Calendar.daysInMonth
    split
    · split <;> omega
    · split <;> omega
  omega

theorem parse?_text {moment : Moment} (h : moment.IsOnClock) :
    parse? moment.text = some moment := by
  obtain ⟨month, day⟩ := lt_of_isValid (Calendar.isValid_ofDays (moment.second / 86400))
  obtain ⟨hour, minute, second, nano⟩ := timeOf_bounds moment
  rw [parse?, toList_text, Reading.run_whole month day (by omega) (by omega) (by omega) nano]
  exact ofParts?_timeOf h

end Tollgate.Moment
