import Tollgate.Clock.Calendar
import Tollgate.Decimal.Layout
import Tollgate.Text.Blank

/-!
# Moments as text

Moments are written by RFC 3339 in Coordinated Universal Time, with as many
groups of three fraction digits as needed.  Reading is more lenient: blanks may
surround the parts, numbers may be short, and any offset is accepted.
-/

namespace Tollgate.Moment

def pad (width n : Nat) : String := Decimal.padLeft width (toString n)

/-- Years of four digits stand alone, others carry a sign. -/
def yearText (year : Int) : String :=
  if 0 ≤ year ∧ year ≤ 9999 then pad 4 year.toNat
  else (if year < 0 then "-" else "+") ++ pad 4 year.natAbs

def fractionText (nano : Nat) : String :=
  if nano = 0 then ""
  else if nano % 1000000 = 0 then "." ++ pad 3 (nano / 1000000)
  else if nano % 1000 = 0 then "." ++ pad 6 (nano / 1000)
  else "." ++ pad 9 nano

def clockText (moment : Moment) : String :=
  let date := Calendar.ofDays (moment.second / 86400)
  let time := (moment.second % 86400).toNat
  let second := time % 60 + moment.nano / 1000000000
  yearText date.year ++ "-" ++ pad 2 date.month ++ "-" ++ pad 2 date.day ++ "T" ++
    pad 2 (time / 3600) ++ ":" ++ pad 2 (time / 60 % 60) ++ ":" ++ pad 2 second ++
    fractionText (moment.nano % 1000000000)

def text (moment : Moment) : String := moment.clockText ++ "Z"

def offsetText (moment : Moment) : String := moment.clockText ++ "+00:00"

abbrev Reading (α : Type) := StateT (List Char) Option α

namespace Reading

def skipBlank : Reading Unit := modify (·.dropWhile Text.isSpace)

def char (p : Char → Bool) : Reading Char := do
  match ← get with
  | c :: rest => if p c then do set rest; return c else failure
  | [] => failure

def digits (limit : Nat) : Reading (List Char) := do
  let chars ← get
  let found := (chars.take limit).takeWhile Char.isDigit
  set (chars.drop found.length)
  return found

def number (limit : Nat) : Reading Nat := do
  match Text.digits? (← digits limit) with
  | some n => return n
  | none => failure

def part (limit : Nat) : Reading Nat := do skipBlank; number limit

def separator (c : Char) : Reading Unit := do skipBlank; let _ ← char (· == c)

/-- A signed year has any number of digits, a plain one at most four. -/
def year : Reading Int := do
  skipBlank
  let chars ← get
  match chars with
  | '-' :: rest => do set rest; return -Int.ofNat (← number rest.length)
  | '+' :: rest => do set rest; return Int.ofNat (← number rest.length)
  | _ => return Int.ofNat (← number 4)

def date : Reading Calendar.Date := do
  let year ← year
  separator '-'
  let month ← part 2
  separator '-'
  let day ← part 2
  return ⟨year, month, day⟩

/-- Nanoseconds after a point; digits past the ninth are dropped. -/
def fraction : Reading Nat := do
  match ← get with
  | '.' :: rest => do
      set rest
      let found ← digits 9
      let _ ← digits rest.length
      match Text.digits? found with
      | some n => return n * Decimal.tenTo (9 - found.length)
      | none => failure
  | _ => return 0

structure Time where
  hour : Nat
  minute : Nat
  second : Nat
  nano : Nat

def time : Reading Time := do
  let hour ← part 2
  separator ':'
  let minute ← part 2
  separator ':'
  let second ← part 2
  let nano ← fraction
  return ⟨hour, minute, second, nano⟩

def isColonOrSpace (c : Char) : Bool := c == ':' || Text.isSpace c

def twoDigits (first : Char → Bool) : Reading Nat := do
  let a ← char first
  let b ← char Char.isDigit
  return (a.toNat - 48) * 10 + (b.toNat - 48)

def signedOffset (negative : Bool) : Reading Int := do
  let hours ← twoDigits Char.isDigit
  modify (·.dropWhile isColonOrSpace)
  let minutes ← twoDigits fun c => '0' ≤ c && c ≤ '5'
  let seconds := Int.ofNat (hours * 3600 + minutes * 60)
  return if negative then -seconds else seconds

def offset : Reading Int := do
  skipBlank
  match ← get with
  | u :: t :: c :: rest =>
      if u.toLower = 'u' ∧ t.toLower = 't' ∧ c.toLower = 'c' then do set rest; return 0
      else other
  | _ => other
where
  other : Reading Int := do
    match ← get with
    | 'Z' :: rest | 'z' :: rest => do set rest; return 0
    | '+' :: rest => do set rest; signedOffset false
    | '-' :: rest | '\u2212' :: rest => do set rest; signedOffset true
    | _ => failure

def whole : Reading (Calendar.Date × Time × Int) := do
  let date ← date
  let _ ← char fun c => c == 't' || c == 'T' || c == ' '
  let time ← time
  let offset ← offset
  skipBlank
  match ← get with
  | [] => return (date, time, offset)
  | _ => failure

end Reading

def isYear (year : Int) : Bool := -262143 ≤ year && year ≤ 262142

/-- The moment of a local date and time; a sixtieth second runs on from the one before. -/
def ofParts? (date : Calendar.Date) (time : Reading.Time) (offset : Int) : Option Moment :=
  if h : time.nano < 1000000000 then
    if date.isValid && isYear date.year && time.hour ≤ 23 && time.minute ≤ 59 &&
        time.second ≤ 60 && -86400 < offset && offset < 86400 then
      let clock := time.hour * 3600 + time.minute * 60 + min time.second 59
      let second := Calendar.daysTo date * 86400 + clock - offset
      if isYear (Calendar.ofDays (second / 86400)).year then
        some {
          second := second
          nano := (if time.second = 60 then 1000000000 else 0) + time.nano
          inSecond := by split <;> omega }
      else none
    else none
  else none

def parse? (text : String) : Option Moment :=
  match Reading.whole.run text.toList with
  | some ((date, time, offset), _) => ofParts? date time offset
  | none => none

end Tollgate.Moment
