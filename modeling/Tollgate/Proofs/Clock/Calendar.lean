import Mathlib.Tactic.IntervalCases
import Mathlib.Tactic.Ring
import Tollgate.Clock.Calendar

/-!
# Days and dates

Every day has one date, and the date is that of a day in its month.  An era of
four hundred years is cut into centuries, cycles of four years, years and days;
a leap day comes last in its year, its cycle and its era.
-/

namespace Tollgate.Calendar

/-- A day of an era, by the parts of the era that have passed before it. -/
structure IsPlaced (dayOfEra century cycle year day : Nat) : Prop where
  eq : dayOfEra = 36524 * century + 1461 * cycle + 365 * year + day
  century_lt : century < 4
  cycle_lt : cycle < 25
  year_lt : year < 4
  day_lt : day < 366
  leap : day = 365 → year = 3 ∧ (cycle = 24 → century = 3)

private theorem exists_isPlaced {dayOfEra : Nat} (h : dayOfEra < 146097) :
    ∃ century cycle year day, IsPlaced dayOfEra century cycle year day := by
  obtain ⟨century, century_eq⟩ : ∃ century, century = min (dayOfEra / 36524) 3 := ⟨_, rfl⟩
  obtain ⟨cycle, cycle_eq⟩ : ∃ cycle, cycle = (dayOfEra - 36524 * century) / 1461 := ⟨_, rfl⟩
  obtain ⟨year, year_eq⟩ :
      ∃ year, year = min ((dayOfEra - 36524 * century - 1461 * cycle) / 365) 3 := ⟨_, rfl⟩
  refine ⟨century, cycle, year, dayOfEra - 36524 * century - 1461 * cycle - 365 * year, ?_⟩
  constructor <;> omega

section IsPlaced

variable {dayOfEra century cycle year day : Nat}

private theorem IsPlaced.yearOfEra (h : IsPlaced dayOfEra century cycle year day) :
    (dayOfEra - dayOfEra / 1460 + dayOfEra / 36524 - dayOfEra / 146096) / 365 =
      100 * century + 4 * cycle + year := by
  obtain ⟨eq, _, _, _, _, leap⟩ := h
  have cycles :
      dayOfEra / 1460 = 25 * century + cycle ∧
          24 * century + cycle + 365 * year + day < 1460 ∨
        dayOfEra / 1460 = 25 * century + cycle + 1 ∧
          1460 ≤ 24 * century + cycle + 365 * year + day := by
    omega
  have centuries : dayOfEra / 36524 - dayOfEra / 146096 = century ∧
      dayOfEra / 146096 ≤ dayOfEra / 36524 := by
    omega
  have shifted : dayOfEra - dayOfEra / 1460 + dayOfEra / 36524 - dayOfEra / 146096 =
      dayOfEra + century - dayOfEra / 1460 := by
    omega
  rw [shifted]
  omega

end IsPlaced

theorem exists_dayOfYear {dayOfEra : Nat} (h : dayOfEra < 146097) :
    ∃ year day, (dayOfEra - dayOfEra / 1460 + dayOfEra / 36524 - dayOfEra / 146096) / 365 = year ∧
      dayOfEra = 365 * year + year / 4 - year / 100 + day ∧ year < 400 ∧ day < 366 ∧
      (day = 365 → year % 4 = 3 ∧ (year % 100 = 99 → year = 399)) := by
  obtain ⟨century, cycle, year, day, placed⟩ := exists_isPlaced h
  refine ⟨_, day, placed.yearOfEra, ?_⟩
  obtain ⟨eq, _, _, _, _, leap⟩ := placed
  have cycles : (100 * century + 4 * cycle + year) / 4 = 25 * century + cycle := by omega
  have centuries : (100 * century + 4 * cycle + year) / 100 = century := by omega
  rw [cycles, centuries]
  omega

theorem month_bounds {day : Nat} (h : day < 366) :
    (5 * day + 2) / 153 < 12 ∧ daysBefore ((5 * day + 2) / 153) ≤ day := by
  unfold daysBefore
  omega

def dateOn (year : Int) (day : Nat) : Date :=
  let month := (5 * day + 2) / 153
  { year := year + (if month < 10 then 0 else 1)
    month := if month < 10 then month + 3 else month - 9
    day := day - daysBefore month + 1 }

theorem isValid_dateOn {year : Int} {day : Nat} (h : day < 366)
    (leap : day = 365 → isLeap (year + 1) = true) : (dateOn year day).isValid = true := by
  obtain ⟨month_lt, _⟩ := month_bounds h
  unfold dateOn Date.isValid
  dsimp only
  generalize position : (5 * day + 2) / 153 = month at *
  by_cases february : month = 11
  · subst february
    by_cases last : day = 365
    · simp [daysInMonth, leap last, daysBefore, last]
    · have : 28 ≤ daysInMonth (year + 1) 2 := by
        unfold daysInMonth
        split <;> split <;> omega
      simp [daysBefore]
      omega
  · simp only [Bool.and_eq_true, decide_eq_true_eq]
    unfold daysInMonth daysBefore
    interval_cases month <;> simp <;> omega

theorem daysTo_dateOn {year : Int} {day : Nat} (h : day < 366) :
    daysTo (dateOn year day) = daysBeforeYear year + day - epochOffset := by
  obtain ⟨month_lt, within⟩ := month_bounds h
  unfold dateOn daysTo
  dsimp only
  generalize (5 * day + 2) / 153 = month at *
  have counted : ((if month < 10 then month + 3 else month - 9) + 9) % 12 = month := by
    split <;> omega
  have marched : (if (if month < 10 then month + 3 else month - 9) ≤ 2 then
      year + (if month < 10 then 0 else 1) - 1 else year + (if month < 10 then 0 else 1)) =
      year := by
    split <;> split at * <;> omega
  rw [counted, marched]
  omega

private theorem daysBeforeYear_add_era (year era : Int) :
    daysBeforeYear (year + era * 400) = daysBeforeYear year + 146097 * era := by
  have cycles : (year + era * 400) / 4 = year / 4 + era * 100 := by omega
  have centuries : (year + era * 400) / 100 = year / 100 + era * 4 := by omega
  have eras : (year + era * 400) / 400 = year / 400 + era := by omega
  unfold daysBeforeYear
  rw [cycles, centuries, eras]
  ring

private theorem daysBeforeYear_of_lt {year : Nat} (h : year < 400) :
    daysBeforeYear year = (365 * year + year / 4 - year / 100 : Nat) := by
  unfold daysBeforeYear
  omega

theorem exists_dateOn (days : Int) :
    ∃ (year : Int) (day : Nat), ofDays days = dateOn year day ∧ day < 366 ∧
      (day = 365 → isLeap (year + 1) = true) ∧
      daysBeforeYear year + day = days + epochOffset := by
  have within : ((days + epochOffset) % 146097).toNat < 146097 := by omega
  obtain ⟨yearOfEra, day, found, split, year_lt, day_lt, leap⟩ := exists_dayOfYear within
  refine ⟨yearOfEra + (days + epochOffset) / 146097 * 400, day, ?_, day_lt, ?_, ?_⟩
  · unfold ofDays
    dsimp only
    rw [found]
    have left : ((days + epochOffset) % 146097).toNat -
        (365 * yearOfEra + yearOfEra / 4 - yearOfEra / 100) = day := by
      omega
    rw [left]
    rfl
  · intro last
    obtain ⟨cycle, century⟩ := leap last
    simp only [isLeap, Bool.and_eq_true, Bool.or_eq_true, beq_iff_eq, bne_iff_ne]
    omega
  · have whole := Int.mul_ediv_add_emod (days + epochOffset) 146097
    have start := daysBeforeYear_of_lt year_lt
    rw [daysBeforeYear_add_era, start]
    omega

theorem daysTo_ofDays (days : Int) : daysTo (ofDays days) = days := by
  obtain ⟨year, day, date, day_lt, _, eq⟩ := exists_dateOn days
  rw [date, daysTo_dateOn day_lt, eq, Int.add_sub_cancel]

theorem isValid_ofDays (days : Int) : (ofDays days).isValid = true := by
  obtain ⟨year, day, date, day_lt, leap, _⟩ := exists_dateOn days
  rw [date]
  exact isValid_dateOn day_lt leap

end Tollgate.Calendar
