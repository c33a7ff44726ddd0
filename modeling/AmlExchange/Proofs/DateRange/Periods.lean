import AmlExchange.DateRange.Dynamic
import Mathlib.Order.Monotone.Basic

/-!
# Numbered periods

The days, weeks, months, quarters and years of the calendar are numbered, each
kind on its own, so that the period after the one with a number has the next
number.  The months are counted from January of the year 0, and quarters and
years begin with every third and every twelfth of them.  Every day falls in one
period of each kind (`numberOf_eq_iff`), and the period that lies some periods
after the one of a day is found by adding to its number
(`periodStart_eq`).
-/

namespace AmlExchange.DateRange

open Calendar (Civil InUse Weekday)

/-! ## Months -/

/-- The first day of the month with a number. -/
def firstOfMonth (month : Int) : Int :=
  (⟨month / 12, (month % 12 + 1).toNat, 1⟩ : Civil).dayNumber

/-- The number of a month of a year. -/
def monthNumber (year : Int) (month : Nat) : Int :=
  12 * year + month - 1

/-- The month after December is January of the next year. -/
theorem firstOfMonth_monthNumber
    (year : Int) {month : Nat} (first : 1 ≤ month) (last : month ≤ 13) :
    firstOfMonth (monthNumber year month) =
      Calendar.daysBeforeYear year +
        Calendar.daysBeforeMonth (Calendar.isLeap year) month := by
  by_cases next : month = 13
  · subst next
    have sameYear : monthNumber year 13 / 12 = year + 1 := by
      rw [monthNumber]
      omega
    have january : (monthNumber year 13 % 12 + 1).toNat = 1 := by
      rw [monthNumber]
      omega
    rw [firstOfMonth, sameYear, january, Civil.dayNumber,
      Calendar.daysBeforeYear_succ]
    simp only [Calendar.daysBeforeMonth]
    omega
  · have sameYear : monthNumber year month / 12 = year := by
      rw [monthNumber]
      omega
    have sameMonth : (monthNumber year month % 12 + 1).toNat = month := by
      rw [monthNumber]
      omega
    rw [firstOfMonth, sameYear, sameMonth, Civil.dayNumber]
    exact Int.add_sub_cancel _ _

theorem exists_eq_monthNumber
    (number : Int) :
    ∃ year month, 1 ≤ month ∧ month ≤ 12 ∧ number = monthNumber year month := by
  refine ⟨number / 12, (number % 12 + 1).toNat, ?_, ?_, ?_⟩
  · omega
  · omega
  · rw [monthNumber]
    omega

theorem daysBeforeMonth_lt_succ
    (leap : Bool) {month : Nat} (first : 1 ≤ month) (last : month ≤ 12) :
    Calendar.daysBeforeMonth leap month <
      Calendar.daysBeforeMonth leap (month + 1) := by
  have longer :
      ∀ leap, ∀ month ∈ [1, 2, 3, 4, 5, 6, 7, 8, 9, 10, 11, 12],
        Calendar.daysBeforeMonth leap month <
          Calendar.daysBeforeMonth leap (month + 1) := by
    decide
  apply longer
  simp only [List.mem_cons, List.not_mem_nil, or_false]
  omega

/-- Every month has a day. -/
theorem firstOfMonth_lt_succ
    (number : Int) :
    firstOfMonth number < firstOfMonth (number + 1) := by
  obtain ⟨year, month, first, last, rfl⟩ := exists_eq_monthNumber number
  have following :
      monthNumber year month + 1 = monthNumber year (month + 1) := by
    rw [monthNumber, monthNumber]
    omega
  rw [following, firstOfMonth_monthNumber year first (by omega),
    firstOfMonth_monthNumber year (by omega) (by omega)]
  exact Int.add_lt_add_left (daysBeforeMonth_lt_succ _ first last) _

/-- The number of the month that a day falls in. -/
def monthOf (day : Int) : Int :=
  monthNumber (Civil.ofDayNumber day).year (Civil.ofDayNumber day).month

theorem firstOfMonth_monthOf
    (day : Int) :
    firstOfMonth (monthOf day) ≤ day ∧
      day < firstOfMonth (monthOf day + 1) := by
  obtain ⟨first, last, firstDay, lastDay⟩ := Calendar.valid_ofDayNumber day
  have same := Calendar.dayNumber_ofDayNumber day
  have following :
      monthOf day + 1 =
        monthNumber (Civil.ofDayNumber day).year
          ((Civil.ofDayNumber day).month + 1) := by
    rw [monthOf, monthNumber, monthNumber]
    omega
  rw [following, monthOf, firstOfMonth_monthNumber _ first (by omega),
    firstOfMonth_monthNumber _ (by omega) (by omega)]
  rw [Civil.dayNumber] at same
  omega

/-! ## Periods of each kind -/

namespace Magnitude

/-- The first day of the period with a number, where weeks begin on
`firstDayOfWeek`. -/
def beginning (magnitude : Magnitude) (firstDayOfWeek : Weekday)
    (number : Int) : Int :=
  match magnitude with
  | .day => number
  | .week => 7 * number + firstDayOfWeek.sinceSunday - 1
  | .month => firstOfMonth number
  | .quarter => firstOfMonth (3 * number)
  | .year => firstOfMonth (12 * number)

/-- The number of the period that a day falls in. -/
def numberOf (magnitude : Magnitude) (firstDayOfWeek : Weekday)
    (day : Int) : Int :=
  match magnitude with
  | .day => day
  | .week => (day + 1 - firstDayOfWeek.sinceSunday) / 7
  | .month => monthOf day
  | .quarter => monthOf day / 3
  | .year => monthOf day / 12

variable (magnitude : Magnitude) (firstDayOfWeek : Weekday)

/-- Periods begin at least as many days apart as their numbers are. -/
theorem beginning_add_le
    {number other : Int} (ordered : number ≤ other) :
    magnitude.beginning firstDayOfWeek number + (other - number) ≤
      magnitude.beginning firstDayOfWeek other := by
  have months : Monotone fun number => firstOfMonth number - number :=
    monotone_int_of_le_succ fun number => by
      have longer := firstOfMonth_lt_succ number
      omega
  cases magnitude with
  | day | week =>
      simp only [beginning]
      omega
  | month =>
      have apart := months ordered
      simp only [beginning] at apart ⊢
      omega
  | quarter =>
      have apart := months (show 3 * number ≤ 3 * other by omega)
      simp only [beginning] at apart ⊢
      omega
  | year =>
      have apart := months (show 12 * number ≤ 12 * other by omega)
      simp only [beginning] at apart ⊢
      omega

theorem beginning_numberOf
    (day : Int) :
    magnitude.beginning firstDayOfWeek
        (magnitude.numberOf firstDayOfWeek day) ≤ day ∧
      day < magnitude.beginning firstDayOfWeek
        (magnitude.numberOf firstDayOfWeek day + 1) := by
  have month := firstOfMonth_monthOf day
  have ordered {first second : Int} (before : first ≤ second) :=
    @beginning_add_le .month firstDayOfWeek first second before
  cases magnitude with
  | day | week =>
      simp only [beginning, numberOf]
      omega
  | month => exact month
  | quarter =>
      have lower := ordered (show 3 * (monthOf day / 3) ≤ monthOf day by omega)
      have upper := ordered
        (show monthOf day + 1 ≤ 3 * (monthOf day / 3 + 1) by omega)
      simp only [beginning, numberOf] at lower upper ⊢
      omega
  | year =>
      have lower := ordered
        (show 12 * (monthOf day / 12) ≤ monthOf day by omega)
      have upper := ordered
        (show monthOf day + 1 ≤ 12 * (monthOf day / 12 + 1) by omega)
      simp only [beginning, numberOf] at lower upper ⊢
      omega

/-- A day falls in the period whose days surround it, and in no other. -/
theorem numberOf_eq_iff
    {day number : Int} :
    magnitude.numberOf firstDayOfWeek day = number ↔
      magnitude.beginning firstDayOfWeek number ≤ day ∧
        day < magnitude.beginning firstDayOfWeek (number + 1) := by
  have own := magnitude.beginning_numberOf firstDayOfWeek day
  constructor
  · rintro rfl
    exact own
  · rintro ⟨lower, upper⟩
    rcases Int.lt_trichotomy (magnitude.numberOf firstDayOfWeek day) number
      with less | equal | more
    · have := @beginning_add_le magnitude firstDayOfWeek
        (magnitude.numberOf firstDayOfWeek day + 1) number (by omega)
      omega
    · exact equal
    · have := @beginning_add_le magnitude firstDayOfWeek (number + 1)
        (magnitude.numberOf firstDayOfWeek day) (by omega)
      omega

end Magnitude

/-! ## Periods after the one of a day -/

namespace Dynamic

variable {firstDayOfWeek : Weekday} {today start offset : Int}
variable {magnitude : Magnitude}

/-- Whether the calendar in use has the day from which periods are counted:
weeks are counted from the first day of the week. -/
def Counts (magnitude : Magnitude) (firstDayOfWeek : Weekday)
    (number : Int) : Prop :=
  magnitude = .week → InUse (magnitude.beginning firstDayOfWeek number)

theorem monthStart_eq
    (year : Int) (month : Nat) (offset : Int) :
    monthStart year month offset =
      checkedDay (firstOfMonth (monthNumber year month + offset)) := by
  have total :
      year * 12 + Int.ofNat month - 1 + offset =
        monthNumber year month + offset := by
    rw [monthNumber, Int.ofNat_eq_natCast]
    omega
  rw [monthStart, total]
  rfl

theorem weekStart_eq
    (firstDayOfWeek : Weekday) (today : Int) :
    today - Calendar.daysIntoWeek firstDayOfWeek today =
      Magnitude.beginning .week firstDayOfWeek
        (Magnitude.numberOf .week firstDayOfWeek today) := by
  simp only [Calendar.daysIntoWeek, Magnitude.beginning, Magnitude.numberOf]
  omega

theorem checkedDay_of_inUse
    {day : Int} (inUse : InUse day) :
    checkedDay day = .ok day :=
  if_pos inUse

/-- Periods are counted by their numbers. -/
theorem periodStart_eq
    (counts : Counts magnitude firstDayOfWeek
      (magnitude.numberOf firstDayOfWeek today)) :
    periodStart firstDayOfWeek today magnitude offset =
      checkedDay
        (magnitude.beginning firstDayOfWeek
          (magnitude.numberOf firstDayOfWeek today + offset)) := by
  have valid := Calendar.valid_ofDayNumber today
  obtain ⟨first, last, -⟩ := valid
  cases magnitude with
  | day => rfl
  | week =>
      have further :
          Magnitude.beginning .week firstDayOfWeek
              (Magnitude.numberOf .week firstDayOfWeek today) + 7 * offset =
            Magnitude.beginning .week firstDayOfWeek
              (Magnitude.numberOf .week firstDayOfWeek today + offset) := by
        simp only [Magnitude.beginning]
        omega
      rw [periodStart, weekStart_eq, checkedDay_of_inUse (counts rfl),
        ← further]
      rfl
  | month => exact monthStart_eq ..
  | quarter =>
      rw [periodStart, monthStart_eq]
      simp only [Magnitude.beginning, Magnitude.numberOf, monthOf,
        monthNumber]
      congr 2
      omega
  | year =>
      rw [periodStart, monthStart_eq]
      simp only [Magnitude.beginning, Magnitude.numberOf, monthOf,
        monthNumber]
      congr 2
      omega

theorem inUse_of_checkedDay
    {day other : Int} (checked : checkedDay day = .ok other) :
    InUse day := by
  rw [checkedDay] at checked
  split at checked
  · assumption
  · cases checked

theorem counts_of_periodStart
    (found : periodStart firstDayOfWeek today magnitude offset = .ok start) :
    Counts magnitude firstDayOfWeek
      (magnitude.numberOf firstDayOfWeek today) := by
  rintro rfl
  rw [periodStart, weekStart_eq] at found
  cases checked : checkedDay
      (Magnitude.beginning .week firstDayOfWeek
        (Magnitude.numberOf .week firstDayOfWeek today)) with
  | error fault =>
      rw [checked] at found
      cases found
  | ok day => exact inUse_of_checkedDay checked

end Dynamic

end AmlExchange.DateRange
