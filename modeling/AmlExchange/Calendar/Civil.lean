/-!
# Days of the Gregorian calendar

Days are counted from the first of January of the year 1, in the Gregorian
calendar extended to all earlier years, the year 0 among them.  The count of a
day and its year, month and day of the month determine each other
(`ofDayNumber_dayNumber`, `dayNumber_ofDayNumber`).
-/

namespace AmlExchange.Calendar

/-- Whether a year has a leap day: every fourth year, of the full centuries
every fourth. -/
def isLeap (year : Int) : Bool :=
  year % 4 == 0 && (year % 100 != 0 || year % 400 == 0)

/-- The count of the first of January of a year. -/
def daysBeforeYear (year : Int) : Int :=
  365 * (year - 1) + (year - 1) / 4 - (year - 1) / 100 + (year - 1) / 400

/-- The days of a year before one of its months; the month after December
stands for the length of the year. -/
def daysBeforeMonth (leap : Bool) (month : Nat) : Int :=
  let extra : Int := if leap then 1 else 0
  match month with
  | 1 => 0
  | 2 => 31
  | 3 => 59 + extra
  | 4 => 90 + extra
  | 5 => 120 + extra
  | 6 => 151 + extra
  | 7 => 181 + extra
  | 8 => 212 + extra
  | 9 => 243 + extra
  | 10 => 273 + extra
  | 11 => 304 + extra
  | 12 => 334 + extra
  | _ => 365 + extra

/-- A day named by its year, its month and its number in the month. -/
structure Civil where
  year : Int
  month : Nat
  day : Nat
deriving DecidableEq, Repr

namespace Civil

/-- Whether the calendar has such a day. -/
def Valid (date : Civil) : Prop :=
  1 ≤ date.month ∧ date.month ≤ 12 ∧ 1 ≤ date.day ∧
    (date.day : Int) ≤
      daysBeforeMonth (isLeap date.year) (date.month + 1) -
        daysBeforeMonth (isLeap date.year) date.month

instance (date : Civil) : Decidable date.Valid :=
  inferInstanceAs (Decidable (_ ∧ _ ∧ _ ∧ _))

/-- The count of a day. -/
def dayNumber (date : Civil) : Int :=
  daysBeforeYear date.year +
    daysBeforeMonth (isLeap date.year) date.month + date.day - 1

end Civil

/-- The year that a day falls in.  The mean length of a year gives it to
within one. -/
def yearOfDay (count : Int) : Int :=
  let estimate := count * 400 / 146097 + 1
  if count < daysBeforeYear estimate then estimate - 1
  else if count < daysBeforeYear (estimate + 1) then estimate
  else estimate + 1

/-- The month that a day of a year falls in, the first day having number 0. -/
def monthOfDay (leap : Bool) (ordinal : Int) : Nat :=
  if ordinal < daysBeforeMonth leap 2 then 1
  else if ordinal < daysBeforeMonth leap 3 then 2
  else if ordinal < daysBeforeMonth leap 4 then 3
  else if ordinal < daysBeforeMonth leap 5 then 4
  else if ordinal < daysBeforeMonth leap 6 then 5
  else if ordinal < daysBeforeMonth leap 7 then 6
  else if ordinal < daysBeforeMonth leap 8 then 7
  else if ordinal < daysBeforeMonth leap 9 then 8
  else if ordinal < daysBeforeMonth leap 10 then 9
  else if ordinal < daysBeforeMonth leap 11 then 10
  else if ordinal < daysBeforeMonth leap 12 then 11
  else 12

/-- The day that has a count. -/
def Civil.ofDayNumber (count : Int) : Civil :=
  let year := yearOfDay count
  let ordinal := count - daysBeforeYear year
  let month := monthOfDay (isLeap year) ordinal
  ⟨year, month, (ordinal - daysBeforeMonth (isLeap year) month + 1).toNat⟩

/-- A year is as long as its twelve months. -/
theorem daysBeforeYear_succ (year : Int) :
    daysBeforeYear (year + 1) =
      daysBeforeYear year + daysBeforeMonth (isLeap year) 13 := by
  simp only [daysBeforeYear, daysBeforeMonth, isLeap]
  by_cases four : year % 4 = 0 <;> by_cases hundred : year % 100 = 0 <;>
    by_cases fourHundred : year % 400 = 0 <;>
    simp [four, hundred, fourHundred] <;> omega

theorem daysBeforeYear_yearOfDay (count : Int) :
    daysBeforeYear (yearOfDay count) ≤ count ∧
      count < daysBeforeYear (yearOfDay count + 1) := by
  have bounds :
      daysBeforeYear (count * 400 / 146097) ≤ count ∧
        count < daysBeforeYear (count * 400 / 146097 + 3) := by
    simp only [daysBeforeYear]
    omega
  simp only [yearOfDay]
  split
  · next below =>
      refine ⟨by simpa using bounds.1, ?_⟩
      simpa using below
  · split
    · exact ⟨by omega, by assumption⟩
    · refine ⟨by omega, ?_⟩
      simpa [Int.add_assoc] using bounds.2

theorem daysBeforeYear_mono {first second : Int} (ordered : first ≤ second) :
    daysBeforeYear first ≤ daysBeforeYear second := by
  simp only [daysBeforeYear]
  omega

/-- The year of a day is the one whose days surround it. -/
theorem yearOfDay_unique {count year : Int}
    (lower : daysBeforeYear year ≤ count)
    (upper : count < daysBeforeYear (year + 1)) :
    yearOfDay count = year := by
  have bounds := daysBeforeYear_yearOfDay count
  rcases Int.lt_trichotomy (yearOfDay count) year with less | equal | more
  · have := daysBeforeYear_mono (show yearOfDay count + 1 ≤ year by omega)
    omega
  · exact equal
  · have := daysBeforeYear_mono (show year + 1 ≤ yearOfDay count by omega)
    omega

/-- A day of a year lies between the starts of its month and of the next. -/
theorem daysBeforeMonth_monthOfDay {leap : Bool} {ordinal : Int}
    (lower : 0 ≤ ordinal) (upper : ordinal < daysBeforeMonth leap 13) :
    daysBeforeMonth leap (monthOfDay leap ordinal) ≤ ordinal ∧
      ordinal < daysBeforeMonth leap (monthOfDay leap ordinal + 1) ∧
      1 ≤ monthOfDay leap ordinal ∧ monthOfDay leap ordinal ≤ 12 := by
  simp only [monthOfDay]
  repeat'
    split
    · refine ⟨?_, by assumption, by omega, by omega⟩
      simp only [daysBeforeMonth] at *
      omega
  refine ⟨?_, upper, by omega, by omega⟩
  simp only [daysBeforeMonth] at *
  omega

theorem daysBeforeMonth_mono (leap : Bool) {month later : Nat}
    (first : 1 ≤ month) (ordered : month ≤ later) (last : later ≤ 13) :
    daysBeforeMonth leap month ≤ daysBeforeMonth leap later := by
  have growing :
      ∀ leap, ∀ month ∈ List.range' 1 13, ∀ later ∈ List.range' 1 13,
        month ≤ later →
          daysBeforeMonth leap month ≤ daysBeforeMonth leap later := by
    decide
  apply growing leap month _ later _ ordered <;>
    rw [List.mem_range'_1] <;> omega

/-- Every month lies within the year. -/
theorem daysBeforeMonth_bounds (leap : Bool) {month : Nat}
    (first : 1 ≤ month) (last : month ≤ 12) :
    0 ≤ daysBeforeMonth leap month ∧
      daysBeforeMonth leap (month + 1) ≤ daysBeforeMonth leap 13 :=
  ⟨daysBeforeMonth_mono leap (Nat.le_refl 1) first (by omega),
    daysBeforeMonth_mono leap (by omega) (by omega) (Nat.le_refl 13)⟩

/-- The month of a day is the one whose days surround it. -/
theorem monthOfDay_unique {leap : Bool} {ordinal : Int} {month : Nat}
    (first : 1 ≤ month) (last : month ≤ 12)
    (lower : daysBeforeMonth leap month ≤ ordinal)
    (upper : ordinal < daysBeforeMonth leap (month + 1)) :
    monthOfDay leap ordinal = month := by
  have within := daysBeforeMonth_bounds leap first last
  obtain ⟨ownLower, ownUpper, ownFirst, ownLast⟩ :=
    @daysBeforeMonth_monthOfDay leap ordinal (by omega) (by omega)
  rcases Nat.lt_trichotomy (monthOfDay leap ordinal) month
    with less | equal | more
  · have := daysBeforeMonth_mono leap (Nat.le_add_left 1 _) less (by omega)
    omega
  · exact equal
  · have := daysBeforeMonth_mono leap (Nat.le_add_left 1 _) more (by omega)
    omega

/-- The day of a count has that count. -/
theorem dayNumber_ofDayNumber (count : Int) :
    (Civil.ofDayNumber count).dayNumber = count := by
  have year := daysBeforeYear_yearOfDay count
  rw [daysBeforeYear_succ] at year
  have month := @daysBeforeMonth_monthOfDay
    (isLeap (yearOfDay count))
    (count - daysBeforeYear (yearOfDay count))
    (by omega) (by omega)
  simp only [Civil.ofDayNumber, Civil.dayNumber]
  omega

/-- The calendar has the day of every count. -/
theorem valid_ofDayNumber (count : Int) :
    (Civil.ofDayNumber count).Valid := by
  have year := daysBeforeYear_yearOfDay count
  rw [daysBeforeYear_succ] at year
  have month := @daysBeforeMonth_monthOfDay
    (isLeap (yearOfDay count))
    (count - daysBeforeYear (yearOfDay count))
    (by omega) (by omega)
  simp only [Civil.ofDayNumber, Civil.Valid]
  omega

/-- A day of the calendar is the day of its count. -/
theorem ofDayNumber_dayNumber {date : Civil} (valid : date.Valid) :
    Civil.ofDayNumber date.dayNumber = date := by
  obtain ⟨year, month, day⟩ := date
  simp only [Civil.Valid] at valid
  obtain ⟨firstMonth, lastMonth, firstDay, lastDay⟩ := valid
  have inYear := daysBeforeMonth_bounds (isLeap year) firstMonth lastMonth
  have next := daysBeforeYear_succ year
  have sameYear :
      yearOfDay (Civil.dayNumber ⟨year, month, day⟩) = year := by
    apply yearOfDay_unique <;> simp only [Civil.dayNumber] <;> omega
  have sameMonth :
      monthOfDay (isLeap year)
        (Civil.dayNumber ⟨year, month, day⟩ - daysBeforeYear year) =
          month := by
    apply monthOfDay_unique firstMonth lastMonth <;>
      simp only [Civil.dayNumber] <;> omega
  simp only [Civil.ofDayNumber, sameYear, sameMonth, Civil.mk.injEq,
    true_and]
  simp only [Civil.dayNumber]
  omega

end AmlExchange.Calendar
