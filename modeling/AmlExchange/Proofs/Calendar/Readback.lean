import AmlExchange.Calendar.Notation
import Mathlib.Algebra.Group.Nat.Defs

/-!
# Written dates read back

Every part of a written date has a fixed width, so each is read off the front
of what is left, whatever follows it.  The parts of a moment give the moment
again, and a moment that is written is read as itself, without its nanoseconds
(`DateTime.read?_write`).
-/

namespace AmlExchange

namespace Decimal

/-- A number below a power of ten has no more digits than its exponent. -/
theorem length_writeNat_le
    {width value : Nat} (small : value < 10 ^ (width + 1)) :
    (writeNat value).length ≤ width + 1 := by
  induction width generalizing value with
  | zero =>
      rw [writeNat, if_pos (by omega)]
      exact Nat.le_refl 1
  | succ width ih =>
      rw [writeNat]
      split
      · exact Nat.succ_le_succ (Nat.zero_le _)
      · have high : value / 10 < 10 ^ (width + 1) := by
          rw [Nat.pow_succ] at small
          omega
        rw [List.length_append, List.length_singleton]
        exact Nat.succ_le_succ (ih high)

theorem readDigits?_replicate_zero
    (count : Nat) (digits : List Char) :
    readDigits? 10 0 (List.replicate count '0' ++ digits) =
      readDigits? 10 0 digits := by
  induction count with
  | zero => rfl
  | succ count ih => exact ih

theorem isDigit_digitChar
    {digit : Nat} (small : digit < 10) :
    (digitChar digit).isDigit = true := by
  decide +revert

end Decimal

namespace Calendar

open Decimal

/-! ## Numbers of a fixed width -/

section

variable {width value : Nat}

theorem forall_mem_padded
    {holds : Char → Prop}
    (digits : ∀ {digit : Nat}, digit < 10 → holds (digitChar digit))
    (width value : Nat) :
    ∀ char ∈ padded width value, holds char := by
  refine List.forall_mem_append.mpr ⟨?_, forall_mem_writeNat digits value⟩
  intro char member
  rw [List.eq_of_mem_replicate member]
  exact digits (Nat.succ_pos 9)

theorem length_padded
    (small : value < 10 ^ (width + 1)) :
    (padded (width + 1) value).length = width + 1 := by
  have fits := length_writeNat_le small
  rw [padded, List.length_append, List.length_replicate]
  omega

theorem readNat?_padded
    (width value : Nat) :
    readNat? 10 (padded width value) = some value := by
  have written : padded width value ≠ [] :=
    List.append_ne_nil_of_right_ne_nil _ (writeNat_ne_nil value)
  rw [readNat?, if_neg (by simpa using written), padded,
    readDigits?_replicate_zero, readDigits?_writeNat]

/-- A number of a fixed width is read off the front of any text. -/
theorem readDigits_padded
    (small : value < 10 ^ (width + 1)) (rest : List Char) :
    readDigits (width + 1) (padded (width + 1) value ++ rest) =
      some (value, rest) := by
  have wide := length_padded small
  have digits :
      (padded (width + 1) value).all Char.isDigit = true :=
    List.all_eq_true.mpr (forall_mem_padded isDigit_digitChar _ _)
  rw [readDigits, List.take_left' wide, List.drop_left' wide,
    if_pos ⟨wide, digits⟩, readNat?_padded]
  rfl

end

theorem readMark_cons
    (mark : Char) (rest : List Char) :
    readMark mark (mark :: rest) = some rest :=
  if_pos rfl

/-! ## Days -/

/-- The first character of a number is no sign. -/
theorem exists_padded_eq_cons
    (width value : Nat) :
    ∃ char rest,
      padded width value = char :: rest ∧ char ≠ '-' ∧ char ≠ '+' := by
  have signless :=
    @forall_mem_padded (fun char => char ≠ '-' ∧ char ≠ '+')
      digitChar_ne_sign width value
  cases shape : padded width value with
  | nil =>
      rw [padded, List.append_eq_nil_iff] at shape
      exact absurd shape.2 (writeNat_ne_nil value)
  | cons char rest =>
      rw [shape] at signless
      exact ⟨char, rest, rfl, signless char List.mem_cons_self⟩

theorem readYear_writeYear
    {year : Int} (lower : -9999 ≤ year) (upper : year ≤ 9999)
    (rest : List Char) :
    readYear (writeYear year ++ rest) = some (year, rest) := by
  have small : year.natAbs < 10 ^ 4 := by omega
  have digits := readDigits_padded small rest
  rw [writeYear]
  split
  · next negative =>
      have signed : -Int.ofNat year.natAbs = year := by
        rw [Int.ofNat_eq_natCast]
        omega
      rw [List.cons_append, readYear, digits]
      exact congrArg (fun year => some (year, rest)) signed
  · next positive =>
      obtain ⟨char, more, shape, noMinus, noPlus⟩ :=
        exists_padded_eq_cons 4 year.natAbs
      have same : Int.ofNat year.natAbs = year := by
        rw [Int.ofNat_eq_natCast]
        omega
      rw [shape, List.cons_append] at digits ⊢
      rw [readYear, digits]
      · exact congrArg (fun year => some (year, rest)) same
      · rintro _ begins
        exact noMinus (List.cons.inj begins).1
      · rintro _ begins
        exact noPlus (List.cons.inj begins).1

theorem readCivil_writeCivil
    {date : Civil} (lower : -9999 ≤ date.year) (upper : date.year ≤ 9999)
    (month : date.month < 10 ^ 2) (day : date.day < 10 ^ 2)
    (rest : List Char) :
    readCivil (writeCivil date ++ rest) = some (date, rest) := by
  simp only [writeCivil, List.append_assoc, List.cons_append]
  rw [readCivil, readYear_writeYear lower upper]
  simp only [Option.bind_eq_bind, Option.bind_some, readMark_cons,
    readDigits_padded month, readDigits_padded day]

theorem readClock_writeClock
    {hour minute second : Nat} (hours : hour < 10 ^ 2)
    (minutes : minute < 10 ^ 2) (seconds : second < 10 ^ 2)
    (rest : List Char) :
    readClock (writeClock hour minute second ++ rest) =
      some ((hour, minute, second), rest) := by
  simp only [writeClock, List.append_assoc, List.cons_append]
  rw [readClock, readDigits_padded hours]
  simp only [Option.bind_eq_bind, Option.bind_some, readMark_cons,
    readDigits_padded minutes, readDigits_padded seconds]

/-- The years in use have four digits. -/
theorem yearOfDay_bounds
    {day : Int} (inUse : InUse day) :
    -9999 ≤ yearOfDay day ∧ yearOfDay day ≤ 9999 := by
  have around := daysBeforeYear_yearOfDay day
  obtain ⟨lower, upper⟩ := inUse
  rw [firstDay] at lower
  rw [endDay] at upper
  constructor
  · rcases Int.lt_or_le (yearOfDay day) (-9999) with early | late
    · have := daysBeforeYear_mono (show yearOfDay day + 1 ≤ -9999 by omega)
      omega
    · exact late
  · rcases Int.lt_or_le 9999 (yearOfDay day) with late | early
    · have := daysBeforeYear_mono (show 10000 ≤ yearOfDay day by omega)
      omega
    · exact early

theorem Civil.Valid.day_lt
    {date : Civil} (valid : date.Valid) :
    date.day < 10 ^ 2 := by
  obtain ⟨first, last, -, within⟩ := valid
  have long :
      daysBeforeMonth (isLeap date.year) (date.month + 1) -
          daysBeforeMonth (isLeap date.year) date.month ≤ 31 := by
    have inRange : date.month ∈ List.range' 1 12 := by
      rw [List.mem_range'_1]
      omega
    generalize isLeap date.year = leap at *
    generalize date.month = month at *
    clear first last within
    revert leap month
    decide
  omega

namespace DateTime

/-! ## Moments -/

theorem civil_valid
    (moment : DateTime) :
    moment.civil.Valid :=
  valid_ofDayNumber moment.day

/-- What holds of digits and of the marks between them holds of the characters
of a written moment. -/
theorem forall_mem_write
    {holds : Char → Prop}
    (digits : ∀ {digit : Nat}, digit < 10 → holds (digitChar digit))
    (dash : holds '-') (colon : holds ':') (letter : holds 'T')
    (moment : DateTime) :
    ∀ char ∈ moment.write, holds char := by
  have number (width value : Nat) : ∀ char ∈ padded width value, holds char :=
    forall_mem_padded digits width value
  have year : ∀ char ∈ writeYear moment.civil.year, holds char := by
    rw [writeYear]
    split
    · exact List.forall_mem_cons.mpr ⟨dash, number _ _⟩
    · exact number _ _
  simp only [write, writeCivil, writeClock, List.forall_mem_append,
    List.forall_mem_cons]
  exact
    ⟨⟨⟨year, dash, number _ _⟩, dash, number _ _⟩, letter,
      ⟨number _ _, colon, number _ _⟩, colon, number _ _⟩

/-- The moment with some parts is the one that has these parts. -/
theorem ofParts?_eq_some_iff
    {date : Civil} {hour minute second nano : Nat} {moment : DateTime} :
    ofParts? date hour minute second nano = some moment ↔
      moment.civil = date ∧ moment.clock = (hour, minute, second) ∧
        moment.nano = nano := by
  rw [ofParts?, Option.ite_none_right_eq_some, ofSecond?_eq_some]
  constructor
  · rintro ⟨⟨valid, hours, minutes, seconds⟩, total, sameNano⟩
    have sameDay : moment.day = date.dayNumber := by
      rw [day, total]
      omega
    have within :
        moment.secondOfDay = hour * 3600 + minute * 60 + second := by
      rw [secondOfDay, total]
      omega
    refine ⟨?_, ?_, sameNano⟩
    · rw [civil, sameDay, ofDayNumber_dayNumber valid]
    · rw [clock, within, Prod.mk.injEq, Prod.mk.injEq]
      omega
  · rintro ⟨rfl, parts, sameNano⟩
    have seconds : moment.secondOfDay < 86400 := by
      rw [secondOfDay]
      omega
    rw [clock, Prod.mk.injEq, Prod.mk.injEq] at parts
    refine ⟨⟨moment.civil_valid, by omega⟩, ?_, sameNano⟩
    rw [civil, dayNumber_ofDayNumber, day]
    rw [secondOfDay] at parts
    omega

/-- A moment that is written is read as itself, without its nanoseconds. -/
theorem read?_write
    (moment : DateTime) :
    read? moment.write = some moment.truncate := by
  obtain ⟨lower, upper⟩ := yearOfDay_bounds moment.inUse
  have valid := moment.civil_valid
  have month : moment.civil.month < 10 ^ 2 := by
    have := valid.2.1
    omega
  have seconds : moment.secondOfDay < 86400 := by
    rw [secondOfDay]
    omega
  have hours : moment.clock.1 < 10 ^ 2 := by
    simp only [clock]
    omega
  have minutes : moment.clock.2.1 < 10 ^ 2 := by
    simp only [clock]
    omega
  have last : moment.clock.2.2 < 10 ^ 2 := by
    simp only [clock]
    omega
  have clock := readClock_writeClock hours minutes last []
  rw [List.append_nil] at clock
  rw [write, read?,
    @readCivil_writeCivil moment.civil lower upper month valid.day_lt]
  simp only [Option.bind_eq_bind, Option.bind_some, clock]
  exact ofParts?_eq_some_iff.mpr ⟨rfl, rfl, rfl⟩

end DateTime

end Calendar

end AmlExchange
