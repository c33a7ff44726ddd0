import AmlExchange.Proofs.DateRange.Periods

/-!
# Ranges of one period

A range that begins and ends with the same period covers that period from its
first midnight to its last second.  Where the period lies in the calendar is
told by its number alone (`evaluate_period`), so the ranges of all offsets lie
one after the other without a gap, and the same period is found from every
moment, if the offset is counted from the period of that moment
(`periods_tile`).
-/

namespace AmlExchange.DateRange.Dynamic

open Calendar (DateTime InUse Weekday)

/-- The range of the one period that lies some periods after the present
one. -/
def period (magnitude : Magnitude) (firstDayOfWeek : Weekday)
    (offset : Int32) : Dynamic :=
  ⟨magnitude, offset, magnitude, offset, firstDayOfWeek⟩

/-- Whether an offset leads to a period and stands for no missing bound. -/
def Bounded (magnitude : Magnitude) (offset : Int32) : Prop :=
  magnitude = .year → -1000 < offset.toInt ∧ offset.toInt < 1000

instance (magnitude : Magnitude) (offset : Int32) :
    Decidable (Bounded magnitude offset) :=
  inferInstanceAs (Decidable (_ → _))

/-- The moment some seconds before the period with a number begins. -/
def boundary (magnitude : Magnitude) (firstDayOfWeek : Weekday)
    (number seconds : Int) : Except Fault (Option DateTime) := do
  let day ← checkedDay (magnitude.beginning firstDayOfWeek number)
  some <$> checkedSecond (day * 86400 - seconds)

/-- The bounds of the period with a number. -/
def wholePeriod (magnitude : Magnitude) (firstDayOfWeek : Weekday)
    (number : Int) : Except Fault (Option DateTime × Option DateTime) := do
  let lower ← boundary magnitude firstDayOfWeek number 0
  let upper ← boundary magnitude firstDayOfWeek (number + 1) 1
  .ok (lower, upper)

variable {magnitude : Magnitude} {firstDayOfWeek : Weekday}

/-! ## Evaluating the range of one period -/

theorem not_open_of_bounded
    {offset : Int32} (bounded : Bounded magnitude offset)
    (firstDayOfWeek : Weekday) :
    (period magnitude firstDayOfWeek offset).isStartOpen = false ∧
      (period magnitude firstDayOfWeek offset).isEndOpen = false := by
  by_cases year : magnitude = .year
  · have within := bounded year
    have lowest : (-openYears).toInt = -1000 := by decide
    have highest : openYears.toInt = 1000 := by decide
    simp only [isStartOpen, isEndOpen, period, Bool.and_eq_false_iff,
      decide_eq_false_iff_not, Int32.le_iff_toInt_le, lowest, highest]
    omega
  · simp [isStartOpen, isEndOpen, period, year]

/-- No day in use is so far from another one as the last of the 32-bit
numbers. -/
theorem not_inUse_beginning
    (now : DateTime) {offset : Int32} (last : offset = Int32.maxValue) :
    ¬ InUse
      (magnitude.beginning firstDayOfWeek
        (magnitude.numberOf firstDayOfWeek now.day + offset.toInt)) := by
  have inUse : InUse now.day := now.inUse
  have own := magnitude.beginning_numberOf firstDayOfWeek now.day
  have far : offset.toInt = 2147483647 := by
    rw [last]
    decide
  have apart :=
    @Magnitude.beginning_add_le magnitude firstDayOfWeek
      (magnitude.numberOf firstDayOfWeek now.day + 1)
      (magnitude.numberOf firstDayOfWeek now.day + offset.toInt) (by omega)
  simp only [InUse, Calendar.firstDay, Calendar.endDay,
    Calendar.daysBeforeYear] at inUse ⊢
  omega

section

variable {offset : Int32} {now : DateTime}

theorem lowerBound_period
    (bounded : Bounded magnitude offset)
    (counts :
      Counts magnitude firstDayOfWeek
        (magnitude.numberOf firstDayOfWeek now.day)) :
    (period magnitude firstDayOfWeek offset).lowerBound now =
      boundary magnitude firstDayOfWeek
        (magnitude.numberOf firstDayOfWeek now.day + offset.toInt) 0 := by
  have closed := (not_open_of_bounded bounded firstDayOfWeek).1
  rw [lowerBound, if_neg (Bool.not_eq_true _ ▸ closed), boundary]
  simp only [period, periodStart_eq counts, Int.sub_zero]

theorem upperBound_period
    (bounded : Bounded magnitude offset)
    (counts :
      Counts magnitude firstDayOfWeek
        (magnitude.numberOf firstDayOfWeek now.day))
    (notLast : offset ≠ Int32.maxValue) :
    (period magnitude firstDayOfWeek offset).upperBound now =
      boundary magnitude firstDayOfWeek
        (magnitude.numberOf firstDayOfWeek now.day + offset.toInt + 1)
        1 := by
  have closed := (not_open_of_bounded bounded firstDayOfWeek).2
  have successor : following offset = offset.toInt + 1 := if_neg notLast
  rw [upperBound, if_neg (Bool.not_eq_true _ ▸ closed), boundary]
  simp only [period, periodStart_eq counts, successor, Int.add_assoc]

/-- The range has the bounds of the period with its number. -/
theorem evaluate_period
    (bounded : Bounded magnitude offset)
    (counts :
      Counts magnitude firstDayOfWeek
        (magnitude.numberOf firstDayOfWeek now.day)) :
    (period magnitude firstDayOfWeek offset).evaluate now =
      wholePeriod magnitude firstDayOfWeek
        (magnitude.numberOf firstDayOfWeek now.day + offset.toInt) := by
  rw [evaluate, lowerBound_period bounded counts, wholePeriod]
  by_cases last : offset = Int32.maxValue
  · -- The upper bound is another one here, but the lower one is refused.
    rw [boundary, checkedDay, if_neg (not_inUse_beginning now last)]
    rfl
  · rw [upperBound_period bounded counts last]

/-- A range that has bounds is counted from a day in use. -/
theorem counts_of_evaluate
    (bounded : Bounded magnitude offset)
    {bounds : Option DateTime × Option DateTime}
    (found :
      (period magnitude firstDayOfWeek offset).evaluate now = .ok bounds) :
    Counts magnitude firstDayOfWeek
      (magnitude.numberOf firstDayOfWeek now.day) := by
  have closed := (not_open_of_bounded bounded firstDayOfWeek).1
  rw [evaluate, lowerBound, if_neg (Bool.not_eq_true _ ▸ closed)] at found
  cases start :
      periodStart firstDayOfWeek now.day magnitude offset.toInt with
  | error fault =>
      simp only [period, start] at found
      cases found
  | ok day => exact counts_of_periodStart start

end

/-! ## Whole periods -/

theorem checkedSecond_eq_ok
    {second : Int} {moment : DateTime}
    (checked : checkedSecond second = .ok moment) :
    moment.second = second ∧ moment.nano = 0 := by
  rw [checkedSecond] at checked
  split at checked
  · next found =>
      cases checked
      exact DateTime.ofSecond?_eq_some.mp found
  · cases checked

theorem boundary_eq_ok
    {number seconds : Int} {bound : Option DateTime}
    (found : boundary magnitude firstDayOfWeek number seconds = .ok bound) :
    InUse (magnitude.beginning firstDayOfWeek number) ∧
      ∃ moment, bound = some moment ∧
        moment.second =
          magnitude.beginning firstDayOfWeek number * 86400 - seconds ∧
        moment.nano = 0 := by
  rw [boundary, checkedDay] at found
  split at found
  · next inUse =>
      refine ⟨inUse, ?_⟩
      change some <$> checkedSecond _ = Except.ok bound at found
      cases checked : checkedSecond
          (magnitude.beginning firstDayOfWeek number * 86400 - seconds) with
      | error fault =>
          rw [checked] at found
          cases found
      | ok moment =>
          rw [checked] at found
          cases found
          exact ⟨moment, rfl, checkedSecond_eq_ok checked⟩
  · cases found

/-- Two bounds that are the first and the last second of a period. -/
structure Spans (magnitude : Magnitude) (firstDayOfWeek : Weekday)
    (number : Int) (lower upper : DateTime) : Prop where
  lower_second :
    lower.second = magnitude.beginning firstDayOfWeek number * 86400
  lower_nano : lower.nano = 0
  upper_second :
    upper.second =
      magnitude.beginning firstDayOfWeek (number + 1) * 86400 - 1
  upper_nano : upper.nano = 0
  inUse : InUse (magnitude.beginning firstDayOfWeek number)
  following : InUse (magnitude.beginning firstDayOfWeek (number + 1))

theorem spans_of_wholePeriod
    {number : Int} {bounds : Option DateTime × Option DateTime}
    (found : wholePeriod magnitude firstDayOfWeek number = .ok bounds) :
    ∃ lower upper, bounds = (some lower, some upper) ∧
      Spans magnitude firstDayOfWeek number lower upper := by
  rw [wholePeriod] at found
  cases first : boundary magnitude firstDayOfWeek number 0 with
  | error fault =>
      rw [first] at found
      cases found
  | ok start =>
      cases second : boundary magnitude firstDayOfWeek (number + 1) 1 with
      | error fault =>
          rw [first, second] at found
          cases found
      | ok finish =>
          rw [first, second] at found
          cases found
          obtain ⟨inUse, lower, rfl, begins, whole⟩ := boundary_eq_ok first
          obtain ⟨following, upper, rfl, ends, last⟩ := boundary_eq_ok second
          rw [Int.sub_zero] at begins
          exact
            ⟨lower, upper, rfl, begins, whole, ends, last, inUse, following⟩

namespace Spans

variable {number : Int} {lower upper : DateTime}

theorem lower_lt_upper
    (spans : Spans magnitude firstDayOfWeek number lower upper) :
    lower.second < upper.second := by
  have apart :=
    @Magnitude.beginning_add_le magnitude firstDayOfWeek number (number + 1)
      (by omega)
  rw [spans.lower_second, spans.upper_second]
  omega

theorem midnight
    (spans : Spans magnitude firstDayOfWeek number lower upper) :
    DateTime.midnight? lower.day = some lower := by
  rw [DateTime.midnight?, DateTime.ofSecond?_eq_some, DateTime.day,
    spans.lower_second]
  refine ⟨?_, spans.lower_nano⟩
  omega

/-- The moments within the bounds are those of the days of the period. -/
theorem within_iff
    (spans : Spans magnitude firstDayOfWeek number lower upper)
    {moment : DateTime} :
    lower.second ≤ moment.second ∧ moment.second ≤ upper.second ↔
      magnitude.numberOf firstDayOfWeek moment.day = number := by
  rw [Magnitude.numberOf_eq_iff, spans.lower_second, spans.upper_second,
    DateTime.day]
  omega

/-- The second after a period is the first of the next one. -/
theorem shift_upper
    (spans : Spans magnitude firstDayOfWeek number lower upper) :
    ∃ start, upper.shift? 1 = some start ∧
      boundary magnitude firstDayOfWeek (number + 1) 0 =
        .ok (some start) := by
  have whole :
      (magnitude.beginning firstDayOfWeek (number + 1) * 86400) / 86400 =
        magnitude.beginning firstDayOfWeek (number + 1) := by
    omega
  have fits :
      InUse
          ((magnitude.beginning firstDayOfWeek (number + 1) * 86400) /
            86400) ∧
        0 < 1000000000 := by
    rw [whole]
    exact ⟨spans.following, by decide⟩
  refine
    ⟨⟨magnitude.beginning firstDayOfWeek (number + 1) * 86400, 0, fits.1,
      fits.2⟩, ?_, ?_⟩
  · rw [DateTime.shift?, DateTime.ofSecond?_eq_some, spans.upper_second,
      spans.upper_nano]
    refine ⟨?_, rfl⟩
    dsimp only
    omega
  · rw [boundary, checkedDay_of_inUse spans.following]
    show some <$> checkedSecond (_ - 0) = _
    rw [Int.sub_zero, checkedSecond, DateTime.ofSecond?, dif_pos fits]
    rfl

end Spans

/-! ## The time line -/

/-- The ranges of one period of a kind tile the time line.  The range of an
offset begins at midnight and ends later.  That of the present period holds the
present second.  The second after a range is the first of the range of the next
offset.  And the range of any offset at a moment within a range is that of both
offsets together at the present moment. -/
theorem periods_tile
    (magnitude : Magnitude) (firstDayOfWeek : Weekday) (now : DateTime)
    {offset : Int32} (bounded : Bounded magnitude offset)
    {bounds : Option DateTime × Option DateTime}
    (found :
      (period magnitude firstDayOfWeek offset).evaluate now = .ok bounds) :
    ∃ lower upper, bounds = (some lower, some upper) ∧
      DateTime.midnight? lower.day = some lower ∧
      lower.second < upper.second ∧
      (offset = 0 →
        lower.second ≤ now.truncate.second ∧
          now.truncate.second ≤ upper.second) ∧
      (∃ start, upper.shift? 1 = some start ∧
        ∀ next, Bounded magnitude next → next.toInt = offset.toInt + 1 →
          (period magnitude firstDayOfWeek next).lowerBound now =
              .ok (some start) ∧
            ∀ others,
              (period magnitude firstDayOfWeek next).evaluate now =
                  .ok others →
                others.1 = some start) ∧
      ∀ moment : DateTime,
        lower.second ≤ moment.second → moment.second ≤ upper.second →
          ∀ further total, Bounded magnitude further →
            Bounded magnitude total →
              total.toInt = offset.toInt + further.toInt →
                (period magnitude firstDayOfWeek further).evaluate moment =
                  (period magnitude firstDayOfWeek total).evaluate now := by
  have counts := counts_of_evaluate bounded found
  rw [evaluate_period bounded counts] at found
  obtain ⟨lower, upper, rfl, spans⟩ := spans_of_wholePeriod found
  refine
    ⟨lower, upper, rfl, spans.midnight, spans.lower_lt_upper, ?_, ?_, ?_⟩
  · rintro rfl
    exact spans.within_iff.mpr (Int.add_zero _).symm
  · obtain ⟨start, shifted, reached⟩ := spans.shift_upper
    refine ⟨start, shifted, fun next closed successor => ?_⟩
    have begins :
        (period magnitude firstDayOfWeek next).lowerBound now =
          .ok (some start) := by
      rw [lowerBound_period closed counts, successor, ← Int.add_assoc,
        reached]
    refine ⟨begins, fun others evaluated => ?_⟩
    rw [evaluate, begins] at evaluated
    cases last : (period magnitude firstDayOfWeek next).upperBound now with
    | error fault =>
        rw [last] at evaluated
        cases evaluated
    | ok finish =>
        rw [last] at evaluated
        cases evaluated
        rfl
  · intro moment after before further total closed closedTotal sum
    have here := spans.within_iff.mp ⟨after, before⟩
    have countsHere :
        Counts magnitude firstDayOfWeek
          (magnitude.numberOf firstDayOfWeek moment.day) :=
      fun _ => here ▸ spans.inUse
    rw [evaluate_period closed countsHere,
      evaluate_period closedTotal counts, here, sum, Int.add_assoc]

/-- A Monday in June 2016, in the afternoon. -/
def afternoon : DateTime :=
  ⟨63602030534, 750000000, by decide, by decide⟩

/-- The week before that Monday. -/
theorem periods_tile_of_lastWeek :
    ∃ lower upper,
      (period .week .monday (-1)).evaluate afternoon =
        .ok (some lower, some upper) ∧
      lower.civil = ⟨2016, 6, 13⟩ ∧ upper.civil = ⟨2016, 6, 19⟩ ∧
      upper.clock = (23, 59, 59) ∧
      DateTime.midnight? lower.day = some lower ∧
      (period .week .monday 0).lowerBound afternoon =
        .ok (upper.shift? 1) ∧
      (period .week .monday 2).evaluate lower =
        (period .week .monday 1).evaluate afternoon := by
  have found :
      (period .week .monday (-1)).evaluate afternoon =
        .ok
          (some ⟨63601372800, 0, by decide, by decide⟩,
            some ⟨63601977599, 0, by decide, by decide⟩) :=
    rfl
  obtain
      ⟨lower, upper, same, midnight, ordered, -, ⟨start, shifted, next⟩,
        moved⟩ :=
    periods_tile .week .monday afternoon (by decide) found
  cases same
  refine
    ⟨_, _, found, by decide, by decide, by decide, midnight, ?_, ?_⟩
  · rw [shifted]
    exact (next 0 (by decide) (by decide)).1
  · exact
      moved _ (Int.le_refl _) (Int.le_of_lt ordered) 2 1 (by decide)
        (by decide) (by decide)

end AmlExchange.DateRange.Dynamic
