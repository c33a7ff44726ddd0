import AmlExchange.Calendar.Civil

/-!
# Dates with a time of day

The calendar in use runs from the year -9999 to the year 9999.  A date with a
time is the count of seconds since the first of January of the year 1 began,
and the nanoseconds since that second began.  A zoned date tells in addition
how many seconds its clock runs ahead of universal time.
-/

namespace AmlExchange.Calendar

/-- The count of the first day in use, in the year -9999. -/
def firstDay : Int :=
  daysBeforeYear (-9999)

/-- The count of the day after the last one in use, in the year 9999. -/
def endDay : Int :=
  daysBeforeYear 10000

/-- Whether a day is one of those in use. -/
def InUse (day : Int) : Prop :=
  firstDay ≤ day ∧ day < endDay

instance (day : Int) : Decidable (InUse day) :=
  inferInstanceAs (Decidable (_ ∧ _))

/-- A date and a time of day on some clock. -/
@[ext]
structure DateTime where
  /-- The seconds since the first of January of the year 1 began. -/
  second : Int
  /-- The nanoseconds since the second began. -/
  nano : Nat
  inUse : InUse (second / 86400)
  nano_lt : nano < 1000000000
deriving DecidableEq

namespace DateTime

/-- The moment a number of seconds after the first of January of the year 1
began, if its day is in use. -/
def ofSecond? (second : Int) (nano : Nat) : Option DateTime :=
  if fits : InUse (second / 86400) ∧ nano < 1000000000 then
    some ⟨second, nano, fits.1, fits.2⟩
  else
    none

/-- The first moment of a day, if the day is in use. -/
def midnight? (day : Int) : Option DateTime :=
  ofSecond? (day * 86400) 0

/-- The count of the day that a moment falls on. -/
def day (moment : DateTime) : Int :=
  moment.second / 86400

/-- The seconds from midnight to a moment. -/
def secondOfDay (moment : DateTime) : Nat :=
  (moment.second % 86400).toNat

/-- The hour, the minute and the second of a moment. -/
def clock (moment : DateTime) : Nat × Nat × Nat :=
  (moment.secondOfDay / 3600, moment.secondOfDay / 60 % 60,
    moment.secondOfDay % 60)

/-- The day of a moment by year, month and day of the month. -/
def civil (moment : DateTime) : Civil :=
  Civil.ofDayNumber moment.day

/-- The moment with the given parts, if all of them are in range. -/
def ofParts? (date : Civil) (hour minute second nano : Nat) :
    Option DateTime :=
  if date.Valid ∧ hour < 24 ∧ minute < 60 ∧ second < 60 then
    ofSecond?
      (date.dayNumber * 86400 + hour * 3600 + minute * 60 + second) nano
  else
    none

/-- The moment some seconds later, if its day is in use. -/
def shift? (moment : DateTime) (seconds : Int) : Option DateTime :=
  ofSecond? (moment.second + seconds) moment.nano

/-- The same moment without its nanoseconds. -/
def truncate (moment : DateTime) : DateTime :=
  ⟨moment.second, 0, moment.inUse, by decide⟩

theorem ofSecond?_second (moment : DateTime) :
    ofSecond? moment.second moment.nano = some moment := by
  simp [ofSecond?, moment.inUse, moment.nano_lt]

theorem ofSecond?_eq_some {second : Int} {nano : Nat} {moment : DateTime} :
    ofSecond? second nano = some moment ↔
      moment.second = second ∧ moment.nano = nano := by
  constructor
  · intro found
    simp only [ofSecond?] at found
    split at found
    · cases found
      exact ⟨rfl, rfl⟩
    · cases found
  · rintro ⟨rfl, rfl⟩
    exact ofSecond?_second moment

end DateTime

/-- A date and time on a clock that runs a fixed number of seconds ahead of
universal time. -/
structure ZonedDateTime where
  /-- What the clock shows. -/
  reading : DateTime
  /-- The seconds by which the clock runs ahead of universal time. -/
  offset : Int
deriving DecidableEq

namespace ZonedDateTime

/-- The seconds of universal time. -/
def universalSecond (moment : ZonedDateTime) : Int :=
  moment.reading.second - moment.offset

/-- The same moment on the clock of another zone.  A moment whose day there is
out of use stays on its own clock. -/
def toZone (moment : ZonedDateTime) (offset : Int) : DateTime :=
  (moment.reading.shift? (offset - moment.offset)).getD moment.reading

end ZonedDateTime

end AmlExchange.Calendar
