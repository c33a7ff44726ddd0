import AmlExchange.Calendar.DateTime
import AmlExchange.Calendar.Weekday
import AmlExchange.Condition
import AmlExchange.DateRange.Magnitude
import AmlExchange.Decimal.Integer
import AmlExchange.Text.Search

/-!
# Date ranges relative to the present

A range such as "last month" or "the next two weeks" runs from the beginning
of one period to the last second of another, both counted from the period that
holds the present moment.  A thousand years or more stand for no bound at all.
-/

namespace AmlExchange.DateRange

open Calendar (Civil DateTime Weekday)

/-- A range of whole periods around the present. -/
structure Dynamic where
  startMagnitude : Magnitude
  startOffset : Int32
  endMagnitude : Magnitude
  endOffset : Int32
  firstDayOfWeek : Weekday
deriving DecidableEq

namespace Dynamic

/-- The number of years that stands for no bound. -/
def openYears : Int32 :=
  1000

/-- The range without bounds. -/
def unbounded : Dynamic :=
  ⟨.year, -openYears, .year, openYears, .sunday⟩

/-- The range from the beginning of a period on. -/
def starting (magnitude : Magnitude) (offset : Int32) : Dynamic :=
  { unbounded with startMagnitude := magnitude, startOffset := offset }

/-- The range up to the end of a period. -/
def ending (magnitude : Magnitude) (offset : Int32) : Dynamic :=
  { unbounded with endMagnitude := magnitude, endOffset := offset }

/-- Whether a range has no lower bound. -/
def isStartOpen (range : Dynamic) : Bool :=
  range.startMagnitude == .year && decide (range.startOffset ≤ -openYears)

/-- Whether a range has no upper bound. -/
def isEndOpen (range : Dynamic) : Bool :=
  range.endMagnitude == .year && decide (openYears ≤ range.endOffset)

/-- The comparison that a range makes. -/
def condition (range : Dynamic) : Condition :=
  match range.isStartOpen, range.isEndOpen with
  | true, true => .undefined
  | true, false => .le
  | false, true => .ge
  | false, false => .between

/-- A day of the calendar in use, or the fault of a range that leaves it. -/
def checkedDay (day : Int) : Except Fault Int :=
  if Calendar.InUse day then .ok day
  else .error (.ofKind .invalidDateRange)

/-- The first day of the month that lies some months after a month. -/
def monthStart (year : Int) (month : Nat) (offset : Int) :
    Except Fault Int :=
  let total := year * 12 + Int.ofNat month - 1 + offset
  let first : Civil := ⟨total / 12, (total % 12 + 1).toNat, 1⟩
  checkedDay first.dayNumber

/-- The first day of the period that lies some periods after the one that
holds a day. -/
def periodStart (firstDayOfWeek : Weekday) (today : Int)
    (magnitude : Magnitude) (offset : Int) : Except Fault Int :=
  let date := Civil.ofDayNumber today
  match magnitude with
  | .day => checkedDay (today + offset)
  | .week => do
      let start ← checkedDay
        (today - Calendar.daysIntoWeek firstDayOfWeek today)
      checkedDay (start + 7 * offset)
  | .month => monthStart date.year date.month offset
  | .quarter =>
      monthStart date.year ((date.month - 1) / 3 * 3 + 1) (offset * 3)
  | .year => monthStart (date.year + offset) 1 0

/-- The second with a number, if its day is in use. -/
def checkedSecond (second : Int) : Except Fault DateTime :=
  match DateTime.ofSecond? second 0 with
  | some moment => .ok moment
  | none => .error (.ofKind .invalidDateRange)

/-- The number of the period after the one with a number; the last of the
32-bit numbers has no successor and stands for itself. -/
def following (offset : Int32) : Int :=
  if offset = Int32.maxValue then offset.toInt else offset.toInt + 1

/-- The lower bound at a present moment: the first second of the start
period. -/
def lowerBound (range : Dynamic) (now : DateTime) :
    Except Fault (Option DateTime) :=
  if range.isStartOpen then .ok none
  else do
    let day ← periodStart range.firstDayOfWeek now.day range.startMagnitude
      range.startOffset.toInt
    some <$> checkedSecond (day * 86400)

/-- The upper bound at a present moment: the last second of the end period,
which is the second before the following period begins. -/
def upperBound (range : Dynamic) (now : DateTime) :
    Except Fault (Option DateTime) :=
  if range.isEndOpen then .ok none
  else do
    let day ← periodStart range.firstDayOfWeek now.day range.endMagnitude
      (following range.endOffset)
    some <$> checkedSecond (day * 86400 - 1)

/-- Both bounds at a present moment. -/
def evaluate (range : Dynamic) (now : DateTime) :
    Except Fault (Option DateTime × Option DateTime) := do
  let lower ← range.lowerBound now
  let upper ← range.upperBound now
  .ok (lower, upper)

/-- The text that keeps a range on the server, in five or six parts.  The week
begins on Sunday unless the last part says otherwise. -/
def serialize (range : Dynamic) : String :=
  let bound (magnitude : Magnitude) (offset : Int32) : List Char :=
    magnitude.name.toList ++ '|' :: Decimal.writeInt offset.toInt
  let week :=
    if range.firstDayOfWeek = .sunday then []
    else '|' :: range.firstDayOfWeek.name.toList
  String.ofList <|
    "Dynamic|".toList ++ bound range.startMagnitude range.startOffset ++
      '|' :: bound range.endMagnitude range.endOffset ++ week

/-- The range that the four or five parts after the leading word give. -/
def ofParts? : List (List Char) → Option Dynamic
  | startMagnitude :: startOffset :: endMagnitude :: endOffset :: week => do
      let firstDayOfWeek ←
        match week with
        | [] => some Weekday.sunday
        | [day] => Weekday.ofName? day
        | _ => none
      some
        { startMagnitude := ← Magnitude.ofName? startMagnitude
          startOffset := ← Decimal.readInt32? startOffset
          endMagnitude := ← Magnitude.ofName? endMagnitude
          endOffset := ← Decimal.readInt32? endOffset
          firstDayOfWeek }
  | _ => none

/-- The range that a text keeps.  The leading word `Dynamic` may be missing,
letter case does not count, nor do blanks around a part. -/
def deserialize? (text : String) : Option Dynamic :=
  match (Text.split '|' text.toList).map Text.trim with
  | [] => none
  | first :: rest =>
      if Text.sameIgnoringCase first "dynamic".toList then ofParts? rest
      else ofParts? (first :: rest)

end Dynamic

end AmlExchange.DateRange
