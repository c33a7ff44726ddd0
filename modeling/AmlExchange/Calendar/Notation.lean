import AmlExchange.Calendar.DateTime
import AmlExchange.Decimal.Integer

/-!
# Written dates

AML writes a moment as `2016-06-20T14:42:14`: four digits of the year, with a
minus sign before a negative year, and two digits for each other part.  Read
are this form, the same with a fraction of a second of at most 32 digits, the
same with a space in place of the `T`, and the date alone, which stands for its
first moment.
-/

namespace AmlExchange.Calendar

open AmlExchange.Decimal

/-- The digits of a number, after zeros up to a least width. -/
def padded (width value : Nat) : List Char :=
  List.replicate (width - (writeNat value).length) '0' ++ writeNat value

/-- A year in at least four digits, after a minus sign if it is negative. -/
def writeYear (year : Int) : List Char :=
  if year < 0 then '-' :: padded 4 year.natAbs else padded 4 year.natAbs

/-- A day in the form `2016-06-20`. -/
def writeCivil (date : Civil) : List Char :=
  writeYear date.year ++ '-' :: padded 2 date.month ++
    '-' :: padded 2 date.day

/-- A time of day in the form `14:42:14`. -/
def writeClock (hour minute second : Nat) : List Char :=
  padded 2 hour ++ ':' :: padded 2 minute ++ ':' :: padded 2 second

namespace DateTime

/-- A moment in the form `2016-06-20T14:42:14`. -/
def write (moment : DateTime) : List Char :=
  let (hour, minute, second) := moment.clock
  writeCivil moment.civil ++ 'T' :: writeClock hour minute second

end DateTime

/-- The number in an exact count of digits, and the text after them. -/
def readDigits (count : Nat) (text : List Char) : Option (Nat × List Char) :=
  let digits := text.take count
  if digits.length = count ∧ digits.all Char.isDigit then
    (readNat? 10 digits).map fun value => (value, text.drop count)
  else none

/-- The text after one character that it must begin with. -/
def readMark (mark : Char) : List Char → Option (List Char)
  | char :: rest => if char = mark then some rest else none
  | [] => none

/-- A year of four digits after an optional sign, and the text after it. -/
def readYear (text : List Char) : Option (Int × List Char) :=
  match text with
  | '-' :: rest =>
      (readDigits 4 rest).map fun (year, rest) => (-Int.ofNat year, rest)
  | '+' :: rest =>
      (readDigits 4 rest).map fun (year, rest) => (Int.ofNat year, rest)
  | _ => (readDigits 4 text).map fun (year, rest) => (Int.ofNat year, rest)

/-- A day in the form `2016-06-20`, and the text after it. -/
def readCivil (text : List Char) : Option (Civil × List Char) := do
  let (year, text) ← readYear text
  let (month, text) ← readDigits 2 (← readMark '-' text)
  let (day, text) ← readDigits 2 (← readMark '-' text)
  some (⟨year, month, day⟩, text)

/-- A time of day in the form `14:42:14`, and the text after it. -/
def readClock (text : List Char) :
    Option ((Nat × Nat × Nat) × List Char) := do
  let (hour, text) ← readDigits 2 text
  let (minute, text) ← readDigits 2 (← readMark ':' text)
  let (second, text) ← readDigits 2 (← readMark ':' text)
  some ((hour, minute, second), text)

/-- The number of digits that a fraction of a second may have. -/
def fractionDigits : Nat :=
  32

/-- The nanoseconds in the digits after the point of a second.  Digits after
the ninth are too fine to count. -/
def readFraction? (text : List Char) : Option Nat :=
  if text.isEmpty || fractionDigits < text.length ||
      !text.all Char.isDigit then
    none
  else readNat? 10 ((text ++ List.replicate 9 '0').take 9)

namespace DateTime

/-- The moment that a text gives in one of the four forms. -/
def read? (text : List Char) : Option DateTime := do
  let (date, text) ← readCivil text
  match text with
  | [] => ofParts? date 0 0 0 0
  | 'T' :: text =>
      let ((hour, minute, second), text) ← readClock text
      match text with
      | [] => ofParts? date hour minute second 0
      | '.' :: fraction =>
          let nano ← readFraction? fraction
          ofParts? date hour minute second nano
      | _ => none
  | ' ' :: text =>
      let ((hour, minute, second), text) ← readClock text
      match text with
      | [] => ofParts? date hour minute second 0
      | _ => none
  | _ => none

end DateTime

end AmlExchange.Calendar
