import AmlExchange.Text.Case

/-!
# Days of the week

The first of January of the year 1 was a Monday, so the count of a day gives
its place in the week.
-/

namespace AmlExchange.Calendar

inductive Weekday where
  | monday
  | tuesday
  | wednesday
  | thursday
  | friday
  | saturday
  | sunday
deriving DecidableEq, Repr

namespace Weekday

/-- All seven days, from Monday on. -/
def all : List Weekday :=
  [monday, tuesday, wednesday, thursday, friday, saturday, sunday]

/-- The English name of a day. -/
def name : Weekday → String
  | monday => "Monday"
  | tuesday => "Tuesday"
  | wednesday => "Wednesday"
  | thursday => "Thursday"
  | friday => "Friday"
  | saturday => "Saturday"
  | sunday => "Sunday"

/-- The day with a name, the case of its letters put aside. -/
def ofName? (text : List Char) : Option Weekday :=
  all.find? fun day => Text.sameIgnoringCase text day.name.toList

/-- The number of days from the Sunday before to this day. -/
def sinceSunday : Weekday → Int
  | sunday => 0
  | monday => 1
  | tuesday => 2
  | wednesday => 3
  | thursday => 4
  | friday => 5
  | saturday => 6

theorem ofName?_name (day : Weekday) : ofName? day.name.toList = some day := by
  cases day <;> decide

end Weekday

/-- How many days before a day its week began, for weeks that begin on
`first`. -/
def daysIntoWeek (first : Weekday) (count : Int) : Int :=
  (count + 1 - first.sinceSunday) % 7

end AmlExchange.Calendar
