import AmlExchange.Fault
import AmlExchange.Text.Case

/-!
# Periods of time

A relative date range is counted in days, weeks, months, quarters or years.
-/

namespace AmlExchange.DateRange

inductive Magnitude where
  | day
  | week
  | month
  | quarter
  | year
deriving DecidableEq, Repr

namespace Magnitude

/-- All periods, the shortest first. -/
def all : List Magnitude :=
  [day, week, month, quarter, year]

/-- The English name of a period. -/
def name : Magnitude → String
  | day => "Day"
  | week => "Week"
  | month => "Month"
  | quarter => "Quarter"
  | year => "Year"

/-- The period with a name, letter case put aside. -/
def ofName? (text : List Char) : Option Magnitude :=
  all.find? fun magnitude =>
    Text.sameIgnoringCase text magnitude.name.toList

/-- The period with a name; any other text makes no date range. -/
def read (text : String) : Except Fault Magnitude :=
  match ofName? text.toList with
  | some magnitude => .ok magnitude
  | none => .error (.ofKind .invalidDateRange)

theorem ofName?_name (magnitude : Magnitude) :
    ofName? magnitude.name.toList = some magnitude := by
  cases magnitude <;> decide

end Magnitude

end AmlExchange.DateRange
