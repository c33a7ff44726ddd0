import AmlExchange.DateRange.Dynamic
import AmlExchange.DateRange.Static
import AmlExchange.Guid

/-!
# Values

A parameter, and the content of an element, is a value of one of a few kinds.
-/

namespace AmlExchange

open Calendar (DateTime ZonedDateTime)

/-- What a parameter or the content of an element holds. -/
inductive Value where
  | null
  | bool (value : Bool)
  | int (value : Int64)
  | float (value : Float)
  | text (value : String)
  /-- A moment on the client's clock. -/
  | dateTime (value : DateTime)
  /-- A moment on a clock that is named with it. -/
  | zoned (value : ZonedDateTime)
  | guid (value : Guid)
  | list (values : List Value)
  | dynamicRange (range : DateRange.Dynamic)
  | staticRange (range : DateRange.Static)

namespace Value

instance : Inhabited Value :=
  ⟨null⟩

/-- Whether there is no value. -/
def isNull : Value → Bool
  | null => true
  | _ => false

/-- Whether a value is a whole or a floating-point number. -/
def isNumber : Value → Bool
  | int _ | float _ => true
  | _ => false

/-- Whether a value is a list of numbers, and not the empty one. -/
def isNumericList : Value → Bool
  | list values => !values.isEmpty && values.all isNumber
  | _ => false

/-- The text of a value that is a text. -/
def text? : Value → Option String
  | text value => some value
  | _ => none

/-- The members of a value that is a list. -/
def list? : Value → Option (List Value)
  | list values => some values
  | _ => none

/-- A value that may be missing. -/
def ofOption : Option Value → Value
  | some value => value
  | none => null

end Value

end AmlExchange
