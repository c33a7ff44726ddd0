import AmlExchange.Calendar.Notation
import AmlExchange.Decimal.Floating
import AmlExchange.Value

/-!
# Values as AML text

A locale says in which language and on which clocks a server and its client
work.  Dates are written on the server's clock and, unless they name their
own, are meant on the client's.  `format` gives the text of any value.
-/

namespace AmlExchange

open Calendar (DateTime ZonedDateTime)

/-- The language and the clocks of a server and its client. -/
structure Locale where
  language : String
  name : String
  /-- The seconds by which the server's clock is ahead of universal time. -/
  serverOffset : Int
  /-- The seconds by which the client's clock is ahead of universal time. -/
  clientOffset : Int
  /-- The present moment on the client's clock. -/
  now : DateTime
deriving DecidableEq

namespace Locale

/-- A moment on the client's clock, together with that clock. -/
def onClientClock (locale : Locale) (moment : DateTime) : ZonedDateTime :=
  ⟨moment, locale.clientOffset⟩

/-- The AML text of a moment: its reading on the server's clock. -/
def formatZoned (locale : Locale) (moment : ZonedDateTime) : List Char :=
  (moment.toZone locale.serverOffset).write

/-- The AML text of a moment on the client's clock. -/
def formatClient (locale : Locale) (moment : DateTime) : List Char :=
  locale.formatZoned (locale.onClientClock moment)

/-- The AML text of two bounds, of the one that exists, or of none. -/
def formatBounds (locale : Locale) :
    Option DateTime → Option DateTime → List Char
  | some lower, some upper =>
      locale.formatClient lower ++ " and ".toList ++
        locale.formatClient upper
  | some bound, none | none, some bound => locale.formatClient bound
  | none, none => []

/-- The AML text of a relative range: its bounds at the present moment, or its
definition if it leaves the calendar. -/
def formatDynamic (locale : Locale) (range : DateRange.Dynamic) :
    List Char :=
  match range.evaluate locale.now with
  | .ok (lower, upper) => locale.formatBounds lower upper
  | .error _ => range.serialize.toList

/-- Texts one after the other, with a comma between any two. -/
def joined : List (List Char) → List Char
  | [] => []
  | [text] => text
  | text :: rest => text ++ ',' :: joined rest

mutual

/-- The AML text of a value, as characters. -/
def formatChars (locale : Locale) : Value → List Char
  | .null => []
  | .bool value => if value then ['1'] else ['0']
  | .int value => Decimal.writeInt value.toInt
  | .float value => Decimal.writeFloat value
  | .text value => value.toList
  | .dateTime value => locale.formatClient value
  | .zoned value => locale.formatZoned value
  | .guid value => value.write
  | .list values => joined (formatMembers locale values)
  | .dynamicRange range => locale.formatDynamic range
  | .staticRange range => locale.formatBounds range.lower range.upper

/-- The AML texts of the members of a list. -/
def formatMembers (locale : Locale) : List Value → List (List Char)
  | [] => []
  | value :: rest => formatChars locale value :: formatMembers locale rest

end

/-- The AML text of a value. -/
def format (locale : Locale) (value : Value) : String :=
  String.ofList (locale.formatChars value)

/-- A text is its own AML text. -/
@[simp]
theorem format_text (locale : Locale) (text : String) :
    locale.format (.text text) = text := by
  simp [format, formatChars]

end Locale

end AmlExchange
