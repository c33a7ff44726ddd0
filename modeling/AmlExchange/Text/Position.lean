/-!
# Places in a text

A place is told three ways: the bytes before it in UTF-8, its line, and its
column.  A line feed begins the next line; every other character moves the
column on by one, however many bytes it takes.
-/

namespace AmlExchange.Text

/-- A place between two characters of a text. -/
structure Position where
  /-- The number of bytes before the place. -/
  offset : Nat
  /-- One more than the number of line feeds before the place. -/
  line : Nat
  /-- One more than the number of characters before it on its line. -/
  column : Nat
deriving DecidableEq, Repr, Inhabited

namespace Position

/-- The place before the first character. -/
def start : Position :=
  ⟨0, 1, 1⟩

/-- The place that stands for none. -/
def nowhere : Position :=
  ⟨0, 0, 0⟩

/-- The place just after a character that begins at this place. -/
def step (place : Position) (char : Char) : Position :=
  if char = '\n' then ⟨place.offset + char.utf8Size, place.line + 1, 1⟩
  else ⟨place.offset + char.utf8Size, place.line, place.column + 1⟩

/-- The place just after a text that begins at this place. -/
def past (place : Position) (text : List Char) : Position :=
  text.foldl step place

@[simp]
theorem past_nil (place : Position) : place.past [] = place :=
  rfl

@[simp]
theorem past_cons (place : Position) (char : Char) (text : List Char) :
    place.past (char :: text) = (place.step char).past text :=
  rfl

theorem past_append (place : Position) (left right : List Char) :
    place.past (left ++ right) = (place.past left).past right := by
  simp [past]

/-- The three numbers, separated by colons. -/
def render (place : Position) : String :=
  s!"{place.offset}:{place.line}:{place.column}"

end Position

/-- A stretch of a text. -/
structure Span where
  start : Position
  finish : Position
deriving DecidableEq, Repr, Inhabited

namespace Span

/-- The stretch that stands for none. -/
def nowhere : Span :=
  ⟨.nowhere, .nowhere⟩

/-- The stretch of no length at one place. -/
def point (place : Position) : Span :=
  ⟨place, place⟩

/-- Whether neither end names a line. -/
def isNowhere (span : Span) : Bool :=
  span.start.line == 0 && span.finish.line == 0

end Span

end AmlExchange.Text
