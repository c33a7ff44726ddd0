import AmlExchange.Text.Position

/-!
# Moving over bytes

A cursor moves over the bytes of a text and keeps its place.  Bytes that
continue a character do not move the column, so that the place between two
characters is the same whether it is reached by bytes or by characters.
-/

namespace AmlExchange.Markup

open Text (Position)

/-- A place among the bytes of a text. -/
structure ByteCursor where
  /-- The bytes passed, the latest first. -/
  passed : List UInt8
  remaining : List UInt8
  place : Position
deriving DecidableEq

namespace ByteCursor

/-- The cursor before the first byte. -/
def ofBytes (bytes : List UInt8) : ByteCursor :=
  ⟨[], bytes, .start⟩

/-- Whether a byte continues the character before it. -/
def isContinuation (byte : UInt8) : Bool :=
  0x80 ≤ byte.toNat && byte.toNat < 0xC0

/-- The place after a byte. -/
def stepPlace (place : Position) (byte : UInt8) : Position :=
  if byte = 10 then ⟨place.offset + 1, place.line + 1, 1⟩
  else if isContinuation byte then { place with offset := place.offset + 1 }
  else ⟨place.offset + 1, place.line, place.column + 1⟩

/-- Whether a byte is a space, a tab, a return or a line feed. -/
def isSpacing (byte : UInt8) : Bool :=
  byte == 32 || byte == 9 || byte == 13 || byte == 10

/-- The byte at the cursor. -/
def current? (cursor : ByteCursor) : Option UInt8 :=
  cursor.remaining.head?

/-- Whether some bytes come next. -/
def startsWith (cursor : ByteCursor) (bytes : List UInt8) : Bool :=
  bytes.isPrefixOf cursor.remaining

/-- The cursor after one byte; at the end it stays. -/
def advance (cursor : ByteCursor) : ByteCursor :=
  match cursor.remaining with
  | [] => cursor
  | byte :: rest =>
      ⟨byte :: cursor.passed, rest, stepPlace cursor.place byte⟩

/-- The cursor after the bytes of a list, of which it is known that they come
next. -/
def advanceOver (cursor : ByteCursor) : List UInt8 → ByteCursor
  | [] => cursor
  | _ :: rest => cursor.advance.advanceOver rest

/-- The cursor after a number of bytes, or at the end if fewer remain. -/
def advanceBy (cursor : ByteCursor) (count : Nat) : ByteCursor :=
  cursor.advanceOver (cursor.remaining.take count)

/-- The cursor at the next byte that a test refuses. -/
def advanceWhile (cursor : ByteCursor) (test : UInt8 → Bool) : ByteCursor :=
  cursor.advanceOver (cursor.remaining.takeWhile test)

/-- The cursor at the next byte that is not spacing. -/
def skipSpacing (cursor : ByteCursor) : ByteCursor :=
  cursor.advanceWhile isSpacing

/-- The cursor after one byte if it is the one given. -/
def consume? (cursor : ByteCursor) (byte : UInt8) : Option ByteCursor :=
  if cursor.current? = some byte then some cursor.advance else none

/-- Whether no byte remains. -/
def atEnd (cursor : ByteCursor) : Bool :=
  cursor.remaining.isEmpty

/-- The bytes from an earlier number of bytes up to the cursor. -/
def sliceFrom (cursor : ByteCursor) (first : Nat) : List UInt8 :=
  cursor.passed.reverse.drop first

/-- The bytes before the first place where a mark comes next. -/
def before? (mark : List UInt8) : List UInt8 → Option (List UInt8)
  | [] => none
  | byte :: rest =>
      if mark.isPrefixOf (byte :: rest) then some []
      else (before? mark rest).map (byte :: ·)

/-- A cursor passes the bytes that come next. -/
theorem advanceOver_eq {cursor : ByteCursor} {bytes rest : List UInt8}
    (next : cursor.remaining = bytes ++ rest) :
    cursor.advanceOver bytes =
      ⟨bytes.reverse ++ cursor.passed, rest,
        bytes.foldl stepPlace cursor.place⟩ := by
  induction bytes generalizing cursor with
  | nil =>
      rw [List.nil_append] at next
      rw [← next]
      rfl
  | cons byte more ih =>
      have step : cursor.advance =
          ⟨byte :: cursor.passed, more ++ rest,
            stepPlace cursor.place byte⟩ := by
        rw [advance, next]
        rfl
      rw [advanceOver, ih (congrArg remaining step), step]
      simp

@[simp]
theorem remaining_advance (cursor : ByteCursor) :
    cursor.advance.remaining = cursor.remaining.tail := by
  unfold advance
  split
  · next none => rw [none, List.tail_nil]
  · next byte rest shape => rw [shape, List.tail_cons]

@[simp]
theorem remaining_advanceOver (cursor : ByteCursor) (bytes : List UInt8) :
    (cursor.advanceOver bytes).remaining =
      cursor.remaining.drop bytes.length := by
  induction bytes generalizing cursor with
  | nil => rfl
  | cons byte more ih =>
      rw [advanceOver, ih, remaining_advance, List.length_cons, List.drop_tail]

@[simp]
theorem remaining_advanceBy (cursor : ByteCursor) (count : Nat) :
    (cursor.advanceBy count).remaining = cursor.remaining.drop count := by
  rw [advanceBy, remaining_advanceOver, List.length_take]
  rcases Nat.le_total count cursor.remaining.length with within | beyond
  · rw [Nat.min_eq_left within]
  · rw [Nat.min_eq_right beyond, List.drop_length,
      List.drop_of_length_le beyond]

@[simp]
theorem remaining_advanceWhile (cursor : ByteCursor) (test : UInt8 → Bool) :
    (cursor.advanceWhile test).remaining =
      cursor.remaining.dropWhile test := by
  rw [advanceWhile, remaining_advanceOver]
  induction cursor.remaining with
  | nil => rfl
  | cons byte rest ih =>
      cases passes : test byte <;> simp [passes, ih]

end ByteCursor

end AmlExchange.Markup
