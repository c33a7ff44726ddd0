import AmlExchange.Proofs.Text.Encoding

/-!
# Where a cursor stands

A cursor keeps its place byte by byte, and a byte that continues a character
leaves the column.  However a cursor is moved, its place is what counting the
bytes before it gives, and between two characters it is the place after the
characters before it (`place_of_moves`).
-/

namespace AmlExchange.Markup.ByteCursor

open Text (Position encode foldl_stepPlace_encode)

/-- A move of a cursor. -/
inductive Move where
  | advance
  | advanceBy (count : Nat)
  | skipSpacing
  | consume (byte : UInt8)

/-- The cursor after a move.  A byte that does not come next is not
consumed. -/
def after (cursor : ByteCursor) : Move → ByteCursor
  | .advance => cursor.advance
  | .advanceBy count => cursor.advanceBy count
  | .skipSpacing => cursor.skipSpacing
  | .consume byte => (cursor.consume? byte).getD cursor

/-- The bytes after the last line feed. -/
def lastLine (bytes : List UInt8) : List UInt8 :=
  (bytes.reverse.takeWhile (· ≠ 10)).reverse

/-- The place after some bytes, told by counting them. -/
def countedPlace (bytes : List UInt8) : Position :=
  ⟨bytes.length, 1 + bytes.count 10,
    1 + (lastLine bytes).countP fun byte => !isContinuation byte⟩

/-! ## Counting -/

/-- One more byte counted. -/
theorem countedPlace_append_singleton (bytes : List UInt8) (byte : UInt8) :
    countedPlace (bytes ++ [byte]) = stepPlace (countedPlace bytes) byte := by
  have line :
      lastLine (bytes ++ [byte]) =
        if byte = 10 then [] else lastLine bytes ++ [byte] := by
    rw [lastLine, List.reverse_append, List.reverse_singleton,
      List.singleton_append, List.takeWhile_cons]
    by_cases feed : byte = 10 <;> simp [feed, lastLine]
  by_cases feed : byte = 10
  · rw [if_pos feed] at line
    rw [stepPlace, if_pos feed, countedPlace, line, feed]
    simp [countedPlace, List.count_append, Nat.add_assoc]
  · rw [if_neg feed] at line
    rw [stepPlace, if_neg feed, countedPlace, line]
    cases continues : isContinuation byte <;>
      simp [countedPlace, List.count_append, List.countP_append,
        feed, continues, Nat.add_assoc]

theorem countedPlace_append (front bytes : List UInt8) :
    countedPlace (front ++ bytes) =
      bytes.foldl stepPlace (countedPlace front) := by
  induction bytes generalizing front with
  | nil => rw [List.append_nil, List.foldl_nil]
  | cons byte rest ih =>
      rw [List.append_cons, ih, countedPlace_append_singleton, List.foldl_cons]

/-- The place after a text. -/
theorem countedPlace_encode (text : List Char) :
    countedPlace (encode text) = Position.start.past text := by
  rw [← List.nil_append (encode text), countedPlace_append,
    foldl_stepPlace_encode]
  rfl

/-- Every number of a place is at most one more than the number of bytes. -/
theorem countedPlace_le (bytes : List UInt8) :
    (countedPlace bytes).line ≤ 1 + bytes.length ∧
      (countedPlace bytes).column ≤ 1 + bytes.length := by
  constructor
  · exact Nat.add_le_add_left List.count_le_length 1
  · have shorter : (lastLine bytes).length ≤ bytes.length := by
      rw [lastLine, List.length_reverse, ← bytes.length_reverse]
      exact (List.takeWhile_sublist _).length_le
    exact
      Nat.add_le_add_left
        (Nat.le_trans List.countP_le_length shorter) 1

/-! ## Moving -/

/-- Whether a cursor that stands among some bytes knows where. -/
structure Stands (bytes : List UInt8) (cursor : ByteCursor) : Prop where
  divides : bytes = cursor.passed.reverse ++ cursor.remaining
  place : cursor.place = countedPlace cursor.passed.reverse

variable {bytes : List UInt8} {cursor : ByteCursor}

theorem stands_ofBytes (bytes : List UInt8) :
    Stands bytes (ofBytes bytes) :=
  ⟨rfl, rfl⟩

theorem Stands.advance
    (stands : Stands bytes cursor) :
    Stands bytes cursor.advance := by
  unfold ByteCursor.advance
  split
  · exact stands
  · next byte rest next =>
      constructor
      · simp [stands.divides, next]
      · rw [List.reverse_cons, countedPlace_append_singleton, ← stands.place]

theorem Stands.advanceOver
    (stands : Stands bytes cursor) (passed : List UInt8) :
    Stands bytes (cursor.advanceOver passed) := by
  induction passed generalizing cursor with
  | nil => exact stands
  | cons _ _ ih => exact ih stands.advance

/-- Every move passes some of the bytes, one after the other. -/
theorem Stands.after
    (stands : Stands bytes cursor) (move : Move) :
    Stands bytes (cursor.after move) := by
  cases move with
  | advance => exact stands.advance
  | advanceBy count => exact stands.advanceOver _
  | skipSpacing => exact stands.advanceOver _
  | consume byte =>
      rw [ByteCursor.after, consume?]
      split
      · exact stands.advance
      · exact stands

theorem Stands.moves
    (stands : Stands bytes cursor) (moves : List Move) :
    Stands bytes (moves.foldl ByteCursor.after cursor) := by
  induction moves generalizing cursor with
  | nil => exact stands
  | cons move _ ih => exact ih (stands.after move)

/-- The offset of a place divides the bytes where the cursor does. -/
theorem Stands.offset
    (stands : Stands bytes cursor) :
    bytes.take cursor.place.offset = cursor.passed.reverse ∧
      bytes.drop cursor.place.offset = cursor.remaining := by
  have offset : cursor.place.offset = cursor.passed.reverse.length := by
    rw [stands.place, countedPlace]
  rw [offset, stands.divides]
  exact ⟨List.take_left, List.drop_left⟩

/-- However a cursor is moved over some bytes, it stays among them, and its
place is told by counting the bytes before it: the line by the line feeds, the
column by the bytes after the last of these that continue no character.  The
numbers fit into 32 bits if that of the bytes does with one to spare, and
between two characters the place is that after the characters before it. -/
theorem place_of_moves
    (bytes : List UInt8) (small : bytes.length < UInt32.size - 1)
    (moves : List Move) :
    let cursor := moves.foldl after (ofBytes bytes)
    let place := cursor.place
    place.offset ≤ bytes.length ∧
      cursor.remaining = bytes.drop place.offset ∧
      place = countedPlace (bytes.take place.offset) ∧
      place.line < UInt32.size ∧ place.column < UInt32.size ∧
      ∀ before behind : List Char, bytes = encode (before ++ behind) →
        place.offset = (encode before).length →
          place = Position.start.past before := by
  intro cursor place
  have stands := (stands_ofBytes bytes).moves moves
  obtain ⟨passed, remaining⟩ := stands.offset
  have counted : place = countedPlace (bytes.take place.offset) := by
    rw [passed]
    exact stands.place
  have within : place.offset ≤ bytes.length := by
    have length := congrArg (fun place => place.offset) counted
    dsimp only [countedPlace] at length
    rw [List.length_take] at length
    omega
  have bounds := countedPlace_le (bytes.take place.offset)
  rw [← counted, List.length_take] at bounds
  refine
    ⟨within, remaining.symm, counted, by omega, by omega,
      fun before behind whole length => ?_⟩
  rw [counted, length, whole, Text.encode_append, List.take_left,
    countedPlace_encode]

/-- A cursor that is moved into a character and then on past the end stands
after the text. -/
theorem place_of_moves_past_end :
    let bytes := encode "ä\nb".toList
    let moves : List Move :=
      [.advance, .consume 98, .skipSpacing, .advanceBy 9]
    let place := (moves.foldl after (ofBytes bytes)).place
    bytes.length < UInt32.size - 1 ∧ place.offset = 4 ∧
      place = Position.start.past "ä\nb".toList := by
  intro bytes moves place
  have small : bytes.length < UInt32.size - 1 := by decide
  have offset : place.offset = 4 := by decide
  obtain ⟨-, -, -, -, -, characters⟩ := place_of_moves bytes small moves
  exact ⟨small, offset, characters "ä\nb".toList [] rfl offset⟩

end AmlExchange.Markup.ByteCursor
