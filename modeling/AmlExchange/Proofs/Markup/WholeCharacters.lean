import AmlExchange.Markup.ByteReader
import AmlExchange.Proofs.Markup.CursorPlaces

/-!
# Slices of whole characters

The bytes that a reader looks for are no part of a longer character, and its
tests come out alike on all bytes of one.  So a cursor that stands between two
characters moves on to a place between two characters (`Tracks.over`), and a
slice from one such place to another is taken for the text between them
(`Tracks.takes`).
-/

namespace AmlExchange.Markup

open Text (Position Tells encode tells_of_ascii)

/-- Whether a slice is a stretch of whole characters of a text. -/
def Slice.IsOf (slice : Slice) (text : List Char) : Prop :=
  ∃ before taken after, text = before ++ taken ++ after ∧
    slice.first = (encode before).length ∧ slice.bytes = encode taken

/-- Whether a slice begins after another one, and not within it. -/
def Slice.Follows (later earlier : Slice) : Prop :=
  earlier.first < later.first ∧ earlier.last ≤ later.first

/-- Whether slices, the latest first, are stretches of a text, one after the
other. -/
structure Sound (text : List Char) (slices : List Slice) : Prop where
  whole : ∀ slice ∈ slices, slice.IsOf text
  rising : slices.Pairwise Slice.Follows

/-- A cursor between two characters. -/
def ByteCursor.between (before rest : List Char) : ByteCursor :=
  ⟨(encode before).reverse, encode rest, Position.start.past before⟩

/-- Whether a reader of bytes stands where a reader of characters does. -/
structure Tracks (text : List Char) (reader : ByteReader)
    (state : Reader) : Prop where
  depth : reader.depth = state.depth
  openNames : reader.openNames = state.openNames
  between : ∃ before, text = before ++ state.input.rest ∧
    state.input.place = Position.start.past before ∧
    reader.cursor = .between before state.input.rest
  sound : Sound text reader.slices
  passed : ∀ slice ∈ reader.slices,
    slice.first < reader.cursor.place.offset ∧
      slice.last ≤ reader.cursor.place.offset

theorem offset_past_start (before : List Char) :
    (Position.start.past before).offset = (encode before).length :=
  congrArg Position.offset (ByteCursor.countedPlace_encode before).symm

namespace ByteCursor

theorem advanceOver_between (before stretch rest : List Char) :
    (between before (stretch ++ rest)).advanceOver (encode stretch) =
      between (before ++ stretch) rest := by
  rw [advanceOver_eq (Text.encode_append stretch rest)]
  simp [between, Text.foldl_stepPlace_encode, Position.past_append]

theorem slice_between (before stretch rest : List Char) :
    (between (before ++ stretch) rest).slice
        (Position.start.past before).offset =
      ⟨(encode before).length, encode stretch⟩ := by
  simp [slice, sliceFrom, between, offset_past_start]

end ByteCursor

/-! ## Tests of bytes -/

theorem tells_isNameStart : Tells isNameStartByte isNameStart := by
  refine tells_of_ascii true (by decide) ?_ ?_
  · intro byte large
    simp only [isNameStartByte, Bool.or_eq_true, decide_eq_true_eq]
    exact .inr large
  · intro char beyond
    simp only [isNameStart, Bool.or_eq_true, decide_eq_true_eq]
    exact .inr beyond

theorem tells_isNameChar : Tells isNameByte isNameChar := by
  refine tells_of_ascii true (by decide) ?_ ?_
  · intro byte large
    simp only [isNameByte, isNameStartByte, Bool.or_eq_true, decide_eq_true_eq]
    exact .inl (.inl (.inl (.inr large)))
  · intro char beyond
    simp only [isNameChar, isNameStart, Bool.or_eq_true, decide_eq_true_eq]
    exact .inl (.inl (.inl (.inr beyond)))

theorem tells_isSpacing : Tells ByteCursor.isSpacing Text.isSpacing := by
  refine tells_of_ascii false (by decide) ?_ ?_
  · intro byte large
    refine Bool.eq_false_iff.mpr fun spacing => ?_
    simp only [ByteCursor.isSpacing, Bool.or_eq_true, beq_iff_eq] at spacing
    rcases spacing with ((rfl | rfl) | rfl) | rfl <;>
      exact absurd large (by decide)
  · intro char beyond
    refine Bool.eq_false_iff.mpr fun spacing => ?_
    simp only [Text.isSpacing, Bool.or_eq_true, beq_iff_eq] at spacing
    rcases spacing with ((rfl | rfl) | rfl) | rfl <;>
      exact absurd beyond (by decide)

theorem tells_eq {mark : Char} (ascii : mark.toNat < 128) :
    Tells (· == mark.toUInt8) (· == mark) := by
  have code : mark.toUInt8.toNat = mark.toNat := by
    rw [Char.toUInt8, UInt32.toNat_toUInt8]
    exact Nat.mod_eq_of_lt (Nat.lt_trans ascii (by decide))
  have codes : ∀ number < 128, (Char.ofNat number).toNat = number := by decide
  refine tells_of_ascii false (fun number small => ?_) ?_ ?_
  · rw [Bool.eq_iff_iff, beq_iff_eq, beq_iff_eq, ← UInt8.toNat_inj,
      ← Char.toNat_inj, code, UInt8.toNat_ofNat', codes number small,
      Nat.mod_eq_of_lt (by omega)]
  · intro byte large
    rw [beq_eq_false_iff_ne, Ne, ← UInt8.toNat_inj]
    omega
  · intro char beyond
    rw [beq_eq_false_iff_ne, Ne, ← Char.toNat_inj]
    omega

/-- One byte of a character tells whether it is a certain small one. -/
theorem eq_mark_iff {mark char : Char} {byte : UInt8}
    (ascii : mark.toNat < 128) (member : byte ∈ String.utf8EncodeChar char) :
    byte = mark.toUInt8 ↔ char = mark := by
  have same := tells_eq ascii char byte member
  rwa [Bool.eq_iff_iff, beq_iff_eq, beq_iff_eq] at same

theorem tells_ne {mark : Char} (ascii : mark.toNat < 128) :
    Tells (· ≠ mark.toUInt8) (· ≠ mark) := by
  intro char byte member
  simp only [decide_not, eq_mark_iff ascii member]

/-! ## Standing between two characters -/

section

variable {text : List Char} {reader : ByteReader} {state : Reader}

theorem Tracks.remaining (tracks : Tracks text reader state) :
    reader.cursor.remaining = encode state.input.rest := by
  obtain ⟨before, -, -, cursor⟩ := tracks.between
  rw [cursor]
  rfl

theorem Tracks.place (tracks : Tracks text reader state) :
    reader.cursor.place = state.input.place := by
  obtain ⟨before, -, place, cursor⟩ := tracks.between
  rw [cursor, place]
  rfl

/-- Both readers change their open elements alike. -/
theorem Tracks.nest (tracks : Tracks text reader state)
    (change : List String → List String) :
    Tracks text { reader with openNames := change reader.openNames }
      { state with openNames := change state.openNames } :=
  ⟨tracks.depth, congrArg change tracks.openNames, tracks.between,
    tracks.sound, tracks.passed⟩

/-- Both readers move on over the same stretch. -/
theorem Tracks.over {next : Input} {stretch : List Char}
    (tracks : Tracks text reader state)
    (leads : Input.Leads state.input next stretch) :
    Tracks text
      (reader.moveTo (reader.cursor.advanceOver (encode stretch)))
      { state with input := next } := by
  obtain ⟨before, whole, place, cursor⟩ := tracks.between
  have moved :
      reader.cursor.advanceOver (encode stretch) =
        .between (before ++ stretch) next.rest := by
    rw [cursor, leads.1, ByteCursor.advanceOver_between]
  have farther :
      reader.cursor.place.offset ≤
        (reader.cursor.advanceOver (encode stretch)).place.offset := by
    rw [moved, cursor]
    simp [ByteCursor.between, offset_past_start]
  refine ⟨tracks.depth, tracks.openNames, ⟨before ++ stretch, ?_, ?_, moved⟩,
    tracks.sound, fun slice member => ?_⟩
  · rw [whole, leads.1, List.append_assoc]
  · rw [leads.2, place, Position.past_append]
  · have passed := tracks.passed slice member
    exact
      ⟨Nat.lt_of_lt_of_le passed.1 farther,
        Nat.le_trans passed.2 farther⟩

/-- Both readers move on over a mark. -/
theorem Tracks.advanceBy (tracks : Tracks text reader state)
    (mark : List Char) (front : mark <+: state.input.rest) :
    Tracks text
      (reader.moveTo (reader.cursor.advanceBy (encode mark).length))
      { state with input := state.input.drop mark.length } := by
  obtain ⟨rest, shape⟩ := front
  have stretch : state.input.rest.take mark.length = mark := by
    rw [← shape, List.take_left]
  have moved := tracks.over (Input.leads_drop state.input mark.length)
  rw [stretch] at moved
  rwa [ByteCursor.advanceBy, tracks.remaining, ← shape, Text.encode_append,
    List.take_left]

theorem Tracks.advance (tracks : Tracks text reader state)
    {char : Char} {rest : List Char}
    (front : state.input.rest = char :: rest) (ascii : char.toNat < 128) :
    Tracks text (reader.moveTo reader.cursor.advance)
      { state with input := state.input.drop 1 } := by
  obtain ⟨lead, more, bytes, -⟩ := Text.exists_lead char
  have single :=
    Text.utf8EncodeChar_of_mem ascii (bytes ▸ List.mem_cons_self)
  have moved := tracks.over (Input.leads_drop state.input 1)
  rwa [front, List.take_succ_cons, List.take_zero, Text.encode_cons, single]
    at moved

/-- Both readers move on over what a test admits. -/
theorem Tracks.advanceWhile (tracks : Tracks text reader state)
    {byteTest : UInt8 → Bool} {test : Char → Bool}
    (tells : Tells byteTest test) :
    Tracks text
      (reader.moveTo (reader.cursor.advanceWhile byteTest))
      { state with input := state.input.dropWhile test } := by
  have moved := tracks.over (Input.leads_dropWhile state.input test)
  rwa [← Text.takeWhile_encode tells, ← tracks.remaining] at moved

theorem Tracks.current_none (tracks : Tracks text reader state)
    (atEnd : state.input.rest = []) :
    reader.cursor.current? = none := by
  rw [ByteCursor.current?, tracks.remaining, atEnd]
  rfl

theorem Tracks.exists_current (tracks : Tracks text reader state)
    {char : Char} {rest : List Char}
    (front : state.input.rest = char :: rest) :
    ∃ byte ∈ String.utf8EncodeChar char,
      reader.cursor.current? = some byte := by
  obtain ⟨lead, more, bytes, -⟩ := Text.exists_lead char
  refine ⟨lead, bytes ▸ List.mem_cons_self, ?_⟩
  rw [ByteCursor.current?, tracks.remaining, front, Text.encode_cons, bytes]
  rfl

/-- A slice taken for text between two places where both readers stand. -/
theorem Tracks.takes (tracks : Tracks text reader state)
    {middle next : Input} {stretch more : List Char}
    (leads : Input.Leads state.input middle stretch)
    (goesOn : Input.Leads middle next more)
    (moved : stretch ++ more ≠ []) :
    let here := reader.cursor.advanceOver (encode stretch)
    let slice := here.slice reader.cursor.place.offset
    let last := reader.moveTo (here.advanceOver (encode more))
    ByteReader.takeText slice last =
        .ok (String.ofList stretch) (last.noting slice) ∧
      Tracks text (last.noting slice) { state with input := next } := by
  intro here slice last
  obtain ⟨before, whole, place, cursor⟩ := tracks.between
  have middleCursor :
      here = .between (before ++ stretch) middle.rest := by
    simp only [here]
    rw [cursor, leads.1, ByteCursor.advanceOver_between]
  have lastCursor :
      here.advanceOver (encode more) =
        .between (before ++ stretch ++ more) next.rest := by
    rw [middleCursor, goesOn.1, ByteCursor.advanceOver_between]
  have sliced : slice = ⟨(encode before).length, encode stretch⟩ := by
    simp only [slice]
    rw [middleCursor, tracks.place, place]
    exact ByteCursor.slice_between before stretch middle.rest
  have isText : slice.text? = some (String.ofList stretch) := by
    rw [sliced, Slice.text?, Text.fromUTF8?_encode]
  have further : Tracks text last { state with input := next } :=
    (tracks.over leads).over goesOn
  refine
    ⟨by rw [ByteReader.takeText, isText], further.depth, further.openNames,
      further.between, ⟨?_, ?_⟩, ?_⟩
  · refine List.forall_mem_cons.mpr ⟨?_, tracks.sound.whole⟩
    rw [sliced]
    exact
      ⟨before, stretch, middle.rest,
        by rw [whole, leads.1, List.append_assoc], rfl, rfl⟩
  · exact List.pairwise_cons.mpr
      ⟨fun earlier member => tracks.passed earlier member,
        tracks.sound.rising⟩
  · refine List.forall_mem_cons.mpr ⟨?_, further.passed⟩
    have some_ := List.length_pos_iff.mpr (Text.encode_ne_nil moved)
    simp only [last, ByteReader.noting, ByteReader.moveTo]
    rw [sliced, lastCursor, ByteCursor.between, offset_past_start]
    simp only [Slice.last, Text.encode_append, List.length_append] at some_ ⊢
    omega

/-- What a test admits, taken for text. -/
theorem Tracks.takesWhile (tracks : Tracks text reader state)
    {byteTest : UInt8 → Bool} {test : Char → Bool}
    (tells : Tells byteTest test)
    (moved : state.input.rest.takeWhile test ≠ []) :
    let cursor := reader.cursor.advanceWhile byteTest
    let slice := cursor.slice reader.cursor.place.offset
    let last := (reader.moveTo cursor).noting slice
    ByteReader.takeText slice (reader.moveTo cursor) =
        .ok (String.ofList (state.input.rest.takeWhile test)) last ∧
      Tracks text last
        { state with input := state.input.dropWhile test } := by
  have taken := tracks.takes (Input.leads_dropWhile state.input test)
    (.refl _) (by rwa [List.append_nil])
  rwa [← Text.takeWhile_encode tells, ← tracks.remaining] at taken

end

end AmlExchange.Markup
