import AmlExchange.Markup.ByteCursor
import AmlExchange.Markup.Reader

/-!
# Reading markup by its bytes

Markup is also read by the bytes of a text.  A cursor moves over them one by
one and stops at the bytes that markup is made of; what lies between two of its
places is a slice, which is taken for text.  A slice that does not consist of
whole characters is no text and breaks the reading off.  Every step but the
last moves the cursor on, so that reading ends.
-/

namespace AmlExchange.Markup

open Text (Position)

/-- Some of the bytes of a text, one after the other. -/
structure Slice where
  /-- The number of bytes before the slice. -/
  first : Nat
  bytes : List UInt8
deriving DecidableEq, Repr

namespace Slice

/-- The number of bytes before the end of the slice. -/
def last (slice : Slice) : Nat :=
  slice.first + slice.bytes.length

/-- The text that has these bytes. -/
def text? (slice : Slice) : Option String :=
  String.fromUTF8? slice.bytes.toByteArray

end Slice

/-- The bytes of a text. -/
def bytesOf (text : String) : List UInt8 :=
  text.toByteArray.data.toList

namespace ByteCursor

/-- The slice from an earlier number of bytes up to the cursor. -/
def slice (cursor : ByteCursor) (first : Nat) : Slice :=
  ⟨first, cursor.sliceFrom first⟩

end ByteCursor

/-- Whether a name may begin with the character that a byte begins. -/
def isNameStartByte (byte : UInt8) : Bool :=
  (65 ≤ byte && byte ≤ 90) || (97 ≤ byte && byte ≤ 122) || byte == 95 ||
    byte == 58 || 128 ≤ byte

/-- Whether a name may go on with a byte. -/
def isNameByte (byte : UInt8) : Bool :=
  isNameStartByte byte || (48 ≤ byte && byte ≤ 57) || byte == 45 || byte == 46

/-- What breaks reading by bytes off. -/
inductive Halt where
  | flaw (fault : Fault)
  /-- A slice is no text. -/
  | noText (place : Position)

/-- The fault that is reported. -/
def Halt.fault : Halt → Fault
  | .flaw fault => fault
  | .noText place => .worded .invalidToken (.point place) "invalid utf-8"

/-- The state between two bytes. -/
structure ByteReader where
  depth : Nat
  cursor : ByteCursor
  /-- The names of the open elements, the innermost first. -/
  openNames : List String
  /-- What was taken for text, the latest first. -/
  slices : List Slice

namespace ByteReader

/-- The state with its cursor at another place. -/
def moveTo (reader : ByteReader) (cursor : ByteCursor) : ByteReader :=
  { reader with cursor }

/-- The state with one more slice taken. -/
def noting (reader : ByteReader) (slice : Slice) : ByteReader :=
  { reader with slices := slice :: reader.slices }

/-- What reads some of the bytes. -/
abbrev Lexing :=
  EStateM Halt ByteReader

/-- Reading broken off where the cursor is. -/
def halt (flaw : Flaw) : Lexing α := fun reader =>
  .error (.flaw (flaw.fault reader.cursor.place)) reader

/-- A move of the cursor. -/
def move (change : ByteCursor → ByteCursor) : Lexing Unit := fun reader =>
  .ok () (reader.moveTo (change reader.cursor))

/-- A change of the open elements. -/
def nest (change : List String → List String) : Lexing Unit := fun reader =>
  .ok () { reader with openNames := change reader.openNames }

/-- A slice taken for text. -/
def takeText (slice : Slice) : Lexing String := fun reader =>
  match slice.text? with
  | some text => .ok text (reader.noting slice)
  | none => .error (.noText reader.cursor.place) (reader.noting slice)

/-- Whether a character of one byte comes next.  The cursor goes on after
it. -/
def consumed (mark : Char) : Lexing Bool := fun reader =>
  match reader.cursor.consume? mark.toUInt8 with
  | some cursor => .ok true (reader.moveTo cursor)
  | none => .ok false reader

/-- A character of one byte, which must come next. -/
def expect (mark : Char) : Lexing Unit := do
  if ← consumed mark then pure ()
  else if (← get).cursor.atEnd then halt .endBeforeMark
  else halt .markExpected

/-- The name at the cursor. -/
def name : Lexing String := do
  let start ← get
  match start.cursor.current? with
  | none => halt .endBeforeName
  | some byte =>
      if isNameStartByte byte then do
        move (·.advance)
        move (·.advanceWhile isNameByte)
        let reader ← get
        takeText (reader.cursor.slice start.cursor.place.offset)
      else halt .nameExpected

/-- The text before the first occurrence of a mark.  The cursor goes on after
the mark. -/
def upTo (mark : List UInt8) (missing : Flaw) : Lexing String := do
  let start ← get
  match ByteCursor.before? mark start.cursor.remaining with
  | some stretch => do
      let here := start.cursor.advanceOver stretch
      move fun _ => here.advanceBy mark.length
      takeText (here.slice start.cursor.place.offset)
  | none => do
      move fun _ => start.cursor.advanceOver start.cursor.remaining
      halt missing

/-- A text with its references expanded. -/
def expanded (text : String) : Lexing String :=
  match expandReferences text.toList with
  | .ok expanded => pure (String.ofList expanded)
  | .error reference => halt (.badReference (String.ofList reference))

/-- The value between quotation marks or apostrophes at the cursor. -/
def value : Lexing String := do
  match (← get).cursor.current? with
  | none => halt .quoteExpected
  | some quote =>
      if quote = '"'.toUInt8 ∨ quote = '\''.toUInt8 then do
        move (·.advance)
        expanded (← upTo [quote] .unterminatedValue)
      else halt .quoteExpected

/-- The text at the cursor, up to the next tag. -/
def content : Lexing String := do
  let start ← get
  move (·.advanceWhile (· ≠ '<'.toUInt8))
  let reader ← get
  expanded (← takeText (reader.cursor.slice start.cursor.place.offset))

/-- The attribute at the cursor: a name, an equals sign and a value. -/
def assignment : Lexing (String × String) := do
  let name ← name
  move (·.skipSpacing)
  expect '='
  move (·.skipSpacing)
  let value ← value
  pure (name, value)

/-- The next attribute of a tag, or nothing at its end. -/
def tagPart : Lexing (Option (String × String)) := do
  move (·.skipSpacing)
  match (← get).cursor.current? with
  | none => halt .unterminatedTag
  | some byte =>
      if byte = '/'.toUInt8 ∨ byte = '>'.toUInt8 then pure none
      else do
        let field ← assignment
        pure (some field)

/-! ## Moving on -/

/-- The number of bytes that remain. -/
def left (reader : ByteReader) : Nat :=
  reader.cursor.remaining.length

/-- Whether what is read leaves no more bytes than there were. -/
def Onward (lexing : Lexing α) : Prop :=
  ∀ ⦃reader value next⦄, lexing reader = .ok value next →
    next.left ≤ reader.left

/-- Whether reading from a state on leaves fewer bytes. -/
def Further (lexing : Lexing α) (reader : ByteReader) : Prop :=
  ∀ ⦃value next⦄, lexing reader = .ok value next → next.left < reader.left

theorem bind_eq_ok {lexing : Lexing α} {more : α → Lexing β}
    {reader last : ByteReader} {result : β}
    (read : (lexing >>= more) reader = .ok result last) :
    ∃ value next, lexing reader = .ok value next ∧
      more value next = .ok result last := by
  cases first : lexing reader with
  | ok value next =>
      refine ⟨value, next, rfl, ?_⟩
      rw [← read]
      show _ = EStateM.bind lexing more reader
      rw [EStateM.bind, first]
  | error halt next =>
      have failed : EStateM.bind lexing more reader = .error halt next := by
        rw [EStateM.bind, first]
      cases failed.symm.trans read

section

variable {lexing : Lexing α} {more : α → Lexing β} {reader : ByteReader}

theorem Onward.bind
    (onward : Onward lexing) (others : ∀ value, Onward (more value)) :
    Onward (lexing >>= more) := by
  intro reader result last read
  obtain ⟨value, next, first, rest⟩ := bind_eq_ok read
  exact Nat.le_trans (others value rest) (onward first)

theorem Further.bind
    (further : Further lexing reader) (others : ∀ value, Onward (more value)) :
    Further (lexing >>= more) reader := by
  intro result last read
  obtain ⟨value, next, first, rest⟩ := bind_eq_ok read
  exact Nat.lt_of_le_of_lt (others value rest) (further first)

theorem Onward.bind_further
    (onward : Onward lexing)
    (others : ∀ value next, Further (more value) next) :
    Further (lexing >>= more) reader := by
  intro result last read
  obtain ⟨value, next, first, rest⟩ := bind_eq_ok read
  exact Nat.lt_of_lt_of_le (others value next rest) (onward first)

end

theorem onward_halt (flaw : Flaw) : Onward (halt flaw : Lexing α) :=
  fun _ _ _ read => nomatch read

theorem further_halt (flaw : Flaw) (reader : ByteReader) :
    Further (halt flaw : Lexing α) reader :=
  fun _ _ read => nomatch read

theorem onward_pure (value : α) : Onward (pure value) :=
  fun _ _ _ read => by cases read; exact Nat.le_refl _

theorem onward_get : Onward get :=
  fun _ _ _ read => by cases read; exact Nat.le_refl _

theorem onward_takeText (slice : Slice) : Onward (takeText slice) := by
  intro reader value next read
  simp only [takeText] at read
  split at read <;> cases read
  exact Nat.le_refl _

theorem onward_move {change : ByteCursor → ByteCursor}
    (shrinks : ∀ cursor : ByteCursor,
      (change cursor).remaining.length ≤ cursor.remaining.length) :
    Onward (move change) := by
  intro reader value next read
  cases read
  exact shrinks reader.cursor

theorem further_move {change : ByteCursor → ByteCursor} {reader : ByteReader}
    (shrinks : (change reader.cursor).remaining.length <
      reader.cursor.remaining.length) :
    Further (move change) reader := by
  intro value next read
  cases read
  exact shrinks

/-- Reading that begins by looking at the state. -/
theorem further_get {more : ByteReader → Lexing α} {reader : ByteReader}
    (further : Further (more reader) reader) :
    Further (get >>= more) reader :=
  further

theorem onward_consumed (mark : Char) : Onward (consumed mark) := by
  intro reader value next read
  simp only [consumed, ByteCursor.consume?] at read
  split at read
  · next cursor found =>
      split at found <;> cases found
      cases read
      simp [left, moveTo]
  · cases read
    exact Nat.le_refl _

theorem onward_expect (mark : Char) : Onward (expect mark) := by
  refine (onward_consumed mark).bind fun found => ?_
  split
  · exact onward_pure ()
  · refine onward_get.bind fun reader => ?_
    split <;> exact onward_halt _

theorem further_name (reader : ByteReader) : Further name reader := by
  refine further_get ?_
  cases current : reader.cursor.current? with
  | none => exact further_halt _ reader
  | some byte =>
      dsimp only
      split
      · have more : 0 < reader.cursor.remaining.length := by
          rw [ByteCursor.current?, List.head?_eq_some_iff] at current
          obtain ⟨rest, shape⟩ := current
          simp [shape]
        refine (further_move ?_).bind fun _ =>
          (onward_move ?_).bind fun _ =>
            onward_get.bind fun _ => onward_takeText _
        · rw [ByteCursor.remaining_advance, List.length_tail]
          omega
        · intro cursor
          simpa using (List.dropWhile_sublist isNameByte).length_le
      · exact further_halt _ reader

theorem further_upTo {mark : List UInt8} (marked : mark ≠ [])
    (missing : Flaw) (reader : ByteReader) :
    Further (upTo mark missing) reader := by
  refine further_get ?_
  cases found : ByteCursor.before? mark reader.cursor.remaining with
  | some stretch =>
      have more : 0 < reader.cursor.remaining.length := by
        refine List.length_pos_iff.mpr fun none => ?_
        rw [none] at found
        cases found
      have width := List.length_pos_iff.mpr marked
      refine (further_move ?_).bind fun _ => onward_takeText _
      simp only [ByteCursor.remaining_advanceBy,
        ByteCursor.remaining_advanceOver, List.length_drop]
      omega
  | none =>
      intro value next read
      obtain ⟨_, _, _, failed⟩ := bind_eq_ok read
      cases failed

theorem onward_expanded (text : String) : Onward (expanded text) := by
  unfold expanded
  split
  · exact onward_pure _
  · exact onward_halt _

theorem onward_value : Onward value := by
  refine onward_get.bind fun reader => ?_
  split
  · exact onward_halt _
  · split
    · refine (onward_move (by simp)).bind fun _ =>
        Onward.bind (fun _ _ _ read => ?_) onward_expanded
      exact Nat.le_of_lt (further_upTo (List.cons_ne_nil _ _) _ _ read)
    · exact onward_halt _

theorem onward_skipSpacing : Onward (move (·.skipSpacing)) :=
  onward_move fun cursor => by
    simpa [ByteCursor.skipSpacing] using
      (List.dropWhile_sublist ByteCursor.isSpacing).length_le

theorem further_assignment (reader : ByteReader) : Further assignment reader :=
  (further_name reader).bind fun _ =>
    onward_skipSpacing.bind fun _ =>
      (onward_expect '=').bind fun _ =>
        onward_skipSpacing.bind fun _ =>
          onward_value.bind fun _ => onward_pure _

theorem left_lt_of_tagPart {reader next : ByteReader}
    {field : String × String}
    (read : tagPart reader = .ok (some field) next) :
    next.left < reader.left := by
  obtain ⟨_, front, skipped, read⟩ := bind_eq_ok read
  obtain ⟨_, _, looked, read⟩ := bind_eq_ok read
  cases looked
  cases current : front.cursor.current? with
  | none => cases current ▸ read
  | some byte =>
      rw [current] at read
      dsimp only at read
      split at read
      · cases read
      · obtain ⟨_, _, assigned, read⟩ := bind_eq_ok read
        cases read
        exact Nat.lt_of_lt_of_le (further_assignment _ assigned)
          (onward_skipSpacing skipped)

theorem onward_tagPart : Onward tagPart :=
  onward_skipSpacing.bind fun _ =>
    onward_get.bind fun reader => by
      split
      · exact onward_halt _
      · split
        · exact onward_pure _
        · exact Onward.bind
            (fun _ _ _ read => Nat.le_of_lt (further_assignment _ read))
            fun _ => onward_pure _

/-! ## Steps -/

/-- The attributes up to the end of a tag, after those found before. -/
def attributes (found : List (String × String)) :
    Lexing (List (String × String)) := fun reader =>
  match _ : tagPart reader with
  | .error halt next => .error halt next
  | .ok none next => .ok found next
  | .ok (some (name, value)) next =>
      if Reader.names found name then halt (.duplicateAttribute name) next
      else attributes (found ++ [(name, value)]) next
termination_by reader => reader.left
decreasing_by exact left_lt_of_tagPart ‹_›

/-- What one step comes to. -/
inductive Step where
  | ended
  | skipped
  | delivered (event : Event)

/-- The start tag at the cursor. -/
def startTag : Lexing Step := do
  move (·.advance)
  let name ← name
  let found ← attributes []
  if ← consumed '/' then do
    expect '>'
    pure (.delivered (.start name found true))
  else do
    expect '>'
    let reader ← get
    if 0 < reader.depth ∧ reader.depth ≤ reader.openNames.length then
      halt (.tooDeep reader.depth)
    else do
      nest (name :: ·)
      pure (.delivered (.start name found false))

/-- The end tag at the cursor. -/
def endTag : Lexing Step := do
  move (·.advanceBy 2)
  let name ← name
  move (·.skipSpacing)
  expect '>'
  let reader ← get
  nest List.tail
  match reader.openNames with
  | [] => halt .unexpectedEndTag
  | expected :: _ =>
      if expected = name then pure (.delivered (.finish name))
      else halt (.mismatchedTag expected name)

/-- The text at the cursor, which counts within an element only. -/
def characters : Lexing Step := do
  let text ← content
  if (← get).openNames.isEmpty then
    if isSpaced text then pure .skipped else halt .textOutsideRoot
  else pure (.delivered (.text text))

/-- The markup at the cursor that ends with a mark, after a number of bytes
that are no part of it. -/
def enclosed (opening : Nat) (mark : String) (event : String → Event) :
    Lexing Step := do
  move (·.advanceBy opening)
  let body ← upTo (bytesOf mark) .unterminatedMarkup
  pure (.delivered (event body))

/-- The declaration or instruction at the cursor, which is passed over. -/
def passedOver : Lexing Step := do
  let cursor := (← get).cursor
  let mark := if cursor.startsWith (bytesOf "<?") then "?>" else ">"
  let _ ← upTo (bytesOf mark) .unterminatedMarkup
  pure .skipped

/-- One step on from a state. -/
def step : Lexing Step := do
  let reader ← get
  match reader.cursor.current? with
  | none =>
      match reader.openNames with
      | [] => pure .ended
      | name :: _ => halt (.unterminatedElement name)
  | some byte =>
      let starts := fun mark => reader.cursor.startsWith (bytesOf mark)
      if byte ≠ '<'.toUInt8 then characters
      else if starts "<!--" then enclosed 4 "-->" .comment
      else if starts "<![CDATA[" then enclosed 9 "]]>" .characterData
      else if starts "<!" ∨ starts "<?" then passedOver
      else if starts "</" then endTag
      else startTag

theorem onward_attributes (found : List (String × String)) :
    Onward (attributes found) := by
  intro reader all last read
  fun_induction attributes found reader with
  | case1 => cases read
  | case2 found reader next closed =>
      cases read
      exact onward_tagPart closed
  | case3 => cases read
  | case4 found reader name value next field fresh ih =>
      exact Nat.le_trans (ih read) (onward_tagPart field)

theorem onward_nest (change : List String → List String) :
    Onward (nest change) :=
  fun _ _ _ read => by cases read; exact Nat.le_refl _

theorem further_startTag (reader : ByteReader) : Further startTag reader := by
  refine (onward_move (by simp)).bind_further fun _ next =>
    (further_name next).bind fun name =>
      (onward_attributes []).bind fun found =>
        (onward_consumed '/').bind fun closed => ?_
  split
  · exact (onward_expect '>').bind fun _ => onward_pure _
  · refine (onward_expect '>').bind fun _ => onward_get.bind fun reader => ?_
    split
    · exact onward_halt _
    · exact (onward_nest _).bind fun _ => onward_pure _

theorem further_endTag (reader : ByteReader) : Further endTag reader := by
  refine (onward_move (by simp)).bind_further
    fun _ next => (further_name next).bind fun name =>
      onward_skipSpacing.bind fun _ =>
        (onward_expect '>').bind fun _ =>
          onward_get.bind fun reader => (onward_nest _).bind fun _ => ?_
  split
  · exact onward_halt _
  · split
    · exact onward_pure _
    · exact onward_halt _

theorem further_characters {reader : ByteReader} {byte : UInt8}
    (current : reader.cursor.current? = some byte)
    (text : byte ≠ '<'.toUInt8) :
    Further characters reader := by
  obtain ⟨rest, shape⟩ := List.head?_eq_some_iff.mp current
  refine Further.bind (further_get ((further_move ?_).bind fun _ =>
    onward_get.bind fun _ =>
      (onward_takeText _).bind onward_expanded)) fun text => ?_
  · rw [ByteCursor.remaining_advanceWhile, shape,
      List.dropWhile_cons_of_pos (by simpa using text)]
    exact Nat.lt_succ_of_le (List.dropWhile_sublist _).length_le
  · refine onward_get.bind fun reader => ?_
    split
    · split
      · exact onward_pure _
      · exact onward_halt _
    · exact onward_pure _

theorem further_enclosed {mark : String} (marked : bytesOf mark ≠ [])
    (opening : Nat) (event : String → Event) (reader : ByteReader) :
    Further (enclosed opening mark event) reader :=
  (onward_move (by simp)).bind_further fun _ next =>
    (further_upTo marked _ next).bind fun _ => onward_pure _

theorem further_passedOver (reader : ByteReader) :
    Further passedOver reader := by
  refine further_get ((further_upTo ?_ _ reader).bind fun _ => onward_pure _)
  split <;> decide

/-- Every step but the last passes some of the bytes. -/
theorem left_lt_of_step {reader next : ByteReader} {outcome : Step}
    (read : step reader = .ok outcome next) (goesOn : outcome ≠ .ended) :
    next.left < reader.left := by
  obtain ⟨_, _, looked, read⟩ := bind_eq_ok read
  cases looked
  cases current : reader.cursor.current? with
  | none =>
      rw [current] at read
      dsimp only at read
      cases open_ : reader.openNames with
      | nil =>
          rw [open_] at read
          cases read
          exact absurd rfl goesOn
      | cons name outer => cases open_ ▸ read
  | some byte =>
      rw [current] at read
      dsimp only at read
      split at read
      · next text => exact further_characters current text read
      · split at read
        · exact further_enclosed (by decide) 4 _ reader read
        · split at read
          · exact further_enclosed (by decide) 9 _ reader read
          · split at read
            · exact further_passedOver reader read
            · split at read
              · exact further_endTag reader read
              · exact further_startTag reader read

end ByteReader

/-- What is read of the bytes of a text: its events, each with the place after
it, how the reading ended, and what was taken for text, in order. -/
structure ByteStream where
  events : List (Event × Position)
  ending : Except Halt Position
  slices : List Slice

namespace ByteStream

/-- A stream with one more event in front. -/
def cons (event : Event) (place : Position) (stream : ByteStream) :
    ByteStream :=
  { stream with events := (event, place) :: stream.events }

end ByteStream

namespace ByteReader

/-- The events from a state on. -/
def run (reader : ByteReader) : ByteStream :=
  match _ : step reader with
  | .error halt last => ⟨[], .error halt, last.slices.reverse⟩
  | .ok .ended last => ⟨[], .ok last.cursor.place, last.slices.reverse⟩
  | .ok .skipped next => next.run
  | .ok (.delivered event) next => next.run.cons event next.cursor.place
termination_by reader.left
decreasing_by
  all_goals exact left_lt_of_step ‹_› (by simp)

/-- The events of the bytes of a text. -/
def read (limits : Limits) (text : String) : ByteStream :=
  let bytes := bytesOf text
  if 0 < limits.size ∧ limits.size < bytes.length then
    ⟨[], .error (.flaw (.ofKind (.tooLarge limits.size))), []⟩
  else run ⟨limits.depth, .ofBytes bytes, [], []⟩

end ByteReader

end AmlExchange.Markup
