import AmlExchange.Markup.Event
import AmlExchange.Markup.Input

/-!
# Reading markup

A text is read as the events of one or several elements.  Declarations,
processing instructions and spacing outside of all elements are passed over.
Each step of the reader consumes some of the text (`Reader.step_shortens`), so
that every text has a finite stream of events, ended either at the end of the
text or by the first flaw.
-/

namespace AmlExchange.Markup

open Text (Position)

/-- Bounds on what is read; zero stands for no bound. -/
structure Limits where
  /-- The greatest number of open elements. -/
  depth : Nat
  /-- The greatest number of bytes. -/
  size : Nat
deriving DecidableEq, Repr

namespace Limits

/-- The bounds that hold unless others are given. -/
def standard : Limits :=
  ⟨256, 64 * 1024 * 1024⟩

/-- No bounds. -/
def unlimited : Limits :=
  ⟨0, 0⟩

end Limits

/-- The state between two events. -/
structure Reader where
  depth : Nat
  input : Input
  /-- The names of the open elements, the innermost first. -/
  openNames : List String

namespace Reader

/-- What one step of a reader comes to. -/
inductive Step where
  /-- The text is at its end. -/
  | ended
  /-- Something was passed over. -/
  | skipped (reader : Reader)
  | delivered (event : Event) (reader : Reader)

/-- What a tag holds next: one more attribute, or its end. -/
inductive TagPart where
  | field (name value : String) (next : Input)
  | close (next : Input)

/-- The next part of a tag. -/
def tagPart (input : Input) : Except Fault TagPart :=
  let front := input.skipSpacing
  match front.rest with
  | [] => front.flawed .unterminatedTag
  | char :: _ =>
      if char = '/' ∨ char = '>' then .ok (.close front)
      else
        match front.assignment with
        | .error fault => .error fault
        | .ok ((name, value), next) => .ok (.field name value next)

theorem leads_tagPart_field {input next : Input} {name value : String}
    (read : tagPart input = .ok (.field name value next)) :
    ∃ stretch, stretch ≠ [] ∧ Input.Leads input next stretch := by
  have first := Input.leads_dropWhile input Text.isSpacing
  simp only [tagPart] at read
  split at read
  · cases read
  · split at read
    · cases read
    · split at read
      · cases read
      · next assigned =>
          cases read
          obtain ⟨_, moved, leads⟩ := Input.leads_assignment assigned
          exact ⟨_, by simp [moved], first.trans leads⟩

theorem leads_tagPart_close {input next : Input}
    (read : tagPart input = .ok (.close next)) :
    ∃ stretch, Input.Leads input next stretch := by
  have first := Input.leads_dropWhile input Text.isSpacing
  simp only [tagPart] at read
  split at read
  · cases read
  · split at read
    · cases read
      exact ⟨_, first⟩
    · split at read <;> cases read

/-- Whether a name is among those of some attributes. -/
def names (found : List (String × String)) (name : String) : Bool :=
  (found.map Prod.fst).contains name

/-- The attributes up to the end of a tag, after those found before. -/
def attributes (input : Input) (found : List (String × String)) :
    Except Fault (List (String × String) × Input) :=
  match _ : tagPart input with
  | .error fault => .error fault
  | .ok (.close next) => .ok (found, next)
  | .ok (.field name value next) =>
      if names found name then next.flawed (.duplicateAttribute name)
      else attributes next (found ++ [(name, value)])
termination_by input.rest.length
decreasing_by
  obtain ⟨_, moved, leads⟩ := leads_tagPart_field ‹_›
  exact leads.length_lt moved

/-- The start tag at the front. -/
def startTag (reader : Reader) : Except Fault Step := do
  let (name, input) ← (reader.input.drop 1).name
  let (found, input) ← attributes input []
  match input.rest with
  | '/' :: _ =>
      let input ← (input.drop 1).expect '>'
      .ok (.delivered (.start name found true) { reader with input })
  | _ =>
      let input ← input.expect '>'
      if 0 < reader.depth ∧ reader.depth ≤ reader.openNames.length then
        input.flawed (.tooDeep reader.depth)
      else
        .ok (.delivered (.start name found false)
          { reader with input, openNames := name :: reader.openNames })

/-- The end tag at the front. -/
def endTag (reader : Reader) : Except Fault Step := do
  let (name, input) ← (reader.input.drop 2).name
  let input ← input.skipSpacing.expect '>'
  match reader.openNames with
  | [] => input.flawed .unexpectedEndTag
  | expected :: outer =>
      if expected = name then
        .ok (.delivered (.finish name)
          { reader with input, openNames := outer })
      else input.flawed (.mismatchedTag expected name)

/-- The text at the front, up to the next tag. -/
def characters (reader : Reader) : Except Fault Step := do
  let stretch := reader.input.rest.takeWhile (· ≠ '<')
  let input := reader.input.dropWhile (· ≠ '<')
  let text ← input.expanded stretch
  if reader.openNames.isEmpty then
    if isSpaced text then .ok (.skipped { reader with input })
    else input.flawed .textOutsideRoot
  else .ok (.delivered (.text text) { reader with input })

/-- The markup at the front that begins with an exclamation mark: a comment, a
section of unescaped text, or a declaration, which is passed over. -/
def declared (reader : Reader) : Except Fault Step :=
  if "<!--".toList.isPrefixOf reader.input.rest then do
    let (stretch, input) ←
      (reader.input.drop 4).upTo "-->".toList .unterminatedMarkup
    .ok (.delivered (.comment (String.ofList stretch)) { reader with input })
  else if "<![CDATA[".toList.isPrefixOf reader.input.rest then do
    let (stretch, input) ←
      (reader.input.drop 9).upTo "]]>".toList .unterminatedMarkup
    .ok (.delivered (.characterData (String.ofList stretch))
      { reader with input })
  else do
    let (_, input) ← reader.input.upTo ['>'] .unterminatedMarkup
    .ok (.skipped { reader with input })

/-- A processing instruction at the front, which is passed over. -/
def instruction (reader : Reader) : Except Fault Step := do
  let (_, input) ← reader.input.upTo "?>".toList .unterminatedMarkup
  .ok (.skipped { reader with input })

/-- One step on from a state. -/
def step (reader : Reader) : Except Fault Step :=
  match reader.input.rest with
  | [] =>
      match reader.openNames with
      | [] => .ok .ended
      | name :: _ => reader.input.flawed (.unterminatedElement name)
  | '<' :: '!' :: _ => reader.declared
  | '<' :: '?' :: _ => reader.instruction
  | '<' :: '/' :: _ => reader.endTag
  | '<' :: _ => reader.startTag
  | _ => reader.characters

/-- The state after a step that did not end. -/
def Step.next? : Step → Option Reader
  | .ended => none
  | .skipped reader | .delivered _ reader => some reader

/-- A state whose input is what another leaves after some text. -/
def MovesTo (reader next : Reader) : Prop :=
  ∃ stretch, stretch ≠ [] ∧ Input.Leads reader.input next.input stretch

theorem leads_attributes {input next : Input}
    {found all : List (String × String)}
    (read : attributes input found = .ok (all, next)) :
    ∃ stretch, Input.Leads input next stretch := by
  fun_induction attributes input found with
  | case1 => cases read
  | case2 input found close closeRead =>
      cases read
      exact leads_tagPart_close closeRead
  | case3 => cases read
  | case4 input found name value field fieldRead fresh ih =>
      obtain ⟨_, _, first⟩ := leads_tagPart_field fieldRead
      obtain ⟨_, second⟩ := ih read
      exact ⟨_, first.trans second⟩

theorem movesTo_startTag {reader next : Reader} {step : Step}
    (read : reader.startTag = .ok step) (reached : step.next? = some next) :
    reader.MovesTo next := by
  simp only [startTag, bind, Except.bind] at read
  split at read
  · cases read
  · next named nameRead =>
      split at read
      · cases read
      · next attributed attributesRead =>
          have first := Input.leads_drop reader.input 1
          have second := Input.leads_name nameRead
          obtain ⟨stretch, third⟩ := leads_attributes attributesRead
          have before := (first.trans second.1).trans third
          split at read
          · split at read
            · cases read
            · next closed closeRead =>
                cases read
                cases reached
                have fourth := Input.leads_drop attributed.2 1
                have fifth := Input.leads_expect closeRead
                exact ⟨_, by simp, (before.trans fourth).trans fifth⟩
          · split at read
            · cases read
            · next closed closeRead =>
                have fourth := Input.leads_expect closeRead
                split at read
                · cases read
                · cases read
                  cases reached
                  exact ⟨_, by simp, before.trans fourth⟩

theorem movesTo_endTag {reader next : Reader} {step : Step}
    (read : reader.endTag = .ok step) (reached : step.next? = some next) :
    reader.MovesTo next := by
  simp only [endTag, bind, Except.bind] at read
  split at read
  · cases read
  · next named nameRead =>
      split at read
      · cases read
      · next closed closeRead =>
          have first := Input.leads_drop reader.input 2
          have second := Input.leads_name nameRead
          have third := Input.leads_dropWhile named.2 Text.isSpacing
          have fourth := Input.leads_expect closeRead
          have leads := ((first.trans second.1).trans third).trans fourth
          split at read
          · cases read
          · split at read
            · cases read
              cases reached
              exact ⟨_, by simp, leads⟩
            · cases read

theorem movesTo_characters {reader next : Reader} {step : Step} {char : Char}
    {rest : List Char} (shape : reader.input.rest = char :: rest)
    (text : char ≠ '<') (read : reader.characters = .ok step)
    (reached : step.next? = some next) :
    reader.MovesTo next := by
  have leads := Input.leads_dropWhile reader.input (fun char => char ≠ '<')
  have moved :
      reader.input.rest.takeWhile (fun char => decide (char ≠ '<')) ≠ [] := by
    simp [shape, text]
  simp only [characters, bind, Except.bind] at read
  split at read
  · cases read
  · split at read
    · split at read
      · cases read
        cases reached
        exact ⟨_, moved, leads⟩
      · cases read
    · cases read
      cases reached
      exact ⟨_, moved, leads⟩

theorem movesTo_declared {reader next : Reader} {step : Step}
    (read : reader.declared = .ok step) (reached : step.next? = some next) :
    reader.MovesTo next := by
  simp only [declared, bind, Except.bind] at read
  split at read
  · split at read
    · cases read
    · next pair found =>
        cases read
        cases reached
        have first := Input.leads_drop reader.input 4
        exact ⟨_, by simp, first.trans (Input.leads_upTo found)⟩
  · split at read
    · split at read
      · cases read
      · next pair found =>
          cases read
          cases reached
          have first := Input.leads_drop reader.input 9
          exact ⟨_, by simp, first.trans (Input.leads_upTo found)⟩
    · split at read
      · cases read
      · next pair found =>
          cases read
          cases reached
          exact ⟨_, by simp, Input.leads_upTo found⟩

theorem movesTo_instruction {reader next : Reader} {step : Step}
    (read : reader.instruction = .ok step)
    (reached : step.next? = some next) :
    reader.MovesTo next := by
  simp only [instruction, bind, Except.bind] at read
  split at read
  · cases read
  · next pair found =>
      cases read
      cases reached
      exact ⟨_, by simp, Input.leads_upTo found⟩

/-- Every step but the last consumes some of the text. -/
theorem movesTo_step {reader next : Reader} {step : Step}
    (read : reader.step = .ok step) (reached : step.next? = some next) :
    reader.MovesTo next := by
  unfold Reader.step at read
  split at read
  · split at read
    · cases read
      cases reached
    · cases read
  · exact movesTo_declared read reached
  · exact movesTo_instruction read reached
  · exact movesTo_endTag read reached
  · exact movesTo_startTag read reached
  · next noEnd _ _ _ noTag =>
      cases shape : reader.input.rest with
      | nil => exact absurd shape noEnd
      | cons char rest =>
          refine movesTo_characters shape ?_ read reached
          rintro rfl
          exact noTag rest shape

theorem step_shortens {reader next : Reader} {step : Step}
    (read : reader.step = .ok step) (reached : step.next? = some next) :
    next.input.rest.length < reader.input.rest.length := by
  obtain ⟨_, moved, leads⟩ := movesTo_step read reached
  exact leads.length_lt moved

end Reader

/-- What is read of a text: its events, each with the place after it, and how
the reading ended. -/
structure Stream where
  events : List (Event × Position)
  ending : Except Fault Position

namespace Stream

/-- A stream with one more event in front. -/
def cons (event : Event) (place : Position) (stream : Stream) : Stream :=
  ⟨(event, place) :: stream.events, stream.ending⟩

end Stream

/-- The events from a state on. -/
def Reader.run (reader : Reader) : Stream :=
  match _ : reader.step with
  | .error fault => ⟨[], .error fault⟩
  | .ok .ended => ⟨[], .ok reader.input.place⟩
  | .ok (.skipped next) => next.run
  | .ok (.delivered event next) => next.run.cons event next.input.place
termination_by reader.input.rest.length
decreasing_by
  all_goals exact Reader.step_shortens ‹_› rfl

/-- The events of a text. -/
def read (limits : Limits) (text : String) : Stream :=
  if 0 < limits.size ∧ limits.size < text.utf8ByteSize then
    ⟨[], .error (.ofKind (.tooLarge limits.size))⟩
  else (Reader.mk limits.depth (.ofText text) []).run

end AmlExchange.Markup
