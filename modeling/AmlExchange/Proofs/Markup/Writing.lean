import AmlExchange.Markup.Instruction
import AmlExchange.Proofs.Markup.NormalForm

/-!
# What a writer makes of events

Each event is written by a few instructions.  What they add to the output
depends on whether a start tag is still open, and so the mark that ends a start
tag appears only when the next event is written.  Over a whole nested sequence
the pieces still add up to the markup of its normal form
(`toText_events`).
-/

namespace AmlExchange.Markup

/-! ## Markup -/

/-- An attribute as it is written in a start tag. -/
def fieldMarkup (field : String × String) : List Char :=
  ' ' :: field.1.toList ++
    "=\"".toList ++ field.2.toList.flatMap escapeAttributeChar ++ ['"']

/-- A start tag without its end. -/
def tagMarkup (name : String) (attributes : List (String × String)) :
    List Char :=
  '<' :: name.toList ++ attributes.flatMap fieldMarkup

/-- The mark that begins a section of unescaped text. -/
def sectionStart : List Char :=
  ['<', '!', '[', 'C', 'D', 'A', 'T', 'A', '[']

theorem toList_sectionStart :
    "<![CDATA[".toList = sectionStart :=
  rfl

/-- The markup of one event in normal form. -/
def Event.markup : Event → List Char
  | .start name attributes empty =>
      tagMarkup name attributes ++ if empty then " />".toList else ['>']
  | .finish name => "</".toList ++ name.toList ++ ['>']
  | .text content => content.toList.flatMap escapeTextChar
  | .characterData content =>
      sectionStart ++ content.toList ++ "]]>".toList
  | .comment content => "<!--".toList ++ content.toList ++ "-->".toList

/-- The markup of events in normal form. -/
def markupAll (events : List Event) : List Char :=
  events.flatMap Event.markup

@[simp]
theorem markupAll_nil :
    markupAll [] = [] :=
  rfl

@[simp]
theorem markupAll_cons
    (event : Event) (events : List Event) :
    markupAll (event :: events) = event.markup ++ markupAll events :=
  rfl

@[simp]
theorem markupAll_append
    (first second : List Event) :
    markupAll (first ++ second) = markupAll first ++ markupAll second := by
  simp [markupAll]

/-- The markup of events in normal form where a start tag may still be open. -/
def markupAfter (startOpen : Bool) (events : List Event) : List Char :=
  match startOpen, events with
  | false, events => markupAll events
  | true, .finish _ :: rest => " />".toList ++ markupAll rest
  | true, events => '>' :: markupAll events

/-! ## Instructions -/

/-- The instructions that write an event. -/
def Event.instructions : Event → List Instruction
  | .start name attributes empty =>
      .startElement name ::
        attributes.map (fun field => .setAttribute field.1 field.2) ++
        if empty then [.endElement] else []
  | .finish _ => [.endElement]
  | .text content => [.text content]
  | .characterData content => [.characterData content]
  | .comment content => [.comment content]

/-- The mark that ends a start tag if it is open. -/
def closing (startOpen : Bool) : List Char :=
  if startOpen then ['>'] else []

/-- What the instructions of an event add to the output. -/
def Event.written (event : Event) (startOpen : Bool) : List Char :=
  match event with
  | .start name attributes empty =>
      closing startOpen ++ tagMarkup name attributes ++
        if empty then " />".toList else []
  | .finish name =>
      if startOpen then " />".toList else "</".toList ++ name.toList ++ ['>']
  | .text content =>
      if content.isEmpty then []
      else closing startOpen ++ content.toList.flatMap escapeTextChar
  | .characterData content =>
      closing startOpen ++ markupAll (sectionEvents content)
  | .comment content =>
      closing startOpen ++
        ("<!--".toList ++ content.toList ++ "-->".toList)

/-- Whether a start tag is open after the instructions of an event. -/
def Event.leavesOpen (event : Event) (startOpen : Bool) : Bool :=
  match event with
  | .start _ _ empty => !empty
  | .text content => content.isEmpty && startOpen
  | .finish _ | .characterData _ | .comment _ => false

/-! ## Sections -/

theorem replace_eq
    (content substitute : List Char) :
    Text.replace "]]>".toList substitute content =
      match Text.cutAt? "]]>".toList content with
      | none => content
      | some (before, after) =>
          before ++ substitute ++
            Text.replace "]]>".toList substitute after := by
  rw [Text.replace, dif_neg (by decide)]
  split <;> next cut => rw [cut]

/-- No end mark begins with its own last character. -/
theorem replace_greater_cons
    (content substitute : List Char) :
    Text.replace "]]>".toList substitute ('>' :: content) =
      '>' :: Text.replace "]]>".toList substitute content := by
  have moved :
      Text.cutAt? "]]>".toList ('>' :: content) =
        (Text.cutAt? "]]>".toList content).map
          fun cut => ('>' :: cut.1, cut.2) := by
    rw [Text.cutAt?, if_neg (by simp)]
  cases cut : Text.cutAt? "]]>".toList content with
  | none =>
      rw [cut] at moved
      rw [replace_eq, replace_eq content, cut, moved]
      rfl
  | some pair =>
      rw [cut] at moved
      rw [replace_eq, replace_eq content, cut, moved]
      rfl

/-- A text whose end marks are divided is written as its sections are. -/
theorem markup_sections
    (content : List Char) :
    sectionStart ++
        Text.replace "]]>".toList "]]]]><![CDATA[>".toList content ++
        "]]>".toList =
      (sections content).flatMap fun part =>
        sectionStart ++ part ++ "]]>".toList := by
  fun_induction sections content with
  | case1 content absent =>
      rw [replace_eq, absent]
      simp
  | case2 content before after found ih =>
      rw [replace_greater_cons] at ih
      rw [List.flatMap_cons, ← ih, replace_eq content, found]
      simp [sectionStart]

theorem markupAll_sectionEvents
    (content : String) :
    markupAll (sectionEvents content) =
      sectionStart ++ (Writer.guarded content).toList ++ "]]>".toList := by
  have guarded :
      (Writer.guarded content).toList =
        Text.replace "]]>".toList "]]]]><![CDATA[>".toList
          content.toList := by
    rw [Writer.guarded, String.toList_ofList]
  rw [guarded, markup_sections, markupAll, sectionEvents, List.flatMap_map]
  apply List.flatMap_congr
  intro part _
  rw [Event.markup, String.toList_ofList (l := part)]

/-! ## A writer with room for everything -/

namespace Writer

/-- A writer that has written some more and has room for everything. -/
def extended
    (writer : Writer) (text : List Char) (openNames : List String)
    (startOpen : Bool) : Writer :=
  ⟨writer.output ++ String.ofList text, openNames, startOpen, none⟩

theorem put_of_unlimited
    {writer : Writer} (unlimited : writer.room = none) (text : String) :
    writer.put text =
      .ok (writer.extended text.toList writer.openNames writer.startOpen) := by
  simp [put, fits, extended, unlimited]

theorem putContent_of_unlimited
    {writer : Writer} (unlimited : writer.room = none) (text : String) :
    writer.putContent text =
      .ok
        (writer.extended (Markup.closing writer.startOpen ++ text.toList)
          writer.openNames false) := by
  cases opened : writer.startOpen <;>
    simp [putContent, put, fits, extended, closing, Markup.closing,
      unlimited, opened]

/-- Performing instructions that succeed, then others. -/
theorem performAll_append
    {writer next : Writer} {first : List Instruction}
    (performed : writer.performAll first = (next, .ok ()))
    (second : List Instruction) :
    writer.performAll (first ++ second) = next.performAll second := by
  induction first generalizing writer with
  | nil =>
      cases performed
      rfl
  | cons instruction rest ih =>
      rw [List.cons_append]
      simp only [performAll] at performed ⊢
      split
      · next failed =>
          rw [failed] at performed
          cases performed
      · next done =>
          rw [done] at performed
          exact ih performed

theorem perform_setAttribute
    {writer : Writer} (unlimited : writer.room = none)
    (opened : writer.startOpen = true) (field : String × String) :
    writer.perform (.setAttribute field.1 field.2) =
      .ok (writer.extended (fieldMarkup field) writer.openNames true) := by
  rw [perform, setAttribute, if_pos opened, put_of_unlimited unlimited,
    opened]
  simp [fieldMarkup, escapeAttribute]

theorem performAll_attributes
    {writer : Writer} (unlimited : writer.room = none)
    (opened : writer.startOpen = true)
    (attributes : List (String × String)) :
    writer.performAll
        (attributes.map fun field => .setAttribute field.1 field.2) =
      (writer.extended (attributes.flatMap fieldMarkup) writer.openNames true,
        .ok ()) := by
  induction attributes generalizing writer with
  | nil =>
      cases writer
      simp_all [performAll, extended]
  | cons field rest ih =>
      rw [List.map_cons, performAll, perform_setAttribute unlimited opened]
      have others :=
        @ih (writer.extended (fieldMarkup field) writer.openNames true) rfl rfl
      simp only [others]
      simp [extended, String.append_assoc]

theorem perform_startElement
    {writer : Writer} (unlimited : writer.room = none) (name : String) :
    writer.perform (.startElement name) =
      .ok
        (writer.extended
          (Markup.closing writer.startOpen ++ '<' :: name.toList)
          (name :: writer.openNames) true) := by
  rw [perform, startElement, putContent_of_unlimited unlimited]
  simp [bind, Except.bind, extended]

theorem perform_endElement
    {writer : Writer} (unlimited : writer.room = none)
    {name : String} {outer : List String}
    (names : writer.openNames = name :: outer) :
    writer.perform .endElement =
      .ok
        (writer.extended ((Event.finish name).written writer.startOpen)
          outer false) := by
  rw [perform, endElement, names]
  cases opened : writer.startOpen <;>
    simp [put, fits, extended, Event.written, unlimited, ← String.toList_inj]

theorem performAll_singleton
    {writer next : Writer} {instruction : Instruction}
    (performed : writer.perform instruction = .ok next) :
    writer.performAll [instruction] = (next, .ok ()) := by
  simp [performAll, performed]

theorem performAll_start
    {writer : Writer} (unlimited : writer.room = none) (name : String)
    (attributes : List (String × String)) (empty : Bool) :
    writer.performAll (Event.start name attributes empty).instructions =
      (writer.extended
          ((Event.start name attributes empty).written writer.startOpen)
          (if empty then writer.openNames else name :: writer.openNames)
          ((Event.start name attributes empty).leavesOpen writer.startOpen),
        .ok ()) := by
  have begun := performAll_singleton (perform_startElement unlimited name)
  have tagged :=
    @performAll_attributes
      (writer.extended
        (Markup.closing writer.startOpen ++ '<' :: name.toList)
        (name :: writer.openNames) true)
      rfl rfl attributes
  rw [Event.instructions, ← List.singleton_append, List.append_assoc,
    performAll_append begun, performAll_append tagged]
  cases empty with
  | false =>
      simp [performAll, extended, Event.written, tagMarkup,
        Event.leavesOpen, String.append_assoc]
  | true =>
      simp only [if_true]
      rw [performAll_singleton (perform_endElement rfl rfl)]
      simp [extended, Event.written, tagMarkup, Event.leavesOpen,
        String.append_assoc]

/-- What the instructions of one event do to a writer. -/
theorem performAll_event
    {writer : Writer} (unlimited : writer.room = none)
    {event : Event} {next : List String}
    (fits : event.nest? writer.openNames = some next) :
    writer.performAll event.instructions =
      (writer.extended (event.written writer.startOpen) next
          (event.leavesOpen writer.startOpen),
        .ok ()) := by
  cases event with
  | start name attributes empty =>
      cases fits
      exact performAll_start unlimited name attributes empty
  | finish name =>
      exact performAll_singleton
        (perform_endElement unlimited (nest?_finish.mp fits))
  | text content =>
      obtain ⟨-, rfl⟩ := nest?_text.mp fits
      apply performAll_singleton
      rw [perform, text, Event.written, Event.leavesOpen]
      split
      · next nothing =>
          cases writer
          simp_all [extended]
      · next something =>
          rw [putContent_of_unlimited unlimited]
          simp [escapeText, something]
  | characterData content =>
      cases fits
      apply performAll_singleton
      rw [perform, characterData, putContent_of_unlimited unlimited,
        Event.written, markupAll_sectionEvents, String.toList_append,
        String.toList_append, toList_sectionStart]
      rfl
  | comment content =>
      cases fits
      apply performAll_singleton
      rw [perform, comment, putContent_of_unlimited unlimited, Event.written,
        String.toList_append, String.toList_append]
      rfl

end Writer

/-! ## A whole sequence -/

/-- What the instructions of some events add to the output. -/
def writtenAll (startOpen : Bool) : List Event → List Char
  | [] => []
  | event :: rest =>
      event.written startOpen ++ writtenAll (event.leavesOpen startOpen) rest

/-- Unless an end tag comes first, an open start tag is just ended. -/
theorem markupAfter_of_no_finish
    {events : List Event}
    (content : ∀ name rest, events ≠ .finish name :: rest)
    (startOpen : Bool) :
    markupAfter startOpen events = closing startOpen ++ markupAll events := by
  unfold markupAfter
  split
  · rfl
  · next name rest => exact absurd rfl (content name rest)
  · rfl

/-- Putting an event before events in normal form adds to their markup what
the writer adds to its output. -/
theorem markupAfter_before
    (event : Event) (following : List Event) (startOpen : Bool) :
    markupAfter startOpen (event.before following) =
      event.written startOpen ++
        markupAfter (event.leavesOpen startOpen) following := by
  unfold Event.before
  split
  · next following content =>
      by_cases nothing : content.isEmpty = true
      · simp [Event.written, Event.leavesOpen, nothing]
      · rw [if_neg nothing]
        split
        · next more rest =>
            rw [markupAfter_of_no_finish (by simp)]
            simp [Event.written, Event.leavesOpen, nothing, Event.markup,
              markupAfter]
        · rw [markupAfter_of_no_finish (by simp)]
          simp [Event.written, Event.leavesOpen, nothing, Event.markup,
            markupAfter]
  · next content =>
      have begins :
          ∀ name rest, sectionEvents content ++ following ≠
            .finish name :: rest := by
        intro name rest
        cases parts : sections content.toList with
        | nil => exact absurd parts (sections_ne_nil _)
        | cons part more => simp [sectionEvents, parts]
      rw [markupAfter_of_no_finish begins]
      simp [Event.written, Event.leavesOpen, markupAfter]
  · next name attributes other rest =>
      rw [markupAfter_of_no_finish (by simp)]
      simp [Event.written, Event.leavesOpen, Event.markup, markupAfter]
  · next noText noData noEmpty =>
      cases event with
      | text content => exact absurd rfl (noText content)
      | characterData content => exact absurd rfl (noData content)
      | comment content =>
          rw [markupAfter_of_no_finish (by simp)]
          simp [Event.written, Event.leavesOpen, Event.markup, markupAfter]
      | finish name =>
          cases startOpen <;>
            simp [Event.written, Event.leavesOpen, Event.markup, markupAfter]
      | start name attributes empty =>
          rw [markupAfter_of_no_finish (by simp)]
          cases empty with
          | true =>
              simp [Event.written, Event.leavesOpen, Event.markup,
                markupAfter]
          | false =>
              rw [Event.leavesOpen, Bool.not_false,
                markupAfter_of_no_finish (noEmpty name attributes · · rfl)]
              simp [Event.written, Event.markup, closing]

/-- Over a nested sequence the additions to the output are the markup of the
normal form. -/
theorem writtenAll_eq_markupAfter
    {names : List String} {events : List Event}
    (nested : Nested names events)
    {startOpen : Bool} (within : startOpen = true → names ≠ []) :
    writtenAll startOpen events =
      markupAfter startOpen (normalForm events) := by
  induction events generalizing names startOpen with
  | nil =>
      have closed : startOpen = false := by
        simpa [nested_nil.mp nested] using within
      simp [writtenAll, markupAfter, closed]
  | cons event rest ih =>
      obtain ⟨next, fits, nestedRest⟩ := nested_cons.mp nested
      have withinNext :
          event.leavesOpen startOpen = true → next ≠ [] := by
        intro opened
        cases event with
        | start name attributes empty =>
            cases fits
            simp_all [Event.leavesOpen]
        | text content =>
            rw [(nest?_text.mp fits).2]
            exact (nest?_text.mp fits).1
        | finish _ | characterData _ | comment _ => cases opened
      rw [writtenAll, ih nestedRest withinNext, normalForm_cons,
        markupAfter_before]

/-- The instructions of a nested sequence are all performed, and end every
open element. -/
theorem Writer.performAll_events
    {events : List Event} {writer : Writer}
    (unlimited : writer.room = none)
    (nested : Nested writer.openNames events) :
    ∃ startOpen,
      writer.performAll (events.flatMap Event.instructions) =
        (writer.extended (writtenAll writer.startOpen events) [] startOpen,
          .ok ()) := by
  induction events generalizing writer with
  | nil =>
      refine ⟨writer.startOpen, ?_⟩
      have closed := nested_nil.mp nested
      cases writer
      simp_all [performAll, extended, writtenAll]
  | cons event rest ih =>
      obtain ⟨next, fits, nestedRest⟩ := nested_cons.mp nested
      have first := performAll_event unlimited fits
      obtain ⟨startOpen, others⟩ :=
        @ih
          (writer.extended (event.written writer.startOpen) next
            (event.leavesOpen writer.startOpen))
          rfl nestedRest
      refine ⟨startOpen, ?_⟩
      rw [List.flatMap_cons, performAll_append first, others]
      simp [extended, writtenAll, String.append_assoc]

/-- A nested sequence is written as the markup of its normal form. -/
theorem toText_events
    {events : List Event} (nested : Nested [] events) :
    (Draft.of (events.flatMap Event.instructions)).toText =
      .ok (String.ofList (markupAll (normalForm events))) := by
  obtain ⟨startOpen, performed⟩ :=
    @Writer.performAll_events events (.new none) rfl nested
  have written :
      writtenAll false events = markupAll (normalForm events) :=
    writtenAll_eq_markupAfter nested (by simp)
  rw [Draft.toText, Draft.writeTo, Draft.of, performed]
  simp [Writer.finish, Writer.extended, Writer.endElements, Writer.new,
    written, Except.map]

end AmlExchange.Markup
