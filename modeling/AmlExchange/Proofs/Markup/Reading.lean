import AmlExchange.Markup.Reader
import AmlExchange.Proofs.Markup.References
import AmlExchange.Proofs.Markup.Writing

/-!
# Reading markup back

Where an input begins with the markup of an event, one step of the reader
delivers that event and leaves the rest of the input.  So a nested sequence in
normal form is read back from its markup event by event (`run_markupAll`).
-/

namespace AmlExchange.Markup

namespace Input

/-! ## Lexemes -/

theorem name_of_append
    {input : Input} {name : String} {rest : List Char}
    (shape : input.rest = name.toList ++ rest)
    (lawful : isName name.toList = true)
    (stops : ∀ char ∈ rest.head?, isNameChar char = false) :
    ∃ next, input.name = .ok (name, next) ∧ next.rest = rest := by
  cases letters : name.toList with
  | nil => simp [letters, isName] at lawful
  | cons first more =>
      rw [letters] at shape lawful
      simp only [isName, Bool.and_eq_true, List.all_eq_true] at lawful
      have inside : ∀ char ∈ first :: more, isNameChar char = true :=
        List.forall_mem_cons.mpr
          ⟨isNameChar_of_isNameStart lawful.1, lawful.2⟩
      have taken : input.rest.takeWhile isNameChar = name.toList := by
        rw [shape, letters, Text.takeWhile_append_of_stops inside stops]
      have left : input.rest.dropWhile isNameChar = rest := by
        rw [shape, Text.dropWhile_append_of_stops inside stops]
      refine ⟨input.dropWhile isNameChar, ?_, left⟩
      unfold Input.name
      rw [taken, String.ofList_toList]
      simp [shape, lawful.1]

theorem expect_of_cons
    {input : Input} {mark : Char} {rest : List Char}
    (shape : input.rest = mark :: rest) :
    ∃ next, input.expect mark = .ok next ∧ next.rest = rest := by
  refine ⟨input.drop 1, ?_, by simp [drop, shape]⟩
  simp [expect, shape]

theorem upTo_of_append
    {input : Input} {stretch init rest : List Char} {last : Char}
    {missing : Flaw}
    (shape : input.rest = stretch ++ (init ++ [last]) ++ rest)
    (fresh : last ∉ init)
    (absent : ¬ init ++ [last] <:+: stretch) :
    ∃ next,
      input.upTo (init ++ [last]) missing = .ok (stretch, next) ∧
        next.rest = rest := by
  refine ⟨⟨rest, input.place.past (stretch ++ (init ++ [last]))⟩, ?_, rfl⟩
  rw [upTo, shape, Text.cutAt?_append_mark fresh absent]

theorem skipSpacing_of_cons
    {input : Input} {char : Char} {rest : List Char}
    (shape : input.rest = char :: rest)
    (solid : Text.isSpacing char = false) :
    input.skipSpacing.rest = char :: rest := by
  simp [skipSpacing, dropWhile, shape, solid]

theorem value_of_append
    {input : Input} {text : String} {rest : List Char}
    (shape :
      input.rest =
        '"' :: text.toList.flatMap escapeAttributeChar ++ '"' :: rest) :
    ∃ next, input.value = .ok (text, next) ∧ next.rest = rest := by
  have inside :
      (input.drop 1).rest =
        text.toList.flatMap escapeAttributeChar ++ ([] ++ ['"']) ++ rest := by
    simp [drop, shape]
  have absent :
      ¬ [] ++ ['"'] <:+: text.toList.flatMap escapeAttributeChar :=
    fun occurs =>
      quote_not_mem_escapedAttribute text.toList
        (occurs.subset (by simp))
  obtain ⟨next, cut, left⟩ :=
    @upTo_of_append _ _ _ _ _ .unterminatedValue inside (by simp) absent
  refine ⟨next, ?_, left⟩
  unfold Input.value
  rw [shape]
  rw [List.nil_append] at cut
  simp [cut, bind, Except.bind, expanded,
    expandReferences_escapedAttribute]

theorem assignment_of_append
    {input : Input} {field : String × String} {rest : List Char}
    (shape :
      input.rest =
        field.1.toList ++
          "=\"".toList ++ field.2.toList.flatMap escapeAttributeChar ++
            '"' :: rest)
    (lawful : isName field.1.toList = true) :
    ∃ next, input.assignment = .ok (field, next) ∧ next.rest = rest := by
  have nameShape :
      input.rest =
        field.1.toList ++
          ('=' :: '"' :: field.2.toList.flatMap escapeAttributeChar ++
            '"' :: rest) := by
    simp [shape]
  obtain ⟨named, nameRead, afterName⟩ :=
    name_of_append nameShape lawful (by simp; decide)
  obtain ⟨marked, markRead, afterMark⟩ :=
    expect_of_cons (skipSpacing_of_cons afterName (by decide))
  obtain ⟨valued, valueRead, afterValue⟩ :=
    @value_of_append marked.skipSpacing field.2 rest
      (skipSpacing_of_cons afterMark (by decide))
  refine ⟨valued, ?_, afterValue⟩
  simp [assignment, bind, Except.bind, nameRead, markRead, valueRead]

end Input

namespace Reader

/-! ## Tags -/

/-- What a start tag ends with, after spacing. -/
def EndsTag (rest : List Char) : Prop :=
  ∃ char ∈ rest.head?, char = '/' ∨ char = '>'

/-- No name begins with a character that tags are made of. -/
theorem isNameStart_ne
    {char : Char} (start : isNameStart char = true)
    {mark : Char} (special : isNameStart mark = false) :
    char ≠ mark := by
  rintro rfl
  rw [start] at special
  cases special

theorem not_isSpacing_of_isNameStart
    {char : Char} (start : isNameStart char = true) :
    Text.isSpacing char = false := by
  simp only [Text.isSpacing, Bool.or_eq_false_iff, beq_eq_false_iff_ne]
  exact
    ⟨⟨⟨isNameStart_ne start (by decide), isNameStart_ne start (by decide)⟩,
      isNameStart_ne start (by decide)⟩, isNameStart_ne start (by decide)⟩

theorem exists_cons_of_isName
    {name : List Char} (lawful : isName name = true) :
    ∃ first more, name = first :: more ∧ isNameStart first = true := by
  cases name with
  | nil => cases lawful
  | cons first more =>
      rw [isName, Bool.and_eq_true] at lawful
      exact ⟨first, more, rfl, lawful.1⟩

theorem tagPart_of_field
    {input : Input} {field : String × String} {rest : List Char}
    (shape : input.rest = fieldMarkup field ++ rest)
    (lawful : isName field.1.toList = true) :
    ∃ next,
      tagPart input = .ok (.field field.1 field.2 next) ∧
        next.rest = rest := by
  obtain ⟨first, more, letters, start⟩ := exists_cons_of_isName lawful
  have front :
      input.skipSpacing.rest =
        field.1.toList ++
          "=\"".toList ++ field.2.toList.flatMap escapeAttributeChar ++
            '"' :: rest := by
    simp [Input.skipSpacing, Input.dropWhile, shape, fieldMarkup, letters,
      not_isSpacing_of_isNameStart start,
      show Text.isSpacing ' ' = true from rfl]
  obtain ⟨next, assigned, left⟩ := Input.assignment_of_append front lawful
  refine ⟨next, ?_, left⟩
  rw [letters] at front
  simp only [tagPart, assigned]
  rw [front]
  have noSlash : first ≠ '/' := isNameStart_ne start (by decide)
  have noEnd : first ≠ '>' := isNameStart_ne start (by decide)
  simp [noSlash, noEnd]

theorem tagPart_of_end
    {input : Input} (ends : EndsTag (input.rest.dropWhile Text.isSpacing)) :
    tagPart input = .ok (.close input.skipSpacing) := by
  obtain ⟨char, first, mark⟩ := ends
  obtain ⟨more, shape⟩ := List.head?_eq_some_iff.mp first
  have front : input.skipSpacing.rest = char :: more := shape
  simp only [tagPart]
  rw [front]
  simp [mark]

theorem attributes_eq
    (input : Input) (found : List (String × String)) :
    attributes input found =
      match tagPart input with
      | .error fault => .error fault
      | .ok (.close next) => .ok (found, next)
      | .ok (.field name value next) =>
          if names found name then next.flawed (.duplicateAttribute name)
          else attributes next (found ++ [(name, value)]) := by
  rw [attributes]
  split <;> next read => rw [read]

theorem attributes_of_close
    {input next : Input} (read : tagPart input = .ok (.close next))
    (found : List (String × String)) :
    attributes input found = .ok (found, next) := by
  rw [attributes_eq, read]

theorem attributes_of_field
    {input next : Input} {name value : String}
    (read : tagPart input = .ok (.field name value next))
    {found : List (String × String)} (fresh : name ∉ found.map Prod.fst) :
    attributes input found = attributes next (found ++ [(name, value)]) := by
  rw [attributes_eq, read]
  exact if_neg (by simpa [names] using fresh)

theorem attributes_of_markup
    {fields found : List (String × String)} {rest : List Char}
    (ends : EndsTag (rest.dropWhile Text.isSpacing))
    (lawful : ∀ field ∈ fields, isName field.1.toList = true)
    (distinct : ((found ++ fields).map Prod.fst).Nodup)
    {input : Input}
    (shape : input.rest = fields.flatMap fieldMarkup ++ rest) :
    ∃ next,
      attributes input found = .ok (found ++ fields, next) ∧
        next.rest = rest.dropWhile Text.isSpacing := by
  induction fields generalizing found input with
  | nil =>
      have begins : input.rest = rest := by simpa using shape
      rw [← begins] at ends ⊢
      refine ⟨input.skipSpacing, ?_, rfl⟩
      rw [attributes_of_close (tagPart_of_end ends), List.append_nil]
  | cons field fields ih =>
      rw [List.forall_mem_cons] at lawful
      rw [List.flatMap_cons, List.append_assoc] at shape
      obtain ⟨after, part, left⟩ := tagPart_of_field shape lawful.1
      have fresh : field.1 ∉ found.map Prod.fst := by
        intro member
        rw [List.map_append, List.nodup_append] at distinct
        exact distinct.2.2 _ member _ (by simp) rfl
      obtain ⟨next, others, final⟩ :=
        @ih (found ++ [field]) lawful.2 (by simpa using distinct) _ left
      refine ⟨next, ?_, final⟩
      rw [attributes_of_field part fresh, others, List.append_assoc]
      rfl

/-! ## One step -/

theorem step_of_name
    {reader : Reader} {first : Char} {rest : List Char}
    (shape : reader.input.rest = '<' :: first :: rest)
    (start : isNameStart first = true) :
    reader.step = reader.startTag := by
  have noMark : first ≠ '!' := isNameStart_ne start (by decide)
  have noQuestion : first ≠ '?' := isNameStart_ne start (by decide)
  have noSlash : first ≠ '/' := isNameStart_ne start (by decide)
  unfold step
  rw [shape]
  split
  · next empty => cases empty
  · next begins => simp [noMark] at begins
  · next begins => simp [noQuestion] at begins
  · next begins => simp [noSlash] at begins
  · rfl
  · next noTag => exact absurd rfl (noTag (first :: rest))

theorem step_of_slash
    {reader : Reader} {rest : List Char}
    (shape : reader.input.rest = '<' :: '/' :: rest) :
    reader.step = reader.endTag := by
  simp [step, shape]

theorem step_of_exclamation
    {reader : Reader} {rest : List Char}
    (shape : reader.input.rest = '<' :: '!' :: rest) :
    reader.step = reader.declared := by
  simp [step, shape]

theorem step_of_character
    {reader : Reader} {first : Char} {rest : List Char}
    (shape : reader.input.rest = first :: rest)
    (text : first ≠ '<') :
    reader.step = reader.characters := by
  unfold step
  rw [shape]
  split <;> simp_all

/-- What one step makes of the markup of an event. -/
def Delivers
    (reader : Reader) (event : Event) (names : List String)
    (rest : List Char) : Prop :=
  ∃ input,
    reader.step =
        .ok (.delivered event { reader with input, openNames := names }) ∧
      input.rest = rest

/-- The end of a start tag. -/
def tagEnd (empty : Bool) : List Char :=
  if empty then " />".toList else ['>']

theorem startTag_of_close
    {reader : Reader} {empty : Bool}
    (fits : empty = false → 0 < reader.depth →
      reader.openNames.length < reader.depth)
    {name : String} {found : List (String × String)} {named tagged : Input}
    (nameRead : (reader.input.drop 1).name = .ok (name, named))
    (fieldsRead : attributes named [] = .ok (found, tagged))
    {rest : List Char}
    (shape :
      tagged.rest = (tagEnd empty ++ rest).dropWhile Text.isSpacing) :
    ∃ input,
      reader.startTag =
          .ok
            (.delivered (.start name found empty)
              { reader with
                input
                openNames :=
                  if empty then reader.openNames
                  else name :: reader.openNames }) ∧
        input.rest = rest := by
  simp only [startTag, bind, Except.bind, nameRead, fieldsRead]
  cases empty with
  | true =>
      have front : tagged.rest = '/' :: '>' :: rest := by
        simp [shape, tagEnd, Text.isSpacing]
      have after : (tagged.drop 1).rest = '>' :: rest := by
        simp [Input.drop, front]
      obtain ⟨input, closed, left⟩ := Input.expect_of_cons after
      refine ⟨input, ?_, left⟩
      rw [front]
      simp [closed]
  | false =>
      have front : tagged.rest = '>' :: rest := by
        simp [shape, tagEnd, Text.isSpacing]
      obtain ⟨input, closed, left⟩ := Input.expect_of_cons front
      have room :
          ¬ (0 < reader.depth ∧ reader.depth ≤ reader.openNames.length) :=
        fun full => absurd (fits rfl full.1) (Nat.not_lt_of_le full.2)
      refine ⟨input, ?_, left⟩
      rw [front]
      simp [closed, room]

/-- A start tag is read as one, first its name and then its attributes. -/
theorem begins_startTag
    {reader : Reader} {name : String} (isName : isName name.toList = true)
    {attributes : List (String × String)} {empty : Bool} {rest : List Char}
    (shape :
      reader.input.rest =
        (Event.start name attributes empty).markup ++ rest) :
    reader.step = reader.startTag ∧
      ∃ named,
        (reader.input.drop 1).name = .ok (name, named) ∧
          named.rest =
            attributes.flatMap fieldMarkup ++ (tagEnd empty ++ rest) := by
  obtain ⟨first, more, letters, start⟩ := exists_cons_of_isName isName
  have front :
      reader.input.rest =
        '<' :: first ::
          (more ++ attributes.flatMap fieldMarkup ++ tagEnd empty ++
            rest) := by
    simp [shape, Event.markup, tagMarkup, letters, tagEnd]
  have inside :
      (reader.input.drop 1).rest =
        name.toList ++
          (attributes.flatMap fieldMarkup ++ (tagEnd empty ++ rest)) := by
    simp [Input.drop, front, letters]
  have stops :
      ∀ char ∈ (attributes.flatMap fieldMarkup ++
          (tagEnd empty ++ rest)).head?,
        isNameChar char = false := by
    cases attributes with
    | nil => cases empty <;> simp [tagEnd] <;> decide
    | cons field fields => simp [fieldMarkup]; decide
  exact ⟨step_of_name front start, Input.name_of_append inside isName stops⟩

theorem delivers_start
    {reader : Reader} {empty : Bool}
    (fits : empty = false → 0 < reader.depth →
      reader.openNames.length < reader.depth)
    {name : String} {attributes : List (String × String)}
    (lawful : (Event.start name attributes empty).Lawful)
    {rest : List Char}
    (shape :
      reader.input.rest =
        (Event.start name attributes empty).markup ++ rest) :
    reader.Delivers (.start name attributes empty)
      (if empty then reader.openNames else name :: reader.openNames) rest := by
  obtain ⟨isName, areNames, distinct⟩ := lawful
  obtain ⟨begins, named, nameRead, afterName⟩ := begins_startTag isName shape
  have ends :
      EndsTag ((tagEnd empty ++ rest).dropWhile Text.isSpacing) := by
    cases empty <;> simp [EndsTag, tagEnd, Text.isSpacing]
  have fresh : (([] ++ attributes).map Prod.fst).Nodup := distinct
  obtain ⟨tagged, fieldsRead, afterFields⟩ :=
    attributes_of_markup ends areNames fresh afterName
  obtain ⟨input, read, left⟩ :=
    startTag_of_close fits nameRead fieldsRead afterFields
  exact ⟨input, by rw [begins, read, List.nil_append], left⟩

theorem delivers_finish
    {reader : Reader} {name : String} {outer : List String}
    (within : reader.openNames = name :: outer)
    (lawful : isName name.toList = true)
    {rest : List Char}
    (shape : reader.input.rest = (Event.finish name).markup ++ rest) :
    reader.Delivers (.finish name) outer rest := by
  have front :
      reader.input.rest = '<' :: '/' :: (name.toList ++ '>' :: rest) := by
    simp [shape, Event.markup]
  have inside :
      (reader.input.drop 2).rest = name.toList ++ '>' :: rest := by
    simp [Input.drop, front]
  obtain ⟨named, nameRead, afterName⟩ :=
    Input.name_of_append inside lawful (by simp; decide)
  obtain ⟨input, closed, left⟩ :=
    Input.expect_of_cons (Input.skipSpacing_of_cons afterName (by decide))
  refine ⟨input, ?_, left⟩
  rw [step_of_slash front]
  simp [endTag, bind, Except.bind, nameRead, closed, within]

theorem delivers_text
    {reader : Reader} (within : reader.openNames ≠ [])
    {content : String} (written : content ≠ "")
    {rest : List Char}
    (stops : ∀ char ∈ rest.head?, char = '<')
    (shape : reader.input.rest = (Event.text content).markup ++ rest) :
    reader.Delivers (.text content) reader.openNames rest := by
  have plain :
      ∀ char ∈ content.toList.flatMap escapeTextChar,
        decide (char ≠ '<') = true := by
    intro char member
    apply decide_eq_true
    rintro rfl
    exact lessThan_not_mem_escapedText _ member
  have ends : ∀ char ∈ rest.head?, decide (char ≠ '<') = false := by
    simpa using stops
  have nonempty : content.toList.flatMap escapeTextChar ≠ [] := by
    rw [Ne, escapedText_eq_nil]
    simpa using written
  cases letters : content.toList.flatMap escapeTextChar with
  | nil => exact absurd letters nonempty
  | cons first more =>
      have front : reader.input.rest = first :: (more ++ rest) := by
        rw [shape, Event.markup, letters, List.cons_append]
      have different : first ≠ '<' := by
        simpa using plain first (by simp [letters])
      refine ⟨reader.input.dropWhile (· ≠ '<'), ?_, ?_⟩
      · rw [step_of_character front different, characters, shape,
          Event.markup, Text.takeWhile_append_of_stops plain ends]
        simp [Input.expanded, expandReferences_escapedText, bind,
          Except.bind, within]
      · show reader.input.rest.dropWhile _ = rest
        rw [shape, Event.markup, Text.dropWhile_append_of_stops plain ends]

theorem delivers_characterData
    {reader : Reader} {content : String}
    (absent : ¬ "]]>".toList <:+: content.toList)
    {rest : List Char}
    (shape :
      reader.input.rest = (Event.characterData content).markup ++ rest) :
    reader.Delivers (.characterData content) reader.openNames rest := by
  have front :
      reader.input.rest =
        '<' :: '!' ::
          (sectionStart.drop 2 ++ content.toList ++ "]]>".toList ++
            rest) := by
    simp [shape, Event.markup, sectionStart]
  have inside :
      (reader.input.drop 9).rest =
        content.toList ++ ([']', ']'] ++ ['>']) ++ rest := by
    simp [Input.drop, front, sectionStart]
  obtain ⟨input, cut, left⟩ :=
    @Input.upTo_of_append _ _ _ _ _ .unterminatedMarkup inside (by decide)
      absent
  refine ⟨input, ?_, left⟩
  rw [step_of_exclamation front, declared, toList_sectionStart]
  rw [if_neg (by simp [front, sectionStart]),
    if_pos (by simp [front, sectionStart])]
  have sameMark : "]]>".toList = [']', ']'] ++ ['>'] := rfl
  rw [sameMark, cut]
  simp [bind, Except.bind]

theorem delivers_comment
    {reader : Reader} {content : String}
    (lawful : (Event.comment content).Lawful)
    {rest : List Char}
    (shape : reader.input.rest = (Event.comment content).markup ++ rest) :
    reader.Delivers (.comment content) reader.openNames rest := by
  have front :
      reader.input.rest =
        '<' :: '!' ::
          ('-' :: '-' :: content.toList ++ "-->".toList ++ rest) := by
    simp [shape, Event.markup]
  have inside :
      (reader.input.drop 4).rest =
        content.toList ++ (['-', '-'] ++ ['>']) ++ rest := by
    simp [Input.drop, front]
  obtain ⟨input, cut, left⟩ :=
    @Input.upTo_of_append _ _ _ _ _ .unterminatedMarkup inside (by decide)
      lawful
  refine ⟨input, ?_, left⟩
  rw [step_of_exclamation front, declared, if_pos (by simp [front])]
  have sameMark : "-->".toList = ['-', '-'] ++ ['>'] := rfl
  rw [sameMark, cut]
  simp [bind, Except.bind]

/-- The next event is delivered from its markup.  Only text needs to know
what follows it. -/
theorem delivers_event
    {reader : Reader} {event : Event}
    (room : event.opens = true → 0 < reader.depth →
      reader.openNames.length < reader.depth)
    (areNames : ∀ name ∈ reader.openNames, isName name.toList = true)
    {names : List String}
    (fits : event.nest? reader.openNames = some names)
    (lawful : event.Lawful) (settled : event.Settled)
    {rest : List Char}
    (stops : event.isText = true → ∀ char ∈ rest.head?, char = '<')
    (shape : reader.input.rest = event.markup ++ rest) :
    reader.Delivers event names rest := by
  cases event with
  | start name attributes empty =>
      cases fits
      apply delivers_start _ lawful shape
      rintro rfl
      exact room rfl
  | finish name =>
      have within := nest?_finish.mp fits
      apply delivers_finish within _ shape
      exact areNames name (by simp [within])
  | text content =>
      obtain ⟨within, rfl⟩ := nest?_text.mp fits
      exact delivers_text within settled (stops rfl) shape
  | characterData content =>
      cases fits
      exact delivers_characterData settled shape
  | comment content =>
      cases fits
      exact delivers_comment lawful shape

end Reader

/-! ## A whole text -/

/-- Whether a stream consists of given events and ends at the end of its
text. -/
def Stream.Delivered (stream : Stream) (events : List Event) : Prop :=
  (∃ place, stream.ending = .ok place) ∧
    stream.events.map Prod.fst = events

namespace Reader

theorem run_eq
    (reader : Reader) :
    reader.run =
      match reader.step with
      | .error fault => ⟨[], .error fault⟩
      | .ok .ended => ⟨[], .ok reader.input.place⟩
      | .ok (.skipped next) => next.run
      | .ok (.delivered event next) =>
          next.run.cons event next.input.place := by
  rw [run]
  split <;> next read => rw [read]

/-- The markup of anything but text begins with the mark of a tag. -/
theorem head?_markupAll
    {events : List Event}
    (noText : ∀ event ∈ events.head?, event.isText = false) :
    ∀ char ∈ (markupAll events).head?, char = '<' := by
  cases events with
  | nil => simp
  | cons event rest =>
      have other : event.isText = false := noText event (by simp)
      cases event with
      | text content => cases other
      | _ => simp [Event.markup, tagMarkup, sectionStart]

/-- Open elements keep their names. -/
theorem isName_of_nest?
    {event : Event} {names next : List String}
    (fits : event.nest? names = some next) (lawful : event.Lawful)
    (areNames : ∀ name ∈ names, isName name.toList = true) :
    ∀ name ∈ next, isName name.toList = true := by
  cases event with
  | start name attributes empty =>
      cases fits
      cases empty with
      | true => exact areNames
      | false => exact List.forall_mem_cons.mpr ⟨lawful.1, areNames⟩
  | finish name =>
      rw [nest?_finish.mp fits, List.forall_mem_cons] at areNames
      exact areNames.2
  | text content =>
      obtain ⟨-, rfl⟩ := nest?_text.mp fits
      exact areNames
  | characterData content | comment content =>
      cases fits
      exact areNames

/-- Nested events in normal form are read back from their markup. -/
theorem run_markupAll
    {events : List Event} {reader : Reader}
    (shallow : Shallow reader.depth reader.openNames.length events)
    (areNames : ∀ name ∈ reader.openNames, isName name.toList = true)
    (nested : Nested reader.openNames events)
    (lawful : ∀ event ∈ events, event.Lawful)
    (settled : Settled events)
    (shape : reader.input.rest = markupAll events) :
    reader.run.Delivered events := by
  induction events generalizing reader with
  | nil =>
      have finished : reader.step = .ok .ended := by
        have closed := nested_nil.mp nested
        simp [step, shape, closed]
      rw [run_eq, finished]
      exact ⟨⟨_, rfl⟩, rfl⟩
  | cons event rest ih =>
      obtain ⟨names, fits, nestedRest⟩ := nested_cons.mp nested
      rw [List.forall_mem_cons] at lawful
      obtain ⟨settledEvent, apart, settledRest⟩ := settled
      obtain ⟨input, read, left⟩ :=
        delivers_event shallow.1 areNames fits lawful.1 settledEvent
          (fun isText => head?_markupAll (apart isText)) shape
      obtain ⟨⟨place, ended⟩, others⟩ :=
        @ih { reader with input, openNames := names }
          (length_of_nest? fits ▸ shallow.2)
          (isName_of_nest? fits lawful.1 areNames) nestedRest lawful.2
          settledRest left
      rw [run_eq, read]
      exact ⟨⟨place, ended⟩, by simp [Stream.cons, others]⟩

end Reader

/-- Whether a text keeps the bounds of the reader. -/
structure Within (limits : Limits) (text : String) : Prop where
  small : 0 < limits.size → text.utf8ByteSize ≤ limits.size
  /-- Its elements are nested no deeper than allowed. -/
  shallow :
    Shallow limits.depth 0 ((read .unlimited text).events.map Prod.fst)

/-- What is written for nested events is read back as their normal form,
unless it is too large or the normal form is nested too deep. -/
theorem delivered_of_markup
    {events : List Event} (nested : Nested [] events)
    (lawful : ∀ event ∈ events, event.Lawful) {limits : Limits}
    (shallow : Shallow limits.depth 0 (normalForm events)) {text : String}
    (written : text = String.ofList (markupAll (normalForm events)))
    (small : 0 < limits.size → text.utf8ByteSize ≤ limits.size) :
    (read limits text).Delivered (normalForm events) := by
  have room : ¬ (0 < limits.size ∧ limits.size < text.utf8ByteSize) :=
    fun full => absurd (small full.1) (Nat.not_le_of_lt full.2)
  rw [read, if_neg room]
  have letters : text.toList = markupAll (normalForm events) := by
    rw [written]
    exact String.toList_ofList ..
  exact
    Reader.run_markupAll shallow nofun (nested_normalForm nested)
      (lawful_normalForm lawful) (settled_normalForm events) letters

theorem delivered_of_shallow
    {events : List Event} (nested : Nested [] events)
    (lawful : ∀ event ∈ events, event.Lawful) {limits : Limits}
    (shallow : Shallow limits.depth 0 events) {text : String}
    (written : text = String.ofList (markupAll (normalForm events)))
    (small : 0 < limits.size → text.utf8ByteSize ≤ limits.size) :
    (read limits text).Delivered (normalForm events) :=
  delivered_of_markup nested lawful (shallow_normalForm shallow) written small

/-- Without limits what is written for nested events is read back. -/
theorem delivered_unlimited
    {events : List Event} (nested : Nested [] events)
    (lawful : ∀ event ∈ events, event.Lawful) {text : String}
    (written : text = String.ofList (markupAll (normalForm events))) :
    (read .unlimited text).Delivered (normalForm events) :=
  delivered_of_shallow nested lawful (shallow_unlimited 0 events) written
    fun bounded => absurd bounded (Nat.lt_irrefl 0)

/-- Events that are written alike have one normal form. -/
theorem normalForm_eq_of_markupAll
    {first second : List Event}
    (nested : Nested [] first) (nestedOther : Nested [] second)
    (lawful : ∀ event ∈ first, event.Lawful)
    (lawfulOther : ∀ event ∈ second, event.Lawful)
    (same :
      markupAll (normalForm first) = markupAll (normalForm second)) :
    normalForm first = normalForm second := by
  have delivered := delivered_unlimited nested lawful rfl
  have other :=
    delivered_unlimited nestedOther lawfulOther
      (congrArg String.ofList same)
  exact delivered.2.symm.trans other.2

/-- What is written for nested events is read back as their normal form. -/
theorem delivered_toText
    {events : List Event} (nested : Nested [] events)
    (lawful : ∀ event ∈ events, event.Lawful) :
    ∃ text,
      (Draft.of (events.flatMap Event.instructions)).toText = .ok text ∧
        (read .unlimited text).Delivered (normalForm events) :=
  ⟨_, toText_events nested, delivered_unlimited nested lawful rfl⟩

end AmlExchange.Markup
