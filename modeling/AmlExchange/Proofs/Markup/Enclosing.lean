import AmlExchange.Proofs.Markup.StepLocality
import AmlExchange.Proofs.Text.Marks

/-!
# Texts within further elements

A text that is readable on its own keeps its events where it stands within
further elements and before further markup.  A tag ends at its mark, whatever
follows it (`Reader.step_of_tagged`), and no step looks past the elements that
the text itself has opened (`Reader.step_within`).  Only spacing between the
outermost elements, which is passed over in a text of its own, is text of the
enclosing element (`Reader.run_enclosed`).
-/

namespace AmlExchange.Markup

/-- The events of a text that is read without limits. -/
def eventsOf (text : String) : List Event :=
  (read .unlimited text).events.map Prod.fst

/-- Whether a run consists of some events with text of spacing added, at most
where none of the given elements is open. -/
inductive Spaced : List String → List Event → List Event → Prop where
  | nil : Spaced [] [] []
  | keep {names next : List String} {event : Event} {events run : List Event}
      (fits : event.nest? names = some next) (rest : Spaced next events run) :
      Spaced names (event :: events) (event :: run)
  | space {content : String} {events run : List Event}
      (spacing : isSpaced content = true) (rest : Spaced [] events run) :
      Spaced [] events (.text content :: run)

namespace Reader

open Input

/-! ## More open elements -/

/-- A step with more elements open around those of the text. -/
def Step.within (step : Step) (outer : List String) : Step :=
  match step with
  | .ended => .ended
  | .skipped next =>
      .skipped { next with openNames := next.openNames ++ outer }
  | .delivered event next =>
      .delivered event { next with openNames := next.openNames ++ outer }

section

variable
  {reader : Reader} {step : Step} (outer : List String)

theorem startTag_within
    (unbounded : reader.depth = 0) (read : reader.startTag = .ok step) :
    Reader.startTag { reader with openNames := reader.openNames ++ outer } =
      .ok (step.within outer) := by
  rw [startTag_eq] at read ⊢
  cases opened : opening reader.input with
  | error fault =>
      rw [opened] at read
      cases read
  | ok tag =>
      simp only [opened, bind, Except.bind, closeTag] at read ⊢
      split at read
      · split at read
        · cases read
        · cases read
          rfl
      · split at read
        · cases read
        · rw [if_neg (by simp [unbounded])] at read ⊢
          cases read
          rfl

theorem endTag_within
    (read : reader.endTag = .ok step) :
    Reader.endTag { reader with openNames := reader.openNames ++ outer } =
      .ok (step.within outer) := by
  simp only [endTag, bind, Except.bind] at read ⊢
  split at read
  · cases read
  · split at read
    · cases read
    · split at read
      · cases read
      · next expected inner within =>
          split at read
          · next same =>
              cases read
              simp [within, same, Step.within]
          · cases read

theorem declared_within
    (read : reader.declared = .ok step) :
    Reader.declared { reader with openNames := reader.openNames ++ outer } =
      .ok (step.within outer) := by
  simp only [declared, bind, Except.bind] at read ⊢
  split at read
  · next comment =>
      rw [if_pos comment]
      split at read
      · cases read
      · cases read
        rfl
  · next noComment =>
      rw [if_neg noComment]
      split at read
      · next data =>
          rw [if_pos data]
          split at read
          · cases read
          · cases read
            rfl
      · next noData =>
          rw [if_neg noData]
          split at read
          · cases read
          · cases read
            rfl

theorem instruction_within
    (read : reader.instruction = .ok step) :
    Reader.instruction { reader with openNames := reader.openNames ++ outer } =
      .ok (step.within outer) := by
  simp only [instruction, bind, Except.bind] at read ⊢
  split at read
  · cases read
  · cases read
    rfl

/-- A step at a tag does not look past the elements of the text. -/
theorem step_within
    {rest : List Char} (tagged : reader.input.rest = '<' :: rest)
    (unbounded : reader.depth = 0) (read : reader.step = .ok step) :
    Reader.step { reader with openNames := reader.openNames ++ outer } =
      .ok (step.within outer) := by
  obtain ⟨branch, member, chosen⟩ := exists_tag_branch tagged
  refine
    (chosen { reader with openNames := reader.openNames ++ outer } rfl).trans
      ?_
  rw [chosen reader rfl] at read
  simp only [List.mem_cons, List.not_mem_nil, or_false] at member
  rcases member with rfl | rfl | rfl | rfl
  · exact startTag_within outer unbounded read
  · exact endTag_within outer read
  · exact declared_within outer read
  · exact instruction_within outer read

end

/-! ## One step within further elements -/

/-- Whether one reader stands where another does, but within further elements
and before further text. -/
structure Encloses (outer : List String) (after : List Char)
    (reader other : Reader) : Prop where
  depth : other.depth = reader.depth
  openNames : other.openNames = reader.openNames ++ outer
  rest : other.input.rest = reader.input.rest ++ after

/-- What a step comes to within further elements.  Spacing that is passed over
outside of all elements is text within others. -/
inductive Answers (outer : List String) (after : List Char)
    (reader : Reader) : Step → Step → Prop where
  | skipped {next other : Reader} (onward : Encloses outer after next other) :
      Answers outer after reader (.skipped next) (.skipped other)
  | delivered {event : Event} {next other : Reader}
      (onward : Encloses outer after next other) :
      Answers outer after reader (.delivered event next)
        (.delivered event other)
  | spaced {content : String} {next other : Reader}
      (outside : reader.openNames = []) (spacing : isSpaced content = true)
      (onward : Encloses outer after next other) :
      Answers outer after reader (.skipped next)
        (.delivered (.text content) other)

/-- Text ends before a tag as it does at the end of a text. -/
theorem characters_enclosed
    {outer : List String} (inside : outer ≠ []) {after : List Char}
    {reader other : Reader}
    (encloses : Encloses outer ('<' :: after) reader other)
    {step : Step} (read : reader.characters = .ok step) :
    ∃ answer, other.characters = .ok answer ∧
      Answers outer ('<' :: after) reader step answer := by
  have onward :
      Encloses outer ('<' :: after)
        { reader with input := reader.input.dropWhile (· ≠ '<') }
        { other with input := other.input.dropWhile (· ≠ '<') } := by
    refine ⟨encloses.depth, encloses.openNames, ?_⟩
    show other.input.rest.dropWhile _ = _
    rw [encloses.rest]
    exact Text.dropWhile_append_mark (by simp) reader.input.rest after
  have nonempty : other.openNames.isEmpty = false := by
    simp [encloses.openNames, inside]
  simp only [characters, bind, Except.bind, expanded] at read ⊢
  rw [encloses.rest, Text.takeWhile_append_mark (by simp), nonempty]
  cases found : expandReferences (reader.input.rest.takeWhile (· ≠ '<')) with
  | error reference =>
      rw [found] at read
      cases read
  | ok text =>
      rw [found] at read
      refine ⟨_, rfl, ?_⟩
      dsimp only at read
      split at read
      · next outermost =>
          split at read
          · next spacing =>
              cases read
              exact .spaced (by simpa using outermost) spacing onward
          · cases read
      · cases read
        exact .delivered onward

/-- A step of a text on its own has an answer where the text stands within
further elements and before a tag. -/
theorem step_enclosed
    {outer : List String} (inside : outer ≠ []) {after : List Char}
    {reader other next : Reader}
    (encloses : Encloses outer ('<' :: after) reader other)
    (unbounded : reader.depth = 0) {step : Step}
    (read : reader.step = .ok step) (reached : step.next? = some next) :
    ∃ answer, other.step = .ok answer ∧
      Answers outer ('<' :: after) reader step answer := by
  cases shape : reader.input.rest with
  | nil =>
      obtain ⟨stretch, moved, leads⟩ := movesTo_step read reached
      have nothing := shape.symm.trans leads.1
      exact absurd (List.append_eq_nil_iff.mp nothing.symm).1 moved
  | cons char rest =>
      have front := encloses.rest
      rw [shape, List.cons_append] at front
      by_cases tag : char = '<'
      · subst tag
        obtain ⟨stretch, leads, again⟩ :=
          @step_of_tagged
            { reader with openNames := reader.openNames ++ outer }
            { next with openNames := next.openNames ++ outer } _ rest shape
            (step_within outer shape unbounded read)
            (by cases step <;> cases reached <;> rfl)
        have beyond :
            other.input.rest = stretch ++ (next.input.rest ++ '<' :: after) := by
          rw [encloses.rest, leads.1, List.append_assoc]
        obtain ⟨last, took, left⟩ := again other.input _ beyond
        have same :
            other =
              { reader with
                input := other.input
                openNames := reader.openNames ++ outer } := by
          rw [← encloses.depth, ← encloses.openNames]
        rw [same]
        have onward :
            Encloses outer ('<' :: after) next
              { next with input := last, openNames := next.openNames ++ outer } :=
          ⟨rfl, rfl, left⟩
        refine ⟨_, took, ?_⟩
        cases step with
        | ended => cases reached
        | skipped =>
            cases reached
            exact .skipped onward
        | delivered event =>
            cases reached
            exact .delivered onward
      · rw [step_of_character shape tag] at read
        rw [step_of_character front tag]
        exact characters_enclosed inside encloses read

/-! ## A whole text -/

/-- Only at the end of a text there is no step to go on from. -/
theorem rest_of_ended
    {reader : Reader} (read : reader.step = .ok .ended) :
    reader.input.rest = [] := by
  unfold step at read
  split at read
  · assumption
  · simp only [declared, bind, Except.bind] at read
    split at read
    · split at read <;> cases read
    · split at read <;> split at read <;> cases read
  · simp only [instruction, bind, Except.bind] at read
    split at read <;> cases read
  · simp only [endTag, bind, Except.bind] at read
    split at read
    · cases read
    · split at read
      · cases read
      · split at read
        · cases read
        · split at read <;> cases read
  · rw [startTag_eq] at read
    cases opened : opening reader.input with
    | error fault =>
        rw [opened] at read
        cases read
    | ok tag =>
        rw [opened] at read
        obtain ⟨_, _, same, -⟩ := mark_of_closeTag read
        cases same
  · simp only [characters, bind, Except.bind] at read
    split at read
    · cases read
    · split at read
      · split at read <;> cases read
      · cases read

/-- Whether a reader delivers some events and then goes on as another. -/
def Reaches (reader : Reader) (events : List Event) (last : Reader) : Prop :=
  reader.run.events.map Prod.fst = events ++ last.run.events.map Prod.fst ∧
    reader.run.ending = last.run.ending

namespace Reaches

variable
  {reader next last : Reader} {event : Event} {first second : List Event}

theorem refl
    (reader : Reader) :
    reader.Reaches [] reader :=
  ⟨rfl, rfl⟩

theorem trans
    (before : reader.Reaches first next) (after : next.Reaches second last) :
    reader.Reaches (first ++ second) last :=
  ⟨by rw [before.1, after.1, List.append_assoc], before.2.trans after.2⟩

theorem of_skipped
    (read : reader.step = .ok (.skipped next)) :
    reader.Reaches [] next := by
  rw [Reaches, run_eq reader, read]
  exact ⟨rfl, rfl⟩

theorem of_delivered
    (read : reader.step = .ok (.delivered event next)) :
    reader.Reaches [event] next := by
  rw [Reaches, run_eq reader, read]
  exact ⟨rfl, rfl⟩

end Reaches

/-- A text that is readable on its own is read through within further
elements, up to the tag that follows. -/
theorem run_enclosed
    {outer : List String} (inside : outer ≠ []) {after : List Char}
    {reader other : Reader} {place : Text.Position}
    (encloses : Encloses outer ('<' :: after) reader other)
    (unbounded : reader.depth = 0) (ended : reader.run.ending = .ok place) :
    ∃ (run : List Event) (input : Input),
      Spaced reader.openNames (reader.run.events.map Prod.fst) run ∧
        other.Reaches run ⟨0, input, outer⟩ ∧ input.rest = '<' :: after := by
  fun_induction Reader.run reader generalizing other with
  | case1 => cases ended
  | case2 reader read =>
      have closed : reader.openNames = [] := fits_step read
      have nothing := rest_of_ended read
      obtain ⟨depth, input, names⟩ := other
      obtain ⟨rfl, rfl, appended⟩ := encloses
      refine ⟨[], input, closed ▸ .nil, ?_, ?_⟩
      · rw [closed, unbounded]
        exact .refl _
      · rw [appended, nothing, List.nil_append]
  | case3 reader next read ih =>
      obtain ⟨same, depth⟩ := fits_step read
      obtain ⟨answer, answered, answers⟩ :=
        step_enclosed inside encloses unbounded read rfl
      rw [← depth] at unbounded
      cases answers with
      | skipped onward =>
          obtain ⟨run, input, spaced, reaches, left⟩ :=
            ih onward unbounded ended
          rw [same] at spaced
          exact
            ⟨run, input, spaced, (Reaches.of_skipped answered).trans reaches,
              left⟩
      | @spaced content _ further outside spacing onward =>
          obtain ⟨run, input, spaced, reaches, left⟩ :=
            ih onward unbounded ended
          rw [same, outside] at spaced
          rw [outside]
          exact
            ⟨_, input, .space spacing spaced,
              (Reaches.of_delivered answered).trans reaches, left⟩
  | case4 reader event next read ih =>
      obtain ⟨fits, -, -, depth⟩ := fits_step read
      obtain ⟨answer, answered, answers⟩ :=
        step_enclosed inside encloses unbounded read rfl
      rw [← depth] at unbounded
      cases answers with
      | delivered onward =>
          obtain ⟨run, input, spaced, reaches, left⟩ :=
            ih onward unbounded ended
          exact
            ⟨_, input, .keep fits spaced,
              (Reaches.of_delivered answered).trans reaches, left⟩

/-- Texts that begin with tags and are readable on their own are read through
within further elements, one after the other. -/
theorem run_texts
    {outer : List String} (inside : outer ≠ []) {after : List Char}
    {texts : List String}
    (begun : ∀ text ∈ texts, text.toList.head? = some '<')
    (readable : ∀ text ∈ texts, ∃ place,
      (read .unlimited text).ending = .ok place)
    {input : Input}
    (shape : input.rest = texts.flatMap String.toList ++ '<' :: after) :
    ∃ (runs : List (List Event)) (last : Input),
      List.Forall₂ (fun text run => Spaced [] (eventsOf text) run)
          texts runs ∧
        Reader.Reaches ⟨0, input, outer⟩ runs.flatten ⟨0, last, outer⟩ ∧
          last.rest = '<' :: after := by
  induction texts generalizing input with
  | nil => exact ⟨[], input, .nil, .refl _, shape⟩
  | cons text texts ih =>
      rw [List.forall_mem_cons] at begun readable
      obtain ⟨place, ended⟩ := readable.1
      -- what follows a text is the next one or the tag after all of them
      obtain ⟨more, follows⟩ :
          ∃ more, texts.flatMap String.toList ++ '<' :: after = '<' :: more := by
        cases texts with
        | nil => exact ⟨after, rfl⟩
        | cons next texts =>
            obtain ⟨tail, front⟩ :=
              List.head?_eq_some_iff.mp (begun.2 next List.mem_cons_self)
            exact ⟨_, by rw [List.flatMap_cons, front]; rfl⟩
      rw [List.flatMap_cons, List.append_assoc] at shape
      have encloses :
          Encloses outer ('<' :: more) ⟨0, .ofText text, []⟩
            ⟨0, input, outer⟩ :=
        ⟨rfl, rfl, follows ▸ shape⟩
      obtain ⟨run, middle, spaced, reaches, left⟩ :=
        run_enclosed inside encloses rfl ended
      obtain ⟨runs, last, others, onward, remains⟩ :=
        ih begun.2 readable.2 (left.trans follows.symm)
      exact
        ⟨run :: runs, last, .cons spaced others, reaches.trans onward, remains⟩

/-- What is delivered on the way to the end of a text is all that is
delivered. -/
theorem delivered_of_reaches
    {reader : Reader} {events : List Event} {input : Input}
    (reaches : reader.Reaches events ⟨0, input, []⟩)
    (ended : input.rest = []) :
    reader.run.Delivered events := by
  have finished : Reader.run ⟨0, input, []⟩ = ⟨[], .ok input.place⟩ := by
    rw [run_eq]
    simp [step, ended]
  rw [Reaches, finished] at reaches
  exact ⟨⟨_, reaches.2⟩, reaches.1.trans (List.append_nil _)⟩

/-- Several texts within one element are read as the element, and in it the
events of the texts one after the other. -/
theorem delivered_within_element
    {name : String} (lawful : isName name.toList = true)
    {texts : List String}
    (begun : ∀ text ∈ texts, text.toList.head? = some '<')
    (readable : ∀ text ∈ texts, ∃ place,
      (read .unlimited text).ending = .ok place)
    {whole : String}
    (written : whole.toList =
      (Event.start name [] false).markup ++ texts.flatMap String.toList ++
        (Event.finish name).markup) :
    ∃ runs : List (List Event),
      List.Forall₂ (fun text run => Spaced [] (eventsOf text) run)
          texts runs ∧
        (read .unlimited whole).Delivered
          (.start name [] false :: runs.flatten ++ [.finish name]) := by
  have areFields : (Event.start name [] false).Lawful :=
    ⟨lawful, by simp, by simp⟩
  have opens :
      (Input.ofText whole).rest =
        (Event.start name [] false).markup ++
          (texts.flatMap String.toList ++ (Event.finish name).markup) := by
    rw [← List.append_assoc]
    exact written
  obtain ⟨inner, started, within⟩ :=
    @delivers_start ⟨0, .ofText whole, []⟩ false (by simp) name [] areFields _
      opens
  obtain ⟨runs, last, spaced, reaches, closes⟩ :=
    @run_texts [name] (by simp) ('/' :: (name.toList ++ ['>'])) texts begun
      readable inner within
  obtain ⟨final, finished, left⟩ :=
    @delivers_finish ⟨0, last, [name]⟩ name [] rfl lawful []
      (closes.trans (by simp [Event.markup]))
  refine ⟨runs, spaced, ?_⟩
  have through :=
    ((Reaches.of_delivered started).trans reaches).trans
      (Reaches.of_delivered finished)
  exact delivered_of_reaches through left

end Reader

end AmlExchange.Markup
