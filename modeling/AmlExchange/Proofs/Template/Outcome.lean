import AmlExchange.Proofs.Markup.Spelling
import AmlExchange.Proofs.Template.Ranges

/-!
# What filling a template comes to

A writer that has room for everything refuses none of the instructions of a
template, read to its end or not.  So a fault is one of the walk or of the
reader, and the items are those that the acts count (`fillAml_outcome`).
-/

namespace AmlExchange

namespace Markup

/-- Whether an instruction leaves the open elements as they are, and asks for
no open start tag. -/
def Instruction.isInner : Instruction → Bool
  | .offerAttribute _ _ | .text _ | .raw _ | .characterData _
  | .comment _ => true
  | .startElement _ | .setAttribute _ _ | .endElement => false

namespace Writer

/-- A writer that has room for everything, in some open elements. -/
def Within (writer : Writer) (names : List String) : Prop :=
  writer.room = none ∧ writer.openNames = names

theorem perform_of_isInner
    {writer : Writer} {names : List String} (within : writer.Within names)
    {instruction : Instruction} (inner : instruction.isInner = true) :
    ∃ next,
      writer.perform instruction = .ok next ∧ next.Within names := by
  obtain ⟨unlimited, rfl⟩ := within
  have content (text : String) :
      ∃ next,
        writer.putContent text = .ok next ∧
          next.Within writer.openNames :=
    ⟨_, putContent_of_unlimited unlimited text, rfl, rfl⟩
  cases instruction with
  | startElement name => cases inner
  | setAttribute name value => cases inner
  | endElement => cases inner
  | offerAttribute name value =>
      rw [perform]
      split
      · next opened =>
          exact
            ⟨_, perform_setAttribute unlimited opened (name, value), rfl,
              rfl⟩
      · exact ⟨writer, rfl, unlimited, rfl⟩
  | text text =>
      rw [perform, Writer.text]
      split
      · exact ⟨writer, rfl, unlimited, rfl⟩
      · exact content _
  | raw text =>
      rw [perform, Writer.raw]
      split
      · exact ⟨writer, rfl, unlimited, rfl⟩
      · exact content _
  | characterData text => exact content _
  | comment text => exact content _

theorem performAll_of_isInner
    {writer : Writer} {names : List String} (within : writer.Within names)
    {instructions : List Instruction}
    (inner : ∀ instruction ∈ instructions, instruction.isInner = true) :
    ∃ next,
      writer.performAll instructions = (next, .ok ()) ∧
        next.Within names := by
  induction instructions generalizing writer with
  | nil => exact ⟨writer, rfl, within⟩
  | cons instruction rest ih =>
      rw [List.forall_mem_cons] at inner
      obtain ⟨next, performed, stays⟩ := perform_of_isInner within inner.1
      obtain ⟨final, others, ends⟩ := ih stays inner.2
      refine ⟨final, ?_, ends⟩
      rw [performAll, performed]
      exact others

/-- A writer that has room for everything can end all its elements. -/
theorem finish_of_within
    {writer : Writer} {names : List String} (within : writer.Within names) :
    ∃ final, writer.finish = .ok final := by
  have ending (outer : List String) {writer : Writer}
      (within : writer.Within outer) :
      ∃ final, writer.endElements outer = .ok final := by
    induction outer generalizing writer with
    | nil => exact ⟨writer, rfl⟩
    | cons name outer ih =>
        obtain ⟨final, ended⟩ :=
          @ih
            (writer.extended ((Event.finish name).written writer.startOpen)
              outer false)
            ⟨rfl, rfl⟩
        refine ⟨final, ?_⟩
        have done : writer.endElement = _ :=
          perform_endElement within.1 within.2
        rw [endElements, done]
        exact ended
  exact ending _ ⟨within.1, rfl⟩

end Writer

end Markup

namespace Template

open Markup (Event Instruction Writer)
open Text (Position)

/-- The number of items that some acts count. -/
def countedItems (acts : List Act) : Nat :=
  acts.count .countItem

@[simp]
theorem countedItems_append
    (first second : List Act) :
    countedItems (first ++ second) =
      countedItems first + countedItems second :=
  List.count_append

theorem mem_writes
    {instruction : Instruction} {acts : List Act} :
    instruction ∈ writes acts ↔ .write instruction ∈ acts := by
  rw [writes, List.mem_filterMap]
  constructor
  · rintro ⟨act, member, written⟩
    cases act <;> cases written
    exact member
  · exact fun member => ⟨_, member, rfl⟩

/-- What acts that are all performed come to. -/
theorem Progress.performAll_eq
    {progress : Progress} {acts : List Act} {writer : Writer}
    (performed :
      progress.writer.performAll (writes acts) = (writer, .ok ())) :
    ∃ final,
      progress.performAll acts = (final, .ok ()) ∧ final.writer = writer ∧
        final.items = progress.items + countedItems acts := by
  induction acts generalizing progress with
  | nil =>
      cases performed
      exact ⟨progress, rfl, rfl, rfl⟩
  | cons act rest ih =>
      cases act with
      | write instruction =>
          rw [writes_write_cons, Writer.performAll] at performed
          split at performed
          · cases performed
          · next next done =>
              obtain ⟨final, others, same, items⟩ :=
                @ih { progress with writer := next } performed
              refine ⟨final, ?_, same, items⟩
              rw [performAll, perform, done]
              exact others
      | lookUp name =>
          exact
            @ih { progress with lookups := name :: progress.lookups }
              performed
      | countItem =>
          obtain ⟨final, others, same, items⟩ :=
            @ih { progress with items := progress.items + 1 } performed
          refine ⟨final, others, same, ?_⟩
          rw [items, countedItems, countedItems, List.count_cons_self]
          dsimp only
          omega

namespace Walk

variable {setting : Setting} {walk next : Walk}

theorem mem_rangeAttributes
    {written : List String} {value : Option Value} {act : Act}
    (member : act ∈ rangeAttributes written value) :
    ∃ name text,
      act = .write (.offerAttribute name text) ∧
        Markup.isName name.toList = true := by
  have offered {listed : Bool} {name text : String}
      (isName : Markup.isName name.toList = true)
      (member :
        act ∈
          if listed then []
          else [Act.write (.offerAttribute name text)]) :
      ∃ name text,
        act = .write (.offerAttribute name text) ∧
          Markup.isName name.toList = true := by
    cases listed with
    | true => cases member
    | false => exact ⟨name, text, List.mem_singleton.mp member, isName⟩
  simp only [rangeAttributes] at member
  split at member
  · rcases List.mem_append.mp member with condition | range
    · split at condition
      · exact offered (by decide) condition
      · cases condition
    · exact offered (by decide) range
  · split at member
    · exact offered (by decide) member
    · cases member
  · cases member

/-- A text is written within its element. -/
theorem mem_insertText
    {content : String} {act : Act}
    (member : act ∈ insertText setting walk content) :
    (∃ name, act = .lookUp name) ∨
      ∃ instruction, act = .write instruction ∧
        instruction.isInner = true := by
  simp only [insertText, lookUps, List.mem_append, List.mem_map,
    List.mem_singleton] at member
  rcases member with (⟨name, -, rfl⟩ | offered) | rfl
  · exact .inl ⟨name, rfl⟩
  · obtain ⟨name, text, rfl, -⟩ := mem_rangeAttributes offered
    exact .inr ⟨_, rfl, rfl⟩
  · have inner (raw : Bool) (text : String) :
        (if raw then Instruction.raw text else .text text).isInner = true := by
      cases raw <;> rfl
    exact .inr ⟨_, rfl, inner _ _⟩

theorem isInner_of_text
    {content : String} {place : Position} {instruction : Instruction}
    (member :
      .write instruction ∈ (step setting walk (.text content) place).1) :
    instruction.isInner = true := by
  rw [step] at member
  split at member
  · split at member
    · cases List.mem_singleton.mp member
      rfl
    · cases member
  · rcases mem_insertText member with ⟨name, same⟩ | ⟨other, same, inner⟩
    · cases same
    · cases same
      exact inner

theorem isInner_of_characterData
    {content : String} {place : Position} {instruction : Instruction}
    (member :
      .write instruction ∈
        (step setting walk (.characterData content) place).1) :
    instruction.isInner = true := by
  simp only [step] at member
  split at member <;>
    simp [lookUps] at member
  rw [member]
  rfl

theorem isInner_of_comment
    {content : String} {place : Position} {instruction : Instruction}
    (member :
      .write instruction ∈ (step setting walk (.comment content) place).1) :
    instruction.isInner = true := by
  cases List.mem_singleton.mp member
  rfl

/-- What stands within an element is written there. -/
theorem performs_content
    {acts : List Act}
    (inner : ∀ {instruction},
      .write instruction ∈ acts → instruction.isInner = true)
    {writer : Writer} {names : List String} (inside : writer.Within names) :
    ∃ final,
      writer.performAll (writes acts) = (final, .ok ()) ∧
        final.room = none ∧ final.openNames = names := by
  obtain ⟨final, performed, stays⟩ :=
    Writer.performAll_of_isInner inside
      fun instruction member => inner (mem_writes.mp member)
  exact ⟨final, performed, stays⟩

/-- A start tag is written up to an attribute that fails, and is entered if
none does. -/
theorem performs_start
    {name : String} {attributes : List (String × String)} {empty : Bool}
    {place : Position} {writer : Writer} (unlimited : writer.room = none) :
    ∃ final,
      writer.performAll
          (writes (step setting walk (.start name attributes empty) place).1) =
        (final, .ok ()) ∧
      final.room = none ∧
      ∀ next,
        (step setting walk (.start name attributes empty) place).2 =
            .ok next →
          final.openNames =
            if empty then writer.openNames else name :: writer.openNames := by
  cases outcome : renderAttributes setting place attributes with
  | mk names result =>
      cases result with
      | error fault =>
          simp only [step, outcome]
          rw [writes_write_cons, writes_lookUps,
            Writer.performAll_singleton
              (Writer.perform_startElement unlimited name)]
          exact ⟨_, rfl, rfl, fun _ failed => by cases failed⟩
      | ok rendered =>
          simp only [step, outcome]
          rw [List.cons_append, writes_write_cons, writes_append,
            writes_lookUps, List.nil_append, writes_enter,
            Writer.performAll_start unlimited]
          exact ⟨_, rfl, rfl, fun _ _ => rfl⟩

/-- One event of a template is written. -/
theorem performs_step
    {event : Event} {names within : List String}
    (fits : event.nest? names = some within)
    {writer : Writer} (inside : writer.Within names)
    (place : Position) :
    ∃ final,
      writer.performAll (writes (step setting walk event place).1) =
          (final, .ok ()) ∧
        final.room = none ∧
        ∀ next, (step setting walk event place).2 = .ok next →
          final.openNames = within := by
  cases event with
  | start name attributes empty =>
      cases fits
      obtain ⟨unlimited, rfl⟩ := inside
      exact performs_start unlimited
  | finish name =>
      obtain ⟨unlimited, rfl⟩ := inside
      exact
        ⟨_, Writer.performAll_singleton
            (Writer.perform_endElement unlimited (Markup.nest?_finish.mp fits)),
          rfl, fun _ _ => rfl⟩
  | text content =>
      obtain ⟨-, rfl⟩ := Markup.nest?_text.mp fits
      obtain ⟨final, performed, unlimited, names⟩ :=
        performs_content isInner_of_text inside
      exact ⟨final, performed, unlimited, fun _ _ => names⟩
  | characterData content =>
      cases fits
      obtain ⟨final, performed, unlimited, names⟩ :=
        performs_content isInner_of_characterData inside
      exact ⟨final, performed, unlimited, fun _ _ => names⟩
  | comment content =>
      cases fits
      obtain ⟨final, performed, unlimited, names⟩ :=
        performs_content isInner_of_comment inside
      exact ⟨final, performed, unlimited, fun _ _ => names⟩

/-- The events of a template are written, up to a value that may not stand
unescaped where it does. -/
theorem performs_script
    {events : List (Event × Position)} {names within : List String}
    (fits :
      (events.map Prod.fst).foldlM (fun names event => event.nest? names)
        names = some within)
    {writer : Writer} (inside : writer.Within names) :
    ∃ final,
      writer.performAll (writes (script setting walk events).1) =
          (final, .ok ()) ∧
        final.room = none := by
  induction events generalizing walk names writer with
  | nil => exact ⟨writer, rfl, inside.1⟩
  | cons pair rest ih =>
      obtain ⟨event, place⟩ := pair
      rw [List.map_cons, List.foldlM_cons] at fits
      obtain ⟨between, nests, onward⟩ := Option.bind_eq_some_iff.mp fits
      obtain ⟨middle, performed, unlimited, stays⟩ :=
        @performs_step setting walk event names between nests writer inside
          place
      cases outcome : step setting walk event place with
      | mk acts result =>
          rw [outcome] at performed stays
          cases result with
          | error fault =>
              simp only [script, outcome]
              exact ⟨middle, performed, unlimited⟩
          | ok next =>
              obtain ⟨final, others, last⟩ :=
                @ih next _ onward _ ⟨unlimited, stays next rfl⟩
              refine ⟨final, ?_, last⟩
              simp only [script, outcome]
              rw [writes_append, Writer.performAll_append performed, others]

end Walk

namespace Substitution

/-- The writer performs all that the walk writes.  So filling fails where the
walk does, or else where the reader does, and otherwise ends what is open. -/
theorem fillAml_eq
    (setting : Setting) (template : String) :
    ∃ progress final,
      (Writer.new none).performAll
            (writes
              (Walk.script setting .start
                (Markup.read .standard template).events).1) =
          (progress.writer, .ok ()) ∧
        progress.writer.finish = .ok final ∧
        progress.items =
          countedItems
            (Walk.script setting .start
              (Markup.read .standard template).events).1 ∧
        fillAml setting none template =
          match
            (Walk.script setting .start
              (Markup.read .standard template).events).2,
            (Markup.read .standard template).ending
          with
          | .error fault, _ => (progress, .error fault)
          | .ok _, .error fault => (progress, .error fault)
          | .ok _, .ok _ => ({ progress with writer := final }, .ok ()) := by
  obtain ⟨⟨names, fits, -⟩, -⟩ := Markup.nests_read .standard template
  obtain ⟨writer, performed, unlimited⟩ :=
    @Walk.performs_script setting .start _ _ _ fits (.new none) ⟨rfl, rfl⟩
  obtain ⟨final, finished⟩ := Writer.finish_of_within ⟨unlimited, rfl⟩
  obtain ⟨progress, done, rfl, items⟩ :=
    @Progress.performAll_eq ⟨.new none, [], 0⟩ _ _ performed
  rw [Nat.zero_add] at items
  refine ⟨progress, final, performed, finished, items, ?_⟩
  cases ended :
      (Walk.script setting .start (Markup.read .standard template).events).2 with
  | error fault => simp only [fillAml, done, ended]
  | ok walk =>
      cases broken : (Markup.read .standard template).ending with
      | error fault => simp only [fillAml, done, ended, broken]
      | ok place => simp only [fillAml, done, ended, broken, finished]

/-- What filling a template comes to: the writer is the one that performs what
the walk writes, the items are those the walk counts, and a fault is one of
the walk, or else of the reader. -/
theorem fillAml_outcome
    (setting : Setting) (template : String) :
    ∃ writer final,
      (Writer.new none).performAll
            (writes
              (Walk.script setting .start
                (Markup.read .standard template).events).1) =
          (writer, .ok ()) ∧
        writer.finish = .ok final ∧
        (fillAml setting none template).1.items =
          countedItems
            (Walk.script setting .start
              (Markup.read .standard template).events).1 ∧
        faultKind? (fillAml setting none template).2 =
          (faultKind?
              (Walk.script setting .start
                (Markup.read .standard template).events).2).or
            (faultKind? (Markup.read .standard template).ending) ∧
        (fillAml setting none template).1.writer =
          if faultKind? (fillAml setting none template).2 = none then final
          else writer := by
  obtain ⟨progress, final, performed, finished, items, filled⟩ :=
    fillAml_eq setting template
  refine ⟨progress.writer, final, performed, finished, ?_⟩
  rw [filled]
  split
  · next walked =>
      rw [walked]
      exact ⟨items, rfl, rfl⟩
  · next walked ended =>
      rw [walked, ended]
      exact ⟨items, rfl, rfl⟩
  · next walked ended =>
      rw [walked, ended]
      exact ⟨items, rfl, rfl⟩

end Substitution

end Template

end AmlExchange
