import AmlExchange.Proofs.Markup.Streams
import AmlExchange.Proofs.Template.Injection

/-!
# Date ranges in templates

An element that holds nothing but a placeholder for a relative date range is
filled with the bounds of the range.  Its start tag gets two more attributes:
the condition of the range, unless it has a condition, and the range itself.
These are added when the text is written, to a start tag that is still open,
and so they end up where the start tag would have had them from the beginning.
-/

namespace AmlExchange.Template

open Markup (Draft Event Instruction Nested Shallow Writer normalForm)
open Text (Position)

/-! ## Instructions that do the same -/

/-- Whether no writer tells some instructions from others. -/
def Alike (first second : List Instruction) : Prop :=
  ∀ writer : Writer, writer.performAll first = writer.performAll second

namespace Alike

theorem refl
    (instructions : List Instruction) :
    Alike instructions instructions :=
  fun _ => rfl

theorem trans
    {first second third : List Instruction}
    (left : Alike first second) (right : Alike second third) :
    Alike first third :=
  fun writer => (left writer).trans (right writer)

theorem cons
    {first second : List Instruction} (alike : Alike first second)
    (instruction : Instruction) :
    Alike (instruction :: first) (instruction :: second) := by
  intro writer
  rw [Writer.performAll, Writer.performAll]
  split
  · rfl
  · exact alike _

theorem append_left
    {first second : List Instruction} (alike : Alike first second)
    (front : List Instruction) :
    Alike (front ++ first) (front ++ second) := by
  induction front with
  | nil => exact alike
  | cons instruction rest ih => exact ih.cons instruction

end Alike

/-- Attributes set one after the other. -/
def settings (fields : List (String × String)) : List Instruction :=
  fields.map fun field => .setAttribute field.1 field.2

/-- Attributes offered one after the other. -/
def offerings (fields : List (String × String)) : List Instruction :=
  fields.map fun field => .offerAttribute field.1 field.2

theorem startOpen_setAttribute
    {writer next : Writer} {name value : String}
    (done : writer.setAttribute name value = .ok next) :
    next.startOpen = true := by
  rw [Writer.setAttribute] at done
  split at done
  · next opened =>
      rw [Writer.put] at done
      split at done
      · cases done
        exact opened
      · cases done
  · cases done

theorem startOpen_startElement
    {writer next : Writer} {name : String}
    (done : writer.startElement name = .ok next) :
    next.startOpen = true := by
  simp only [Writer.startElement, bind, Except.bind] at done
  split at done
  · cases done
  · cases done
    rfl

theorem startOpen_putContent
    {writer next : Writer} {text : String}
    (done : writer.putContent text = .ok next) :
    next.startOpen = false := by
  rw [Writer.putContent, Writer.put] at done
  split at done
  · cases done
    rfl
  · cases done

theorem startOpen_endElement
    {writer next : Writer} (done : writer.endElement = .ok next) :
    next.startOpen = false := by
  have put {writer next : Writer} {text : String}
      (done : writer.put text = .ok next) :
      next.startOpen = writer.startOpen := by
    rw [Writer.put] at done
    split at done
    · cases done
      rfl
    · cases done
  rw [Writer.endElement] at done
  split at done
  · cases done
  · split at done
    · exact put done
    · next closed =>
        rw [put done]
        simpa using closed

/-- Attributes for a start tag that is still open. -/
def pending (writer : Writer) (offers : List (String × String)) :
    List Instruction :=
  if writer.startOpen then settings offers else []

theorem pending_of_open
    {writer : Writer} (opened : writer.startOpen = true)
    (offers : List (String × String)) :
    pending writer offers = settings offers :=
  if_pos opened

theorem pending_of_closed
    {writer : Writer} (closed : writer.startOpen = false)
    (offers : List (String × String)) :
    pending writer offers = [] :=
  if_neg (by simp [closed])

/-- Whether instructions do what others do, except that they add attributes to
a start tag that is still open before them. -/
def ComesTo (instructions : List Instruction)
    (offers : List (String × String)) (others : List Instruction) : Prop :=
  ∀ writer : Writer,
    writer.performAll instructions =
      writer.performAll (pending writer offers ++ others)

namespace ComesTo

variable
  {instructions others : List Instruction}
  {offers : List (String × String)}

theorem of_alike
    (alike : Alike instructions others) :
    ComesTo instructions [] others := by
  intro writer
  have nothing : pending writer [] = [] := by
    rw [pending]
    split <;> rfl
  rw [nothing]
  exact alike writer

/-- No start tag is open at the beginning. -/
theorem toText_eq
    (comes : ComesTo instructions offers others) :
    (Draft.of instructions).toText = (Draft.of others).toText := by
  rw [Draft.toText, Draft.toText, Draft.writeTo, Draft.writeTo, Draft.of,
    Draft.of]
  dsimp only
  rw [comes, pending_of_closed rfl, List.nil_append]

/-- A start tag that is open takes an attribute that it is offered. -/
theorem offer
    (comes : ComesTo instructions offers others) (field : String × String) :
    ComesTo (.offerAttribute field.1 field.2 :: instructions)
      (field :: offers) others := by
  intro writer
  cases opened : writer.startOpen with
  | true =>
      have taken :
          writer.perform (.offerAttribute field.1 field.2) =
            writer.perform (.setAttribute field.1 field.2) :=
        if_pos opened
      rw [pending_of_open opened, Writer.performAll, taken]
      show _ =
        writer.performAll
          (.setAttribute field.1 field.2 :: (settings offers ++ others))
      rw [Writer.performAll]
      split
      · rfl
      · next next done =>
          rw [comes, pending_of_open (startOpen_setAttribute done)]
  | false =>
      have passed :
          writer.perform (.offerAttribute field.1 field.2) = .ok writer :=
        if_neg (by simp [opened])
      rw [pending_of_closed opened, Writer.performAll, passed]
      dsimp only
      rw [comes, pending_of_closed opened]

theorem offerAll
    (comes : ComesTo instructions offers others)
    (fields : List (String × String)) :
    ComesTo (offerings fields ++ instructions) (fields ++ offers) others := by
  induction fields with
  | nil => exact comes
  | cons field rest ih => exact ih.offer field

/-- After what leaves no start tag open there is none to take attributes. -/
theorem close
    {instruction : Instruction}
    (closes : ∀ writer next : Writer,
      writer.perform instruction = .ok next → next.startOpen = false)
    (comes : ComesTo instructions offers others) :
    Alike (instruction :: instructions) (instruction :: others) := by
  intro writer
  rw [Writer.performAll, Writer.performAll]
  split
  · rfl
  · next next done =>
      rw [comes, pending_of_closed (closes _ _ done)]
      rfl

theorem performAll_settings
    (comes : ComesTo instructions offers others) {writer : Writer}
    (opened : writer.startOpen = true) (fields : List (String × String)) :
    writer.performAll (settings fields ++ instructions) =
      writer.performAll (settings fields ++ (settings offers ++ others)) := by
  induction fields generalizing writer with
  | nil => exact (comes writer).trans (by rw [pending_of_open opened]; rfl)
  | cons field rest ih =>
      show
        writer.performAll (.setAttribute field.1 field.2 :: _) =
          writer.performAll (.setAttribute field.1 field.2 :: _)
      rw [Writer.performAll, Writer.performAll]
      split
      · rfl
      · next done => exact ih (startOpen_setAttribute done)

/-- Attributes offered to a start tag are attributes of the tag. -/
theorem start
    (comes : ComesTo instructions offers others) (name : String)
    (fields : List (String × String)) :
    Alike
      (.startElement name :: (settings fields ++ instructions))
      ((Event.start name (fields ++ offers) false).instructions ++
        others) := by
  intro writer
  have shape :
      (Event.start name (fields ++ offers) false).instructions ++ others =
        .startElement name ::
          (settings fields ++ (settings offers ++ others)) := by
    simp [Event.instructions, settings]
  rw [shape, Writer.performAll, Writer.performAll]
  split
  · rfl
  · next next begun =>
      exact comes.performAll_settings (startOpen_startElement begun) fields

end ComesTo

/-! ## Elements with a date range -/

/-- An element that holds nothing but a placeholder for a relative date range
and has no attribute but perhaps a condition. -/
structure Dated where
  name : String
  condition : Option String
  placeholder : String
  range : DateRange.Dynamic

namespace Dated

/-- The attributes in the template. -/
def source (dated : Dated) : List (String × String) :=
  match dated.condition with
  | some condition => [(AttributeName.condition, condition)]
  | none => []

/-- The events of the template. -/
def events (dated : Dated) : List Event :=
  [.start dated.name dated.source false, .text dated.placeholder,
    .finish dated.name]

/-- The condition of the range, for an element that has none. -/
def ownCondition (dated : Dated) : List (String × String) :=
  match dated.condition, dated.range.condition.text? with
  | none, some text => [(AttributeName.condition, text)]
  | _, _ => []

/-- The attributes that the range brings along. -/
def offers (dated : Dated) : List (String × String) :=
  dated.ownCondition ++
    [(AttributeName.origDateRange, dated.range.serialize)]

/-- The attributes of the filled element. -/
def marks (setting : Setting) (dated : Dated) : List (String × String) :=
  dated.source.map setting.filledField ++ dated.offers

/-- The bounds of the range. -/
def bounds (setting : Setting) (dated : Dated) : String :=
  setting.locale.format (.dynamicRange dated.range)

/-- The events of the filled element. -/
def filled (setting : Setting) (dated : Dated) : List Event :=
  [.start dated.name (dated.marks setting) false,
    .text (dated.bounds setting), .finish dated.name]

theorem lawful_marks
    (setting : Setting) (dated : Dated)
    (lawful : (Event.start dated.name dated.source false).Lawful) :
    (Event.start dated.name (dated.marks setting) false).Lawful := by
  have condition : Markup.isName AttributeName.condition.toList = true := by
    decide
  have range : Markup.isName AttributeName.origDateRange.toList = true := by
    decide
  have apart : AttributeName.condition ≠ AttributeName.origDateRange := by
    decide
  refine ⟨lawful.1, ?_⟩
  cases given : dated.condition <;>
    cases own : dated.range.condition.text? <;>
      simp [marks, source, offers, ownCondition, Setting.filledField, given,
        own, condition, range, apart]

/-- Whether the placeholder stands for the range, and nothing is to be inserted
unescaped. -/
structure Bound (setting : Setting) (dated : Dated) : Prop where
  condition : ∀ condition ∈ dated.condition,
    isRaw setting.style condition = false
  value : ∃ placeholder,
    Placeholder.read? setting.style dated.placeholder.toList =
        some placeholder ∧
      placeholder.raw = false ∧
      setting.parameters.get? placeholder.name =
        some (.dynamicRange dated.range)

variable {setting : Setting} {dated : Dated}

theorem source_isNamed
    (dated : Dated) :
    ∀ field ∈ dated.source, field.1 = AttributeName.condition := by
  rw [source]
  split
  · exact List.forall_mem_singleton.mpr rfl
  · exact List.forall_mem_nil _

theorem source_absent
    (dated : Dated) :
    ∀ field ∈ dated.source,
      Markup.localName field.1 ≠ AttributeName.origDateRange := by
  intro field member
  rw [dated.source_isNamed field member]
  decide

theorem Bound.escapes
    (bound : dated.Bound setting) :
    ∀ field ∈ dated.source, isRaw setting.style field.2 = false := by
  rw [source]
  split
  · next condition given =>
      exact List.forall_mem_singleton.mpr (bound.condition condition given)
  · exact List.forall_mem_nil _

theorem allBlank_of_read?
    {style : Style} {letters : List Char} {placeholder : Placeholder}
    (found : Placeholder.read? style letters = some placeholder) :
    Text.allBlank letters = false := by
  unfold Placeholder.read? at found
  split at found
  · rfl
  · rfl
  · cases found

theorem allBlank_of_isSpaced
    {content : String} (spaced : Markup.isSpaced content = true) :
    Text.allBlank content.toList = true := by
  rw [Markup.isSpaced, List.all_eq_true] at spaced
  exact
    List.all_eq_true.mpr fun char member =>
      Text.isBlank_of_isSpacing (spaced char member)

theorem isSpaced_of_read?
    {style : Style} {content : String} {placeholder : Placeholder}
    (found : Placeholder.read? style content.toList = some placeholder) :
    Markup.isSpaced content = false := by
  have visible := allBlank_of_read? found
  rw [← Bool.not_eq_true] at visible ⊢
  exact fun spaced => visible (allBlank_of_isSpaced spaced)

theorem Bound.isSpaced
    (bound : dated.Bound setting) :
    Markup.isSpaced dated.placeholder = false := by
  obtain ⟨placeholder, found, -⟩ := bound.value
  exact isSpaced_of_read? found

theorem Bound.render
    (bound : dated.Bound setting) (context : Context) :
    ∃ names,
      setting.render context dated.placeholder =
        ⟨dated.bounds setting, false, some (.dynamicRange dated.range),
          names⟩ := by
  obtain ⟨placeholder, found, escaped, given⟩ := bound.value
  refine ⟨[placeholder.name], ?_⟩
  unfold Setting.render
  rw [if_neg (by simp [allBlank_of_read? found]), found]
  dsimp only
  rw [given, escaped]
  rfl

theorem writes_rangeAttributes
    (dated : Dated) :
    writes
        (Walk.rangeAttributes
          (dated.source.map fun field => Markup.localName field.1)
          (some (.dynamicRange dated.range))) =
      offerings dated.offers := by
  have first :
      Markup.localName AttributeName.condition = AttributeName.condition := by
    decide
  have apart : AttributeName.origDateRange ≠ AttributeName.condition := by
    decide
  cases given : dated.condition <;>
    cases own : dated.range.condition.text? <;>
      simp [Walk.rangeAttributes, source, offers, ownCondition, offerings,
        writes, Act.instruction?, given, own, first, apart]

/-- What the acts of the three events write. -/
def written (setting : Setting) (dated : Dated) : List Instruction :=
  .startElement dated.name ::
    (settings (dated.source.map setting.filledField) ++
      (offerings dated.offers ++
        [.text (dated.bounds setting), .endElement]))

theorem alike_written
    (setting : Setting) (dated : Dated) {first second : List Instruction}
    (alike : Alike first second) :
    Alike (dated.written setting ++ first)
      ((dated.filled setting).flatMap Event.instructions ++ second) := by
  have shape :
      dated.written setting ++ first =
        .startElement dated.name ::
          (settings (dated.source.map setting.filledField) ++
            (offerings dated.offers ++
              (.text (dated.bounds setting) :: .endElement :: first))) := by
    simp [written]
  rw [shape]
  have taken :=
    (ComesTo.of_alike (Alike.refl
      (.text (dated.bounds setting) :: .endElement :: first))).offerAll
        dated.offers
  rw [List.append_nil] at taken
  refine Alike.trans (taken.start _ _) ?_
  have rest :
      (dated.filled setting).flatMap Event.instructions ++ second =
        (Event.start dated.name (dated.marks setting) false).instructions ++
          (.text (dated.bounds setting) :: .endElement :: second) := by
    simp [filled, Event.instructions]
  rw [rest]
  exact ((alike.cons _).cons _).append_left _

theorem step_text
    {walk : Walk} (unranged : walk.range = none)
    (attributes : walk.written =
      dated.source.map fun field => Markup.localName field.1)
    (bound : dated.Bound setting) (place : Position) :
    writes (Walk.step setting walk (.text dated.placeholder) place).1 =
        offerings dated.offers ++ [.text (dated.bounds setting)] ∧
      (Walk.step setting walk (.text dated.placeholder) place).2 =
        .ok walk := by
  obtain ⟨names, rendered⟩ := bound.render (.ofCondition walk.condition)
  rw [Walk.step, bound.isSpaced]
  refine ⟨?_, rfl⟩
  rw [if_neg Bool.false_ne_true, Walk.insertText, unranged]
  dsimp only
  rw [rendered, attributes, writes_append, writes_append, writes_lookUps,
    writes_rangeAttributes]
  rfl

/-- The three events of an element with a date range. -/
theorem script_events
    {walk : Walk} {around : Surroundings} (within : walk.Within around)
    (bound : dated.Bound setting) (first second third : Position) :
    ∃ next,
      next.Within ⟨none, around.preserved⟩ ∧
        ∀ rest,
          writes
                (Walk.script setting walk
                  ((.start dated.name dated.source false, first) ::
                    (.text dated.placeholder, second) ::
                    (.finish dated.name, third) :: rest)).1 =
              dated.written setting ++
                writes (Walk.script setting next rest).1 ∧
            (Walk.script setting walk
                ((.start dated.name dated.source false, first) ::
                  (.text dated.placeholder, second) ::
                  (.finish dated.name, third) :: rest)).2 =
              (Walk.script setting next rest).2 := by
  obtain ⟨opening, entered⟩ :=
    Walk.step_start walk dated.name bound.escapes false first
  rw [Walk.retagged_of_absent dated.source_absent] at opening
  have inside :=
    @Walk.within_enter setting _ dated.source_absent _ _ within dated.name
      false
  generalize reached :
    (walk.enter dated.name dated.source
      (dated.source.map setting.filledField) false).2 = inner at entered inside
  have attributes :
      inner.written =
        dated.source.map fun field => Markup.localName field.1 := by
    rw [← reached, Walk.enter,
      Walk.lastNamed?_eq_none dated.source_absent]
    simp [Setting.filledField]
  obtain ⟨content, stays⟩ := step_text inside.range attributes bound second
  refine
    ⟨{ inner with
        condition := none
        openNames := inner.openNames.tail
        preserved := inner.preserved.tail }, ⟨rfl, ?_, inside.range⟩, ?_⟩
  · simp [inside.preserved, Surroundings.after]
  · intro rest
    obtain ⟨begun, onward⟩ := Walk.script_cons entered _
    obtain ⟨continued, further⟩ := Walk.script_cons stays _
    obtain ⟨ended, last⟩ :=
      @Walk.script_cons setting inner _ (.finish dated.name) third rfl rest
    refine ⟨?_, onward.trans (further.trans last)⟩
    rw [begun, continued, ended, opening, content]
    simp [written, Event.instructions, settings, Walk.step, writes,
      Act.instruction?]

end Dated

/-! ## Templates with date ranges -/

/-- A part of a template: an element with a date range, or any other event. -/
inductive Part where
  | plain (event : Event)
  | dated (element : Dated)

namespace Part

/-- The events of a part. -/
def events : Part → List Event
  | plain event => [event]
  | dated element => element.events

/-- Whether a part is filled without a value that is inserted unescaped, and
without a date range in a text unless the text is all that its element
holds. -/
def Proper (setting : Setting) : Part → Prop
  | plain event =>
      Plain setting.style event ∧
        ∀ content, event = .text content → setting.Undated content
  | dated element => element.Bound setting

/-- The surroundings after a part. -/
def after (setting : Setting) (around : Surroundings) : Part → Surroundings
  | plain event => around.after setting event
  | dated _ => ⟨none, around.preserved⟩

/-- A part with its values rendered. -/
def filled (setting : Setting) (around : Surroundings) : Part → List Event
  | plain event => around.filled setting event
  | dated element => element.filled setting

/-- Parts with their values rendered. -/
def filledAll (setting : Setting) (around : Surroundings) :
    List Part → List Event
  | [] => []
  | part :: rest =>
      part.filled setting around ++
        filledAll setting (part.after setting around) rest

variable {setting : Setting} {parts : List Part}

/-- One part. -/
theorem script_part
    {part : Part} (proper : part.Proper setting)
    {front : List (Event × Position)}
    (made : front.map Prod.fst = part.events)
    {walk : Walk} {around : Surroundings} (within : walk.Within around) :
    ∃ written next,
      next.Within (part.after setting around) ∧
        (∀ first second, Alike first second →
          Alike (written ++ first)
            ((part.filled setting around).flatMap Event.instructions ++
              second)) ∧
        ∀ rest,
          writes (Walk.script setting walk (front ++ rest)).1 =
              written ++ writes (Walk.script setting next rest).1 ∧
            (Walk.script setting walk (front ++ rest)).2 =
              (Walk.script setting next rest).2 := by
  cases part with
  | plain event =>
      simp only [events, List.map_eq_cons_iff, List.map_eq_nil_iff] at made
      obtain ⟨⟨_, place⟩, _, rfl, rfl, rfl⟩ := made
      obtain ⟨written, next, reached, follows⟩ :=
        Walk.step_of_plain within proper.1 proper.2 place
      refine ⟨_, next, follows, ?_, Walk.script_cons reached⟩
      intro first second alike
      rw [written]
      exact alike.append_left _
  | dated element =>
      simp only [events, Dated.events, List.map_eq_cons_iff,
        List.map_eq_nil_iff] at made
      obtain
        ⟨⟨_, first⟩, _, rfl, rfl, ⟨_, second⟩, _, rfl, rfl, ⟨_, third⟩, _,
          rfl, rfl, rfl⟩ := made
      have bound : element.Bound setting := proper
      obtain ⟨next, follows, onward⟩ :=
        Dated.script_events within bound first second third
      refine ⟨_, next, follows, ?_, onward⟩
      intro first second alike
      exact element.alike_written setting alike

/-- What the acts of a template with date ranges write. -/
theorem script_of_proper
    (proper : ∀ part ∈ parts, part.Proper setting)
    {pairs : List (Event × Position)}
    (made : pairs.map Prod.fst = parts.flatMap events)
    {walk : Walk} {around : Surroundings} (within : walk.Within around) :
    Alike (writes (Walk.script setting walk pairs).1)
        ((filledAll setting around parts).flatMap Event.instructions) ∧
      ∃ last, (Walk.script setting walk pairs).2 = .ok last := by
  induction parts generalizing pairs walk around with
  | nil =>
      obtain rfl := List.map_eq_nil_iff.mp made
      exact ⟨.refl _, walk, rfl⟩
  | cons part rest ih =>
      rw [List.forall_mem_cons] at proper
      rw [List.flatMap_cons, List.map_eq_append_iff] at made
      obtain ⟨front, others, rfl, madeFront, madeRest⟩ := made
      obtain ⟨written, next, follows, alike, onward⟩ :=
        script_part proper.1 madeFront within
      obtain ⟨alikeRest, last, ended⟩ := ih proper.2 madeRest follows
      obtain ⟨split, same⟩ := onward others
      refine ⟨?_, last, same.trans ended⟩
      rw [split, filledAll, List.flatMap_append]
      exact alike _ _ alikeRest

/-- An element around a text may stand anywhere. -/
theorem nested_element
    {names : List String} {name content : String}
    {attributes : List (String × String)} {rest : List Event} :
    Nested names
        (.start name attributes false :: .text content :: .finish name ::
          rest) ↔
      Nested names rest := by
  simp [Markup.nested_cons, Event.nest?]

theorem nested_filledAll
    {names : List String} (nested : Nested names (parts.flatMap events))
    (setting : Setting) (around : Surroundings) :
    Nested names (filledAll setting around parts) := by
  induction parts generalizing names around with
  | nil => exact nested
  | cons part rest ih =>
      rw [List.flatMap_cons] at nested
      cases part with
      | plain event =>
          obtain ⟨next, fits, nestedRest⟩ := Markup.nested_cons.mp nested
          apply Surroundings.nest?_filled setting around fits
          exact ih nestedRest _
      | dated element =>
          apply nested_element.mpr
          exact ih (nested_element.mp nested) _

theorem lawful_filledAll
    (lawful : ∀ event ∈ parts.flatMap events, event.Lawful)
    (setting : Setting) (around : Surroundings) :
    ∀ event ∈ filledAll setting around parts, event.Lawful := by
  induction parts generalizing around with
  | nil => exact List.forall_mem_nil _
  | cons part rest ih =>
      rw [List.flatMap_cons, List.forall_mem_append] at lawful
      rw [filledAll, List.forall_mem_append]
      refine ⟨?_, ih lawful.2 _⟩
      cases part with
      | plain event =>
          apply Surroundings.lawful_filled setting around
          exact lawful.1 event List.mem_cons_self
      | dated element =>
          have tag := lawful.1 _ List.mem_cons_self
          exact
            List.forall_mem_cons.mpr
              ⟨element.lawful_marks setting tag,
                List.forall_mem_cons.mpr
                  ⟨trivial, List.forall_mem_singleton.mpr trivial⟩⟩

theorem shallow_filled
    {depth level : Nat} {event : Event} {following rest : List Event}
    (shallow : Shallow depth level (event :: following))
    (onward : Shallow depth (event.level level) rest)
    (setting : Setting) (around : Surroundings) :
    Shallow depth level (around.filled setting event ++ rest) := by
  cases event with
  | text content =>
      rw [Surroundings.filled]
      split
      · split
        · exact ⟨Markup.unopened rfl, onward⟩
        · exact onward
      · exact ⟨Markup.unopened rfl, onward⟩
  | start name attributes empty =>
      cases empty <;> exact ⟨shallow.1, onward⟩
  | finish name | characterData content | comment content =>
      exact ⟨Markup.unopened rfl, onward⟩

theorem shallow_filledAll
    {depth level : Nat} (shallow : Shallow depth level (parts.flatMap events))
    (setting : Setting) (around : Surroundings) :
    Shallow depth level (filledAll setting around parts) := by
  induction parts generalizing level around with
  | nil => trivial
  | cons part rest ih =>
      rw [List.flatMap_cons] at shallow
      cases part with
      | plain event =>
          exact shallow_filled shallow (ih shallow.2 _) setting around
      | dated element =>
          exact
            ⟨shallow.1, Markup.unopened rfl, Markup.unopened rfl,
              ih shallow.2.2.2 _⟩

end Part

namespace Substitution

/-- A template that is filled was read and gone through to its end. -/
theorem exists_last_of_fillAml
    {setting : Setting} {room : Option Nat} {template : String}
    (filled : (fillAml setting room template).2 = .ok ()) :
    (∃ place, (Markup.read .standard template).ending = .ok place) ∧
      ∃ last,
        (Walk.script setting .start
          (Markup.read .standard template).events).2 = .ok last := by
  simp only [fillAml] at filled
  split at filled
  · cases filled
  · split at filled
    · cases filled
    · cases filled
    · next walked ended => exact ⟨⟨_, ended⟩, _, walked⟩

/-- A template is filled with the markup of nested events that are written
alike. -/
theorem fillAml_of_alike
    {setting : Setting} {template : String} {place : Position}
    (ended : (Markup.read .standard template).ending = .ok place)
    {last : Walk}
    (walked :
      (Walk.script setting .start
        (Markup.read .standard template).events).2 = .ok last)
    {events : List Event} (nested : Nested [] events)
    (alike :
      Alike
        (writes
          (Walk.script setting .start
            (Markup.read .standard template).events).1)
        (events.flatMap Event.instructions)) :
    (fillAml setting none template).2 = .ok () ∧
      (fillAml setting none template).1.writer.output =
        String.ofList (Markup.markupAll (normalForm events)) := by
  apply fillAml_of_toText ended walked
  rw [(ComesTo.of_alike alike).toText_eq]
  exact Markup.toText_events nested

theorem fill_of_isAml
    {substitution : Substitution} {template : String}
    (aml : substitution.isAml template = true) (locale : Locale)
    (room : Option Nat) :
    (substitution.fill locale room template).2.result =
        (fillAml (substitution.setting locale) room template).2 ∧
      (substitution.fill locale room template).2.output =
        (fillAml (substitution.setting locale) room
          template).1.writer.output := by
  have tagged := aml
  simp only [isAml, Bool.and_eq_true, beq_iff_eq] at tagged
  rw [fill, if_neg (by simp [allBlank_eq_false tagged.1]), if_pos aml]
  exact ⟨rfl, rfl⟩

theorem fillAml_of_text
    {substitution : Substitution} {locale : Locale}
    {template output : String}
    (aml : substitution.isAml template = true)
    (filled :
      (substitution.fill locale none template).2.text = .ok output) :
    (fillAml (substitution.setting locale) none template).2 = .ok () ∧
      (fillAml (substitution.setting locale) none
        template).1.writer.output = output := by
  obtain ⟨result, text⟩ := fill_of_isAml aml locale none
  rw [Filled.text, result, text] at filled
  cases outcome : (fillAml (substitution.setting locale) none template).2 with
  | error fault =>
      rw [outcome] at filled
      cases filled
  | ok _ =>
      rw [outcome] at filled
      cases filled
      exact ⟨rfl, rfl⟩

/-- The output of a template with date ranges. -/
theorem output_of_proper
    {substitution : Substitution} {locale : Locale}
    {template output : String} {parts : List Part}
    (aml : substitution.isAml template = true)
    (made :
      (Markup.read .standard template).events.map Prod.fst =
        parts.flatMap Part.events)
    (proper : ∀ part ∈ parts, part.Proper (substitution.setting locale))
    (filled :
      (substitution.fill locale none template).2.text = .ok output) :
    let events :=
      Part.filledAll (substitution.setting locale) .outside parts
    Nested [] events ∧ (∀ event ∈ events, event.Lawful) ∧
      Shallow Markup.Limits.standard.depth 0 events ∧
      output = String.ofList (Markup.markupAll (normalForm events)) := by
  obtain ⟨done, rfl⟩ := fillAml_of_text aml filled
  obtain ⟨⟨place, ended⟩, -⟩ := exists_last_of_fillAml done
  obtain ⟨nested, lawful⟩ := Markup.nested_read ended
  have shallow := Markup.shallow_read .standard template
  rw [made] at nested lawful shallow
  obtain ⟨alike, last, walked⟩ :=
    @Part.script_of_proper (substitution.setting locale) _ proper _ made
      .start .outside ⟨rfl, rfl, rfl⟩
  have nestedFilled :=
    Part.nested_filledAll nested (substitution.setting locale) .outside
  refine
    ⟨nestedFilled, Part.lawful_filledAll lawful _ _,
      Part.shallow_filledAll shallow _ _, ?_⟩
  exact (fillAml_of_alike ended walked nestedFilled alike).2

end Substitution

end AmlExchange.Template
