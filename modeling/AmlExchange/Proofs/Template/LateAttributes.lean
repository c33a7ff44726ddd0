import AmlExchange.Proofs.Document.RangeProperties
import AmlExchange.Proofs.Markup.Repeats
import AmlExchange.Proofs.Template.Retagging

/-!
# Attributes that a text adds to the start tag before it

A date range that is inserted as a text adds attributes to the start tag
before it, as long as that is still open.  A text that is written closes the
start tag, an empty one does not.  So what is added to a start tag depends on
all the texts up to the first that is not empty (`comesTo_script`); none of it
is among the attributes with which the start tag was begun (`not_mem_late`).
-/

namespace AmlExchange.Template

open Markup (Event Instruction Nested)
open Text (Position)

/-! ## Events with other values -/

/-- Whether events have the elements and comments of a template, in their
places.  A text of the template may be missing. -/
inductive Fills : List Event → List Event → Prop
  | nil : Fills [] []
  | start {name : String} {source attributes : List (String × String)}
      {empty : Bool} {events filled : List Event}
      (areNames : ∀ field ∈ attributes,
        Markup.isName field.1.toList = true)
      (rest : Fills events filled) :
      Fills (.start name source empty :: events)
        (.start name attributes empty :: filled)
  | finish {name : String} {events filled : List Event}
      (rest : Fills events filled) :
      Fills (.finish name :: events) (.finish name :: filled)
  | dropped {content : String} {events filled : List Event}
      (rest : Fills events filled) :
      Fills (.text content :: events) filled
  | text {content other : String} {events filled : List Event}
      (rest : Fills events filled) :
      Fills (.text content :: events) (.text other :: filled)
  | characterData {content other : String} {events filled : List Event}
      (rest : Fills events filled) :
      Fills (.characterData content :: events) (.characterData other :: filled)
  | comment {content : String} {events filled : List Event}
      (rest : Fills events filled) :
      Fills (.comment content :: events) (.comment content :: filled)

namespace Fills

variable {events filled : List Event}

theorem nested
    (fills : Fills events filled) {names : List String}
    (nested : Nested names events) :
    Nested names filled := by
  induction fills generalizing names with
  | nil => exact nested
  | dropped rest ih =>
      obtain ⟨next, fits, nestedRest⟩ := Markup.nested_cons.mp nested
      obtain ⟨-, rfl⟩ := Markup.nest?_text.mp fits
      exact ih nestedRest
  | start _ _ ih | finish _ ih | text _ ih | characterData _ ih
  | comment _ ih =>
      obtain ⟨next, fits, nestedRest⟩ := Markup.nested_cons.mp nested
      exact Markup.nested_cons.mpr ⟨next, fits, ih nestedRest⟩

theorem named
    (fills : Fills events filled) (named : ∀ event ∈ events, event.Named) :
    ∀ event ∈ filled, event.Named := by
  induction fills with
  | nil => exact List.forall_mem_nil _
  | start areNames _ ih =>
      rw [List.forall_mem_cons] at named ⊢
      exact ⟨⟨named.1.1, areNames⟩, ih named.2⟩
  | dropped _ ih => exact ih (List.forall_mem_cons.mp named).2
  | finish _ ih | text _ ih | characterData _ ih =>
      rw [List.forall_mem_cons] at named ⊢
      exact ⟨trivial, ih named.2⟩
  | comment _ ih =>
      rw [List.forall_mem_cons] at named ⊢
      exact ⟨named.1, ih named.2⟩

/-- As many elements are open at a time. -/
theorem shallow
    (fills : Fills events filled)
    {depth level : Nat} (shallow : Markup.Shallow depth level events) :
    Markup.Shallow depth level filled := by
  induction fills generalizing level with
  | nil => trivial
  | dropped _ ih => exact ih shallow.2
  | @start _ _ _ empty _ _ _ _ ih =>
      cases empty <;> exact ⟨shallow.1, ih shallow.2⟩
  | finish _ ih | text _ ih | characterData _ ih | comment _ ih =>
      exact ⟨shallow.1, ih shallow.2⟩

end Fills

namespace Walk

/-! ## The walk past an event -/

/-- The attributes that a start tag is begun with. -/
def begun (setting : Setting) (attributes : List (String × String)) :
    List (String × String) :=
  retagged attributes (attributes.map setting.filledField)

/-- The walk past an event whose attributes are rendered. -/
def after (setting : Setting) (walk : Walk) : Event → Walk
  | .start name attributes empty =>
      (walk.enter name attributes (attributes.map setting.filledField)
        empty).2
  | event => walk.past event

variable {setting : Setting} {walk next : Walk}

/-- A start tag that is passed is written with its attributes. -/
theorem step_start_of_reached
    {name : String} {attributes : List (String × String)} {empty : Bool}
    {place : Position}
    (reached :
      (step setting walk (.start name attributes empty) place).2 =
        .ok next) :
    next = walk.after setting (.start name attributes empty) ∧
      writes (step setting walk (.start name attributes empty) place).1 =
        (Event.start name (begun setting attributes) empty).instructions := by
  cases outcome : renderAttributes setting place attributes with
  | mk looked result =>
      cases result with
      | error fault =>
          simp only [step, outcome] at reached
          cases reached
      | ok rendered =>
          have same : rendered = attributes.map setting.filledField :=
            eq_map_of_renderAttributes (congrArg Prod.snd outcome)
          simp only [step, outcome] at reached ⊢
          cases reached
          rw [List.cons_append, writes_write_cons, writes_append,
            writes_lookUps, List.nil_append, writes_enter, same]
          exact ⟨rfl, rfl⟩

theorem next_eq_after
    {event : Event} {place : Position}
    (reached : (step setting walk event place).2 = .ok next) :
    next = walk.after setting event := by
  cases event with
  | start name attributes empty => exact (step_start_of_reached reached).1
  | finish name | comment content =>
      cases reached
      rfl
  | text content =>
      rw [step] at reached
      split at reached <;>
        · cases reached
          rfl
  | characterData content =>
      simp only [step] at reached
      split at reached
      · cases reached
      · cases reached
        rfl

/-! ## What is written -/

/-- A text as an event, unless it is empty. -/
def shown (content : String) : List Event :=
  if content.isEmpty then [] else [.text content]

/-- What a text becomes.  In an element with a date range the range takes its
place. -/
def inserted (setting : Setting) (walk : Walk) (content : String) :
    Rendered :=
  setting.render (.ofCondition walk.condition)
    (match walk.range with
    | some range => setting.locale.format (.dynamicRange range)
    | none => content)

/-- An event as it is written, less the attributes that later texts add. -/
def filled (setting : Setting) (walk : Walk) : Event → List Event
  | .start name attributes empty =>
      [.start name (begun setting attributes) empty]
  | .text content =>
      if Markup.isSpaced content then
        if walk.preserving then shown content else []
      else shown (walk.inserted setting content).text
  | .characterData content =>
      [.characterData (setting.filledText walk.condition content)]
  | event => [event]

/-- The value that takes the place of a text. -/
def given? (setting : Setting) (walk : Walk) : Event → Option Value
  | .text content =>
      if Markup.isSpaced content then none
      else (walk.inserted setting content).value
  | _ => none

/-- The values that are inserted up to the first event which writes anything,
this event included.  Only texts write nothing, and they leave the walk as it
is. -/
def taken (setting : Setting) (walk : Walk) : List Event → List Value
  | [] => []
  | event :: rest =>
      (walk.given? setting event).toList ++
        if (walk.filled setting event).isEmpty then taken setting walk rest
        else []

/-- The attributes that a value adds to a start tag which was begun with
attributes of some local names. -/
def lateFields (written : List String) (value : Value) :
    List (String × String) :=
  (rangeOffers value).filter fun field => !written.contains field.1

/-- The attributes that events add to an open start tag before them. -/
def late (setting : Setting) (walk : Walk) (events : List Event) :
    List (String × String) :=
  (walk.taken setting events).flatMap (lateFields walk.written)

/-- An event with attributes added to it, if it is a start tag that is not
empty. -/
def extended (fields : List (String × String)) : Event → Event
  | .start name attributes false => .start name (attributes ++ fields) false
  | event => event

/-- The events that are written for a template. -/
def filledAll (setting : Setting) (walk : Walk) : List Event → List Event
  | [] => []
  | event :: rest =>
      let next := walk.after setting event
      (walk.filled setting event).map (extended (next.late setting rest)) ++
        filledAll setting next rest

theorem late_cons
    (setting : Setting) (walk : Walk) (event : Event) (rest : List Event) :
    walk.late setting (event :: rest) =
      (walk.given? setting event).toList.flatMap (lateFields walk.written) ++
        if (walk.filled setting event).isEmpty then walk.late setting rest
        else [] := by
  rw [late, taken, List.flatMap_append]
  split <;> rfl

/-- Anything but a text ends what can be added to the start tag before it. -/
theorem late_of_noText
    {event : Event} (noText : event.isText = false) (rest : List Event) :
    walk.late setting (event :: rest) = [] := by
  rw [late_cons]
  cases event with
  | text content => cases noText
  | _ => rfl

theorem writes_lateFields
    (written : List String) (value : Value) :
    writes (rangeAttributes written (some value)) =
      offerings (lateFields written value) := by
  cases value with
  | dynamicRange range =>
      cases own : range.condition.text? <;>
        cases conditioned : written.contains AttributeName.condition <;>
          cases ranged : written.contains AttributeName.origDateRange <;>
            simp_all [rangeAttributes, lateFields, rangeOffers,
              conditionFields, offerings, writes, Act.instruction?]
  | staticRange range =>
      cases own : range.condition.text? <;>
        cases conditioned : written.contains AttributeName.condition <;>
          simp_all [rangeAttributes, lateFields, rangeOffers,
            conditionFields, offerings, writes, Act.instruction?]
  | _ => rfl

theorem writes_rangeAttributes
    (written : List String) (value : Option Value) :
    writes (rangeAttributes written value) =
      offerings (value.toList.flatMap (lateFields written)) := by
  cases value with
  | none => rfl
  | some value =>
      rw [writes_lateFields]
      simp

theorem raw_inserted
    {content : String} (escaped : isRaw setting.style content = false)
    (walk : Walk) :
    (walk.inserted setting content).raw = false := by
  rw [inserted]
  split
  · exact (setting.leaves_range _ _).raw
  · exact Setting.raw_render escaped

theorem writes_insertText_eq
    (content : String) (walk : Walk) :
    writes (insertText setting walk content) =
      offerings
          ((walk.inserted setting content).value.toList.flatMap
            (lateFields walk.written)) ++
        [if (walk.inserted setting content).raw then
          .raw (walk.inserted setting content).text
        else .text (walk.inserted setting content).text] := by
  have acts :
      insertText setting walk content =
        lookUps (walk.inserted setting content).lookups ++
          rangeAttributes walk.written (walk.inserted setting content).value ++
          [.write
            (if (walk.inserted setting content).raw then
              .raw (walk.inserted setting content).text
            else .text (walk.inserted setting content).text)] :=
    rfl
  rw [acts, writes_append, writes_append, writes_lookUps,
    writes_rangeAttributes]
  rfl

/-- A text that is not to be inserted unescaped. -/
theorem writes_insertText
    {content : String} (escaped : isRaw setting.style content = false)
    (walk : Walk) :
    writes (insertText setting walk content) =
      offerings
          ((walk.inserted setting content).value.toList.flatMap
            (lateFields walk.written)) ++
        [.text (walk.inserted setting content).text] := by
  rw [writes_insertText_eq, raw_inserted escaped]
  rfl

end Walk

/-! ## What the acts write -/

namespace ComesTo

variable
  {instructions others : List Instruction}
  {offers : List (String × String)}

/-- An empty text leaves a start tag open. -/
theorem shown
    (comes : ComesTo instructions offers others) (content : String) :
    ComesTo (.text content :: instructions)
      (if (Walk.shown content).isEmpty then offers else [])
      ((Walk.shown content).flatMap Event.instructions ++ others) := by
  rw [Walk.shown]
  split
  · next nothing =>
      intro writer
      have passed : writer.perform (.text content) = .ok writer :=
        if_pos nothing
      rw [Markup.Writer.performAll, passed]
      exact comes writer
  · next something =>
      apply ComesTo.of_alike
      apply comes.close
      intro writer next done
      have put : writer.perform (.text content) = _ := if_neg something
      exact startOpen_putContent (put.symm.trans done)

/-- A start tag takes what it is offered, unless it is empty. -/
theorem tag
    (comes : ComesTo instructions offers others) (name : String)
    (attributes : List (String × String)) (empty : Bool) :
    ComesTo ((Event.start name attributes empty).instructions ++ instructions)
      []
      ((Walk.extended offers (.start name attributes empty)).instructions ++
        others) := by
  apply ComesTo.of_alike
  cases empty with
  | true =>
      have closed :=
        @ComesTo.close _ _ _ .endElement (fun _ _ => startOpen_endElement)
          comes
      simpa [Walk.extended, Event.instructions, settings] using
        closed.append_left (.startElement name :: settings attributes)
  | false =>
      simpa [Walk.extended, Event.instructions, settings] using
        comes.start name attributes

end ComesTo

namespace Walk

variable {setting : Setting} {walk next : Walk}

/-- A text is written as a text, or not at all. -/
theorem filled_text
    (setting : Setting) (walk : Walk) (content : String) :
    walk.filled setting (.text content) = [] ∨
      ∃ other, walk.filled setting (.text content) = [.text other] := by
  have cases (other : String) :
      shown other = [] ∨ ∃ same, shown other = [.text same] := by
    rw [shown]
    split
    · exact .inl rfl
    · exact .inr ⟨other, rfl⟩
  rw [filled]
  split
  · split
    · exact cases content
    · exact .inl rfl
  · exact cases _

theorem filledAll_text
    (setting : Setting) (walk : Walk) (content : String)
    (rest : List Event) :
    walk.filledAll setting (.text content :: rest) =
      walk.filled setting (.text content) ++ walk.filledAll setting rest := by
  rw [filledAll]
  rcases filled_text setting walk content with nothing | ⟨other, something⟩
  · rw [nothing]
    rfl
  · rw [something]
    rfl

/-- One event is written, in front of what the events after it write. -/
theorem comesTo_step
    {event : Event} {place : Position}
    (escaped : ∀ content, event = .text content →
      isRaw setting.style content = false)
    (reached : (step setting walk event place).2 = .ok next)
    {instructions : List Instruction} {rest : List Event}
    (comes :
      ComesTo instructions (next.late setting rest)
        ((next.filledAll setting rest).flatMap Event.instructions)) :
    ComesTo (writes (step setting walk event place).1 ++ instructions)
      (walk.late setting (event :: rest))
      ((walk.filledAll setting (event :: rest)).flatMap
        Event.instructions) := by
  have onward := next_eq_after reached
  cases event with
  | start name attributes empty =>
      rw [late_of_noText rfl, filledAll, ← onward,
        (step_start_of_reached reached).2]
      exact comes.tag name (begun setting attributes) empty
  | finish name =>
      rw [late_of_noText rfl, filledAll, ← onward]
      exact .of_alike (comes.close fun _ _ => startOpen_endElement)
  | text content =>
      obtain rfl : next = walk := onward
      rw [late_cons, filledAll_text, List.flatMap_append, filled, given?,
        step]
      split
      · split
        · exact comes.shown content
        · exact comes
      · rw [writes_insertText (escaped content rfl), List.append_assoc]
        exact (comes.shown _).offerAll _
  | characterData content =>
      rw [late_of_noText rfl, filledAll, ← onward]
      simp only [step] at reached ⊢
      split at reached
      · cases reached
      · next plain =>
          rw [if_neg plain, writes_append, writes_lookUps]
          exact .of_alike (comes.close fun _ _ => startOpen_putContent)
  | comment content =>
      rw [late_of_noText rfl, filledAll, ← onward]
      exact .of_alike (comes.close fun _ _ => startOpen_putContent)

/-- The acts of a walk write its events, each start tag with the attributes
that the texts after it add. -/
theorem comesTo_script
    {events : List (Event × Position)}
    (escaped : ∀ content, .text content ∈ events.map Prod.fst →
      isRaw setting.style content = false)
    {last : Walk} (reached : (script setting walk events).2 = .ok last) :
    ComesTo (writes (script setting walk events).1)
      (walk.late setting (events.map Prod.fst))
      ((walk.filledAll setting (events.map Prod.fst)).flatMap
        Event.instructions) := by
  induction events generalizing walk with
  | nil => exact .of_alike (.refl [])
  | cons pair rest ih =>
      obtain ⟨event, place⟩ := pair
      obtain ⟨next, first, others, acts⟩ := exists_next reached
      rw [acts, writes_append, List.map_cons]
      refine comesTo_step ?_ first (ih ?_ others)
      · rintro content rfl
        exact escaped content List.mem_cons_self
      · intro content member
        exact escaped content (List.mem_cons_of_mem _ member)

/-! ## Names -/

theorem names_lateFields
    (written : List String) (value : Value) :
    ((lateFields written value).map Prod.fst).Sublist
      [AttributeName.condition, AttributeName.origDateRange] :=
  (List.filter_sublist.map Prod.fst).trans
    (Document.names_rangeOffers value)

theorem mem_late
    {events : List Event} {name : String}
    (added : name ∈ (walk.late setting events).map Prod.fst) :
    name ∈ [AttributeName.condition, AttributeName.origDateRange] ∧
      name ∉ walk.written := by
  obtain ⟨field, member, rfl⟩ := List.mem_map.mp added
  obtain ⟨value, -, offered⟩ := List.mem_flatMap.mp member
  refine
    ⟨(names_lateFields _ value).subset (List.mem_map_of_mem offered), ?_⟩
  simpa using (List.mem_filter.mp offered).2

theorem isName_of_mem_late
    {events : List Event} {name : String}
    (added : name ∈ (walk.late setting events).map Prod.fst) :
    Markup.isName name.toList = true := by
  have areNames :
      ∀ name ∈ [AttributeName.condition, AttributeName.origDateRange],
        Markup.isName name.toList = true := by
    decide
  exact areNames name (mem_late added).1

theorem areFields_begun
    {attributes : List (String × String)}
    (fields : Markup.Reader.AreFields attributes) (setting : Setting) :
    Markup.Reader.AreFields (begun setting attributes) :=
  areFields_retagged
    (areFields_of_names (Surroundings.names_filledField setting attributes)
      fields)
    attributes

theorem written_after
    (setting : Setting) (walk : Walk) (name : String)
    (attributes : List (String × String)) (empty : Bool) :
    (walk.after setting (.start name attributes empty)).written =
      (begun setting attributes).map fun field =>
        Markup.localName field.1 := by
  cases empty <;> rfl

/-- No attribute that a start tag is begun with is added once more. -/
theorem not_mem_late
    {name : String} {attributes : List (String × String)} {empty : Bool}
    {events : List Event} {other : String}
    (given : other ∈ (begun setting attributes).map Prod.fst) :
    other ∉
      ((walk.after setting (.start name attributes empty)).late setting
        events).map Prod.fst := by
  have same :
      ∀ name ∈ [AttributeName.condition, AttributeName.origDateRange],
        Markup.localName name = name := by
    decide
  intro added
  obtain ⟨offered, absent⟩ := mem_late added
  apply absent
  obtain ⟨field, member, rfl⟩ := List.mem_map.mp given
  rw [written_after, ← same _ offered]
  exact List.mem_map_of_mem member

/-- What is written for a template fills it. -/
theorem fills_filledAll
    {events : List Event} (lawful : ∀ event ∈ events, event.Lawful)
    (setting : Setting) (walk : Walk) :
    Fills events (walk.filledAll setting events) := by
  induction events generalizing walk with
  | nil => exact .nil
  | cons event rest ih =>
      rw [List.forall_mem_cons] at lawful
      cases event with
      | start name attributes empty =>
          have fields := areFields_begun lawful.1.2 setting
          cases empty with
          | true => exact .start fields.1 (ih lawful.2 _)
          | false =>
              refine .start (List.forall_mem_append.mpr ⟨fields.1, ?_⟩)
                (ih lawful.2 _)
              intro field member
              exact isName_of_mem_late (List.mem_map_of_mem member)
      | text content =>
          rw [filledAll_text]
          rcases filled_text setting walk content with
            nothing | ⟨other, something⟩
          · rw [nothing]
            exact .dropped (ih lawful.2 walk)
          · rw [something]
            exact .text (ih lawful.2 walk)
      | finish name => exact .finish (ih lawful.2 _)
      | characterData content => exact .characterData (ih lawful.2 _)
      | comment content => exact .comment (ih lawful.2 _)

end Walk

end AmlExchange.Template
