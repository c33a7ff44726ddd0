import AmlExchange.Proofs.Markup.Streams
import AmlExchange.Template.Substitution

/-!
# The filled form of a template

What filling an AML template comes to can be said without a writer: it is the
sequence of events in which every value is rendered where it stands.  What the
acts of a walk write is exactly this sequence (`script_of_plain`).
-/

namespace AmlExchange.Template

open Markup (Event Instruction Nested)
open Text (Position)

/-! ## Preserved spacing -/

/-- Whether spacing is preserved in an element with some attributes.  The first
`xml:space` among them decides if it says `preserve` or `default`; else spacing
is preserved in the element if it is around the element. -/
def keepsSpacing (outside : Bool) (attributes : List (String × String)) :
    Bool :=
  let said := attributes.lookup "xml:space"
  said == some "preserve" || outside && said != some "default"

theorem lookup_eq_find?
    (name : String) (attributes : List (String × String)) :
    attributes.lookup name =
      (attributes.find? fun field => field.1 == name).map Prod.snd := by
  induction attributes with
  | nil => rfl
  | cons field rest ih =>
      rw [List.lookup_cons, List.find?_cons, Bool.beq_comm, ih]
      cases field.1 == name <;> rfl

/-- A walk keeps the spacing where the attributes of the elements say so. -/
theorem Walk.preservedWithin_eq
    (outside : Bool) (attributes : List (String × String)) :
    preservedWithin outside attributes = keepsSpacing outside attributes := by
  have looked := lookup_eq_find? "xml:space" attributes
  unfold preservedWithin
  rw [keepsSpacing]
  split
  · next found =>
      rw [looked.trans (congrArg (Option.map Prod.snd) found)]
      rfl
  · next found =>
      rw [looked.trans (congrArg (Option.map Prod.snd) found)]
      cases outside <;> rfl
  · next notPreserve notDefault =>
      have unlike {value : String}
          (absent : ∀ name,
            attributes.find? (fun field => field.1 == "xml:space") ≠
              some (name, value)) :
          (attributes.lookup "xml:space" == some value) = false := by
        rw [beq_eq_false_iff_ne, looked, Ne, Option.map_eq_some_iff]
        rintro ⟨⟨name, _⟩, found, rfl⟩
        exact absent name found
      rw [bne, unlike notPreserve, unlike notDefault, Bool.false_or,
        Bool.not_false, Bool.and_true]

/-! ## Rendered events -/

/-- What the text at a place of a template depends on. -/
structure Surroundings where
  condition : Option String
  /-- Whether spacing is preserved in each open element, the innermost
  first. -/
  preserved : List Bool

/-- An attribute with its value rendered. -/
def Setting.filledField (setting : Setting) (field : String × String) :
    String × String :=
  (field.1,
    (setting.render (.ofName (Markup.localName field.1)) field.2).text)

/-- A text rendered under the condition of its element. -/
def Setting.filledText
    (setting : Setting) (condition : Option String) (content : String) :
    String :=
  (setting.render (.ofCondition condition) content).text

namespace Surroundings

/-- The surroundings of the first event. -/
def outside : Surroundings :=
  ⟨none, []⟩

/-- Whether spacing is preserved at the place reached. -/
def preserving (around : Surroundings) : Bool :=
  around.preserved.head?.getD false

/-- The surroundings after an event.  A start tag sets the condition, an end
tag ends it. -/
def after (setting : Setting) (around : Surroundings) :
    Event → Surroundings
  | .start name attributes empty =>
      let rendered := attributes.map setting.filledField
      let condition :=
        if Markup.localName name = "sql" ∨ Markup.localName name = "SQL" then
          some "sql"
        else Walk.lastNamed? AttributeName.condition rendered
      if empty then { around with condition }
      else
        ⟨condition,
          keepsSpacing around.preserving rendered :: around.preserved⟩
  | .finish _ => ⟨none, around.preserved.tail⟩
  | .text _ | .characterData _ | .comment _ => around

/-- An event with its values rendered.  Spacing is left out unless it is
preserved. -/
def filled (setting : Setting) (around : Surroundings) :
    Event → List Event
  | .start name attributes empty =>
      [.start name (attributes.map setting.filledField) empty]
  | .finish name => [.finish name]
  | .text content =>
      if Markup.isSpaced content then
        if around.preserving then [.text content] else []
      else [.text (setting.filledText around.condition content)]
  | .characterData content =>
      [.characterData (setting.filledText around.condition content)]
  | .comment content => [.comment content]

/-- Events with their values rendered. -/
def filledAll (setting : Setting) (around : Surroundings) :
    List Event → List Event
  | [] => []
  | event :: rest =>
      around.filled setting event ++
        filledAll setting (around.after setting event) rest

theorem nest?_filled
    (setting : Setting) (around : Surroundings)
    {event : Event} {names next : List String}
    (fits : event.nest? names = some next)
    {following : List Event} (nested : Nested next following) :
    Nested names (around.filled setting event ++ following) := by
  cases event with
  | start name attributes empty =>
      cases fits
      exact Markup.nested_cons.mpr ⟨_, rfl, nested⟩
  | finish name => exact Markup.nested_cons.mpr ⟨_, fits, nested⟩
  | text content =>
      obtain ⟨within, rfl⟩ := Markup.nest?_text.mp fits
      rw [filled]
      split
      · split
        · exact Markup.nested_cons.mpr ⟨_, fits, nested⟩
        · exact nested
      · exact
          Markup.nested_cons.mpr
            ⟨_, Markup.nest?_text.mpr ⟨within, rfl⟩, nested⟩
  | characterData content | comment content =>
      cases fits
      exact Markup.nested_cons.mpr ⟨_, rfl, nested⟩

/-- Rendering leaves the nesting of events as it is. -/
theorem nested_filledAll
    (setting : Setting) {events : List Event} {names : List String}
    (nested : Nested names events) (around : Surroundings) :
    Nested names (around.filledAll setting events) := by
  induction events generalizing names around with
  | nil => exact nested
  | cons event rest ih =>
      obtain ⟨next, fits, nestedRest⟩ := Markup.nested_cons.mp nested
      apply nest?_filled setting around fits
      exact ih nestedRest _

theorem names_filledField
    (setting : Setting) (attributes : List (String × String)) :
    (attributes.map setting.filledField).map Prod.fst =
      attributes.map Prod.fst := by
  rw [List.map_map]
  rfl

theorem lawful_filled
    (setting : Setting) (around : Surroundings)
    {event : Event} (lawful : event.Lawful) :
    ∀ other ∈ around.filled setting event, other.Lawful := by
  cases event with
  | start name attributes empty =>
      obtain ⟨isName, areNames, distinct⟩ := lawful
      intro other member
      rw [List.mem_singleton.mp member]
      refine ⟨isName, ?_, ?_⟩
      · exact List.forall_mem_map.mpr areNames
      · rw [names_filledField]
        exact distinct
  | finish name => exact List.forall_mem_singleton.mpr trivial
  | text content =>
      intro other member
      rw [filled] at member
      split at member
      · split at member
        · rw [List.mem_singleton.mp member]
          trivial
        · cases member
      · rw [List.mem_singleton.mp member]
        trivial
  | characterData content => exact List.forall_mem_singleton.mpr trivial
  | comment content => exact List.forall_mem_singleton.mpr lawful

theorem lawful_filledAll
    (setting : Setting) {events : List Event}
    (lawful : ∀ event ∈ events, event.Lawful) (around : Surroundings) :
    ∀ event ∈ around.filledAll setting events, event.Lawful := by
  induction events generalizing around with
  | nil => exact List.forall_mem_nil _
  | cons event rest ih =>
      rw [List.forall_mem_cons] at lawful
      rw [filledAll, List.forall_mem_append]
      exact ⟨lawful_filled setting around lawful.1, ih lawful.2 _⟩

end Surroundings

/-! ## What a walk writes -/

/-- What an act adds to the output. -/
def Act.instruction? : Act → Option Instruction
  | .write instruction => some instruction
  | .lookUp _ | .countItem => none

/-- The instructions among some acts. -/
def writes (acts : List Act) : List Instruction :=
  acts.filterMap Act.instruction?

theorem writes_append
    (first second : List Act) :
    writes (first ++ second) = writes first ++ writes second :=
  List.filterMap_append

theorem writes_write_cons
    (instruction : Instruction) (acts : List Act) :
    writes (.write instruction :: acts) = instruction :: writes acts :=
  rfl

@[simp]
theorem writes_lookUps
    (names : List String) :
    writes (Walk.lookUps names) = [] := by
  simp [writes, Walk.lookUps, Act.instruction?]

/-- Looking up names and counting items leave the output alone. -/
theorem Progress.performAll_of_writes
    {progress : Progress} {acts : List Act} {writer : Markup.Writer}
    (performed :
      progress.writer.performAll (writes acts) = (writer, .ok ())) :
    ∃ final,
      progress.performAll acts = (final, .ok ()) ∧
        final.writer = writer := by
  induction acts generalizing progress with
  | nil =>
      cases performed
      exact ⟨progress, rfl, rfl⟩
  | cons act rest ih =>
      cases act with
      | write instruction =>
          rw [writes_write_cons, Markup.Writer.performAll] at performed
          split at performed
          · cases performed
          · next next done =>
              rw [performAll, perform, done]
              exact ih performed
      | lookUp name =>
          rw [performAll, perform]
          exact ih performed
      | countItem =>
          rw [performAll, perform]
          exact ih performed

/-! ## Placeholders for markup -/

/-- Whether a content is a placeholder whose value is to be inserted
unescaped. -/
def isRaw (style : Style) (content : String) : Bool :=
  (Placeholder.read? style content.toList).any Placeholder.raw

/-- Whether a content is a name between an at sign and an exclamation mark. -/
def RawForm (content : String) : Prop :=
  ∃ name, name ≠ [] ∧ (∀ char ∈ name, isParameterChar char = true) ∧
    content.toList = '@' :: name ++ ['!']

theorem ofBody?_eq_some_iff
    {body : List Char} {raw : Bool} {placeholder : Placeholder} :
    Placeholder.ofBody? body raw = some placeholder ↔
      (body ≠ [] ∧ ∀ char ∈ body, isParameterChar char = true) ∧
        ⟨String.ofList body, raw⟩ = placeholder := by
  rw [Placeholder.ofBody?, Option.ite_none_right_eq_some, Option.some_inj,
    Bool.and_eq_true, List.all_eq_true]
  simp

theorem raw_of_ofIndex?
    {body : List Char} {placeholder : Placeholder}
    (found : Placeholder.ofIndex? body = some placeholder) :
    placeholder.raw = false := by
  simp only [Placeholder.ofIndex?] at found
  split at found
  · split at found
    · cases found
      rfl
    · cases found
  · cases found

/-- Only the named style has placeholders for unescaped markup, and they have
one form. -/
theorem isRaw_iff
    {style : Style} {content : String} :
    isRaw style content = true ↔ style = .named ∧ RawForm content := by
  rw [isRaw, Option.any_eq_true]
  constructor
  · rintro ⟨placeholder, found, raw⟩
    unfold Placeholder.read? at found
    split at found
    · next body source =>
        refine ⟨rfl, ?_⟩
        split at found
        · next exclaimed =>
            obtain ⟨⟨some, letters⟩, -⟩ := ofBody?_eq_some_iff.mp found
            refine ⟨body.dropLast, some, letters, ?_⟩
            rw [source, List.cons_append,
              List.dropLast_append_getLast? '!' exclaimed]
        · obtain ⟨-, rfl⟩ := ofBody?_eq_some_iff.mp found
          cases raw
    · split at found
      · rw [raw_of_ofIndex? found] at raw
        cases raw
      · cases found
    · cases found
  · rintro ⟨rfl, name, some, letters, source⟩
    refine ⟨⟨String.ofList name, true⟩, ?_, rfl⟩
    rw [source, List.cons_append, Placeholder.read?, if_pos (by simp),
      List.dropLast_concat]
    exact ofBody?_eq_some_iff.mpr ⟨⟨some, letters⟩, rfl⟩

instance : DecidablePred RawForm :=
  fun content =>
    decidable_of_iff (isRaw .named content = true)
      (isRaw_iff.trans (and_iff_right rfl))

/-! ## Plain templates -/

/-- Whether nothing is inserted unescaped at an event, and no date range is
given there. -/
def Plain (style : Style) : Event → Prop
  | .start _ attributes _ =>
      ∀ field ∈ attributes,
        isRaw style field.2 = false ∧
          Markup.localName field.1 ≠ AttributeName.origDateRange
  | .text content | .characterData content => isRaw style content = false
  | .finish _ | .comment _ => True

instance (style : Style) : DecidablePred (Plain style)
  | .start _ attributes _ =>
      inferInstanceAs (Decidable (∀ field ∈ attributes, _ = false ∧ _ ≠ _))
  | .text _ | .characterData _ => inferInstanceAs (Decidable (_ = false))
  | .finish _ | .comment _ => inferInstanceAs (Decidable True)

/-- Whether no parameter is a date range. -/
def WithoutRanges (parameters : Fields Value) : Prop :=
  ∀ name,
    (∀ range, parameters.get? name ≠ some (.dynamicRange range)) ∧
      ∀ range, parameters.get? name ≠ some (.staticRange range)

namespace Setting

variable {setting : Setting} {context : Context} {content : String}

theorem raw_render
    (plain : isRaw setting.style content = false) :
    (setting.render context content).raw = false := by
  unfold render
  split
  · rfl
  · split
    · next placeholder found =>
        rw [isRaw, found] at plain
        split <;> exact plain
    · rfl

/-- Only a placeholder that has a value gives one. -/
theorem get?_of_value_render
    {value : Value}
    (given : (setting.render context content).value = some value) :
    ∃ placeholder,
      Placeholder.read? setting.style content.toList = some placeholder ∧
        setting.parameters.get? placeholder.name = some value := by
  unfold render at given
  split at given
  · cases given
  · split at given
    · next placeholder found =>
        split at given
        · next bound =>
            cases given
            exact ⟨placeholder, found, bound⟩
        · cases given
    · cases given

/-- Whether a content is not a placeholder for a date range. -/
def Undated (setting : Setting) (content : String) : Prop :=
  ∀ placeholder,
    Placeholder.read? setting.style content.toList = some placeholder →
      (∀ range,
          setting.parameters.get? placeholder.name ≠
            some (.dynamicRange range)) ∧
        ∀ range,
          setting.parameters.get? placeholder.name ≠
            some (.staticRange range)

theorem undated_of_withoutRanges
    (ranges : WithoutRanges setting.parameters) (content : String) :
    setting.Undated content :=
  fun placeholder _ => ranges placeholder.name

end Setting

namespace Walk

variable {setting : Setting}

theorem rangeAttributes_eq_nil
    {content : String} (undated : setting.Undated content)
    (context : Context) (written : List String) :
    rangeAttributes written (setting.render context content).value = [] := by
  cases given : (setting.render context content).value with
  | none => rfl
  | some value =>
      obtain ⟨placeholder, found, bound⟩ :=
        Setting.get?_of_value_render given
      cases value with
      | dynamicRange range =>
          exact absurd bound ((undated placeholder found).1 range)
      | staticRange range =>
          exact absurd bound ((undated placeholder found).2 range)
      | _ => rfl

theorem renderAttributes_of_plain
    (place : Position) {attributes : List (String × String)}
    (plain : ∀ field ∈ attributes, isRaw setting.style field.2 = false) :
    (renderAttributes setting place attributes).2 =
      .ok (attributes.map setting.filledField) := by
  induction attributes with
  | nil => rfl
  | cons field rest ih =>
      rw [List.forall_mem_cons] at plain
      have escaped :
          (setting.render (.ofName (Markup.localName field.1)) field.2).raw =
            false :=
        Setting.raw_render plain.1
      simp [renderAttributes, escaped, ih plain.2, Setting.filledField,
        Except.map]

/-- Attributes that are rendered to the end. -/
theorem eq_map_of_renderAttributes
    {place : Position} {attributes rendered : List (String × String)}
    (done : (renderAttributes setting place attributes).2 = .ok rendered) :
    rendered = attributes.map setting.filledField := by
  induction attributes generalizing rendered with
  | nil =>
      cases done
      rfl
  | cons field rest ih =>
      rw [renderAttributes] at done
      split at done
      · cases done
      · cases others : (renderAttributes setting place rest).2 with
        | error fault =>
            simp only [others, Except.map] at done
            cases done
        | ok fields =>
            simp only [others, Except.map] at done
            cases done
            rw [ih others]
            rfl

/-- The state of a walk without date ranges, in some surroundings. -/
structure Within (walk : Walk) (around : Surroundings) : Prop where
  condition : walk.condition = around.condition
  preserved : walk.preserved = around.preserved
  range : walk.range = none

theorem Within.preserving
    {walk : Walk} {around : Surroundings} (within : walk.Within around) :
    walk.preserving = around.preserving := by
  rw [Walk.preserving, within.preserved, Surroundings.preserving]

theorem lastNamed?_eq_none
    {name : String} {attributes : List (String × String)}
    (absent : ∀ field ∈ attributes, Markup.localName field.1 ≠ name) :
    lastNamed? name attributes = none := by
  rw [lastNamed?, Option.map_eq_none_iff, List.find?_eq_none]
  intro field member
  simpa [isNamed] using absent field (List.mem_reverse.mp member)

theorem writes_setAttributes
    (attributes : List (String × String)) :
    writes
        (attributes.map fun field =>
          .write (.setAttribute field.1 field.2)) =
      attributes.map fun field => .setAttribute field.1 field.2 := by
  induction attributes with
  | nil => rfl
  | cons field rest ih =>
      rw [List.map_cons, writes_write_cons, ih]
      rfl

/-- The date range among the attributes of a start tag. -/
def rangeOf (attributes : List (String × String)) :
    Option DateRange.Dynamic :=
  (lastNamed? AttributeName.origDateRange attributes).bind
    DateRange.Dynamic.deserialize?

/-- The attributes of a start tag as they are written.  A date range in the
template sets the condition. -/
def retagged (source rendered : List (String × String)) :
    List (String × String) :=
  match rangeOf source with
  | some range => withRange range rendered
  | none => rendered

/-- A start tag is written with its attributes. -/
theorem writes_enter
    (walk : Walk) (name : String) (source rendered : List (String × String))
    (empty : Bool) :
    .startElement name :: writes (walk.enter name source rendered empty).1 =
      (Event.start name (retagged source rendered) empty).instructions := by
  have counting (counted : Prop) [Decidable counted] :
      writes (if counted then [.countItem] else []) = [] := by
    split <;> rfl
  have ending : writes [.write .endElement] = [.endElement] := rfl
  rw [enter]
  cases empty <;>
    simp [writes_append, writes_setAttributes, counting, ending,
      Event.instructions] <;>
    rfl

section

variable
  {source : List (String × String)}
  (absent :
    ∀ field ∈ source,
      Markup.localName field.1 ≠ AttributeName.origDateRange)

include absent

theorem rangeOf_of_absent :
    rangeOf source = none := by
  rw [rangeOf, lastNamed?_eq_none absent]
  rfl

theorem retagged_of_absent
    (rendered : List (String × String)) :
    retagged source rendered = rendered := by
  rw [retagged, rangeOf_of_absent absent]

theorem within_enter
    {walk : Walk} {around : Surroundings} (within : walk.Within around)
    (name : String) (empty : Bool) :
    (walk.enter name source (source.map setting.filledField)
        empty).2.Within
      (around.after setting (.start name source empty)) := by
  rw [enter, lastNamed?_eq_none absent]
  cases empty with
  | false =>
      refine ⟨rfl, ?_, rfl⟩
      simp [Surroundings.after, within.preserving, within.preserved,
        preservedWithin_eq]
  | true => exact ⟨rfl, within.preserved, rfl⟩

end

/-- A start tag with nothing to be inserted unescaped. -/
theorem step_start
    (walk : Walk) (name : String) {attributes : List (String × String)}
    (escapes : ∀ field ∈ attributes, isRaw setting.style field.2 = false)
    (empty : Bool) (place : Position) :
    writes (step setting walk (.start name attributes empty) place).1 =
        (Event.start name
          (retagged attributes (attributes.map setting.filledField))
          empty).instructions ∧
      (step setting walk (.start name attributes empty) place).2 =
        .ok
          (walk.enter name attributes (attributes.map setting.filledField)
            empty).2 := by
  have rendered := renderAttributes_of_plain place escapes
  cases outcome : renderAttributes setting place attributes with
  | mk names result =>
      rw [outcome] at rendered
      cases rendered
      simp only [step, outcome]
      refine ⟨?_, trivial⟩
      rw [List.cons_append, writes_write_cons, writes_append, writes_lookUps,
        List.nil_append, writes_enter]

/-- A start tag of a template without date ranges. -/
theorem step_of_plain_start
    {walk : Walk} {around : Surroundings} (within : walk.Within around)
    {name : String} {attributes : List (String × String)} {empty : Bool}
    (plain : Plain setting.style (.start name attributes empty))
    (place : Position) :
    writes (step setting walk (.start name attributes empty) place).1 =
        (around.filled setting (.start name attributes empty)).flatMap
          Event.instructions ∧
      ∃ next,
        (step setting walk (.start name attributes empty) place).2 =
            .ok next ∧
          next.Within
            (around.after setting (.start name attributes empty)) := by
  have absent := fun field member => (plain field member).2
  obtain ⟨written, reached⟩ :=
    @step_start setting walk name attributes
      (fun field member => (plain field member).1) empty place
  rw [retagged_of_absent absent] at written
  refine ⟨?_, _, reached, within_enter absent within name empty⟩
  rw [written, Surroundings.filled, List.flatMap_singleton]

/-- One event that is no date range. -/
theorem step_of_plain
    {walk : Walk} {around : Surroundings} (within : walk.Within around)
    {event : Event} (plain : Plain setting.style event)
    (undated : ∀ content, event = .text content → setting.Undated content)
    (place : Position) :
    writes (step setting walk event place).1 =
        (around.filled setting event).flatMap Event.instructions ∧
      ∃ next,
        (step setting walk event place).2 = .ok next ∧
          next.Within (around.after setting event) := by
  have escaped (content : String)
      (escapes : isRaw setting.style content = false) :
      (setting.render (.ofCondition around.condition) content).raw =
        false :=
    Setting.raw_render escapes
  cases event with
  | start name attributes empty =>
      exact step_of_plain_start within plain place
  | finish name =>
      refine ⟨rfl, _, rfl, rfl, ?_, within.range⟩
      simp [Surroundings.after, within.preserved]
  | text content =>
      rw [step, Surroundings.filled]
      split
      · rw [within.preserving]
        refine ⟨?_, walk, rfl, within⟩
        split <;> rfl
      · refine ⟨?_, walk, rfl, within⟩
        rw [insertText, within.range]
        simp only [within.condition,
          rangeAttributes_eq_nil (undated content rfl), escaped content plain,
          writes_append, writes_lookUps]
        rfl
  | characterData content =>
      rw [step, within.condition]
      simp only [escaped content plain]
      refine ⟨?_, walk, rfl, within⟩
      rw [if_neg Bool.false_ne_true, writes_append, writes_lookUps]
      rfl
  | comment content => exact ⟨rfl, walk, rfl, within⟩

/-- A script goes on from where its first step leads. -/
theorem script_cons
    {walk next : Walk} {event : Event} {place : Position}
    (reached : (step setting walk event place).2 = .ok next)
    (rest : List (Event × Position)) :
    writes (script setting walk ((event, place) :: rest)).1 =
        writes (step setting walk event place).1 ++
          writes (script setting next rest).1 ∧
      (script setting walk ((event, place) :: rest)).2 =
        (script setting next rest).2 := by
  cases outcome : step setting walk event place with
  | mk acts result =>
      rw [outcome] at reached
      cases reached
      simp only [script, outcome]
      exact ⟨writes_append .., trivial⟩

/-- A script that goes through comes to an end after its first step. -/
theorem exists_next
    {walk : Walk} {event : Event} {place : Position} {rest : List (Event × Position)}
    {last : Walk}
    (reached : (script setting walk ((event, place) :: rest)).2 = .ok last) :
    ∃ next,
      (step setting walk event place).2 = .ok next ∧
        (script setting next rest).2 = .ok last ∧
        (script setting walk ((event, place) :: rest)).1 =
          (step setting walk event place).1 ++
            (script setting next rest).1 := by
  cases outcome : step setting walk event place with
  | mk acts result =>
      cases result with
      | error fault =>
          simp only [script, outcome] at reached
          cases reached
      | ok next =>
          simp only [script, outcome] at reached ⊢
          exact ⟨next, rfl, reached, rfl⟩

/-- What the acts of a whole template without date ranges write. -/
theorem script_of_plain
    (ranges : WithoutRanges setting.parameters)
    {events : List (Event × Position)}
    (plain : ∀ event ∈ events.map Prod.fst, Plain setting.style event)
    {walk : Walk} {around : Surroundings} (within : walk.Within around) :
    writes (script setting walk events).1 =
        (around.filledAll setting (events.map Prod.fst)).flatMap
          Event.instructions ∧
      ∃ last, (script setting walk events).2 = .ok last := by
  induction events generalizing walk around with
  | nil => exact ⟨rfl, walk, rfl⟩
  | cons pair rest ih =>
      obtain ⟨event, place⟩ := pair
      rw [List.map_cons, List.forall_mem_cons] at plain
      obtain ⟨written, next, reached, follows⟩ :=
        step_of_plain within plain.1
          (fun content _ => Setting.undated_of_withoutRanges ranges content)
          place
      obtain ⟨others, last, ended⟩ := ih plain.2 follows
      obtain ⟨parts, same⟩ := script_cons reached rest
      refine ⟨?_, last, same.trans ended⟩
      rw [parts, written, others, List.map_cons, Surroundings.filledAll,
        List.flatMap_append]

end Walk

end AmlExchange.Template
