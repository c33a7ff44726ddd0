import AmlExchange.Proofs.Calendar.Readback
import AmlExchange.Proofs.Sql.Containment
import AmlExchange.Proofs.Template.Filling

/-!
# Templates whose placeholders have no values

A placeholder without a value stays as it is, in flat SQL as well as where it
takes up a whole place.  The one thing that filling changes even so are the
parentheses around a list that begins with a parameter.
-/

namespace AmlExchange.Template

open Markup (Event)
open Text (Position)

/-! ## Flat SQL -/

namespace Sql

variable {locale : Locale} {values : String → Option Value} {inList : Bool}

/-- Where each parameter is answered by itself, the parts are copied. -/
theorem fill_of_echoed
    {answer : String → List Char → List Char} {parts : List Piece}
    (echoed : ∀ name ∈ parts.filterMap Piece.name?, ∀ written,
      answer name written = '@' :: name.toList)
    (written : List Char) :
    fill answer parts written =
      written.reverse ++ parts.flatMap Piece.source := by
  induction parts generalizing written with
  | nil => rw [fill, List.flatMap_nil, List.append_nil]
  | cons piece rest ih =>
      cases piece with
      | copied text =>
          rw [fill, ih echoed, List.flatMap_cons, Piece.source,
            List.reverse_append, List.reverse_reverse, List.append_assoc]
      | parameter name =>
          have bare : answer (String.ofList name) written = '@' :: name := by
            rw [echoed _ List.mem_cons_self, String.toList_ofList]
          rw [fill, bare, ih (fun other member =>
              echoed other (List.mem_cons_of_mem _ member)),
            List.flatMap_cons, Piece.source, List.reverse_append,
            List.reverse_reverse, List.append_assoc]

theorem replacement_of_unbound
    (locale : Locale) (values : String → Option Value) {inList : Bool}
    {name : String} (unbound : values name = none) (written : List Char) :
    replacement locale values inList name written = '@' :: name.toList := by
  rw [replacement, unbound]

/-- A text without at signs has no parameters, wherever it stands. -/
theorem nameless_of_not_mem
    {text : List Char} (unsigned : '@' ∉ text) (region : Region) :
    (pieces region text).filterMap Piece.name? = [] := by
  rw [List.filterMap_eq_nil_iff]
  intro piece member
  cases piece with
  | copied text => rfl
  | parameter name =>
      have within : '@' ∈ (pieces region text).flatMap Piece.source :=
        List.mem_flatMap_of_mem member List.mem_cons_self
      rw [source_pieces] at within
      exact absurd within unsigned

/-- A template none of whose parameters has a value is copied. -/
theorem replace_of_unbound
    {template : List Char}
    (unbound : ∀ name ∈ names template, values name = none) :
    replace locale values inList template = template := by
  have echoed (name : String) (member : name ∈ names template) :=
    @replacement_of_unbound locale values inList name (unbound name member)
  rw [replace, fill_of_echoed echoed, source_pieces]
  rfl

end Sql

/-! ## One place -/

namespace Setting

/-- Whether no placeholder in a content has a value. -/
structure Unbound (setting : Setting) (content : String) : Prop where
  whole : ∀ placeholder,
    Placeholder.read? setting.style content.toList = some placeholder →
      setting.parameters.get? placeholder.name = none
  parts : ∀ name ∈ Sql.names content.toList,
    setting.parameters.get? name = none

/-- A content without the parentheses and the blanks around a list. -/
def unwrapped (context : Context) (content : List Char) : List Char :=
  match context with
  | .isIn =>
      if (Text.trimLeft content).head? = some '(' then
        (listBody (Text.trim content)).1
      else content
  | _ => content

/-- Whether a content is neither inserted unescaped nor a list in
parentheses. -/
def Calm (style : Style) (context : Context) (content : String) : Prop :=
  isRaw style content = false ∧
    unwrapped context content.toList = content.toList

instance (style : Style) (context : Context) (content : String) :
    Decidable (Calm style context content) :=
  inferInstanceAs (Decidable (_ ∧ _))

/-- Whether a content stays as it is, and no value takes its place. -/
structure Leaves (setting : Setting) (context : Context) (content : String) :
    Prop where
  text : (setting.render context content).text = content
  raw : (setting.render context content).raw = false
  value : (setting.render context content).value = none

variable {setting : Setting} {context : Context} {content : String}

theorem renderContent_of_unbound
    {letters : List Char}
    (unbound : ∀ name ∈ Sql.names letters,
      setting.parameters.get? name = none)
    (calm : unwrapped context letters = letters) :
    (setting.renderContent context letters).1 = letters := by
  have copied (inList : Bool) :
      setting.replaceSql inList letters = letters :=
    Sql.replace_of_unbound unbound
  cases context with
  | sql => exact copied false
  | isIn =>
      rw [unwrapped] at calm
      rw [renderContent]
      split
      · next wrapped =>
          rw [if_pos wrapped] at calm
          dsimp only
          rw [calm]
          exact copied _
      · rfl
  | idList | like | between | plain => rfl

theorem text_render_of_unbound
    (unbound : setting.Unbound content)
    (calm : unwrapped context content.toList = content.toList) :
    (setting.render context content).text = content := by
  have copied := renderContent_of_unbound unbound.parts calm
  unfold render
  split
  · rfl
  · split
    · next placeholder found =>
        rw [unbound.whole placeholder found]
        dsimp only
        rw [copied, String.ofList_toList]
    · dsimp only
      rw [copied, String.ofList_toList]

theorem value_render_of_unbound
    (unbound : setting.Unbound content) :
    (setting.render context content).value = none := by
  unfold render
  split
  · rfl
  · split
    · next placeholder found =>
        rw [unbound.whole placeholder found]
    · rfl

theorem leaves_of_unbound
    (unbound : setting.Unbound content)
    (calm : Calm setting.style context content) :
    setting.Leaves context content :=
  ⟨text_render_of_unbound unbound calm.2, raw_render calm.1,
    value_render_of_unbound unbound⟩

end Setting

/-! ## The text of a date range -/

/-- The characters that a placeholder or a list in parentheses begins with. -/
def openings : List Char :=
  ['@', '{', '(']

/-- Whether a text holds nothing that a placeholder or a list in parentheses
begins with. -/
def Inert (text : List Char) : Prop :=
  ∀ char ∈ text, char ∉ openings

instance (text : List Char) : Decidable (Inert text) :=
  List.decidableBAll _ text

theorem inert_append
    {first second : List Char} :
    Inert (first ++ second) ↔ Inert first ∧ Inert second :=
  List.forall_mem_append

theorem inert_cons
    {char : Char} {rest : List Char} :
    Inert (char :: rest) ↔ char ∉ openings ∧ Inert rest :=
  List.forall_mem_cons

theorem digitChar_not_mem_openings
    {digit : Nat} (small : digit < 10) :
    Decimal.digitChar digit ∉ openings := by
  decide +revert

theorem inert_writeNat
    (value : Nat) :
    Inert (Decimal.writeNat value) :=
  Decimal.forall_mem_writeNat digitChar_not_mem_openings value

theorem inert_writeInt
    (value : Int) :
    Inert (Decimal.writeInt value) := by
  rw [Decimal.writeInt]
  split
  · exact inert_cons.mpr ⟨by decide, inert_writeNat _⟩
  · exact inert_writeNat _

theorem inert_formatBounds
    (locale : Locale) (lower upper : Option Calendar.DateTime) :
    Inert (locale.formatBounds lower upper) := by
  have bound (moment : Calendar.DateTime) :
      Inert (locale.formatClient moment) :=
    Calendar.DateTime.forall_mem_write digitChar_not_mem_openings (by decide)
      (by decide) (by decide) _
  have between : Inert " and ".toList := by decide
  cases lower <;> cases upper
  · exact List.forall_mem_nil _
  · exact bound _
  · exact bound _
  · simp only [Locale.formatBounds, inert_append]
    exact ⟨⟨bound _, between⟩, bound _⟩

theorem inert_serialize
    (range : DateRange.Dynamic) :
    Inert range.serialize.toList := by
  have word : Inert "Dynamic|".toList := by decide
  have bar : '|' ∉ openings := by decide
  have period (magnitude : DateRange.Magnitude) :
      Inert magnitude.name.toList := by
    cases magnitude <;> decide
  have day (weekday : Calendar.Weekday) : Inert weekday.name.toList := by
    cases weekday <;> decide
  unfold DateRange.Dynamic.serialize
  simp only [String.toList_ofList, inert_append, inert_cons]
  refine
    ⟨⟨⟨word, period _, bar, inert_writeInt _⟩, bar, period _, bar,
      inert_writeInt _⟩, ?_⟩
  split
  · exact List.forall_mem_nil _
  · exact inert_cons.mpr ⟨bar, day _⟩

theorem inert_formatDynamic
    (locale : Locale) (range : DateRange.Dynamic) :
    Inert (locale.formatDynamic range) := by
  unfold Locale.formatDynamic
  split
  · exact inert_formatBounds _ _ _
  · exact inert_serialize range

namespace Setting

variable {setting : Setting} {content : String}

theorem names_of_inert
    {letters : List Char} (inert : Inert letters) :
    Sql.names letters = [] :=
  Sql.nameless_of_not_mem (fun sign => inert _ sign (by decide)) .code

theorem read?_of_inert
    {letters : List Char} (inert : Inert letters) (style : Style) :
    Placeholder.read? style letters = none := by
  unfold Placeholder.read?
  split
  · exact absurd (by decide) (inert _ List.mem_cons_self)
  · exact absurd (by decide) (inert _ List.mem_cons_self)
  · rfl

theorem unwrapped_of_inert
    {letters : List Char} (inert : Inert letters) (context : Context) :
    unwrapped context letters = letters := by
  have bare : (Text.trimLeft letters).head? ≠ some '(' := by
    intro wrapped
    have member : '(' ∈ letters :=
      List.dropWhile_subset _ (List.mem_of_head? wrapped)
    exact absurd (by decide) (inert _ member)
  cases context with
  | isIn => exact if_neg bare
  | _ => rfl

/-- A text without placeholders and parentheses stays as it is everywhere. -/
theorem leaves_of_inert
    (setting : Setting) (context : Context) {content : String}
    (inert : Inert content.toList) :
    setting.Leaves context content := by
  have bare := read?_of_inert inert setting.style
  apply leaves_of_unbound
  · constructor
    · intro placeholder found
      rw [bare] at found
      cases found
    · rw [names_of_inert inert]
      exact List.forall_mem_nil _
  · refine ⟨?_, unwrapped_of_inert inert context⟩
    rw [isRaw, bare]
    rfl

/-- The text of a date range stays as it is everywhere. -/
theorem leaves_range
    (setting : Setting) (context : Context) (range : DateRange.Dynamic) :
    setting.Leaves context
      (setting.locale.format (.dynamicRange range)) := by
  apply leaves_of_inert
  rw [Locale.format, String.toList_ofList, Locale.formatChars]
  exact inert_formatDynamic _ _

end Setting

/-! ## Whole templates -/

/-- The values that stand at an event. -/
def values : Event → List String
  | .start _ attributes _ => attributes.map Prod.snd
  | .text content | .characterData content => [content]
  | .finish _ | .comment _ => []

namespace Walk

/-- The walk past an event whose attributes stay as they are. -/
def past (walk : Walk) : Event → Walk
  | .start name attributes empty =>
      (walk.enter name attributes attributes empty).2
  | .finish _ =>
      { walk with
        condition := none
        openNames := walk.openNames.tail
        preserved := walk.preserved.tail }
  | .text _ | .characterData _ | .comment _ => walk

/-- Whether what stands at an event is neither inserted unescaped nor a list in
parentheses, nor spacing that is left out.  Where a date range takes the place
of a text, the text does not matter. -/
def Calm (style : Style) (walk : Walk) : Event → Prop
  | .start _ attributes _ =>
      ∀ field ∈ attributes,
        Setting.Calm style (.ofName (Markup.localName field.1)) field.2
  | .text content =>
      if Markup.isSpaced content then walk.preserving = true
      else
        walk.range = none →
          Setting.Calm style (.ofCondition walk.condition) content
  | .characterData content =>
      Setting.Calm style (.ofCondition walk.condition) content
  | .finish _ | .comment _ => True

/-- Whether all that stands at some events is calm. -/
def CalmAll (style : Style) (walk : Walk) : List Event → Prop
  | [] => True
  | event :: rest =>
      walk.Calm style event ∧ CalmAll style (walk.past event) rest

instance (style : Style) (walk : Walk) : DecidablePred (walk.Calm style)
  | .start _ attributes _ =>
      inferInstanceAs (Decidable (∀ field ∈ attributes, Setting.Calm ..))
  | .text content =>
      inferInstanceAs (Decidable (if Markup.isSpaced content then _ else _))
  | .characterData _ => inferInstanceAs (Decidable (Setting.Calm ..))
  | .finish _ | .comment _ => inferInstanceAs (Decidable True)

instance (style : Style) (walk : Walk) : DecidablePred (walk.CalmAll style) :=
  go walk
where
  go (walk : Walk) : (events : List Event) →
      Decidable (walk.CalmAll style events)
    | [] => inferInstanceAs (Decidable True)
    | event :: rest =>
        have := go (walk.past event) rest
        inferInstanceAs (Decidable (_ ∧ _))

/-- An event as it is written where values stay as they are. -/
def refilled (locale : Locale) (walk : Walk) : Event → Event
  | .start name attributes empty =>
      .start name (retagged attributes attributes) empty
  | .text content =>
      match walk.range with
      | some range =>
          if Markup.isSpaced content then .text content
          else .text (locale.format (.dynamicRange range))
      | none => .text content
  | event => event

theorem refilled_text
    (locale : Locale) (walk : Walk) (content : String) :
    ∃ other, walk.refilled locale (.text content) = .text other := by
  rw [refilled]
  split
  · split
    · exact ⟨_, rfl⟩
    · exact ⟨_, rfl⟩
  · exact ⟨_, rfl⟩

/-- Events as they are written where values stay as they are. -/
def refilledAll (locale : Locale) (walk : Walk) : List Event → List Event
  | [] => []
  | event :: rest =>
      walk.refilled locale event :: refilledAll locale (walk.past event) rest

/-- Whether what stands at an event stays as it is. -/
def Leaves (setting : Setting) (walk : Walk) : Event → Prop
  | .start _ attributes _ =>
      ∀ field ∈ attributes,
        setting.Leaves (.ofName (Markup.localName field.1)) field.2
  | .text content =>
      if Markup.isSpaced content then walk.preserving = true
      else
        walk.range = none →
          setting.Leaves (.ofCondition walk.condition) content
  | .characterData content =>
      setting.Leaves (.ofCondition walk.condition) content
  | .finish _ | .comment _ => True

variable {setting : Setting} {walk : Walk}

theorem leaves_of_unbound
    {event : Event}
    (unbound : ∀ value ∈ values event, setting.Unbound value)
    (calm : walk.Calm setting.style event) :
    walk.Leaves setting event := by
  cases event with
  | start name attributes empty =>
      intro field member
      apply Setting.leaves_of_unbound _ (calm field member)
      exact unbound field.2 (List.mem_map_of_mem member)
  | text content =>
      rw [Calm] at calm
      rw [Leaves]
      split
      · next spaced => rwa [if_pos spaced] at calm
      · next visible =>
          rw [if_neg visible] at calm
          intro unranged
          apply Setting.leaves_of_unbound _ (calm unranged)
          exact unbound content List.mem_cons_self
  | characterData content =>
      exact Setting.leaves_of_unbound (unbound content List.mem_cons_self) calm
  | finish name | comment content => trivial

theorem renderAttributes_of_leaves
    (place : Position) {attributes : List (String × String)}
    (leaves : ∀ field ∈ attributes,
      setting.Leaves (.ofName (Markup.localName field.1)) field.2) :
    (renderAttributes setting place attributes).2 = .ok attributes := by
  induction attributes with
  | nil => rfl
  | cons field rest ih =>
      rw [List.forall_mem_cons] at leaves
      simp [renderAttributes, leaves.1.raw, leaves.1.text, ih leaves.2,
        Except.map]

/-- One event at which values stay as they are. -/
theorem step_of_leaves
    {event : Event} (leaves : walk.Leaves setting event) (place : Position) :
    writes (step setting walk event place).1 =
        (walk.refilled setting.locale event).instructions ∧
      (step setting walk event place).2 = .ok (walk.past event) := by
  cases event with
  | start name attributes empty =>
      have rendered := renderAttributes_of_leaves place leaves
      cases outcome : renderAttributes setting place attributes with
      | mk names result =>
          rw [outcome] at rendered
          cases rendered
          simp only [step, outcome]
          refine ⟨?_, rfl⟩
          rw [List.cons_append, writes_write_cons, writes_append,
            writes_lookUps, List.nil_append, writes_enter]
          rfl
  | finish name => exact ⟨rfl, rfl⟩
  | text content =>
      rw [Leaves] at leaves
      rw [step, refilled]
      split
      · next spaced =>
          rw [if_pos spaced] at leaves
          refine ⟨?_, rfl⟩
          rw [if_pos leaves]
          cases walk.range <;> rfl
      · next visible =>
          rw [if_neg visible] at leaves
          refine ⟨?_, rfl⟩
          rw [insertText]
          cases ranged : walk.range with
          | none =>
              have stays := leaves ranged
              simp only [stays.value, stays.raw, stays.text, rangeAttributes,
                writes_append, writes_lookUps]
              rfl
          | some range =>
              have stays :=
                setting.leaves_range (.ofCondition walk.condition) range
              simp only [stays.value, stays.raw, stays.text, rangeAttributes,
                writes_append, writes_lookUps]
              rfl
  | characterData content =>
      have stays : setting.Leaves _ content := leaves
      rw [step]
      simp only [stays.raw, stays.text]
      refine ⟨?_, rfl⟩
      rw [if_neg Bool.false_ne_true, writes_append, writes_lookUps]
      rfl
  | comment content => exact ⟨rfl, rfl⟩

/-- What the acts of a template whose values stay as they are write. -/
theorem script_of_unbound
    {events : List (Event × Position)}
    (unbound : ∀ event ∈ events.map Prod.fst,
      ∀ value ∈ values event, setting.Unbound value)
    (calm : walk.CalmAll setting.style (events.map Prod.fst)) :
    writes (script setting walk events).1 =
        (walk.refilledAll setting.locale (events.map Prod.fst)).flatMap
          Event.instructions ∧
      ∃ last, (script setting walk events).2 = .ok last := by
  induction events generalizing walk with
  | nil => exact ⟨rfl, walk, rfl⟩
  | cons pair rest ih =>
      obtain ⟨event, place⟩ := pair
      rw [List.map_cons, List.forall_mem_cons] at unbound
      obtain ⟨written, reached⟩ :=
        step_of_leaves (leaves_of_unbound unbound.1 calm.1) place
      obtain ⟨others, last, ended⟩ := ih unbound.2 calm.2
      obtain ⟨parts, same⟩ := script_cons reached rest
      refine ⟨?_, last, same.trans ended⟩
      rw [parts, written, others]
      rfl

end Walk

end AmlExchange.Template
