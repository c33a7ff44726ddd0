import AmlExchange.Proofs.Document.Rereading
import AmlExchange.Proofs.Markup.Occurrences
import AmlExchange.Proofs.Template.Mentions
import AmlExchange.Proofs.Template.Ranges
import AmlExchange.Proofs.Template.Retagging

/-!
# Filling a template that uses no parameter

A template that mentions none of the parameters is still written event by
event.  What comes out is the template less the texts of nothing but spacing,
as long as two things that filling does without a parameter are left aside: it
refuses a placeholder for unescaped markup outside of text, and it leaves out
parentheses and blanks around some lists (`Walk.Steady`).
-/

namespace AmlExchange.Template

open Markup (Event Instruction Nested Shallow)
open Text (Position)

/-! ## Spacing -/

/-- Whether spacing is preserved in each open element after an event, the
innermost first. -/
def spacingAfter (preserved : List Bool) : Event → List Bool
  | .start _ attributes false =>
      keepsSpacing (preserved.head?.getD false) attributes :: preserved
  | .finish _ => preserved.tail
  | _ => preserved

/-- Whether an event is a text of nothing but spacing where spacing is not
preserved. -/
def isIdle (preserved : List Bool) : Event → Bool
  | .text content =>
      Markup.isSpaced content && !preserved.head?.getD false
  | _ => false

/-- Events without the texts of nothing but spacing, unless spacing is
preserved where they stand. -/
def withoutSpacing (preserved : List Bool) : List Event → List Event
  | [] => []
  | event :: rest =>
      if isIdle preserved event then
        withoutSpacing (spacingAfter preserved event) rest
      else event :: withoutSpacing (spacingAfter preserved event) rest

theorem exists_text_of_isIdle
    {preserved : List Bool} {event : Event}
    (idle : isIdle preserved event = true) :
    ∃ content, event = .text content := by
  cases event with
  | text content => exact ⟨content, rfl⟩
  | _ => cases idle

theorem nested_withoutSpacing
    {names : List String} {events : List Event}
    (nested : Nested names events) (preserved : List Bool) :
    Nested names (withoutSpacing preserved events) := by
  induction events generalizing names preserved with
  | nil => exact nested
  | cons event rest ih =>
      obtain ⟨next, fits, nestedRest⟩ := Markup.nested_cons.mp nested
      rw [withoutSpacing]
      split
      · next idle =>
          obtain ⟨content, rfl⟩ := exists_text_of_isIdle idle
          obtain ⟨-, rfl⟩ := Markup.nest?_text.mp fits
          exact ih nestedRest _
      · exact Markup.nested_cons.mpr ⟨next, fits, ih nestedRest _⟩

theorem forall_mem_withoutSpacing
    {property : Event → Prop} {events : List Event}
    (all : ∀ event ∈ events, property event) (preserved : List Bool) :
    ∀ event ∈ withoutSpacing preserved events, property event := by
  induction events generalizing preserved with
  | nil => exact all
  | cons event rest ih =>
      rw [List.forall_mem_cons] at all
      rw [withoutSpacing]
      split
      · exact ih all.2 _
      · exact List.forall_mem_cons.mpr ⟨all.1, ih all.2 _⟩

theorem shallow_withoutSpacing
    {depth level : Nat} {events : List Event}
    (shallow : Shallow depth level events) (preserved : List Bool) :
    Shallow depth level (withoutSpacing preserved events) := by
  induction events generalizing level preserved with
  | nil => trivial
  | cons event rest ih =>
      rw [withoutSpacing]
      split
      · next idle =>
          obtain ⟨content, rfl⟩ := exists_text_of_isIdle idle
          exact ih shallow.2 _
      · exact ⟨shallow.1, ih shallow.2 _⟩

/-! ## Unescaped text that needs no escaping -/

theorem escapeText_of_plain
    {content : String}
    (plain : ∀ char ∈ content.toList, Markup.escapeTextChar char = [char]) :
    Markup.escapeText content = content := by
  rw [Markup.escapeText, List.flatMap_congr plain, List.flatMap_singleton',
    String.ofList_toList]

theorem escapeTextChar_of_isParameterChar
    {char : Char} (letter : isParameterChar char = true) :
    Markup.escapeTextChar char = [char] := by
  have plain (mark : Char) (special : isParameterChar mark = false) :
      char ≠ mark := by
    rintro rfl
    rw [letter] at special
    cases special
  rw [Markup.escapeTextChar, if_neg (plain '&' (by decide)),
    if_neg (plain '<' (by decide)), if_neg (plain '>' (by decide))]

/-- A placeholder for unescaped markup has no character to be escaped. -/
theorem escapeText_of_isRaw
    {style : Style} {content : String} (raw : isRaw style content = true) :
    Markup.escapeText content = content := by
  obtain ⟨-, letters, -, areLetters, shape⟩ := isRaw_iff.mp raw
  apply escapeText_of_plain
  rw [shape, List.cons_append, List.forall_mem_cons, List.forall_mem_append]
  exact
    ⟨rfl,
      fun char member => escapeTextChar_of_isParameterChar (areLetters char member),
      List.forall_mem_singleton.mpr rfl⟩

/-- A placeholder for unescaped markup that stays as it is can as well be
written as text. -/
theorem alike_raw
    {style : Style} {content : String} (raw : isRaw style content = true)
    {first second : List Instruction} (alike : Alike first second) :
    Alike (.raw content :: first) (.text content :: second) := by
  intro writer
  have same :
      writer.perform (.raw content) = writer.perform (.text content) := by
    show writer.raw content = writer.text content
    rw [Markup.Writer.raw, Markup.Writer.text, escapeText_of_isRaw raw]
  rw [Markup.Writer.performAll, Markup.Writer.performAll, same]
  split
  · rfl
  · exact alike _

/-! ## What the acts write -/

namespace Walk

/-- Whether what stands at an event is, outside of text, no placeholder for
unescaped markup, and is no list whose parentheses or blanks are left out. -/
def Steady (style : Style) (walk : Walk) : Event → Prop
  | .start _ attributes _ =>
      ∀ field ∈ attributes,
        Setting.Calm style (.ofName (Markup.localName field.1)) field.2
  | .text content =>
      Setting.unwrapped (.ofCondition walk.condition) content.toList =
        content.toList
  | .characterData content =>
      Setting.Calm style (.ofCondition walk.condition) content
  | .finish _ | .comment _ => True

/-- Whether all that stands at some events is steady. -/
def SteadyAll (style : Style) (walk : Walk) : List Event → Prop
  | [] => True
  | event :: rest =>
      walk.Steady style event ∧ SteadyAll style (walk.past event) rest

instance (style : Style) (walk : Walk) : DecidablePred (walk.Steady style)
  | .start _ attributes _ =>
      inferInstanceAs (Decidable (∀ field ∈ attributes, Setting.Calm ..))
  | .text _ => inferInstanceAs (Decidable (_ = _))
  | .characterData _ => inferInstanceAs (Decidable (Setting.Calm ..))
  | .finish _ | .comment _ => inferInstanceAs (Decidable True)

instance (style : Style) (walk : Walk) :
    DecidablePred (walk.SteadyAll style) :=
  go walk
where
  go (walk : Walk) : (events : List Event) →
      Decidable (walk.SteadyAll style events)
    | [] => inferInstanceAs (Decidable True)
    | event :: rest =>
        have := go (walk.past event) rest
        inferInstanceAs (Decidable (_ ∧ _))

/-- Whether an event has no attribute for a date range. -/
def Dateless : Event → Prop
  | .start _ attributes _ =>
      ∀ field ∈ attributes,
        Markup.localName field.1 ≠ AttributeName.origDateRange
  | _ => True

theorem dateless_of_absent
    {template : String}
    (absent :
      Text.contains AttributeName.origDateRange.toList template.toList =
        false)
    {limits : Markup.Limits} :
    ∀ event ∈ (Markup.read limits template).events.map Prod.fst,
      Dateless event := by
  intro event member
  cases event with
  | start name attributes empty =>
      exact Markup.localName_ne_of_absent absent member
  | _ => trivial

variable {setting : Setting} {walk : Walk}

theorem range_past_of_dateless
    (unranged : walk.range = none) {event : Event}
    (dateless : Dateless event) :
    (walk.past event).range = none := by
  cases event with
  | start name attributes empty =>
      rw [range_past, rangeOf_of_absent dateless]
  | _ => exact unranged

theorem preserved_past
    {event : Event} (dateless : Dateless event) :
    (walk.past event).preserved = spacingAfter walk.preserved event := by
  cases event with
  | start name attributes empty =>
      have absent := rangeOf_of_absent dateless
      rw [rangeOf] at absent
      rw [past, enter, absent]
      cases empty with
      | true => rfl
      | false =>
          rw [spacingAfter, ← preservedWithin_eq]
          rfl
  | _ => rfl

theorem refilled_of_dateless
    (unranged : walk.range = none) {event : Event} (dateless : Dateless event)
    (locale : Locale) :
    walk.refilled locale event = event := by
  cases event with
  | start name attributes empty =>
      rw [refilled, retagged_of_absent dateless]
  | text content => rw [refilled, unranged]
  | _ => rfl

/-- A text that mentions no parameter is written as it is, or left out. -/
theorem alike_text
    (unranged : walk.range = none) {content : String}
    (unbound : setting.Unbound content)
    (steady : walk.Steady setting.style (.text content)) (place : Position)
    {first second : List Instruction} (alike : Alike first second) :
    Alike
      (writes (step setting walk (.text content) place).1 ++ first)
      ((if isIdle walk.preserved (.text content) then []
          else (Event.text content).instructions) ++
        second) := by
  have text := Setting.text_render_of_unbound unbound steady
  have value :
      (setting.render (.ofCondition walk.condition) content).value = none :=
    Setting.value_render_of_unbound unbound
  rw [step, isIdle, ← Walk.preserving]
  cases spaced : Markup.isSpaced content with
  | true =>
      cases walk.preserving with
      | true => exact alike.cons _
      | false => exact alike
  | false =>
      have written :
          writes (insertText setting walk content) =
            [if (setting.render (.ofCondition walk.condition) content).raw
              then .raw content else .text content] := by
        rw [insertText, unranged]
        simp only [value, rangeAttributes, writes_append, writes_lookUps, text]
        rfl
      simp only [Bool.false_eq_true, if_false, Bool.false_and, written]
      cases raw : isRaw setting.style content with
      | true =>
          split
          · exact alike_raw raw alike
          · exact alike.cons _
      | false =>
          rw [Setting.raw_render raw]
          exact alike.cons _

/-- One event of a template that mentions no parameter. -/
theorem step_of_steady
    (unranged : walk.range = none) {event : Event} (dateless : Dateless event)
    (unbound : ∀ value ∈ values event, setting.Unbound value)
    (steady : walk.Steady setting.style event) (place : Position) :
    (step setting walk event place).2 = .ok (walk.past event) ∧
      ∀ first second, Alike first second →
        Alike (writes (step setting walk event place).1 ++ first)
          ((if isIdle walk.preserved event then []
              else event.instructions) ++
            second) := by
  have untouched (calm : walk.Calm setting.style event) :
      (step setting walk event place).2 = .ok (walk.past event) ∧
        ∀ first second, Alike first second →
          Alike (writes (step setting walk event place).1 ++ first)
            (event.instructions ++ second) := by
    obtain ⟨written, reached⟩ :=
      step_of_leaves (leaves_of_unbound unbound calm) place
    rw [refilled_of_dateless unranged dateless] at written
    rw [written]
    exact ⟨reached, fun _ _ alike => alike.append_left _⟩
  cases event with
  | text content =>
      refine ⟨?_, fun _ _ => alike_text unranged ?_ steady place⟩
      · rw [step]
        split <;> rfl
      · exact unbound content List.mem_cons_self
  | start name attributes empty => exact untouched steady
  | characterData content => exact untouched steady
  | finish name | comment content => exact untouched trivial

/-- A template that mentions no parameter is written as it is, less spacing. -/
theorem script_of_steady
    {events : List (Event × Position)}
    (dateless : ∀ event ∈ events.map Prod.fst, Dateless event)
    (unbound : ∀ event ∈ events.map Prod.fst,
      ∀ value ∈ values event, setting.Unbound value)
    (unranged : walk.range = none)
    (steady : walk.SteadyAll setting.style (events.map Prod.fst)) :
    Alike (writes (script setting walk events).1)
        ((withoutSpacing walk.preserved (events.map Prod.fst)).flatMap
          Event.instructions) ∧
      ∃ last, (script setting walk events).2 = .ok last := by
  induction events generalizing walk with
  | nil => exact ⟨.refl _, walk, rfl⟩
  | cons pair rest ih =>
      obtain ⟨event, place⟩ := pair
      rw [List.map_cons, List.forall_mem_cons] at dateless unbound
      obtain ⟨reached, alike⟩ :=
        step_of_steady unranged dateless.1 unbound.1 steady.1 place
      obtain ⟨others, last, ended⟩ :=
        ih dateless.2 unbound.2 (range_past_of_dateless unranged dateless.1) steady.2
      obtain ⟨parts, same⟩ := script_cons reached rest
      refine ⟨?_, last, same.trans ended⟩
      have whole := alike _ _ others
      rw [preserved_past dateless.1] at whole
      rw [parts, List.map_cons, withoutSpacing]
      split
      · next idle =>
          rw [if_pos idle] at whole
          exact whole
      · next kept =>
          rw [if_neg kept] at whole
          exact whole

end Walk

end AmlExchange.Template
