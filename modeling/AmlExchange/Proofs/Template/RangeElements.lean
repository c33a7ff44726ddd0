import AmlExchange.Proofs.Markup.Forest
import AmlExchange.Proofs.Template.Ranges

/-!
# An element that holds a date range

A template that is one element around one placeholder, filled with a date
range, is the element around the bounds of the range, with the condition of
the range and, for a relative one, its definition as attributes
(`fill_placeholderElement`).
-/

namespace AmlExchange.Template

open Markup (Event Instruction Node markupAll normalForm)
open Text (Position)

/-- An element that holds nothing but a text. -/
def textElement (name : String) (attributes : List (String × String))
    (content : String) : Node :=
  .element name attributes [.text content]

theorem events_textElement
    (name : String) (attributes : List (String × String)) (content : String) :
    (textElement name attributes content).events =
      [.start name attributes false, .text content, .finish name] :=
  rfl

theorem nested_textElement
    (name : String) (attributes : List (String × String)) (content : String) :
    Markup.Nested [] (textElement name attributes content).events := by
  have nested :=
    (textElement name attributes content).nested_events (fun _ => trivial)
      (Markup.nested_nil.mpr rfl)
  rwa [List.append_nil] at nested

/-- The markup of an element that holds nothing but a text. -/
def elementMarkup (name : String) (attributes : List (String × String))
    (content : String) : String :=
  String.ofList
    (markupAll (normalForm (textElement name attributes content).events))

/-- The markup of an element tells its attributes. -/
theorem elementMarkup_inj
    {name : String} (isName : Markup.isName name.toList = true)
    {first second : List (String × String)}
    (areFields : Markup.Reader.AreFields first)
    (areOthers : Markup.Reader.AreFields second) (content : String) :
    elementMarkup name first content = elementMarkup name second content ↔
      first = second := by
  constructor
  · intro same
    have lawful {attributes : List (String × String)}
        (are : Markup.Reader.AreFields attributes) :
        (textElement name attributes content).Lawful :=
      ⟨isName, are.1, are.2, trivial, trivial⟩
    have normal :=
      Markup.normalForm_eq_of_markupAll (nested_textElement name first content)
        (nested_textElement name second content)
        (Node.lawful_events _ (lawful areFields))
        (Node.lawful_events _ (lawful areOthers))
        (String.ofList_injective same)
    have tags := congrArg Markup.tags normal
    rw [Markup.tags_normalForm, Markup.tags_normalForm] at tags
    cases tags
    rfl
  · rintro rfl
    rfl

/-! ## The attributes of a range -/

/-- Whether a value is a date range. -/
def isRange : Value → Bool
  | .dynamicRange _ | .staticRange _ => true
  | _ => false

/-- The attribute that tells a condition. -/
def conditionFields (condition : Condition) : List (String × String) :=
  (condition.text?.map fun text => (AttributeName.condition, text)).toList

/-- The attributes that a date range brings along where it is inserted as the
text of an element without attributes. -/
def rangeOffers : Value → List (String × String)
  | .dynamicRange range =>
      conditionFields range.condition ++
        [(AttributeName.origDateRange, range.serialize)]
  | .staticRange range => conditionFields range.condition
  | _ => []

theorem writes_rangeAttributes
    (value : Value) :
    writes (Walk.rangeAttributes [] (some value)) =
      offerings (rangeOffers value) := by
  cases value with
  | dynamicRange range =>
      cases own : range.condition.text? <;>
        simp [Walk.rangeAttributes, rangeOffers, conditionFields, offerings,
          writes, Act.instruction?, own]
  | staticRange range =>
      cases own : range.condition.text? <;>
        simp [Walk.rangeAttributes, rangeOffers, conditionFields, offerings,
          writes, Act.instruction?, own]
  | _ => rfl

/-! ## One element around one placeholder -/

/-- The template of an element that holds the first of the numbered
parameters. -/
def placeholderElement (name : String) : String :=
  "<" ++ name ++ ">@0</" ++ name ++ ">"

theorem toList_placeholderElement
    (name : String) :
    (placeholderElement name).toList =
      markupAll (textElement name [] "@0").events := by
  simp [placeholderElement, textElement, Node.events, Node.eventsAll,
    Event.markup, Markup.tagMarkup]
  rfl

/-- The element is read as its start tag, the placeholder and its end tag. -/
theorem delivered_placeholderElement
    {name : String} (isName : Markup.isName name.toList = true)
    (small :
      (placeholderElement name).utf8ByteSize ≤ Markup.Limits.standard.size) :
    (Markup.read .standard (placeholderElement name)).Delivered
      (textElement name [] "@0").events := by
  have lawful : (textElement name [] "@0").Lawful :=
    ⟨isName, nofun, List.nodup_nil, trivial, trivial⟩
  have settled : Markup.Settled (textElement name [] "@0").events := by
    simp [events_textElement, Markup.Settled, Event.Settled, Event.isText]
  have short : Markup.Short (textElement name [] "@0").events := by
    simp [events_textElement, Markup.Short, Event.opens]
  have shallow :
      Markup.Shallow Markup.Limits.standard.depth 0
        (textElement name [] "@0").events := by
    simp [events_textElement, Markup.Shallow, Event.opens]
  have normal :
      normalForm (textElement name [] "@0").events =
        (textElement name [] "@0").events :=
    Markup.normalForm_of_settled settled short
  have delivered :=
    @Markup.delivered_of_markup _ (nested_textElement name [] "@0")
      (Node.lawful_events _ lawful) .standard (normal.symm ▸ shallow)
      (placeholderElement name)
      (by rw [normal, ← toList_placeholderElement, String.ofList_toList])
      (fun _ => small)
  rwa [normal] at delivered

section

variable
  {setting : Setting} {value : Value}

theorem render_placeholder
    (named : setting.style = .named)
    (given : setting.parameters.get? "0" = some value)
    (ranged : isRange value = true) (context : Context) :
    setting.render context "@0" =
      ⟨setting.locale.format value, false, some value, ["0"]⟩ := by
  have found :
      Placeholder.read? setting.style "@0".toList = some ⟨"0", false⟩ := by
    rw [named]
    decide
  have alone :
      setting.renderValue context false value =
        setting.locale.formatChars value := by
    cases value <;> first | rfl | cases ranged
  unfold Setting.render
  rw [if_neg (by decide), found]
  dsimp only
  rw [given]
  dsimp only
  rw [alone]
  rfl

theorem step_placeholder
    (named : setting.style = .named)
    (given : setting.parameters.get? "0" = some value)
    (ranged : isRange value = true) {walk : Walk}
    (unranged : walk.range = none) (bare : walk.written = [])
    (place : Position) :
    writes (Walk.step setting walk (.text "@0") place).1 =
        offerings (rangeOffers value) ++
          [.text (setting.locale.format value)] ∧
      (Walk.step setting walk (.text "@0") place).2 = .ok walk := by
  have visible : Markup.isSpaced "@0" = false := by decide
  rw [Walk.step, if_neg (by simp [visible])]
  refine ⟨?_, rfl⟩
  rw [Walk.insertText, unranged]
  dsimp only
  rw [render_placeholder named given ranged, bare, writes_append,
    writes_append, writes_lookUps, writes_rangeAttributes]
  rfl

/-- What the acts of the three events write. -/
theorem script_placeholderElement
    (named : setting.style = .named)
    (given : setting.parameters.get? "0" = some value)
    (ranged : isRange value = true) {name : String}
    {pairs : List (Event × Position)}
    (made : pairs.map Prod.fst = (textElement name [] "@0").events) :
    writes (Walk.script setting .start pairs).1 =
        .startElement name ::
          (offerings (rangeOffers value) ++
            [.text (setting.locale.format value), .endElement]) ∧
      ∃ last, (Walk.script setting .start pairs).2 = .ok last := by
  rw [events_textElement] at made
  simp only [List.map_eq_cons_iff, List.map_eq_nil_iff] at made
  obtain
    ⟨⟨_, first⟩, _, rfl, rfl, ⟨_, second⟩, _, rfl, rfl, ⟨_, third⟩, _, rfl,
      rfl, rfl⟩ := made
  obtain ⟨opening, entered⟩ :=
    @Walk.step_start setting .start name [] nofun false first
  rw [Walk.retagged_of_absent (List.forall_mem_nil _)] at opening
  generalize reached :
    (Walk.enter .start name [] ([].map setting.filledField) false).2 = inner
    at entered
  have unranged : inner.range = none := by
    rw [← reached]
    rfl
  have bare : inner.written = [] := by
    rw [← reached]
    rfl
  obtain ⟨content, stays⟩ :=
    step_placeholder named given ranged unranged bare second
  obtain ⟨begun, onward⟩ :=
    Walk.script_cons entered
      [(.text "@0", second), (.finish name, third)]
  obtain ⟨continued, further⟩ :=
    Walk.script_cons stays [(.finish name, third)]
  rw [begun, onward, continued, further, opening, content]
  exact ⟨by simp [Event.instructions, Walk.script, Walk.step, writes,
    Act.instruction?], _, rfl⟩

end

/-- The substitution of one numbered parameter. -/
def ofArgument (value : Value) : Substitution :=
  Substitution.new.bindIndexed [value]

theorem isAml_placeholderElement
    (value : Value) (name : String) :
    (ofArgument value).isAml (placeholderElement name) = true := by
  rw [Substitution.isAml, toList_placeholderElement]
  rfl

/-- Only a template that is not too large is filled. -/
theorem small_of_fill
    {value : Value} {name text : String} {locale : Locale}
    (filled :
      ((ofArgument value).fill locale none (placeholderElement name)).2.text =
        .ok text) :
    (placeholderElement name).utf8ByteSize ≤ Markup.Limits.standard.size := by
  obtain ⟨done, -⟩ :=
    Substitution.fillAml_of_text (isAml_placeholderElement value name) filled
  obtain ⟨⟨place, ended⟩, -⟩ := Substitution.exists_last_of_fillAml done
  by_contra large
  rw [Nat.not_le] at large
  rw [Markup.read, if_pos ⟨by decide, large⟩] at ended
  cases ended

/-- An element around a placeholder is filled with the bounds of a range, and
gets the attributes of the range. -/
theorem fill_placeholderElement
    {value : Value} (ranged : isRange value = true) {name : String}
    (isName : Markup.isName name.toList = true)
    (small :
      (placeholderElement name).utf8ByteSize ≤ Markup.Limits.standard.size)
    (locale : Locale) :
    ((ofArgument value).fill locale none (placeholderElement name)).2.text =
      .ok (elementMarkup name (rangeOffers value) (locale.format value)) := by
  have given :
      ((ofArgument value).setting locale).parameters.get? "0" = some value := by
    have zero : String.ofList (Decimal.writeNat 0) = "0" := by
      decide +kernel
    have inserted :=
      @Fields.get?_insert Value .empty
        (String.ofList (Decimal.writeNat 0)) "0" value
    rwa [if_pos zero] at inserted
  obtain ⟨⟨place, ended⟩, made⟩ := delivered_placeholderElement isName small
  obtain ⟨written, last, walked⟩ :=
    @script_placeholderElement ((ofArgument value).setting locale) value rfl
      given ranged name _ made
  have alike :
      Alike
        (writes
          (Walk.script ((ofArgument value).setting locale) .start
            (Markup.read .standard (placeholderElement name)).events).1)
        ((textElement name (rangeOffers value)
          (locale.format value)).events.flatMap Event.instructions) := by
    have taken :=
      (ComesTo.of_alike (Alike.refl
        [.text (locale.format value), .endElement])).offerAll
          (rangeOffers value)
    rw [List.append_nil] at taken
    rw [written]
    exact taken.start name []
  obtain ⟨done, output⟩ :=
    Substitution.fillAml_of_alike ended walked
      (nested_textElement name _ _) alike
  obtain ⟨result, text⟩ :=
    Substitution.fill_of_isAml (isAml_placeholderElement value name) locale
      none
  rw [Substitution.Filled.text, result, text, done, output]
  rfl

end AmlExchange.Template
