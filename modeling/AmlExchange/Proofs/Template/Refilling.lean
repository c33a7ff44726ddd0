import AmlExchange.Proofs.DateRange.Notation
import AmlExchange.Proofs.Template.Ranges
import AmlExchange.Proofs.Template.Retagging

/-!
# Filling a filled template again

A filled element with a date range holds the bounds of the range and the range
itself.  Filled again, it gets the bounds of the range that it holds, which are
the same at the same moment, and the condition of that range.  So the output
stays as it is exactly if every such element had the condition that its range
gives it (`refill_filled_iff`).
-/

namespace AmlExchange.Template

open Markup (Draft Event Instruction Nested Shallow normalForm tags)
open Text (Position)

/-! ## Conditions -/

namespace Dated

/-- Whether the condition of a filled element is that of its range, or the
range has none and the element has one. -/
def Steady (setting : Setting) (dated : Dated) : Prop :=
  match dated.condition with
  | some condition =>
      ∀ text ∈ dated.range.condition.text?,
        text = (setting.filledField (AttributeName.condition, condition)).2
  | none => dated.range.condition.text? ≠ none

instance (setting : Setting) : DecidablePred (Steady setting)
  | ⟨_, some _, _, _⟩ =>
      inferInstanceAs (Decidable (∀ text ∈ _, text = _))
  | ⟨_, none, _, _⟩ => inferInstanceAs (Decidable (_ ≠ _))

theorem lastNamed?_marks
    (setting : Setting) (dated : Dated) :
    Walk.lastNamed? AttributeName.origDateRange (dated.marks setting) =
      some dated.range.serialize := by
  have named :
      Walk.isNamed AttributeName.origDateRange
          (AttributeName.origDateRange, dated.range.serialize) = true :=
    show Markup.localName AttributeName.origDateRange == _ from by decide
  rw [Walk.lastNamed?, marks, offers, List.reverse_append,
    List.reverse_append]
  simp [named]

/-- The range of a filled element is the one that was inserted. -/
theorem rangeOf_marks
    (setting : Setting) (dated : Dated) :
    Walk.rangeOf (dated.marks setting) = some dated.range := by
  rw [Walk.rangeOf, lastNamed?_marks, Option.bind_some,
    DateRange.Dynamic.deserialize?_serialize]

/-- A filled element keeps its attributes exactly if its condition is that of
its range. -/
theorem retagged_marks_iff
    (setting : Setting) (dated : Dated) :
    Walk.retagged (dated.marks setting) (dated.marks setting) =
        dated.marks setting ↔
      dated.Steady setting := by
  have condition (text : String) :
      Walk.isNamed AttributeName.condition (AttributeName.condition, text) =
        true :=
    show Markup.localName AttributeName.condition == _ from by decide
  have range (text : String) :
      Walk.isNamed AttributeName.condition
          (AttributeName.origDateRange, text) =
        false :=
    show (Markup.localName AttributeName.origDateRange == _) = _ from by decide
  rw [Walk.retagged, rangeOf_marks]
  cases given : dated.condition <;>
    cases own : dated.range.condition.text? <;>
      simp [Walk.withRange, marks, source, offers, ownCondition, Steady,
        Walk.changeFirst, Setting.filledField, given, own, condition, range]

end Dated

/-! ## Filled templates -/

/-- An element around a text, before events in normal form. -/
theorem normalForm_element
    (name : String) (attributes : List (String × String)) (content : String)
    (rest : List Event) :
    normalForm
        (.start name attributes false :: .text content :: .finish name ::
          rest) =
      if content.isEmpty then
        .start name attributes true :: normalForm rest
      else
        .start name attributes false :: .text content :: .finish name ::
          normalForm rest := by
  show
    (Event.start name attributes false).before
        (if content.isEmpty then .finish name :: normalForm rest
        else .text content :: .finish name :: normalForm rest) =
      _
  split <;> rfl

namespace Part

variable {setting : Setting} {parts : List Part}

/-- Whether no text but spacing stands between an element with a date range
and the next start tag. -/
def Apart : List Part → Prop
  | [] => True
  | .plain _ :: rest => Apart rest
  | .dated _ :: rest => Walk.Quiet (rest.flatMap events) ∧ Apart rest

theorem quiet_filledAll
    (quiet : Walk.Quiet (parts.flatMap events)) (setting : Setting)
    (around : Surroundings) :
    Walk.Quiet (filledAll setting around parts) := by
  induction parts generalizing around with
  | nil => trivial
  | cons part rest ih =>
      cases part with
      | dated element => trivial
      | plain event =>
          rw [filledAll, filled]
          cases event with
          | start name attributes empty => trivial
          | text content =>
              have spaced : Markup.isSpaced content = true := quiet.1
              rw [Surroundings.filled, if_pos spaced]
              split
              · exact ⟨spaced, ih quiet.2 _⟩
              · exact ih quiet.2 _
          | finish name | characterData content | comment content =>
              exact ih quiet _

theorem absent_filledField
    {attributes : List (String × String)}
    (absent : ∀ field ∈ attributes,
      Markup.localName field.1 ≠ AttributeName.origDateRange)
    (setting : Setting) :
    ∀ field ∈ attributes.map setting.filledField,
      Markup.localName field.1 ≠ AttributeName.origDateRange :=
  List.forall_mem_map.mpr absent

/-- In the output each text after a date range is what the range comes to. -/
theorem agrees_filledAll
    (proper : ∀ part ∈ parts, part.Proper setting) (apart : Apart parts)
    (around : Surroundings) :
    Walk.Agrees setting.locale none
      (normalForm (filledAll setting around parts)) := by
  induction parts generalizing around with
  | nil => trivial
  | cons part rest ih =>
      rw [List.forall_mem_cons] at proper
      cases part with
      | dated element =>
          have following := ih proper.2 apart.2 ⟨none, around.preserved⟩
          have quiet :=
            Walk.quiet_normalForm
              (quiet_filledAll apart.1 setting ⟨none, around.preserved⟩)
          have within :=
            Walk.agrees_of_quiet quiet following (some element.range)
          show Walk.Agrees _ _ (normalForm (_ :: _ :: _ :: _))
          rw [normalForm_element]
          split
          · show Walk.Agrees _ (Walk.rangeOf (element.marks setting)) _
            rw [element.rangeOf_marks setting]
            exact within
          · show Walk.Agrees _ (Walk.rangeOf (element.marks setting)) _
            rw [element.rangeOf_marks setting]
            refine ⟨.inr ?_, within⟩
            rintro range ⟨⟩
            rfl
      | plain event =>
          have following :=
            ih proper.2 apart (around.after setting event)
          rw [filledAll, filled]
          cases event with
          | start name attributes empty =>
              refine @Walk.agrees_before _ (.start ..) _ ?_
              have absent :=
                absent_filledField
                  (fun field member => (proper.1.1 field member).2) setting
              show Walk.Agrees _ (Walk.rangeOf _) _
              rw [Walk.rangeOf_of_absent absent]
              exact following
          | text content =>
              rw [Surroundings.filled]
              split
              · split
                · exact Walk.agrees_before (Walk.agrees_text following _)
                · exact following
              · exact Walk.agrees_before (Walk.agrees_text following _)
          | finish name =>
              exact @Walk.agrees_before _ (.finish _) _ following
          | characterData content =>
              exact @Walk.agrees_before _ (.characterData _) _ following
          | comment content =>
              exact @Walk.agrees_before _ (.comment _) _ following

/-- The start tags of the output keep their attributes exactly if those of the
elements with a date range do. -/
theorem kept_filledAll_iff
    (proper : ∀ part ∈ parts, part.Proper setting) (around : Surroundings) :
    (∀ tag ∈ tags (filledAll setting around parts), Walk.Kept tag.2) ↔
      ∀ element, .dated element ∈ parts → element.Steady setting := by
  induction parts generalizing around with
  | nil =>
      exact
        ⟨fun _ _ member => absurd member List.not_mem_nil,
          fun _ => List.forall_mem_nil _⟩
  | cons part rest ih =>
      rw [List.forall_mem_cons] at proper
      rw [filledAll, Markup.tags_append, List.forall_mem_append, ih proper.2]
      cases part with
      | dated element =>
          have first :
              (∀ tag ∈ tags (element.filled setting), Walk.Kept tag.2) ↔
                element.Steady setting :=
            List.forall_mem_singleton.trans (element.retagged_marks_iff setting)
          rw [filled, first]
          constructor
          · rintro ⟨steady, others⟩ other member
            rcases List.mem_cons.mp member with same | member
            · cases same
              exact steady
            · exact others other member
          · intro all
            exact
              ⟨all element List.mem_cons_self,
                fun other member => all other (List.mem_cons_of_mem _ member)⟩
      | plain event =>
          have first :
              ∀ tag ∈ tags (around.filled setting event),
                Walk.Kept tag.2 := by
            cases event with
            | start name attributes empty =>
                have start :
                    tags
                        (around.filled setting
                          (.start name attributes empty)) =
                      [(name, attributes.map setting.filledField)] :=
                  rfl
                rw [start, List.forall_mem_singleton]
                apply Walk.kept_of_absent
                exact
                  absent_filledField
                    (fun field member => (proper.1.1 field member).2) setting
            | text content =>
                rw [Surroundings.filled]
                split
                · split <;> exact List.forall_mem_nil _
                · exact List.forall_mem_nil _
            | finish name | characterData content | comment content =>
                exact List.forall_mem_nil _
          rw [filled]
          constructor
          · rintro ⟨-, others⟩ other member
            rcases List.mem_cons.mp member with same | member
            · cases same
            · exact others other member
          · intro all
            exact
              ⟨first,
                fun other member => all other (List.mem_cons_of_mem _ member)⟩

end Part

namespace Substitution

/-- What begins with a tag is filled as AML. -/
theorem isAml_of_events
    {substitution : Substitution} (aml : substitution.mode = .aml)
    {events : List Event} (nested : Nested [] events) (some : events ≠ []) :
    substitution.isAml (String.ofList (Markup.markupAll events)) = true := by
  apply isAml_of_head? _ aml
  rw [String.toList_ofList]
  cases events with
  | nil => exact absurd rfl some
  | cons event rest =>
      obtain ⟨next, fits, -⟩ := Markup.nested_cons.mp nested
      cases event with
      | finish name => cases fits
      | text content => cases fits
      | _ => rfl

/-- The markup of events whose values stay as they are is filled with the
markup of the same events, their start tags and texts set by date ranges. -/
theorem refill_of_unbound
    {substitution : Substitution} {locale : Locale} {events : List Event}
    (mode : substitution.mode = .aml)
    (nested : Nested [] events) (lawful : ∀ event ∈ events, event.Lawful)
    (shallow : Shallow Markup.Limits.standard.depth 0 events)
    {output : String}
    (written : output = String.ofList (Markup.markupAll (normalForm events)))
    (small : output.utf8ByteSize ≤ Markup.Limits.standard.size)
    (unbound : ∀ event ∈ normalForm events,
      ∀ value ∈ values event, (substitution.setting locale).Unbound value)
    (calm : Walk.start.CalmAll substitution.style (normalForm events)) :
    (substitution.fill locale none output).2.text =
      .ok
        (String.ofList
          (Markup.markupAll
            (normalForm
              (Walk.start.refilledAll locale (normalForm events))))) := by
  obtain ⟨⟨place, ended⟩, delivered⟩ :=
    Markup.delivered_of_shallow nested lawful shallow written fun _ => small
  have nestedForm := Markup.nested_normalForm nested
  rw [← delivered] at unbound calm
  obtain ⟨same, last, walked⟩ :=
    @Walk.script_of_unbound (substitution.setting locale) .start _ unbound calm
  rw [delivered] at same
  by_cases nothing : normalForm events = []
  · rw [written, nothing]
    rfl
  · have aml := isAml_of_events mode nestedForm nothing
    rw [← written] at aml
    obtain ⟨result, text⟩ := fill_of_isAml aml locale none
    obtain ⟨done, made⟩ :=
      fillAml_of_alike ended walked
        (Walk.nested_refilledAll nestedForm locale .start)
        (fun writer => by rw [same]; rfl)
    rw [Filled.text, result, text, done, made]
    rfl

/-- A filled template may be filled again with a table that has no value for
what is left in it.  The output stays as it is exactly if every element with a
date range has the condition of its range, or has a condition while the range
has none, and no text is taken for one of the element before it.  Where only
spacing follows such an element there is no such text. -/
theorem refill_filled_iff
    {substitution again : Substitution} {locale : Locale}
    {template output : String} {parts : List Part}
    (aml : substitution.isAml template = true)
    (made :
      (Markup.read .standard template).events.map Prod.fst =
        parts.flatMap Part.events)
    (proper : ∀ part ∈ parts, part.Proper (substitution.setting locale))
    (filled :
      (substitution.fill locale none template).2.text = .ok output)
    (small : output.utf8ByteSize ≤ Markup.Limits.standard.size)
    (mode : again.mode = .aml)
    (unbound :
      ∀ event ∈ (Markup.read .standard output).events.map Prod.fst,
        ∀ value ∈ values event, (again.setting locale).Unbound value)
    (calm :
      Walk.start.CalmAll again.style
        ((Markup.read .standard output).events.map Prod.fst)) :
    ∃ refilled,
      (again.fill locale none output).2.text = .ok refilled ∧
        (refilled = output ↔
          Walk.Agrees locale none
              ((Markup.read .standard output).events.map Prod.fst) ∧
            ∀ element, .dated element ∈ parts →
              element.Steady (substitution.setting locale)) ∧
        (Part.Apart parts →
          Walk.Agrees locale none
            ((Markup.read .standard output).events.map Prod.fst)) := by
  obtain ⟨nested, lawful, shallow, written⟩ :=
    output_of_proper aml made proper filled
  have kept :=
    @Part.kept_filledAll_iff (substitution.setting locale) _ proper .outside
  have agrees (apart : Part.Apart parts) :=
    Part.agrees_filledAll proper apart .outside
  generalize
    Part.filledAll (substitution.setting locale) .outside parts = events
    at nested lawful shallow written kept agrees
  have delivered :=
    Markup.delivered_of_shallow nested lawful shallow written fun _ => small
  rw [delivered.2] at unbound calm ⊢
  refine
    ⟨_,
      refill_of_unbound mode nested lawful shallow written small unbound calm,
      ?_, agrees⟩
  have nestedForm := Markup.nested_normalForm nested
  have lawfulForm := Markup.lawful_normalForm lawful
  rw [← kept, ← Markup.tags_normalForm, written]
  refine
    Iff.trans ?_ (@Walk.refilledAll_eq_iff locale .start (normalForm events))
  constructor
  · intro same
    apply Walk.refilledAll_eq_of_normalForm (Markup.settled_normalForm events)
    exact
      Markup.normalForm_eq_of_markupAll
        (Walk.nested_refilledAll nestedForm locale .start) nested
        (Walk.lawful_refilledAll lawfulForm locale .start) lawful
        (String.ofList_injective same)
  · intro same
    rw [same, Markup.normalForm_normalForm]

/-- From the present day on. -/
def fromToday : DateRange.Dynamic :=
  .starting .day 0

theorem inUse_june :
    Calendar.InUse (63602044934 / 86400) := by
  decide

theorem nano_june :
    0 < 1000000000 := by
  decide

/-- A server and a client on the twentieth of June 2016. -/
def inJune : Locale :=
  ⟨"en", "en-US", 0, 0, ⟨63602044934, 0, inUse_june, nano_june⟩⟩

theorem unbound_new
    (locale : Locale) (content : String) :
    (new.setting locale).Unbound content :=
  ⟨fun _ _ => rfl, fun _ _ => rfl⟩

/-- The parts of a template that holds the days from today on. -/
def todayParts : List Part :=
  [.plain (.start "r" [] false), .plain (.text "@q"),
    .dated ⟨"x", none, "@p", fromToday⟩, .plain (.finish "r")]

theorem proper_todayParts :
    ∀ part ∈ todayParts,
      part.Proper
        ((new.bind "p" (.dynamicRange fromToday)).setting inJune) := by
  have bare (name : String) :
      Plain .named (.start name [] false) ∧
        ∀ content, Event.start name [] false = .text content →
          ((new.bind "p" (.dynamicRange fromToday)).setting inJune).Undated
            content :=
    ⟨List.forall_mem_nil _, fun _ same => Event.noConfusion same⟩
  have undated :
      ((new.bind "p" (.dynamicRange fromToday)).setting inJune).Undated
        "@q" := by
    intro placeholder found
    have named :
        Placeholder.read? .named "@q".toList = some ⟨"q", false⟩ := by
      decide +kernel
    cases named.symm.trans found
    constructor
    · intro range given
      cases given
    · intro range given
      cases given
  have dated :
      Dated.Bound ((new.bind "p" (.dynamicRange fromToday)).setting inJune)
        ⟨"x", none, "@p", fromToday⟩ := by
    refine ⟨?_, ⟨"p", false⟩, by decide +kernel, rfl, rfl⟩
    intro condition given
    cases given
  simp only [todayParts, List.forall_mem_cons]
  refine ⟨bare "r", ⟨by decide +kernel, ?_⟩, dated, ⟨trivial, ?_⟩, ?_⟩
  · intro content same
    cases same
    exact undated
  · intro content same
    cases same
  · exact List.forall_mem_nil _

/-- An element that takes the condition of its range. -/
theorem refill_filled_of_today :
    ∃ output,
      ((new.bind "p" (.dynamicRange fromToday)).fill inJune none
          "<r>@q<x>@p</x></r>").2.text = .ok output ∧
        (new.fill inJune none output).2.text = .ok output := by
  have given :
      ∃ output,
        ((new.bind "p" (.dynamicRange fromToday)).fill inJune none
              "<r>@q<x>@p</x></r>").2.text.toOption = some output ∧
          output.utf8ByteSize ≤ Markup.Limits.standard.size ∧
          Walk.start.CalmAll .named
            ((Markup.read .standard output).events.map Prod.fst) :=
    ⟨"<r>@q<x condition=\"ge\" origDateRange=" ++
        "\"Dynamic|Day|0|Year|1000\">2016-06-20T00:00:00</x></r>",
      by decide +kernel, by decide +kernel, by decide +kernel⟩
  obtain ⟨output, filled, small, calm⟩ := given
  obtain ⟨refilled, again, same, agrees⟩ :=
    refill_filled_iff (by decide) (by decide +kernel) proper_todayParts
      (eq_ok_of_toOption filled) small rfl (fun _ _ _ _ => unbound_new ..) calm
  have steady :
      ∀ element, .dated element ∈ todayParts →
        element.Steady
          ((new.bind "p" (.dynamicRange fromToday)).setting inJune) := by
    intro element member
    have only : element = ⟨"x", none, "@p", fromToday⟩ := by
      simpa [todayParts] using member
    rw [only]
    decide +kernel
  have stays := same.mpr ⟨agrees ⟨trivial, trivial⟩, steady⟩
  rw [stays] at again
  exact ⟨output, eq_ok_of_toOption filled, again⟩

/-- A condition that the range does not make is replaced, and a range without
bounds brings a condition along. -/
theorem refill_replaces_condition :
    (¬ ∀ (locale : Locale) (range : DateRange.Dynamic)
        (condition output : String),
      ((new.bind "p" (.dynamicRange range)).fill locale none
          ("<x condition='" ++ condition ++ "'>@p</x>")).2.text =
            .ok output →
        (new.fill locale none output).2.text = .ok output) ∧
      ¬ ∀ (locale : Locale) (output : String),
        ((new.bind "p" (.dynamicRange .unbounded)).fill locale none
            "<x>@p</x>").2.text = .ok output →
          (new.fill locale none output).2.text = .ok output := by
  constructor
  · intro stable
    have filled :
        ((new.bind "p" (.dynamicRange fromToday)).fill inJune none
            ("<x condition='" ++ "gt" ++ "'>@p</x>")).2.text.toOption =
          some
            ("<x condition=\"gt\" origDateRange=" ++
              "\"Dynamic|Day|0|Year|1000\">2016-06-20T00:00:00</x>") := by
      decide +kernel
    have same :=
      congrArg Except.toOption
        (stable inJune fromToday "gt" _ (eq_ok_of_toOption filled))
    exact absurd same (by decide +kernel)
  · intro stable
    have filled :
        ((new.bind "p" (.dynamicRange .unbounded)).fill inJune none
            "<x>@p</x>").2.text.toOption =
          some "<x origDateRange=\"Dynamic|Year|-1000|Year|1000\" />" := by
      decide +kernel
    have same :=
      congrArg Except.toOption (stable inJune _ (eq_ok_of_toOption filled))
    exact absurd same (by decide +kernel)

end Substitution

end AmlExchange.Template
