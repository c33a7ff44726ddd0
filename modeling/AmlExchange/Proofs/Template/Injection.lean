import AmlExchange.Proofs.Template.Filling
import Mathlib.Data.List.TakeWhile

/-!
# Values stay values

A filled AML template, read again, is the template with its values rendered
(`read_filled_template`).  So no value can add an element, an attribute or a
comment, or move one: the skeleton of the output is that of the template.
-/

namespace AmlExchange.Template

open Markup (Draft Event Instruction Nested Writer normalForm)

/-! ## Skeletons -/

/-- What of a document does not stand for a value. -/
inductive Bone where
  /-- The beginning of an element, with the names of its attributes. -/
  | opening (name : String) (attributes : List String)
  | closing (name : String)
  | comment (content : String)
deriving DecidableEq, Repr

/-- The part of an event that does not stand for a value. -/
def bones : Event → List Bone
  | .start name attributes empty =>
      .opening name (attributes.map Prod.fst) ::
        if empty then [.closing name] else []
  | .finish name => [.closing name]
  | .text _ | .characterData _ => []
  | .comment content => [.comment content]

/-- The elements, the names of attributes and the comments among events. -/
def skeleton (events : List Event) : List Bone :=
  events.flatMap bones

theorem skeleton_cons
    (event : Event) (events : List Event) :
    skeleton (event :: events) = bones event ++ skeleton events :=
  rfl

theorem skeleton_append
    (first second : List Event) :
    skeleton (first ++ second) = skeleton first ++ skeleton second :=
  List.flatMap_append

theorem skeleton_sectionEvents
    (content : String) :
    skeleton (Markup.sectionEvents content) = [] := by
  rw [skeleton, List.flatMap_eq_nil_iff]
  intro event member
  obtain ⟨part, -, rfl⟩ := List.mem_map.mp member
  rfl

theorem skeleton_before
    {event : Event} {names next : List String}
    (fits : event.nest? names = some next)
    {following : List Event} (nested : Nested next following) :
    skeleton (event.before following) =
      bones event ++ skeleton following := by
  unfold Event.before
  split
  · split
    · rfl
    · split <;> rfl
  · rw [skeleton_append, skeleton_sectionEvents]
    rfl
  · next name attributes other rest =>
      cases fits
      obtain ⟨after, fitsEnd, -⟩ := Markup.nested_cons.mp nested
      obtain ⟨rfl, -⟩ := List.cons.inj (Markup.nest?_finish.mp fitsEnd)
      rfl
  · rfl

/-- The normal form of nested events has their skeleton. -/
theorem skeleton_normalForm
    {events : List Event} {names : List String}
    (nested : Nested names events) :
    skeleton (normalForm events) = skeleton events := by
  induction events generalizing names with
  | nil => rfl
  | cons event rest ih =>
      obtain ⟨next, fits, nestedRest⟩ := Markup.nested_cons.mp nested
      rw [Markup.normalForm_cons,
        skeleton_before fits (Markup.nested_normalForm nestedRest),
        ih nestedRest, skeleton_cons]

theorem skeleton_filled
    (setting : Setting) (around : Surroundings) (event : Event) :
    skeleton (around.filled setting event) = bones event := by
  cases event with
  | start name attributes empty =>
      rw [Surroundings.filled, skeleton, List.flatMap_singleton, bones,
        bones, Surroundings.names_filledField]
  | text content =>
      rw [Surroundings.filled]
      split
      · split <;> rfl
      · rfl
  | finish name | characterData content | comment content => rfl

/-- Rendering values leaves the skeleton as it is. -/
theorem skeleton_filledAll
    (setting : Setting) (events : List Event) (around : Surroundings) :
    skeleton (around.filledAll setting events) = skeleton events := by
  induction events generalizing around with
  | nil => rfl
  | cons event rest ih =>
      rw [Surroundings.filledAll, skeleton_append, skeleton_filled, ih,
        skeleton_cons]

/-! ## The output -/

theorem toText_eq_ok
    {instructions : List Instruction} {text : String}
    (written : (Draft.of instructions).toText = .ok text) :
    ∃ writer final,
      (Writer.new none).performAll instructions = (writer, .ok ()) ∧
        writer.finish = .ok final ∧ final.output = text := by
  rw [Draft.toText, Draft.writeTo, Draft.of] at written
  cases performed : (Writer.new none).performAll instructions with
  | mk writer result =>
      cases result with
      | error fault => simp [performed] at written
      | ok _ =>
          simp only [performed] at written
          cases ended : writer.finish with
          | error fault =>
              rw [ended] at written
              cases written
          | ok final =>
              rw [ended] at written
              cases written
              exact ⟨writer, final, rfl, ended, rfl⟩

namespace Substitution

/-- Acts that are all performed make the text of their instructions. -/
theorem fillAml_of_toText
    {setting : Setting} {template : String} {place : Text.Position}
    (ended : (Markup.read .standard template).ending = .ok place)
    {last : Walk}
    (walked :
      (Walk.script setting .start
        (Markup.read .standard template).events).2 = .ok last)
    {text : String}
    (written :
      (Draft.of
        (writes
          (Walk.script setting .start
            (Markup.read .standard template).events).1)).toText =
        .ok text) :
    (fillAml setting none template).2 = .ok () ∧
      (fillAml setting none template).1.writer.output = text := by
  obtain ⟨writer, final, performed, finished, output⟩ :=
    toText_eq_ok written
  obtain ⟨progress, done, same⟩ :=
    @Progress.performAll_of_writes ⟨.new none, [], 0⟩ _ _ performed
  subst same
  simp only [fillAml, done, walked, ended, finished]
  exact ⟨trivial, output⟩

theorem isAml_of_head?
    {substitution : Substitution} {template : String}
    (tagged : (Text.trimLeft template.toList).head? = some '<')
    (aml : substitution.mode = .aml) :
    substitution.isAml template = true := by
  simp [isAml, tagged, aml]

theorem allBlank_eq_false
    {template : List Char} {char : Char}
    (visible : (Text.trimLeft template).head? = some char) :
    Text.allBlank template = false := by
  rw [← Bool.not_eq_true, Text.allBlank, List.all_eq_true]
  intro blank
  have nothing : Text.trimLeft template = [] :=
    List.dropWhile_eq_nil_iff.mpr blank
  rw [nothing] at visible
  cases visible

/-- An AML template without date ranges and without values to be inserted
unescaped is filled.  Its output is read as the template with every value
rendered in its place, and has the elements, the names of attributes and the
comments of the template, whatever the values are. -/
theorem read_filled_template
    (substitution : Substitution) (locale : Locale) {template : String}
    (aml : substitution.mode = .aml)
    (tagged : (Text.trimLeft template.toList).head? = some '<')
    {place : Text.Position}
    (ended : (Markup.read .standard template).ending = .ok place)
    (ranges : WithoutRanges substitution.parameters)
    (plain :
      ∀ event ∈ (Markup.read .standard template).events.map Prod.fst,
        Plain substitution.style event) :
    ∃ output final,
      (substitution.fill locale none template).2.text = .ok output ∧
        (Markup.read .unlimited output).ending = .ok final ∧
        (Markup.read .unlimited output).events.map Prod.fst =
          normalForm
            (Surroundings.outside.filledAll (substitution.setting locale)
              ((Markup.read .standard template).events.map Prod.fst)) ∧
        (∀ content, (Markup.sections content).flatten = content) ∧
        skeleton ((Markup.read .unlimited output).events.map Prod.fst) =
          skeleton
            ((Markup.read .standard template).events.map Prod.fst) := by
  obtain ⟨nested, lawful⟩ := Markup.nested_read ended
  have nestedFilled :=
    Surroundings.nested_filledAll (substitution.setting locale) nested
      .outside
  have lawfulFilled :=
    Surroundings.lawful_filledAll (substitution.setting locale) lawful
      .outside
  obtain ⟨written, last, walked⟩ :=
    @Walk.script_of_plain (substitution.setting locale) ranges _ plain
      .start .outside ⟨rfl, rfl, rfl⟩
  obtain ⟨output, text, ⟨final, readAgain⟩, delivered⟩ :=
    Markup.delivered_toText nestedFilled lawfulFilled
  rw [← written] at text
  obtain ⟨done, made⟩ := fillAml_of_toText ended walked text
  refine
    ⟨output, final, ?_, readAgain, delivered, Markup.flatten_sections, ?_⟩
  · rw [fill, if_neg (by simp [allBlank_eq_false tagged]),
      if_pos (isAml_of_head? tagged aml)]
    simp only [Filled.text, done, made]
    rfl
  · rw [delivered, skeleton_normalForm nestedFilled, skeleton_filledAll]

/-- A value of markup in an attribute and in a text. -/
theorem read_filled_template_of_markup :
    ∃ output final,
      ((new.bind "v" (.text "\"/></r><!--")).fill
          ⟨"en", "en-US", 0, 0, ⟨0, 0, by decide, by decide⟩⟩ none
          "<r k='@v'>@v<!--c--> </r>").2.text = .ok output ∧
        (Markup.read .unlimited output).ending = .ok final ∧
        (Markup.read .unlimited output).events.map Prod.fst =
          [.start "r" [("k", "\"/></r><!--")] false, .text "\"/></r><!--",
            .comment "c", .finish "r"] := by
  have events :
      (Markup.read .standard "<r k='@v'>@v<!--c--> </r>").events.map
          Prod.fst =
        [.start "r" [("k", "@v")] false, .text "@v", .comment "c",
          .text " ", .finish "r"] := by
    decide +kernel
  have complete :
      (Markup.read .standard "<r k='@v'>@v<!--c--> </r>").ending.toOption =
        some ⟨25, 1, 26⟩ := by
    decide +kernel
  cases ended :
      (Markup.read .standard "<r k='@v'>@v<!--c--> </r>").ending with
  | error fault =>
      rw [ended] at complete
      cases complete
  | ok place =>
      have ranges :
          WithoutRanges
            (new.bind "v" (.text "\"/></r><!--")).parameters := by
        intro name
        simp [bind, Fields.get?, Fields.insert, new, Fields.empty,
          Fields.write, Fields.find?]
      obtain ⟨output, final, filled, readAgain, same, -⟩ :=
        read_filled_template (new.bind "v" (.text "\"/></r><!--"))
          ⟨"en", "en-US", 0, 0, ⟨0, 0, by decide, by decide⟩⟩ rfl
          (by decide +kernel) ended ranges
          (by rw [events]; decide +kernel)
      refine ⟨output, final, filled, readAgain, ?_⟩
      rw [same, events]
      decide +kernel

end Substitution

end AmlExchange.Template
