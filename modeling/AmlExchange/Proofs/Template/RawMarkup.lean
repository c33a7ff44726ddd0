import AmlExchange.Proofs.Markup.Flaws
import AmlExchange.Proofs.Template.EmptyTags
import AmlExchange.Proofs.Template.LateAttributes

/-!
# Markup that is inserted unescaped

A name between an at sign and an exclamation mark stands for markup, whether
the name has a value or none.  Such a placeholder may be a whole text.  The
first one that is a whole attribute value or a whole section ends the filling
of a template, unless reading the template fails before it, and nothing else
does but a fault of reading.  In a template that is filled, nothing is written
unescaped but what stands for such a text.
-/

namespace AmlExchange.Template

open Markup (Event Instruction Writer)
open Text (Position)

/-! ## Where markup may not stand -/

/-- What is inserted unescaped is settled by the content alone, whether the
parameter has a value or none. -/
theorem raw_render_iff
    {setting : Setting} {context : Context} {content : String} :
    (setting.render context content).raw = true ↔
      setting.style = .named ∧ RawForm content := by
  rw [← isRaw_iff]
  cases raw : isRaw setting.style content with
  | false => rw [Setting.raw_render raw]
  | true =>
      rw [isRaw, Option.any_eq_true] at raw
      obtain ⟨placeholder, found, unescaped⟩ := raw
      have visible := Dated.allBlank_of_read? found
      rw [Setting.render, if_neg (by simp [visible]), found]
      dsimp only
      split <;> simpa using unescaped

/-- Whether a raw placeholder stands at a place of some kind where it may not
stand. -/
inductive Misplaced : RawPlace → Event → Prop where
  | attribute {name : String} {attributes : List (String × String)}
      {empty : Bool} {field : String × String} (member : field ∈ attributes)
      (raw : RawForm field.2) :
      Misplaced .attribute (.start name attributes empty)
  | characterData {content : String} (raw : RawForm content) :
      Misplaced .characterData (.characterData content)

/-- Whether the first of some events at which a raw placeholder may not stand
is at a place. -/
def FirstMisplaced (events : List (Event × Position)) (kind : RawPlace)
    (place : Position) : Prop :=
  ∃ before event after,
    events = before ++ (event, place) :: after ∧
      (∀ pair ∈ before, ∀ kind, ¬ Misplaced kind pair.1) ∧
      Misplaced kind event

theorem firstMisplaced_cons_iff
    {pair : Event × Position} {rest : List (Event × Position)}
    {kind : RawPlace} {place : Position} :
    FirstMisplaced (pair :: rest) kind place ↔
      Misplaced kind pair.1 ∧ pair.2 = place ∨
        (∀ kind, ¬ Misplaced kind pair.1) ∧
          FirstMisplaced rest kind place := by
  constructor
  · rintro ⟨before, event, after, divided, none, misplaced⟩
    cases before with
    | nil =>
        cases divided
        exact .inl ⟨misplaced, rfl⟩
    | cons first more =>
        cases divided
        rw [List.forall_mem_cons] at none
        exact .inr ⟨none.1, more, event, after, rfl, none.2, misplaced⟩
  · rintro (⟨misplaced, rfl⟩ |
      ⟨none, before, event, after, rfl, noneBefore, misplaced⟩)
    · exact ⟨[], pair.1, rest, rfl, nofun, misplaced⟩
    · exact
        ⟨pair :: before, event, after, rfl,
          List.forall_mem_cons.mpr ⟨none, noneBefore⟩, misplaced⟩

namespace Walk

variable {setting : Setting} {walk next : Walk}

theorem renderAttributes_eq_error_iff
    {place : Position} {attributes : List (String × String)}
    {fault : Fault} :
    (renderAttributes setting place attributes).2 = .error fault ↔
      (setting.style = .named ∧ ∃ field ∈ attributes, RawForm field.2) ∧
        rawNotAllowed .attribute place = fault := by
  induction attributes with
  | nil =>
      constructor
      · nofun
      · rintro ⟨⟨-, _, member, -⟩, -⟩
        cases member
  | cons field rest ih =>
      obtain ⟨name, value⟩ := field
      simp only [renderAttributes, List.exists_mem_cons_iff]
      split
      · next raw =>
          obtain ⟨named, form⟩ := raw_render_iff.mp raw
          simp [named, form]
      · next escaped =>
          rw [raw_render_iff, not_and] at escaped
          have onward :
              (renderAttributes setting place rest).2 = .error fault ↔
                ((renderAttributes setting place rest).2.map fun others =>
                    (name,
                      (setting.render (.ofName (Markup.localName name))
                        value).text) :: others) = .error fault := by
            cases (renderAttributes setting place rest).2 <;> simp [Except.map]
          rw [← onward, ih]
          constructor
          · rintro ⟨⟨named, some⟩, same⟩
            exact ⟨⟨named, .inr some⟩, same⟩
          · rintro ⟨⟨named, form | some⟩, same⟩
            · exact absurd form (escaped named)
            · exact ⟨⟨named, some⟩, same⟩

/-- A step fails exactly where a raw placeholder may not stand. -/
theorem step_eq_error_iff
    {event : Event} {place : Position} {fault : Fault} :
    (step setting walk event place).2 = .error fault ↔
      setting.style = .named ∧
        ∃ kind, Misplaced kind event ∧ rawNotAllowed kind place = fault := by
  cases event with
  | start name attributes empty =>
      have failed :
          (step setting walk (.start name attributes empty) place).2 =
              .error fault ↔
            (renderAttributes setting place attributes).2 = .error fault := by
        simp only [step]
        split
        · next failed =>
            dsimp only
            rw [failed, Except.error.injEq, Except.error.injEq]
        · next rendered =>
            rw [rendered]
            constructor <;> rintro ⟨⟩
      rw [failed, renderAttributes_eq_error_iff]
      constructor
      · rintro ⟨⟨named, field, member, raw⟩, same⟩
        exact ⟨named, _, .attribute member raw, same⟩
      · rintro ⟨named, _, ⟨member, raw⟩, same⟩
        exact ⟨⟨named, _, member, raw⟩, same⟩
  | characterData content =>
      simp only [step]
      split
      · next raw =>
          obtain ⟨named, form⟩ := raw_render_iff.mp raw
          constructor
          · rintro ⟨⟩
            exact ⟨named, _, .characterData form, rfl⟩
          · rintro ⟨-, _, ⟨⟩, rfl⟩
            rfl
      · next escaped =>
          constructor
          · rintro ⟨⟩
          · rintro ⟨named, _, misplaced, -⟩
            cases misplaced with
            | characterData form =>
                exact absurd (raw_render_iff.mpr ⟨named, form⟩) escaped
  | text content =>
      constructor
      · intro failed
        rw [step] at failed
        split at failed <;> cases failed
      · rintro ⟨-, _, ⟨⟩, -⟩
  | finish name | comment content =>
      constructor
      · rintro ⟨⟩
      · rintro ⟨-, _, ⟨⟩, -⟩

/-- A walk fails at the first event where a raw placeholder may not stand. -/
theorem script_eq_error_iff
    {events : List (Event × Position)} {fault : Fault} :
    (script setting walk events).2 = .error fault ↔
      setting.style = .named ∧
        ∃ kind place,
          FirstMisplaced events kind place ∧
            rawNotAllowed kind place = fault := by
  induction events generalizing walk with
  | nil =>
      constructor
      · nofun
      · rintro ⟨-, _, _, ⟨before, _, _, divided, -⟩, -⟩
        exact absurd divided (by simp)
  | cons pair rest ih =>
      obtain ⟨event, place⟩ := pair
      have failing (fault : Fault) :=
        @step_eq_error_iff setting walk event place fault
      simp only [script, firstMisplaced_cons_iff]
      split
      · next acts other failed =>
          rw [failed] at failing
          constructor
          · rintro ⟨⟩
            obtain ⟨named, kind, misplaced, same⟩ := (failing fault).mp rfl
            exact ⟨named, kind, place, .inl ⟨misplaced, rfl⟩, same⟩
          · rintro ⟨named, kind, _, ⟨misplaced, rfl⟩ | ⟨none, -⟩, same⟩
            · exact (failing fault).mpr ⟨named, kind, misplaced, same⟩
            · obtain ⟨-, kind, misplaced, -⟩ := (failing other).mp rfl
              exact absurd misplaced (none kind)
      · next acts next passed =>
          rw [passed] at failing
          have none (named : setting.style = .named) (kind : RawPlace) :
              ¬ Misplaced kind event := by
            intro misplaced
            cases (failing _).mpr ⟨named, kind, misplaced, rfl⟩
          refine ih.trans ⟨?_, ?_⟩
          · rintro ⟨named, kind, other, later, same⟩
            exact ⟨named, kind, other, .inr ⟨none named, later⟩, same⟩
          · rintro ⟨named, kind, other, ⟨misplaced, -⟩ | ⟨-, later⟩, same⟩
            · exact absurd misplaced (none named kind)
            · exact ⟨named, kind, other, later, same⟩

/-! ## What is written unescaped -/

theorem RawForm.visible
    {content : String} (form : RawForm content) :
    Markup.isSpaced content = false := by
  have raw := (@isRaw_iff .named content).mpr ⟨rfl, form⟩
  rw [isRaw, Option.any_eq_true] at raw
  obtain ⟨placeholder, found, -⟩ := raw
  exact Dated.isSpaced_of_read? found

/-- What takes the place of a text is inserted unescaped if the text is a raw
placeholder that no date range displaces. -/
theorem raw_inserted_iff
    {content : String} :
    (walk.inserted setting content).raw = true ↔
      (setting.style = .named ∧ walk.range = none) ∧ RawForm content := by
  rw [inserted]
  cases walk.range with
  | none => simp [raw_render_iff]
  | some range =>
      have stays := setting.leaves_range (.ofCondition walk.condition) range
      simp [stays.raw]

theorem raw_mem_insertText_iff
    {content text : String} :
    .raw text ∈ writes (insertText setting walk content) ↔
      (walk.inserted setting content).raw = true ∧
        (walk.inserted setting content).text = text := by
  rw [writes_insertText_eq]
  cases (walk.inserted setting content).raw <;> simp [offerings, eq_comm]

theorem text_mem_insertText_iff
    {content text : String} :
    .text text ∈ writes (insertText setting walk content) ↔
      (walk.inserted setting content).raw = false ∧
        (walk.inserted setting content).text = text := by
  rw [writes_insertText_eq]
  cases (walk.inserted setting content).raw <;> simp [offerings, eq_comm]

/-- Only at a text is anything written as a text or unescaped. -/
theorem eq_text_of_mem_step
    {event : Event} {place : Position} {instruction : Instruction}
    (textual : ∃ text, instruction = .raw text ∨ instruction = .text text)
    (member : instruction ∈ writes (step setting walk event place).1) :
    ∃ content, event = .text content := by
  obtain ⟨text, textual⟩ := textual
  cases event with
  | text content => exact ⟨content, rfl⟩
  | start name attributes empty =>
      simp only [step] at member
      split at member
      · rw [writes_write_cons, writes_lookUps] at member
        rcases textual with rfl | rfl <;> simp at member
      · rw [List.cons_append, writes_write_cons, writes_append, writes_lookUps,
          List.nil_append, writes_enter] at member
        rcases textual with rfl | rfl <;>
          cases empty <;> simp [Event.instructions] at member
  | characterData content =>
      simp only [step] at member
      split at member
      · rw [writes_lookUps] at member
        cases member
      · rw [writes_append, writes_lookUps] at member
        rcases textual with rfl | rfl <;>
          simp [writes, Act.instruction?] at member
  | finish name | comment content =>
      rcases textual with rfl | rfl <;>
        simp [step, writes, Act.instruction?] at member

theorem raw_mem_step_iff
    {event : Event} {place : Position} {text : String} :
    .raw text ∈ writes (step setting walk event place).1 ↔
      (setting.style = .named ∧ walk.range = none) ∧
        ∃ content, event = .text content ∧ RawForm content ∧
          (setting.render (.ofCondition walk.condition) content).text =
            text := by
  constructor
  · intro member
    obtain ⟨content, rfl⟩ := eq_text_of_mem_step ⟨text, .inl rfl⟩ member
    rw [step] at member
    split at member
    · split at member <;> simp [writes, Act.instruction?] at member
    · obtain ⟨raw, same⟩ := raw_mem_insertText_iff.mp member
      obtain ⟨⟨named, free⟩, form⟩ := raw_inserted_iff.mp raw
      rw [inserted, free] at same
      exact ⟨⟨named, free⟩, content, rfl, form, same⟩
  · rintro ⟨⟨named, free⟩, content, rfl, form, same⟩
    rw [step, if_neg (by simp [RawForm.visible form])]
    apply raw_mem_insertText_iff.mpr
    refine ⟨raw_inserted_iff.mpr ⟨⟨named, free⟩, form⟩, ?_⟩
    rw [inserted, free]
    exact same

/-- Every other text is written as one, which escapes it. -/
theorem text_mem_step_iff
    {event : Event} {place : Position} {text : String} :
    .text text ∈ writes (step setting walk event place).1 ↔
      ∃ content, event = .text content ∧
        if Markup.isSpaced content then
          walk.preserving = true ∧ content = text
        else
          ¬ ((setting.style = .named ∧ walk.range = none) ∧
              RawForm content) ∧
            (walk.inserted setting content).text = text := by
  constructor
  · intro member
    obtain ⟨content, rfl⟩ := eq_text_of_mem_step ⟨text, .inr rfl⟩ member
    refine ⟨content, rfl, ?_⟩
    rw [step] at member
    split at member
    · next spaced =>
        rw [if_pos spaced]
        split at member
        · next kept =>
            cases List.mem_singleton.mp member
            exact ⟨kept, rfl⟩
        · cases member
    · next visible =>
        rw [if_neg visible]
        obtain ⟨escaped, same⟩ := text_mem_insertText_iff.mp member
        rw [← raw_inserted_iff, escaped]
        exact ⟨Bool.false_ne_true, same⟩
  · rintro ⟨content, rfl, written⟩
    rw [step]
    split at written
    · next spaced =>
        obtain ⟨kept, rfl⟩ := written
        rw [if_pos spaced, if_pos kept]
        exact List.mem_singleton.mpr rfl
    · next visible =>
        rw [if_neg visible]
        rw [← raw_inserted_iff, Bool.not_eq_true] at written
        exact text_mem_insertText_iff.mpr written

theorem rawNotAllowed_inj
    {kind other : RawPlace} {place elsewhere : Position}
    (same : rawNotAllowed kind place = rawNotAllowed other elsewhere) :
    kind = other ∧ place = elsewhere := by
  cases same
  exact ⟨rfl, rfl⟩

theorem script_eq_rawNotAllowed_iff
    {events : List (Event × Position)} {kind : RawPlace} {place : Position} :
    (script setting walk events).2 = .error (rawNotAllowed kind place) ↔
      setting.style = .named ∧ FirstMisplaced events kind place := by
  rw [script_eq_error_iff]
  constructor
  · rintro ⟨named, other, elsewhere, first, same⟩
    obtain ⟨rfl, rfl⟩ := rawNotAllowed_inj same
    exact ⟨named, first⟩
  · rintro ⟨named, first⟩
    exact ⟨named, kind, place, first, rfl⟩

/-- An event that a walk passes is reached from those before it, and the acts
for it stand between theirs and those for the events after it. -/
theorem script_around
    {before after : List (Event × Position)} {event : Event}
    {place : Position} {last : Walk}
    (passed :
      (script setting walk (before ++ (event, place) :: after)).2 =
        .ok last) :
    ∃ reached next,
      (script setting walk before).2 = .ok reached ∧
        (step setting reached event place).2 = .ok next ∧
        (script setting walk (before ++ (event, place) :: after)).1 =
          (script setting walk before).1 ++
            ((step setting reached event place).1 ++
              (script setting next after).1) := by
  cases front : (script setting walk before).2 with
  | error fault =>
      rw [script_append_of_fault front, front] at passed
      cases passed
  | ok reached =>
      rw [script_append front] at passed ⊢
      simp only [script] at passed ⊢
      split at passed
      · cases passed
      · next acts next stepped =>
          exact ⟨reached, next, rfl, by rw [stepped], by rw [stepped]⟩

end Walk

/-! ## Whole templates -/

namespace Substitution

theorem text_fill_of_isAml
    {substitution : Substitution} {template : String}
    (aml : substitution.isAml template = true) (locale : Locale) :
    ∃ writer final,
      (Writer.new none).performAll
            (writes
              (Walk.script (substitution.setting locale) .start
                (Markup.read .standard template).events).1) =
          (writer, .ok ()) ∧
        writer.finish = .ok final ∧
        (substitution.fill locale none template).2.text =
          ((Walk.script (substitution.setting locale) .start
              (Markup.read .standard template).events).2.bind fun _ =>
            (Markup.read .standard template).ending).map fun _ =>
              final.output := by
  obtain ⟨progress, final, performed, finished, -, filled⟩ :=
    fillAml_eq (substitution.setting locale) template
  obtain ⟨result, output⟩ := fill_of_isAml aml locale none
  refine ⟨progress.writer, final, performed, finished, ?_⟩
  rw [Filled.text, result, output, filled]
  cases (Walk.script (substitution.setting locale) .start
    (Markup.read .standard template).events).2 with
  | error fault => rfl
  | ok last => cases (Markup.read .standard template).ending <;> rfl

theorem fill_eq_error_iff
    {substitution : Substitution} {template : String}
    (aml : substitution.isAml template = true) (locale : Locale)
    {fault : Fault} :
    (substitution.fill locale none template).2.text = .error fault ↔
      (Walk.script (substitution.setting locale) .start
          (Markup.read .standard template).events).2 = .error fault ∨
        (∃ last,
          (Walk.script (substitution.setting locale) .start
            (Markup.read .standard template).events).2 = .ok last) ∧
          (Markup.read .standard template).ending = .error fault := by
  obtain ⟨_, final, -, -, filled⟩ := text_fill_of_isAml aml locale
  rw [filled]
  cases (Walk.script (substitution.setting locale) .start
    (Markup.read .standard template).events).2 with
  | error other => simp [Except.bind, Except.map]
  | ok last =>
      cases (Markup.read .standard template).ending <;>
        simp [Except.bind, Except.map]

theorem passed_of_fill
    {substitution : Substitution} {locale : Locale} {template output : String}
    (aml : substitution.isAml template = true)
    (filled : (substitution.fill locale none template).2.text = .ok output) :
    ∃ last writer final,
      (Walk.script (substitution.setting locale) .start
          (Markup.read .standard template).events).2 = .ok last ∧
        (Writer.new none).performAll
            (writes
              (Walk.script (substitution.setting locale) .start
                (Markup.read .standard template).events).1) =
          (writer, .ok ()) ∧
        writer.finish = .ok final ∧ final.output = output := by
  obtain ⟨writer, final, performed, finished, same⟩ :=
    text_fill_of_isAml aml locale
  rw [same] at filled
  cases walked : (Walk.script (substitution.setting locale) .start
    (Markup.read .standard template).events).2 with
  | error fault =>
      rw [walked] at filled
      cases filled
  | ok last =>
      refine ⟨last, writer, final, rfl, performed, finished, ?_⟩
      rw [walked] at filled
      cases ended : (Markup.read .standard template).ending with
      | error fault =>
          rw [ended] at filled
          cases filled
      | ok place =>
          rw [ended] at filled
          exact Except.ok.inj filled

/-- Filling an AML template in the named style fails for a raw placeholder
exactly where one first is a whole attribute value or section, whether its
parameter has a value or none, and any other failure is one of reading.  If the
template is filled, what is written unescaped at an event is the text of a raw
placeholder that is a whole text, and every other text is written escaped. -/
theorem raw_placeholders_confined
    {substitution : Substitution} {template : String}
    (aml : substitution.isAml template = true) (locale : Locale) :
    let setting := substitution.setting locale
    let stream := Markup.read .standard template
    let course := Walk.script setting .start stream.events
    let outcome := (substitution.fill locale none template).2.text
    (∀ kind place,
      outcome = .error (Walk.rawNotAllowed kind place) ↔
        substitution.style = .named ∧
          FirstMisplaced stream.events kind place) ∧
      (∀ fault, outcome = .error fault →
        (∃ kind place, fault = Walk.rawNotAllowed kind place) ∨
          stream.ending = .error fault ∧
            ∀ kind, fault.kind ≠ .rawNotAllowed kind) ∧
      ∀ output, outcome = .ok output →
        (∃ writer final,
          (Writer.new none).performAll (writes course.1) = (writer, .ok ()) ∧
            writer.finish = .ok final ∧ final.output = output) ∧
        ∀ before event place after,
          stream.events = before ++ (event, place) :: after →
            ∃ walk next,
              (Walk.script setting .start before).2 = .ok walk ∧
              (Walk.step setting walk event place).2 = .ok next ∧
              course.1 =
                (Walk.script setting .start before).1 ++
                  ((Walk.step setting walk event place).1 ++
                    (Walk.script setting next after).1) ∧
              (∀ text,
                .raw text ∈ writes (Walk.step setting walk event place).1 ↔
                  (substitution.style = .named ∧ walk.range = none) ∧
                    ∃ content, event = .text content ∧ RawForm content ∧
                      (setting.render (.ofCondition walk.condition)
                        content).text = text) ∧
              ∀ text,
                .text text ∈ writes (Walk.step setting walk event place).1 ↔
                  ∃ content, event = .text content ∧
                    if Markup.isSpaced content then
                      walk.preserving = true ∧ content = text
                    else
                      ¬ ((substitution.style = .named ∧ walk.range = none) ∧
                          RawForm content) ∧
                        (walk.inserted setting content).text = text := by
  intro setting stream course outcome
  have failing (kind : RawPlace) (place : Position) :=
    @Walk.script_eq_rawNotAllowed_iff setting .start stream.events kind place
  refine ⟨fun kind place => ?_, fun fault failed => ?_, fun output filled => ?_⟩
  · refine (fill_eq_error_iff aml locale).trans (.trans ?_ (failing kind place))
    constructor
    · rintro (walked | ⟨-, ended⟩)
      · exact walked
      · exact absurd rfl (Markup.kind_ne_of_read ended kind)
    · exact .inl
  · rcases (fill_eq_error_iff aml locale).mp failed with walked | ⟨-, ended⟩
    · obtain ⟨-, kind, place, -, same⟩ := Walk.script_eq_error_iff.mp walked
      exact .inl ⟨kind, place, same.symm⟩
    · exact .inr ⟨ended, Markup.kind_ne_of_read ended⟩
  · obtain ⟨last, writer, final, walked, performed, finished, written⟩ :=
      passed_of_fill aml filled
    refine ⟨⟨writer, final, performed, finished, written⟩, ?_⟩
    intro before event place after divided
    rw [divided] at walked
    obtain ⟨walk, next, reached, stepped, acts⟩ := Walk.script_around walked
    rw [← divided] at acts
    exact
      ⟨walk, next, reached, stepped, acts, fun _ => Walk.raw_mem_step_iff,
        fun _ => Walk.text_mem_step_iff⟩

/-- A value to be inserted as markup. -/
def withMarkup : Substitution :=
  new.bind "x" (.text "<i/>")

/-- A text for markup and another text. -/
def markupAndText : List (Event × Position) :=
  [(.start "a" [] false, ⟨3, 1, 4⟩), (.text "@x!", ⟨6, 1, 7⟩),
    (.start "b" [] false, ⟨9, 1, 10⟩), (.text "1 < 2", ⟨17, 1, 18⟩),
    (.finish "b", ⟨21, 1, 22⟩), (.finish "a", ⟨25, 1, 26⟩)]

/-- A raw placeholder without a value, as a whole section, and one with a value,
as a whole text before another one. -/
theorem raw_placeholders_confined_of_section :
    (new.fill inJune none "<a b='@x'><![CDATA[@y!]]></a>").2.text =
        .error (Walk.rawNotAllowed .characterData ⟨25, 1, 26⟩) ∧
      (withMarkup.fill inJune none "<a>@x!<b>1 &lt; 2</b></a>").2.text =
        .ok "<a><i/><b>1 &lt; 2</b></a>" ∧
      (∃ walk,
        (Walk.script (withMarkup.setting inJune) .start
            (markupAndText.take 1)).2 = .ok walk ∧
          .raw "<i/>" ∈
            writes
              (Walk.step (withMarkup.setting inJune) walk (.text "@x!")
                ⟨6, 1, 7⟩).1) ∧
      ∃ walk,
        (Walk.script (withMarkup.setting inJune) .start
            (markupAndText.take 3)).2 = .ok walk ∧
          .text "1 < 2" ∈
            writes
              (Walk.step (withMarkup.setting inJune) walk (.text "1 < 2")
                ⟨17, 1, 18⟩).1 := by
  constructor
  · have events :
        (Markup.read .standard "<a b='@x'><![CDATA[@y!]]></a>").events =
          [(.start "a" [("b", "@x")] false, ⟨10, 1, 11⟩),
            (.characterData "@y!", ⟨25, 1, 26⟩),
            (.finish "a", ⟨29, 1, 30⟩)] := by
      decide +kernel
    have before (kind : RawPlace) :
        ¬ Misplaced kind (.start "a" [("b", "@x")] false) := by
      rintro ⟨member, raw⟩
      cases List.mem_singleton.mp member
      exact absurd raw (by decide)
    obtain ⟨fails, -⟩ :=
      @raw_placeholders_confined new "<a b='@x'><![CDATA[@y!]]></a>"
        (by decide) inJune
    refine (fails .characterData ⟨25, 1, 26⟩).mpr ⟨rfl, ?_⟩
    rw [events]
    exact
      ⟨_, _, _, rfl, List.forall_mem_singleton.mpr before,
        .characterData (by decide)⟩
  · have events :
        (Markup.read .standard "<a>@x!<b>1 &lt; 2</b></a>").events =
          markupAndText := by
      decide +kernel
    have output :
        (withMarkup.fill inJune none
            "<a>@x!<b>1 &lt; 2</b></a>").2.text.toOption =
          some "<a><i/><b>1 &lt; 2</b></a>" := by
      decide +kernel
    have filled := eq_ok_of_toOption output
    obtain ⟨-, -, written⟩ :=
      @raw_placeholders_confined withMarkup "<a>@x!<b>1 &lt; 2</b></a>"
        (by decide) inJune
    obtain ⟨-, written⟩ := written _ filled
    rw [events] at written
    refine ⟨filled, ?_, ?_⟩
    · obtain ⟨walk, -, reached, -, -, raws, -⟩ :=
        written (markupAndText.take 1) (.text "@x!") ⟨6, 1, 7⟩
          (markupAndText.drop 2) rfl
      have known :
          (Walk.script (withMarkup.setting inJune) .start
              (markupAndText.take 1)).2 =
            .ok ⟨none, none, [], ["a"], [false]⟩ :=
        rfl
      cases known.symm.trans reached
      exact
        ⟨_, reached,
          (raws "<i/>").mpr
            ⟨⟨rfl, rfl⟩, _, rfl, by decide, by decide +kernel⟩⟩
    · obtain ⟨walk, -, reached, -, -, -, texts⟩ :=
        written (markupAndText.take 3) (.text "1 < 2") ⟨17, 1, 18⟩
          (markupAndText.drop 4) rfl
      have known :
          (Walk.script (withMarkup.setting inJune) .start
              (markupAndText.take 3)).2 =
            .ok ⟨none, none, [], ["b", "a"], [false, false]⟩ :=
        rfl
      cases known.symm.trans reached
      refine ⟨_, reached, (texts "1 < 2").mpr ⟨_, rfl, ?_⟩⟩
      rw [if_neg (by decide)]
      exact ⟨fun raw => absurd raw.2 (by decide), by decide +kernel⟩

end Substitution

end AmlExchange.Template
