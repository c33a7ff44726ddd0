import AmlExchange.Proofs.Template.Outcome
import AmlExchange.Proofs.Template.RangeScope

/-!
# Empty tags in a template

An empty tag leaves its condition to the texts after it, up to the next tag;
the end tag of the same element ends the condition.  But for these texts, a
template is filled in the same way however its elements without content are
spelled (`fill_respell`).
-/

namespace AmlExchange.Template

open Markup (Event Instruction Writer)
open Text (Position)

namespace Walk

variable
  {setting : Setting}
  {chosen : Position → Bool}
  {walk next : Walk}

/-! ## The condition that is left behind -/

/-- Whether the latest tag after an event is a chosen empty tag. -/
def behind (chosen : Position → Bool) (before : Bool) (event : Event)
    (place : Position) : Bool :=
  match event with
  | .start _ _ empty => empty && chosen place
  | .finish _ => false
  | .text _ | .characterData _ | .comment _ => before

/-- A walk that has lost its condition, or the walk itself. -/
def shed (walk : Walk) (lost : Bool) : Walk :=
  if lost then { walk with condition := none } else walk

/-- Whether each event is written alike with and without the condition that a
chosen empty tag before it has left. -/
def Indifferent (setting : Setting) (chosen : Position → Bool)
    (lost : Bool) (walk : Walk) : List (Event × Position) → Prop
  | [] => True
  | (event, place) :: rest =>
      writes (step setting (walk.shed lost) event place).1 =
          writes (step setting walk event place).1 ∧
        ∀ next, (step setting walk event place).2 = .ok next →
          Indifferent setting chosen (behind chosen lost event place) next
            rest

/-- Whether one walk takes the course of another, except perhaps for the texts
written and for the condition at its end. -/
structure Follows (lost : Bool)
    (first second : List Act × Except Fault Walk) : Prop where
  items : countedItems first.1 = countedItems second.1
  length : (writes first.1).length = (writes second.1).length
  kinds : faultKind? first.2 = faultKind? second.2
  reached : first.2.toOption = second.2.toOption.map (·.shed lost)

namespace Follows

theorem refl
    (outcome : List Act × Except Fault Walk) :
    Follows false outcome outcome :=
  ⟨rfl, rfl, rfl, (congrFun Option.map_id _).symm⟩

theorem trans
    {lost : Bool} {first second third : List Act × Except Fault Walk}
    (one : Follows false first second) (two : Follows lost second third) :
    Follows lost first third where
  items := one.items.trans two.items
  length := one.length.trans two.length
  kinds := one.kinds.trans two.kinds
  reached := by
    rw [one.reached, ← two.reached]
    exact congrFun Option.map_id _

end Follows

/-! ## One step -/

/-- Where attributes are rendered matters only for the place of a fault. -/
theorem renderAttributes_elsewhere
    (place other : Position) (attributes : List (String × String)) :
    (∃ looked rendered,
        renderAttributes setting place attributes = (looked, .ok rendered) ∧
          renderAttributes setting other attributes =
            (looked, .ok rendered)) ∨
      ∃ looked fault again,
        renderAttributes setting place attributes =
            (looked, .error fault) ∧
          renderAttributes setting other attributes =
              (looked, .error again) ∧
            again.kind = fault.kind := by
  induction attributes with
  | nil => exact .inl ⟨_, _, rfl, rfl⟩
  | cons field rest ih =>
      simp only [renderAttributes]
      split
      · exact .inr ⟨_, _, _, rfl, rfl, rfl⟩
      · rcases ih with
          ⟨looked, rendered, here, there⟩ |
            ⟨looked, fault, again, here, there, kind⟩
        · exact .inl ⟨_, _, by rw [here]; rfl, by rw [there]; rfl⟩
        · exact .inr ⟨_, _, _, by rw [here]; rfl, by rw [there]; rfl, kind⟩

/-- Where a step is taken matters only for the place of a fault. -/
theorem step_elsewhere
    (walk : Walk) (event : Event) (place other : Position) :
    (step setting walk event other).1 = (step setting walk event place).1 ∧
      Follows false (step setting walk event other)
        (step setting walk event place) := by
  cases event with
  | start name attributes empty =>
      rcases @renderAttributes_elsewhere setting place other attributes with
        ⟨looked, rendered, here, there⟩ |
          ⟨looked, fault, again, here, there, kind⟩
      · simp only [step, here, there]
        exact ⟨trivial, .refl _⟩
      · simp only [step, here, there]
        exact ⟨trivial, rfl, rfl, congrArg some kind, rfl⟩
  | characterData content =>
      simp only [step]
      split
      · exact ⟨rfl, rfl, rfl, rfl, rfl⟩
      · exact ⟨rfl, .refl _⟩
  | finish name | text content | comment content => exact ⟨rfl, .refl _⟩

/-- The value that is inserted does not depend on the condition, nor does
whether it is escaped. -/
theorem value_render
    (context other : Context) (content : String) :
    (setting.render context content).value =
        (setting.render other content).value ∧
      (setting.render context content).raw =
        (setting.render other content).raw := by
  unfold Setting.render
  split
  · exact ⟨rfl, rfl⟩
  · split
    · split <;> exact ⟨rfl, rfl⟩
    · exact ⟨rfl, rfl⟩

/-- Only a list condition and a condition of flat SQL change how a content is
rendered. -/
theorem render_of_unquoted
    {context : Context} (noList : context ≠ .isIn) (noSql : context ≠ .sql)
    (content : String) :
    setting.render context content = setting.render .plain content := by
  cases context with
  | isIn => exact absurd rfl noList
  | sql => exact absurd rfl noSql
  | idList | like | between | plain => rfl

theorem countedItems_insertText
    (walk : Walk) (content : String) :
    countedItems (insertText setting walk content) = 0 := by
  rw [countedItems, List.count_eq_zero]
  intro member
  rcases mem_insertText member with ⟨name, same⟩ | ⟨instruction, same, -⟩
  · cases same
  · cases same

theorem countedItems_lookUps
    (names : List String) :
    countedItems (lookUps names) = 0 := by
  rw [countedItems, List.count_eq_zero]
  intro member
  obtain ⟨name, -, same⟩ := List.mem_map.mp member
  cases same

/-- As many instructions write a text with a condition as without it. -/
theorem length_insertText
    (walk : Walk) (content : String) :
    (writes
        (insertText setting { walk with condition := none } content)).length =
      (writes (insertText setting walk content)).length := by
  simp only [insertText, writes_append, writes_lookUps, List.length_append]
  rw [(value_render (.ofCondition none) (.ofCondition walk.condition) _).1]
  rfl

/-- A start tag sets the condition anew. -/
theorem step_shed_start
    (walk : Walk) (lost : Bool) (name : String)
    (attributes : List (String × String)) (empty : Bool) (place : Position) :
    step setting (walk.shed lost) (.start name attributes empty) place =
      step setting walk (.start name attributes empty) place := by
  cases lost <;> rfl

/-- A step without the condition: only the text that is written can differ. -/
theorem step_shed
    (walk : Walk) (lost : Bool) (event : Event) (place : Position) :
    Follows (behind (fun _ => false) lost event place)
      (step setting (walk.shed lost) event place)
      (step setting walk event place) := by
  cases event with
  | start name attributes empty =>
      rw [step_shed_start, behind, Bool.and_false]
      exact .refl _
  | finish name => cases lost <;> exact .refl _
  | text content =>
      cases lost with
      | false => exact .refl _
      | true =>
          simp only [step]
          split
          · exact ⟨rfl, rfl, rfl, rfl⟩
          · refine ⟨?_, length_insertText walk content, rfl, rfl⟩
            rw [countedItems_insertText, countedItems_insertText]
  | characterData content =>
      cases lost with
      | false => exact .refl _
      | true =>
          have raw :=
            (@value_render setting (.ofCondition none)
              (.ofCondition walk.condition) content).2
          simp only [step, shed, if_true, raw]
          split
          · refine ⟨?_, ?_, rfl, rfl⟩
            · rw [countedItems_lookUps, countedItems_lookUps]
            · rw [writes_lookUps, writes_lookUps]
          · refine ⟨?_, ?_, rfl, rfl⟩
            · rw [countedItems_append, countedItems_append,
                countedItems_lookUps, countedItems_lookUps]
              rfl
            · rw [writes_append, writes_append, writes_lookUps,
                writes_lookUps]
              rfl
  | comment content =>
      cases lost with
      | false => exact .refl _
      | true => exact ⟨rfl, rfl, rfl, rfl⟩

/-- A condition that neither makes a list nor is one of flat SQL makes no
difference. -/
theorem step_shed_of_unquoted
    (noList : Context.ofCondition walk.condition ≠ .isIn)
    (noSql : Context.ofCondition walk.condition ≠ .sql)
    (lost : Bool) (event : Event) (place : Position) :
    (step setting (walk.shed lost) event place).1 =
      (step setting walk event place).1 := by
  have same (content : String) :
      setting.render (.ofCondition none) content =
        setting.render (.ofCondition walk.condition) content :=
    (render_of_unquoted noList noSql content).symm
  cases lost with
  | false => rfl
  | true =>
      cases event with
      | start name attributes empty | finish name | comment content => rfl
      | text content =>
          simp only [step, shed, if_true, insertText, same]
          split <;> rfl
      | characterData content =>
          simp only [step, shed, if_true, same]
          split <;> rfl

/-- An empty tag that is written as two: the second ends the condition. -/
theorem script_tags
    (walk : Walk) (name : String) (attributes : List (String × String))
    (place first second : Position) :
    writes
          (script setting walk
            [(.start name attributes false, first),
              (.finish name, second)]).1 =
        writes (step setting walk (.start name attributes true) place).1 ∧
      Follows true
        (script setting walk
          [(.start name attributes false, first), (.finish name, second)])
        (step setting walk (.start name attributes true) place) := by
  rcases @renderAttributes_elsewhere setting place first attributes with
    ⟨looked, rendered, here, there⟩ |
      ⟨looked, fault, again, here, there, kind⟩
  · have ends :
        (walk.enter name attributes rendered true).1 =
          (walk.enter name attributes rendered false).1 ++
            [.write .endElement] :=
      rfl
    simp only [script, step, here, there]
    rw [ends, List.append_nil, List.append_assoc]
    exact ⟨rfl, rfl, rfl, rfl, rfl⟩
  · simp only [script, step, here, there]
    exact ⟨trivial, rfl, rfl, congrArg some kind, rfl⟩

/-! ## A whole walk -/

theorem script_append_of_fault
    {first : List (Event × Position)} {fault : Fault}
    (failed : (script setting walk first).2 = .error fault)
    (second : List (Event × Position)) :
    script setting walk (first ++ second) = script setting walk first := by
  induction first generalizing walk with
  | nil => cases failed
  | cons pair rest ih =>
      obtain ⟨event, place⟩ := pair
      rw [List.cons_append]
      simp only [script] at failed ⊢
      split at failed
      · rfl
      · next acts onward passed =>
          rw [ih failed]

/-- The tags of one event, and then the events after it. -/
theorem follows_front
    {event : Event} {place : Position} {start : Walk} {left : Bool}
    {front : List (Event × Position)}
    (follows :
      Follows left (script setting start front)
        (step setting walk event place))
    {rest others : List (Event × Position)}
    (onward : ∀ next,
      (step setting walk event place).2 = .ok next →
        ∃ last,
          Follows last (script setting (next.shed left) others)
            (script setting next rest)) :
    (∃ last,
        Follows last (script setting start (front ++ others))
          (script setting walk ((event, place) :: rest))) ∧
      (writes (script setting start (front ++ others)).1 =
          writes (script setting walk ((event, place) :: rest)).1 ↔
        writes (script setting start front).1 =
            writes (step setting walk event place).1 ∧
          ∀ next, (step setting walk event place).2 = .ok next →
            writes (script setting (next.shed left) others).1 =
              writes (script setting next rest).1) := by
  cases outcome : step setting walk event place with
  | mk acts result =>
      rw [outcome] at follows onward
      cases result with
      | error fault =>
          obtain ⟨refusal, failed⟩ :
              ∃ refusal, (script setting start front).2 = .error refusal := by
            cases ended : (script setting start front).2 with
            | error refusal => exact ⟨refusal, rfl⟩
            | ok last =>
                have kinds := follows.kinds
                rw [ended] at kinds
                cases kinds
          rw [script_append_of_fault failed]
          simp only [script, outcome]
          refine ⟨⟨left, follows⟩, fun same => ⟨same, ?_⟩, fun both => both.1⟩
          intro next impossible
          cases impossible
      | ok next =>
          have reached :
              (script setting start front).2 = .ok (next.shed left) :=
            eq_ok_of_toOption follows.reached
          obtain ⟨last, follower⟩ := onward next rfl
          rw [script_append reached]
          simp only [script, outcome]
          constructor
          · refine ⟨last, ?_, ?_, follower.kinds, follower.reached⟩
            · rw [countedItems_append, countedItems_append, follows.items,
                follower.items]
            · rw [writes_append, writes_append, List.length_append,
                List.length_append, follows.length, follower.length]
          · rw [writes_append, writes_append,
              List.append_eq_append_iff_of_size_eq_left follows.length]
            exact
              and_congr_right fun _ =>
                ⟨fun rest _ same => by cases same; exact rest,
                  fun rest => rest next rfl⟩

theorem eq_singleton_of_map_fst
    {front : List (Event × Position)} {event : Event}
    (tags : front.map Prod.fst = [event]) :
    ∃ place, front = [(event, place)] := by
  obtain ⟨⟨_, place⟩, rfl, rfl⟩ := List.map_eq_singleton_iff.mp tags
  exact ⟨place, rfl⟩

theorem eq_pair_of_map_fst
    {front : List (Event × Position)} {first second : Event}
    (tags : front.map Prod.fst = [first, second]) :
    ∃ place other, front = [(first, place), (second, other)] := by
  obtain ⟨⟨_, place⟩, more, rfl, rfl, tail⟩ := List.map_eq_cons_iff.mp tags
  obtain ⟨other, rfl⟩ := eq_singleton_of_map_fst tail
  exact ⟨place, other, rfl⟩

theorem script_singleton
    (walk : Walk) (event : Event) (place : Position) :
    script setting walk [(event, place)] = step setting walk event place := by
  rw [script]
  split
  · next failed => rw [failed]
  · next done => simp only [done, script, List.append_nil]

theorem script_shed_start
    (walk : Walk) (lost : Bool) (name : String)
    (attributes : List (String × String)) (empty : Bool) (place : Position)
    (rest : List (Event × Position)) :
    script setting (walk.shed lost)
        ((.start name attributes empty, place) :: rest) =
      script setting walk ((.start name attributes empty, place) :: rest) := by
  rw [script, step_shed_start, script]

/-- A template in another spelling takes the course of the template.  It is
written alike exactly if no condition left behind by a chosen tag matters. -/
theorem script_respelled
    {events others : List (Event × Position)}
    (same : others.map Prod.fst = Markup.respelledEvents chosen events)
    (walk : Walk) (lost : Bool) :
    (∃ last,
        Follows last (script setting (walk.shed lost) others)
          (script setting walk events)) ∧
      (writes (script setting (walk.shed lost) others).1 =
          writes (script setting walk events).1 ↔
        Indifferent setting chosen lost walk events) := by
  induction events generalizing others walk lost with
  | nil =>
      rw [Markup.respelledEvents, List.map_eq_nil_iff] at same
      subst same
      exact ⟨⟨lost, rfl, rfl, rfl, rfl⟩, fun _ => trivial, fun _ => rfl⟩
  | cons pair rest ih =>
      obtain ⟨event, place⟩ := pair
      rw [Markup.respelledEvents] at same
      obtain ⟨front, back, rfl, tags, remaining⟩ :=
        List.map_eq_append_iff.mp same
      -- the tags of the event do what the event does
      have follows :
          Follows (behind chosen lost event place)
              (script setting (walk.shed lost) front)
              (step setting walk event place) ∧
            writes (script setting (walk.shed lost) front).1 =
              writes (step setting (walk.shed lost) event place).1 := by
        by_cases full :
            chosen place = true ∧
              ∃ name attributes, event = .start name attributes true
        · obtain ⟨picked, name, attributes, rfl⟩ := full
          rw [if_pos picked] at tags
          obtain ⟨first, second, rfl⟩ := eq_pair_of_map_fst tags
          obtain ⟨written, course⟩ :=
            @script_tags setting walk name attributes place first second
          rw [script_shed_start, step_shed_start, behind, picked]
          exact ⟨course, written⟩
        · have single :
              (if chosen place then event.tags else [event]) = [event] ∧
                behind chosen lost event place =
                  behind (fun _ => false) lost event place := by
            cases picked : chosen place with
            | false => cases event <;> simp [behind, picked]
            | true =>
                cases event with
                | start name attributes empty =>
                    cases empty with
                    | false => exact ⟨rfl, rfl⟩
                    | true => exact absurd ⟨picked, _, _, rfl⟩ full
                | _ => exact ⟨rfl, rfl⟩
          rw [single.1] at tags
          obtain ⟨other, rfl⟩ := eq_singleton_of_map_fst tags
          obtain ⟨acts, course⟩ :=
            @step_elsewhere setting (walk.shed lost) event place other
          rw [script_singleton, single.2, acts]
          exact ⟨course.trans (step_shed walk lost event place), rfl⟩
      obtain ⟨whole, alike⟩ :=
        @follows_front setting walk event place (walk.shed lost) _ front
          follows.1 rest back fun next _ => (ih remaining next _).1
      refine ⟨whole, ?_⟩
      rw [alike, follows.2, Indifferent]
      exact
        and_congr_right fun _ =>
          forall_congr' fun next =>
            imp_congr_right fun _ => (ih remaining next _).2

end Walk

namespace Substitution

/-! ## A whole template -/

/-- A template begins with a tag in either spelling. -/
theorem isAml_respell
    {substitution : Substitution} {template : String}
    (aml : substitution.isAml template = true)
    (limits : Markup.Limits) (chosen : Position → Bool) :
    substitution.isAml (Markup.respell limits chosen template) = true := by
  simp only [isAml, Bool.and_eq_true, beq_iff_eq] at aml ⊢
  refine ⟨?_, aml.2⟩
  obtain ⟨more, tagged⟩ := List.head?_eq_some_iff.mp aml.1
  have blank :
      ∀ char ∈ template.toList.takeWhile Text.isBlank,
        Text.isBlank char = true :=
    fun char member => List.mem_takeWhile_imp member
  have shape :
      template.toList =
        template.toList.takeWhile Text.isBlank ++ '<' :: more := by
    rw [← tagged]
    exact List.takeWhile_append_dropWhile.symm
  obtain ⟨other, respelled⟩ :=
    @Markup.Reader.respelled_of_front ⟨limits.depth, .ofText template, []⟩ _
      _ shape (fun member => absurd (blank '<' member) (by decide)) chosen
  rw [Markup.respell, String.toList_ofList, respelled, Text.trimLeft,
    Text.dropWhile_append_of_stops blank (by simp; decide)]
  rfl

theorem itemCount_of_isAml
    {substitution : Substitution} {template : String}
    (aml : substitution.isAml template = true) (locale : Locale)
    (room : Option Nat) :
    (substitution.fill locale room template).1.itemCount =
      (fillAml (substitution.setting locale) room template).1.items := by
  have tagged := aml
  simp only [isAml, Bool.and_eq_true, beq_iff_eq] at tagged
  rw [fill, if_neg (by simp [allBlank_eq_false tagged.1]), if_pos aml]

/-- A template with some of its empty tags written as two is filled with the
same items counted and with a fault of the same kind, if with any.  The two
are written alike, instruction by instruction, exactly if no condition that a
chosen empty tag leaves behind matters up to the next tag, and then the outputs
are the same.  Only a list condition or one of flat SQL can matter. -/
theorem fill_respell
    (substitution : Substitution) (locale : Locale)
    (chosen : Position → Bool) {template : String}
    (aml : substitution.isAml template = true)
    (small :
      (Markup.respell .standard chosen template).utf8ByteSize ≤
        Markup.Limits.standard.size)
    (shallow :
      Markup.Shallow Markup.Limits.standard.depth 0
        (Markup.respelledEvents chosen
          (Markup.read .standard template).events)) :
    let setting := substitution.setting locale
    let events := (Markup.read .standard template).events
    let respelled := Markup.respell .standard chosen template
    let filled := substitution.fill locale none template
    let refilled := substitution.fill locale none respelled
    refilled.1.itemCount = filled.1.itemCount ∧
      faultKind? refilled.2.result = faultKind? filled.2.result ∧
      (writes
            (Walk.script setting .start
              (Markup.read .standard respelled).events).1 =
          writes (Walk.script setting .start events).1 ↔
        Walk.Indifferent setting chosen false .start events) ∧
      (Walk.Indifferent setting chosen false .start events →
        refilled.2.output = filled.2.output) ∧
      ∀ (walk : Walk) (lost : Bool) (event : Event) (place : Position),
        Context.ofCondition walk.condition ≠ .isIn →
          Context.ofCondition walk.condition ≠ .sql →
            (Walk.step setting (walk.shed lost) event place).1 =
              (Walk.step setting walk event place).1 := by
  intro setting events respelled filled refilled
  obtain ⟨sameEvents, sameEnding⟩ :=
    Markup.read_respell (fun _ => small) shallow
  obtain ⟨⟨last, course⟩, alike⟩ :=
    @Walk.script_respelled setting chosen _ _ sameEvents .start false
  obtain ⟨writer, final, performed, finished, items, kinds, written⟩ :=
    fillAml_outcome setting template
  obtain
    ⟨other, otherFinal, otherPerformed, otherFinished, otherItems,
      otherKinds, otherWritten⟩ :=
    fillAml_outcome setting respelled
  have amlAgain := isAml_respell aml .standard chosen
  obtain ⟨result, output⟩ := fill_of_isAml aml locale none
  obtain ⟨otherResult, otherOutput⟩ := fill_of_isAml amlAgain locale none
  have sameKinds :
      faultKind? (fillAml setting none respelled).2 =
        faultKind? (fillAml setting none template).2 := by
    rw [kinds, otherKinds, sameEnding]
    exact congrArg (Option.or · _) course.kinds
  refine ⟨?_, ?_, alike, ?_, ?_⟩
  · rw [itemCount_of_isAml amlAgain, itemCount_of_isAml aml]
    exact otherItems.trans (course.items.trans items.symm)
  · rw [otherResult, result]
    exact sameKinds
  · intro indifferent
    have sameWrites :
        writes
            (Walk.script setting .start
              (Markup.read .standard respelled).events).1 =
          writes (Walk.script setting .start events).1 :=
      alike.mpr indifferent
    rw [sameWrites, performed] at otherPerformed
    cases otherPerformed
    cases finished.symm.trans otherFinished
    rw [otherOutput, output]
    apply congrArg Writer.output
    rw [otherWritten, written, sameKinds]
  · exact fun walk lost event place noList noSql =>
      Walk.step_shed_of_unquoted noList noSql lost event place

/-- A list. -/
def twoTexts : Value :=
  .list [.text "u", .text "v"]

/-- The events of an item without content before a placeholder, once its empty
tag is written as two. -/
def itemBeforePlaceholder (condition : String) : List Event :=
  [.start "a" [] false, .start "Item" [("condition", condition)] false,
    .finish "Item", .text "@p", .finish "a"]

theorem shallow_itemBeforePlaceholder
    (condition : String) :
    Markup.Shallow Markup.Limits.standard.depth 0
      (itemBeforePlaceholder condition) := by
  simp [itemBeforePlaceholder, Markup.Shallow, Markup.Limits.standard,
    Markup.Event.level]

/-- An empty tag with a list condition matters to a list after it, and one with
another condition does not. -/
theorem fill_respell_of_list :
    (Markup.respell .standard (fun _ => true)
          "<a><Item condition='in'/>@p</a>" =
        "<a><Item condition='in'></Item>@p</a>" ∧
      ((new.bind "p" twoTexts).fill inJune none
            "<a><Item condition='in'></Item>@p</a>").1.itemCount =
        ((new.bind "p" twoTexts).fill inJune none
            "<a><Item condition='in'/>@p</a>").1.itemCount ∧
      faultKind?
          ((new.bind "p" twoTexts).fill inJune none
            "<a><Item condition='in'></Item>@p</a>").2.result =
        faultKind?
          ((new.bind "p" twoTexts).fill inJune none
            "<a><Item condition='in'/>@p</a>").2.result ∧
      ¬ Walk.Indifferent ((new.bind "p" twoTexts).setting inJune)
          (fun _ => true) false .start
          (Markup.read .standard
            "<a><Item condition='in'/>@p</a>").events) ∧
      Markup.respell .standard (fun _ => true)
          "<a><Item condition='eq'/>@p</a>" =
        "<a><Item condition='eq'></Item>@p</a>" ∧
      ((new.bind "p" twoTexts).fill inJune none
            "<a><Item condition='eq'></Item>@p</a>").2.output =
        ((new.bind "p" twoTexts).fill inJune none
            "<a><Item condition='eq'/>@p</a>").2.output := by
  constructor
  · have respelled :
        Markup.respell .standard (fun _ => true)
            "<a><Item condition='in'/>@p</a>" =
          "<a><Item condition='in'></Item>@p</a>" := by
      decide +kernel
    have events :
        Markup.respelledEvents (fun _ => true)
            (Markup.read .standard "<a><Item condition='in'/>@p</a>").events =
          itemBeforePlaceholder "in" := by
      decide +kernel
    obtain ⟨items, kinds, alike, -⟩ :=
      fill_respell (new.bind "p" twoTexts) inJune (fun _ => true)
        (by decide +kernel) (by rw [respelled]; decide +kernel)
        (events ▸ shallow_itemBeforePlaceholder "in")
    rw [respelled] at items kinds alike
    refine ⟨respelled, items, kinds, fun indifferent => ?_⟩
    exact absurd (alike.mpr indifferent) (by decide +kernel)
  · have respelled :
        Markup.respell .standard (fun _ => true)
            "<a><Item condition='eq'/>@p</a>" =
          "<a><Item condition='eq'></Item>@p</a>" := by
      decide +kernel
    have events :
        Markup.respelledEvents (fun _ => true)
            (Markup.read .standard "<a><Item condition='eq'/>@p</a>").events =
          itemBeforePlaceholder "eq" := by
      decide +kernel
    obtain ⟨-, -, alike, output, -⟩ :=
      fill_respell (new.bind "p" twoTexts) inJune (fun _ => true)
        (by decide +kernel) (by rw [respelled]; decide +kernel)
        (events ▸ shallow_itemBeforePlaceholder "eq")
    rw [respelled] at alike output
    exact ⟨respelled, output (alike.mp (by decide +kernel))⟩

/-- A list after an empty tag is quoted, and after the two tags it is not. -/
theorem empty_tag_keeps_condition :
    ¬ ∀ (locale : Locale) (condition output other : String),
      ((new.bind "p" twoTexts).fill locale none
          ("<a><x condition='" ++ condition ++ "'/>@p</a>")).2.text =
            .ok output →
        ((new.bind "p" twoTexts).fill locale none
            ("<a><x condition='" ++ condition ++ "'></x>@p</a>")).2.text =
              .ok other →
          other = output := by
  intro same
  have short :
      ((new.bind "p" twoTexts).fill inJune none
          ("<a><x condition='" ++ "in" ++ "'/>@p</a>")).2.text.toOption =
        some "<a><x condition=\"in\" />N'u',N'v'</a>" := by
    decide +kernel
  have full :
      ((new.bind "p" twoTexts).fill inJune none
          ("<a><x condition='" ++ "in" ++ "'></x>@p</a>")).2.text.toOption =
        some "<a><x condition=\"in\" />u,v</a>" := by
    decide +kernel
  exact
    absurd
      (same inJune "in" _ _ (eq_ok_of_toOption short)
        (eq_ok_of_toOption full))
      (by decide)

end Substitution

end AmlExchange.Template
