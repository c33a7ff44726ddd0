import AmlExchange.Proofs.Template.Refilling

/-!
# How long a date range is in force

The range in the latest start tag takes the place of every text up to the next
start tag.  As long as the element begun last is open, this is the range of the
element around the text.  Its end does not put the range out of force: up to
the next start tag it still takes the place of the texts that follow, which
stand in other elements (`script_text`).
-/

namespace AmlExchange.Template

open Markup (Event)
open Text (Position)

/-! ## Start tags -/

/-- The attributes of a start tag. -/
abbrev Attributes :=
  List (String × String)

/-- The start tags of the elements that are open after an event, the innermost
first. -/
def openAfter (tags : List Attributes) : Event → List Attributes
  | .start _ attributes false => attributes :: tags
  | .finish _ => tags.tail
  | _ => tags

/-- The start tags of the elements that some events leave open, the innermost
first. -/
def openTags (events : List Event) : List Attributes :=
  events.foldl openAfter []

/-- The latest start tag after an event. -/
def latestAfter (tag : Option Attributes) : Event → Option Attributes
  | .start _ attributes _ => some attributes
  | _ => tag

/-- The latest start tag among some events. -/
def latestTag (events : List Event) : Option Attributes :=
  events.foldl latestAfter none

/-- Whether the element begun last has ended after an event. -/
def endedAfter (ended : Bool) : Event → Bool
  | .start _ _ empty => empty
  | .finish _ => true
  | _ => ended

/-- Whether the element that some events begin last has ended among them. -/
def lastHasEnded (events : List Event) : Bool :=
  events.foldl endedAfter false

/-- The range in the latest start tag. -/
def currentRange (events : List Event) : Option DateRange.Dynamic :=
  (latestTag events).bind Walk.rangeOf

/-- The range in the start tag of the element that a text after some events
stands in directly, unless an element has ended since that start tag. -/
def ownRange (events : List Event) : Option DateRange.Dynamic :=
  if lastHasEnded events then none
  else (openTags events).head?.bind Walk.rangeOf

/-- The element begun last is the innermost one until it ends. -/
theorem latestTag_eq_head?
    {events : List Event} (within : lastHasEnded events = false) :
    latestTag events = (openTags events).head? := by
  induction events using List.reverseRecOn with
  | nil => rfl
  | append_singleton events event ih =>
      rw [lastHasEnded, List.foldl_concat] at within
      rw [latestTag, openTags, List.foldl_concat, List.foldl_concat]
      cases event with
      | start name attributes empty =>
          have full : empty = false := within
          rw [full]
          rfl
      | finish name => cases within
      | text content | characterData content | comment content =>
          exact ih within

theorem ownRange_of_open
    {events : List Event} (within : lastHasEnded events = false) :
    ownRange events = currentRange events := by
  rw [ownRange, within, currentRange, latestTag_eq_head? within]
  rfl

theorem ownRange_of_ended
    {events : List Event} (ended : lastHasEnded events = true) :
    ownRange events = none := by
  rw [ownRange, ended]
  rfl

namespace Walk

variable {setting : Setting} {walk next : Walk}

/-! ## The range of a walk -/

/-- A script over two sequences of events, the first of which is passed. -/
theorem script_append
    {first : List (Event × Position)}
    (reached : (script setting walk first).2 = .ok next)
    (second : List (Event × Position)) :
    script setting walk (first ++ second) =
      ((script setting walk first).1 ++ (script setting next second).1,
        (script setting next second).2) := by
  induction first generalizing walk with
  | nil =>
      cases reached
      rfl
  | cons pair rest ih =>
      obtain ⟨event, place⟩ := pair
      rw [List.cons_append]
      simp only [script] at reached ⊢
      split at reached
      · cases reached
      · next acts onward passed =>
          dsimp only
          rw [ih reached, List.append_assoc]

/-- A step keeps the range of the latest start tag. -/
theorem range_step
    {tag : Option Attributes} (before : walk.range = tag.bind rangeOf)
    {event : Event} {place : Position}
    (reached : (step setting walk event place).2 = .ok next) :
    next.range = (latestAfter tag event).bind rangeOf := by
  cases event with
  | start name attributes empty =>
      simp only [step] at reached
      split at reached
      · cases reached
      · cases reached
        cases empty <;> rfl
  | finish name =>
      cases reached
      exact before
  | text content =>
      have same : walk = next := by
        rw [step] at reached
        split at reached <;> exact Except.ok.inj reached
      exact same ▸ before
  | characterData content =>
      simp only [step] at reached
      split at reached
      · cases reached
      · cases reached
        exact before
  | comment content =>
      cases reached
      exact before

/-- The range of a walk is that of the latest start tag passed. -/
theorem range_script
    {tag : Option Attributes} (start : walk.range = tag.bind rangeOf)
    {events : List (Event × Position)}
    (reached : (script setting walk events).2 = .ok next) :
    next.range =
      ((events.map Prod.fst).foldl latestAfter tag).bind rangeOf := by
  induction events generalizing walk tag with
  | nil =>
      cases reached
      exact start
  | cons pair rest ih =>
      obtain ⟨event, place⟩ := pair
      simp only [script] at reached
      split at reached
      · cases reached
      · next acts onward passed =>
          apply ih _ reached
          exact range_step start (congrArg Prod.snd passed)

/-! ## What becomes of a text -/

theorem writes_insertText_of_inert
    {content : String} (inert : Inert content.toList) :
    writes (insertText setting { walk with range := none } content) =
      [.text content] := by
  have stays :=
    setting.leaves_of_inert (.ofCondition walk.condition) inert
  simp only [insertText, stays.value, stays.raw, stays.text,
    rangeAttributes, writes_append, writes_lookUps]
  rfl

/-- Every text is inserted as it would be without a range exactly if there is
no range: a range makes all texts the same. -/
theorem insertText_eq_iff
    {range : Option DateRange.Dynamic} :
    (∀ content, Markup.isSpaced content = false →
        insertText setting { walk with range := range } content =
          insertText setting { walk with range := none } content) ↔
      range = none := by
  constructor
  · intro same
    cases range with
    | none => rfl
    | some given =>
        have first := same "a" (by decide)
        have second := same "b" (by decide)
        have written : writes (insertText setting _ "a") = _ :=
          congrArg writes (first.symm.trans second)
        rw [writes_insertText_of_inert (by decide),
          writes_insertText_of_inert (by decide)] at written
        exact absurd written (by decide)
  · rintro rfl content -
    rfl

/-- A text is inserted under the range of the latest start tag.  Whatever the
text is, this is the range of its own element and of no other, exactly if the
element begun last is still open or has no range. -/
theorem script_text
    {before after : List (Event × Position)}
    (reached : (script setting .start before).2 = .ok walk)
    {content : String} (visible : Markup.isSpaced content = false)
    (place : Position) :
    (script setting .start (before ++ (.text content, place) :: after)).1 =
        (script setting .start before).1 ++
          (insertText setting
              { walk with range := currentRange (before.map Prod.fst) }
              content ++
            (script setting walk after).1) ∧
      ((∀ other, Markup.isSpaced other = false →
          insertText setting
              { walk with range := currentRange (before.map Prod.fst) }
              other =
            insertText setting
              { walk with range := ownRange (before.map Prod.fst) } other) ↔
        (lastHasEnded (before.map Prod.fst) = true →
          currentRange (before.map Prod.fst) = none)) := by
  have current : walk.range = currentRange (before.map Prod.fst) :=
    @range_script _ _ _ none rfl _ reached
  constructor
  · have inserted :
        step setting walk (.text content) place =
          (insertText setting walk content, .ok walk) := by
      rw [step, if_neg (by simp [visible])]
    rw [script_append reached, ← current]
    simp only [script, inserted]
  · cases ended : lastHasEnded (before.map Prod.fst) with
    | false =>
        rw [ownRange_of_open ended]
        exact
          ⟨fun _ ended => absurd ended Bool.false_ne_true, fun _ _ _ => rfl⟩
    | true =>
        rw [ownRange_of_ended ended, insertText_eq_iff]
        exact ⟨fun none _ => none, fun none => none rfl⟩

/-- An element that has a range, in another one. -/
def rangedChild : List (Event × Position) :=
  [(.start "a" [] false, .start),
    (.start "x" [("origDateRange", "Dynamic|Day|0|Day|0")] false, .start),
    (.finish "x", .start)]

/-- The text after a child with a range is the range. -/
theorem script_text_of_rangedChild :
    ∃ walk,
      (script (Substitution.new.setting Substitution.inJune) .start
          rangedChild).2 = .ok walk ∧
        ¬ ∀ other, Markup.isSpaced other = false →
          insertText (Substitution.new.setting Substitution.inJune)
              { walk with
                range := currentRange (rangedChild.map Prod.fst) }
              other =
            insertText (Substitution.new.setting Substitution.inJune)
              { walk with range := ownRange (rangedChild.map Prod.fst) }
              other := by
  have given :
      ((script (Substitution.new.setting Substitution.inJune) .start
          rangedChild).2.toOption).isSome = true := by
    decide +kernel
  obtain ⟨walk, passed⟩ := Option.isSome_iff_exists.mp given
  have reached := eq_ok_of_toOption passed
  have visible : Markup.isSpaced "hello" = false := by
    decide
  obtain ⟨-, own⟩ := @script_text _ _ _ [] reached _ visible .start
  refine ⟨walk, reached, fun same => ?_⟩
  exact absurd (own.mp same rfl) (by decide +kernel)

end Walk

namespace Substitution

/-- A range takes the place of a text that follows its element, even of a word
that filling would otherwise leave as it is. -/
theorem range_outlives_element :
    ¬ ∀ (locale : Locale) (text output : String),
      text ≠ "" → (∀ char ∈ text.toList, char.isAlphanum = true) →
        (new.fill locale none
            ("<a><x origDateRange='Dynamic|Day|0|Day|0'></x>" ++ text ++
              "</a>")).2.text = .ok output →
          text.toList <:+: output.toList := by
  intro kept
  have filled :
      (new.fill inJune none
          ("<a><x origDateRange='Dynamic|Day|0|Day|0'></x>" ++ "hello" ++
            "</a>")).2.text.toOption =
        some
          ("<a><x origDateRange=\"Dynamic|Day|0|Day|0\" " ++
            "condition=\"between\" />2016-06-20T00:00:00 and " ++
            "2016-06-20T23:59:59</a>") := by
    decide +kernel
  have letters : ∀ char ∈ "hello".toList, char.isAlphanum = true :=
    List.all_eq_true.mp (by decide)
  have replaced :=
    kept inJune "hello" _ (by decide) letters (eq_ok_of_toOption filled)
  exact absurd replaced (by decide +kernel)

end Substitution

end AmlExchange.Template
