import AmlExchange.Proofs.Document.OuterItems
import AmlExchange.Proofs.Document.Rereading
import AmlExchange.Proofs.Template.EmptyTags
import AmlExchange.Proofs.Template.LateAttributes

/-!
# The items of a filled template

Filling keeps the elements of a template where they are, whatever the values
are, as long as none is inserted unescaped; a date range in a text only adds
attributes to a start tag (`writesFilled_script`).  So the items that the walk
counts are those of the output (`itemCount_fill`).
-/

namespace AmlExchange.Template

open Document (isOuterItem itemsAmong itemsBegun namesAfter)
open Markup (Event Instruction)
open Text (Position)

namespace Fills

variable {events filled : List Event}

/-- The same items begin where no item is open. -/
theorem itemsAmong_eq
    (fills : Fills events filled) (around : List String) :
    itemsAmong around filled = itemsAmong around events := by
  induction fills generalizing around with
  | nil => rfl
  | dropped _ ih => rw [ih, itemsAmong, itemsBegun, namesAfter, Nat.zero_add]
  | start _ _ ih | finish _ ih | text _ ih | characterData _ ih
  | comment _ ih =>
      rw [itemsAmong, ih]
      rfl

end Fills

/-! ## What filling writes -/

/-- Whether instructions write what fills some events, and offer nothing but
attributes with names to a start tag before them. -/
def WritesFilled (instructions : List Instruction) (template : List Event) :
    Prop :=
  ∃ offers filled,
    ComesTo instructions offers (filled.flatMap Event.instructions) ∧
      Fills template filled ∧
      ∀ field ∈ offers, Markup.isName field.1.toList = true

namespace Walk

variable {setting : Setting} {walk next : Walk}

/-- A template is written with other values. -/
theorem writesFilled_script
    {events : List (Event × Position)}
    (lawful : ∀ event ∈ events.map Prod.fst, event.Lawful)
    (escaped : ∀ content, .text content ∈ events.map Prod.fst →
      isRaw setting.style content = false)
    {last : Walk} (reached : (script setting walk events).2 = .ok last) :
    WritesFilled (writes (script setting walk events).1)
      (events.map Prod.fst) :=
  ⟨_, _, comesTo_script escaped reached, fills_filledAll lawful setting walk,
    fun _ member => isName_of_mem_late (List.mem_map_of_mem member)⟩

/-! ## What the walk counts -/

theorem countedItems_write_cons
    (instruction : Instruction) (acts : List Act) :
    countedItems (.write instruction :: acts) = countedItems acts :=
  List.count_cons_of_ne (by simp)

theorem countedItems_settings
    (attributes : List (String × String)) :
    countedItems
        (attributes.map fun field =>
          Act.write (.setAttribute field.1 field.2)) = 0 := by
  rw [countedItems, List.count_eq_zero]
  intro member
  obtain ⟨field, -, same⟩ := List.mem_map.mp member
  cases same

/-- A start tag counts an item that lies in none of the open elements. -/
theorem countedItems_enter
    (walk : Walk) (name : String) (source rendered : List (String × String))
    (empty : Bool) :
    countedItems (walk.enter name source rendered empty).1 =
        itemsBegun walk.openNames (.start name source empty) ∧
      (walk.enter name source rendered empty).2.openNames =
        namesAfter walk.openNames (.start name source empty) := by
  have counting (counted : Bool) :
      countedItems (if counted then [.countItem] else []) = counted.toNat := by
    cases counted <;> rfl
  have written (attributes : List (String × String)) :
      countedItems
          (attributes.map (fun field =>
              Act.write (.setAttribute field.1 field.2)) ++
            if isOuterItem walk.openNames name then [.countItem] else []) =
        itemsBegun walk.openNames (.start name source empty) := by
    rw [countedItems_append, counting]
    exact (congrArg (· + _) (countedItems_settings attributes)).trans
      (Nat.zero_add _)
  rw [enter]
  cases empty with
  | true =>
      refine ⟨?_, rfl⟩
      rw [if_pos rfl, countedItems_append]
      exact written _
  | false => exact ⟨written _, rfl⟩

/-- A step counts the item that begins with its event. -/
theorem countedItems_step
    {event : Event} {place : Position}
    (reached : (step setting walk event place).2 = .ok next) :
    countedItems (step setting walk event place).1 =
        itemsBegun walk.openNames event ∧
      next.openNames = namesAfter walk.openNames event := by
  cases event with
  | start name attributes empty =>
      cases outcome : renderAttributes setting place attributes with
      | mk looked result =>
          cases result with
          | error fault =>
              simp only [step, outcome] at reached
              cases reached
          | ok rendered =>
              simp only [step, outcome] at reached ⊢
              cases reached
              obtain ⟨counted, names⟩ :=
                walk.countedItems_enter name attributes rendered empty
              rw [List.cons_append, countedItems_write_cons,
                countedItems_append, countedItems_lookUps, Nat.zero_add]
              exact ⟨counted, names⟩
  | finish name =>
      cases reached
      exact ⟨rfl, rfl⟩
  | text content =>
      rw [step] at reached ⊢
      split at reached
      · next spaced =>
          cases reached
          rw [if_pos spaced]
          refine ⟨?_, rfl⟩
          split <;> rfl
      · next visible =>
          cases reached
          rw [if_neg visible]
          exact ⟨countedItems_insertText .., rfl⟩
  | characterData content =>
      simp only [step] at reached ⊢
      split at reached
      · cases reached
      · next plain =>
          cases reached
          rw [if_neg plain, countedItems_append, countedItems_lookUps]
          exact ⟨rfl, rfl⟩
  | comment content =>
      cases reached
      exact ⟨rfl, rfl⟩

/-- A walk counts the items that begin in the template. -/
theorem countedItems_script
    {events : List (Event × Position)} {last : Walk}
    (reached : (script setting walk events).2 = .ok last) :
    countedItems (script setting walk events).1 =
      itemsAmong walk.openNames (events.map Prod.fst) := by
  induction events generalizing walk with
  | nil => rfl
  | cons pair rest ih =>
      obtain ⟨event, place⟩ := pair
      obtain ⟨next, first, others, acts⟩ := exists_next reached
      obtain ⟨counted, names⟩ := countedItems_step first
      rw [acts, countedItems_append, counted, ih others, names]
      rfl

end Walk

/-- The output of an AML template has the items that the walk has counted, if
it can be read. -/
theorem Substitution.itemCount_fill
    {substitution : Substitution} {locale : Locale}
    {template output : String}
    (aml : substitution.isAml template = true)
    (escaped : ∀ content,
      .text content ∈ (Markup.read .standard template).events.map Prod.fst →
        isRaw substitution.style content = false)
    (filled :
      (substitution.fill locale none template).2.text = .ok output)
    {place : Position}
    (readable : (Markup.read .unlimited output).ending = .ok place) :
    (substitution.fill locale none template).1.itemCount =
      Document.outerItemsAll
        (Document.treesOf
          ((Markup.read .unlimited output).events.map Prod.fst)) := by
  obtain ⟨done, written⟩ := fillAml_of_text aml filled
  obtain ⟨⟨_, ended⟩, last, walked⟩ := exists_last_of_fillAml done
  obtain ⟨nested, lawful⟩ := Markup.nested_read ended
  obtain ⟨offers, events, comes, fills, -⟩ :=
    Walk.writesFilled_script lawful escaped walked
  have nestedFilled := fills.nested nested
  have text :=
    (fillAml_of_toText ended walked
      (comes.toText_eq.trans (Markup.toText_events nestedFilled))).2
  obtain ⟨-, same⟩ :=
    Markup.delivered_of_read nestedFilled
      (fills.named fun event member => (lawful event member).named)
      (written.symm.trans text) readable
  obtain ⟨_, _, _, _, counted, -⟩ :=
    fillAml_outcome (substitution.setting locale) template
  rw [itemCount_of_isAml aml, counted, Walk.countedItems_script walked, same,
    Document.treesOf_normalForm, Document.outerItems_treesOf nestedFilled,
    fills.itemsAmong_eq]
  rfl

end AmlExchange.Template
