import AmlExchange.Document.Reading
import AmlExchange.Proofs.Markup.NormalForm

/-!
# Items that lie in no other item

Among some trees these are found from the roots downwards.  Among the events
that make up the trees they are the elements that begin while no item is open
(`outerItems_treesOf`).
-/

namespace AmlExchange.Document

open Markup (Event Nested)

/-- The local name of an item. -/
def itemName : String :=
  "Item"

mutual

/-- The number of items in a tree that lie in no other item of it. -/
def outerItems : Element → Nat
  | .node label children =>
      if Markup.localName label.name = itemName then 1
      else outerItemsAll children

/-- The number of items in some trees that lie in no other item. -/
def outerItemsAll : List Element → Nat
  | [] => 0
  | tree :: rest => outerItems tree + outerItemsAll rest

end

theorem outerItemsAll_append
    (trees others : List Element) :
    outerItemsAll (trees ++ others) =
      outerItemsAll trees + outerItemsAll others := by
  induction trees with
  | nil => exact (Nat.zero_add _).symm
  | cons tree rest ih =>
      rw [List.cons_append, outerItemsAll, outerItemsAll, ih, Nat.add_assoc]

theorem outerItemsAll_reverse
    (trees : List Element) :
    outerItemsAll trees.reverse = outerItemsAll trees := by
  induction trees with
  | nil => rfl
  | cons tree rest ih =>
      rw [List.reverse_cons, outerItemsAll_append, ih, Nat.add_comm]
      rfl

/-- Whether an element is an item that lies in none of the elements around
it. -/
def isOuterItem (around : List String) (name : String) : Bool :=
  Markup.localName name == itemName && !around.contains itemName

/-- The local names of the open elements after an event, the innermost
first. -/
def namesAfter (around : List String) : Event → List String
  | .start name _ empty =>
      if empty then around else Markup.localName name :: around
  | .finish _ => around.tail
  | .text _ | .characterData _ | .comment _ => around

/-- The number of items that begin with an event and lie in none of the open
elements. -/
def itemsBegun (around : List String) : Event → Nat
  | .start name _ _ => (isOuterItem around name).toNat
  | .finish _ | .text _ | .characterData _ | .comment _ => 0

/-- The number of items that begin among some events while no item is open. -/
def itemsAmong (around : List String) : List Event → Nat
  | [] => 0
  | event :: rest =>
      itemsBegun around event + itemsAmong (namesAfter around event) rest

/-! ## Items in what has grown so far -/

namespace Growth

/-- The local names of open elements. -/
def localNames (frames : List Frame) : List String :=
  frames.map fun frame => Markup.localName frame.name

/-- The number of items in the open elements that lie in no other item. -/
def openItems : List Frame → Nat
  | [] => 0
  | frame :: outer =>
      openItems outer +
        if itemName ∈ localNames outer then 0
        else if Markup.localName frame.name = itemName then 1
        else outerItemsAll frame.children

/-- The number of items that lie in no other item. -/
def items (growth : Growth) : Nat :=
  outerItemsAll growth.finished + openItems growth.frames

theorem outerItems_close
    (frame : Frame) :
    outerItems frame.close =
      if Markup.localName frame.name = itemName then 1
      else outerItemsAll frame.children := by
  rw [Frame.close, outerItems, outerItemsAll_reverse]

theorem items_add
    (growth : Growth) (tree : Element) :
    (growth.add tree).items =
      growth.items +
        if itemName ∈ localNames growth.frames then 0
        else outerItems tree := by
  obtain ⟨frames, finished⟩ := growth
  cases frames with
  | nil =>
      show outerItems tree + outerItemsAll finished = _
      exact Nat.add_comm ..
  | cons frame outer =>
      simp only [add, items, openItems, localNames, List.map_cons,
        List.mem_cons, outerItemsAll]
      by_cases within :
          itemName ∈ outer.map fun frame => Markup.localName frame.name
      · simp [within]
      · by_cases isItem : Markup.localName frame.name = itemName
        · simp [within, isItem]
        · simp [within, isItem, Ne.symm isItem]
          omega

theorem items_addText
    (growth : Growth) (text : String) :
    (growth.addText text).items = growth.items ∧
      localNames (growth.addText text).frames =
        localNames growth.frames := by
  obtain ⟨frames, finished⟩ := growth
  cases frames <;> exact ⟨rfl, rfl⟩

theorem localNames_add
    (growth : Growth) (tree : Element) :
    localNames (growth.add tree).frames = localNames growth.frames := by
  obtain ⟨frames, finished⟩ := growth
  cases frames <;> rfl

theorem itemsBegun_start
    (around : List String) (name : String)
    (attributes : List (String × String)) (empty : Bool) :
    itemsBegun around (.start name attributes empty) =
      if itemName ∈ around then 0
      else if Markup.localName name = itemName then 1 else 0 := by
  by_cases within : itemName ∈ around
  · simp [itemsBegun, isOuterItem, within]
  · by_cases isItem : Markup.localName name = itemName <;>
      simp [itemsBegun, isOuterItem, within, isItem]

/-- One more event adds the items that begin with it. -/
theorem items_step
    (growth : Growth) (event : Event) :
    (growth.step event).items =
        growth.items + itemsBegun (localNames growth.frames) event ∧
      localNames (growth.step event).frames =
        namesAfter (localNames growth.frames) event := by
  cases event with
  | start name attributes empty =>
      rw [itemsBegun_start]
      cases empty with
      | true =>
          refine ⟨?_, localNames_add ..⟩
          rw [step, if_pos rfl, items_add, outerItems_close]
          rfl
      | false => exact ⟨(Nat.add_assoc ..).symm, rfl⟩
  | finish name =>
      obtain ⟨frames, finished⟩ := growth
      cases frames with
      | nil => exact ⟨rfl, rfl⟩
      | cons frame outer =>
          refine ⟨?_, localNames_add ..⟩
          simp only [step, items_add, outerItems_close]
          exact Nat.add_assoc ..
  | text content | characterData content => exact growth.items_addText content
  | comment content => exact ⟨rfl, rfl⟩

end Growth

theorem namesAfter_of_nest?
    {event : Event} {names next : List String}
    (fits : event.nest? names = some next) :
    namesAfter (names.map Markup.localName) event =
      next.map Markup.localName := by
  cases event with
  | start name attributes empty =>
      cases fits
      cases empty <;> rfl
  | finish name =>
      rw [Markup.nest?_finish.mp fits]
      rfl
  | text content =>
      rw [(Markup.nest?_text.mp fits).2]
      rfl
  | characterData content | comment content =>
      cases fits
      rfl

/-- Nested events end what has begun, and add the items that they begin. -/
theorem Growth.items_foldl
    {events : List Event} {names : List String} (nested : Nested names events)
    {growth : Growth}
    (opened : localNames growth.frames = names.map Markup.localName) :
    (events.foldl step growth).items =
        growth.items + itemsAmong (localNames growth.frames) events ∧
      (events.foldl step growth).frames = [] := by
  induction events generalizing growth names with
  | nil =>
      rw [Markup.nested_nil.mp nested] at opened
      exact ⟨rfl, List.map_eq_nil_iff.mp opened⟩
  | cons event rest ih =>
      obtain ⟨next, fits, nestedRest⟩ := Markup.nested_cons.mp nested
      obtain ⟨counted, after⟩ := growth.items_step event
      have still := after.trans (opened ▸ namesAfter_of_nest? fits)
      obtain ⟨others, ended⟩ := ih nestedRest still
      refine ⟨?_, ended⟩
      rw [List.foldl_cons, others, counted, after, itemsAmong, Nat.add_assoc]

/-- The items of trees are the elements that begin while no item is open. -/
theorem outerItems_treesOf
    {events : List Event} (nested : Nested [] events) :
    outerItemsAll (treesOf events) = itemsAmong [] events := by
  obtain ⟨counted, ended⟩ :=
    @Growth.items_foldl _ _ nested .start rfl
  rw [treesOf, outerItemsAll_reverse]
  rw [Growth.items, ended] at counted
  exact counted.trans (Nat.zero_add _)

end AmlExchange.Document
