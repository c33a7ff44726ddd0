import AmlExchange.Proofs.Template.FilledItems
import Mathlib.Data.Nat.Count

/-!
# The places of the items in a template

Which elements are open at a place can be told from the events before it
alone: those whose start tag stands there while the tags that follow end no
element but such as begin among them (`IsOpen`).  The open elements that a walk
remembers are these (`mem_foldl_namesAfter`), so that the items it counts are
the start tags of items with no item open before them
(`itemsAmong_eq_count`), whatever has been filled before
(`itemCount_eq_count`).
-/

namespace AmlExchange.Markup

/-- Whether an event ends an element. -/
def Event.ends : Event → Bool
  | .finish _ => true
  | _ => false

/-- Whether events end no element but those that begin among them. -/
def EndsOwn (events : List Event) : Prop :=
  ∀ front, front <+: events →
    front.countP Event.ends ≤ front.countP Event.opens

theorem endsOwn_nil :
    EndsOwn [] := by
  intro front nothing
  rw [List.prefix_nil.mp nothing]
  exact Nat.le_refl _

theorem endsOwn_concat
    {events : List Event} {event : Event} :
    EndsOwn (events ++ [event]) ↔
      EndsOwn events ∧
        (events ++ [event]).countP Event.ends ≤
          (events ++ [event]).countP Event.opens := by
  simp only [EndsOwn, List.prefix_concat_iff, forall_eq_or_imp]
  exact and_comm

end AmlExchange.Markup

namespace AmlExchange.Template

open Document (itemName itemsAmong itemsBegun namesAfter)
open Markup (EndsOwn Event)

/-! ## Open elements -/

/-- Whether the element with a given number of open elements within it has a
local name. -/
def OpenAt (depth : Nat) (name : String) (before : List Event) : Prop :=
  ∃ outer tag attributes inside,
    before = outer ++ .start tag attributes false :: inside ∧
      Markup.localName tag = name ∧ EndsOwn inside ∧
      inside.countP Event.opens = inside.countP Event.ends + depth

/-- Whether an element with a local name is open after some events. -/
def IsOpen (name : String) (before : List Event) : Prop :=
  ∃ outer tag attributes inside,
    before = outer ++ .start tag attributes false :: inside ∧
      Markup.localName tag = name ∧ EndsOwn inside

theorem isOpen_iff
    {name : String} {before : List Event} :
    IsOpen name before ↔ ∃ depth, OpenAt depth name before := by
  constructor
  · rintro ⟨outer, tag, attributes, inside, split, named, own⟩
    obtain ⟨depth, balance⟩ :=
      Nat.exists_eq_add_of_le (own inside (List.prefix_refl inside))
    exact ⟨depth, outer, tag, attributes, inside, split, named, own, balance⟩
  · rintro ⟨-, outer, tag, attributes, inside, split, named, own, -⟩
    exact ⟨outer, tag, attributes, inside, split, named, own⟩

theorem not_openAt_nil
    {depth : Nat} {name : String} :
    ¬ OpenAt depth name [] := by
  rintro ⟨outer, tag, attributes, inside, split, -⟩
  simp at split

/-- One more event leaves open what was open before, at another depth if it
begins or ends an element, but for the innermost element if it ends one. -/
theorem openAt_concat
    {depth : Nat} {name : String} {before : List Event} {event : Event} :
    OpenAt depth name (before ++ [event]) ↔
      (depth = 0 ∧
          ∃ tag attributes,
            event = .start tag attributes false ∧
              Markup.localName tag = name) ∨
        ∃ outside,
          OpenAt outside name before ∧
            outside + event.opens.toNat = event.ends.toNat + depth := by
  constructor
  · rintro ⟨outer, tag, attributes, inside, split, named, own, balance⟩
    rcases List.eq_nil_or_concat' inside with rfl | ⟨within, last, rfl⟩
    · obtain ⟨rfl, same⟩ := List.append_inj' split rfl
      refine .inl ⟨?_, tag, attributes, (List.cons.inj same).1, named⟩
      simpa using balance.symm
    · rw [← List.cons_append, ← List.append_assoc] at split
      obtain ⟨rfl, same⟩ := List.append_inj' split rfl
      obtain rfl := (List.cons.inj same).1
      obtain ⟨ownWithin, -⟩ := Markup.endsOwn_concat.mp own
      obtain ⟨outside, surplus⟩ :=
        Nat.exists_eq_add_of_le (ownWithin within (List.prefix_refl within))
      refine
        .inr
          ⟨outside,
            ⟨outer, tag, attributes, within, rfl, named, ownWithin, surplus⟩,
            ?_⟩
      rw [List.countP_append, List.countP_append, surplus] at balance
      cases opens : event.opens <;> cases ends : event.ends <;>
        simp [opens, ends] at balance ⊢ <;> omega
  · rintro (⟨rfl, tag, attributes, rfl, named⟩ |
      ⟨outside, ⟨outer, tag, attributes, inside, rfl, named, own, surplus⟩,
        balance⟩)
    · exact ⟨before, tag, attributes, [], rfl, named, Markup.endsOwn_nil, rfl⟩
    · have counted :
          (inside ++ [event]).countP Event.opens =
            (inside ++ [event]).countP Event.ends + depth := by
        rw [List.countP_append, List.countP_append, surplus]
        cases opens : event.opens <;> cases ends : event.ends <;>
          simp [opens, ends] at balance ⊢ <;> omega
      refine
        ⟨outer, tag, attributes, inside ++ [event], ?_, named, ?_, counted⟩
      · rw [List.append_assoc, List.cons_append]
      · exact
          Markup.endsOwn_concat.mpr
            ⟨own, counted ▸ Nat.le_add_right _ depth⟩

/-- The open elements after some events, from the innermost one on. -/
theorem getElem?_foldl_namesAfter
    {events : List Event} {depth : Nat} {name : String} :
    (events.foldl namesAfter [])[depth]? = some name ↔
      OpenAt depth name events := by
  induction events using List.reverseRecOn generalizing depth with
  | nil => simp [not_openAt_nil]
  | append_singleton before event ih =>
      rw [List.foldl_append, List.foldl_cons, List.foldl_nil, openAt_concat]
      cases event with
      | start tag attributes empty =>
          cases empty with
          | true => simp [namesAfter, Event.opens, Event.ends, ih]
          | false =>
              cases depth with
              | zero => simp [namesAfter, Event.opens, Event.ends]
              | succ depth =>
                  simp [namesAfter, Event.opens, Event.ends, ih]
      | finish tag =>
          simp [namesAfter, Event.opens, Event.ends, ih, Nat.add_comm 1]
      | text content | characterData content | comment content =>
          simp [namesAfter, Event.opens, Event.ends, ih]

/-- The names that are kept while events go by are those of the open
elements. -/
theorem mem_foldl_namesAfter
    {name : String} {events : List Event} :
    name ∈ events.foldl namesAfter [] ↔ IsOpen name events := by
  rw [List.mem_iff_getElem?, isOpen_iff]
  exact exists_congr fun _ => getElem?_foldl_namesAfter

instance (name : String) (before : List Event) :
    Decidable (IsOpen name before) :=
  decidable_of_iff _ mem_foldl_namesAfter

/-! ## Items -/

/-- Whether the start tag of an item stands at a place with no item open
before it. -/
def OuterItemAt (events : List Event) (place : Nat) : Prop :=
  (∃ name attributes empty,
      events[place]? = some (.start name attributes empty) ∧
        Markup.localName name = itemName) ∧
    ¬ IsOpen itemName (events.take place)

theorem itemsAmong_append
    (around : List String) (events others : List Event) :
    itemsAmong around (events ++ others) =
      itemsAmong around events +
        itemsAmong (events.foldl namesAfter around) others := by
  induction events generalizing around with
  | nil => exact (Nat.zero_add _).symm
  | cons event rest ih =>
      rw [List.cons_append, itemsAmong, itemsAmong, ih, List.foldl_cons,
        Nat.add_assoc]

instance (events : List Event) (place : Nat) :
    Decidable (OuterItemAt events place) :=
  match here : events[place]? with
  | some (.start name _ _) =>
      decidable_of_iff
        (Markup.localName name = itemName ∧
          ¬ IsOpen itemName (events.take place))
        (by simp [OuterItemAt, here])
  | some (.finish _) | some (.text _) | some (.characterData _)
  | some (.comment _) | none =>
      .isFalse (by simp [OuterItemAt, here])

/-- An event begins an item within no other one exactly if such an item stands
at its place. -/
theorem itemsBegun_eq
    {events : List Event} {place : Nat} (inside : place < events.length) :
    itemsBegun ((events.take place).foldl namesAfter []) events[place] =
      if OuterItemAt events place then 1 else 0 := by
  have here : events[place]? = some events[place] :=
    List.getElem?_eq_getElem inside
  cases found : events[place] with
  | start name attributes empty =>
      rw [found] at here
      rw [Document.Growth.itemsBegun_start]
      by_cases within : IsOpen itemName (events.take place)
      · rw [if_pos (mem_foldl_namesAfter.mpr within),
          if_neg fun outer => outer.2 within]
      · rw [if_neg (mt mem_foldl_namesAfter.mp within)]
        by_cases isItem : Markup.localName name = itemName
        · have outer : OuterItemAt events place :=
            ⟨⟨name, attributes, empty, here, isItem⟩, within⟩
          rw [if_pos isItem, if_pos outer]
        · rw [if_neg isItem, if_neg]
          rintro ⟨⟨_, _, _, same, other⟩, -⟩
          cases here.symm.trans same
          exact isItem other
  | finish _ | text _ | characterData _ | comment _ =>
      rw [found] at here
      rw [if_neg]
      · rfl
      · rintro ⟨⟨_, _, _, same, -⟩, -⟩
        cases here.symm.trans same

/-- The items that begin among some events while no item is open are the start
tags of items with no item open before them. -/
theorem itemsAmong_eq_count
    (events : List Event) :
    itemsAmong [] events = Nat.count (OuterItemAt events) events.length := by
  have upTo (place : Nat) (inside : place ≤ events.length) :
      itemsAmong [] (events.take place) =
        Nat.count (OuterItemAt events) place := by
    induction place with
    | zero => rfl
    | succ place ih =>
        have more : place < events.length := inside
        rw [List.take_succ_eq_append_getElem more, itemsAmong_append,
          ih (Nat.le_of_lt more), Nat.count_succ, itemsAmong, itemsAmong,
          itemsBegun_eq more, Nat.add_zero]
  rw [← upTo events.length (Nat.le_refl _), List.take_length]

/-! ## The number of items -/

/-- Acts that are all performed count the items among them. -/
theorem Progress.items_performAll
    {progress final : Progress} {acts : List Act}
    (done : progress.performAll acts = (final, .ok ())) :
    final.items = progress.items + countedItems acts := by
  induction acts generalizing progress with
  | nil =>
      cases done
      rfl
  | cons act rest ih =>
      rw [performAll] at done
      split at done
      · cases done
      · next next performed =>
          rw [ih done]
          cases act with
          | write instruction =>
              rw [Walk.countedItems_write_cons]
              cases written : progress.writer.perform instruction with
              | error fault =>
                  simp only [perform, written, Except.map] at performed
                  cases performed
              | ok writer =>
                  simp only [perform, written, Except.map] at performed
                  cases performed
                  rfl
          | lookUp name =>
              cases performed
              rfl
          | countItem =>
              cases performed
              rw [countedItems, countedItems, List.count_cons_self]
              dsimp only
              omega

namespace Substitution

/-- A template that is filled has had the items among its acts counted,
whatever room there was. -/
theorem items_fillAml
    {setting : Setting} {room : Option Nat} {template : String}
    (filled : (fillAml setting room template).2 = .ok ()) :
    (fillAml setting room template).1.items =
      countedItems
        (Walk.script setting .start
          (Markup.read .standard template).events).1 := by
  simp only [fillAml] at filled ⊢
  split at filled
  · cases filled
  · next progress performed =>
      have items := Progress.items_performAll performed
      rw [Nat.zero_add] at items
      split at filled
      · cases filled
      · cases filled
      · next walked ended =>
          split at filled
          · cases filled
          · exact items

/-- After an AML template has been filled, the number of items is that of the
start tags of items with no item open before them in the template, whatever
has been filled before.  These are the items of its elements that lie in no
other one. -/
theorem itemCount_eq_count
    (substitution : Substitution) (locale : Locale) (room : Option Nat)
    {template : String} (aml : substitution.isAml template = true)
    (filled :
      (substitution.fill locale room template).2.result = .ok ()) :
    let events := (Markup.read .standard template).events.map Prod.fst
    (substitution.fill locale room template).1.itemCount =
        Nat.count (OuterItemAt events) events.length ∧
      Nat.count (OuterItemAt events) events.length =
        Document.outerItemsAll (Document.treesOf events) := by
  intro events
  have done := (fill_of_isAml aml locale room).1.symm.trans filled
  obtain ⟨⟨_, ended⟩, _, walked⟩ := exists_last_of_fillAml done
  obtain ⟨nested, -⟩ := Markup.nested_read ended
  rw [itemCount_of_isAml aml, items_fillAml done,
    Walk.countedItems_script walked, Document.outerItems_treesOf nested]
  exact ⟨itemsAmong_eq_count events, (itemsAmong_eq_count events).symm⟩

/-- A list, after a template with two items that was refused in its second
one. -/
def afterRefusal : Substitution :=
  ((new.bind "p" twoTexts).fill inJune none
    "<Item/><Item><![CDATA[@p!]]></Item>").1

/-- Several roots, with an item whose name has a prefix around an empty one. -/
def itemRoots : String :=
  "<x:Item><a>@p</a><Item/></x:Item><AML><Item/></AML><Item/>"

/-- The count starts anew and includes an item with a prefix and empty ones. -/
theorem itemCount_eq_count_of_roots :
    afterRefusal.itemCount = 2 ∧
      (afterRefusal.fill inJune none itemRoots).1.itemCount = 3 := by
  have places :
      let events :=
        (Markup.read .standard itemRoots).events.map Prod.fst
      Nat.count (OuterItemAt events) events.length = 3 := by
    decide +kernel
  have filled :
      (afterRefusal.fill inJune none itemRoots).2.result.toOption =
        some () := by
    decide +kernel
  obtain ⟨counted, -⟩ :=
    itemCount_eq_count afterRefusal inJune none (by decide +kernel)
      (eq_ok_of_toOption filled)
  exact ⟨by decide +kernel, counted.trans places⟩

end Substitution

end AmlExchange.Template
