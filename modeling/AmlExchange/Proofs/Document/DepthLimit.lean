import AmlExchange.Proofs.Document.Depths
import AmlExchange.Proofs.Document.OuterItems
import AmlExchange.Proofs.Document.ReadElements
import AmlExchange.Proofs.Markup.Bounds

/-!
# What the bound on the depth says of a document

The bound counts the elements that are open at a time, and an empty tag opens
none.  So below an element of a document that is read there are one more level
at most than the bound allows, and the last of these levels is made of empty
tags (`depth_of_parse`).
-/

namespace AmlExchange.Document

open Markup (Event Limits Shallow)
open Text (Position)

/-! ## The depth of what has grown so far -/

namespace Growth

variable {depth : Nat} {growth : Growth}

/-- Whether the open elements and the children that they have so far keep a
depth. -/
def FramesKeep (depth : Nat) : List Frame → Prop
  | [] => True
  | frame :: outer =>
      outer.length + 1 + Tree.depthAll frame.children ≤ depth ∧
        FramesKeep depth outer

/-- Whether what has grown so far keeps a depth. -/
def Keeps (depth : Nat) (growth : Growth) : Prop :=
  Tree.depthAll growth.finished ≤ depth ∧ FramesKeep depth growth.frames

theorem depthAll_reverse
    {α : Type} (trees : List (Tree α)) :
    Tree.depthAll trees.reverse = Tree.depthAll trees := by
  apply eq_of_forall_ge_iff
  intro depth
  simp only [Tree.depthAll_le_iff, List.mem_reverse]

theorem depth_close
    (frame : Frame) :
    frame.close.depth = Tree.depthAll frame.children + 1 := by
  rw [Frame.close, Tree.depth, depthAll_reverse]

/-- A tree is added below all open elements. -/
theorem keeps_add_iff
    (tree : Element) :
    (growth.add tree).Keeps depth ↔
      growth.Keeps depth ∧ growth.frames.length + tree.depth ≤ depth := by
  obtain ⟨frames, finished⟩ := growth
  cases frames with
  | nil =>
      show Tree.depthAll (tree :: finished) ≤ depth ∧ _ ↔ _
      rw [Tree.depthAll, Nat.max_le, Keeps, List.length_nil, Nat.zero_add]
      constructor
      · rintro ⟨⟨added, kept⟩, frames⟩
        exact ⟨⟨kept, frames⟩, added⟩
      · rintro ⟨⟨kept, frames⟩, added⟩
        exact ⟨⟨added, kept⟩, frames⟩
  | cons frame outer =>
      show
        _ ∧ outer.length + 1 + Tree.depthAll (tree :: frame.children) ≤ depth ∧
            FramesKeep depth outer ↔
          _
      rw [Tree.depthAll, Keeps, FramesKeep, List.length_cons]
      constructor
      · rintro ⟨kept, inner, frames⟩
        exact ⟨⟨kept, by omega, frames⟩, by omega⟩
      · rintro ⟨⟨kept, inner, frames⟩, added⟩
        exact ⟨kept, by omega, frames⟩

/-- Whether an event begins an element, by a start tag or by an empty one. -/
def begins : Event → Bool
  | .start _ _ _ => true
  | .finish _ | .text _ | .characterData _ | .comment _ => false

theorem begins_iff
    {event : Event} :
    begins event = true ↔ event.opens = true ∨ event.tags ≠ [event] := by
  cases event with
  | start name attributes empty =>
      cases empty <;> simp [begins, Event.opens, Event.tags]
  | finish _ | text _ | characterData _ | comment _ =>
      simp [begins, Event.opens, Event.tags]

/-- An element that begins lies below all open ones.  One that ends leaves what
has grown as deep as it was. -/
theorem keeps_step_iff
    (event : Event) :
    (growth.step event).Keeps depth ↔
      growth.Keeps depth ∧
        (begins event = true → growth.frames.length < depth) := by
  obtain ⟨frames, finished⟩ := growth
  have idle (same : begins event = false) :
      Keeps depth ⟨frames, finished⟩ ↔
        Keeps depth ⟨frames, finished⟩ ∧
          (begins event = true → frames.length < depth) := by
    simp [same]
  cases event with
  | start name attributes empty =>
      cases empty with
      | true =>
          rw [step, if_pos rfl, keeps_add_iff, depth_close]
          exact and_congr_right fun _ => (imp_iff_right rfl).symm
      | false =>
          show
            Tree.depthAll finished ≤ depth ∧
                frames.length + 1 ≤ depth ∧ FramesKeep depth frames ↔
              (_ ∧ _) ∧ (true = true → frames.length < depth)
          constructor
          · rintro ⟨kept, inner, others⟩
            exact ⟨⟨kept, others⟩, fun _ => inner⟩
          · rintro ⟨⟨kept, others⟩, room⟩
            exact ⟨kept, room rfl, others⟩
  | finish name =>
      rw [← idle rfl]
      cases frames with
      | nil => exact Iff.rfl
      | cons frame outer =>
          show (add ⟨outer, finished⟩ frame.close).Keeps depth ↔ _
          rw [keeps_add_iff, depth_close]
          show
            (_ ∧ _) ∧
                outer.length + (Tree.depthAll frame.children + 1) ≤ depth ↔
              _ ∧ outer.length + 1 + Tree.depthAll frame.children ≤ depth ∧ _
          constructor
          · rintro ⟨⟨kept, others⟩, closed⟩
            exact ⟨kept, by omega, others⟩
          · rintro ⟨kept, closed, others⟩
            exact ⟨⟨kept, others⟩, by omega⟩
  | text content | characterData content =>
      rw [← idle rfl]
      cases frames <;> exact Iff.rfl
  | comment content => exact idle rfl

theorem length_frames_step
    (event : Event) :
    (growth.step event).frames.length = event.level growth.frames.length := by
  obtain ⟨frames, finished⟩ := growth
  cases event with
  | start name attributes empty =>
      cases empty <;> cases frames <;> rfl
  | finish name =>
      rcases frames with _ | ⟨frame, _ | ⟨next, outer⟩⟩ <;> rfl
  | text content | characterData content => cases frames <;> rfl
  | comment content => rfl

/-- What has grown keeps a depth exactly if every element begins within fewer
open ones. -/
theorem keeps_foldl_iff
    (bounded : 0 < depth) (events : List (Event × Position)) :
    ((events.map Prod.fst).foldl step growth).Keeps depth ↔
      growth.Keeps depth ∧
        Shallow depth growth.frames.length (events.map Prod.fst) ∧
        Markup.RoomFrom depth (fun _ => true) growth.frames.length events := by
  induction events generalizing growth with
  | nil => simp [Shallow, Markup.RoomFrom]
  | cons entry rest ih =>
      obtain ⟨event, place⟩ := entry
      rw [List.map_cons, List.foldl_cons, ih, keeps_step_iff,
        length_frames_step, begins_iff, Shallow, Markup.RoomFrom]
      constructor
      · rintro ⟨⟨kept, room⟩, shallow, others⟩
        exact
          ⟨kept, ⟨fun opens _ => room (.inl opens), shallow⟩,
            fun _ empty => room (.inr empty), others⟩
      · rintro ⟨kept, ⟨opened, shallow⟩, empty, others⟩
        refine ⟨⟨kept, ?_⟩, shallow, others⟩
        rintro (opens | short)
        · exact opened opens bounded
        · exact empty rfl short

end Growth

/-- Trees keep a depth exactly if all their elements begin within fewer open
ones. -/
theorem depthAll_treesOf_le_iff
    {depth : Nat} (bounded : 0 < depth) {events : List (Event × Position)}
    (nested : Markup.Nested [] (events.map Prod.fst)) :
    Tree.depthAll (treesOf (events.map Prod.fst)) ≤ depth ↔
      Shallow depth 0 (events.map Prod.fst) ∧
        Markup.RoomFrom depth (fun _ => true) 0 events := by
  have grown := @Growth.keeps_foldl_iff depth .start bounded events
  have closed := (@Growth.items_foldl _ [] nested Growth.start rfl).2
  have started : Growth.start.Keeps depth := ⟨Nat.zero_le depth, trivial⟩
  rw [Growth.Keeps, closed] at grown
  rw [treesOf, Growth.depthAll_reverse]
  constructor
  · exact fun kept => (grown.mp ⟨kept, trivial⟩).2
  · exact fun room => (grown.mpr ⟨started, room⟩).1

/-! ## The depth of elements in a document -/

/-- A tree has as many levels as there are elements one below the other in the
document. -/
theorem Linked.depth_tree_le_iff
    {document : Document} (linked : document.Linked) (levels : Nat)
    (id : NodeId) :
    (document.tree id).depth ≤ levels ↔
      ∀ element, document.Below id element →
        (document.ancestors element).length <
          (document.ancestors id).length + levels := by
  induction levels generalizing id with
  | zero =>
      rw [linked.tree_eq, Tree.depth]
      constructor
      · intro flat
        exact absurd flat (Nat.not_succ_le_zero _)
      · intro none
        exact absurd (none id .refl) (Nat.lt_irrefl _)
  | succ levels ih =>
      have lower {child : NodeId} (member : child ∈ document.children id) :
          (document.ancestors child).length =
            (document.ancestors id).length + 1 := by
        rw [linked.ancestors_of_parent (linked.below_child member)]
        rfl
      rw [linked.tree_eq, Tree.depth, Nat.succ_le_succ_iff,
        Tree.depthAll_le_iff, List.forall_mem_map]
      constructor
      · intro shallow element below
        rcases below.cases_head with rfl | ⟨child, above, further⟩
        · exact Nat.lt_add_of_pos_right (Nat.succ_pos levels)
        · have member := (linked.wiring.links id child).mpr above
          have short := (ih child).mp (shallow child member) element further
          rw [lower member] at short
          omega
      · intro short child member
        rw [ih]
        intro element further
        have reached :=
          short element (.head (linked.below_child member) further)
        rw [lower member]
        omega

/-- Where everything hangs from the roots, these have as many levels as there
are elements one below the other. -/
theorem Linked.depth_roots_le_iff
    {document : Document} (linked : document.Linked)
    (hung : ∀ id node, document.node? id = some node →
      node.parent ≠ .detached)
    (levels : Nat) :
    (∀ root ∈ document.roots, (document.tree root).depth ≤ levels) ↔
      ∀ id < document.nodes.size,
        (document.ancestors id).length < levels := by
  have levelsBelow {root : NodeId} (isRoot : root ∈ document.roots) :
      (document.tree root).depth ≤ levels ↔
        ∀ element, document.Below root element →
          (document.ancestors element).length < levels := by
    obtain ⟨node, known, top⟩ := mem_roots_iff.mp isRoot
    have alone : document.ancestors root = [] := by
      apply ancestors_of_root
      rw [parent?_of_node? known, top]
      rfl
    rw [linked.depth_tree_le_iff, alone, List.length_nil, Nat.zero_add]
  constructor
  · intro shallow id before
    obtain ⟨node, known⟩ := exists_node?_iff.mpr before
    obtain ⟨root, isRoot, below⟩ := linked.exists_root hung known
    exact (levelsBelow isRoot).mp (shallow root isRoot) id below
  · intro short root isRoot
    rw [levelsBelow isRoot]
    intro element below
    obtain ⟨node, known, -⟩ := mem_roots_iff.mp isRoot
    obtain ⟨found, elementKnown⟩ := linked.known_of_below known below
    exact short element (lt_of_node? elementKnown)

/-! ## Documents that are read -/

/-- The elements of a document lie within fewer others than a depth exactly if
all elements of its text begin within fewer open ones. -/
theorem ancestors_lt_iff
    {limits : Limits} {locale : Locale} {stored : Bool} {text : String}
    {document : Document}
    (parsed : parse limits locale stored text = .ok document)
    {depth : Nat} (bounded : 0 < depth) :
    (∀ id < document.nodes.size, (document.ancestors id).length < depth) ↔
      Shallow depth 0 ((Markup.read limits text).events.map Prod.fst) ∧
        Markup.RoomFrom depth (fun _ => true) 0
          (Markup.read limits text).events := by
  have linked := linked_parse parsed
  have hung (id : NodeId) (node : Node)
      (known : document.node? id = some node) :=
    (marks_parse parsed known).2
  obtain ⟨_, ⟨⟨place, ended⟩, rfl⟩, rfl⟩ := parse_eq_ok_iff.mp parsed
  obtain ⟨nested, -⟩ := Markup.nested_read ended
  have roots :=
    @forall_mem_roots_ofTrees_iff locale stored _
      (validAll_treesOf ((Markup.read limits text).events.map Prod.fst))
      fun tree => tree.depth ≤ depth
  rw [← linked.depth_roots_le_iff hung, roots, ← Tree.depthAll_le_iff,
    depthAll_treesOf_le_iff bounded nested]

/-- An empty tag makes the element that a start tag and an end tag make. -/
theorem Growth.foldl_tags
    (growth : Growth) (event : Event) :
    event.tags.foldl step growth = growth.step event := by
  cases event with
  | start name attributes empty => cases empty <;> rfl
  | finish _ | text _ | characterData _ | comment _ => rfl

theorem treesOf_respelledEvents
    (chosen : Position → Bool) (events : List (Event × Position)) :
    treesOf (Markup.respelledEvents chosen events) =
      treesOf (events.map Prod.fst) := by
  have same (growth : Growth) :
      (Markup.respelledEvents chosen events).foldl Growth.step growth =
        (events.map Prod.fst).foldl Growth.step growth := by
    induction events generalizing growth with
    | nil => rfl
    | cons entry rest ih =>
        obtain ⟨event, place⟩ := entry
        rw [Markup.respelledEvents, List.foldl_append, ih, List.map_cons,
          List.foldl_cons]
        split
        · rw [Growth.foldl_tags]
        · rfl
  rw [treesOf, treesOf, same]

/-- A document that is read has no element within more others than the bound
allows, and it keeps the bound exactly if all empty tags of its text have room.
A text with some of them written as two is read, as the same document, exactly
if the text itself is and these have room. -/
theorem depth_of_parse
    {limits : Limits} (bounded : 0 < limits.depth) (locale : Locale)
    (stored : Bool) (text : String) :
    let events := (Markup.read .unlimited text).events
    (∀ document, parse limits locale stored text = .ok document →
      (∀ id < document.nodes.size,
          (document.ancestors id).length ≤ limits.depth) ∧
        ((∀ id < document.nodes.size,
            (document.ancestors id).length < limits.depth) ↔
          Markup.HaveRoom limits.depth (fun _ => true) events)) ∧
      ∀ chosen document,
        let respelled := Markup.respell .unlimited chosen text
        parse limits locale stored respelled = .ok document ↔
          parse limits locale stored text = .ok document ∧
            Markup.HaveRoom limits.depth chosen events ∧
            (0 < limits.size → respelled.utf8ByteSize ≤ limits.size) := by
  intro events
  constructor
  · intro document parsed
    have shallow := Markup.shallow_read limits text
    have deepest := Markup.haveRoom_succ bounded (fun _ => true) text
    have within := ancestors_lt_iff parsed bounded
    have below := ancestors_lt_iff parsed (Nat.succ_pos limits.depth)
    obtain ⟨place, ended⟩ := delivered_of_parse parsed
    obtain ⟨-, same⟩ := Markup.within_of_ended ended
    rw [Markup.haveRoom_iff] at deepest
    constructor
    · have short := below.mpr ⟨Markup.shallow_succ bounded shallow, deepest⟩
      exact fun id before => Nat.le_of_lt_succ (short id before)
    · rw [within, Markup.haveRoom_iff]
      rw [same] at shallow ⊢
      exact and_iff_right shallow
  · intro chosen document respelled
    have trees := treesOf_respelledEvents chosen events
    rw [parse_eq_ok_iff, parse_eq_ok_iff]
    constructor
    · rintro ⟨delivered, read, rfl⟩
      obtain ⟨reached, room, small, rfl⟩ :=
        (Markup.delivered_respell_iff bounded).mp read
      rw [trees]
      exact ⟨⟨_, reached, rfl⟩, room, small⟩
    · rintro ⟨⟨delivered, reached, rfl⟩, room, small⟩
      obtain ⟨-, -, same⟩ := Markup.delivered_iff.mp reached
      rw [← same, ← trees]
      rw [← same] at reached
      exact
        ⟨_, (Markup.delivered_respell_iff bounded).mpr
          ⟨reached, room, small, rfl⟩, rfl⟩

/-- An element in another, as one tag and as two, within two levels. -/
theorem same_of_two_levels :
    ∃ document,
      parse ⟨2, 0⟩ english false "<a><b/></a>" = .ok document ∧
        (∀ id < document.nodes.size, (document.ancestors id).length ≤ 2) ∧
        parse ⟨2, 0⟩ english false "<a><b></b></a>" = .ok document := by
  have first :
      (parse ⟨2, 0⟩ english false "<a><b/></a>").toOption.map
          (fun document =>
            (document.nodes.size, (document.ancestors 0).length,
              (document.ancestors 1).length)) =
        some (2, 0, 1) := by
    decide +kernel
  have respelled :
      Markup.respell .unlimited (fun _ => true) "<a><b/></a>" =
        "<a><b></b></a>" := by
    decide +kernel
  obtain ⟨document, read, facts⟩ := Option.map_eq_some_iff.mp first
  obtain ⟨size, levels⟩ := Prod.mk.inj facts
  obtain ⟨outer, inner⟩ := Prod.mk.inj levels
  have parsed := eq_ok_of_toOption read
  obtain ⟨whole, again⟩ :=
    @depth_of_parse ⟨2, 0⟩ (by decide) english false "<a><b/></a>"
  obtain ⟨short, room⟩ := whole document parsed
  have flat :
      ∀ id < document.nodes.size, (document.ancestors id).length < 2 := by
    intro id before
    rw [size] at before
    obtain rfl | rfl : id = 0 ∨ id = 1 := by omega
    · exact outer.trans_lt (by decide)
    · exact inner.trans_lt (by decide)
  refine ⟨document, parsed, short, ?_⟩
  rw [← respelled]
  exact (again _ document).mpr ⟨parsed, room.mp flat, nofun⟩

/-- An empty tag is read one level below the bound, where the start tag that it
stands for is refused. -/
theorem empty_tag_below_bound :
    (¬ ∀ (limits : Limits) (locale : Locale) (stored : Bool) (text : String)
        (document : Document),
      0 < limits.depth → parse limits locale stored text = .ok document →
        ∀ id < document.nodes.size,
          (document.ancestors id).length + 1 ≤ limits.depth) ∧
    ¬ ∀ (limits : Limits) (locale : Locale) (stored : Bool) (text : String)
        (chosen : Position → Bool),
      0 < limits.depth → limits.size = 0 →
        (parse limits locale stored
            (Markup.respell .unlimited chosen text)).isOk =
          (parse limits locale stored text).isOk := by
  have first :
      (parse ⟨1, 0⟩ english false "<a><b/></a>").toOption.map
          (fun document =>
            (document.nodes.size, (document.ancestors 1).length)) =
        some (2, 1) := by
    decide +kernel
  obtain ⟨document, read, facts⟩ := Option.map_eq_some_iff.mp first
  obtain ⟨size, level⟩ := Prod.mk.inj facts
  have parsed := eq_ok_of_toOption read
  constructor
  · intro short
    have kept :=
      short ⟨1, 0⟩ english false "<a><b/></a>" document (by decide) parsed 1
        (Nat.lt_of_lt_of_eq (by decide) size.symm)
    rw [level] at kept
    exact absurd kept (by decide)
  · intro same
    have spelled :=
      same ⟨1, 0⟩ english false "<a><b/></a>" (fun _ => true) (by decide) rfl
    exact absurd spelled (by decide +kernel)

end AmlExchange.Document
