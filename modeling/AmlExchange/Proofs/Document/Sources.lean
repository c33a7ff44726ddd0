import AmlExchange.Document.Reading
import AmlExchange.Proofs.Document.Heights
import AmlExchange.Proofs.Document.Planting

/-!
# Where trees come from

Trees are read from markup or copied from a document.  Either way only their
leaves have values, so that they may be planted.
-/

namespace AmlExchange.Document

/-! ## Reading -/

/-- Whether only the leaves of what has been read have values. -/
structure Growth.Valid (growth : Growth) : Prop where
  frames : ∀ frame ∈ growth.frames, ValidAll frame.children
  finished : ValidAll growth.finished

theorem valid_close
    {frame : Frame} (children : ValidAll frame.children) :
    Valid frame.close := by
  rw [Frame.close, Valid]
  constructor
  · intro some
    have present : frame.children.isEmpty = false := by
      simpa using some
    rw [present]
    rfl
  · rw [validAll_iff] at children ⊢
    intro tree member
    exact children tree (List.mem_reverse.mp member)

namespace Growth

theorem Valid.add
    {growth : Growth} (valid : growth.Valid) {tree : Element}
    (added : Document.Valid tree) :
    (growth.add tree).Valid := by
  rw [Growth.add]
  split
  · next none =>
      refine ⟨?_, added, valid.finished⟩
      rw [none]
      exact nofun
  · next frame outer some =>
      have frames := valid.frames
      rw [some, List.forall_mem_cons] at frames
      refine ⟨?_, valid.finished⟩
      exact List.forall_mem_cons.mpr ⟨⟨added, frames.1⟩, frames.2⟩

theorem Valid.addText
    {growth : Growth} (valid : growth.Valid) (text : String) :
    (growth.addText text).Valid := by
  rw [Growth.addText]
  split
  · exact valid
  · next frame outer some =>
      have frames := valid.frames
      rw [some, List.forall_mem_cons] at frames
      refine ⟨?_, valid.finished⟩
      exact List.forall_mem_cons.mpr ⟨frames.1, frames.2⟩

theorem Valid.step
    {growth : Growth} (valid : growth.Valid) (event : Markup.Event) :
    (growth.step event).Valid := by
  cases event with
  | start name attributes empty =>
      rw [Growth.step]
      split
      · exact valid.add (valid_close trivial)
      · refine ⟨?_, valid.finished⟩
        exact List.forall_mem_cons.mpr ⟨trivial, valid.frames⟩
  | finish name =>
      rw [Growth.step]
      split
      · exact valid
      · next frame outer some =>
          have frames := valid.frames
          rw [some, List.forall_mem_cons] at frames
          apply Valid.add
          · exact ⟨frames.2, valid.finished⟩
          · exact valid_close frames.1
  | text content | characterData content => exact valid.addText content
  | comment content => exact valid

theorem Valid.foldl
    {growth : Growth} (valid : growth.Valid) (events : List Markup.Event) :
    (events.foldl Growth.step growth).Valid := by
  induction events generalizing growth with
  | nil => exact valid
  | cons event rest ih => exact ih (valid.step event)

end Growth

theorem validAll_treesOf
    (events : List Markup.Event) :
    ValidAll (treesOf events) := by
  have start : Growth.start.Valid := ⟨nofun, trivial⟩
  have finished := (start.foldl events).finished
  rw [treesOf]
  rw [validAll_iff] at finished ⊢
  intro tree member
  exact finished tree (List.mem_reverse.mp member)

theorem linked_new
    (locale : Locale) :
    (new locale).Linked := by
  refine ⟨⟨?_, fun _ => List.nodup_nil, ?_⟩, ?_⟩
  · intro parent child
    exact ⟨nofun, nofun⟩
  · exact ⟨fun id => .intro id nofun⟩
  · exact nofun

theorem ofTrees_eq_plantAll
    (locale : Locale) (stored : Bool) (trees : List Element) :
    ofTrees locale stored trees = (new locale).plantAll stored trees := by
  simp [ofTrees, plantAll, new, nextId]

theorem plant_eq_plantAll
    (document : Document) (tree : Element) :
    document.plant tree = document.plantAll false [tree] := by
  rw [plant, plantAll, layoutAll, layoutAll, List.append_nil]

/-- A document that is read from markup is linked. -/
theorem linked_parse
    {limits : Markup.Limits} {locale : Locale} {stored : Bool}
    {text : String} {document : Document}
    (parsed : parse limits locale stored text = .ok document) :
    document.Linked := by
  rw [parse] at parsed
  split at parsed
  · cases parsed
  · cases parsed
    rw [ofTrees_eq_plantAll]
    exact (linked_new locale).plantAll (validAll_treesOf _)

/-! ## Copying -/

theorem mapAll_eq_map
    {α β : Type} (change : α → β) (trees : List (Tree α)) :
    Tree.mapAll change trees = trees.map (Tree.map change) := by
  induction trees with
  | nil => rfl
  | cons tree rest ih => rw [Tree.mapAll, List.map_cons, ih]

namespace Linked

variable {document : Document}

theorem content_of_children
    (linked : document.Linked) {id : NodeId}
    (some : document.children id ≠ []) :
    document.content id = .null := by
  obtain ⟨node, found⟩ := exists_of_children some
  rw [children_of_node? found] at some
  rw [content_of_node? found]
  exact linked.emptied id node found some

theorem valid_outlineTo
    (linked : document.Linked) (depth : Nat) (id : NodeId) :
    Valid ((document.outlineTo depth id).map document.label) := by
  induction depth generalizing id with
  | zero =>
      rw [outlineTo, Tree.map, Valid]
      exact ⟨fun some => absurd rfl some, trivial⟩
  | succ depth ih =>
      rw [outlineTo, Tree.map, Valid]
      constructor
      · intro some
        apply linked.content_of_children
        rintro none
        rw [none] at some
        exact some rfl
      · rw [validAll_iff, mapAll_eq_map, List.forall_mem_map,
          List.forall_mem_map]
        exact fun child _ => ih child

/-- Only the leaves of a copied tree have values. -/
theorem valid_tree
    (linked : document.Linked) (id : NodeId) :
    Valid (document.tree id) :=
  linked.valid_outlineTo _ id

theorem mem_outline_self
    (linked : document.Linked) (id : NodeId) :
    id ∈ (document.outline id).toList := by
  rw [linked.outline_eq]
  exact List.mem_cons_self

/-- The tree of an element consists of the trees of its children. -/
theorem tree_eq
    (linked : document.Linked) (id : NodeId) :
    document.tree id =
      .node (document.label id)
        ((document.children id).map document.tree) := by
  rw [tree, linked.outline_eq, Tree.map, mapAll_eq_map, List.map_map]
  rfl

theorem plant
    (linked : document.Linked) {tree : Element} (valid : Valid tree) :
    (document.plant tree).Linked := by
  rw [plant_eq_plantAll]
  exact linked.plantAll ⟨valid, trivial⟩

end Linked

end AmlExchange.Document
