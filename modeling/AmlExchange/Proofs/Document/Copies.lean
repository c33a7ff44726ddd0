import AmlExchange.Proofs.Document.CopyWalk
import AmlExchange.Proofs.Document.RoundTrip

/-!
# Copies of trees

Cloning and importing append a copy of a tree and change nothing else
(`appends_copies`).  The elements of the copy take consecutive places in
document order.  Each agrees with the element of which it is the copy in all
but its marks, once the places to which that one refers are replaced by those
of their copies (`Copies`); so no copy refers to an element of the source.
-/

namespace AmlExchange.Document

/-! ## Trees of consecutive places -/

mutual

/-- The places of a tree that is laid out. -/
def numbered {α : Type} (first : NodeId) : Tree α → Tree NodeId
  | .node _ children => .node first (numberedAll (first + 1) children)

/-- The places of some trees that are laid out one after the other. -/
def numberedAll {α : Type} (first : NodeId) : List (Tree α) → List (Tree NodeId)
  | [] => []
  | tree :: rest =>
      numbered first tree :: numberedAll (first + tree.size) rest

end

mutual

theorem toList_numbered
    {α : Type} (first : NodeId) (tree : Tree α) :
    (numbered first tree).toList = List.range' first tree.size := by
  cases tree with
  | node label children =>
      rw [numbered, Tree.toList, toListAll_numberedAll, Tree.size,
        List.range'_succ]

theorem toListAll_numberedAll
    {α : Type} (first : NodeId) (trees : List (Tree α)) :
    Tree.toListAll (numberedAll first trees) =
      List.range' first (Tree.sizeAll trees) := by
  cases trees with
  | nil => rfl
  | cons tree rest =>
      rw [numberedAll, Tree.toListAll, toList_numbered, toListAll_numberedAll,
        Tree.sizeAll, List.range'_append_1]

end

mutual

theorem numbered_map
    {α β : Type} (change : α → β) (first : NodeId) (tree : Tree α) :
    numbered first (tree.map change) = numbered first tree := by
  cases tree with
  | node label children =>
      rw [Tree.map, numbered, numbered, numberedAll_mapAll]

theorem numberedAll_mapAll
    {α β : Type} (change : α → β) (first : NodeId) (trees : List (Tree α)) :
    numberedAll first (Tree.mapAll change trees) = numberedAll first trees := by
  cases trees with
  | nil => rfl
  | cons tree rest =>
      rw [Tree.mapAll, numberedAll, numberedAll, numbered_map, size_map,
        numberedAll_mapAll]

end

mutual

theorem map_congr
    {α β : Type} {change other : α → β} (tree : Tree α)
    (same : ∀ label ∈ tree.toList, change label = other label) :
    tree.map change = tree.map other := by
  cases tree with
  | node label children =>
      rw [Tree.toList, List.forall_mem_cons] at same
      rw [Tree.map, Tree.map, same.1, mapAll_congr children same.2]

theorem mapAll_congr
    {α β : Type} {change other : α → β} (trees : List (Tree α))
    (same : ∀ label ∈ Tree.toListAll trees, change label = other label) :
    Tree.mapAll change trees = Tree.mapAll other trees := by
  cases trees with
  | nil => rfl
  | cons tree rest =>
      rw [Tree.toListAll, List.forall_mem_append] at same
      rw [Tree.mapAll, Tree.mapAll, map_congr tree same.1,
        mapAll_congr rest same.2]

end

mutual

/-- The labels of a tree without repetition, replaced by the places where they
come in document order. -/
theorem numbered_eq_map
    (first : NodeId) (tree : Tree NodeId) (once : tree.toList.Nodup) :
    numbered first tree =
      tree.map fun label => first + tree.toList.idxOf label := by
  cases tree with
  | node root children =>
      rw [Tree.toList, List.nodup_cons] at once
      rw [numbered, Tree.map, Tree.toList, List.idxOf_cons_self,
        numberedAll_eq_mapAll (first + 1) children once.2]
      congr 1
      apply mapAll_congr
      intro label member
      have differs : root ≠ label := by
        rintro rfl
        exact once.1 member
      rw [List.idxOf_cons_ne _ differs, Nat.add_right_comm, Nat.add_assoc]

theorem numberedAll_eq_mapAll
    (first : NodeId) (trees : List (Tree NodeId))
    (once : (Tree.toListAll trees).Nodup) :
    numberedAll first trees =
      Tree.mapAll
        (fun label => first + (Tree.toListAll trees).idxOf label) trees := by
  cases trees with
  | nil => rfl
  | cons tree rest =>
      rw [Tree.toListAll, List.nodup_append] at once
      obtain ⟨onceTree, onceRest, apart⟩ := once
      rw [numberedAll, Tree.mapAll, numbered_eq_map first tree onceTree,
        numberedAll_eq_mapAll _ rest onceRest, Tree.toListAll]
      congr 1
      · apply map_congr
        intro label member
        rw [List.idxOf_append_of_mem member]
      · apply mapAll_congr
        intro label member
        have absent : label ∉ tree.toList :=
          fun within => apart label within label member rfl
        rw [List.idxOf_append_of_notMem absent, length_toList, Nat.add_assoc]

end

theorem label_map
    {α β : Type} (change : α → β) (tree : Tree α) :
    (tree.map change).label = change tree.label := by
  cases tree
  rw [Tree.map]
  rfl

theorem label_outline
    (document : Document) (id : NodeId) :
    (document.outline id).label = id := by
  rw [outline]
  cases document.nodes.size <;> rfl

/-! ## Trees that are laid out -/

section

variable {document : Document} {stored : Bool}

mutual

theorem outline_of_layout
    (linked : document.Linked) {parent : Parent} {first : NodeId}
    (tree : Element)
    (laid : ∀ node id, (node, id) ∈
      (layout stored parent first tree).zipIdx first →
        document.node? id = some node) :
    document.outline first = numbered first tree := by
  cases tree with
  | node label children =>
      rw [layout, List.zipIdx_cons] at laid
      have root := laid _ _ List.mem_cons_self
      have below :=
        outlines_of_layoutAll linked children fun node id member =>
          laid node id (List.mem_cons_of_mem _ member)
      rw [linked.outline_eq, children_of_node? root, below, numbered]

theorem outlines_of_layoutAll
    (linked : document.Linked) {parent : Parent} {first : NodeId}
    (trees : List Element)
    (laid : ∀ node id, (node, id) ∈
      (layoutAll stored parent first trees).zipIdx first →
        document.node? id = some node) :
    (rootPlaces first trees).map document.outline =
      numberedAll first trees := by
  cases trees with
  | nil => rfl
  | cons tree rest =>
      rw [layoutAll, List.zipIdx_append, length_layout] at laid
      have here :=
        outline_of_layout linked tree fun node id member =>
          laid node id (List.mem_append_left _ member)
      have others :=
        outlines_of_layoutAll linked rest fun node id member =>
          laid node id (List.mem_append_right _ member)
      rw [rootPlaces, List.map_cons, here, others, numberedAll]

end

end

mutual

theorem marks_of_mem_layout
    {stored : Bool} {parent : Parent} {first : NodeId} {tree : Element}
    {node : Node} (member : node ∈ layout stored parent first tree) :
    node.readOnly = false ∧ node.stored = stored := by
  cases tree with
  | node label children =>
      rw [layout, List.mem_cons] at member
      rcases member with rfl | member
      · exact ⟨rfl, rfl⟩
      · exact marks_of_mem_layoutAll member

theorem marks_of_mem_layoutAll
    {stored : Bool} {parent : Parent} {first : NodeId} {trees : List Element}
    {node : Node} (member : node ∈ layoutAll stored parent first trees) :
    node.readOnly = false ∧ node.stored = stored := by
  cases trees with
  | nil => cases member
  | cons tree rest =>
      rw [layoutAll, List.mem_append] at member
      rcases member with member | member
      · exact marks_of_mem_layout member
      · exact marks_of_mem_layoutAll member

end

/-! ## Copies -/

/-- A place that refers to another element after elements have moved. -/
def Parent.moved (place : NodeId → NodeId) : Parent → Parent
  | .attached parent => .attached (place parent)
  | .root => .root
  | .detached => .detached

/-- The place of the copy of an element, if the copies of an outline follow
each other in document order from a place on. -/
def copyPlace (source : Document) (id first element : NodeId) : NodeId :=
  first + (source.outline id).toList.idxOf element

/-- Whether the tree at a place is a copy of the one that hangs from an element
of a source, and hangs itself from a given place. -/
structure Copies (source : Document) (id : NodeId) (parent : Parent)
    (document : Document) (first : NodeId) : Prop where
  /-- No element is copied twice. -/
  once : (source.outline id).toList.Nodup
  outline :
    document.outline first =
      (source.outline id).map (source.copyPlace id first)
  /-- The copies take consecutive places in document order. -/
  order :
    (document.outline first).toList =
      List.range' first (source.outline id).toList.length
  tree : document.tree first = source.tree id
  /-- A copy has the places of the copies for the places to which its original
  refers, and no marks. -/
  node : ∀ element ∈ (source.outline id).toList, ∀ node,
    source.node? element = some node →
      document.node? (source.copyPlace id first element) =
        some
          { label := node.label
            children := node.children.map (source.copyPlace id first)
            parent :=
              if element = id then parent
              else node.parent.moved (source.copyPlace id first)
            readOnly := false
            stored := false }

section

variable {source document : Document} {id first : NodeId} {parent : Parent}

theorem copyPlace_self
    (linked : source.Linked) :
    source.copyPlace id first id = first := by
  rw [copyPlace, linked.outline_eq, Tree.toList, List.idxOf_cons_self]
  rfl

/-- Where an outline is copied, so are the children of its root and their
outlines. -/
theorem children_of_outline
    (sourceLinked : source.Linked) (linked : document.Linked)
    {element : NodeId} {place : NodeId → NodeId}
    (outline :
      document.outline (place element) =
        (source.outline element).map place) :
    document.children (place element) = (source.children element).map place ∧
      ∀ child ∈ source.children element,
        document.outline (place child) = (source.outline child).map place := by
  rw [linked.outline_eq, sourceLinked.outline_eq, Tree.map, mapAll_eq_map,
    List.map_map] at outline
  have below := (Tree.node.inj outline).2
  have children := congrArg (List.map Tree.label) below
  simp only [List.map_map, Function.comp_def, label_map, label_outline,
    List.map_id'] at children
  rw [children, List.map_map] at below
  exact ⟨children, List.map_inj_left.mp below⟩

/-- A copied outline goes with a copy of each outline that is part of it. -/
theorem outline_copyPlace
    (sourceLinked : source.Linked) (linked : document.Linked)
    (outline :
      document.outline first =
        (source.outline id).map (source.copyPlace id first))
    {element : NodeId} (below : source.Below id element) :
    document.outline (source.copyPlace id first element) =
      (source.outline element).map (source.copyPlace id first) := by
  induction below with
  | refl => rwa [copyPlace_self sourceLinked]
  | @tail above element _ hangs ih =>
      apply (children_of_outline sourceLinked linked ih).2
      exact (sourceLinked.wiring.links above element).mpr hangs

theorem label_copyPlace
    (outline :
      document.outline first =
        (source.outline id).map (source.copyPlace id first))
    (tree : document.tree first = source.tree id) {element : NodeId}
    (member : element ∈ (source.outline id).toList) :
    document.label (source.copyPlace id first element) =
      source.label element := by
  have same := congrArg Tree.toList tree
  rw [Document.tree, Document.tree, outline, map_map, toList_map,
    toList_map] at same
  exact List.map_inj_left.mp same element member

theorem root_of_layout
    {stored : Bool} {tree : Element}
    (laid : ∀ node place, (node, place) ∈
      (layout stored parent first tree).zipIdx first →
        document.node? place = some node) :
    ∃ node, document.node? first = some node ∧ node.parent = parent := by
  cases tree with
  | node label children =>
      rw [layout, List.zipIdx_cons] at laid
      exact ⟨_, laid _ _ List.mem_cons_self, rfl⟩

theorem exists_copy_of_layout
    (laid : ∀ node place, (node, place) ∈
      (layout false parent first (source.tree id)).zipIdx first →
        document.node? place = some node)
    {element : NodeId} (member : element ∈ (source.outline id).toList) :
    ∃ copy,
      document.node? (source.copyPlace id first element) = some copy ∧
        copy.readOnly = false ∧ copy.stored = false := by
  have within :
      (source.outline id).toList.idxOf element <
        (layout false parent first (source.tree id)).length := by
    rw [length_layout, Document.tree, size_map, ← length_toList]
    exact List.idxOf_lt_length_of_mem member
  refine ⟨_, laid _ _ ?_, marks_of_mem_layout (List.getElem_mem within)⟩
  rw [List.mk_mem_zipIdx_iff_le_and_getElem?_sub, copyPlace,
    Nat.add_sub_cancel_left]
  exact ⟨Nat.le_add_right .., List.getElem?_eq_getElem within⟩

/-- A copy below the root hangs from the copy of what its original hangs
from. -/
theorem parent_of_copy
    (sourceLinked : source.Linked) (linked : document.Linked)
    (outline :
      document.outline first =
        (source.outline id).map (source.copyPlace id first))
    {element : NodeId} (below : source.Below id element)
    (differs : element ≠ id) {node copy : Node}
    (known : source.node? element = some node)
    (copied :
      document.node? (source.copyPlace id first element) = some copy) :
    copy.parent = node.parent.moved (source.copyPlace id first) := by
  rcases below.cases_tail with same | ⟨above, belowAbove, hangs⟩
  · exact absurd same differs
  · obtain ⟨other, again, attached⟩ := exists_of_parent? hangs
    cases known.symm.trans again
    obtain ⟨children, -⟩ :=
      children_of_outline sourceLinked linked
        (outline_copyPlace sourceLinked linked outline belowAbove)
    have member :
        source.copyPlace id first element ∈
          document.children (source.copyPlace id first above) := by
      rw [children]
      apply List.mem_map_of_mem
      exact (sourceLinked.wiring.links above element).mpr hangs
    obtain ⟨_, found, copyAttached⟩ :=
      exists_of_parent? (linked.below_child member)
    cases copied.symm.trans found
    rw [copyAttached, attached]
    rfl

/-- A tree of a source that is laid out is a copy. -/
theorem Linked.copies_of_layout
    (sourceLinked : source.Linked) (linked : document.Linked)
    (laid : ∀ node place, (node, place) ∈
      (layout false parent first (source.tree id)).zipIdx first →
        document.node? place = some node) :
    Copies source id parent document first := by
  have once := sourceLinked.nodup_outline id
  have tree := tree_of_layout linked _ laid
  have outline :
      document.outline first =
        (source.outline id).map (source.copyPlace id first) := by
    rw [outline_of_layout linked _ laid, Document.tree, numbered_map,
      numbered_eq_map first _ once]
    rfl
  refine ⟨once, outline, ?_, tree, ?_⟩
  · rw [outline_of_layout linked _ laid, toList_numbered, Document.tree,
      size_map, length_toList]
  · intro element member node known
    have below := sourceLinked.mem_outline_iff.mp member
    obtain ⟨copy, copied, unlocked, unstored⟩ :=
      exists_copy_of_layout laid member
    have label : copy.label = node.label := by
      have same := label_copyPlace outline tree member
      rwa [Document.label, copied, Document.label, known] at same
    have children :
        copy.children = node.children.map (source.copyPlace id first) := by
      rw [← children_of_node? copied, ← children_of_node? known]
      exact
        (children_of_outline sourceLinked linked
          (outline_copyPlace sourceLinked linked outline below)).1
    have hangs :
        copy.parent =
          if element = id then parent
          else node.parent.moved (source.copyPlace id first) := by
      split
      · next same =>
          obtain ⟨root, isRoot, top⟩ := root_of_layout laid
          rw [same, copyPlace_self sourceLinked, isRoot] at copied
          cases copied
          exact top
      · next differs =>
          exact
            parent_of_copy sourceLinked linked outline below differs known
              copied
    have unmarked :
        copy = { copy with readOnly := false, stored := false } := by
      cases copy
      cases unlocked
      cases unstored
      rfl
    rw [copied, unmarked, label, children, hangs]

end

/-! ## Clones and imports -/

/-- Whether a change appends a copy of the tree that hangs from an element of
a source, and does nothing else. -/
def AppendsCopy (edit : Edit NodeId) (source : Document) (id : NodeId)
    (target : Document) : Prop :=
  ∃ next,
    edit.run target = .ok target.nextId next ∧
      next.locale = target.locale ∧
      next.nodes.size =
        target.nodes.size + (source.outline id).toList.length ∧
      (∀ other < target.nodes.size, next.node? other = target.node? other) ∧
      Copies source id .root next target.nextId

theorem node?_plant_of_lt
    {target : Document} {other : NodeId} (old : other < target.nodes.size)
    (tree : Element) :
    (target.plant tree).node? other = target.node? other := by
  simp [plant, node?, Array.getElem?_append, old]

theorem size_plant
    (target : Document) (tree : Element) :
    (target.plant tree).nodes.size = target.nodes.size + tree.size := by
  simp [plant, length_layout]

theorem laid_plant
    (document : Document) (tree : Element) :
    ∀ node place, (node, place) ∈
      (layout false .root document.nextId tree).zipIdx document.nextId →
        (document.plant tree).node? place = some node := by
  intro node place member
  rw [plant_eq_plantAll, node?_plantAll, layoutAll, layoutAll,
    List.append_nil]
  exact .inr member

theorem Linked.appendsCopy_importFrom
    {source target : Document} (sourceLinked : source.Linked)
    (linked : target.Linked) {id : NodeId} {node : Node}
    (known : source.node? id = some node) :
    AppendsCopy (importFrom source id) source id target := by
  have planted := linked.plant (sourceLinked.valid_tree id)
  refine ⟨target.plant (source.tree id), ?_, rfl, ?_, ?_, ?_⟩
  · rw [importFrom, known]
    rfl
  · rw [size_plant, tree, size_map, length_toList]
  · exact fun other old => node?_plant_of_lt old _
  · exact sourceLinked.copies_of_layout planted (laid_plant target _)

/-- An import and a clone append an exact copy of a tree, made of new elements,
as a tree of its own, and leave all elements of before as they are.  This is
also what the walk through the source comes to that copies one element at a
time. -/
theorem appends_copies
    {source target : Document} (sourceReached : source.Reachable)
    (reached : target.Reachable) {id : NodeId} {node : Node}
    (known : source.node? id = some node) :
    AppendsCopy (importFrom source id) source id target ∧
      AppendsCopy (importByWalk source id) source id target ∧
      AppendsCopy (cloneSubtree id) source id source := by
  have linked := sourceReached.linked
  have imported := linked.appendsCopy_importFrom reached.linked known
  refine ⟨imported, ?_, ?_⟩
  · rwa [linked.importByWalk_eq]
  · rw [AppendsCopy, run_cloneSubtree_eq]
    exact linked.appendsCopy_importFrom linked known

/-- A chain of three elements that were frozen. -/
def frozenChain : Document :=
  chain.afterCall (.freeze 0)

/-- The copies of frozen elements may be changed. -/
theorem appends_copies_of_frozenChain :
    frozenChain.isReadOnly 2 = true ∧
      AppendsCopy (importFrom frozenChain 0) frozenChain 0 itemWithProperty ∧
      AppendsCopy (importByWalk frozenChain 0) frozenChain 0
        itemWithProperty ∧
      AppendsCopy (cloneSubtree 0) frozenChain 0 frozenChain ∧
      (itemWithProperty.after (importFrom frozenChain 0)).isReadOnly 4 =
        false := by
  have reachable : frozenChain.Reachable := ((Reachable.new _).calls _).called _
  have known : (frozenChain.node? 0).isSome = true := by decide +kernel
  obtain ⟨node, isNode⟩ := Option.isSome_iff_exists.mp known
  obtain ⟨imported, walked, cloned⟩ :=
    appends_copies reachable reachable_itemWithProperty
      isNode
  exact ⟨by decide +kernel, imported, walked, cloned, by decide +kernel⟩

end AmlExchange.Document
