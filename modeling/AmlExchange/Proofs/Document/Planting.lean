import AmlExchange.Proofs.Document.Links
import Mathlib.Data.List.Basic

/-!
# Trees planted in a document

A tree that is laid out at the end of a document brings its own children and
parents, which belong together and refer to no element outside of the tree.  So
a linked document stays linked when trees are planted in it.
-/

namespace AmlExchange.Document

/-! ## Trees with values at their leaves -/

mutual

/-- Whether only leaves have values. -/
def Valid : Element → Prop
  | .node label children =>
      (children ≠ [] → label.content = .null) ∧ ValidAll children

/-- Whether only leaves of some trees have values. -/
def ValidAll : List Element → Prop
  | [] => True
  | tree :: rest => Valid tree ∧ ValidAll rest

end

theorem validAll_iff
    (trees : List Element) :
    ValidAll trees ↔ ∀ tree ∈ trees, Valid tree := by
  induction trees with
  | nil => simp [ValidAll]
  | cons tree rest ih => rw [ValidAll, List.forall_mem_cons, ih]

/-! ## Blocks -/

/-- Elements with their identities, which refer to each other only and hang
from one place outside. -/
structure Block (parent : Parent) (roots : List NodeId)
    (entries : List (Node × NodeId)) : Prop where
  down : ∀ node id, (node, id) ∈ entries → ∀ below ∈ node.children,
    id < below ∧
      ∃ child, (child, below) ∈ entries ∧ child.parent = .attached id
  up : ∀ child below, (child, below) ∈ entries →
    child.parent = parent ∧ below ∈ roots ∨
      ∃ node id, (node, id) ∈ entries ∧
        child.parent = .attached id ∧ below ∈ node.children
  tops : ∀ root ∈ roots, ∃ node, (node, root) ∈ entries ∧
    node.parent = parent
  once : ∀ node id, (node, id) ∈ entries → node.children.Nodup
  emptied : ∀ node id, (node, id) ∈ entries →
    node.children ≠ [] → node.label.content = .null

theorem block_nil
    (parent : Parent) :
    Block parent [] [] :=
  ⟨nofun, nofun, nofun, nofun, nofun⟩

theorem Block.append
    {parent : Parent} {firstRoots secondRoots : List NodeId}
    {first second : List (Node × NodeId)}
    (before : Block parent firstRoots first)
    (after : Block parent secondRoots second) :
    Block parent (firstRoots ++ secondRoots) (first ++ second) := by
  refine ⟨?_, ?_, ?_, ?_, ?_⟩
  · intro node id member below child
    rcases List.mem_append.mp member with member | member
    · obtain ⟨less, found, place, hangs⟩ :=
        before.down node id member below child
      exact ⟨less, found, List.mem_append_left _ place, hangs⟩
    · obtain ⟨less, found, place, hangs⟩ :=
        after.down node id member below child
      exact ⟨less, found, List.mem_append_right _ place, hangs⟩
  · intro child below member
    rcases List.mem_append.mp member with member | member
    · rcases before.up child below member with
        ⟨top, root⟩ | ⟨node, id, place, hangs⟩
      · exact .inl ⟨top, List.mem_append_left _ root⟩
      · exact .inr ⟨node, id, List.mem_append_left _ place, hangs⟩
    · rcases after.up child below member with
        ⟨top, root⟩ | ⟨node, id, place, hangs⟩
      · exact .inl ⟨top, List.mem_append_right _ root⟩
      · exact .inr ⟨node, id, List.mem_append_right _ place, hangs⟩
  · intro root member
    rcases List.mem_append.mp member with member | member
    · obtain ⟨node, place, top⟩ := before.tops root member
      exact ⟨node, List.mem_append_left _ place, top⟩
    · obtain ⟨node, place, top⟩ := after.tops root member
      exact ⟨node, List.mem_append_right _ place, top⟩
  · intro node id member
    rcases List.mem_append.mp member with member | member
    · exact before.once node id member
    · exact after.once node id member
  · intro node id member
    rcases List.mem_append.mp member with member | member
    · exact before.emptied node id member
    · exact after.emptied node id member

/-- A root over a block. -/
theorem Block.node
    {id : NodeId} {node : Node} {entries : List (Node × NodeId)}
    (below : Block (.attached id) node.children entries)
    (once : node.children.Nodup)
    (later : ∀ child ∈ node.children, id < child)
    (emptied : node.children ≠ [] → node.label.content = .null)
    {parent : Parent} (hangs : node.parent = parent) :
    Block parent [id] ((node, id) :: entries) := by
  subst hangs
  refine ⟨?_, ?_, ?_, ?_, ?_⟩
  · intro other place member child hangs
    rcases List.mem_cons.mp member with same | member
    · cases same
      obtain ⟨found, inside, top⟩ := below.tops child hangs
      exact
        ⟨later child hangs, found, List.mem_cons_of_mem _ inside, top⟩
    · obtain ⟨less, found, inside, top⟩ :=
        below.down other place member child hangs
      exact ⟨less, found, List.mem_cons_of_mem _ inside, top⟩
  · intro child place member
    rcases List.mem_cons.mp member with same | member
    · cases same
      exact .inl ⟨rfl, List.mem_singleton.mpr rfl⟩
    · rcases below.up child place member with
        ⟨top, root⟩ | ⟨other, above, inside, hangs⟩
      · exact .inr ⟨node, id, List.mem_cons_self, top, root⟩
      · exact .inr ⟨other, above, List.mem_cons_of_mem _ inside, hangs⟩
  · intro root member
    rw [List.mem_singleton.mp member]
    exact ⟨node, List.mem_cons_self, rfl⟩
  · intro other place member
    rcases List.mem_cons.mp member with same | member
    · cases same
      exact once
    · exact below.once other place member
  · intro other place member
    rcases List.mem_cons.mp member with same | member
    · cases same
      exact emptied
    · exact below.emptied other place member

/-! ## Layouts -/

theorem size_pos
    {α : Type} (tree : Tree α) :
    0 < tree.size := by
  cases tree with
  | node label children => exact Nat.succ_pos _

theorem le_rootPlaces
    {α : Type} (trees : List (Tree α)) {first : NodeId} :
    ∀ place ∈ rootPlaces first trees, first ≤ place := by
  induction trees generalizing first with
  | nil => exact nofun
  | cons tree rest ih =>
      rw [rootPlaces, List.forall_mem_cons]
      refine ⟨Nat.le_refl _, ?_⟩
      intro place member
      exact Nat.le_trans (Nat.le_add_right ..) (ih place member)

theorem nodup_rootPlaces
    {α : Type} (trees : List (Tree α)) (first : NodeId) :
    (rootPlaces first trees).Nodup := by
  induction trees generalizing first with
  | nil => exact List.nodup_nil
  | cons tree rest ih =>
      rw [rootPlaces, List.nodup_cons]
      refine ⟨?_, ih _⟩
      intro member
      have later := le_rootPlaces rest first member
      exact Nat.not_le_of_lt (Nat.lt_add_of_pos_right (size_pos tree)) later

theorem rootPlaces_ne_nil
    {α : Type} {trees : List (Tree α)} {first : NodeId}
    (some : rootPlaces first trees ≠ []) :
    trees ≠ [] := by
  rintro rfl
  exact some rfl

mutual

theorem length_layout
    (stored : Bool) (parent : Parent) (first : NodeId) (tree : Element) :
    (layout stored parent first tree).length = tree.size := by
  cases tree with
  | node label children =>
      rw [layout, List.length_cons, length_layoutAll, Tree.size]

theorem length_layoutAll
    (stored : Bool) (parent : Parent) (first : NodeId)
    (trees : List Element) :
    (layoutAll stored parent first trees).length = Tree.sizeAll trees := by
  cases trees with
  | nil => rfl
  | cons tree rest =>
      rw [layoutAll, List.length_append, length_layout, length_layoutAll,
        Tree.sizeAll]

end

mutual

/-- The elements of a tree make up a block. -/
theorem block_layout
    (stored : Bool) (parent : Parent) (first : NodeId) (tree : Element)
    (valid : Valid tree) :
    Block parent [first]
      ((layout stored parent first tree).zipIdx first) := by
  cases tree with
  | node label children =>
      rw [Valid] at valid
      rw [layout, List.zipIdx_cons]
      apply Block.node
      · exact block_layoutAll stored _ _ children valid.2
      · exact nodup_rootPlaces children _
      · exact fun child member => le_rootPlaces children child member
      · exact fun some => valid.1 (rootPlaces_ne_nil some)
      · rfl

theorem block_layoutAll
    (stored : Bool) (parent : Parent) (first : NodeId)
    (trees : List Element) (valid : ValidAll trees) :
    Block parent (rootPlaces first trees)
      ((layoutAll stored parent first trees).zipIdx first) := by
  cases trees with
  | nil => exact block_nil parent
  | cons tree rest =>
      rw [ValidAll] at valid
      rw [layoutAll, List.zipIdx_append, length_layout, rootPlaces,
        ← List.singleton_append]
      apply Block.append
      · exact block_layout stored parent first tree valid.1
      · exact block_layoutAll stored parent _ rest valid.2

end

/-! ## Planted documents -/

/-- A document with trees laid out at its end. -/
def plantAll (document : Document) (stored : Bool) (trees : List Element) :
    Document :=
  { document with
    nodes :=
      document.nodes ++
        (layoutAll stored .root document.nextId trees).toArray }

theorem node?_plantAll
    (document : Document) (stored : Bool) (trees : List Element)
    (id : NodeId) (node : Node) :
    (document.plantAll stored trees).node? id = some node ↔
      document.node? id = some node ∨
        (node, id) ∈
          (layoutAll stored .root document.nextId trees).zipIdx
            document.nextId := by
  rw [List.mk_mem_zipIdx_iff_le_and_getElem?_sub]
  simp only [node?, plantAll, nextId, Array.getElem?_append]
  split
  · next known =>
      have notLater : ¬ document.nodes.size ≤ id := Nat.not_le_of_lt known
      simp [notLater]
  · next unknown =>
      have later : document.nodes.size ≤ id := Nat.le_of_not_lt unknown
      simp [later]

theorem mem_children
    {document : Document} {id child : NodeId} :
    child ∈ document.children id ↔
      ∃ node, document.node? id = some node ∧ child ∈ node.children := by
  rw [children_eq]
  cases document.node? id with
  | none => simp
  | some node => simp

theorem isParent_iff
    {document : Document} {parent child : NodeId} :
    IsParent document.parent? parent child ↔
      ∃ node, document.node? child = some node ∧
        node.parent = .attached parent := by
  constructor
  · exact exists_of_parent?
  · rintro ⟨node, found, hangs⟩
    rw [IsParent, parent?_of_node? found, hangs]
    rfl

section

variable {document : Document} {stored : Bool} {trees : List Element}

theorem isParent_plantAll
    (valid : ValidAll trees) {parent child : NodeId}
    (above :
      IsParent (document.plantAll stored trees).parent? parent child) :
    IsParent document.parent? parent child ∨
      document.nextId ≤ child ∧ parent < child := by
  have block := block_layoutAll stored .root document.nextId trees valid
  obtain ⟨node, found, hangs⟩ := isParent_iff.mp above
  rcases (node?_plantAll ..).mp found with old | new
  · exact .inl (isParent_iff.mpr ⟨node, old, hangs⟩)
  · right
    refine ⟨(List.mk_mem_zipIdx_iff_le_and_getElem?_sub.mp new).1, ?_⟩
    rcases block.up node child new with
      ⟨root, -⟩ | ⟨other, id, place, attached, below⟩
    · rw [root] at hangs
      cases hangs
    · rw [attached] at hangs
      cases hangs
      exact (block.down other parent place child below).1

namespace Linked

theorem links_plantAll
    (linked : document.Linked) (valid : ValidAll trees)
    (parent child : NodeId) :
    child ∈ (document.plantAll stored trees).children parent ↔
      IsParent (document.plantAll stored trees).parent? parent child := by
  have block := block_layoutAll stored .root document.nextId trees valid
  constructor
  · intro member
    obtain ⟨node, found, below⟩ := mem_children.mp member
    apply isParent_iff.mpr
    rcases (node?_plantAll ..).mp found with old | new
    · have before : child ∈ document.children parent :=
        mem_children.mpr ⟨node, old, below⟩
      obtain ⟨other, known, hangs⟩ :=
        isParent_iff.mp ((linked.wiring.links parent child).mp before)
      exact ⟨other, (node?_plantAll ..).mpr (.inl known), hangs⟩
    · obtain ⟨-, other, place, hangs⟩ :=
        block.down node parent new child below
      exact ⟨other, (node?_plantAll ..).mpr (.inr place), hangs⟩
  · intro above
    obtain ⟨node, found, hangs⟩ := isParent_iff.mp above
    apply mem_children.mpr
    rcases (node?_plantAll ..).mp found with old | new
    · have before : IsParent document.parent? parent child :=
        isParent_iff.mpr ⟨node, old, hangs⟩
      obtain ⟨other, known, below⟩ :=
        mem_children.mp ((linked.wiring.links parent child).mpr before)
      exact ⟨other, (node?_plantAll ..).mpr (.inl known), below⟩
    · rcases block.up node child new with
        ⟨root, -⟩ | ⟨other, id, place, attached, below⟩
      · rw [root] at hangs
        cases hangs
      · rw [attached] at hangs
        cases hangs
        exact ⟨other, (node?_plantAll ..).mpr (.inr place), below⟩

theorem once_plantAll
    (linked : document.Linked) (valid : ValidAll trees) (id : NodeId) :
    ((document.plantAll stored trees).children id).Nodup := by
  have block := block_layoutAll stored .root document.nextId trees valid
  by_cases some : (document.plantAll stored trees).children id = []
  · rw [some]
    exact List.nodup_nil
  · obtain ⟨node, found⟩ := exists_of_children some
    rw [children_of_node? found]
    rcases (node?_plantAll ..).mp found with old | new
    · rw [← children_of_node? old]
      exact linked.wiring.once id
    · exact block.once node id new

/-- The parents of planted elements come before them, and the parents of other
elements are those that they had. -/
theorem grounded_plantAll
    (linked : document.Linked) (valid : ValidAll trees) :
    WellFounded (IsParent (document.plantAll stored trees).parent?) := by
  have old (id : NodeId) (known : id < document.nextId) :
      Acc (IsParent (document.plantAll stored trees).parent?) id := by
    induction id using linked.wiring.grounded.induction with
    | _ id ih =>
        apply Acc.intro
        intro parent above
        rcases isParent_plantAll valid above with before | later
        · exact ih parent before (linked.parent_lt before)
        · exact absurd known (Nat.not_lt_of_le later.1)
  constructor
  intro id
  induction id using Nat.strongRecOn with
  | _ id ih =>
      by_cases known : id < document.nextId
      · exact old id known
      · apply Acc.intro
        intro parent above
        rcases isParent_plantAll valid above with before | later
        · obtain ⟨node, found, -⟩ := exists_of_parent? before
          exact absurd (lt_of_node? found) known
        · exact ih parent later.2

/-- Trees whose values are at their leaves may be planted. -/
theorem plantAll
    (linked : document.Linked) (valid : ValidAll trees) :
    (document.plantAll stored trees).Linked := by
  refine ⟨⟨?_, ?_, ?_⟩, ?_⟩
  · exact linked.links_plantAll valid
  · exact linked.once_plantAll valid
  · exact linked.grounded_plantAll valid
  · have block := block_layoutAll stored .root document.nextId trees valid
    intro id node found
    rcases (node?_plantAll ..).mp found with old | new
    · exact linked.emptied id node old
    · exact block.emptied node id new

end Linked

end

end AmlExchange.Document
