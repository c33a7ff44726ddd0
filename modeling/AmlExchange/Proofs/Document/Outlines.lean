import AmlExchange.Proofs.Document.Freezing
import Mathlib.Data.List.Nodup

/-!
# The elements of an outline

An outline has exactly the elements below its root (`mem_outline_iff`), each
of them once, for no element lies below two children of another
(`nodup_outline`).  So an outline has no more elements than its document
(`length_outline_le`).
-/

namespace AmlExchange.Document

variable {document : Document} {id element : NodeId}

/-! ## Lists of labels -/

theorem toListAll_eq_flatMap
    {α : Type} (trees : List (Tree α)) :
    Tree.toListAll trees = trees.flatMap Tree.toList := by
  induction trees with
  | nil => rfl
  | cons tree rest ih => rw [Tree.toListAll, ih, List.flatMap_cons]

mutual

theorem length_toList
    {α : Type} (tree : Tree α) :
    tree.toList.length = tree.size := by
  cases tree with
  | node label children =>
      rw [Tree.toList, List.length_cons, length_toListAll, Tree.size]

theorem length_toListAll
    {α : Type} (trees : List (Tree α)) :
    (Tree.toListAll trees).length = Tree.sizeAll trees := by
  cases trees with
  | nil => rfl
  | cons tree rest =>
      rw [Tree.toListAll, List.length_append, length_toList, length_toListAll,
        Tree.sizeAll]

end

theorem toListAll_outlinesTo
    (document : Document) (depth : Nat) (ids : List NodeId) :
    Tree.toListAll (ids.map (document.outlineTo depth)) =
      ids.flatMap fun id => (document.outlineTo depth id).toList := by
  rw [toListAll_eq_flatMap, List.flatMap_map]

/-! ## Elements below others -/

namespace Linked

theorem below_child
    (linked : document.Linked) {child : NodeId}
    (member : child ∈ document.children id) :
    IsParent document.parent? id child :=
  (linked.wiring.links id child).mp member

/-- No element lies above one that it hangs from. -/
theorem not_below_parent
    (linked : document.Linked) {child : NodeId}
    (member : child ∈ document.children id) :
    ¬ document.Below child id := by
  intro below
  have cycle : Relation.TransGen (IsParent document.parent?) id id :=
    .head' (linked.below_child member) below
  exact linked.wiring.grounded.transGen.irrefl.irrefl id cycle

theorem below_of_mem_outlineTo
    (linked : document.Linked) {depth : Nat}
    (member : element ∈ (document.outlineTo depth id).toList) :
    document.Below id element := by
  induction depth generalizing id with
  | zero =>
      rw [List.mem_singleton.mp member]
      exact .refl
  | succ depth ih =>
      rw [outlineTo, Tree.toList, List.mem_cons] at member
      rcases member with rfl | member
      · exact .refl
      · rw [toListAll_outlinesTo, List.mem_flatMap] at member
        obtain ⟨child, isChild, within⟩ := member
        exact .head (linked.below_child isChild) (ih within)

theorem mem_outline_iff
    (linked : document.Linked) :
    element ∈ (document.outline id).toList ↔ document.Below id element :=
  ⟨linked.below_of_mem_outlineTo, linked.mem_outline⟩

/-- No element lies below two children of another one. -/
theorem eq_of_below
    (linked : document.Linked) {first second : NodeId}
    (isFirst : first ∈ document.children id)
    (isSecond : second ∈ document.children id)
    (belowFirst : document.Below first element)
    (belowSecond : document.Below second element) :
    first = second := by
  have apart {lower upper : NodeId} (isLower : lower ∈ document.children id)
      (isUpper : upper ∈ document.children id)
      (below : document.Below upper lower) : upper = lower := by
    rcases below.cases_tail with same | ⟨parent, between, above⟩
    · exact same.symm
    · have same : parent = id :=
        Option.some_inj.mp (above.symm.trans (linked.below_child isLower))
      subst same
      exact absurd between (linked.not_below_parent isUpper)
  -- The elements above one element lie above each other.
  have unique :
      Relator.RightUnique (Function.swap (IsParent document.parent?)) :=
    fun _ _ _ left right => Option.some_inj.mp (left.symm.trans right)
  have towards := Relation.ReflTransGen.total_of_right_unique unique
    (Relation.reflTransGen_swap.mpr belowFirst)
    (Relation.reflTransGen_swap.mpr belowSecond)
  rcases towards with above | above
  · exact (apart isFirst isSecond (Relation.reflTransGen_swap.mp above)).symm
  · exact apart isSecond isFirst (Relation.reflTransGen_swap.mp above)

theorem nodup_outlineTo
    (linked : document.Linked) (depth : Nat) (id : NodeId) :
    (document.outlineTo depth id).toList.Nodup := by
  induction depth generalizing id with
  | zero => exact List.nodup_singleton id
  | succ depth ih =>
      rw [outlineTo, Tree.toList, toListAll_outlinesTo, List.nodup_cons,
        List.nodup_flatMap]
      refine ⟨?_, fun child _ => ih child, ?_⟩
      · intro member
        obtain ⟨child, isChild, within⟩ := List.mem_flatMap.mp member
        exact linked.not_below_parent isChild
          (linked.below_of_mem_outlineTo within)
      · apply (linked.wiring.once id).pairwise_of_forall_ne
        intro first isFirst second isSecond differs element inFirst inSecond
        exact differs
          (linked.eq_of_below isFirst isSecond
            (linked.below_of_mem_outlineTo inFirst)
            (linked.below_of_mem_outlineTo inSecond))

theorem nodup_outline
    (linked : document.Linked) (id : NodeId) :
    (document.outline id).toList.Nodup :=
  linked.nodup_outlineTo _ id

/-- An element that is known has an outline of known elements. -/
theorem known_of_mem_outline
    (linked : document.Linked) {node : Node}
    (known : document.node? id = some node)
    (member : element ∈ (document.outline id).toList) :
    ∃ found, document.node? element = some found :=
  linked.known_of_below known (linked.mem_outline_iff.mp member)

theorem length_outline_le
    (linked : document.Linked) {node : Node}
    (known : document.node? id = some node) :
    (document.outline id).toList.length ≤ document.nodes.size := by
  have within :
      (document.outline id).toList ⊆ List.range document.nodes.size := by
    intro element member
    obtain ⟨found, isKnown⟩ := linked.known_of_mem_outline known member
    exact List.mem_range.mpr (lt_of_node? isKnown)
  have shorter := ((linked.nodup_outline id).subperm within).length_le
  rwa [List.length_range] at shorter

end Linked

end AmlExchange.Document
