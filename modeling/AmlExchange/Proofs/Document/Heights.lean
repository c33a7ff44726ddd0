import AmlExchange.Proofs.Document.Links
import Mathlib.Data.List.Perm.Subperm
import Mathlib.Data.List.Range

/-!
# No element hangs too deep

In a linked document the elements above an element are all different, and so
there are fewer of them than there are elements.  This is the bound under which
ancestors and outlines are found: within it both are complete
(`ancestors_eq`, `outline_eq`).
-/

namespace AmlExchange.Document

variable {document : Document}

/-- The elements above an element, the nearest first, as far as there are
any. -/
structure Ascent (document : Document) (id : NodeId) (above : List NodeId) :
    Prop where
  ancestorsTo : ∀ height, document.ancestorsTo height id = above.take height
  fresh : (id :: above).Nodup
  known : ∀ ancestor ∈ above, ancestor < document.nodes.size
  complete : ∀ ancestor,
    ancestor ∈ above ↔
      Relation.TransGen (IsParent document.parent?) ancestor id

theorem ascent_of_root
    {id : NodeId} (root : document.parent? id = none) :
    Ascent document id [] := by
  refine ⟨?_, by simp, nofun, ?_⟩
  · intro height
    cases height with
    | zero => rfl
    | succ height => simp [ancestorsTo, root]
  · intro ancestor
    constructor
    · nofun
    · intro climbs
      obtain ⟨parent, -, above⟩ := Relation.TransGen.tail'_iff.mp climbs
      rw [IsParent, root] at above
      cases above

theorem Linked.ascent_of_parent
    (linked : document.Linked) {id parent : NodeId}
    (above : document.parent? id = some parent) {others : List NodeId}
    (ascent : Ascent document parent others) :
    Ascent document id (parent :: others) := by
  have complete (ancestor : NodeId) :
      ancestor ∈ parent :: others ↔
        Relation.TransGen (IsParent document.parent?) ancestor id := by
    rw [List.mem_cons, ascent.complete]
    constructor
    · rintro (rfl | climbs)
      · exact .single above
      · exact climbs.tail above
    · intro climbs
      obtain ⟨between, climbs, last⟩ := Relation.TransGen.tail'_iff.mp climbs
      rw [IsParent, above, Option.some_inj] at last
      subst last
      rcases Relation.reflTransGen_iff_eq_or_transGen.mp climbs with
        same | climbs
      · exact .inl same.symm
      · exact .inr climbs
  refine ⟨?_, ?_, ?_, complete⟩
  · intro height
    cases height with
    | zero => rfl
    | succ height =>
        rw [ancestorsTo, above, List.take_succ_cons]
        exact congrArg _ (ascent.ancestorsTo height)
  · rw [List.nodup_cons]
    refine ⟨?_, ascent.fresh⟩
    intro member
    have cycle := (complete id).mp member
    exact linked.wiring.grounded.transGen.irrefl.irrefl id cycle
  · intro ancestor member
    rcases List.mem_cons.mp member with rfl | member
    · exact linked.parent_lt above
    · exact ascent.known ancestor member

theorem Linked.exists_ascent
    (linked : document.Linked) (id : NodeId) :
    ∃ above, Ascent document id above := by
  induction id using linked.wiring.grounded.induction with
  | _ id ih =>
      cases above : document.parent? id with
      | none => exact ⟨[], ascent_of_root above⟩
      | some parent =>
          obtain ⟨others, ascent⟩ := ih parent above
          exact ⟨_, linked.ascent_of_parent above ascent⟩

/-- An ascent is shorter than the document is large. -/
theorem Ascent.length_lt
    {id : NodeId} {above : List NodeId} (ascent : Ascent document id above)
    (known : id < document.nodes.size) :
    above.length < document.nodes.size := by
  have within : id :: above ⊆ List.range document.nodes.size := by
    intro other member
    rw [List.mem_range]
    rcases List.mem_cons.mp member with rfl | member
    · exact known
    · exact ascent.known other member
  have shorter := (ascent.fresh.subperm within).length_le
  rwa [List.length_cons, List.length_range] at shorter

theorem Ascent.length_le
    {id : NodeId} {above : List NodeId} (ascent : Ascent document id above) :
    above.length ≤ document.nodes.size := by
  by_cases known : id < document.nodes.size
  · exact (ascent.length_lt known).le
  · cases above with
    | nil => exact Nat.zero_le _
    | cons parent others =>
        have climbs := (ascent.complete parent).mp List.mem_cons_self
        obtain ⟨between, -, last⟩ := Relation.TransGen.tail'_iff.mp climbs
        obtain ⟨node, found, -⟩ := exists_of_parent? last
        exact absurd (lt_of_node? found) known

theorem Ascent.ancestors_eq
    {id : NodeId} {above : List NodeId} (ascent : Ascent document id above) :
    document.ancestors id = above := by
  rw [ancestors, ascent.ancestorsTo, List.take_of_length_le ascent.length_le]

theorem ancestors_of_root
    {id : NodeId} (root : document.parent? id = none) :
    document.ancestors id = [] :=
  (ascent_of_root root).ancestors_eq

namespace Linked

/-- The ancestors of an element are exactly the elements above it. -/
theorem mem_ancestors
    (linked : document.Linked) (ancestor id : NodeId) :
    ancestor ∈ document.ancestors id ↔
      Relation.TransGen (IsParent document.parent?) ancestor id := by
  obtain ⟨above, ascent⟩ := linked.exists_ascent id
  rw [ascent.ancestors_eq]
  exact ascent.complete ancestor

theorem not_above
    (linked : document.Linked) {child id : NodeId} (differs : child ≠ id)
    (apart : document.isAncestor child id = false) :
    ¬ Relation.ReflTransGen (IsParent document.parent?) child id := by
  intro climbs
  rcases Relation.reflTransGen_iff_eq_or_transGen.mp climbs with
    same | climbs
  · exact differs same.symm
  · have member := (linked.mem_ancestors child id).mpr climbs
    rw [isAncestor, List.contains_eq_mem, decide_eq_false_iff_not] at apart
    exact apart member

theorem ancestors_of_parent
    (linked : document.Linked) {id parent : NodeId}
    (above : document.parent? id = some parent) :
    document.ancestors id = parent :: document.ancestors parent := by
  obtain ⟨others, ascent⟩ := linked.exists_ascent parent
  rw [(linked.ascent_of_parent above ascent).ancestors_eq,
    ascent.ancestors_eq]

/-! ## Outlines -/

/-- Below an element there are no more levels than the elements above it
leave. -/
theorem outlineTo_succ
    (linked : document.Linked) {depth : Nat} {id : NodeId}
    (deep :
      document.nodes.size ≤ (document.ancestors id).length + depth) :
    document.outlineTo (depth + 1) id = document.outlineTo depth id := by
  induction depth generalizing id with
  | zero =>
      have childless : document.children id = [] := by
        by_contra some
        obtain ⟨node, found⟩ := exists_of_children some
        obtain ⟨above, ascent⟩ := linked.exists_ascent id
        have short := ascent.length_lt (lt_of_node? found)
        rw [ascent.ancestors_eq] at deep
        omega
      simp [outlineTo, childless]
  | succ depth ih =>
      rw [outlineTo, outlineTo]
      refine congrArg _ (List.map_congr_left ?_)
      intro child member
      apply ih
      have above := (linked.wiring.links id child).mp member
      rw [linked.ancestors_of_parent above, List.length_cons]
      omega

/-- The outline of an element consists of the outlines of its children. -/
theorem outline_eq
    (linked : document.Linked) (id : NodeId) :
    document.outline id =
      .node id ((document.children id).map document.outline) := by
  have deep :
      document.nodes.size ≤
        (document.ancestors id).length + document.nodes.size :=
    Nat.le_add_left ..
  rw [outline, ← linked.outlineTo_succ deep]
  rfl

end Linked

end AmlExchange.Document
