import AmlExchange.Proofs.Document.Freezing

/-!
# Which elements exist

An element counts as existing unless it was itself removed.  Whoever follows
its parents comes to a root or to an element that was removed, and only in the
first case is the element part of a tree.  The elements below a removed one
stay attached to each other, so they exist although no root leads to them, and
they are the only ones (`exists_iff_of_reachable`).
-/

namespace AmlExchange.Document

variable {document : Document} {id parent : NodeId} {node : Node}

/-- Whether the way from an element over its parents ends at an element with a
certain place. -/
inductive EndsAt (document : Document) (place : Parent) : NodeId → Prop where
  | here {id : NodeId} {node : Node} (known : document.node? id = some node)
      (stands : node.parent = place) : EndsAt document place id
  | above {id parent : NodeId} (hangs : document.parent? id = some parent)
      (ends : EndsAt document place parent) : EndsAt document place id

/-- Whether an element hangs below one that was removed. -/
def Orphaned (document : Document) (id : NodeId) : Prop :=
  ∃ parent,
    document.parent? id = some parent ∧ document.EndsAt .detached parent

theorem exists?_of_node?
    (known : document.node? id = some node) :
    document.exists? id = true ↔ node.parent ≠ .detached := by
  rw [exists?, known]
  exact bne_iff_ne

theorem exists?_of_parent?
    (hangs : document.parent? id = some parent) :
    document.exists? id = true := by
  obtain ⟨node, known, stands⟩ := exists_of_parent? hangs
  rw [exists?_of_node? known, stands]
  nofun

/-- No way ends at two places. -/
theorem EndsAt.unique
    {first second : Parent} (top : first.above? = none)
    (otherTop : second.above? = none) (ends : document.EndsAt first id)
    (otherEnds : document.EndsAt second id) :
    first = second := by
  induction ends with
  | here known stands =>
      cases otherEnds with
      | here again otherStands =>
          rw [known] at again
          cases again
          exact stands.symm.trans otherStands
      | above hangs _ =>
          rw [parent?_of_node? known, stands, top] at hangs
          cases hangs
  | above hangs _ ih =>
      cases otherEnds with
      | here known otherStands =>
          rw [parent?_of_node? known, otherStands, otherTop] at hangs
          cases hangs
      | above again ends =>
          rw [hangs] at again
          cases again
          exact ih ends

/-- The way from an element ends at a root or at a removed element. -/
theorem Linked.endsAt
    (linked : document.Linked) (known : document.node? id = some node) :
    document.EndsAt .root id ∨ document.EndsAt .detached id := by
  induction id using linked.wiring.grounded.induction generalizing node with
  | _ id ih =>
      cases stands : node.parent with
      | root => exact .inl (.here known stands)
      | detached => exact .inr (.here known stands)
      | attached parent =>
          have hangs : document.parent? id = some parent := by
            rw [parent?_of_node? known, stands]
            rfl
          obtain ⟨above, _, aboveKnown, -⟩ := linked.exists_link hangs
          exact (ih parent hangs aboveKnown).imp (.above hangs) (.above hangs)

theorem not_endsAt_of_orphaned
    (orphaned : document.Orphaned id) :
    ¬ document.EndsAt .root id := by
  obtain ⟨parent, hangs, removed⟩ := orphaned
  intro rooted
  have same := rooted.unique rfl rfl (.above hangs removed)
  cases same

/-- What a root leads to exists. -/
theorem EndsAt.exists?
    (rooted : document.EndsAt .root id) :
    document.exists? id = true := by
  cases rooted with
  | here known stands =>
      rw [exists?_of_node? known, stands]
      nofun
  | above hangs _ => exact exists?_of_parent? hangs

/-- An element exists if its parents lead to a root or if it hangs below one
that was removed.  So to exist is to be reachable from a root for all elements
but the latter, and for none of those. -/
theorem exists_iff_of_reachable
    (reachable : document.Reachable) (id : NodeId) :
    (document.exists? id = true ↔
        document.EndsAt .root id ∨ document.Orphaned id) ∧
      ((document.exists? id = true ↔ document.EndsAt .root id) ↔
        ¬ document.Orphaned id) := by
  have linked := reachable.linked
  have present :
      document.exists? id = true ↔
        document.EndsAt .root id ∨ document.Orphaned id := by
    constructor
    · intro exist
      cases known : document.node? id with
      | none =>
          rw [Document.exists?, known] at exist
          cases exist
      | some node =>
          refine (linked.endsAt known).imp_right ?_
          rintro (⟨again, stands⟩ | ⟨hangs, removed⟩)
          · exact absurd stands ((exists?_of_node? again).mp exist)
          · exact ⟨_, hangs, removed⟩
    · rintro (rooted | ⟨parent, hangs, -⟩)
      · exact rooted.exists?
      · exact exists?_of_parent? hangs
  refine ⟨present, ?_⟩
  rw [present]
  constructor
  · intro same orphaned
    exact not_endsAt_of_orphaned orphaned (same.mp (.inr orphaned))
  · intro attached
    exact or_iff_left attached

/-- An element that is put elsewhere after the one above it was removed is
reachable again. -/
theorem exists_iff_of_rescued :
    let document :=
      [.remove 1, .add 0 (.node 2)].foldl afterCall chain
    document.Reachable ∧ document.parent? 2 = some 0 ∧
      document.exists? 2 = true := by
  intro document
  have reachable : document.Reachable := ((Reachable.new _).calls _).calls _
  have hangs : document.parent? 2 = some 0 := by decide +kernel
  have rooted : document.EndsAt .root 0 := .here rfl (by decide +kernel)
  refine ⟨reachable, hangs, ?_⟩
  exact (exists_iff_of_reachable reachable 2).1.mpr (.inl (.above hangs rooted))

/-- An element within a removed one exists, but no root leads to it. -/
theorem orphan_exists :
    ¬ ∀ (document : Document) (id : NodeId), document.Reachable →
      (document.exists? id = true ↔ document.EndsAt .root id) := by
  intro same
  let document := chain.afterCall (.remove 1)
  have reachable : document.Reachable := ((Reachable.new _).calls _).called _
  have hangs : document.parent? 2 = some 1 := by decide +kernel
  have orphaned : document.Orphaned 2 :=
    ⟨1, hangs, .here rfl (by decide +kernel)⟩
  apply not_endsAt_of_orphaned orphaned
  exact (same document 2 reachable).mp (exists?_of_parent? hangs)

end AmlExchange.Document
