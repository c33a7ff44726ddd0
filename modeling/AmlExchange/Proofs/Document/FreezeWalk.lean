import AmlExchange.Proofs.Document.ReadElements

/-!
# Freezing one element at a time

Elements can be frozen without recursion: the elements still to be visited are
on a stack, and each gives its place to its children when it is marked.  The
walk visits the last child first, unlike an outline, but it comes to the same
elements, each of them once (`hanging_cons`), and marks do not depend on the
order in which they are made (`lock_congr`).  So the walk is just another way
to freeze (`freezeByWalk_eq`).  Where nothing was removed, all elements are
frozen with the roots (`readOnly_of_lock_roots`).
-/

namespace AmlExchange.Document

variable {document : Document} {id : NodeId} {node : Node}

/-! ## The walk -/

/-- A walk of so many steps at most, which marks the elements on a stack and
those below them read-only. -/
def freezeNodes : Nat → List NodeId → Edit Unit
  | _, [] => pure ()
  | 0, _ :: _ => pure ()
  | steps + 1, id :: pending => do
      match (← get).node? id with
      | none => refuse .unknownNode
      | some node =>
          change id fun node => { node with readOnly := true }
          freezeNodes steps (node.children.reverse ++ pending)

/-- An element and all below it marked read-only, one at a time. -/
def freezeByWalk (id : NodeId) : Edit Unit := do
  freezeNodes ((← get).nodes.size + 1) [id]

/-! ## Marks -/

/-- A document with some elements marked read-only. -/
def lock (document : Document) (ids : List NodeId) : Document :=
  document.updateAll ids fun node => { node with readOnly := true }

theorem lock_append
    (document : Document) (first second : List NodeId) :
    document.lock (first ++ second) = (document.lock first).lock second :=
  List.foldl_append

theorem node?_lock
    (document : Document) (ids : List NodeId) (id : NodeId) :
    (document.lock ids).node? id =
      (document.node? id).map fun node =>
        if id ∈ ids then { node with readOnly := true } else node := by
  induction ids generalizing document with
  | nil => simp [lock, updateAll]
  | cons first rest ih =>
      rw [← List.singleton_append, lock_append, ih, lock, updateAll,
        List.foldl_cons, List.foldl_nil]
      by_cases same : id = first
      · subst same
        rw [node?_update_self, Option.map_map]
        congr 1
        funext node
        simp
      · rw [node?_update_of_ne same]
        simp [same]

/-- The order of the marks does not count. -/
theorem lock_congr
    {first second : List NodeId} (same : ∀ id, id ∈ first ↔ id ∈ second) :
    document.lock first = document.lock second := by
  refine eq_of_node?_eq ?_ ?_
  · exact (read_updateAll (by intros; rfl) document first).trans
      (read_updateAll (by intros; rfl) document second).symm
  · intro id
    simp only [node?_lock, same]

theorem children_lock
    (document : Document) (ids : List NodeId) :
    (document.lock ids).children = document.children :=
  read_updateAll
    (@children_update (fun node => { node with readOnly := true })
      fun _ => rfl)
    document ids

theorem size_lock
    (document : Document) (ids : List NodeId) :
    (document.lock ids).nodes.size = document.nodes.size :=
  @read_updateAll _ (fun document => document.nodes.size) _
    (fun _ _ => Array.size_modify ..) document ids

theorem outline_lock
    (document : Document) (ids : List NodeId) :
    (document.lock ids).outline = document.outline := by
  funext id
  rw [outline, outline, size_lock,
    outlineTo_of_children (children_lock document ids)]

theorem Linked.lock
    (linked : document.Linked) (ids : List NodeId) :
    (document.lock ids).Linked :=
  linked.relabelAll (relabels_readOnly true) ids

theorem isSome_lock
    (document : Document) (ids : List NodeId) (id : NodeId) :
    ((document.lock ids).node? id).isSome = (document.node? id).isSome := by
  rw [node?_lock, Option.isSome_map]

/-! ## Where the walk comes -/

/-- Some elements with all below them. -/
def hanging (document : Document) (ids : List NodeId) : List NodeId :=
  ids.flatMap fun id => (document.outline id).toList

theorem hanging_lock
    (document : Document) (ids : List NodeId) :
    (document.lock ids).hanging = document.hanging := by
  funext others
  rw [hanging, hanging, outline_lock]

/-- A step leaves what hangs from the element but the element itself. -/
theorem Linked.hanging_cons
    (linked : document.Linked) (known : document.node? id = some node)
    (pending : List NodeId) :
    (document.hanging (id :: pending)).Perm
      (id :: document.hanging (node.children.reverse ++ pending)) := by
  rw [hanging, hanging, List.flatMap_cons, List.flatMap_append,
    linked.outline_eq, children_of_node? known, Tree.toList,
    toListAll_eq_flatMap, List.flatMap_map, List.cons_append]
  exact
    ((node.children.reverse_perm.symm.flatMap_right _).append_right _).cons id

/-- A walk of enough steps marks the elements on its stack and all that hang
from them. -/
theorem Linked.run_freezeNodes
    (linked : document.Linked) {steps : Nat} {pending : List NodeId}
    (known : ∀ id ∈ pending, (document.node? id).isSome)
    (enough : (document.hanging pending).length ≤ steps) :
    (freezeNodes steps pending).run document =
      .ok () (document.lock (document.hanging pending)) := by
  induction steps generalizing document pending with
  | zero =>
      cases pending with
      | nil => rfl
      | cons id pending =>
          obtain ⟨node, found⟩ :=
            Option.isSome_iff_exists.mp (known id List.mem_cons_self)
          rw [(linked.hanging_cons found pending).length_eq] at enough
          exact absurd enough (Nat.not_succ_le_zero _)
  | succ steps ih =>
      cases pending with
      | nil => rfl
      | cons id pending =>
          rw [List.forall_mem_cons] at known
          obtain ⟨node, found⟩ := Option.isSome_iff_exists.mp known.1
          have visited := linked.hanging_cons found pending
          have further :
              ∀ other ∈ node.children.reverse ++ pending,
                ((document.lock [id]).node? other).isSome := by
            intro other member
            rw [isSome_lock]
            rw [List.mem_append, List.mem_reverse] at member
            rcases member with child | member
            · rw [← children_of_node? found] at child
              obtain ⟨_, childFound⟩ :=
                linked.known_of_below found
                  (.single (linked.below_child child))
              rw [childFound]
              rfl
            · exact known.2 other member
          have fewer :
              ((document.lock [id]).hanging
                (node.children.reverse ++ pending)).length ≤ steps := by
            rw [visited.length_eq, List.length_cons] at enough
            rw [hanging_lock]
            exact Nat.le_of_succ_le_succ enough
          have rest := ih (linked.lock [id]) further fewer
          rw [hanging_lock, ← lock_append] at rest
          rw [freezeNodes, run_get_bind, found]
          dsimp only
          rw [run_change_bind]
          refine rest.trans ?_
          exact congrArg _ (lock_congr fun other => visited.mem_iff.symm)

/-- The walk comes to the freezing of a tree, also where that is refused. -/
theorem Linked.freezeByWalk_eq
    (linked : document.Linked) (id : NodeId) :
    (freezeByWalk id).run document = (freeze id).run document := by
  rw [freezeByWalk, run_get_bind, freeze, assertKnown, bind_assoc,
    run_get_bind]
  cases found : document.node? id with
  | none =>
      rw [freezeNodes, run_get_bind, found]
      rfl
  | some node =>
      have alone : document.hanging [id] = (document.outline id).toList :=
        List.flatMap_singleton ..
      have known : ∀ other ∈ [id], (document.node? other).isSome :=
        List.forall_mem_singleton.mpr (by rw [found]; rfl)
      have enough :
          (document.hanging [id]).length ≤ document.nodes.size + 1 := by
        rw [alone]
        exact Nat.le_succ_of_le (linked.length_outline_le found)
      dsimp only
      rw [linked.run_freezeNodes known enough, alone, pure_bind, run_get_bind,
        run_forM_change]
      rfl

/-! ## Roots that are frozen -/

theorem run_freeze
    (known : document.node? id = some node) :
    (freeze id).run document =
      .ok () (document.lock (document.outline id).toList) := by
  rw [freeze, assertKnown, bind_assoc, run_get_bind, known]
  dsimp only
  rw [pure_bind, run_get_bind, run_forM_change]
  rfl

/-- Elements are frozen one after the other, in either way. -/
theorem Linked.run_forM_freeze
    (linked : document.Linked) {ids : List NodeId}
    (known : ∀ id ∈ ids, ∃ node, document.node? id = some node) :
    (ids.forM freeze).run document =
        .ok () (document.lock (document.hanging ids)) ∧
      (ids.forM freezeByWalk).run document =
        .ok () (document.lock (document.hanging ids)) := by
  induction ids generalizing document with
  | nil => exact ⟨rfl, rfl⟩
  | cons id rest ih =>
      rw [List.forall_mem_cons] at known
      obtain ⟨⟨node, found⟩, others⟩ := known
      have first := run_freeze found
      have walked := (linked.freezeByWalk_eq id).trans first
      have both :
          document.lock (document.hanging (id :: rest)) =
            (document.lock (document.outline id).toList).lock
              (document.hanging rest) :=
        lock_append ..
      have further :
          ∀ other ∈ rest, ∃ after,
            (document.lock (document.outline id).toList).node? other =
              some after := by
        simpa only [exists_node?_iff, size_lock] using others
      have later := ih (linked.lock _) further
      rw [hanging_lock, ← both] at later
      exact
        ⟨(run_bind_of_ok first _).trans later.1,
          (run_bind_of_ok walked _).trans later.2⟩

/-- The roots are frozen one after the other. -/
theorem Linked.run_freeze_roots
    (linked : document.Linked) :
    (document.roots.forM freeze).run document =
        .ok () (document.lock (document.hanging document.roots)) ∧
      (document.roots.forM freezeByWalk).run document =
        .ok () (document.lock (document.hanging document.roots)) := by
  apply linked.run_forM_freeze
  intro root isRoot
  obtain ⟨node, known, -⟩ := mem_roots_iff.mp isRoot
  exact ⟨node, known⟩

/-- Where everything hangs from the roots, all of it is frozen with them. -/
theorem Linked.readOnly_of_lock_roots
    (linked : document.Linked)
    (hung : ∀ id node, document.node? id = some node →
      node.parent ≠ .detached)
    (known : (document.lock (document.hanging document.roots)).node? id =
      some node) :
    node.readOnly = true := by
  rw [node?_lock, Option.map_eq_some_iff] at known
  obtain ⟨before, found, rfl⟩ := known
  obtain ⟨root, isRoot, below⟩ := linked.exists_root hung found
  have covered : id ∈ document.hanging document.roots :=
    List.mem_flatMap.mpr ⟨root, isRoot, linked.mem_outline below⟩
  rw [if_pos covered]

/-- A mark does not change where an element hangs nor who sent it. -/
theorem marks_of_lock
    {ids : List NodeId}
    (known : (document.lock ids).node? id = some node) :
    ∃ before, document.node? id = some before ∧
      node.stored = before.stored ∧ node.parent = before.parent := by
  rw [node?_lock, Option.map_eq_some_iff] at known
  obtain ⟨before, found, rfl⟩ := known
  refine ⟨before, found, ?_, ?_⟩ <;> split <;> rfl

end AmlExchange.Document
