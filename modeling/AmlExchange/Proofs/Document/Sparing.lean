import AmlExchange.Proofs.Document.Reachable
import AmlExchange.Proofs.Document.Runs

/-!
# Read-only elements

A change that is refused halfway leaves behind what it did before.  What an
edit leaves behind has every read-only element as it was, but for where it
hangs: the edits write to elements that may be changed, or to new ones
(`Spares`).
-/

namespace AmlExchange.Document

variable {α β : Type} {document next : Document} {id child : NodeId}
  {node : Node}

/-! ## What a change leaves behind -/

theorem after_eq_of_ok
    {edit : Edit α} {result : α}
    (reached : edit.run document = .ok result next) :
    document.after edit = next := by
  rw [after, reached]

/-- What the first of two changes leaves behind has to hold in case that it is
refused. -/
theorem holds_after_bind
    {holds : Document → Prop} {first : Edit α} {second : α → Edit β}
    (stopped : holds (document.after first))
    (went : ∀ result next, first.run document = .ok result next →
      holds next → holds (next.after (second result))) :
    holds (document.after (first >>= second)) := by
  rw [after] at stopped ⊢
  rw [EStateM.run_bind]
  cases reached : first.run document with
  | ok result next =>
      rw [reached] at stopped
      exact went result next reached stopped
  | error fault next =>
      rw [reached] at stopped
      exact stopped

theorem after_get_bind
    (second : Document → Edit β) :
    document.after (get >>= second) = document.after (second document) :=
  rfl

theorem after_assertModifiable
    (document : Document) (id : NodeId) :
    document.after (assertModifiable id) = document := by
  rw [after, assertModifiable, run_get_bind]
  cases document.node? id with
  | none => rfl
  | some node =>
      dsimp only
      cases node.readOnly <;> rfl

theorem holds_after_assertModifiable
    {holds : Document → Prop} {second : Unit → Edit β}
    (stopped : holds document)
    (went : ∀ node, document.node? id = some node → node.readOnly = false →
      holds (document.after (second ()))) :
    holds (document.after (assertModifiable id >>= second)) := by
  apply holds_after_bind
  · rw [after_assertModifiable]
    exact stopped
  · intro _ next reached _
    obtain ⟨rfl, node, known, free⟩ :=
      run_assertModifiable_eq_ok_iff.mp reached
    exact went node known free

theorem after_assertNotAbove
    (document : Document) (child id : NodeId) :
    document.after (assertNotAbove child id) = document := by
  rw [after, assertNotAbove, run_get_bind]
  split
  · next reached =>
      split at reached
      · cases reached
      · cases reached
        rfl
  · next reached =>
      split at reached
      · cases reached
        rfl
      · cases reached

/-! ## Read-only elements spared -/

/-- Whether the read-only elements of a document stay as they are, but for
where they hang. -/
def Spares (document next : Document) : Prop :=
  ∀ id node, document.node? id = some node → node.readOnly = true →
    ∃ after, next.node? id = some after ∧ after.readOnly = true ∧
      after.label = node.label ∧ after.children = node.children

theorem Spares.refl
    (document : Document) :
    Spares document document :=
  fun _ node known locked => ⟨node, known, locked, rfl, rfl⟩

theorem Spares.trans
    {last : Document} (first : Spares document next)
    (second : Spares next last) :
    Spares document last := by
  intro id node known locked
  obtain ⟨between, kept, still, label, children⟩ := first id node known locked
  obtain ⟨after, found, locked, labelAfter, childrenAfter⟩ :=
    second id between kept still
  exact
    ⟨after, found, locked, labelAfter.trans label,
      childrenAfter.trans children⟩

theorem node?_of_isReadOnly
    (locked : document.isReadOnly id = true) :
    ∃ node, document.node? id = some node ∧ node.readOnly = true := by
  rw [isReadOnly] at locked
  cases known : document.node? id with
  | none =>
      rw [known] at locked
      cases locked
  | some node =>
      rw [known] at locked
      exact ⟨node, rfl, locked⟩

theorem isReadOnly_of_node?
    (known : document.node? id = some node) :
    document.isReadOnly id = node.readOnly := by
  rw [isReadOnly, known]
  rfl

theorem label_of_node?
    (known : document.node? id = some node) :
    document.label id = node.label := by
  rw [label, known]
  rfl

/-- What spares a read-only element keeps its mark, its label and its
children. -/
theorem Spares.kept
    (spares : Spares document next)
    (locked : document.isReadOnly id = true) :
    next.isReadOnly id = true ∧ next.label id = document.label id ∧
      next.children id = document.children id := by
  obtain ⟨node, known, readOnly⟩ := node?_of_isReadOnly locked
  obtain ⟨after, found, still, label, children⟩ := spares id node known readOnly
  refine ⟨?_, ?_, ?_⟩
  · rw [isReadOnly_of_node? found, still]
  · rw [label_of_node? found, label_of_node? known, label]
  · rw [children_of_node? found, children_of_node? known, children]

/-- Whether an element is not read-only. -/
def Free (document : Document) (id : NodeId) : Prop :=
  ∀ node, document.node? id = some node → node.readOnly = false

theorem free_of_node?
    (known : document.node? id = some node)
    (free : node.readOnly = false) :
    Free document id := by
  intro other found
  rw [known] at found
  cases found
  exact free

theorem Free.update
    (free : Free document id) (other : NodeId) {change : Node → Node}
    (kept : ∀ node, (change node).readOnly = node.readOnly) :
    Free (document.update other change) id := by
  intro after found
  rw [node?_update] at found
  split at found
  · obtain ⟨node, known, rfl⟩ := Option.map_eq_some_iff.mp found
    rw [kept]
    exact free node known
  · exact free after found

theorem Free.shed
    (free : Free document id) (other : NodeId) :
    Free (document.shed other) id := by
  intro after found
  rw [node?_shed] at found
  obtain ⟨node, known, rfl⟩ := Option.map_eq_some_iff.mp found
  rw [← free node known]
  dsimp only
  split <;> split <;> rfl

/-- An element that is not read-only may be changed in any way. -/
theorem spares_update
    (free : Free document id) (change : Node → Node) :
    Spares document (document.update id change) := by
  intro other node known locked
  have differs : other ≠ id := by
    rintro rfl
    rw [free node known] at locked
    cases locked
  rw [node?_update_of_ne differs]
  exact ⟨node, known, locked, rfl, rfl⟩

/-- Every element may be hung elsewhere. -/
theorem spares_update_parent
    (document : Document) (id : NodeId) (parent : Parent) :
    Spares document (document.update id fun node => { node with parent }) := by
  intro other node known locked
  rw [node?_update, known]
  split
  · exact ⟨_, rfl, locked, rfl, rfl⟩
  · exact ⟨_, rfl, locked, rfl, rfl⟩

theorem spares_updateAll
    {change : Node → Node} {ids : List NodeId}
    (spares : ∀ document id, Spares document (document.update id change)) :
    Spares document (document.updateAll ids change) := by
  induction ids generalizing document with
  | nil => exact .refl document
  | cons id rest ih => exact (spares document id).trans ih

theorem spares_shed
    (free : Free document id) :
    Spares document (document.shed id) := by
  apply (spares_update free Node.childless).trans
  apply spares_updateAll
  intro document id
  exact spares_update_parent document id .detached

theorem spares_attach
    (free : Free document id) (child : NodeId) :
    Spares document (document.after (attach id child)) := by
  rw [after_eq_of_ok (run_attach document id child)]
  apply Spares.trans (spares_update free _)
  apply Spares.trans (spares_update_parent _ child (.attached id))
  apply spares_update
  apply Free.update
  · exact free.update id fun _ => rfl
  · exact fun _ => rfl

theorem spares_plant
    (document : Document) (tree : Element) :
    Spares document (document.plant tree) :=
  fun _ node known locked =>
    ⟨node, node?_plant known tree, locked, rfl, rfl⟩

/-! ## What edits spare -/

theorem spares_create
    (document : Document) (label : Label) :
    Spares document
      (document.after (create ⟨label, [], .root, false, false⟩)) := by
  show Spares document (document.push _)
  rw [push_eq_plant]
  exact spares_plant document _

theorem run_cloneSubtree_eq_ok
    {result : NodeId}
    (reached : (cloneSubtree id).run document = .ok result next) :
    next = document.plant (document.tree id) := by
  rw [cloneSubtree, assertKnown, bind_assoc, run_get_bind] at reached
  cases known : document.node? id with
  | none =>
      rw [known] at reached
      cases reached
  | some node =>
      rw [known] at reached
      cases reached
      rfl

theorem spares_cloneSubtree
    (document : Document) (id : NodeId) :
    Spares document (document.after (cloneSubtree id)) := by
  rw [after, cloneSubtree, assertKnown, bind_assoc, run_get_bind]
  cases document.node? id with
  | none => exact .refl document
  | some node => exact spares_plant document _

theorem spares_hold
    (free : Free document id) (value : Value) :
    Spares document (document.hold id value) :=
  (spares_shed free).trans (spares_update (free.shed id) _)

theorem spares_addValue
    (free : Free document id) (value : Value) :
    Spares document (document.after (addValue id value)) := by
  by_cases null : value = .null
  · subst null
    exact spares_update free Node.syncFlags
  · rw [after_eq_of_ok (run_addValue null)]
    exact spares_hold free value

theorem spares_clearContent
    (free : Free document id) :
    Spares document (document.after (clearContent id)) := by
  rw [after_eq_of_ok (run_clearContent id)]
  exact (spares_shed free).trans (spares_update (free.shed id) _)

/-- An element and all below it marked read-only. -/
theorem run_freeze_eq_ok
    {result : Unit}
    (reached : (freeze id).run document = .ok result next) :
    (∃ node, document.node? id = some node) ∧
      next =
        document.updateAll (document.outline id).toList fun node =>
          { node with readOnly := true } := by
  rw [freeze, assertKnown, bind_assoc, run_get_bind] at reached
  cases known : document.node? id with
  | none =>
      rw [known] at reached
      cases reached
  | some node =>
      rw [known] at reached
      dsimp only at reached
      rw [pure_bind, run_get_bind, run_forM_change] at reached
      cases reached
      exact ⟨⟨node, rfl⟩, rfl⟩

theorem spares_lock
    (document : Document) (ids : List NodeId) :
    Spares document
      (document.updateAll ids fun node => { node with readOnly := true }) := by
  apply spares_updateAll
  intro document id other node known locked
  rw [node?_update, known]
  split
  · exact ⟨_, rfl, rfl, rfl, rfl⟩
  · exact ⟨_, rfl, locked, rfl, rfl⟩

end AmlExchange.Document
