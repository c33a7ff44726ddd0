import AmlExchange.Proofs.Document.Editing

/-!
# What changes come to

A change that nothing refuses comes to a document that can be written down.
Here this is done for the removal of all content and for the setting of a
value, which leaves an element with that value and nothing else.
-/

namespace AmlExchange.Document

variable {α β : Type} {document next : Document} {id : NodeId} {node : Node}

/-! ## Steps of a run -/

theorem run_bind_of_ok
    {edit : Edit α} {result : α}
    (reached : edit.run document = .ok result next)
    (second : α → Edit β) :
    (edit >>= second).run document = (second result).run next := by
  rw [EStateM.run_bind, reached]

/-- Two changes come to an outcome where each of them comes to one. -/
theorem run_bind_eq_ok_iff
    {first : Edit α} {second : α → Edit β} {result : β} :
    (first >>= second).run document = .ok result next ↔
      ∃ middle between, first.run document = .ok middle between ∧
        (second middle).run between = .ok result next := by
  rw [EStateM.run_bind]
  cases reached : first.run document with
  | ok middle between => simp
  | error fault between => simp

theorem run_get_bind
    (second : Document → Edit β) :
    (get >>= second).run document = (second document).run document :=
  rfl

theorem run_change_bind
    (id : NodeId) (change : Node → Node) (second : Unit → Edit β) :
    (Document.change id change >>= second).run document =
      (second ()).run (document.update id change) :=
  rfl

theorem run_assertModifiable
    (known : document.node? id = some node)
    (free : node.readOnly = false) :
    (assertModifiable id).run document = .ok () document := by
  rw [assertModifiable, run_get_bind, known]
  simp only [free]
  rfl

theorem run_assertModifiable_eq_ok_iff
    {id : NodeId} {result : Unit} :
    (assertModifiable id).run document = .ok result next ↔
      next = document ∧
        ∃ node, document.node? id = some node ∧ node.readOnly = false := by
  constructor
  · intro reached
    rw [assertModifiable, run_get_bind] at reached
    cases known : document.node? id with
    | none =>
        rw [known] at reached
        cases reached
    | some node =>
        rw [known] at reached
        cases locked : node.readOnly with
        | true =>
            simp only [locked] at reached
            cases reached
        | false =>
            simp only [locked] at reached
            cases reached
            exact ⟨rfl, node, rfl, locked⟩
  · rintro ⟨rfl, node, known, free⟩
    exact run_assertModifiable known free

theorem run_forM_change
    (ids : List NodeId) (change : Node → Node) :
    (ids.forM fun id => Document.change id change).run document =
      .ok () (document.updateAll ids change) := by
  induction ids generalizing document with
  | nil => rfl
  | cons id rest ih => exact ih

theorem run_detachChildren
    (id : NodeId) :
    (detachChildren id).run document = .ok () (document.shed id) := by
  rw [detachChildren, run_get_bind, run_change_bind]
  exact run_forM_change _ _

theorem run_assertNotAbove_eq_ok
    {child : NodeId} {result : Unit}
    (reached : (assertNotAbove child id).run document = .ok result next) :
    next = document ∧ child ≠ id := by
  rw [assertNotAbove, run_get_bind] at reached
  split at reached
  · cases reached
  · next apart =>
      cases reached
      exact ⟨rfl, fun same => apart (.inl same)⟩

theorem run_attach
    (document : Document) (id child : NodeId) :
    (attach id child).run document =
      .ok () ((document.hang id child).update id Node.syncFlags) :=
  rfl

theorem node?_push
    (document : Document) (node : Node) :
    (document.push node).node? document.nextId = some node := by
  simp [node?, push, nextId]

theorem node?_push_of_known
    (known : document.node? id = some node) (last : Node) :
    (document.push last).node? id = some node := by
  have before := lt_of_node? known
  simp only [node?, push] at known ⊢
  rw [Array.getElem?_push_lt before, ← known]
  exact (Array.getElem?_eq_getElem before).symm

/-! ## What a change of one element keeps -/

theorem children_update
    {change : Node → Node}
    (kept : ∀ node, (change node).children = node.children)
    (document : Document) (id : NodeId) :
    (document.update id change).children = document.children := by
  funext other
  rw [children_eq, children_eq, node?_update]
  split
  · rw [Option.map_map]
    cases document.node? other with
    | none => rfl
    | some node => exact kept node
  · rfl

theorem name_eq
    (document : Document) (id : NodeId) :
    document.name id =
      ((document.node? id).map fun node => node.label.name).getD "" := by
  rw [name, label]
  cases document.node? id <;> rfl

theorem name_update
    {change : Node → Node}
    (kept : ∀ node, (change node).label.name = node.label.name)
    (document : Document) (id : NodeId) :
    (document.update id change).name = document.name := by
  funext other
  rw [name_eq, name_eq, node?_update]
  split
  · rw [Option.map_map]
    cases document.node? other with
    | none => rfl
    | some node => exact kept node
  · rfl

theorem label_update
    {change : Node → Node}
    (kept : ∀ node, (change node).label = node.label)
    (document : Document) (id : NodeId) :
    (document.update id change).label = document.label := by
  funext other
  rw [label, label, node?_update]
  split
  · rw [Option.map_map]
    cases document.node? other with
    | none => rfl
    | some node => exact kept node
  · rfl

theorem outlineTo_of_children
    {document next : Document} (same : next.children = document.children)
    (depth : Nat) :
    next.outlineTo depth = document.outlineTo depth := by
  induction depth with
  | zero => rfl
  | succ depth ih =>
      funext id
      rw [outlineTo, outlineTo, same, ih]

theorem tree_update
    {change : Node → Node} (label : ∀ node, (change node).label = node.label)
    (children : ∀ node, (change node).children = node.children)
    (document : Document) (id : NodeId) :
    (document.update id change).tree = document.tree := by
  have size :
      (document.update id change).nodes.size = document.nodes.size :=
    Array.size_modify ..
  have outline :=
    outlineTo_of_children (children_update children document id)
      document.nodes.size
  funext other
  rw [tree, tree, Document.outline, Document.outline, size, outline,
    label_update label]

/-- What one change keeps, several of them keep. -/
theorem read_updateAll
    {γ : Type} {read : Document → γ} {change : Node → Node}
    (kept : ∀ document id, read (document.update id change) = read document)
    (document : Document) (ids : List NodeId) :
    read (document.updateAll ids change) = read document := by
  induction ids generalizing document with
  | nil => rfl
  | cons id rest ih => exact (ih _).trans (kept document id)

/-! ## All content removed -/

theorem locale_shed
    (document : Document) (id : NodeId) :
    (document.shed id).locale = document.locale :=
  read_updateAll (by intros; rfl) _ _

theorem shed_setContent
    (document : Document) (id : NodeId) (content : Value) :
    (document.update id fun node => node.setContent content).shed id =
      (document.shed id).update id fun node => node.setContent content := by
  refine eq_of_node?_eq ?_ ?_
  · rw [locale_shed]
    exact (locale_shed document id).symm
  intro other
  have same :
      (document.update id fun node => node.setContent content).children =
        document.children :=
    children_update (by intro; rfl) document id
  rw [node?_shed, same, node?_update, node?_update, node?_shed]
  cases document.node? other with
  | none => simp
  | some node =>
      by_cases atId : id = other
      · subst atId
        simp only [if_pos, Option.map_some]
        split <;> rfl
      · simp only [if_neg atId]

theorem shed_shed
    (document : Document) (id : NodeId) :
    (document.shed id).shed id = document.shed id := by
  have childless : (document.shed id).children id = [] := by
    rw [children_shed, Function.update_self]
  refine eq_of_node?_eq (locale_shed _ id) ?_
  intro other
  rw [node?_shed, childless, node?_shed]
  cases document.node? other with
  | none => rfl
  | some node =>
      by_cases same : other = id
      · subst same
        simp only [Option.map_some, if_pos, List.not_mem_nil, if_false]
        split <;> rfl
      · simp only [Option.map_some, if_neg same, List.not_mem_nil, if_false]

theorem update_update
    (document : Document) (id : NodeId) (first second : Node → Node) :
    (document.update id first).update id second =
      document.update id fun node => second (first node) := by
  refine eq_of_node?_eq rfl ?_
  intro other
  rw [node?_update, node?_update, node?_update]
  split
  · rw [Option.map_map]
    rfl
  · rfl

/-- A document in which an element holds nothing. -/
def clear (document : Document) (id : NodeId) : Document :=
  (document.shed id).update id fun node => node.setContent .null

/-! ## A value set -/

/-- A document in which an element holds a value and nothing else. -/
def hold (document : Document) (id : NodeId) (value : Value) : Document :=
  (document.shed id).update id fun node => (node.setContent value).syncFlags

theorem exists_setRange
    (node : Node) (condition : Condition) (definition : Option String) :
    ∃ attributes, node.setRange condition definition =
      { node with label := { node.label with attributes } } := by
  rw [Node.setRange]
  split
  · exact ⟨_, rfl⟩
  · dsimp only
    split <;> exact ⟨_, rfl⟩

/-- Only attributes tell of a value. -/
theorem exists_syncFlags
    (node : Node) :
    ∃ attributes, node.syncFlags =
      { node with label := { node.label with attributes } } := by
  rw [Node.syncFlags]
  split
  · exact ⟨_, rfl⟩
  · split
    · exact ⟨_, rfl⟩
    · dsimp only
      split
      · exact exists_setRange (node.eraseAttribute AttributeName.isNull) _ _
      · exact exists_setRange (node.eraseAttribute AttributeName.isNull) _ _
      · exact ⟨_, rfl⟩

theorem name_syncFlags
    (node : Node) :
    node.syncFlags.label.name = node.label.name := by
  obtain ⟨attributes, same⟩ := exists_syncFlags node
  rw [same]

theorem children_hold
    (document : Document) (id : NodeId) (value : Value) :
    (document.hold id value).children =
      Function.update document.children id [] := by
  rw [hold, children_update, children_shed]
  intro node
  exact relabels_syncFlags.children _

theorem name_hold
    (document : Document) (id : NodeId) (value : Value) :
    (document.hold id value).name = document.name := by
  have detached :=
    read_updateAll (@name_update Node.detach fun _ => rfl)
  rw [hold, name_update, shed, detached, name_update]
  · exact fun _ => rfl
  · intro node
    exact name_syncFlags _

/-- A value that is set hides no child of another element. -/
theorem child?_hold
    {other : NodeId} (differs : other ≠ id) (value : Value) (name : String) :
    (document.hold id value).child? other name =
      document.child? other name := by
  rw [child?, child?, children_hold, Function.update_of_ne differs, name_hold]

theorem hold_clear
    (document : Document) (id : NodeId) (value : Value) :
    (document.clear id).hold id value = document.hold id value := by
  rw [hold, clear, shed_setContent, shed_shed, update_update]
  rfl

theorem run_clearContent
    (id : NodeId) :
    (clearContent id).run document = .ok () (document.clear id) := by
  rw [clearContent, run_change_bind, run_detachChildren, shed_setContent]
  rfl

theorem run_addValue
    {value : Value} (some : value ≠ .null) :
    (addValue id value).run document = .ok () (document.hold id value) := by
  have present : value.isNull = false := by
    cases value with
    | null => exact absurd rfl some
    | _ => rfl
  rw [addValue, present, if_neg Bool.false_ne_true,
    run_bind_of_ok (run_clearContent id)]
  show EStateM.Result.ok () ((document.clear id).update id _) = _
  rw [clear, update_update]
  rfl

theorem node?_clear
    (known : document.node? id = some node) :
    ∃ after, (document.clear id).node? id = some after ∧
      after.readOnly = node.readOnly := by
  rw [clear, node?_update_self, node?_shed, known]
  refine ⟨_, rfl, ?_⟩
  simp only [if_pos]
  split <;> rfl

/-- Setting a value is never refused where the element may be changed. -/
theorem run_set_value
    (known : document.node? id = some node)
    (free : node.readOnly = false) (value : Value) :
    (set id (.value value)).run document =
      .ok () (document.hold id value) := by
  by_cases null : value = .null
  · subst null
    rw [set, run_bind_of_ok (run_assertModifiable known free),
      run_bind_of_ok (run_clearContent id)]
    show EStateM.Result.ok () ((document.clear id).update id _) = _
    rw [clear, update_update]
    rfl
  · obtain ⟨after, kept, same⟩ := node?_clear known
    rw [set, run_bind_of_ok (run_assertModifiable known free),
      run_bind_of_ok (run_clearContent id), add,
      run_bind_of_ok (run_assertModifiable kept (same.trans free)),
      run_addValue null, hold_clear]
    simpa using null

end AmlExchange.Document
