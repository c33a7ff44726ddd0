import AmlExchange.Proofs.Document.Sparing

/-!
# What a refused change leaves

Most changes are checked before anything is done, so that a refusal leaves the
document as it was (`Atomic`).  Several contents that are put in one after the
other are checked each in its turn: a refusal leaves what was put in before it,
and nothing else (`refusals_of_reachable`).
-/

namespace AmlExchange.Document

variable {α β : Type} {document next : Document} {id child : NodeId}
  {fault : Fault}

/-! ## Changes made as a whole or not at all -/

/-- Whether a change leaves a document as it was where it is refused. -/
def Atomic (edit : Edit α) (document : Document) : Prop :=
  ∀ fault next, edit.run document = .error fault next → next = document

/-- Whether a document grants a change. -/
def Grants (document : Document) (edit : Edit α) : Prop :=
  ∃ result next, edit.run document = .ok result next

theorem Grants.atomic
    {edit : Edit α} (grants : document.Grants edit) :
    Atomic edit document := by
  intro fault next refused
  obtain ⟨result, reached, ran⟩ := grants
  rw [ran] at refused
  cases refused

theorem atomic_refuse
    (refusal : Refusal) (document : Document) :
    Atomic (refuse refusal : Edit α) document := by
  intro fault next refused
  cases refused
  rfl

theorem run_bind_eq_error_iff
    {first : Edit α} {second : α → Edit β} :
    (first >>= second).run document = .error fault next ↔
      first.run document = .error fault next ∨
        ∃ middle between, first.run document = .ok middle between ∧
          (second middle).run between = .error fault next := by
  rw [EStateM.run_bind]
  cases reached : first.run document with
  | ok middle between => simp
  | error fault between => simp

/-- What follows a change that is made as a whole must not be refused, unless
nothing was changed yet. -/
theorem Atomic.bind
    {first : Edit α} {second : α → Edit β} (atomic : Atomic first document)
    (went : ∀ result next, first.run document = .ok result next →
      next = document ∧ Atomic (second result) document ∨
        next.Grants (second result)) :
    Atomic (first >>= second) document := by
  intro fault next refused
  rcases run_bind_eq_error_iff.mp refused with
    early | ⟨result, between, reached, late⟩
  · exact atomic fault next early
  · rcases went result between reached with ⟨rfl, second⟩ | granted
    · exact second fault next late
    · obtain ⟨last, final, ran⟩ := granted
      rw [ran] at late
      cases late

theorem atomic_of_kept
    {edit : Edit α} (kept : document.after edit = document) :
    Atomic edit document := by
  intro fault next refused
  rwa [after, refused] at kept

theorem atomic_assertModifiable_bind
    {second : Unit → Edit β}
    (went : ∀ node, document.node? id = some node → node.readOnly = false →
      Atomic (second ()) document) :
    Atomic (assertModifiable id >>= second) document := by
  apply (atomic_of_kept (after_assertModifiable document id)).bind
  intro _ next reached
  obtain ⟨same, node, known, free⟩ := run_assertModifiable_eq_ok_iff.mp reached
  exact .inl ⟨same, went node known free⟩

theorem atomic_assertNotAbove_bind
    {second : Unit → Edit β} (granted : document.Grants (second ())) :
    Atomic (assertNotAbove child id >>= second) document := by
  apply (atomic_of_kept (after_assertNotAbove document child id)).bind
  intro _ next reached
  obtain ⟨rfl, -⟩ := run_assertNotAbove_eq_ok reached
  exact .inr granted

theorem atomic_get_bind
    {second : Document → Edit β} (went : Atomic (second document) document) :
    Atomic (get >>= second) document :=
  went

theorem grants_attach
    (document : Document) (id child : NodeId) :
    document.Grants (attach id child) :=
  ⟨_, _, run_attach document id child⟩

theorem atomic_cloneSubtree
    (document : Document) (id : NodeId) :
    Atomic (cloneSubtree id) document := by
  rw [cloneSubtree, assertKnown, bind_assoc]
  apply atomic_get_bind
  cases document.node? id with
  | none => exact atomic_refuse _ _
  | some node => exact Grants.atomic ⟨_, _, rfl⟩

theorem atomic_importFrom
    (document source : Document) (id : NodeId) :
    Atomic (importFrom source id) document := by
  rw [importFrom]
  cases source.node? id with
  | none => exact atomic_refuse _ _
  | some node => exact Grants.atomic ⟨_, _, rfl⟩

/-- An element is checked before it is put below another. -/
theorem atomic_addNode
    (document : Document) (id child : NodeId) :
    Atomic (addNode id child) document := by
  have hung :
      Atomic
        (do
          assertNotAbove child id
          attach id child)
        document :=
    atomic_assertNotAbove_bind (grants_attach document id child)
  rw [addNode]
  apply atomic_get_bind
  split
  · exact atomic_refuse _ _
  · split
    · next parent hangs =>
        split
        · exact Grants.atomic ⟨_, _, rfl⟩
        · apply atomic_get_bind
          split
          · apply (atomic_cloneSubtree document child).bind
            intro copy next _
            exact .inr (grants_attach next id copy)
          · apply atomic_assertNotAbove_bind
            exact ⟨_, _, run_attach _ id child⟩
    · exact hung
    · exact hung

theorem grants_addValue
    (document : Document) (id : NodeId) (value : Value) :
    document.Grants (addValue id value) := by
  by_cases null : value = .null
  · subst null
    exact ⟨_, _, rfl⟩
  · exact ⟨_, _, run_addValue null⟩

theorem atomic_remove
    (document : Document) (id : NodeId) :
    Atomic (remove id) document := by
  apply atomic_assertModifiable_bind
  intro node known free
  apply atomic_get_bind
  split
  · apply atomic_assertModifiable_bind
    intro _ _ _
    exact Grants.atomic ⟨_, _, rfl⟩
  · exact Grants.atomic ⟨_, _, rfl⟩
  · exact Grants.atomic ⟨_, _, rfl⟩
  · exact Grants.atomic ⟨_, _, rfl⟩

theorem atomic_removeNodes
    (document : Document) (id : NodeId) :
    Atomic (removeNodes id) document := by
  apply atomic_assertModifiable_bind
  intro _ _ _
  exact Grants.atomic ⟨_, _, run_detachChildren id⟩

/-- A change of one element that may be changed is never refused. -/
theorem atomic_assertModifiable_change
    (document : Document) (id : NodeId) (change : Node → Node) :
    Atomic
      (do
        assertModifiable id
        Document.change id change)
      document := by
  apply atomic_assertModifiable_bind
  intro _ _ _
  exact Grants.atomic ⟨_, _, rfl⟩

/-- A new property lies above nothing, so that it can always be put into its
item. -/
theorem Linked.grants_hang_push
    (linked : document.Linked) {node : Node}
    (known : document.node? id = some node) (label : Label) :
    (document.push ⟨label, [], .root, false, false⟩).Grants
      (addNode id document.nextId) := by
  have before := lt_of_node? known
  have apart :
      ¬ (document.nextId = id ∨
        (document.push ⟨label, [], .root, false, false⟩).isAncestor
          document.nextId id = true) := by
    rintro (same | above)
    · exact absurd before (Nat.not_lt_of_le same.le)
    · rw [push_eq_plant, isAncestor, List.contains_eq_mem,
        decide_eq_true_iff, (linked.plant_leaf label).mem_ancestors] at above
      exact
        linked.not_above_plant (valid_leaf label) before above.to_reflTransGen
  rw [Grants, addNode, run_get_bind, node?_push]
  dsimp only
  rw [assertNotAbove, bind_assoc, run_get_bind, if_neg apart]
  exact ⟨_, _, run_attach _ _ _⟩

theorem Linked.atomic_propertyNode
    (linked : document.Linked) (item : NodeId) (name : String) :
    Atomic (propertyNode item name) document := by
  apply atomic_get_bind
  cases document.child? item name with
  | some property => exact Grants.atomic ⟨_, _, rfl⟩
  | none =>
      apply atomic_assertModifiable_bind
      intro node known _
      obtain ⟨_, next, added⟩ :=
        linked.grants_hang_push known (.bare name .property)
      apply Grants.atomic
      refine ⟨document.nextId, next, ?_⟩
      rw [run_bind_of_ok (show (createProperty name).run document = .ok _ _
        from rfl)]
      exact run_bind_of_ok added _

/-! ## Contents put in one after the other -/

mutual

/-- The contents that some content puts in, one after the other. -/
def Content.leaves : Content → List Content
  | .many members => Content.leavesAll members
  | leaf => [leaf]

/-- The contents that some contents put in, one after the other. -/
def Content.leavesAll : List Content → List Content
  | [] => []
  | member :: rest => member.leaves ++ Content.leavesAll rest

end

/-- Whether an element is known and not read-only. -/
def Modifiable (id : NodeId) (document : Document) : Prop :=
  ∃ node, document.node? id = some node ∧ node.readOnly = false

theorem Modifiable.update
    (modifiable : document.Modifiable id) (other : NodeId)
    {change : Node → Node}
    (kept : ∀ node, (change node).readOnly = node.readOnly) :
    (document.update other change).Modifiable id := by
  obtain ⟨node, known, free⟩ := modifiable
  rw [Modifiable, node?_update, known]
  split
  · exact ⟨change node, rfl, (kept node).trans free⟩
  · exact ⟨node, rfl, free⟩

theorem readOnly_syncFlags
    (node : Node) :
    node.syncFlags.readOnly = node.readOnly := by
  obtain ⟨attributes, same⟩ := exists_syncFlags node
  rw [same]

theorem Modifiable.shed
    (modifiable : document.Modifiable id) (other : NodeId) :
    (document.shed other).Modifiable id := by
  obtain ⟨node, known, free⟩ := modifiable
  rw [Modifiable, node?_shed, known]
  refine ⟨_, rfl, ?_⟩
  dsimp only
  split <;> split <;> exact free

theorem Modifiable.clear
    (modifiable : document.Modifiable id) (other : NodeId) :
    (document.clear other).Modifiable id :=
  (modifiable.shed other).update other fun _ => rfl

theorem Modifiable.after_cloneSubtree
    (modifiable : document.Modifiable id) (child : NodeId) :
    (document.after (cloneSubtree child)).Modifiable id := by
  obtain ⟨node, known, free⟩ := modifiable
  rw [after, cloneSubtree, assertKnown, bind_assoc, run_get_bind]
  cases document.node? child with
  | none => exact ⟨node, known, free⟩
  | some childNode => exact ⟨node, node?_plant known _, free⟩

theorem Modifiable.after_attach
    (modifiable : document.Modifiable id) (other child : NodeId) :
    (document.after (attach other child)).Modifiable id := by
  rw [after_eq_of_ok (run_attach document other child), hang]
  refine Modifiable.update ?_ other readOnly_syncFlags
  refine Modifiable.update ?_ child fun _ => rfl
  exact modifiable.update other fun _ => rfl

theorem after_change_bind
    (id : NodeId) (change : Node → Node) (second : Unit → Edit β) :
    document.after (Document.change id change >>= second) =
      (document.update id change).after (second ()) :=
  rfl

theorem Modifiable.after_addNode
    (modifiable : document.Modifiable id) (other child : NodeId) :
    (document.after (addNode other child)).Modifiable id := by
  have hung :
      (document.after do
        assertNotAbove child other
        attach other child).Modifiable id := by
    apply holds_after_bind
    · rwa [after_assertNotAbove]
    · intro _ next reached _
      obtain ⟨rfl, -⟩ := run_assertNotAbove_eq_ok reached
      exact modifiable.after_attach other child
  rw [addNode, after_get_bind]
  split
  · exact modifiable
  · split
    · next parent hangs =>
        split
        · exact modifiable
        · rw [after_get_bind]
          split
          · apply holds_after_bind
            · exact modifiable.after_cloneSubtree child
            · intro copy next _ kept
              exact kept.after_attach other copy
          · apply holds_after_bind
            · rwa [after_assertNotAbove]
            · intro _ next reached _
              obtain ⟨rfl, -⟩ := run_assertNotAbove_eq_ok reached
              rw [dropChild, after_change_bind]
              apply Modifiable.after_attach
              exact modifiable.update parent fun _ => rfl
    · exact hung
    · exact hung

theorem Modifiable.after_addValue
    (modifiable : document.Modifiable id) (value : Value) :
    (document.after (addValue id value)).Modifiable id := by
  by_cases null : value = .null
  · subst null
    exact modifiable.update id readOnly_syncFlags
  · rw [after_eq_of_ok (run_addValue null), hold]
    apply (modifiable.shed id).update id
    intro node
    exact readOnly_syncFlags _

mutual

/-- Content that is put into an element leaves it one that may be changed. -/
theorem Modifiable.after_add
    {document : Document} (modifiable : document.Modifiable id)
    (content : Content) :
    (document.after (add id content)).Modifiable id := by
  cases content with
  | node child =>
      rw [add]
      apply holds_after_assertModifiable modifiable
      intro _ _ _
      exact modifiable.after_addNode id child
  | field name value =>
      rw [add]
      apply holds_after_assertModifiable modifiable
      intro _ _ _
      exact modifiable.update id fun _ => rfl
  | value value =>
      rw [add]
      apply holds_after_assertModifiable modifiable
      intro _ _ _
      exact modifiable.after_addValue value
  | many members =>
      rw [add]
      apply holds_after_assertModifiable modifiable
      intro _ _ _
      exact Modifiable.after_addAll modifiable members

theorem Modifiable.after_addAll
    {document : Document} (modifiable : document.Modifiable id)
    (members : List Content) :
    (document.after (addAll id members)).Modifiable id := by
  cases members with
  | nil => exact modifiable
  | cons member rest =>
      rw [addAll]
      apply holds_after_bind
      · exact Modifiable.after_add modifiable member
      · intro _ next _ kept
        exact Modifiable.after_addAll kept rest

end

theorem addAll_append
    (id : NodeId) (first second : List Content) :
    addAll id (first ++ second) =
      (addAll id first >>= fun _ => addAll id second) := by
  induction first with
  | nil => rfl
  | cons member rest ih =>
      rw [List.cons_append, addAll, addAll, ih, bind_assoc]

theorem run_addAll_singleton
    (id : NodeId) (content : Content) :
    (addAll id [content]).run document = (add id content).run document := by
  rw [addAll, EStateM.run_bind]
  cases (add id content).run document <;> rfl

theorem Modifiable.run_assertModifiable_bind
    (modifiable : document.Modifiable id) (second : Unit → Edit β) :
    (assertModifiable id >>= second).run document =
      (second ()).run document := by
  obtain ⟨node, known, free⟩ := modifiable
  exact run_bind_of_ok (run_assertModifiable known free) second

mutual

/-- To put content into an element is to put in its leaves one by one. -/
theorem Modifiable.run_add
    {document : Document} (modifiable : document.Modifiable id)
    (content : Content) :
    (add id content).run document =
      (addAll id content.leaves).run document := by
  cases content with
  | many members =>
      rw [add, Content.leaves, modifiable.run_assertModifiable_bind]
      exact Modifiable.run_addAll modifiable members
  | node child => exact (run_addAll_singleton id _).symm
  | field name value => exact (run_addAll_singleton id _).symm
  | value value => exact (run_addAll_singleton id _).symm

theorem Modifiable.run_addAll
    {document : Document} (modifiable : document.Modifiable id)
    (members : List Content) :
    (addAll id members).run document =
      (addAll id (Content.leavesAll members)).run document := by
  cases members with
  | nil => rfl
  | cons member rest =>
      rw [addAll, Content.leavesAll, addAll_append, EStateM.run_bind,
        EStateM.run_bind, ← Modifiable.run_add modifiable member]
      have kept := Modifiable.after_add modifiable member
      cases reached : (add id member).run document with
      | error fault next => rfl
      | ok result next =>
          rw [after_eq_of_ok reached] at kept
          exact Modifiable.run_addAll kept rest

end

/-! ## The content that is refused -/

/-- Whether content is put in at once. -/
def Content.IsLeaf (content : Content) : Prop :=
  ∀ members, content ≠ .many members

mutual

theorem Content.isLeaf_of_mem_leaves
    {content leaf : Content} (member : leaf ∈ content.leaves) :
    leaf.IsLeaf := by
  cases content with
  | many members => exact Content.isLeaf_of_mem_leavesAll member
  | node child =>
      rw [List.mem_singleton.mp member]
      nofun
  | field name value =>
      rw [List.mem_singleton.mp member]
      nofun
  | value value =>
      rw [List.mem_singleton.mp member]
      nofun

theorem Content.isLeaf_of_mem_leavesAll
    {members : List Content} {leaf : Content}
    (member : leaf ∈ Content.leavesAll members) :
    leaf.IsLeaf := by
  cases members with
  | nil => cases member
  | cons first rest =>
      rcases List.mem_append.mp member with here | later
      · exact Content.isLeaf_of_mem_leaves here
      · exact Content.isLeaf_of_mem_leavesAll later

end

theorem atomic_add_leaf
    (document : Document) (id : NodeId) {content : Content}
    (leaf : content.IsLeaf) :
    Atomic (add id content) document := by
  cases content with
  | many members => exact absurd rfl (leaf members)
  | node child =>
      rw [add]
      apply atomic_assertModifiable_bind
      intro _ _ _
      exact atomic_addNode document id child
  | field name value =>
      rw [add]
      exact atomic_assertModifiable_change document id _
  | value value =>
      rw [add]
      apply atomic_assertModifiable_bind
      intro _ _ _
      exact (grants_addValue document id value).atomic

/-- Of all content only an element is refused by one that may be changed. -/
theorem Modifiable.exists_node_of_refused
    (modifiable : document.Modifiable id) {content : Content}
    (leaf : content.IsLeaf)
    (refused : (add id content).run document = .error fault next) :
    ∃ child, content = .node child := by
  cases content with
  | node child => exact ⟨child, rfl⟩
  | many members => exact absurd rfl (leaf members)
  | field name value =>
      rw [add, modifiable.run_assertModifiable_bind] at refused
      cases refused
  | value value =>
      rw [add, modifiable.run_assertModifiable_bind] at refused
      obtain ⟨_, _, ran⟩ := grants_addValue document id value
      rw [ran] at refused
      cases refused

/-- Whether a refusal left what contents before a refused element came to, and
nothing else. -/
def StopsWithin (id : NodeId) (contents : List Content)
    (document : Document) (fault : Fault) (next : Document) : Prop :=
  ∃ before child, before ++ [.node child] <+: contents ∧
    (addAll id before).run document = .ok () next ∧
    (add id (.node child)).run next = .error fault next

theorem Modifiable.stopsWithin_of_leaves
    (modifiable : document.Modifiable id) {contents : List Content}
    (leaves : ∀ content ∈ contents, content.IsLeaf)
    (refused : (addAll id contents).run document = .error fault next) :
    StopsWithin id contents document fault next := by
  induction contents generalizing document with
  | nil => cases refused
  | cons content rest ih =>
      rw [List.forall_mem_cons] at leaves
      rw [addAll] at refused
      rcases run_bind_eq_error_iff.mp refused with
        here | ⟨_, between, granted, later⟩
      · obtain ⟨child, rfl⟩ :=
          modifiable.exists_node_of_refused leaves.1 here
        obtain rfl := atomic_add_leaf document id leaves.1 fault next here
        exact ⟨[], child, by simp, rfl, here⟩
      · have kept := modifiable.after_add content
        rw [after_eq_of_ok granted] at kept
        obtain ⟨before, child, within, ran, stopped⟩ := ih kept leaves.2 later
        refine ⟨content :: before, child, ?_, ?_, stopped⟩
        · exact (List.prefix_cons_inj content).mpr within
        · rw [addAll, run_bind_of_ok granted, ran]

theorem Modifiable.stopsWithin
    (modifiable : document.Modifiable id) {content : Content}
    (refused : (add id content).run document = .error fault next) :
    StopsWithin id content.leaves document fault next := by
  rw [modifiable.run_add] at refused
  apply modifiable.stopsWithin_of_leaves _ refused
  intro leaf
  exact Content.isLeaf_of_mem_leaves

theorem atomic_of_not_modifiable
    (locked : ¬ document.Modifiable id) (second : Unit → Edit β) :
    Atomic (assertModifiable id >>= second) document := by
  apply atomic_assertModifiable_bind
  intro node known free
  exact absurd ⟨node, known, free⟩ locked

theorem atomic_add_of_not_modifiable
    (locked : ¬ document.Modifiable id) (content : Content) :
    Atomic (add id content) document := by
  cases content with
  | node child =>
      rw [add]
      exact atomic_of_not_modifiable locked _
  | field name value =>
      rw [add]
      exact atomic_of_not_modifiable locked _
  | value value =>
      rw [add]
      exact atomic_of_not_modifiable locked _
  | many members =>
      rw [add]
      exact atomic_of_not_modifiable locked _

/-- A refused setting has removed the old content, and put in what it could of
the new one. -/
theorem Modifiable.stopsWithin_set
    (modifiable : document.Modifiable id) {content : Content}
    (refused : (set id content).run document = .error fault next) :
    StopsWithin id content.leaves (document.clear id) fault next := by
  unfold set at refused
  rw [modifiable.run_assertModifiable_bind,
    run_bind_of_ok (run_clearContent id)] at refused
  split at refused
  · cases refused
  · exact (modifiable.clear id).stopsWithin refused

theorem atomic_setProperty_of_not_modifiable
    {item : NodeId} {name : String}
    (locked :
      ¬ document.Modifiable ((document.child? item name).getD item))
    (content : Content) :
    Atomic (setProperty item name content) document := by
  rw [setProperty, propertyNode, bind_assoc]
  apply atomic_get_bind
  cases found : document.child? item name with
  | some property =>
      rw [found] at locked
      dsimp only
      rw [pure_bind]
      unfold set
      rw [bind_assoc]
      exact atomic_of_not_modifiable locked _
  | none =>
      rw [found] at locked
      dsimp only
      rw [bind_assoc]
      exact atomic_of_not_modifiable locked _

/-- Whether content has no elements in it. -/
def Content.IsPlain (content : Content) : Prop :=
  ∀ child, .node child ∉ content.leaves

theorem StopsWithin.not_isPlain
    {content : Content}
    (stops : StopsWithin id content.leaves document fault next) :
    ¬ content.IsPlain := by
  intro plain
  obtain ⟨before, child, within, -⟩ := stops
  apply plain child
  apply within.subset
  exact List.mem_append_right before List.mem_cons_self

theorem Modifiable.grants_set
    (modifiable : document.Modifiable id) {content : Content}
    (plain : content.IsPlain) :
    document.Grants (set id content) := by
  cases ran : (set id content).run document with
  | ok result next => exact ⟨result, next, ran⟩
  | error fault next =>
      exact absurd plain (modifiable.stopsWithin_set ran).not_isPlain

theorem atomic_set_of_not_modifiable
    (locked : ¬ document.Modifiable id) (content : Content) :
    Atomic (set id content) document := by
  unfold set
  exact atomic_of_not_modifiable locked _

theorem atomic_set_of_isPlain
    (document : Document) (id : NodeId) {content : Content}
    (plain : content.IsPlain) :
    Atomic (set id content) document := by
  by_cases modifiable : document.Modifiable id
  · exact (modifiable.grants_set plain).atomic
  · exact atomic_set_of_not_modifiable modifiable content

/-- A property that was made may be changed. -/
theorem modifiable_of_made
    {item property : NodeId} {name : String}
    (absent : document.child? item name = none)
    (made : (propertyNode item name).run document = .ok property next) :
    next.Modifiable property := by
  rw [propertyNode, run_get_bind, absent] at made
  dsimp only at made
  obtain ⟨_, between, checked, made⟩ := run_bind_eq_ok_iff.mp made
  obtain ⟨same, -⟩ := run_assertModifiable_eq_ok_iff.mp checked
  rw [same] at made
  obtain ⟨_, _, created, made⟩ := run_bind_eq_ok_iff.mp made
  cases created
  obtain ⟨_, _, added, made⟩ := run_bind_eq_ok_iff.mp made
  cases made
  have new :
      (document.push (.bare name .property)).Modifiable document.nextId :=
    ⟨_, node?_push document _, rfl⟩
  have kept := new.after_addNode item document.nextId
  rwa [after_eq_of_ok added] at kept

theorem Linked.atomic_setProperty_of_isPlain
    (linked : document.Linked) (item : NodeId) (name : String)
    {content : Content} (plain : content.IsPlain) :
    Atomic (setProperty item name content) document := by
  apply (linked.atomic_propertyNode item name).bind
  intro property next reached
  cases absent : document.child? item name with
  | none =>
      have granted := (modifiable_of_made absent reached).grants_set plain
      obtain ⟨_, final, ran⟩ := granted
      exact .inr ⟨property, final, run_bind_of_ok ran _⟩
  | some found =>
      rw [propertyNode, run_get_bind, absent] at reached
      cases reached
      refine .inl ⟨rfl, (atomic_set_of_isPlain _ _ plain).bind ?_⟩
      intro _ final _
      exact .inr ⟨_, _, rfl⟩

/-! ## Refusals -/

/-- What is left of a document by changes of it that are refused. -/
structure Refusals (document : Document) : Prop where
  leaf : ∀ id content, content.IsLeaf → Atomic (add id content) document
  setAttribute : ∀ id name value,
    Atomic (setAttribute id name value) document
  removeAttribute : ∀ id name, Atomic (removeAttribute id name) document
  removeAttributes : ∀ id, Atomic (removeAttributes id) document
  remove : ∀ id, Atomic (remove id) document
  removeNodes : ∀ id, Atomic (removeNodes id) document
  propertyNode : ∀ item name, Atomic (propertyNode item name) document
  cloneSubtree : ∀ id, Atomic (cloneSubtree id) document
  importFrom : ∀ source id, Atomic (importFrom source id) document
  /-- An element that is unknown or read-only takes no content at all. -/
  locked : ∀ id content, ¬ document.Modifiable id →
    Atomic (add id content) document ∧ Atomic (set id content) document
  /-- Nor does the property of an item, nor an item that lacks it. -/
  lockedProperty : ∀ item name content,
    ¬ document.Modifiable ((document.child? item name).getD item) →
      Atomic (setProperty item name content) document
  plain : ∀ id content, content.IsPlain → Atomic (set id content) document
  plainProperty : ∀ item name content, content.IsPlain →
    Atomic (setProperty item name content) document
  /-- Contents are put in one after the other up to the one refused. -/
  members : ∀ id content fault next, document.Modifiable id →
    (add id content).run document = .error fault next →
      StopsWithin id content.leaves document fault next

/-- A refused change has changed nothing; of several contents put in by one
change, it has put in those before the one refused. -/
theorem refusals_of_reachable
    (reachable : document.Reachable) :
    document.Refusals where
  leaf id _ leaf := atomic_add_leaf document id leaf
  setAttribute id _ _ := atomic_assertModifiable_change document id _
  removeAttribute id _ := atomic_assertModifiable_change document id _
  removeAttributes id := atomic_assertModifiable_change document id _
  remove := atomic_remove document
  removeNodes := atomic_removeNodes document
  propertyNode := reachable.linked.atomic_propertyNode
  cloneSubtree := atomic_cloneSubtree document
  importFrom := atomic_importFrom document
  locked _ content locked :=
    ⟨atomic_add_of_not_modifiable locked content,
      atomic_set_of_not_modifiable locked content⟩
  lockedProperty _ _ content locked :=
    atomic_setProperty_of_not_modifiable locked content
  plain id _ := atomic_set_of_isPlain document id
  plainProperty item name _ :=
    reachable.linked.atomic_setProperty_of_isPlain item name
  members _ _ _ _ modifiable refused := modifiable.stopsWithin refused

/-- An attribute for an item, and then the item itself. -/
def itemWithinItself : Content :=
  .many [.field "action" "get", .many [.node 0]]

theorem run_add_itemWithinItself :
    (add 0 itemWithinItself).run itemWithProperty =
      .error Refusal.ownDescendant.fault
        (itemWithProperty.afterCall (.setAttribute 0 "action" "get")) :=
  rfl

/-- The attribute is put in before the item is refused. -/
theorem refusals_of_item :
    itemWithProperty.Reachable ∧
      ∃ fault next,
        (add 0 itemWithinItself).run itemWithProperty = .error fault next ∧
          StopsWithin 0 itemWithinItself.leaves itemWithProperty fault next ∧
          next.attribute? 0 "action" = some "get" := by
  have reachable := reachable_itemWithProperty
  have modifiable : itemWithProperty.Modifiable 0 := ⟨_, rfl, rfl⟩
  refine ⟨reachable, _, _, run_add_itemWithinItself, ?_, by decide +kernel⟩
  exact
    (refusals_of_reachable reachable).members 0 _ _ _ modifiable
      run_add_itemWithinItself

/-- Contents before the one refused stay in the element. -/
theorem refused_add_changes_element :
    ¬ ∀ (document : Document) (id : NodeId) (content : Content),
      document.Reachable → Atomic (add id content) document := by
  intro atomic
  have same :=
    atomic itemWithProperty 0 itemWithinItself reachable_itemWithProperty _ _
      run_add_itemWithinItself
  have written :=
    congrArg (fun document => document.attribute? 0 "action") same
  exact absurd written (by decide +kernel)

end AmlExchange.Document
