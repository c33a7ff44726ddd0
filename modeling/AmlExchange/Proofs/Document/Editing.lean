import AmlExchange.Proofs.Document.Sources

/-!
# Every change keeps a document linked

A change may be refused, and what it did before stays done.  So a change is
judged by the document that it leaves in either case (`Yields`), and a change
made of several is judged step by step.
-/

namespace AmlExchange.Document

variable {α β : Type} {document : Document}

/-! ## What a change leaves behind -/

/-- Whether a change comes to a certain outcome, or is refused and leaves a
linked document. -/
def Yields (edit : Edit α) (document : Document)
    (outcome : α → Document → Prop) : Prop :=
  match edit.run document with
  | .ok result next => outcome result next
  | .error _ next => next.Linked

/-- The outcome of a change that leaves a linked document. -/
def KeepsLinked (_ : α) (next : Document) : Prop :=
  next.Linked

theorem yields_pure
    {outcome : α → Document → Prop} {result : α}
    (reached : outcome result document) :
    Yields (pure result) document outcome :=
  reached

theorem yields_bind
    {first : Edit α} {second : α → Edit β} {outcome : β → Document → Prop}
    (yields :
      Yields first document fun result next =>
        Yields (second result) next outcome) :
    Yields (first >>= second) document outcome := by
  unfold Yields at yields ⊢
  rw [EStateM.run_bind]
  cases reached : first.run document with
  | ok result next =>
      rw [reached] at yields
      exact yields
  | error fault next =>
      rw [reached] at yields
      exact yields

theorem Yields.mono
    {edit : Edit α} {outcome wider : α → Document → Prop}
    (yields : Yields edit document outcome)
    (wide : ∀ result next, outcome result next → wider result next) :
    Yields edit document wider := by
  unfold Yields at yields ⊢
  split
  · next reached =>
      rw [reached] at yields
      exact wide _ _ yields
  · next reached =>
      rw [reached] at yields
      exact yields

theorem yields_get
    {outcome : Document → Document → Prop}
    (reached : outcome document document) :
    Yields get document outcome :=
  reached

theorem yields_change
    {id : NodeId} {change : Node → Node} {outcome : Unit → Document → Prop}
    (reached : outcome () (document.update id change)) :
    Yields (Document.change id change) document outcome :=
  reached

theorem yields_refuse
    (linked : document.Linked) (refusal : Refusal)
    (outcome : α → Document → Prop) :
    Yields (refuse refusal) document outcome :=
  linked

/-- One change after another, each of which keeps the document linked. -/
theorem yields_seq
    {first : Edit α} {second : α → Edit β}
    (before : Yields first document KeepsLinked)
    (after : ∀ result next, next.Linked →
      Yields (second result) next KeepsLinked) :
    Yields (first >>= second) document KeepsLinked :=
  yields_bind (before.mono after)

/-! ## Conditions -/

theorem yields_assertKnown
    (linked : document.Linked) {id : NodeId}
    {outcome : Unit → Document → Prop}
    (reached : ∀ node, document.node? id = some node →
      outcome () document) :
    Yields (assertKnown id) document outcome := by
  apply yields_bind
  apply yields_get
  split
  · exact yields_refuse linked _ _
  · next node found => exact yields_pure (reached node found)

theorem yields_assertModifiable
    (linked : document.Linked) {id : NodeId}
    {outcome : Unit → Document → Prop}
    (reached : ∀ node, document.node? id = some node →
      outcome () document) :
    Yields (assertModifiable id) document outcome := by
  apply yields_bind
  apply yields_get
  split
  · exact yields_refuse linked _ _
  · next node found =>
      split
      · exact yields_refuse linked _ _
      · exact yields_pure (reached node found)

theorem yields_assertNotAbove
    (linked : document.Linked) {child id : NodeId}
    {outcome : Unit → Document → Prop}
    (reached :
      child ≠ id →
        ¬ Relation.ReflTransGen (IsParent document.parent?) child id →
          outcome () document) :
    Yields (assertNotAbove child id) document outcome := by
  apply yields_bind
  apply yields_get
  split
  · exact yields_refuse linked _ _
  · next below =>
      rw [not_or, Bool.not_eq_true] at below
      apply yields_pure
      exact reached below.1 (linked.not_above below.1 below.2)

/-! ## Labels -/

theorem relabels_setAttribute
    (name value : String) :
    Relabels fun node => node.setAttribute name value :=
  ⟨fun _ => rfl, fun _ => rfl, fun _ => rfl⟩

theorem relabels_eraseAttribute
    (name : String) :
    Relabels fun node => node.eraseAttribute name :=
  ⟨fun _ => rfl, fun _ => rfl, fun _ => rfl⟩

theorem relabels_clearAttributes :
    Relabels fun node =>
      { node with label := { node.label with attributes := .empty } } :=
  ⟨fun _ => rfl, fun _ => rfl, fun _ => rfl⟩

theorem relabels_setRange
    (condition : Condition) (definition : Option String) :
    Relabels fun node => node.setRange condition definition := by
  refine ⟨?_, ?_, ?_⟩ <;>
  · intro node
    dsimp only [Node.setRange]
    split
    · rfl
    · split <;> rfl

theorem Relabels.comp
    {first second : Node → Node} (before : Relabels first)
    (after : Relabels second) :
    Relabels fun node => second (first node) := by
  refine ⟨?_, ?_, ?_⟩
  · intro node
    rw [after.children, before.children]
  · intro node
    rw [after.parent, before.parent]
  · intro node
    rw [after.content, before.content]

theorem relabels_id :
    Relabels fun node => node :=
  ⟨fun _ => rfl, fun _ => rfl, fun _ => rfl⟩

/-- A change that is one of several, as the element may be. -/
theorem relabels_of_cases
    {change : Node → Node}
    (cases : ∀ node, ∃ one, Relabels one ∧ change node = one node) :
    Relabels change := by
  refine ⟨?_, ?_, ?_⟩
  · intro node
    obtain ⟨one, relabels, same⟩ := cases node
    rw [same, relabels.children]
  · intro node
    obtain ⟨one, relabels, same⟩ := cases node
    rw [same, relabels.parent]
  · intro node
    obtain ⟨one, relabels, same⟩ := cases node
    rw [same, relabels.content]

theorem relabels_syncFlags :
    Relabels Node.syncFlags := by
  have erase := relabels_eraseAttribute AttributeName.isNull
  apply relabels_of_cases
  intro node
  rw [Node.syncFlags]
  split
  · exact ⟨_, relabels_id, rfl⟩
  · split
    · exact ⟨_, relabels_setAttribute _ _, rfl⟩
    · dsimp only
      split
      · exact ⟨_, erase.comp (relabels_setRange _ _), rfl⟩
      · exact ⟨_, erase.comp (relabels_setRange _ _), rfl⟩
      · exact ⟨_, erase, rfl⟩

/-! ## Making elements -/

theorem yields_plantCopy
    {tree : Element} {outcome : NodeId → Document → Prop}
    (reached : outcome document.nextId (document.plant tree)) :
    Yields (plantCopy tree) document outcome :=
  reached

theorem push_eq_plant
    (document : Document) (label : Label) :
    document.push ⟨label, [], .root, false, false⟩ =
      document.plant (.node label []) := by
  simp [push, plant, layout, layoutAll, rootPlaces]

theorem valid_leaf
    (label : Label) :
    Valid (.node label []) :=
  ⟨fun some => absurd rfl some, trivial⟩

/-- A new element without children is a tree of its own. -/
theorem yields_create
    {label : Label} {outcome : NodeId → Document → Prop}
    (reached :
      outcome document.nextId (document.plant (.node label []))) :
    Yields (create ⟨label, [], .root, false, false⟩) document outcome := by
  show outcome document.nextId (document.push _)
  rwa [push_eq_plant]

theorem Linked.plant_leaf
    (linked : document.Linked) (label : Label) :
    (document.plant (.node label [])).Linked :=
  linked.plant (valid_leaf label)

theorem yields_createElement
    (linked : document.Linked) (name : String) :
    Yields (createElement name) document KeepsLinked :=
  yields_create (linked.plant_leaf _)

theorem yields_createProperty
    (linked : document.Linked) (name : String) :
    Yields (createProperty name) document KeepsLinked :=
  yields_create (linked.plant_leaf _)

theorem yields_createItem
    (linked : document.Linked) (typeName : String) (action : Option String) :
    Yields (createItem typeName action) document KeepsLinked := by
  cases action with
  | none => exact yields_create (linked.plant_leaf _)
  | some action => exact yields_create (linked.plant_leaf _)

theorem yields_importFrom
    (linked : document.Linked) {source : Document}
    (sourceLinked : source.Linked) (id : NodeId) :
    Yields (importFrom source id) document KeepsLinked := by
  rw [importFrom]
  split
  · exact yields_refuse linked _ _
  · apply yields_plantCopy
    exact linked.plant (sourceLinked.valid_tree id)

theorem yields_cloneSubtree
    (linked : document.Linked) {id : NodeId}
    {outcome : NodeId → Document → Prop}
    (reached :
      outcome document.nextId (document.plant (document.tree id))) :
    Yields (cloneSubtree id) document outcome := by
  apply yields_bind
  apply yields_assertKnown linked
  intro _ _
  exact yields_bind (yields_get (yields_plantCopy reached))

/-! ## Hanging elements -/

theorem yields_attach
    {id child : NodeId} (hung : (document.hang id child).Linked) :
    Yields (attach id child) document KeepsLinked := by
  apply yields_bind
  apply yields_change
  apply yields_bind
  apply yields_change
  apply yields_change
  exact hung.relabel relabels_syncFlags id

section

variable {id child : NodeId} {node : Node} {tree : Element}

/-- The root of a planted tree hangs nowhere. -/
theorem root_plant
    (valid : Valid tree) :
    ∃ root, (document.plant tree).node? document.nextId = some root ∧
      root.parent = .root := by
  have block :=
    block_layoutAll false .root document.nextId [tree] ⟨valid, trivial⟩
  obtain ⟨root, place, hangs⟩ :=
    block.tops document.nextId List.mem_cons_self
  rw [plant_eq_plantAll]
  exact ⟨root, (node?_plantAll ..).mpr (.inr place), hangs⟩

theorem node?_plant
    (known : document.node? id = some node) (tree : Element) :
    (document.plant tree).node? id = some node := by
  rw [plant_eq_plantAll]
  exact (node?_plantAll ..).mpr (.inl known)

/-- Nothing that was there before lies below a planted tree. -/
theorem Linked.not_above_plant
    (linked : document.Linked) (valid : Valid tree)
    (known : id < document.nextId) :
    ¬ Relation.ReflTransGen (IsParent (document.plant tree).parent?)
      document.nextId id := by
  have single : ValidAll [tree] := ⟨valid, trivial⟩
  have later {below : NodeId}
      (climbs :
        Relation.ReflTransGen (IsParent (document.plant tree).parent?)
          document.nextId below) :
      document.nextId ≤ below := by
    induction climbs with
    | refl => exact Nat.le_refl _
    | tail _ above ih =>
        rw [plant_eq_plantAll] at above
        rcases isParent_plantAll single above with old | new
        · exact absurd (linked.parent_lt old) (Nat.not_lt_of_le ih)
        · exact new.1
  intro climbs
  exact absurd known (Nat.not_lt_of_le (later climbs))

/-- A copy is hung in place of an element that hangs elsewhere. -/
theorem Linked.hang_copy
    (linked : document.Linked) (known : document.node? id = some node)
    (valid : Valid tree) :
    ((document.plant tree).hang id document.nextId).Linked := by
  obtain ⟨root, found, hangs⟩ := @root_plant document tree valid
  apply (linked.plant valid).hang (node?_plant known tree) found
  · rw [parent?_of_node? found, hangs]
    rfl
  · exact linked.not_above_plant valid (lt_of_node? known)

theorem exists_node?_update
    (found : document.node? id = some node) (other : NodeId)
    (change : Node → Node) :
    ∃ after, (document.update other change).node? id = some after := by
  rw [node?_update, found]
  split
  · exact ⟨_, rfl⟩
  · exact ⟨_, rfl⟩

/-- An element of a removed one is moved. -/
theorem Linked.rehang
    (linked : document.Linked) (known : document.node? id = some node)
    {parent : NodeId} (above : document.parent? child = some parent)
    (apart :
      ¬ Relation.ReflTransGen (IsParent document.parent?) child id) :
    ((document.release parent child).hang id child).Linked := by
  obtain ⟨childNode, childKnown, -⟩ := exists_of_parent? above
  obtain ⟨between, knownBetween⟩ := exists_node?_update known parent _
  obtain ⟨after, knownAfter⟩ := exists_node?_update knownBetween child _
  obtain ⟨childBetween, childFound⟩ :=
    exists_node?_update childKnown parent _
  obtain ⟨childAfter, childKept⟩ := exists_node?_update childFound child _
  apply (linked.release above).hang knownAfter childKept
  · rw [linked.parent?_release above, Function.update_self]
  · intro climbs
    apply apart
    refine Relation.ReflTransGen.mono ?_ _ _ climbs
    intro upper lower still
    rw [linked.parent?_release above, IsParent] at still
    by_cases same : lower = child
    · rw [same, Function.update_self] at still
      cases still
    · rwa [Function.update_of_ne same] at still

/-- An element that hangs nowhere is hung where it is to be. -/
theorem yields_hang
    (linked : document.Linked) (known : document.node? id = some node)
    {childNode : Node} (childKnown : document.node? child = some childNode)
    (free : childNode.parent.above? = none) :
    Yields
      (do
        assertNotAbove child id
        attach id child)
      document KeepsLinked := by
  apply yields_bind
  apply yields_assertNotAbove linked
  intro _ apart
  apply yields_attach
  apply linked.hang known childKnown _ apart
  rw [parent?_of_node? childKnown, free]

/-- An element of a removed one is taken away from it and hung where it is to
be. -/
theorem yields_rehang
    (linked : document.Linked) (known : document.node? id = some node)
    {parent : NodeId} (above : document.parent? child = some parent) :
    Yields
      (do
        assertNotAbove child id
        dropChild parent child
        attach id child)
      document KeepsLinked := by
  apply yields_bind
  apply yields_assertNotAbove linked
  intro differs apart
  apply yields_bind
  apply yields_change
  apply yields_attach
  rw [← hang_release differs]
  exact linked.rehang known above apart

theorem yields_addNode
    (linked : document.Linked) (known : document.node? id = some node)
    (child : NodeId) :
    Yields (addNode id child) document KeepsLinked := by
  apply yields_bind
  apply yields_get
  split
  · exact yields_refuse linked _ _
  · next childNode childKnown =>
      split
      · next parent hangs =>
          have above : document.parent? child = some parent := by
            rw [parent?_of_node? childKnown, hangs]
            rfl
          split
          · exact yields_pure linked
          · apply yields_bind
            apply yields_get
            split
            · apply yields_bind
              apply yields_cloneSubtree linked
              apply yields_attach
              exact linked.hang_copy known (linked.valid_tree child)
            · exact yields_rehang linked known above
      · next hangs =>
          apply yields_hang linked known childKnown
          rw [hangs]
          rfl
      · next hangs =>
          apply yields_hang linked known childKnown
          rw [hangs]
          rfl

end

/-! ## Values -/

theorem yields_forM_change
    {ids : List NodeId} {change : Node → Node}
    {outcome : Unit → Document → Prop}
    (reached : outcome () (document.updateAll ids change)) :
    Yields (ids.forM fun id => Document.change id change) document
      outcome := by
  induction ids generalizing document with
  | nil => exact reached
  | cons id rest ih =>
      apply yields_bind
      apply yields_change
      exact ih reached

theorem yields_detachChildren
    {id : NodeId} {outcome : Unit → Document → Prop}
    (reached : outcome () (document.shed id)) :
    Yields (detachChildren id) document outcome := by
  apply yields_bind
  apply yields_get
  apply yields_bind
  apply yields_change
  exact yields_forM_change reached

theorem Linked.setNull
    (linked : document.Linked) (id : NodeId) :
    (document.update id fun node => node.setContent .null).Linked := by
  apply linked.update
  intro node _
  exact ⟨rfl, rfl, fun _ => rfl⟩

/-- An element without value and children. -/
theorem yields_clearContent
    (linked : document.Linked) (id : NodeId) :
    Yields (clearContent id) document fun _ next =>
      next.Linked ∧ next.children id = [] := by
  apply yields_bind
  apply yields_change
  apply yields_detachChildren
  constructor
  · exact (linked.setNull id).shed id
  · rw [children_shed, Function.update_self]

theorem yields_addValue
    (linked : document.Linked) (id : NodeId) (value : Value) :
    Yields (addValue id value) document KeepsLinked := by
  rw [addValue]
  split
  · exact linked.relabel relabels_syncFlags id
  · apply yields_bind
    apply (yields_clearContent linked id).mono
    rintro _ next ⟨nextLinked, childless⟩
    apply yields_change
    apply nextLinked.update
    intro node found
    rw [children_of_node? found] at childless
    refine ⟨?_, ?_, ?_⟩
    · exact relabels_syncFlags.children _
    · rw [relabels_syncFlags.parent]
      rfl
    · exact fun some => absurd childless some

mutual

/-- Content put into an element keeps a document linked. -/
theorem yields_add
    {document : Document} (linked : document.Linked) (id : NodeId)
    (content : Content) :
    Yields (add id content) document KeepsLinked := by
  cases content with
  | node child =>
      rw [add]
      apply yields_bind
      apply yields_assertModifiable linked
      intro node known
      exact yields_addNode linked known child
  | field name value =>
      rw [add]
      apply yields_bind
      apply yields_assertModifiable linked
      intro _ _
      exact linked.relabel (relabels_setAttribute name value) id
  | value value =>
      rw [add]
      apply yields_bind
      apply yields_assertModifiable linked
      intro _ _
      exact yields_addValue linked id value
  | many members =>
      rw [add]
      apply yields_bind
      apply yields_assertModifiable linked
      intro _ _
      exact yields_addAll linked id members

theorem yields_addAll
    {document : Document} (linked : document.Linked) (id : NodeId)
    (members : List Content) :
    Yields (addAll id members) document KeepsLinked := by
  cases members with
  | nil => exact linked
  | cons member rest =>
      rw [addAll]
      apply yields_seq (yields_add linked id member)
      intro _ next nextLinked
      exact yields_addAll nextLinked id rest

end

theorem yields_set
    (linked : document.Linked) (id : NodeId) (content : Content) :
    Yields (set id content) document KeepsLinked := by
  apply yields_bind
  apply yields_assertModifiable linked
  intro _ _
  apply yields_bind
  apply (yields_clearContent linked id).mono
  rintro _ next ⟨nextLinked, -⟩
  split
  · exact nextLinked.relabel relabels_syncFlags id
  · exact yields_add nextLinked id _

/-! ## Attributes and marks -/

theorem yields_relabel
    (linked : document.Linked) (id : NodeId) {change : Node → Node}
    (relabels : Relabels change) :
    Yields
      (do
        assertModifiable id
        Document.change id change)
      document KeepsLinked := by
  apply yields_bind
  apply yields_assertModifiable linked
  intro _ _
  exact linked.relabel relabels id

theorem relabels_readOnly
    (readOnly : Bool) :
    Relabels fun node => { node with readOnly } :=
  ⟨fun _ => rfl, fun _ => rfl, fun _ => rfl⟩

theorem yields_setReadOnly
    (linked : document.Linked) (id : NodeId) (readOnly : Bool) :
    Yields (setReadOnly id readOnly) document KeepsLinked := by
  apply yields_bind
  apply yields_assertKnown linked
  intro _ _
  exact linked.relabel (relabels_readOnly readOnly) id

theorem Linked.relabelAll
    (linked : document.Linked) {change : Node → Node}
    (relabels : Relabels change) (ids : List NodeId) :
    (document.updateAll ids change).Linked := by
  induction ids generalizing document with
  | nil => exact linked
  | cons id rest ih => exact ih (linked.relabel relabels id)

theorem yields_freeze
    (linked : document.Linked) (id : NodeId) :
    Yields (freeze id) document KeepsLinked := by
  apply yields_bind
  apply yields_assertKnown linked
  intro _ _
  apply yields_bind
  apply yields_get
  apply yields_forM_change
  exact linked.relabelAll (relabels_readOnly true) _

/-! ## Removing elements -/

theorem yields_removeNodes
    (linked : document.Linked) (id : NodeId) :
    Yields (removeNodes id) document KeepsLinked := by
  apply yields_bind
  apply yields_assertModifiable linked
  intro _ _
  exact yields_detachChildren (linked.shed id)

theorem yields_remove
    (linked : document.Linked) (id : NodeId) :
    Yields (remove id) document KeepsLinked := by
  apply yields_bind
  apply yields_assertModifiable linked
  intro node found
  apply yields_bind
  apply yields_get
  rw [found, Option.map_some]
  split
  · next parent hangs =>
      apply yields_bind
      apply yields_assertModifiable linked
      intro _ _
      apply yields_bind
      apply yields_change
      apply yields_change
      apply linked.release
      rw [parent?_of_node? found, Option.some_inj.mp hangs]
      rfl
  · next hangs =>
      apply yields_change
      apply linked.update
      intro same sameFound
      rw [found] at sameFound
      cases sameFound
      refine ⟨rfl, ?_, linked.emptied id node found⟩
      rw [Option.some_inj.mp hangs]
      rfl
  · exact yields_pure linked
  · exact yields_pure linked

/-! ## Properties -/

theorem yields_propertyNode
    (linked : document.Linked) (item : NodeId) (name : String) :
    Yields (propertyNode item name) document KeepsLinked := by
  apply yields_bind
  apply yields_get
  split
  · exact yields_pure linked
  · apply yields_bind
    apply yields_assertModifiable linked
    intro node known
    apply yields_bind
    apply yields_create
    apply yields_seq
    · exact yields_addNode (linked.plant_leaf _) (node?_plant known _) _
    · intro _ next nextLinked
      exact yields_pure nextLinked

theorem yields_setProperty
    (linked : document.Linked) (item : NodeId) (name : String)
    (content : Content) :
    Yields (setProperty item name content) document KeepsLinked := by
  apply yields_seq (yields_propertyNode linked item name)
  intro property next nextLinked
  apply yields_seq (yields_set nextLinked property content)
  intro _ final finalLinked
  exact yields_pure finalLinked

end AmlExchange.Document
