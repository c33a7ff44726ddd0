import AmlExchange.Proofs.Document.Editing

/-!
# The documents that callers can make

A document is new, or read from markup, or left behind by what a caller does
with such a document: by a call, whether it was refused or not, by a copy from
another document of this kind, or by a change of the locale.  All of them are
sound: children and parents refer to each other, nothing hangs below itself,
and only leaves have values.  So the walks up and down a document end, and the
bounds under which they are made never cut them short.
-/

namespace AmlExchange.Document

/-! ## Steps -/

/-- The document that a change leaves, refused or not. -/
def after (document : Document) (edit : Edit α) : Document :=
  match edit.run document with
  | .ok _ next => next
  | .error _ next => next

/-- A call on a document that involves no other document. -/
inductive Call where
  | createElement (name : String)
  | createProperty (name : String)
  | createItem (typeName : String) (action : Option String)
  | add (id : NodeId) (content : Content)
  | set (id : NodeId) (content : Content)
  | setAttribute (id : NodeId) (name value : String)
  | removeAttribute (id : NodeId) (name : String)
  | removeAttributes (id : NodeId)
  | remove (id : NodeId)
  | removeNodes (id : NodeId)
  | setReadOnly (id : NodeId) (readOnly : Bool)
  | freeze (id : NodeId)
  | propertyNode (item : NodeId) (name : String)
  | setProperty (item : NodeId) (name : String) (content : Content)
  | cloneSubtree (id : NodeId)

/-- The document that a call leaves. -/
def afterCall (document : Document) : Call → Document
  | .createElement name => document.after (createElement name)
  | .createProperty name => document.after (createProperty name)
  | .createItem typeName action =>
      document.after (createItem typeName action)
  | .add id content => document.after (add id content)
  | .set id content => document.after (set id content)
  | .setAttribute id name value => document.after (setAttribute id name value)
  | .removeAttribute id name => document.after (removeAttribute id name)
  | .removeAttributes id => document.after (removeAttributes id)
  | .remove id => document.after (remove id)
  | .removeNodes id => document.after (removeNodes id)
  | .setReadOnly id readOnly => document.after (setReadOnly id readOnly)
  | .freeze id => document.after (freeze id)
  | .propertyNode item name => document.after (propertyNode item name)
  | .setProperty item name content =>
      document.after (setProperty item name content)
  | .cloneSubtree id => document.after (cloneSubtree id)

/-- What a caller does with a document. -/
inductive Step where
  | call (call : Call)
  /-- A tree of another document is copied. -/
  | importFrom (source : Document) (id : NodeId)
  | setLocale (locale : Locale)

/-- The other document that a step takes a tree from. -/
def Step.source? : Step → Option Document
  | .importFrom source _ => some source
  | .call _ | .setLocale _ => none

/-- The document that a step leaves. -/
def afterStep (document : Document) : Step → Document
  | .call call => document.afterCall call
  | .importFrom source id => document.after (importFrom source id)
  | .setLocale locale => { document with locale }

/-- The documents that callers can make. -/
inductive Reachable : Document → Prop where
  | new (locale : Locale) : Reachable (new locale)
  | parsed {limits : Markup.Limits} {locale : Locale} {stored : Bool}
      {text : String} {document : Document}
      (read : parse limits locale stored text = .ok document) :
      Reachable document
  | stepped {document : Document} (reached : Reachable document)
      (step : Step)
      (possible : ∀ source, step.source? = some source → Reachable source) :
      Reachable (document.afterStep step)

/-- Whether callers can make the document that a step takes a tree from. -/
def Step.Possible (step : Step) : Prop :=
  ∀ source, step.source? = some source → source.Reachable

theorem Step.possible_call
    (asked : Call) :
    (call asked).Possible :=
  fun _ => nofun

theorem Step.possible_calls
    (calls : List Call) :
    ∀ step ∈ calls.map call, step.Possible :=
  List.forall_mem_map.mpr fun asked _ => possible_call asked

theorem Reachable.called
    {document : Document} (reached : document.Reachable) (call : Call) :
    (document.afterCall call).Reachable :=
  reached.stepped (.call call) (Step.possible_call call)

theorem Reachable.calls
    {document : Document} (reached : document.Reachable) (calls : List Call) :
    (calls.foldl afterCall document).Reachable := by
  induction calls generalizing document with
  | nil => exact reached
  | cons call rest ih => exact ih (reached.called call)

/-! ## The invariant -/

theorem linked_after
    {α : Type} {edit : Edit α} {document : Document}
    (yields : Yields edit document KeepsLinked) :
    (document.after edit).Linked := by
  rw [after]
  unfold Yields at yields
  split
  · next reached =>
      rw [reached] at yields
      exact yields
  · next reached =>
      rw [reached] at yields
      exact yields

theorem Linked.afterCall
    {document : Document} (linked : document.Linked) (call : Call) :
    (document.afterCall call).Linked := by
  cases call with
  | createElement name => exact linked_after (yields_createElement linked _)
  | createProperty name => exact linked_after (yields_createProperty linked _)
  | createItem typeName action =>
      exact linked_after (yields_createItem linked _ _)
  | add id content => exact linked_after (yields_add linked _ _)
  | set id content => exact linked_after (yields_set linked _ _)
  | setAttribute id name value =>
      apply linked_after
      exact yields_relabel linked id (relabels_setAttribute name value)
  | removeAttribute id name =>
      apply linked_after
      exact yields_relabel linked id (relabels_eraseAttribute name)
  | removeAttributes id =>
      apply linked_after
      exact yields_relabel linked id relabels_clearAttributes
  | remove id => exact linked_after (yields_remove linked _)
  | removeNodes id => exact linked_after (yields_removeNodes linked _)
  | setReadOnly id readOnly =>
      exact linked_after (yields_setReadOnly linked _ _)
  | freeze id => exact linked_after (yields_freeze linked _)
  | propertyNode item name =>
      exact linked_after (yields_propertyNode linked _ _)
  | setProperty item name content =>
      exact linked_after (yields_setProperty linked _ _ _)
  | cloneSubtree id =>
      apply linked_after
      exact yields_cloneSubtree linked (linked.plant (linked.valid_tree id))

theorem Linked.afterStep
    {document : Document} (linked : document.Linked) (step : Step)
    (sources : ∀ source, step.source? = some source → source.Linked) :
    (document.afterStep step).Linked := by
  cases step with
  | call call => exact linked.afterCall call
  | importFrom source id =>
      exact linked_after (yields_importFrom linked (sources source rfl) id)
  | setLocale locale => exact ⟨linked.wiring, linked.emptied⟩

/-- Every document that callers can make is linked. -/
theorem Reachable.linked
    {document : Document} (reachable : document.Reachable) :
    document.Linked := by
  induction reachable with
  | new locale => exact linked_new locale
  | parsed read => exact linked_parse read
  | stepped reached step possible ih sources =>
      exact ih.afterStep step sources

/-- What holds of the elements of a document. -/
structure Sound (document : Document) : Prop where
  child_known : ∀ parent, ∀ child ∈ document.children parent,
    child < document.nodes.size
  parent_known : ∀ parent child,
    document.parent? child = some parent → parent < document.nodes.size
  mem_children : ∀ parent child,
    child ∈ document.children parent ↔
      (document.node? child).map Node.parent = some (.attached parent)
  once : ∀ parent, (document.children parent).Nodup
  acyclic : ∀ id, ¬ Relation.TransGen (IsParent document.parent?) id id
  /-- Walks up a document are complete. -/
  ancestors : ∀ id,
    document.ancestors id =
      match document.parent? id with
      | some parent => parent :: document.ancestors parent
      | none => []
  isAncestor : ∀ ancestor id,
    document.isAncestor ancestor id = true ↔
      Relation.TransGen (IsParent document.parent?) ancestor id
  /-- Walks down a document are complete. -/
  outline : ∀ id,
    document.outline id =
      .node id ((document.children id).map document.outline)
  tree : ∀ id,
    document.tree id =
      .node (document.label id) ((document.children id).map document.tree)
  content : ∀ id,
    document.children id ≠ [] → document.content id = .null

theorem parent?_eq_some_iff
    {document : Document} {parent child : NodeId} :
    document.parent? child = some parent ↔
      (document.node? child).map Node.parent = some (.attached parent) := by
  show IsParent document.parent? parent child ↔ _
  rw [isParent_iff, Option.map_eq_some_iff]

/-- Every document that callers can make is sound. -/
theorem sound_of_reachable
    {document : Document} (reachable : document.Reachable) :
    document.Sound := by
  have linked := reachable.linked
  refine ⟨?_, ?_, ?_, linked.wiring.once, ?_, ?_, ?_, linked.outline_eq,
    linked.tree_eq, fun id => linked.content_of_children⟩
  · intro parent child member
    obtain ⟨node, found, -⟩ :=
      exists_of_parent? ((linked.wiring.links parent child).mp member)
    exact lt_of_node? found
  · intro parent child above
    exact linked.parent_lt above
  · intro parent child
    rw [← parent?_eq_some_iff]
    exact linked.wiring.links parent child
  · intro id
    exact linked.wiring.grounded.transGen.irrefl.irrefl id
  · intro id
    cases above : document.parent? id with
    | none => exact ancestors_of_root above
    | some parent => exact linked.ancestors_of_parent above
  · intro ancestor id
    rw [isAncestor, List.contains_eq_mem, decide_eq_true_iff]
    exact linked.mem_ancestors ancestor id

theorem inUse_first :
    Calendar.InUse (0 / 86400) := by
  decide

theorem nano_first :
    0 < 1000000000 := by
  decide

/-- The moment when the year 1 began. -/
def firstMoment : Calendar.DateTime :=
  ⟨0, 0, inUse_first, nano_first⟩

/-- The locale of English callers at that moment. -/
def english : Locale :=
  ⟨"en", "en_US", 0, 0, firstMoment⟩

/-- An item that got a property, which then refused to hold the item. -/
def itemWithProperty : Document :=
  [.createItem "Part" none, .createProperty "name", .add 0 (.node 1),
    .add 1 (.node 0)].foldl afterCall
    (new ⟨"en", "en_US", 0, 0, ⟨0, 0, by decide, Nat.succ_pos _⟩⟩)

theorem reachable_itemWithProperty :
    itemWithProperty.Reachable :=
  (Reachable.new _).calls _

theorem sound_itemWithProperty :
    itemWithProperty.Reachable ∧ itemWithProperty.children 0 = [1] ∧
      itemWithProperty.Sound :=
  ⟨reachable_itemWithProperty, by decide +kernel,
    sound_of_reachable reachable_itemWithProperty⟩

end AmlExchange.Document
