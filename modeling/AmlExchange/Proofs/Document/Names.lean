import AmlExchange.Proofs.Document.RoundTrip
import AmlExchange.Proofs.Document.Sparing

/-!
# Elements keep their names

An element gets its name when it is made.  No change gives it another, and none
makes it unknown, whether or not the change is refused at last
(`keepsNames_afterStep`).
-/

namespace AmlExchange.Document

variable {α β : Type}

/-- The name of a known element. -/
def name? (document : Document) (id : NodeId) : Option String :=
  (document.node? id).map fun node => node.label.name

theorem name_eq_name?
    (document : Document) (id : NodeId) :
    document.name id = (document.name? id).getD "" :=
  document.name_eq id

/-- Whether the elements of a document have their names in another. -/
def NamesKept (document next : Document) : Prop :=
  ∀ id name, document.name? id = some name → next.name? id = some name

theorem NamesKept.refl
    (document : Document) :
    NamesKept document document :=
  fun _ _ known => known

theorem NamesKept.trans
    {first second third : Document} (one : NamesKept first second)
    (two : NamesKept second third) :
    NamesKept first third :=
  fun id name known => two id name (one id name known)

/-- Whether a change leaves every element its name, refused or not. -/
def KeepsNames (edit : Edit α) : Prop :=
  ∀ document : Document, NamesKept document (document.after edit)

/-! ## Steps -/

theorem keepsNames_pure
    (result : α) :
    KeepsNames (pure result : Edit α) :=
  NamesKept.refl

theorem keepsNames_get :
    KeepsNames (get : Edit Document) :=
  NamesKept.refl

theorem keepsNames_refuse
    (refusal : Refusal) :
    KeepsNames (refuse refusal : Edit α) :=
  NamesKept.refl

theorem KeepsNames.bind
    {first : Edit α} {second : α → Edit β} (keeps : KeepsNames first)
    (keepsSecond : ∀ result, KeepsNames (second result)) :
    KeepsNames (first >>= second) := by
  intro document
  apply @holds_after_bind _ _ _ (NamesKept document)
  · exact keeps document
  · intro result next _ kept
    exact kept.trans (keepsSecond result next)

theorem keepsNames_change
    (id : NodeId) {change : Node → Node}
    (kept : ∀ node, (change node).label.name = node.label.name) :
    KeepsNames (Document.change id change) := by
  intro document other name known
  show ((document.update id change).node? other).map _ = some name
  rw [node?_update]
  split
  · rw [← known, Option.map_map, name?]
    cases document.node? other with
    | none => rfl
    | some node => exact congrArg some (kept node)
  · exact known

theorem keepsNames_create
    (node : Node) :
    KeepsNames (create node) := by
  intro document id name known
  obtain ⟨old, found, rfl⟩ := Option.map_eq_some_iff.mp known
  exact congrArg (Option.map _) (node?_push_of_known found node)

theorem keepsNames_plantCopy
    (tree : Element) :
    KeepsNames (plantCopy tree) := by
  intro document id name known
  obtain ⟨old, found, rfl⟩ := Option.map_eq_some_iff.mp known
  exact congrArg (Option.map _) (node?_plant found tree)

theorem keepsNames_forM
    {γ : Type} {edit : γ → Edit Unit} (keeps : ∀ one, KeepsNames (edit one))
    (all : List γ) :
    KeepsNames (all.forM edit) := by
  induction all with
  | nil => exact keepsNames_pure ()
  | cons one rest ih => exact (keeps one).bind fun _ => ih

theorem keepsNames_assertKnown
    (id : NodeId) :
    KeepsNames (assertKnown id) := by
  refine keepsNames_get.bind fun document => ?_
  split
  · exact keepsNames_refuse _
  · exact keepsNames_pure ()

theorem keepsNames_assertModifiable
    (id : NodeId) :
    KeepsNames (assertModifiable id) := by
  refine keepsNames_get.bind fun document => ?_
  split
  · exact keepsNames_refuse _
  · split
    · exact keepsNames_refuse _
    · exact keepsNames_pure ()

theorem keepsNames_assertNotAbove
    (child id : NodeId) :
    KeepsNames (assertNotAbove child id) := by
  refine keepsNames_get.bind fun document => ?_
  split
  · exact keepsNames_refuse _
  · exact keepsNames_pure ()

/-! ## Changes -/

theorem keepsNames_cloneSubtree
    (id : NodeId) :
    KeepsNames (cloneSubtree id) :=
  (keepsNames_assertKnown id).bind fun _ =>
    keepsNames_get.bind fun _ => keepsNames_plantCopy _

theorem keepsNames_importFrom
    (source : Document) (id : NodeId) :
    KeepsNames (importFrom source id) := by
  rw [importFrom]
  split
  · exact keepsNames_refuse _
  · exact keepsNames_plantCopy _

theorem keepsNames_syncFlags
    (id : NodeId) :
    KeepsNames (Document.change id Node.syncFlags) :=
  keepsNames_change id name_syncFlags

theorem keepsNames_attach
    (id child : NodeId) :
    KeepsNames (attach id child) := by
  rw [attach]
  refine .bind (keepsNames_change id fun _ => rfl) fun _ => ?_
  refine .bind (keepsNames_change child fun _ => rfl) fun _ => ?_
  exact keepsNames_syncFlags id

theorem keepsNames_dropChild
    (parent child : NodeId) :
    KeepsNames (dropChild parent child) := by
  rw [dropChild]
  exact keepsNames_change parent fun _ => rfl

theorem keepsNames_addNode
    (id child : NodeId) :
    KeepsNames (addNode id child) := by
  have below :
      KeepsNames (do
        assertNotAbove child id
        attach id child) :=
    .bind (keepsNames_assertNotAbove child id) fun _ =>
      keepsNames_attach id child
  rw [addNode]
  refine .bind keepsNames_get fun document => ?_
  split
  · exact keepsNames_refuse _
  · split
    · next parent _ =>
        split
        · exact keepsNames_pure ()
        · refine .bind keepsNames_get fun _ => ?_
          split
          · exact .bind (keepsNames_cloneSubtree child) (keepsNames_attach id)
          · refine .bind (keepsNames_assertNotAbove child id) fun _ => ?_
            exact
              .bind (keepsNames_dropChild parent child) fun _ =>
                keepsNames_attach id child
    · exact below
    · exact below

theorem keepsNames_detachChildren
    (id : NodeId) :
    KeepsNames (detachChildren id) := by
  rw [detachChildren]
  refine .bind keepsNames_get fun _ => ?_
  refine .bind (keepsNames_change id fun _ => rfl) fun _ => ?_
  refine keepsNames_forM (fun child => ?_) _
  exact keepsNames_change child fun _ => rfl

theorem keepsNames_clearContent
    (id : NodeId) :
    KeepsNames (clearContent id) := by
  rw [clearContent]
  refine .bind (keepsNames_change id fun _ => rfl) fun _ => ?_
  exact keepsNames_detachChildren id

theorem keepsNames_addValue
    (id : NodeId) (value : Value) :
    KeepsNames (addValue id value) := by
  rw [addValue]
  split
  · exact keepsNames_syncFlags id
  · refine .bind (keepsNames_clearContent id) fun _ => ?_
    exact keepsNames_change id fun node => name_syncFlags _

mutual

theorem keepsNames_add
    (id : NodeId) (content : Content) :
    KeepsNames (add id content) := by
  have modifiable := keepsNames_assertModifiable id
  cases content with
  | node child =>
      rw [add]
      exact .bind modifiable fun _ => keepsNames_addNode id child
  | field name value =>
      rw [add]
      refine .bind modifiable fun _ => ?_
      exact keepsNames_change id fun _ => rfl
  | value value =>
      rw [add]
      exact .bind modifiable fun _ => keepsNames_addValue id value
  | many members =>
      rw [add]
      exact .bind modifiable fun _ => keepsNames_addAll id members

theorem keepsNames_addAll
    (id : NodeId) (members : List Content) :
    KeepsNames (addAll id members) := by
  cases members with
  | nil =>
      rw [addAll]
      exact keepsNames_pure ()
  | cons member rest =>
      rw [addAll]
      exact
        .bind (keepsNames_add id member) fun _ => keepsNames_addAll id rest

end

theorem keepsNames_set
    (id : NodeId) (content : Content) :
    KeepsNames (set id content) := by
  unfold Document.set
  refine .bind (keepsNames_assertModifiable id) fun _ => ?_
  refine .bind (keepsNames_clearContent id) fun _ => ?_
  split
  · exact keepsNames_syncFlags id
  · exact keepsNames_add id content

theorem keepsNames_remove
    (id : NodeId) :
    KeepsNames (remove id) := by
  rw [Document.remove]
  refine .bind (keepsNames_assertModifiable id) fun _ => ?_
  refine .bind keepsNames_get fun _ => ?_
  split
  · next parent _ =>
      refine .bind (keepsNames_assertModifiable parent) fun _ => ?_
      refine .bind (keepsNames_dropChild parent id) fun _ => ?_
      exact keepsNames_change id fun _ => rfl
  · exact keepsNames_change id fun _ => rfl
  · exact keepsNames_pure ()
  · exact keepsNames_pure ()

theorem keepsNames_propertyNode
    (item : NodeId) (name : String) :
    KeepsNames (propertyNode item name) := by
  rw [propertyNode]
  refine .bind keepsNames_get fun _ => ?_
  split
  · exact keepsNames_pure _
  · refine .bind (keepsNames_assertModifiable item) fun _ => ?_
    refine .bind (keepsNames_create _) fun property => ?_
    exact
      .bind (keepsNames_addNode item property) fun _ => keepsNames_pure _

theorem keepsNames_setProperty
    (item : NodeId) (name : String) (content : Content) :
    KeepsNames (setProperty item name content) := by
  rw [setProperty]
  refine .bind (keepsNames_propertyNode item name) fun property => ?_
  exact .bind (keepsNames_set property content) fun _ => keepsNames_pure _

theorem keepsNames_setReadOnly
    (id : NodeId) (readOnly : Bool) :
    KeepsNames (setReadOnly id readOnly) := by
  rw [setReadOnly]
  refine .bind (keepsNames_assertKnown id) fun _ => ?_
  exact keepsNames_change id fun _ => rfl

theorem keepsNames_freeze
    (id : NodeId) :
    KeepsNames (freeze id) := by
  rw [freeze]
  refine .bind (keepsNames_assertKnown id) fun _ => ?_
  refine .bind keepsNames_get fun _ => ?_
  refine keepsNames_forM (fun node => ?_) _
  exact keepsNames_change node fun _ => rfl

/-- An element that may be changed, changed. -/
theorem keepsNames_relabel
    (id : NodeId) {change : Node → Node}
    (kept : ∀ node, (change node).label.name = node.label.name) :
    KeepsNames (do
      assertModifiable id
      Document.change id change) :=
  .bind (keepsNames_assertModifiable id) fun _ => keepsNames_change id kept

/-- No call changes the name of an element. -/
theorem keepsNames_afterCall
    (document : Document) (call : Call) :
    NamesKept document (document.afterCall call) := by
  cases call with
  | createElement | createProperty | createItem =>
      exact keepsNames_create _ document
  | add id content => exact keepsNames_add id content document
  | set id content => exact keepsNames_set id content document
  | setAttribute id name value =>
      exact
        @keepsNames_relabel id (fun node => node.setAttribute name value)
          (fun _ => rfl) document
  | removeAttribute id name =>
      exact
        @keepsNames_relabel id (fun node => node.eraseAttribute name)
          (fun _ => rfl) document
  | removeAttributes id =>
      exact
        @keepsNames_relabel id
          (fun node =>
            { node with label := { node.label with attributes := .empty } })
          (fun _ => rfl) document
  | remove id => exact keepsNames_remove id document
  | removeNodes id =>
      exact
        KeepsNames.bind (keepsNames_assertModifiable id)
          (fun _ => keepsNames_detachChildren id) document
  | setReadOnly id readOnly =>
      exact keepsNames_setReadOnly id readOnly document
  | freeze id => exact keepsNames_freeze id document
  | propertyNode item name => exact keepsNames_propertyNode item name document
  | setProperty item name content =>
      exact keepsNames_setProperty item name content document
  | cloneSubtree id => exact keepsNames_cloneSubtree id document

/-- No step changes the name of an element. -/
theorem keepsNames_afterStep
    (document : Document) (step : Step) :
    NamesKept document (document.afterStep step) := by
  cases step with
  | call call => exact keepsNames_afterCall document call
  | importFrom source id => exact keepsNames_importFrom source id document
  | setLocale locale => exact NamesKept.refl document

end AmlExchange.Document
