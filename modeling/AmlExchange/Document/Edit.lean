import AmlExchange.Document.Layout

/-!
# Changing documents

Elements are made, hung below other elements, given values and attributes, and
removed.  An element marked read-only refuses changes to itself.  A change that
is refused may have been made in part: what the steps before the refusal did
stays done.
-/

namespace AmlExchange.Document

/-- A change of a document that may be refused. -/
abbrev Edit :=
  EStateM Fault Document

/-- What can be put into an element. -/
inductive Content where
  /-- An element of the same document. -/
  | node (id : NodeId)
  | field (name value : String)
  /-- Several contents, put in one after the other. -/
  | many (members : List Content)
  /-- A value in place of any children. -/
  | value (value : Value)

/-- Why a change is refused. -/
inductive Refusal where
  | unknownNode
  | readOnly (name : String)
  /-- An element was to be put into itself or below itself. -/
  | ownDescendant
deriving DecidableEq, Repr

/-- The fault that reports a refusal. -/
def Refusal.fault : Refusal → Fault
  | unknownNode => .refused "unknown node"
  | readOnly name => .refused ("cannot modify read-only element " ++ name)
  | ownDescendant =>
      .refused "cannot add an element to itself or one of its descendants"

/-- A change refused. -/
def refuse (refusal : Refusal) : Edit α :=
  throw refusal.fault

/-- Nothing changed, unless the element is unknown. -/
def assertKnown (id : NodeId) : Edit Unit := do
  match (← get).node? id with
  | none => refuse .unknownNode
  | some _ => pure ()

/-- Nothing changed, unless the element is unknown or read-only. -/
def assertModifiable (id : NodeId) : Edit Unit := do
  match (← get).node? id with
  | none => refuse .unknownNode
  | some node =>
      if node.readOnly then refuse (.readOnly node.label.name) else pure ()

/-- The change of one element. -/
def change (id : NodeId) (change : Node → Node) : Edit Unit :=
  modify fun document => document.update id change

namespace Node

/-- An element without content. -/
def bare (name : String) (kind : Kind) : Node :=
  ⟨.bare name kind, [], .root, false, false⟩

/-- An element with an attribute written. -/
def setAttribute (node : Node) (name value : String) : Node :=
  { node with
    label :=
      { node.label with attributes := node.label.attributes.insert name value } }

/-- An element without an attribute. -/
def eraseAttribute (node : Node) (name : String) : Node :=
  { node with
    label :=
      { node.label with attributes := node.label.attributes.erase name } }

/-- An element with a value. -/
def setContent (node : Node) (content : Value) : Node :=
  { node with label := { node.label with content } }

/-- The condition and the definition of a date range as attributes. -/
def setRange (node : Node) (condition : Condition)
    (definition : Option String) : Node :=
  match condition.text? with
  | none => node
  | some text =>
      let node := node.setAttribute AttributeName.condition text
      match definition with
      | some definition =>
          node.setAttribute AttributeName.origDateRange definition
      | none => node

/-- A property whose attributes tell whether it is null and which date range
it holds. -/
def syncFlags (node : Node) : Node :=
  if node.label.kind ≠ .property then node
  else if node.label.content.isNull && node.children.isEmpty then
    node.setAttribute AttributeName.isNull "1"
  else
    let node := node.eraseAttribute AttributeName.isNull
    match node.label.content with
    | .dynamicRange range => node.setRange range.condition range.serialize
    | .staticRange range => node.setRange range.condition none
    | _ => node

end Node

/-- A new element at the end of the document. -/
def create (node : Node) : Edit NodeId :=
  modifyGet fun document => (document.nextId, document.push node)

/-- A new element that is neither an item nor a property. -/
def createElement (name : String) : Edit NodeId :=
  create (.bare name .element)

/-- A new property. -/
def createProperty (name : String) : Edit NodeId :=
  create (.bare name .property)

/-- A new item of a type, perhaps with an action. -/
def createItem (typeName : String) (action : Option String) : Edit NodeId :=
  let typed :=
    (Node.bare "Item" .item).setAttribute AttributeName.type typeName
  create <|
    match action with
    | some action => typed.setAttribute AttributeName.action action
    | none => typed

/-- A copy of a tree as a new tree of the document. -/
def plantCopy (tree : Element) : Edit NodeId :=
  modifyGet fun document => (document.nextId, document.plant tree)

/-- A copy of the tree that hangs from an element, as a new tree. -/
def cloneSubtree (id : NodeId) : Edit NodeId := do
  assertKnown id
  plantCopy ((← get).tree id)

/-- A copy of a tree of another document, as a new tree. -/
def importFrom (source : Document) (id : NodeId) : Edit NodeId := do
  match source.node? id with
  | none => refuse .unknownNode
  | some _ => plantCopy (source.tree id)

/-- Nothing changed, unless an element would come to hang below itself. -/
def assertNotAbove (child id : NodeId) : Edit Unit := do
  if child = id ∨ (← get).isAncestor child id = true then
    refuse .ownDescendant
  else pure ()

/-- An element as a further child of one that may be changed. -/
def attach (id child : NodeId) : Edit Unit := do
  change id fun node =>
    { node.setContent .null with children := node.children ++ [child] }
  change child fun node => { node with parent := .attached id }
  change id Node.syncFlags

/-- An element taken out of the children of another. -/
def dropChild (parent child : NodeId) : Edit Unit :=
  change parent fun node =>
    { node with children := node.children.filter (· ≠ child) }

/-- An element put below one that may be changed.  An element that hangs
elsewhere is copied, one that hangs nowhere or from a removed element is
moved. -/
def addNode (id child : NodeId) : Edit Unit := do
  match (← get).node? child with
  | none => refuse .unknownNode
  | some node =>
      match node.parent with
      | .attached parent =>
          if parent = id then pure ()
          else if (← get).exists? parent then
            attach id (← cloneSubtree child)
          else do
            assertNotAbove child id
            dropChild parent child
            attach id child
      | .root | .detached => do
          assertNotAbove child id
          attach id child

/-- All children of an element removed from it. -/
def detachChildren (id : NodeId) : Edit Unit := do
  let children := (← get).children id
  change id fun node => { node with children := [] }
  children.forM fun child =>
    change child fun node => { node with parent := .detached }

/-- The value and the children of an element removed. -/
def clearContent (id : NodeId) : Edit Unit := do
  change id fun node => node.setContent .null
  detachChildren id

/-- A value put into an element in place of its content; a null value leaves
the content. -/
def addValue (id : NodeId) (value : Value) : Edit Unit := do
  if value.isNull then change id Node.syncFlags
  else do
    clearContent id
    change id fun node => (node.setContent value).syncFlags

mutual

/-- Content put into an element. -/
def add (id : NodeId) : Content → Edit Unit
  | .node child => do
      assertModifiable id
      addNode id child
  | .field name value => do
      assertModifiable id
      change id fun node => node.setAttribute name value
  | .value value => do
      assertModifiable id
      addValue id value
  | .many members => do
      assertModifiable id
      addAll id members

/-- Contents put into an element one after the other. -/
def addAll (id : NodeId) : List Content → Edit Unit
  | [] => pure ()
  | member :: rest => do
      add id member
      addAll id rest

end

/-- Content put into an element in place of its value and children. -/
def set (id : NodeId) (content : Content) : Edit Unit := do
  assertModifiable id
  clearContent id
  match content with
  | .value .null => change id Node.syncFlags
  | content => add id content

/-- An attribute written. -/
def setAttribute (id : NodeId) (name value : String) : Edit Unit := do
  assertModifiable id
  change id fun node => node.setAttribute name value

/-- An attribute erased. -/
def removeAttribute (id : NodeId) (name : String) : Edit Unit := do
  assertModifiable id
  change id fun node => node.eraseAttribute name

/-- All attributes erased. -/
def removeAttributes (id : NodeId) : Edit Unit := do
  assertModifiable id
  change id fun node =>
    { node with label := { node.label with attributes := .empty } }

/-- An element removed from where it hangs. -/
def remove (id : NodeId) : Edit Unit := do
  assertModifiable id
  let detach := change id fun node => { node with parent := .detached }
  match ((← get).node? id).map Node.parent with
  | some (.attached parent) => do
      assertModifiable parent
      dropChild parent id
      detach
  | some .root => detach
  | some .detached | none => pure ()

/-- All children removed from an element. -/
def removeNodes (id : NodeId) : Edit Unit := do
  assertModifiable id
  detachChildren id

/-- An element marked read-only, or no longer so. -/
def setReadOnly (id : NodeId) (readOnly : Bool) : Edit Unit := do
  assertKnown id
  change id fun node => { node with readOnly }

/-- An element and all below it marked read-only. -/
def freeze (id : NodeId) : Edit Unit := do
  assertKnown id
  ((← get).outline id).toList.forM fun node =>
    change node fun node => { node with readOnly := true }

/-- The property of an item with a name, made if there is none. -/
def propertyNode (item : NodeId) (name : String) : Edit NodeId := do
  match (← get).child? item name with
  | some property => pure property
  | none => do
      assertModifiable item
      let property ← createProperty name
      addNode item property
      pure property

/-- Content put into the property of an item with a name, which is made if
there is none. -/
def setProperty (item : NodeId) (name : String) (content : Content) :
    Edit NodeId := do
  let property ← propertyNode item name
  set property content
  pure property

end AmlExchange.Document
