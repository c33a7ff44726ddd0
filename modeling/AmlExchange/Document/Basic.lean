import AmlExchange.Document.Tree

/-!
# Documents

A document keeps all its elements, the removed ones included, in the order in
which they were made; the place of an element in this order is its identity
and never changes.  Elements refer to their children and to their parent by
identity.  `Document.tree` gives the tree that hangs from an element.
-/

namespace AmlExchange

namespace Document

/-- The identity of an element of a document. -/
abbrev NodeId :=
  Nat

/-- Where an element hangs. -/
inductive Parent where
  /-- Nowhere: it is the root of a tree. -/
  | root
  | attached (parent : NodeId)
  /-- It was removed from where it hung. -/
  | detached
deriving DecidableEq, Repr

/-- An element as a document keeps it. -/
structure Node where
  label : Label
  children : List NodeId
  parent : Parent
  readOnly : Bool
  /-- Whether the server sent the element. -/
  stored : Bool

instance : Inhabited Node :=
  ⟨⟨default, [], .root, false, false⟩⟩

end Document

/-- Elements in order of creation, and the locale that they are read in. -/
structure Document where
  nodes : Array Document.Node
  locale : Locale

namespace Document

/-- The document without elements. -/
def new (locale : Locale) : Document :=
  ⟨#[], locale⟩

/-- The element with an identity. -/
def node? (document : Document) (id : NodeId) : Option Node :=
  document.nodes[id]?

/-- The label of an element; an unknown one has no name and no value. -/
def label (document : Document) (id : NodeId) : Label :=
  ((document.node? id).map Node.label).getD default

/-- The name of an element, empty for an unknown one. -/
def name (document : Document) (id : NodeId) : String :=
  (document.label id).name

/-- The role of an element. -/
def kind? (document : Document) (id : NodeId) : Option Kind :=
  (document.node? id).map fun node => node.label.kind

/-- Whether an element is known and is not one that was removed. -/
def exists? (document : Document) (id : NodeId) : Bool :=
  match document.node? id with
  | some node => node.parent != .detached
  | none => false

/-- The element that an element hangs from. -/
def parent? (document : Document) (id : NodeId) : Option NodeId :=
  match document.node? id with
  | some ⟨_, _, .attached parent, _, _⟩ => some parent
  | _ => none

/-- The elements that hang from an element, in order. -/
def children (document : Document) (id : NodeId) : List NodeId :=
  ((document.node? id).map Node.children).getD []

/-- The attributes of an element. -/
def attributes (document : Document) (id : NodeId) : Fields String :=
  (document.label id).attributes

/-- The value of an attribute. -/
def attribute? (document : Document) (id : NodeId) (name : String) :
    Option String :=
  (document.attributes id).get? name

/-- The value of an element, null for an unknown one. -/
def content (document : Document) (id : NodeId) : Value :=
  (document.label id).content

/-- Whether an element may not be changed. -/
def isReadOnly (document : Document) (id : NodeId) : Bool :=
  ((document.node? id).map Node.readOnly).getD false

/-- Whether the server sent an element. -/
def isStored (document : Document) (id : NodeId) : Bool :=
  ((document.node? id).map Node.stored).getD false

/-- The identities of the roots, in order of creation. -/
def roots (document : Document) : List NodeId :=
  (List.range document.nodes.size).filter fun id =>
    (document.node? id).map Node.parent == some .root

/-- The first root. -/
def root? (document : Document) : Option NodeId :=
  document.roots.head?

/-- The first child with a name. -/
def child? (document : Document) (id : NodeId) (name : String) :
    Option NodeId :=
  (document.children id).find? fun child => document.name child == name

/-- The children that are items. -/
def items (document : Document) (id : NodeId) : List NodeId :=
  (document.children id).filter fun child =>
    document.kind? child == some .item

/-- The tree of the identities below an element, down to a depth. -/
def outlineTo (document : Document) : Nat → NodeId → Tree NodeId
  | 0, id => .node id []
  | depth + 1, id =>
      .node id ((document.children id).map (document.outlineTo depth))

/-- The tree of the identities below an element.  No element hangs deeper than
there are elements. -/
def outline (document : Document) (id : NodeId) : Tree NodeId :=
  document.outlineTo document.nodes.size id

/-- The tree that hangs from an element. -/
def tree (document : Document) (id : NodeId) : Element :=
  (document.outline id).map document.label

/-- The text of the value of an element that has no children. -/
def value? (document : Document) (id : NodeId) : Option String :=
  if (document.content id).isNull || !(document.children id).isEmpty then none
  else some (document.locale.format (document.content id))

/-- The type of an item. -/
def typeName? (document : Document) (id : NodeId) : Option String :=
  document.attribute? id AttributeName.type

/-- The identity that an item has on the server. -/
def itemId? (document : Document) (id : NodeId) : Option String :=
  (document.tree id).itemId? document.locale

/-- The name of an item for its readers. -/
def keyedName? (document : Document) (id : NodeId) : Option String :=
  (document.tree id).keyedName? document.locale

/-- The elements above an element, the nearest first, up to a height. -/
def ancestorsTo (document : Document) : Nat → NodeId → List NodeId
  | 0, _ => []
  | height + 1, id =>
      match document.parent? id with
      | some parent => parent :: document.ancestorsTo height parent
      | none => []

/-- The elements above an element, the nearest first. -/
def ancestors (document : Document) (id : NodeId) : List NodeId :=
  document.ancestorsTo document.nodes.size id

/-- Whether an element lies above another. -/
def isAncestor (document : Document) (ancestor id : NodeId) : Bool :=
  (document.ancestors id).contains ancestor

/-- A document with one element changed. -/
def update (document : Document) (id : NodeId) (change : Node → Node) :
    Document :=
  { document with nodes := document.nodes.modify id change }

/-- A document with one more element. -/
def push (document : Document) (node : Node) : Document :=
  { document with nodes := document.nodes.push node }

/-- The identity of the next element to be made. -/
def nextId (document : Document) : NodeId :=
  document.nodes.size

end Document

end AmlExchange
