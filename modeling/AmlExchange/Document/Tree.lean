import AmlExchange.Fields
import AmlExchange.Locale
import AmlExchange.Vocabulary

/-!
# Trees of AML elements

An element has a name, attributes, and either a value or child elements.  It is
an item, a property of an item, or neither.
-/

namespace AmlExchange.Document

/-- The role of an element. -/
inductive Kind where
  | element
  | item
  /-- A child of an item, other than its relationships. -/
  | property
deriving DecidableEq, Repr

/-- The role of an element with a name within one of a certain role. -/
def Kind.classify (name : String) (parent : Option Kind) : Kind :=
  if name = "Item" then .item
  else if parent = some .item ∧ name ≠ "Relationships" then .property
  else .element

/-- All of an element but its children. -/
structure Label where
  name : String
  kind : Kind
  attributes : Fields String
  content : Value

namespace Label

/-- An element without attributes and without a value. -/
def bare (name : String) (kind : Kind) : Label :=
  ⟨name, kind, .empty, .null⟩

instance : Inhabited Label :=
  ⟨bare "" .element⟩

end Label

/-- A finite ordered tree. -/
inductive Tree (α : Type) where
  | node (label : α) (children : List (Tree α))

namespace Tree

variable {α β : Type}

/-- The label of the root. -/
def label : Tree α → α
  | node label _ => label

/-- The trees below the root. -/
def children : Tree α → List (Tree α)
  | node _ children => children

mutual

/-- A tree of the same shape with every label changed. -/
def map (change : α → β) : Tree α → Tree β
  | node label children => node (change label) (mapAll change children)

/-- Trees of the same shapes with every label changed. -/
def mapAll (change : α → β) : List (Tree α) → List (Tree β)
  | [] => []
  | tree :: rest => map change tree :: mapAll change rest

end

mutual

/-- The number of labels of a tree. -/
def size : Tree α → Nat
  | node _ children => sizeAll children + 1

/-- The number of labels of some trees. -/
def sizeAll : List (Tree α) → Nat
  | [] => 0
  | tree :: rest => size tree + sizeAll rest

end

mutual

/-- The labels of a tree in document order: each before those below it. -/
def toList : Tree α → List α
  | node label children => label :: toListAll children

/-- The labels of some trees in document order. -/
def toListAll : List (Tree α) → List α
  | [] => []
  | tree :: rest => toList tree ++ toListAll rest

end

end Tree

/-- An element with everything below it. -/
abbrev Element :=
  Tree Label

namespace Element

/-- The value of an attribute. -/
def attribute? (element : Element) (name : String) : Option String :=
  element.label.attributes.get? name

/-- The text of the value of an element that has no children. -/
def value? (locale : Locale) (element : Element) : Option String :=
  if element.label.content.isNull || !element.children.isEmpty then none
  else some (locale.format element.label.content)

/-- The first child with a name. -/
def child? (element : Element) (name : String) : Option Element :=
  element.children.find? fun child => child.label.name == name

/-- The children that are items. -/
def items (element : Element) : List Element :=
  element.children.filter fun child => child.label.kind == .item

/-- The type of an item. -/
def typeName? (element : Element) : Option String :=
  element.attribute? AttributeName.type

/-- The identity of an item: its attribute, or else its property. -/
def itemId? (locale : Locale) (element : Element) : Option String :=
  match element.attribute? AttributeName.id with
  | some id => some id
  | none => (element.child? AttributeName.id).bind (value? locale)

/-- The name of an item for its readers: the property, or else the attribute
of the property that holds the identity. -/
def keyedName? (locale : Locale) (element : Element) : Option String :=
  match (element.child? AttributeName.keyedName).bind (value? locale) with
  | some name => some name
  | none =>
      (element.child? AttributeName.id).bind fun child =>
        child.attribute? AttributeName.keyedName

end Element

end AmlExchange.Document
