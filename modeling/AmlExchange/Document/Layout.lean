import AmlExchange.Document.Basic

/-!
# Trees laid out in a document

The elements of a tree take consecutive places in document order, each element
before those below it.
-/

namespace AmlExchange.Document

/-- The places of the roots of some trees that are laid out one after the
other from a place on. -/
def rootPlaces (first : NodeId) : List (Tree α) → List NodeId
  | [] => []
  | tree :: rest => first :: rootPlaces (first + tree.size) rest

mutual

/-- The elements of a tree that is laid out from a place on. -/
def layout (stored : Bool) (parent : Parent) (first : NodeId) :
    Element → List Node
  | .node label children =>
      ⟨label, rootPlaces (first + 1) children, parent, false, stored⟩ ::
        layoutAll stored (.attached first) (first + 1) children

/-- The elements of some trees that are laid out one after the other. -/
def layoutAll (stored : Bool) (parent : Parent) (first : NodeId) :
    List Element → List Node
  | [] => []
  | tree :: rest =>
      layout stored parent first tree ++
        layoutAll stored parent (first + tree.size) rest

end

/-- A document with a tree added to it. -/
def plant (document : Document) (tree : Element) : Document :=
  { document with
    nodes :=
      document.nodes ++
        (layout false .root document.nextId tree).toArray }

/-- The document of some trees. -/
def ofTrees (locale : Locale) (stored : Bool) (trees : List Element) :
    Document :=
  ⟨(layoutAll stored .root 0 trees).toArray, locale⟩

end AmlExchange.Document
