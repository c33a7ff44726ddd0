import AmlExchange.Proofs.Document.Sources

/-!
# Lookups in a document and in its trees

What a document tells of an element, the tree that hangs from the element tells
as well: its attributes, its value, and which of its children has a name or is
an item.
-/

namespace AmlExchange.Document.Linked

variable {document : Document}

theorem label_tree
    (linked : document.Linked) (id : NodeId) :
    (document.tree id).label = document.label id := by
  rw [linked.tree_eq]
  rfl

theorem children_tree
    (linked : document.Linked) (id : NodeId) :
    (document.tree id).children = (document.children id).map document.tree := by
  rw [linked.tree_eq]
  rfl

theorem attribute?_tree
    (linked : document.Linked) (id : NodeId) (name : String) :
    (document.tree id).attribute? name = document.attribute? id name := by
  rw [Element.attribute?, linked.label_tree]
  rfl

theorem typeName?_tree
    (linked : document.Linked) (id : NodeId) :
    (document.tree id).typeName? = document.typeName? id :=
  linked.attribute?_tree id AttributeName.type

theorem value?_tree
    (linked : document.Linked) (id : NodeId) :
    (document.tree id).value? document.locale = document.value? id := by
  rw [Element.value?, linked.label_tree, linked.children_tree,
    List.isEmpty_map]
  rfl

/-- The first child of which something holds that depends on its name only. -/
theorem find?_children_tree
    (linked : document.Linked) (id : NodeId) (named : String → Bool) :
    (document.tree id).children.find? (fun child => named child.label.name) =
      ((document.children id).find? fun child =>
        named (document.name child)).map document.tree := by
  rw [linked.children_tree, List.find?_map]
  congr 2
  funext child
  rw [Function.comp_apply, linked.label_tree]
  rfl

/-- A child has the role that its label tells. -/
theorem kind?_child
    (linked : document.Linked) {id child : NodeId}
    (member : child ∈ document.children id) :
    document.kind? child = some (document.label child).kind := by
  obtain ⟨-, node, -, known, -⟩ :=
    linked.exists_link ((linked.wiring.links id child).mp member)
  rw [kind?, label, known]
  rfl

theorem items_tree
    (linked : document.Linked) (id : NodeId) :
    (document.tree id).items = (document.items id).map document.tree := by
  rw [Element.items, items, linked.children_tree, List.filter_map]
  congr 1
  apply List.filter_congr
  intro child member
  rw [linked.kind?_child member, Function.comp_apply, linked.label_tree]
  exact Option.some_beq_some.symm

end AmlExchange.Document.Linked
