import AmlExchange.Proofs.Document.Copies
import AmlExchange.Proofs.Document.Rereading

/-!
# Elements that are read

A text is read as a document if its events come to the end of the text.  Each
element of the document has the mark that the text was read with, and hangs
from another one or is a root.  So every element hangs from some root
(`Linked.exists_root`).
-/

namespace AmlExchange.Document

open Markup (Event Limits)

variable {document : Document} {id : NodeId} {node : Node}

theorem parse_of_delivered
    {limits : Limits} {text : String} {events : List Event}
    (delivered : (Markup.read limits text).Delivered events)
    (locale : Locale) (stored : Bool) :
    parse limits locale stored text =
      .ok (ofTrees locale stored (treesOf events)) := by
  obtain ⟨⟨place, ended⟩, same⟩ := delivered
  rw [parse, ended, same]

theorem delivered_of_parse
    {limits : Limits} {locale : Locale} {stored : Bool} {text : String}
    {document : Document}
    (parsed : parse limits locale stored text = .ok document) :
    ∃ place, (Markup.read limits text).ending = .ok place := by
  cases ended : (Markup.read limits text).ending with
  | ok place => exact ⟨place, rfl⟩
  | error fault =>
      simp only [parse, ended] at parsed
      cases parsed

theorem parse_eq_ok_iff
    {limits : Limits} {locale : Locale} {stored : Bool} {text : String}
    {document : Document} :
    parse limits locale stored text = .ok document ↔
      ∃ events, (Markup.read limits text).Delivered events ∧
        ofTrees locale stored (treesOf events) = document := by
  constructor
  · intro parsed
    obtain ⟨place, ended⟩ := delivered_of_parse parsed
    rw [parse, ended] at parsed
    exact ⟨_, ⟨⟨place, ended⟩, rfl⟩, Except.ok.inj parsed⟩
  · rintro ⟨events, delivered, rfl⟩
    exact parse_of_delivered delivered locale stored

theorem marks_parse
    {limits : Limits} {locale : Locale} {stored : Bool}
    {text : String}
    (parsed : parse limits locale stored text = .ok document)
    (known : document.node? id = some node) :
    node.stored = stored ∧ node.parent ≠ .detached := by
  rw [parse] at parsed
  split at parsed
  · cases parsed
  · cases parsed
    have entry := node?_ofTrees.mp known
    constructor
    · exact (marks_of_mem_layoutAll (List.fst_mem_of_mem_zipIdx entry)).2
    · rcases (block_layoutAll stored .root 0 _ (validAll_treesOf _)).up _ _
        entry with ⟨top, -⟩ | ⟨_, _, -, hangs, -⟩
      · rw [top]
        rintro ⟨⟩
      · rw [hangs]
        rintro ⟨⟩

theorem mem_roots_iff :
    id ∈ document.roots ↔
      ∃ node, document.node? id = some node ∧ node.parent = .root := by
  rw [roots, List.mem_filter, beq_iff_eq, Option.map_eq_some_iff]
  constructor
  · exact fun isRoot => isRoot.2
  · rintro ⟨node, known, top⟩
    exact ⟨List.mem_range.mpr (lt_of_node? known), node, known, top⟩

/-- The roots of a document made of trees are the places of the trees. -/
theorem mem_roots_ofTrees_iff
    (locale : Locale) (stored : Bool) {trees : List Element}
    (valid : ValidAll trees) :
    id ∈ (ofTrees locale stored trees).roots ↔ id ∈ rootPlaces 0 trees := by
  have block := block_layoutAll stored .root 0 trees valid
  rw [mem_roots_iff]
  constructor
  · rintro ⟨node, known, top⟩
    rcases block.up node id (node?_ofTrees.mp known) with
      ⟨-, place⟩ | ⟨_, _, _, attached, _⟩
    · exact place
    · rw [top] at attached
      cases attached
  · intro place
    obtain ⟨node, placed, top⟩ := block.tops id place
    exact ⟨node, node?_ofTrees.mpr placed, top⟩

theorem forall_mem_roots_ofTrees_iff
    (locale : Locale) (stored : Bool) {trees : List Element}
    (valid : ValidAll trees) {holds : Element → Prop} :
    (∀ root ∈ (ofTrees locale stored trees).roots,
        holds ((ofTrees locale stored trees).tree root)) ↔
      ∀ tree ∈ trees, holds tree := by
  have linked : (ofTrees locale stored trees).Linked := by
    rw [ofTrees_eq_plantAll]
    exact (linked_new locale).plantAll valid
  have laid :=
    trees_of_layoutAll linked trees
      fun _ _ member => node?_ofTrees.mpr member
  simp only [mem_roots_ofTrees_iff locale stored valid]
  rw [← List.forall_mem_map, laid]

/-- Where nothing was removed, everything hangs from a root. -/
theorem Linked.exists_root
    (linked : document.Linked)
    (hung : ∀ id node, document.node? id = some node →
      node.parent ≠ .detached)
    (known : document.node? id = some node) :
    ∃ root ∈ document.roots, document.Below root id := by
  induction id using linked.wiring.grounded.induction generalizing node with
  | _ id ih =>
      cases place : node.parent with
      | root => exact ⟨id, mem_roots_iff.mpr ⟨node, known, place⟩, .refl⟩
      | attached parent =>
          have above : IsParent document.parent? parent id := by
            rw [IsParent, parent?_of_node? known, place]
            rfl
          obtain ⟨upper, _, upperKnown, -⟩ := linked.exists_link above
          obtain ⟨root, isRoot, below⟩ := ih parent above upperKnown
          exact ⟨root, isRoot, below.tail above⟩
      | detached => exact absurd place (hung id node known)

theorem exists_node?_iff :
    (∃ node, document.node? id = some node) ↔ id < document.nodes.size := by
  constructor
  · rintro ⟨node, known⟩
    exact lt_of_node? known
  · exact fun before => ⟨_, Array.getElem?_eq_getElem before⟩

theorem Linked.lt_of_mem_children
    (linked : document.Linked) {child : NodeId}
    (member : child ∈ document.children id) :
    child < document.nodes.size := by
  obtain ⟨-, _, -, childKnown, -⟩ :=
    linked.exists_link (linked.below_child member)
  exact lt_of_node? childKnown

end AmlExchange.Document
