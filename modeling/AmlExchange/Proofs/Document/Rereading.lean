import AmlExchange.Proofs.Document.Pages
import AmlExchange.Proofs.Document.Sources

/-!
# What is read back of a page

The markup of a page is read back as one tree of the same shape.  Each element
has the name and the attributes of its tag, the role that goes with the name,
and the text of its tag if it has no children (`parse_toAml`).
-/

namespace AmlExchange.Document

open Markup (Event)

mutual

/-- The tree that is read back of a page, within an element of some role. -/
def reread (parent : Option Kind) : Tree Tag → Element
  | .node tag children =>
      let kind := Kind.classify tag.name parent
      let content :=
        if children.isEmpty && !tag.text.isEmpty then Value.text tag.text
        else .null
      .node ⟨tag.name, kind, .ofList tag.attributes, content⟩
        (rereadAll (some kind) children)

/-- The trees that are read back of some pages. -/
def rereadAll (parent : Option Kind) : List (Tree Tag) → List Element
  | [] => []
  | tree :: rest => reread parent tree :: rereadAll parent rest

end

theorem classify_eq_item
    {name : String} {parent : Option Kind} :
    Kind.classify name parent = .item ↔ name = "Item" := by
  unfold Kind.classify
  split_ifs with item property <;> simp [item]

theorem classify_eq_property
    {name : String} {parent : Option Kind} :
    Kind.classify name parent = .property ↔
      name ≠ "Item" ∧ parent = some .item ∧ name ≠ "Relationships" := by
  unfold Kind.classify
  split_ifs with item property
  · simp [item]
  · simp [item, property]
  · simp only [item, ne_eq, not_false_eq_true, true_and, false_iff]
    exact property

theorem kind_reread
    (parent : Option Kind) (tag : Tag) (children : List (Tree Tag)) :
    (reread parent (.node tag children)).label.kind =
      .classify tag.name parent := by
  rw [reread]
  rfl

theorem entries_reread
    {tag : Tag} (distinct : (tag.attributes.map Prod.fst).Nodup)
    (parent : Option Kind) (children : List (Tree Tag)) :
    (reread parent (.node tag children)).label.attributes.entries =
      tag.attributes := by
  rw [reread]
  exact Fields.entries_ofList distinct

theorem children_reread
    (parent : Option Kind) (tag : Tag) (children : List (Tree Tag)) :
    (reread parent (.node tag children)).children =
      rereadAll (some (.classify tag.name parent)) children := by
  rw [reread]
  rfl

theorem name_reread
    (parent : Option Kind) (tree : Tree Tag) :
    (reread parent tree).label.name = tree.label.name := by
  cases tree
  rw [reread]
  rfl

/-- Without children an element is read back with the text of its tag. -/
theorem value?_reread
    (locale : Locale) (parent : Option Kind) (tag : Tag) :
    (reread parent (.node tag [])).value? locale =
      if tag.text.isEmpty then none else some tag.text := by
  rw [reread, Element.value?]
  simp only [List.isEmpty_nil, Bool.true_and, rereadAll, Tree.label,
    Tree.children]
  cases nothing : tag.text.isEmpty with
  | true => rfl
  | false => simp [Value.isNull]

theorem rereadAll_eq_map
    (parent : Option Kind) (trees : List (Tree Tag)) :
    rereadAll parent trees = trees.map (reread parent) := by
  induction trees with
  | nil => rfl
  | cons tree rest ih => rw [rereadAll, List.map_cons, ih]

/-- The first element of which something holds that depends on its name
only. -/
theorem find?_rereadAll
    (parent : Option Kind) (trees : List (Tree Tag))
    (named : String → Bool) :
    (rereadAll parent trees).find? (fun child => named child.label.name) =
      (trees.find? fun tree => named tree.label.name).map
        (reread parent) := by
  rw [rereadAll_eq_map, List.find?_map]
  congr 2
  funext tree
  rw [Function.comp_apply, name_reread]

mutual

theorem size_reread
    (parent : Option Kind) (tree : Tree Tag) :
    (reread parent tree).size = tree.size := by
  cases tree with
  | node tag children =>
      rw [reread, Tree.size, Tree.size, sizeAll_rereadAll]

theorem sizeAll_rereadAll
    (parent : Option Kind) (trees : List (Tree Tag)) :
    Tree.sizeAll (rereadAll parent trees) = Tree.sizeAll trees := by
  cases trees with
  | nil => rfl
  | cons tree rest =>
      rw [rereadAll, Tree.sizeAll, Tree.sizeAll, size_reread,
        sizeAll_rereadAll]

end

/-! ## Labels of a tree -/

mutual

theorem toList_map
    {α β : Type} (change : α → β) (tree : Tree α) :
    (tree.map change).toList = tree.toList.map change := by
  cases tree with
  | node label children =>
      rw [Tree.map, Tree.toList, Tree.toList, List.map_cons,
        toListAll_mapAll]

theorem toListAll_mapAll
    {α β : Type} (change : α → β) (trees : List (Tree α)) :
    Tree.toListAll (Tree.mapAll change trees) =
      (Tree.toListAll trees).map change := by
  cases trees with
  | nil => rfl
  | cons tree rest =>
      rw [Tree.mapAll, Tree.toListAll, Tree.toListAll, List.map_append,
        toList_map, toListAll_mapAll]

end

theorem exists_of_mem_toListAll
    {α : Type} {trees : List (Tree α)} {value : α}
    (member : value ∈ Tree.toListAll trees) :
    ∃ tree ∈ trees, value ∈ tree.toList := by
  induction trees with
  | nil => cases member
  | cons tree rest ih =>
      rw [Tree.toListAll, List.mem_append] at member
      rcases member with here | later
      · exact ⟨tree, List.mem_cons_self, here⟩
      · obtain ⟨other, isOther, within⟩ := ih later
        exact ⟨other, List.mem_cons_of_mem tree isOther, within⟩

/-- What holds of the label of every element of an outline holds of every
label of its tree. -/
theorem forall_mem_tree
    {document : Document} {id : NodeId} {property : Label → Prop} :
    (∀ label ∈ (document.tree id).toList, property label) ↔
      ∀ element ∈ (document.outline id).toList,
        property (document.label element) := by
  rw [tree, toList_map, List.forall_mem_map]

/-! ## Growth from a normal form -/

namespace Growth

theorem addText_append
    (growth : Growth) (first second : String) :
    (growth.addText first).addText second =
      growth.addText (first ++ second) := by
  obtain ⟨frames, finished⟩ := growth
  cases frames with
  | nil => rfl
  | cons frame outer => simp [addText, String.append_assoc]

theorem addText_empty
    (growth : Growth) :
    growth.addText "" = growth := by
  obtain ⟨frames, finished⟩ := growth
  cases frames with
  | nil => rfl
  | cons frame outer => simp [addText]

theorem foldl_sections
    (parts : List (List Char)) (growth : Growth) :
    (parts.map fun part => Event.characterData (String.ofList part)).foldl
        step growth =
      growth.addText (String.ofList parts.flatten) := by
  induction parts generalizing growth with
  | nil => exact growth.addText_empty.symm
  | cons part rest ih =>
      rw [List.map_cons, List.foldl_cons, ih, step, addText_append,
        List.flatten_cons, String.ofList_append]

theorem foldl_before
    (event : Event) (following : List Event) (growth : Growth) :
    (event.before following).foldl step growth =
      (event :: following).foldl step growth := by
  unfold Event.before
  split
  · next following content =>
      split
      · next nothing =>
          have blank : content = "" := by simpa using nothing
          rw [blank, List.foldl_cons, step, addText_empty]
      · split
        · next more rest =>
            simp only [List.foldl_cons, step, addText_append]
        · rfl
  · next following content =>
      rw [List.foldl_append, Markup.sectionEvents, foldl_sections,
        Markup.flatten_sections, String.ofList_toList]
      rfl
  · rfl
  · rfl

theorem foldl_normalForm
    (events : List Event) (growth : Growth) :
    (Markup.normalForm events).foldl step growth =
      events.foldl step growth := by
  induction events generalizing growth with
  | nil => rfl
  | cons event rest ih =>
      rw [Markup.normalForm_cons, foldl_before, List.foldl_cons, ih,
        List.foldl_cons]

end Growth

/-- Events make up the same trees as their normal form. -/
theorem treesOf_normalForm
    (events : List Event) :
    treesOf (Markup.normalForm events) = treesOf events := by
  rw [treesOf, Growth.foldl_normalForm, treesOf]

/-! ## Growth from a page -/

/-- An element is its start tag, its text, the elements below it and its end
tag. -/
theorem events_nodeOf
    (tag : Tag) (children : List (Tree Tag)) :
    (nodeOf (.node tag children)).events =
      .start tag.name tag.attributes false :: .text tag.text ::
        (Markup.Node.eventsAll (nodesOf children) ++ [.finish tag.name]) := by
  rw [nodeOf, Markup.Node.events, Markup.Node.eventsAll, Markup.Node.events]
  rfl

theorem nested_nodeOf
    (tree : Tree Tag) :
    Markup.Nested [] (nodeOf tree).events := by
  rw [← List.append_nil (nodeOf tree).events]
  apply Markup.Node.nested_events _ _ (Markup.nested_nil.mpr rfl)
  intro _
  cases tree
  trivial

theorem isEmpty_rereadAll
    (parent : Option Kind) (trees : List (Tree Tag)) :
    (rereadAll parent trees).isEmpty = trees.isEmpty := by
  cases trees <;> rfl

theorem close_eq
    (parent : Option Kind) (tag : Tag)
    (children : List (Tree Tag)) :
    Frame.close
        ⟨tag.name, .classify tag.name parent, .ofList tag.attributes, tag.text,
          (rereadAll (some (.classify tag.name parent)) children).reverse⟩ =
      reread parent (.node tag children) := by
  rw [Frame.close, List.isEmpty_reverse, isEmpty_rereadAll,
    List.reverse_reverse, reread]

namespace Growth

/-- The role of the innermost open element. -/
def kind? (growth : Growth) : Option Kind :=
  growth.frames.head?.map Frame.kind

mutual

/-- A page adds one tree. -/
theorem foldl_nodeOf
    (tree : Tree Tag) (growth : Growth) :
    (nodeOf tree).events.foldl step growth =
      growth.add (reread growth.kind? tree) := by
  cases tree with
  | node tag children =>
      have opened :
          ((growth.step (.start tag.name tag.attributes false)).step
              (.text tag.text)) =
            ⟨⟨tag.name, .classify tag.name growth.kind?,
                .ofList tag.attributes, tag.text, []⟩ :: growth.frames,
              growth.finished⟩ := by
        simp [step, addText, kind?]
      rw [events_nodeOf, List.foldl_cons, List.foldl_cons, opened,
        List.foldl_append, foldl_nodesOf children, List.append_nil,
        ← close_eq]
      rfl

/-- Pages add their trees to the innermost open element. -/
theorem foldl_nodesOf
    (trees : List (Tree Tag)) (frame : Frame) (outer : List Frame)
    (finished : List Element) :
    (Markup.Node.eventsAll (nodesOf trees)).foldl step
        ⟨frame :: outer, finished⟩ =
      ⟨{ frame with
          children :=
            (rereadAll (some frame.kind) trees).reverse ++ frame.children } ::
          outer,
        finished⟩ := by
  cases trees with
  | nil => rfl
  | cons tree rest =>
      rw [nodesOf, Markup.Node.eventsAll, List.foldl_append,
        foldl_nodeOf tree, add, foldl_nodesOf rest, rereadAll,
        List.reverse_cons, List.append_assoc]
      rfl

end

end Growth

/-- A page is read back as one tree. -/
theorem treesOf_nodeOf
    (tree : Tree Tag) :
    treesOf (nodeOf tree).events = [reread none tree] := by
  rw [treesOf, Growth.foldl_nodeOf]
  rfl

/-! ## Trees in the document that is made of them -/

theorem node?_ofTrees
    {locale : Locale} {stored : Bool} {trees : List Element} {id : NodeId}
    {node : Node} :
    (ofTrees locale stored trees).node? id = some node ↔
      (node, id) ∈ (layoutAll stored .root 0 trees).zipIdx 0 := by
  rw [List.mk_mem_zipIdx_iff_getElem?]
  simp [ofTrees, node?]

section

variable {document : Document} {stored : Bool}

mutual

theorem tree_of_layout
    (linked : document.Linked) {parent : Parent} {first : NodeId}
    (tree : Element)
    (laid : ∀ node id, (node, id) ∈
      (layout stored parent first tree).zipIdx first →
        document.node? id = some node) :
    document.tree first = tree := by
  cases tree with
  | node label children =>
      rw [layout, List.zipIdx_cons] at laid
      have root := laid _ _ List.mem_cons_self
      have below :=
        trees_of_layoutAll linked children fun node id member =>
          laid node id (List.mem_cons_of_mem _ member)
      rw [linked.tree_eq, children_of_node? root, below, Document.label, root]
      rfl

theorem trees_of_layoutAll
    (linked : document.Linked) {parent : Parent} {first : NodeId}
    (trees : List Element)
    (laid : ∀ node id, (node, id) ∈
      (layoutAll stored parent first trees).zipIdx first →
        document.node? id = some node) :
    (rootPlaces first trees).map document.tree = trees := by
  cases trees with
  | nil => rfl
  | cons tree rest =>
      rw [layoutAll, List.zipIdx_append, length_layout] at laid
      have here :=
        tree_of_layout linked tree fun node id member =>
          laid node id (List.mem_append_left _ member)
      have others :=
        trees_of_layoutAll linked rest fun node id member =>
          laid node id (List.mem_append_right _ member)
      rw [rootPlaces, List.map_cons, here, others]

end

end

section

variable (locale : Locale) (stored : Bool) {tree : Element}

theorem linked_ofTrees
    (valid : Valid tree) :
    (ofTrees locale stored [tree]).Linked := by
  rw [ofTrees_eq_plantAll]
  exact (linked_new locale).plantAll ⟨valid, trivial⟩

theorem tree_ofTrees
    (valid : Valid tree) :
    (ofTrees locale stored [tree]).tree 0 = tree := by
  have trees :=
    trees_of_layoutAll (linked_ofTrees locale stored valid) [tree]
      fun _ _ member => node?_ofTrees.mpr member
  exact (List.cons.inj trees).1

theorem roots_ofTrees
    (valid : Valid tree) :
    (ofTrees locale stored [tree]).roots = [0] := by
  have alone : ValidAll [tree] := ⟨valid, trivial⟩
  have block := block_layoutAll stored .root 0 [tree] alone
  obtain ⟨root, placed, top⟩ := block.tops 0 List.mem_cons_self
  have found : (ofTrees locale stored [tree]).node? 0 = some root :=
    node?_ofTrees.mpr placed
  have isRoot (id : NodeId) :
      ((ofTrees locale stored [tree]).node? id).map Node.parent =
        some .root ↔ id = 0 := by
    constructor
    · intro isRoot
      obtain ⟨node, known, hangs⟩ := Option.map_eq_some_iff.mp isRoot
      rcases block.up node id (node?_ofTrees.mp known) with
        ⟨-, place⟩ | ⟨_, _, _, attached, _⟩
      · exact List.mem_singleton.mp place
      · rw [hangs] at attached
        cases attached
    · rintro rfl
      rw [found, Option.map_some, top]
  have test :
      (fun id => ((ofTrees locale stored [tree]).node? id).map Node.parent ==
        some .root) = fun id => decide (id = 0) := by
    funext id
    rw [Bool.eq_iff_iff, beq_iff_eq, decide_eq_true_iff, isRoot]
  obtain ⟨others, size⟩ :=
    Nat.exists_eq_succ_of_ne_zero (Nat.ne_of_gt (lt_of_node? found))
  rw [roots, test, size, List.range_succ_eq_map]
  simp

end

/-! ## Pages in the document that is read of them -/

mutual

theorem valid_reread
    (parent : Option Kind) (tree : Tree Tag) :
    Valid (reread parent tree) := by
  cases tree with
  | node tag children =>
      rw [reread, Valid]
      refine ⟨?_, validAll_rereadAll _ children⟩
      intro some
      have present : children.isEmpty = false := by
        rw [← isEmpty_rereadAll, List.isEmpty_eq_false_iff]
        exact some
      rw [present]
      rfl

theorem validAll_rereadAll
    (parent : Option Kind) (trees : List (Tree Tag)) :
    ValidAll (rereadAll parent trees) := by
  cases trees with
  | nil => trivial
  | cons tree rest =>
      exact ⟨valid_reread parent tree, validAll_rereadAll parent rest⟩

end

/-- The markup of a page is read back. -/
theorem exists_toText_nodeOf
    {tree : Tree Tag} (lawful : (nodeOf tree).Lawful) (locale : Locale)
    (stored : Bool) :
    ∃ text,
      (Markup.Draft.of (nodeOf tree).instructions).toText = .ok text ∧
        parse .unlimited locale stored text =
          .ok (ofTrees locale stored [reread none tree]) := by
  obtain ⟨text, written, ⟨place, ended⟩, delivered⟩ :=
    Markup.delivered_toText (nested_nodeOf tree)
      (Markup.Node.lawful_events _ lawful)
  rw [← Markup.Node.instructions_eq_flatMap] at written
  refine ⟨text, written, ?_⟩
  rw [parse, ended, delivered, treesOf_normalForm, treesOf_nodeOf]

/-- What an element is written as, read back. -/
def rereading (document : Document) (expanded : Bool) (id : NodeId) :
    Element :=
  reread none (page ⟨document.locale, expanded⟩ [] (document.tree id))

theorem valid_rereading
    (document : Document) (expanded : Bool) (id : NodeId) :
    Valid (document.rereading expanded id) :=
  valid_reread _ _

section

variable {document : Document} {id : NodeId} {expanded : Bool}

theorem writable_of_toAml
    {text : String} (written : document.toAml expanded id = .ok text) :
    Writable ⟨document.locale, expanded⟩ (document.tree id) :=
  (fault_treeDraft ..).mp (Markup.Draft.fault_of_toText written)

/-- What can be written is written as its page. -/
theorem toAml_eq
    (writable : Writable ⟨document.locale, expanded⟩ (document.tree id)) :
    document.toAml expanded id =
      (Markup.Draft.of
        (nodeOf (page ⟨document.locale, expanded⟩ []
          (document.tree id))).instructions).toText :=
  toText_treeDraft writable

/-- What can be written can be read back. -/
theorem exists_toAml
    (named : ∀ label ∈ (document.tree id).toList, label.Named)
    (writable : Writable ⟨document.locale, expanded⟩ (document.tree id))
    (locale : Locale) (stored : Bool) :
    ∃ text,
      document.toAml expanded id = .ok text ∧
        parse .unlimited locale stored text =
          .ok (ofTrees locale stored [document.rereading expanded id]) := by
  rw [toAml_eq writable]
  exact exists_toText_nodeOf (lawful_page _ _ _ named) locale stored

theorem parse_toAml
    (named : ∀ label ∈ (document.tree id).toList, label.Named)
    {text : String} (written : document.toAml expanded id = .ok text)
    (locale : Locale) (stored : Bool) :
    parse .unlimited locale stored text =
      .ok (ofTrees locale stored [document.rereading expanded id]) := by
  obtain ⟨other, same, parsed⟩ :=
    exists_toAml named (writable_of_toAml written) locale stored
  rw [written] at same
  cases same
  exact parsed

end

end AmlExchange.Document
