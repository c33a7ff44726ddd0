import AmlExchange.Proofs.Document.Rereading
import AmlExchange.Proofs.Markup.Streams

/-!
# The roles of elements that are read

A reader refuses what is not a name, and the role of an element that it has
read goes with its name and with the role of the element around it.  Both hold
of every element of a document that was read from markup, and so of every tree
that hangs from one (`regular_parse`).
-/

namespace AmlExchange.Document

open Markup (Event)

mutual

/-- Whether the names in a tree are names and the roles go with them, within an
element of some role. -/
def Regular (parent : Option Kind) : Element → Prop
  | .node label children =>
      label.Named ∧ label.kind = .classify label.name parent ∧
        RegularAll (some label.kind) children

/-- Whether some trees are regular. -/
def RegularAll (parent : Option Kind) : List Element → Prop
  | [] => True
  | tree :: rest => Regular parent tree ∧ RegularAll parent rest

end

theorem regularAll_iff
    (parent : Option Kind) (trees : List Element) :
    RegularAll parent trees ↔ ∀ tree ∈ trees, Regular parent tree := by
  induction trees with
  | nil => simp [RegularAll]
  | cons tree rest ih => rw [RegularAll, List.forall_mem_cons, ih]

theorem regular_iff
    (parent : Option Kind) (tree : Element) :
    Regular parent tree ↔
      tree.label.Named ∧
        tree.label.kind = .classify tree.label.name parent ∧
        RegularAll (some tree.label.kind) tree.children := by
  obtain ⟨label, children⟩ := tree
  rw [Regular]
  rfl

mutual

theorem Regular.named
    {parent : Option Kind} {tree : Element} (regular : Regular parent tree) :
    ∀ label ∈ tree.toList, label.Named := by
  cases tree with
  | node label children =>
      rw [Regular] at regular
      rw [Tree.toList, List.forall_mem_cons]
      exact ⟨regular.1, regular.2.2.named⟩

theorem RegularAll.named
    {parent : Option Kind} {trees : List Element}
    (regular : RegularAll parent trees) :
    ∀ label ∈ Tree.toListAll trees, label.Named := by
  cases trees with
  | nil => exact nofun
  | cons tree rest =>
      rw [RegularAll] at regular
      rw [Tree.toListAll, List.forall_mem_append]
      exact ⟨regular.1.named, regular.2.named⟩

end

/-! ## Growth -/

namespace Growth

/-- Whether what is read of some open elements is regular, the innermost
first. -/
def RegularFrames : List Frame → Prop
  | [] => True
  | frame :: outer =>
      (Markup.isName frame.name.toList = true ∧
        ∀ field ∈ frame.attributes.entries,
          Markup.isName field.1.toList = true) ∧
      frame.kind =
        .classify frame.name (outer.head?.map Frame.kind) ∧
      RegularAll (some frame.kind) frame.children ∧ RegularFrames outer

/-- Whether all that has been read is regular. -/
structure Regular (growth : Growth) : Prop where
  frames : RegularFrames growth.frames
  finished : RegularAll none growth.finished

theorem Regular.add
    {growth : Growth} (regular : growth.Regular) {tree : Element}
    (added : Document.Regular growth.kind? tree) :
    (growth.add tree).Regular := by
  obtain ⟨frames, finished⟩ := growth
  cases frames with
  | nil => exact ⟨trivial, added, regular.finished⟩
  | cons frame outer =>
      obtain ⟨named, role, children, above⟩ := regular.frames
      exact ⟨⟨named, role, ⟨added, children⟩, above⟩, regular.finished⟩

theorem Regular.addText
    {growth : Growth} (regular : growth.Regular) (text : String) :
    (growth.addText text).Regular := by
  obtain ⟨frames, finished⟩ := growth
  cases frames with
  | nil => exact regular
  | cons frame outer => exact ⟨regular.frames, regular.finished⟩

theorem regular_close
    {frame : Frame} {outer : List Frame}
    (regular : RegularFrames (frame :: outer)) :
    Document.Regular (outer.head?.map Frame.kind) frame.close := by
  obtain ⟨named, role, children, -⟩ := regular
  refine ⟨named, role, ?_⟩
  rw [regularAll_iff] at children ⊢
  intro tree member
  exact children tree (List.mem_reverse.mp member)

theorem Regular.step
    {growth : Growth} (regular : growth.Regular) {event : Event}
    (lawful : event.Lawful) :
    (growth.step event).Regular := by
  cases event with
  | start name attributes empty =>
      have opened :
          RegularFrames
            (⟨name, .classify name growth.kind?, .ofList attributes, "", []⟩ ::
              growth.frames) := by
        refine ⟨⟨lawful.1, ?_⟩, rfl, trivial, regular.frames⟩
        rw [Fields.entries_ofList lawful.2.2]
        exact lawful.2.1
      rw [Growth.step]
      split
      · exact regular.add (regular_close opened)
      · exact ⟨opened, regular.finished⟩
  | finish name =>
      obtain ⟨frames, finished⟩ := growth
      cases frames with
      | nil => exact regular
      | cons frame outer =>
          have outerRegular : Regular ⟨outer, finished⟩ :=
            ⟨regular.frames.2.2.2, regular.finished⟩
          exact outerRegular.add (regular_close regular.frames)
  | text content | characterData content => exact regular.addText content
  | comment content => exact regular

theorem Regular.foldl
    {growth : Growth} (regular : growth.Regular) {events : List Event}
    (lawful : ∀ event ∈ events, event.Lawful) :
    (events.foldl Growth.step growth).Regular := by
  induction events generalizing growth with
  | nil => exact regular
  | cons event rest ih =>
      rw [List.forall_mem_cons] at lawful
      exact ih (regular.step lawful.1) lawful.2

end Growth

theorem regularAll_treesOf
    {events : List Event} (lawful : ∀ event ∈ events, event.Lawful) :
    RegularAll none (treesOf events) := by
  have start : Growth.start.Regular := ⟨trivial, trivial⟩
  have finished := (start.foldl lawful).finished
  rw [treesOf]
  rw [regularAll_iff] at finished ⊢
  intro tree member
  exact finished tree (List.mem_reverse.mp member)

/-! ## Trees within a document -/

section

variable {document : Document} {stored : Bool} {property : Element → Prop}

mutual

/-- What is handed down from a tree to the trees below it holds of every tree
that hangs from one of its elements. -/
theorem holds_of_layout
    (linked : document.Linked)
    (inherited : ∀ tree, property tree →
      ∀ child ∈ tree.children, property child)
    {parent : Parent} {first : NodeId} (tree : Element)
    (holds : property tree)
    (laid : ∀ node id, (node, id) ∈
      (layout stored parent first tree).zipIdx first →
        document.node? id = some node) :
    ∀ node id, (node, id) ∈
      (layout stored parent first tree).zipIdx first →
        property (document.tree id) := by
  have whole := tree_of_layout linked tree laid
  cases tree with
  | node label children =>
      rw [layout, List.zipIdx_cons] at laid ⊢
      intro node id member
      rcases List.mem_cons.mp member with same | below
      · cases same
        rw [whole]
        exact holds
      · apply holds_of_layoutAll linked inherited children
        · exact inherited _ holds
        · exact fun other place member =>
            laid other place (List.mem_cons_of_mem _ member)
        · exact below

theorem holds_of_layoutAll
    (linked : document.Linked)
    (inherited : ∀ tree, property tree →
      ∀ child ∈ tree.children, property child)
    {parent : Parent} {first : NodeId} (trees : List Element)
    (holds : ∀ tree ∈ trees, property tree)
    (laid : ∀ node id, (node, id) ∈
      (layoutAll stored parent first trees).zipIdx first →
        document.node? id = some node) :
    ∀ node id, (node, id) ∈
      (layoutAll stored parent first trees).zipIdx first →
        property (document.tree id) := by
  cases trees with
  | nil => exact nofun
  | cons tree rest =>
      rw [List.forall_mem_cons] at holds
      rw [layoutAll, List.zipIdx_append, length_layout] at laid ⊢
      intro node id member
      rcases List.mem_append.mp member with here | later
      · apply holds_of_layout linked inherited tree holds.1 _ node id here
        exact fun other place member =>
          laid other place (List.mem_append_left _ member)
      · apply holds_of_layoutAll linked inherited rest holds.2 _ node id later
        exact fun other place member =>
          laid other place (List.mem_append_right _ member)

end

end

/-- Every tree in a document that was read is regular. -/
theorem regular_parse
    {limits : Markup.Limits} {locale : Locale} {stored : Bool}
    {text : String} {document : Document}
    (read : parse limits locale stored text = .ok document) {id : NodeId}
    (known : id < document.nodes.size) :
    ∃ parent, Regular parent (document.tree id) := by
  have linked := linked_parse read
  rw [parse] at read
  split at read
  · cases read
  · next place ended =>
      cases read
      have regular := regularAll_treesOf (Markup.nested_read ended).2
      have found := Array.getElem?_eq_getElem known
      apply @holds_of_layoutAll _ stored
        (fun tree => ∃ parent, Regular parent tree) linked _ .root 0
        (treesOf _) _ (fun _ _ member => node?_ofTrees.mpr member) _ _
        (node?_ofTrees.mp found)
      · rintro tree ⟨parent, holds⟩ child member
        have below := ((regular_iff ..).mp holds).2.2
        exact ⟨_, (regularAll_iff ..).mp below child member⟩
      · intro tree member
        exact ⟨none, (regularAll_iff ..).mp regular tree member⟩

end AmlExchange.Document
