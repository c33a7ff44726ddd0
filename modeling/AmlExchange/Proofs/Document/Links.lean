import AmlExchange.Document.Edit
import AmlExchange.Proofs.Document.Wiring

/-!
# Documents whose parts belong together

In a linked document the children and the parents of all elements belong
together, and an element with children has no value.  Each way to change some
elements keeps a document linked.
-/

namespace AmlExchange.Document

variable {document : Document}

/-! ## Elements of a changed document -/

theorem node?_update
    (document : Document) (id : NodeId) (change : Node → Node)
    (other : NodeId) :
    (document.update id change).node? other =
      if id = other then (document.node? other).map change
      else document.node? other := by
  simp only [node?, update, Array.getElem?_modify]

theorem node?_update_self
    (document : Document) (id : NodeId) (change : Node → Node) :
    (document.update id change).node? id = (document.node? id).map change := by
  rw [node?_update, if_pos rfl]

theorem node?_update_of_ne
    {id other : NodeId} (differs : other ≠ id) (document : Document)
    (change : Node → Node) :
    (document.update id change).node? other = document.node? other := by
  rw [node?_update, if_neg (Ne.symm differs)]

/-- Documents with the same elements are the same. -/
theorem eq_of_node?_eq
    {first second : Document} (locale : first.locale = second.locale)
    (same : ∀ id, first.node? id = second.node? id) :
    first = second := by
  obtain ⟨nodes, place⟩ := first
  obtain ⟨others, elsewhere⟩ := second
  cases locale
  have nodesSame : nodes = others := Array.ext_getElem? same
  rw [nodesSame]

theorem lt_of_node?
    {id : NodeId} {node : Node} (found : document.node? id = some node) :
    id < document.nodes.size := by
  simp only [node?, Array.getElem?_eq_some_iff] at found
  exact found.1

/-- The element above one that hangs somewhere. -/
def Parent.above? : Parent → Option NodeId
  | .attached parent => some parent
  | .root | .detached => none

theorem parent?_eq
    (document : Document) (id : NodeId) :
    document.parent? id =
      (document.node? id).bind fun node => node.parent.above? := by
  rw [parent?]
  split
  · next found =>
      rw [found]
      rfl
  · next free =>
      cases found : document.node? id with
      | none => rfl
      | some node =>
          obtain ⟨label, children, parent, readOnly, stored⟩ := node
          cases parent with
          | attached parent => exact (free _ _ _ _ _ found).elim
          | root | detached => rfl

theorem parent?_of_node?
    {id : NodeId} {node : Node} (found : document.node? id = some node) :
    document.parent? id = node.parent.above? := by
  rw [parent?_eq, found, Option.bind_some]

theorem children_eq
    (document : Document) (id : NodeId) :
    document.children id = ((document.node? id).map Node.children).getD [] :=
  rfl

theorem children_of_node?
    {id : NodeId} {node : Node} (found : document.node? id = some node) :
    document.children id = node.children := by
  rw [children, found]
  rfl

theorem content_of_node?
    {id : NodeId} {node : Node} (found : document.node? id = some node) :
    document.content id = node.label.content := by
  rw [content, label, found]
  rfl

/-- An element with children is known. -/
theorem exists_of_children
    {id : NodeId} (some : document.children id ≠ []) :
    ∃ node, document.node? id = .some node := by
  cases found : document.node? id with
  | none =>
      rw [children, found] at some
      exact absurd rfl some
  | some node => exact ⟨node, rfl⟩

/-- An element with a parent is known. -/
theorem exists_of_parent?
    {id parent : NodeId} (above : document.parent? id = some parent) :
    ∃ node, document.node? id = some node ∧
      node.parent = .attached parent := by
  rw [parent?_eq, Option.bind_eq_some_iff] at above
  obtain ⟨node, found, above⟩ := above
  refine ⟨node, found, ?_⟩
  cases place : node.parent with
  | attached other =>
      rw [place] at above
      cases above
      rfl
  | root | detached =>
      rw [place] at above
      cases above

/-! ## Linked documents -/

/-- A document whose children and parents belong together and in which an
element with children has no value. -/
structure Linked (document : Document) : Prop where
  wiring : Wiring document.children document.parent?
  emptied : ∀ id node, document.node? id = some node →
    node.children ≠ [] → node.label.content = .null

/-- Where one element hangs from another, both are known and differ. -/
theorem Linked.exists_link
    (linked : document.Linked) {parent child : NodeId}
    (above : document.parent? child = some parent) :
    ∃ node childNode,
      document.node? parent = some node ∧
        document.node? child = some childNode ∧
        node.children ≠ [] ∧ child ≠ parent := by
  have member : child ∈ document.children parent :=
    (linked.wiring.links parent child).mpr above
  obtain ⟨node, known⟩ := exists_of_children (List.ne_nil_of_mem member)
  obtain ⟨childNode, childKnown, -⟩ := exists_of_parent? above
  refine ⟨node, childNode, known, childKnown, ?_, ?_⟩
  · rw [← children_of_node? known]
    exact List.ne_nil_of_mem member
  · rintro rfl
    exact linked.wiring.grounded.irrefl.irrefl child above

theorem Linked.parent_lt
    (linked : document.Linked) {parent child : NodeId}
    (above : document.parent? child = some parent) :
    parent < document.nodes.size := by
  obtain ⟨node, _, known, -⟩ := linked.exists_link above
  exact lt_of_node? known

/-- What the change of one element has to keep. -/
structure Harmless (change : Node → Node) (node : Node) : Prop where
  children : (change node).children = node.children
  above : (change node).parent.above? = node.parent.above?
  emptied : node.children ≠ [] → (change node).label.content = .null

theorem Linked.update
    (linked : document.Linked) {change : Node → Node} {id : NodeId}
    (harmless : ∀ node, document.node? id = some node →
      Harmless change node) :
    (document.update id change).Linked := by
  have childrenAfter :
      (document.update id change).children = document.children := by
    funext other
    rw [children_eq, children_eq, node?_update]
    split
    · next same =>
        subst same
        cases found : document.node? id with
        | none => rfl
        | some node =>
            rw [Option.map_some, Option.map_some, Option.map_some,
              (harmless node found).children]
    · rfl
  have parentsAfter :
      (document.update id change).parent? = document.parent? := by
    funext other
    rw [parent?_eq, parent?_eq, node?_update]
    split
    · next same =>
        subst same
        cases found : document.node? id with
        | none => rfl
        | some node => exact (harmless node found).above
    · rfl
  constructor
  · rw [childrenAfter, parentsAfter]
    exact linked.wiring
  · intro other node found some
    rw [node?_update] at found
    split at found
    · next same =>
        subst same
        obtain ⟨before, known, rfl⟩ := Option.map_eq_some_iff.mp found
        rw [(harmless before known).children] at some
        exact (harmless before known).emptied some
    · exact linked.emptied other node found some

/-- A change of what an element says of itself, but not of its value. -/
structure Relabels (change : Node → Node) : Prop where
  children : ∀ node, (change node).children = node.children
  parent : ∀ node, (change node).parent = node.parent
  content : ∀ node, (change node).label.content = node.label.content

theorem Linked.relabel
    (linked : document.Linked) {change : Node → Node}
    (relabels : Relabels change) (id : NodeId) :
    (document.update id change).Linked := by
  apply linked.update
  intro node found
  refine ⟨relabels.children node, ?_, ?_⟩
  · rw [relabels.parent]
  · rw [relabels.content]
    exact linked.emptied id node found

/-! ## Elements moved -/

/-- An element as a further child of another. -/
def hang (document : Document) (id child : NodeId) : Document :=
  (document.update id fun node =>
      { node.setContent .null with
        children := node.children ++ [child] }).update child
    fun node => { node with parent := .attached id }

/-- An element taken away from the one that it hangs from. -/
def release (document : Document) (parent child : NodeId) : Document :=
  (document.update parent fun node =>
      { node with children := node.children.filter (· ≠ child) }).update child
    fun node => { node with parent := .detached }

section

variable {id child : NodeId} {node childNode : Node}

theorem node?_update_update
    (differs : child ≠ id) (document : Document) (first second : Node → Node)
    (other : NodeId) :
    ((document.update id first).update child second).node? other =
      if other = id then (document.node? id).map first
      else if other = child then (document.node? child).map second
      else document.node? other := by
  by_cases atId : other = id
  · subst atId
    rw [node?_update_of_ne differs.symm, node?_update_self, if_pos rfl]
  · rw [if_neg atId]
    by_cases atChild : other = child
    · subst atChild
      rw [node?_update_self, node?_update_of_ne atId, if_pos rfl]
    · rw [node?_update_of_ne atChild, node?_update_of_ne atId,
        if_neg atChild]

section

variable {first second : Node → Node}

theorem children_update_update
    (known : document.node? id = some node)
    (childKnown : document.node? child = some childNode)
    (differs : child ≠ id)
    (childrenKept : (second childNode).children = childNode.children) :
    ((document.update id first).update child second).children =
      Function.update document.children id (first node).children := by
  funext other
  rw [children_eq, node?_update_update differs]
  by_cases atId : other = id
  · rw [if_pos atId, atId, Function.update_self, known]
    rfl
  · rw [if_neg atId, Function.update_of_ne atId, children_eq]
    split
    · next atChild =>
        rw [atChild, childKnown]
        exact childrenKept
    · rfl

theorem parent?_update_update
    (known : document.node? id = some node)
    (childKnown : document.node? child = some childNode)
    (differs : child ≠ id)
    (parentKept : (first node).parent = node.parent) :
    ((document.update id first).update child second).parent? =
      Function.update document.parent? child
        (second childNode).parent.above? := by
  funext other
  rw [parent?_eq, node?_update_update differs]
  by_cases atChild : other = child
  · rw [atChild, if_neg differs, if_pos rfl, Function.update_self,
      childKnown]
    rfl
  · rw [if_neg atChild, Function.update_of_ne atChild, parent?_eq]
    split
    · next atId =>
        rw [atId, known]
        exact congrArg Parent.above? parentKept
    · rfl

theorem Linked.emptied_update_update
    (linked : document.Linked)
    (known : document.node? id = some node)
    (childKnown : document.node? child = some childNode)
    (differs : child ≠ id)
    (childrenKept : (second childNode).children = childNode.children)
    (contentKept :
      (second childNode).label.content = childNode.label.content)
    (emptied :
      (first node).children ≠ [] → (first node).label.content = .null) :
    ∀ other after,
      ((document.update id first).update child second).node? other =
          some after →
        after.children ≠ [] → after.label.content = .null := by
  intro other after found some
  rw [node?_update_update differs, known, childKnown] at found
  split at found
  · cases found
    exact emptied some
  · split at found
    · cases found
      rw [childrenKept] at some
      rw [contentKept]
      exact linked.emptied child childNode childKnown some
    · exact linked.emptied other after found some

end

theorem Linked.hang
    (linked : document.Linked)
    (known : document.node? id = some node)
    (childKnown : document.node? child = some childNode)
    (free : document.parent? child = none)
    (apart :
      ¬ Relation.ReflTransGen (IsParent document.parent?) child id) :
    (document.hang id child).Linked := by
  have differs : child ≠ id := by
    rintro rfl
    exact apart .refl
  constructor
  · rw [Document.hang, children_update_update known childKnown differs rfl,
      parent?_update_update known childKnown differs rfl,
      ← children_of_node? known]
    exact linked.wiring.hang free apart
  · exact
      linked.emptied_update_update known childKnown differs rfl rfl
        fun _ => rfl

theorem Linked.parent?_release
    (linked : document.Linked)
    (above : document.parent? child = some id) :
    (document.release id child).parent? =
      Function.update document.parent? child none := by
  obtain ⟨node, childNode, known, childKnown, -, differs⟩ :=
    linked.exists_link above
  exact parent?_update_update known childKnown differs rfl

theorem Linked.release
    (linked : document.Linked)
    (above : document.parent? child = some id) :
    (document.release id child).Linked := by
  obtain ⟨node, childNode, known, childKnown, some, differs⟩ :=
    linked.exists_link above
  constructor
  · rw [linked.parent?_release above, Document.release,
      children_update_update known childKnown differs rfl,
      ← children_of_node? known]
    exact linked.wiring.release above
  · apply
      linked.emptied_update_update known childKnown differs rfl rfl
    exact fun _ => linked.emptied id node known some

/-- Where an element hung does not matter once it hangs elsewhere. -/
theorem hang_release
    (differs : child ≠ id) (parent : NodeId) :
    (document.release parent child).hang id child =
      (document.update parent fun node =>
        { node with
          children := node.children.filter (· ≠ child) }).hang id child := by
  refine eq_of_node?_eq rfl ?_
  intro other
  rw [Document.hang, Document.hang, node?_update_update differs,
    node?_update_update differs, Document.release]
  split
  · rw [node?_update_of_ne differs.symm]
  · split
    · rw [node?_update_self, Option.map_map]
      rfl
    · next atChild => rw [node?_update_of_ne atChild]

end

/-! ## All children taken away -/

/-- An element that hangs nowhere any more. -/
def Node.detach (node : Node) : Node :=
  { node with parent := .detached }

/-- An element without children. -/
def Node.childless (node : Node) : Node :=
  { node with children := [] }

/-- One change made to several elements. -/
def updateAll (document : Document) (ids : List NodeId)
    (change : Node → Node) : Document :=
  ids.foldl (fun document id => document.update id change) document

/-- All children taken away from an element. -/
def shed (document : Document) (id : NodeId) : Document :=
  (document.update id Node.childless).updateAll (document.children id)
    Node.detach

theorem node?_updateAll_detach
    (document : Document) (ids : List NodeId) (other : NodeId) :
    (document.updateAll ids Node.detach).node? other =
      if other ∈ ids then (document.node? other).map Node.detach
      else document.node? other := by
  induction ids generalizing document with
  | nil => rfl
  | cons id rest ih =>
      rw [updateAll, List.foldl_cons, ← updateAll, ih]
      by_cases same : other = id
      · subst same
        rw [node?_update_self, if_pos List.mem_cons_self]
        cases document.node? other with
        | none => split <;> rfl
        | some node => split <;> rfl
      · rw [node?_update_of_ne same]
        simp [same]

theorem node?_shed
    (document : Document) (id other : NodeId) :
    (document.shed id).node? other =
      (document.node? other).map fun node =>
        let kept := if other = id then node.childless else node
        if other ∈ document.children id then kept.detach else kept := by
  rw [shed, node?_updateAll_detach]
  by_cases same : other = id
  · subst same
    rw [node?_update_self]
    cases document.node? other with
    | none => split <;> rfl
    | some node => split <;> simp_all
  · rw [node?_update_of_ne same]
    cases document.node? other with
    | none => split <;> rfl
    | some node => split <;> simp_all

theorem children_shed
    (document : Document) (id : NodeId) :
    (document.shed id).children =
      Function.update document.children id [] := by
  funext other
  rw [children_eq _ other, node?_shed]
  by_cases same : other = id
  · subst same
    rw [Function.update_self]
    cases document.node? other with
    | none => rfl
    | some node =>
        simp only [Option.map_some, if_pos]
        split <;> rfl
  · rw [Function.update_of_ne same, children_eq document other]
    cases document.node? other with
    | none => rfl
    | some node =>
        simp only [Option.map_some, if_neg same]
        split <;> rfl

theorem parent?_shed
    (document : Document) (id : NodeId) :
    (document.shed id).parent? =
      fun child =>
        if child ∈ document.children id then none
        else document.parent? child := by
  funext child
  rw [parent?_eq _ child, node?_shed, parent?_eq document child]
  cases document.node? child with
  | none => simp
  | some node =>
      simp only [Option.map_some, Option.bind_some]
      by_cases member : child ∈ document.children id
      · rw [if_pos member, if_pos member]
        rfl
      · rw [if_neg member, if_neg member]
        split <;> rfl

theorem Linked.shed
    (linked : document.Linked) (id : NodeId) :
    (document.shed id).Linked := by
  constructor
  · rw [children_shed, parent?_shed]
    exact linked.wiring.shed id
  · intro other after found some
    rw [node?_shed] at found
    obtain ⟨node, known, rfl⟩ := Option.map_eq_some_iff.mp found
    have kept := linked.emptied other node known
    dsimp only at some ⊢
    split at some <;> split at some
    · exact absurd rfl some
    · rw [if_pos ‹_›, if_neg ‹_›]
      exact kept some
    · exact absurd rfl some
    · rw [if_neg ‹_›, if_neg ‹_›]
      exact kept some

end AmlExchange.Document
