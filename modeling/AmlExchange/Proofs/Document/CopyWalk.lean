import AmlExchange.Proofs.Document.Outlines
import AmlExchange.Proofs.Document.Runs

/-!
# Copies made one element at a time

A tree can be copied without recursion: a walk through the source keeps a
stack of the elements still to be visited and lists a bare copy of each, with
the place that the copy of its parent has in the list; then the copies are made
one after the other, each becoming a child of one that was made before.  The
walk lists the elements in document order (`copyNodes_eq`), and making the
copies lays out the tree (`insertCopies_copiesOf`), so that this is just another
way to import and to clone (`importByWalk_eq`).
-/

namespace AmlExchange.Document

/-! ## The walk -/

/-- An element without its children and without its marks. -/
def Node.bared (node : Node) : Node :=
  { node with children := [], readOnly := false, stored := false }

/-- The elements listed by a walk of so many steps at most after those listed
so far, unless it comes to an unknown one.  The elements still to be visited
are on a stack, each with the place of its parent in the list. -/
def copyNodes (source : Document) :
    Nat → List (NodeId × Option Nat) → List (Node × Option Nat) →
      Option (List (Node × Option Nat))
  | _, [], copies => some copies
  | 0, _ :: _, _ => none
  | steps + 1, (id, parent) :: pending, copies =>
      match source.node? id with
      | none => none
      | some node =>
          source.copyNodes steps
            ((node.children.map fun child => (child, some copies.length)) ++
              pending)
            (copies ++ [(node.bared, parent)])

/-- An element with further children. -/
def Node.adopt (node : Node) (children : List NodeId) : Node :=
  { node with children := node.children ++ children }

/-- Where a root hangs, or an element below another. -/
def Parent.ofOption : Option NodeId → Parent
  | none => .root
  | some parent => .attached parent

/-- A document with one more element as the last child of another, or as a
root. -/
def pushUnder (document : Document) (node : Node) (parent : Option NodeId) :
    Document :=
  let larger := document.push { node with parent := .ofOption parent }
  match parent with
  | none => larger
  | some parent =>
      larger.update parent fun above => above.adopt [document.nextId]

/-- Listed elements made one after the other; the identities of those made so
far are at hand. -/
def insertCopies :
    List NodeId → List (Node × Option Nat) → Document →
      List NodeId × Document
  | made, [], document => (made, document)
  | made, (node, parent) :: rest, document =>
      insertCopies (made ++ [document.nextId]) rest
        (document.pushUnder node (parent.bind fun place => made[place]?))

/-- A copy of a tree of another document, made one element at a time. -/
def importByWalk (source : Document) (id : NodeId) : Edit NodeId :=
  match source.copyNodes source.nodes.size [(id, none)] [] with
  | none => refuse .unknownNode
  | some copies =>
      modifyGet fun document =>
        let (made, next) := insertCopies [] copies document
        (made.head?.getD 0, next)

/-! ## What the walk lists -/

section

variable {source : Document}

mutual

/-- The elements of an outline in document order, from a place of the list
on. -/
def copiesOf (source : Document) (place : Nat) (parent : Option Nat) :
    Tree NodeId → List (Node × Option Nat)
  | .node id children =>
      (((source.node? id).getD default).bared, parent) ::
        copiesOfAll source (place + 1) (some place) children

/-- The elements of some outlines. -/
def copiesOfAll (source : Document) (place : Nat) (parent : Option Nat) :
    List (Tree NodeId) → List (Node × Option Nat)
  | [] => []
  | tree :: rest =>
      copiesOf source place parent tree ++
        copiesOfAll source (place + tree.size) parent rest

end

/-- The elements below those on a stack. -/
def copiesOfPending (source : Document) (place : Nat) :
    List (NodeId × Option Nat) → List (Node × Option Nat)
  | [] => []
  | (id, parent) :: pending =>
      copiesOf source place parent (source.outline id) ++
        copiesOfPending source (place + (source.outline id).size) pending

/-- The number of elements below those on a stack. -/
def pendingSize (source : Document) (pending : List (NodeId × Option Nat)) :
    Nat :=
  Tree.sizeAll (pending.map fun entry => source.outline entry.1)

theorem pendingSize_children
    (children : List NodeId) (parent : Option Nat)
    (pending : List (NodeId × Option Nat)) :
    source.pendingSize ((children.map fun child => (child, parent)) ++ pending) =
      Tree.sizeAll (children.map source.outline) +
        source.pendingSize pending := by
  induction children with
  | nil => exact (Nat.zero_add _).symm
  | cons child rest ih =>
      rw [pendingSize] at ih ⊢
      rw [List.map_cons, List.cons_append, List.map_cons, List.map_cons,
        Tree.sizeAll, Tree.sizeAll, ih, Nat.add_assoc]

theorem copiesOfPending_children
    (place : Nat) (children : List NodeId) (parent : Option Nat)
    (pending : List (NodeId × Option Nat)) :
    source.copiesOfPending place
        ((children.map fun child => (child, parent)) ++ pending) =
      copiesOfAll source place parent (children.map source.outline) ++
        source.copiesOfPending
          (place + Tree.sizeAll (children.map source.outline)) pending := by
  induction children generalizing place with
  | nil => rfl
  | cons child rest ih =>
      rw [List.map_cons, List.cons_append, copiesOfPending, ih, List.map_cons,
        copiesOfAll, Tree.sizeAll, List.append_assoc, Nat.add_assoc]

section

variable {id : NodeId} {node : Node}

/-- A step leaves one element less to be visited. -/
theorem Linked.pendingSize_cons
    (linked : source.Linked) (found : source.node? id = some node)
    (parent place : Option Nat) (pending : List (NodeId × Option Nat)) :
    source.pendingSize ((id, parent) :: pending) =
      source.pendingSize
          ((node.children.map fun child => (child, place)) ++ pending) +
        1 := by
  rw [pendingSize_children, pendingSize, List.map_cons, Tree.sizeAll,
    linked.outline_eq, children_of_node? found, Tree.size, pendingSize]
  omega

/-- A step lists an element and then what its children leave to be listed. -/
theorem Linked.copiesOfPending_cons
    (linked : source.Linked) (found : source.node? id = some node)
    (place : Nat) (parent : Option Nat)
    (pending : List (NodeId × Option Nat)) :
    source.copiesOfPending place ((id, parent) :: pending) =
      (node.bared, parent) ::
        source.copiesOfPending (place + 1)
          ((node.children.map fun child => (child, some place)) ++
            pending) := by
  rw [copiesOfPending_children, copiesOfPending, linked.outline_eq,
    children_of_node? found, copiesOf, found, Tree.size, List.cons_append,
    Option.getD_some, Nat.add_assoc, Nat.add_comm 1]

theorem Linked.known_pending
    (linked : source.Linked) (found : source.node? id = some node)
    (place : Option Nat) {pending : List (NodeId × Option Nat)}
    (known : ∀ entry ∈ pending, (source.node? entry.1).isSome) :
    ∀ entry ∈ (node.children.map fun child => (child, place)) ++ pending,
      (source.node? entry.1).isSome := by
  refine List.forall_mem_append.mpr ⟨?_, known⟩
  rintro _ hung
  obtain ⟨child, member, rfl⟩ := List.mem_map.mp hung
  rw [← children_of_node? found] at member
  obtain ⟨-, _, -, isKnown, -⟩ :=
    linked.exists_link (linked.below_child member)
  rw [isKnown]
  rfl

end

/-- A walk of enough steps lists all elements below those on its stack, each
before those below it. -/
theorem Linked.copyNodes_eq
    (linked : source.Linked) {steps : Nat}
    {pending : List (NodeId × Option Nat)}
    (known : ∀ entry ∈ pending, (source.node? entry.1).isSome)
    (enough : source.pendingSize pending ≤ steps)
    (copies : List (Node × Option Nat)) :
    source.copyNodes steps pending copies =
      some (copies ++ source.copiesOfPending copies.length pending) := by
  induction steps generalizing pending copies with
  | zero =>
      cases pending with
      | nil => rw [copyNodes, copiesOfPending, List.append_nil]
      | cons entry pending =>
          have some := size_pos (source.outline entry.1)
          rw [pendingSize, List.map_cons, Tree.sizeAll] at enough
          omega
  | succ steps ih =>
      cases pending with
      | nil => rw [copyNodes, copiesOfPending, List.append_nil]
      | cons entry pending =>
          obtain ⟨id, parent⟩ := entry
          rw [List.forall_mem_cons] at known
          obtain ⟨node, found⟩ := Option.isSome_iff_exists.mp known.1
          rw [linked.pendingSize_cons found parent (some copies.length)]
            at enough
          rw [copyNodes, found, linked.copiesOfPending_cons found]
          dsimp only
          rw [ih (linked.known_pending found _ known.2)
              (Nat.le_of_succ_le_succ enough),
            List.length_append, List.length_singleton, List.append_assoc]
          rfl

end

/-! ## What the listed elements come to -/

mutual

theorem size_map
    {α β : Type} (change : α → β) (tree : Tree α) :
    (tree.map change).size = tree.size := by
  cases tree with
  | node label children =>
      rw [Tree.map, Tree.size, Tree.size, sizeAll_mapAll]

theorem sizeAll_mapAll
    {α β : Type} (change : α → β) (trees : List (Tree α)) :
    Tree.sizeAll (Tree.mapAll change trees) = Tree.sizeAll trees := by
  cases trees with
  | nil => rfl
  | cons tree rest =>
      rw [Tree.mapAll, Tree.sizeAll, Tree.sizeAll, size_map, sizeAll_mapAll]

end

theorem rootPlaces_mapAll
    {α β : Type} (change : α → β) (trees : List (Tree α)) (first : NodeId) :
    rootPlaces first (Tree.mapAll change trees) = rootPlaces first trees := by
  induction trees generalizing first with
  | nil => rfl
  | cons tree rest ih => rw [Tree.mapAll, rootPlaces, rootPlaces, size_map, ih]

/-- A document with elements added at its end, of which some become the last
children of another element. -/
def grown (document : Document) (parent : Option NodeId)
    (children : List NodeId) (nodes : List Node) : Document :=
  let adopting :=
    match parent with
    | none => document
    | some parent => document.update parent fun node => node.adopt children
  { adopting with nodes := adopting.nodes ++ nodes.toArray }

section

variable
  {document : Document} {parent : Option NodeId} {children : List NodeId}
  {nodes : List Node}

theorem locale_grown :
    (document.grown parent children nodes).locale = document.locale := by
  cases parent <;> rfl

theorem nextId_grown :
    (document.grown parent children nodes).nextId =
      document.nextId + nodes.length := by
  cases parent <;> simp [grown, nextId, update]

theorem node?_grown_of_lt
    {other : NodeId} (old : other < document.nextId) :
    (document.grown parent children nodes).node? other =
      (document.node? other).map fun node =>
        if parent = some other then node.adopt children else node := by
  have known : other < document.nodes.size := old
  cases parent with
  | none => simp [grown, node?, Array.getElem?_append, known]
  | some parent =>
      by_cases same : parent = other <;>
        simp [grown, node?, update, Array.getElem?_append, known,
          Array.getElem_modify, same]

theorem node?_grown_add
    (place : Nat) :
    (document.grown parent children nodes).node? (document.nextId + place) =
      nodes[place]? := by
  cases parent <;>
    simp [grown, node?, update, nextId, Array.getElem?_append]

theorem adopt_nil
    (node : Node) :
    node.adopt [] = node := by
  rw [Node.adopt, List.append_nil]

theorem adopt_adopt
    (node : Node) (first second : List NodeId) :
    (node.adopt first).adopt second = node.adopt (first ++ second) := by
  rw [Node.adopt, Node.adopt, Node.adopt, List.append_assoc]

theorem grown_nil :
    document.grown parent [] [] = document := by
  refine eq_of_node?_eq locale_grown fun other => ?_
  rcases Nat.lt_or_ge other document.nextId with old | later
  · rw [node?_grown_of_lt old]
    simp [adopt_nil]
  · obtain ⟨place, rfl⟩ := Nat.exists_eq_add_of_le later
    rw [node?_grown_add]
    simp [node?, nextId]

/-- What is added to an element that was not just added itself goes on where
the last addition ended. -/
theorem grown_grown
    (above : ∀ id ∈ parent, id < document.nextId)
    (others : List NodeId) (more : List Node) :
    (document.grown parent children nodes).grown parent others more =
      document.grown parent (children ++ others) (nodes ++ more) := by
  refine eq_of_node?_eq (by simp only [locale_grown]) fun other => ?_
  rcases Nat.lt_or_ge other document.nextId with old | later
  · have stillOld :
        other < (document.grown parent children nodes).nextId := by
      rw [nextId_grown]
      exact Nat.lt_add_right _ old
    rw [node?_grown_of_lt stillOld, node?_grown_of_lt old,
      node?_grown_of_lt old, Option.map_map]
    congr 1
    funext node
    rw [Function.comp_apply]
    split
    · exact adopt_adopt node children others
    · rfl
  · obtain ⟨place, rfl⟩ := Nat.exists_eq_add_of_le later
    have apart : parent ≠ some (document.nextId + place) :=
      fun same => Nat.not_lt_of_le later (above _ same)
    rw [node?_grown_add]
    rcases Nat.lt_or_ge place nodes.length with within | beyond
    · have added :
          document.nextId + place <
            (document.grown parent children nodes).nextId := by
        rw [nextId_grown]
        exact Nat.add_lt_add_left within _
      rw [node?_grown_of_lt added, node?_grown_add,
        List.getElem?_append_left within]
      simp [apart]
    · obtain ⟨further, rfl⟩ := Nat.exists_eq_add_of_le beyond
      rw [← Nat.add_assoc, ← @nextId_grown document parent children nodes,
        node?_grown_add, List.getElem?_append_right beyond,
        Nat.add_sub_cancel_left]

/-- The element added last gets its children from those added next. -/
theorem grown_last
    (node : Node) (below : List NodeId) (more : List Node) :
    (document.grown parent children [node]).grown (some document.nextId) below
        more =
      document.grown parent children (node.adopt below :: more) := by
  have next :
      (document.grown parent children [node]).nextId =
        document.nextId + 1 :=
    nextId_grown
  refine eq_of_node?_eq (by simp only [locale_grown]) fun other => ?_
  rcases Nat.lt_trichotomy other document.nextId with old | rfl | later
  · rw [node?_grown_of_lt (next ▸ Nat.lt_succ_of_lt old),
      node?_grown_of_lt old, node?_grown_of_lt old]
    simp [Nat.ne_of_gt old, Function.comp_def]
  · rw [node?_grown_of_lt (next ▸ Nat.lt_succ_self _)]
    have first := @node?_grown_add document parent children [node] 0
    have again :=
      @node?_grown_add document parent children (node.adopt below :: more) 0
    rw [Nat.add_zero] at first again
    rw [first, again]
    simp
  · obtain ⟨place, rfl⟩ := Nat.exists_eq_add_of_lt later
    rw [Nat.add_assoc, Nat.add_comm place, ← Nat.add_assoc, ← next,
      node?_grown_add, next, Nat.add_assoc, node?_grown_add,
      Nat.add_comm 1, List.getElem?_cons_succ]

theorem pushUnder_eq
    (above : ∀ id ∈ parent, id < document.nextId) (node : Node) :
    document.pushUnder node parent =
      document.grown parent [document.nextId]
        [{ node with parent := .ofOption parent }] := by
  cases parent with
  | none => simp [pushUnder, grown, push]
  | some id =>
      have known : id < document.nodes.size := above id rfl
      have pushed (last : Node) (change : Node → Node) :
          (document.nodes.push last).modify id change =
            document.nodes.modify id change ++ #[last] := by
        apply Array.ext_getElem?
        intro other
        rw [Array.getElem?_modify, Array.getElem?_append, Array.getElem?_push,
          Array.size_modify, Array.getElem?_modify]
        rcases Nat.lt_trichotomy other document.nodes.size with
          old | rfl | later
        · simp [old, Nat.ne_of_lt old]
        · simp [Nat.ne_of_lt known]
        · obtain ⟨place, rfl⟩ := Nat.exists_eq_add_of_lt later
          simp [Nat.add_assoc]
      rw [pushUnder, grown, update, push, pushed]
      rfl

end

/-! ## Copies made of the list -/

section

variable (source : Document)

/-- A bare copy is the element of a tree that is laid out, but for its
children. -/
theorem adopt_bared
    (id : NodeId) (place : Parent) (below : List NodeId) :
    Node.adopt { ((source.node? id).getD default).bared with parent := place }
        below =
      ⟨source.label id, below, place, false, false⟩ := by
  rw [label]
  cases source.node? id <;> rfl

theorem made_before
    {document : Document} {first place : NodeId} {parent : Option Nat}
    (before : ∀ above ∈ parent, above < place)
    (next : document.nextId = first + place) :
    ∀ id ∈ parent.map fun above => first + above, id < document.nextId := by
  intro id made
  obtain ⟨above, isParent, rfl⟩ := Option.mem_map.mp made
  rw [next]
  exact Nat.add_lt_add_left (before above isParent) first

theorem getElem?_made
    {first place : NodeId} {parent : Option Nat}
    (before : ∀ above ∈ parent, above < place) :
    (parent.bind fun above => (List.range' first place)[above]?) =
      parent.map fun above => first + above := by
  cases parent with
  | none => rfl
  | some above => simp [before above rfl]

mutual

/-- Making the elements of an outline lays out its tree. -/
theorem insertCopies_copiesOf
    {document : Document} {first place : NodeId} {parent : Option Nat}
    (before : ∀ above ∈ parent, above < place) (tree : Tree NodeId)
    (rest : List (Node × Option Nat))
    (next : document.nextId = first + place) :
    insertCopies (List.range' first place)
        (copiesOf source place parent tree ++ rest) document =
      insertCopies (List.range' first (place + tree.size)) rest
        (document.grown (parent.map fun above => first + above)
          [document.nextId]
          (layout false (.ofOption (parent.map fun above => first + above))
            document.nextId (tree.map source.label))) := by
  cases tree with
  | node id children =>
      have above := made_before before next
      have larger (node : Node) :
          (document.grown (parent.map fun above => first + above)
              [document.nextId] [node]).nextId =
            first + (place + 1) := by
        rw [nextId_grown, next]
        rfl
      have further : first + (place + 1) = document.nextId + 1 := by
        rw [next]
        rfl
      rw [copiesOf, List.cons_append, insertCopies, getElem?_made before,
        pushUnder_eq above, next, ← List.range'_1_concat, ← next,
        insertCopies_copiesOfAll (by simp) children rest (larger _),
        Option.map_some, ← next, grown_last, larger, further, adopt_bared,
        Tree.map, layout, rootPlaces_mapAll, Tree.size, Nat.add_assoc,
        Nat.add_comm 1]
      rfl

/-- Making the elements of some outlines lays out their trees. -/
theorem insertCopies_copiesOfAll
    {document : Document} {first place : NodeId} {parent : Option Nat}
    (before : ∀ above ∈ parent, above < place) (trees : List (Tree NodeId))
    (rest : List (Node × Option Nat))
    (next : document.nextId = first + place) :
    insertCopies (List.range' first place)
        (copiesOfAll source place parent trees ++ rest) document =
      insertCopies (List.range' first (place + Tree.sizeAll trees)) rest
        (document.grown (parent.map fun above => first + above)
          (rootPlaces document.nextId trees)
          (layoutAll false (.ofOption (parent.map fun above => first + above))
            document.nextId (Tree.mapAll source.label trees))) := by
  cases trees with
  | nil =>
      rw [copiesOfAll, rootPlaces, Tree.mapAll, layoutAll, grown_nil]
      rfl
  | cons tree more =>
      have later : ∀ above ∈ parent, above < place + tree.size :=
        fun above isParent =>
          Nat.lt_add_right _ (before above isParent)
      have larger :
          (document.grown (parent.map fun above => first + above)
              [document.nextId]
              (layout false
                (.ofOption (parent.map fun above => first + above))
                document.nextId (tree.map source.label))).nextId =
            document.nextId + tree.size := by
        rw [nextId_grown, length_layout, size_map]
      have further : document.nextId + tree.size = first + (place + tree.size) := by
        rw [next, Nat.add_assoc]
      rw [copiesOfAll, List.append_assoc,
        insertCopies_copiesOf before tree _ next,
        insertCopies_copiesOfAll later more rest (larger.trans further),
        grown_grown (made_before before next), larger, Tree.mapAll, layoutAll,
        size_map, rootPlaces, Tree.sizeAll, Nat.add_assoc]
      rfl

end

end

/-! ## Imports by a walk -/

section

variable {source : Document} {id : NodeId}

theorem copyNodes_of_unknown
    (unknown : source.node? id = none) (steps : Nat)
    (parent : Option Nat) (pending : List (NodeId × Option Nat))
    (copies : List (Node × Option Nat)) :
    source.copyNodes steps ((id, parent) :: pending) copies = none := by
  cases steps with
  | zero => rfl
  | succ steps => rw [copyNodes, unknown]

theorem insertCopies_outline
    (source document : Document) (id : NodeId) :
    insertCopies [] (source.copiesOfPending 0 [(id, none)]) document =
      (List.range' document.nextId (source.outline id).size,
        document.plant (source.tree id)) := by
  have made :=
    @insertCopies_copiesOf source document document.nextId 0 none nofun
      (source.outline id) [] rfl
  rw [Nat.zero_add] at made
  exact made

/-- The walk comes to the import of a tree, also where that is refused. -/
theorem Linked.importByWalk_eq
    (linked : source.Linked) (id : NodeId) :
    importByWalk source id = importFrom source id := by
  rw [importByWalk, importFrom]
  cases known : source.node? id with
  | none => rw [copyNodes_of_unknown known]
  | some node =>
      have enough : source.pendingSize [(id, none)] ≤ source.nodes.size := by
        have fewer := linked.length_outline_le known
        rwa [length_toList] at fewer
      have first (document : Document) :
          (List.range' document.nextId
              (source.outline id).size).head?.getD 0 =
            document.nextId := by
        obtain ⟨others, size⟩ :=
          Nat.exists_eq_succ_of_ne_zero
            (Nat.ne_of_gt (size_pos (source.outline id)))
        rw [size, List.range'_succ]
        rfl
      rw [linked.copyNodes_eq (by simp [known]) enough]
      simp only [List.nil_append, List.length_nil, insertCopies_outline,
        first, plantCopy]

/-- A clone is an import from the document itself. -/
theorem run_cloneSubtree_eq
    (document : Document) (id : NodeId) :
    (cloneSubtree id).run document =
      (importFrom document id).run document := by
  rw [cloneSubtree, assertKnown, importFrom, EStateM.run_bind, run_get_bind]
  cases document.node? id <;> rfl

theorem run_cloneSubtree
    {document : Document} {node : Node}
    (known : document.node? id = some node) :
    (cloneSubtree id).run document =
      .ok document.nextId (document.plant (document.tree id)) := by
  rw [run_cloneSubtree_eq, importFrom, known]
  rfl

end

end AmlExchange.Document
