import AmlExchange.Proofs.Document.Copies
import AmlExchange.Proofs.Document.Existence

/-!
# Elements added to others

What adding an element does depends on where the element hangs (`Added`).  One
that hangs from the element to which it is added stays there.  One that hangs
nowhere, or from an element that was removed, is taken from there.  Of any
other one a copy is added instead, so that no tree with a root loses an element
(`add_takes_nothing`).
-/

namespace AmlExchange.Document

variable {document next : Document} {id child : NodeId} {node : Node}

/-! ## Elements put below others -/

/-- A document with an element as a further child of another one. -/
def put (document : Document) (id child : NodeId) : Document :=
  (document.hang id child).update id Node.syncFlags

section

variable {childNode : Node}

theorem children_put
    (known : document.node? id = some node)
    (childKnown : document.node? child = some childNode)
    (differs : child ≠ id) :
    (document.put id child).children =
      Function.update document.children id
        (document.children id ++ [child]) := by
  rw [put, children_update relabels_syncFlags.children, hang,
    children_update_update known childKnown differs rfl,
    children_of_node? known]

theorem node?_put_of_ne
    {other : NodeId} (apart : other ≠ id) (differs : other ≠ child) :
    (document.put id child).node? other = document.node? other := by
  rw [put, node?_update_of_ne apart, hang, node?_update_of_ne differs,
    node?_update_of_ne apart]

theorem node?_put_self
    (differs : child ≠ id) :
    (document.put id child).node? child =
      (document.node? child).map fun node =>
        { node with parent := .attached id } := by
  rw [put, node?_update_of_ne differs, hang, node?_update_self,
    node?_update_of_ne differs]

/-- Only the element that is put somewhere changes its parent. -/
theorem parent?_put_of_ne
    {other : NodeId} (differs : other ≠ child) :
    (document.put id child).parent? other = document.parent? other := by
  rw [parent?_eq, parent?_eq, put, hang, node?_update]
  by_cases same : id = other
  · subst same
    rw [if_pos rfl, node?_update_of_ne differs, node?_update_self]
    cases document.node? id with
    | none => rfl
    | some node =>
        exact congrArg Parent.above? (relabels_syncFlags.parent _)
  · rw [if_neg same, node?_update_of_ne differs,
      node?_update_of_ne (Ne.symm same)]

theorem parent?_put_self
    (childKnown : document.node? child = some childNode)
    (differs : child ≠ id) :
    (document.put id child).parent? child = some id := by
  rw [parent?_eq, node?_put_self differs, childKnown]
  rfl

end

/-- An element that is taken from one place and put in another one changes the
children at these places only. -/
theorem children_put_drop
    {childNode : Node} {parent other : NodeId}
    (known : document.node? id = some node)
    (childKnown : document.node? child = some childNode)
    (differs : child ≠ id) (elsewhere : parent ≠ id) (apart : other ≠ parent) :
    ((document.drop parent child).put id child).children other =
      Function.update document.children id (document.children id ++ [child])
        other := by
  obtain ⟨after, dropped⟩ := exists_node?_update known parent _
  obtain ⟨childAfter, childDropped⟩ := exists_node?_update childKnown parent _
  have children :
      ((document.drop parent child).put id child).children =
        Function.update (document.drop parent child).children id
          ((document.drop parent child).children id ++ [child]) :=
    children_put dropped childDropped differs
  rw [children, children_drop, Function.update_of_ne elsewhere.symm]
  by_cases same : other = id
  · rw [same, Function.update_self, Function.update_self]
  · rw [Function.update_of_ne same, Function.update_of_ne same,
      Function.update_of_ne apart]

theorem parent?_put_drop
    {childNode : Node} (childKnown : document.node? child = some childNode)
    (differs : child ≠ id) (parent : NodeId) :
    ((document.drop parent child).put id child).parent? child = some id := by
  obtain ⟨childAfter, childDropped⟩ := exists_node?_update childKnown parent _
  exact parent?_put_self childDropped differs

/-! ## The cases of adding -/

/-- Whether an element hangs nowhere, or from an element that was removed. -/
def Loose (document : Document) (child : NodeId) : Prop :=
  ∃ node, document.node? child = some node ∧
    (node.parent = .root ∨ node.parent = .detached ∨
      ∃ parent above,
        node.parent = .attached parent ∧
          document.node? parent = some above ∧ above.parent = .detached)

/-- What adding an element to another one comes to. -/
inductive Added (document : Document) (id child : NodeId) : Document → Prop
  | present (hangs : document.parent? child = some id) :
      Added document id child document
  | copied {node : Node} {parent : NodeId}
      (known : document.node? child = some node)
      (attached : node.parent = .attached parent) (elsewhere : parent ≠ id)
      (standing : document.exists? parent = true) :
      Added document id child
        ((document.plant (document.tree child)).put id document.nextId)
  | moved {node : Node} {parent : NodeId}
      (known : document.node? child = some node)
      (attached : node.parent = .attached parent) (elsewhere : parent ≠ id)
      (removed : document.exists? parent = false) (differs : child ≠ id) :
      Added document id child ((document.drop parent child).put id child)
  | hung {node : Node} (known : document.node? child = some node)
      (free : node.parent = .root ∨ node.parent = .detached)
      (differs : child ≠ id) :
      Added document id child (document.put id child)

theorem run_hang_eq_ok
    {result : Unit}
    (reached :
      (do
        assertNotAbove child id
        attach id child : Edit Unit).run document = .ok result next) :
    child ≠ id ∧ next = document.put id child := by
  obtain ⟨_, between, apart, attached⟩ := run_bind_eq_ok_iff.mp reached
  obtain ⟨rfl, differs⟩ := run_assertNotAbove_eq_ok apart
  rw [run_attach] at attached
  cases attached
  exact ⟨differs, rfl⟩

theorem added_of_addNode
    {result : Unit}
    (reached : (addNode id child).run document = .ok result next) :
    Added document id child next := by
  rw [addNode, run_get_bind] at reached
  cases known : document.node? child with
  | none =>
      rw [known] at reached
      cases reached
  | some node =>
      rw [known] at reached
      dsimp only at reached
      split at reached
      · next parent attached =>
          split at reached
          · next same =>
              cases reached
              apply Added.present
              rw [parent?_of_node? known, attached, same]
              rfl
          · next elsewhere =>
              rw [run_get_bind] at reached
              split at reached
              · next standing =>
                  rw [run_bind_of_ok (run_cloneSubtree known),
                    run_attach] at reached
                  cases reached
                  exact .copied known attached elsewhere standing
              · next removed =>
                  obtain ⟨_, between, apart, dropping⟩ :=
                    run_bind_eq_ok_iff.mp reached
                  obtain ⟨rfl, differs⟩ := run_assertNotAbove_eq_ok apart
                  rw [dropChild, run_change_bind, run_attach] at dropping
                  cases dropping
                  exact
                    .moved known attached elsewhere
                      (Bool.eq_false_of_not_eq_true removed) differs
      · next free =>
          obtain ⟨differs, rfl⟩ := run_hang_eq_ok reached
          exact .hung known (.inl free) differs
      · next free =>
          obtain ⟨differs, rfl⟩ := run_hang_eq_ok reached
          exact .hung known (.inr free) differs

/-! ## Copies that are put below others -/

/-- A tree hangs elsewhere if only its root is changed. -/
theorem layout_moved
    {stored : Bool} {parent other : Parent} {first : NodeId} {tree : Element}
    (laid : ∀ node place, (node, place) ∈
      (layout stored parent first tree).zipIdx first →
        document.node? place = some node)
    (root : ∀ node, document.node? first = some node →
      next.node? first = some { node with parent := other })
    (below : ∀ place, first < place →
      next.node? place = document.node? place) :
    ∀ node place, (node, place) ∈
      (layout stored other first tree).zipIdx first →
        next.node? place = some node := by
  intro node place member
  cases tree with
  | node label children =>
      rw [layout, List.zipIdx_cons] at laid member
      rcases List.mem_cons.mp member with same | member
      · cases same
        exact root _ (laid _ _ List.mem_cons_self)
      · have later : first < place :=
          (List.mk_mem_zipIdx_iff_le_and_getElem?_sub.mp member).1
        rw [below place later]
        exact laid node place (List.mem_cons_of_mem _ member)

theorem children_plant_of_node?
    (known : document.node? id = some node) (tree : Element) :
    (document.plant tree).children id = document.children id := by
  rw [children_of_node? known, children_of_node? (node?_plant known tree)]

/-- A copy that is put below an element changes the children of no other one
that was there. -/
theorem Linked.children_put_copy
    (linked : document.Linked) (known : document.node? id = some node)
    (child : NodeId) {other : NodeId} {otherNode : Node}
    (otherKnown : document.node? other = some otherNode) :
    ((document.plant (document.tree child)).put id
          document.nextId).children other =
      Function.update document.children id
        (document.children id ++ [document.nextId]) other := by
  obtain ⟨root, found, -⟩ := @root_plant document _ (linked.valid_tree child)
  rw [children_put (node?_plant known _) found (lt_of_node? known).ne',
    children_plant_of_node? known]
  by_cases same : other = id
  · rw [same, Function.update_self, Function.update_self]
  · rw [Function.update_of_ne same, Function.update_of_ne same,
      children_plant_of_node? otherKnown]

/-- A copy that is put below an element is still a copy. -/
theorem Linked.copies_put
    (linked : document.Linked) (known : document.node? id = some node)
    (child : NodeId) :
    Copies document child (.attached id)
      ((document.plant (document.tree child)).put id document.nextId)
      document.nextId := by
  have fresh : document.nextId ≠ id := (lt_of_node? known).ne'
  have hung := linked.hang_copy known (linked.valid_tree child)
  apply linked.copies_of_layout (hung.relabel relabels_syncFlags id)
  apply layout_moved (laid_plant document _)
  · intro root found
    rw [← put, node?_put_self fresh, found]
    rfl
  · intro place later
    exact node?_put_of_ne (Nat.lt_trans (lt_of_node? known) later).ne' later.ne'

/-! ## What adding leaves alone -/

theorem EndsAt.exists_node?
    {place : Parent} (ends : document.EndsAt place id) :
    ∃ node, document.node? id = some node := by
  cases ends with
  | here known stands => exact ⟨_, known⟩
  | above hangs _ =>
      obtain ⟨node, known, -⟩ := exists_of_parent? hangs
      exact ⟨node, known⟩

section

variable {parent : NodeId}

theorem parent?_of_attached
    (known : document.node? child = some node)
    (attached : node.parent = .attached parent) :
    document.parent? child = some parent := by
  rw [parent?_of_node? known, attached]
  rfl

theorem parent?_ne_of_attached
    (known : document.node? child = some node)
    (attached : node.parent = .attached parent) (elsewhere : parent ≠ id) :
    document.parent? child ≠ some id := by
  rw [parent?_of_attached known attached]
  exact fun same => elsewhere (Option.some_inj.mp same)

theorem not_loose_of_standing
    (known : document.node? child = some node)
    (attached : node.parent = .attached parent)
    (standing : document.exists? parent = true) :
    ¬ document.Loose child := by
  rintro ⟨other, again, free⟩
  cases known.symm.trans again
  rw [attached] at free
  rcases free with impossible | impossible | ⟨_, above, same, aboveKnown, gone⟩
  · cases impossible
  · cases impossible
  · cases same
    exact (exists?_of_node? aboveKnown).mp standing gone

/-- An element that hangs from a removed one hangs from one that is
detached. -/
theorem Linked.exists_detached
    (linked : document.Linked)
    (known : document.node? child = some node)
    (attached : node.parent = .attached parent)
    (removed : document.exists? parent = false) :
    ∃ above, document.node? parent = some above ∧
      above.parent = .detached := by
  obtain ⟨above, -, aboveKnown, -⟩ :=
    linked.exists_link (parent?_of_attached known attached)
  refine ⟨above, aboveKnown, ?_⟩
  by_contra kept
  have standing := (exists?_of_node? aboveKnown).mpr kept
  rw [removed] at standing
  cases standing

end

/-- Adding an element takes no child from any other element that leads to a
root.  The element to which it is added keeps its children, and gets one more
unless it had the element: the element itself if that is loose, and otherwise a
new copy of its tree. -/
theorem add_takes_nothing
    (reachable : document.Reachable)
    (reached : (add id (.node child)).run document = .ok () next) :
    (∀ other ≠ id, document.EndsAt .root other →
        next.children other = document.children other) ∧
      (document.parent? child = some id ∧ next = document ∨
        document.parent? child ≠ some id ∧ document.Loose child ∧
            next.children id = document.children id ++ [child] ∧
            next.parent? child = some id ∨
        document.parent? child ≠ some id ∧ ¬ document.Loose child ∧
            next.children id =
              document.children id ++ [document.nextId] ∧
            Copies document child (.attached id) next document.nextId ∧
            next.parent? child = document.parent? child) := by
  have linked := reachable.linked
  rw [add] at reached
  obtain ⟨_, between, modifiable, adding⟩ := run_bind_eq_ok_iff.mp reached
  obtain ⟨rfl, node, known, -⟩ :=
    run_assertModifiable_eq_ok_iff.mp modifiable
  cases added_of_addNode adding with
  | present hangs => exact ⟨fun _ _ _ => rfl, .inl ⟨hangs, rfl⟩⟩
  | copied childKnown attached elsewhere standing =>
      refine
        ⟨?_, .inr (.inr
          ⟨parent?_ne_of_attached childKnown attached elsewhere,
            not_loose_of_standing childKnown attached standing, ?_,
            linked.copies_put known child, ?_⟩)⟩
      · intro other apart rooted
        obtain ⟨_, otherKnown⟩ := rooted.exists_node?
        rw [linked.children_put_copy known child otherKnown,
          Function.update_of_ne apart]
      · rw [linked.children_put_copy known child known, Function.update_self]
      · have old : child ≠ between.nextId := (lt_of_node? childKnown).ne
        rw [parent?_put_of_ne old,
          parent?_of_node? (node?_plant childKnown _),
          parent?_of_node? childKnown]
  | @moved _ parent childKnown attached elsewhere removed differs =>
      obtain ⟨above, aboveKnown, gone⟩ :=
        linked.exists_detached childKnown attached removed
      refine
        ⟨?_, .inr (.inl
          ⟨parent?_ne_of_attached childKnown attached elsewhere,
            ⟨_, childKnown,
              .inr (.inr ⟨parent, above, attached, aboveKnown, gone⟩)⟩,
            ?_, parent?_put_drop childKnown differs parent⟩)⟩
      · intro other apart rooted
        have otherwise : other ≠ parent := by
          rintro rfl
          cases rooted.unique rfl rfl (.here aboveKnown gone)
        rw [children_put_drop known childKnown differs elsewhere otherwise,
          Function.update_of_ne apart]
      · rw [children_put_drop known childKnown differs elsewhere
            elsewhere.symm,
          Function.update_self]
  | hung childKnown free differs =>
      have apart : between.parent? child ≠ some id := by
        rw [parent?_of_node? childKnown]
        rcases free with place | place <;> rw [place] <;> nofun
      refine
        ⟨?_, .inr (.inl
          ⟨apart, ⟨_, childKnown, free.imp_right .inl⟩, ?_,
            parent?_put_self childKnown differs⟩)⟩
      · intro other apart _
        rw [children_put known childKnown differs,
          Function.update_of_ne apart]
      · rw [children_put known childKnown differs, Function.update_self]

/-- The end of a chain that is added to its beginning is copied, and the chain
stays whole. -/
theorem add_takes_nothing_of_chain :
    ∃ next,
      (add 0 (.node 2)).run chain = .ok () next ∧
        next.children 1 = [2] ∧ next.children 0 = [1, 3] ∧
        Copies chain 2 (.attached 0) next 3 ∧ next.parent? 2 = some 1 := by
  have reachable : chain.Reachable := (Reachable.new _).calls _
  have reached :
      (add 0 (.node 2)).run chain =
        .ok () (chain.afterCall (.add 0 (.node 2))) :=
    rfl
  have hangs : chain.parent? 2 = some 1 := by decide +kernel
  have above : chain.parent? 1 = some 0 := by decide +kernel
  have first : chain.children 0 = [1] := by decide +kernel
  have second : chain.children 1 = [2] := by decide +kernel
  have rooted : chain.EndsAt .root 1 :=
    .above above (.here rfl (by decide +kernel))
  obtain ⟨others, outcome⟩ :=
    add_takes_nothing reachable reached
  have kept := (others 1 (by decide) rooted).trans second
  rcases outcome with ⟨present, -⟩ | ⟨-, loose, -⟩ | ⟨-, -, added, copies, still⟩
  · cases hangs.symm.trans present
  · obtain ⟨node, known, attached⟩ := exists_of_parent? hangs
    exact
      absurd loose
        (not_loose_of_standing known attached (by decide +kernel))
  · rw [first] at added
    exact ⟨_, reached, kept, added, copies, still.trans hangs⟩

end AmlExchange.Document
