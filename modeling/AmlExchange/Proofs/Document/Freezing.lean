import AmlExchange.Proofs.Document.Sparing

/-!
# Elements that were frozen

No call changes what a frozen element says of itself, and none puts a child
below it.  A child of a frozen element is taken away from it only where the
child is put elsewhere after the frozen element was removed: the children of
removed elements are moved without a look at the element that they leave.  The
children of frozen elements further down are out of reach as long as none of
the uppermost one is moved (`frozen_after_steps`).
-/

namespace AmlExchange.Document

variable {α : Type} {document next : Document} {id child : NodeId}
  {node : Node}

/-! ## Frozen elements -/

/-- Whether an element hangs below another one, or is that one. -/
def Below (document : Document) (id element : NodeId) : Prop :=
  Relation.ReflTransGen (IsParent document.parent?) id element

/-- Whether a child that an element had is no longer one of its children. -/
def Lost (origin document : Document) (parent child : NodeId) : Prop :=
  child ∈ origin.children parent ∧ child ∉ document.children parent

/-- What is left of the elements below one that was frozen, if only the
children with certain identities may have been put elsewhere. -/
structure Held (origin : Document) (id : NodeId) (named : NodeId → Prop)
    (document : Document) : Prop where
  locked : ∀ element, origin.Below id element →
    document.isReadOnly element = true
  label : ∀ element, origin.Below id element →
    document.label element = origin.label element
  fewer : ∀ element, origin.Below id element →
    (document.children element).Sublist (origin.children element)
  /-- An element below the uppermost one loses children only after it was
  itself taken away. -/
  lost : ∀ element, origin.Below id element →
    ∀ child, Lost origin document element child →
      named child ∧
        (element = id ∨
          ∃ parent, origin.Below id parent ∧
            Lost origin document parent element)

section

variable {origin : Document} {top : NodeId} {named : NodeId → Prop}

theorem Held.spare
    (held : Held origin top named document)
    (spares : Spares document next) :
    Held origin top named next := by
  have same {element child : NodeId} (below : origin.Below top element) :
      Lost origin next element child ↔ Lost origin document element child := by
    rw [Lost, (spares.kept (held.locked element below)).2.2, Lost]
  refine ⟨?_, ?_, ?_, ?_⟩
  · intro element below
    exact (spares.kept (held.locked element below)).1
  · intro element below
    rw [(spares.kept (held.locked element below)).2.1]
    exact held.label element below
  · intro element below
    rw [(spares.kept (held.locked element below)).2.2]
    exact held.fewer element below
  · intro element below child lost
    obtain ⟨isNamed, above⟩ :=
      held.lost element below child ((same below).mp lost)
    refine ⟨isNamed, above.imp_right ?_⟩
    rintro ⟨parent, parentBelow, taken⟩
    exact ⟨parent, parentBelow, (same parentBelow).mpr taken⟩

theorem Lost.mono
    {parent child : NodeId}
    (fewer : next.children parent ⊆ document.children parent)
    (lost : Lost origin document parent child) :
    Lost origin next parent child :=
  ⟨lost.1, fun member => lost.2 (fewer member)⟩

/-- Nothing that was removed is a child. -/
theorem Linked.not_mem_of_removed
    (linked : document.Linked) (removed : document.exists? id = false)
    (parent : NodeId) :
    id ∉ document.children parent := by
  apply linked.wiring.not_mem_of_free
  rw [exists?] at removed
  rw [parent?_eq]
  cases known : document.node? id with
  | none => rfl
  | some node =>
      rw [known] at removed
      have place : node.parent = .detached := by simpa using removed
      rw [Option.bind_some, place]
      rfl

/-- A document in which an element has lost a child. -/
def drop (document : Document) (parent child : NodeId) : Document :=
  document.update parent fun node =>
    { node with children := node.children.filter (· ≠ child) }

theorem children_drop
    (document : Document) (parent child : NodeId) :
    (document.drop parent child).children =
      Function.update document.children parent
        ((document.children parent).filter (· ≠ child)) := by
  funext other
  rw [children_eq, drop, node?_update]
  by_cases same : other = parent
  · subst same
    rw [Function.update_self, if_pos rfl, children_eq]
    cases document.node? other <;> rfl
  · rw [Function.update_of_ne same, if_neg (Ne.symm same)]
    rfl

theorem children_drop_sublist
    (document : Document) (parent child other : NodeId) :
    ((document.drop parent child).children other).Sublist
      (document.children other) := by
  rw [children_drop]
  by_cases same : other = parent
  · subst same
    rw [Function.update_self]
    exact List.filter_sublist
  · rw [Function.update_of_ne same]

theorem isReadOnly_drop
    (document : Document) (parent child element : NodeId) :
    (document.drop parent child).isReadOnly element =
      document.isReadOnly element := by
  rw [isReadOnly, isReadOnly, drop, node?_update]
  cases document.node? element <;> split <;> rfl

theorem label_drop
    (document : Document) (parent child element : NodeId) :
    (document.drop parent child).label element = document.label element := by
  rw [label, label, drop, node?_update]
  cases document.node? element <;> split <;> rfl

/-- A child is taken away from a removed element. -/
theorem Held.drop
    (held : Held origin top named document) (linked : document.Linked)
    (originLinked : origin.Linked) {parent : NodeId}
    (removed : document.exists? parent = false) (isNamed : named child) :
    Held origin top named (document.drop parent child) := by
  have fewer (other : NodeId) :=
    (children_drop_sublist document parent child other)
  refine ⟨?_, ?_, ?_, ?_⟩
  · intro element below
    rw [isReadOnly_drop]
    exact held.locked element below
  · intro element below
    rw [label_drop]
    exact held.label element below
  · intro element below
    exact (fewer element).trans (held.fewer element below)
  · intro element below other lost
    by_cases before : other ∈ document.children element
    · have taken : element = parent ∧ other = child := by
        have gone := lost.2
        rw [children_drop] at gone
        by_cases same : element = parent
        · subst same
          rw [Function.update_self, List.mem_filter] at gone
          simp only [before, true_and, decide_not, Bool.not_eq_true',
            decide_eq_false_iff_not, not_not] at gone
          exact ⟨rfl, gone⟩
        · rw [Function.update_of_ne same] at gone
          exact absurd before gone
      obtain ⟨rfl, rfl⟩ := taken
      refine ⟨isNamed, ?_⟩
      rcases below.cases_tail with same | ⟨upper, upperBelow, above⟩
      · exact .inl same
      · refine .inr ⟨upper, upperBelow, ?_, ?_⟩
        · exact (originLinked.wiring.links upper element).mpr above
        · intro member
          exact linked.not_mem_of_removed removed upper
            ((fewer upper).subset member)
    · obtain ⟨otherNamed, above⟩ :=
        held.lost element below other ⟨lost.1, before⟩
      refine ⟨otherNamed, above.imp_right ?_⟩
      rintro ⟨upper, upperBelow, taken⟩
      exact ⟨upper, upperBelow, taken.mono (fewer upper).subset⟩

end

/-! ## Calls on documents with frozen elements -/

mutual

/-- The elements that some content puts elsewhere. -/
def Content.nodes : Content → List NodeId
  | .node id => [id]
  | .field _ _ => []
  | .many members => Content.nodesAll members
  | .value _ => []

/-- The elements that some contents put elsewhere. -/
def Content.nodesAll : List Content → List NodeId
  | [] => []
  | member :: rest => member.nodes ++ Content.nodesAll rest

end

section

variable {origin : Document} {top : NodeId} {named : NodeId → Prop}

theorem Held.addNode
    (held : Held origin top named document) (linked : document.Linked)
    (originLinked : origin.Linked)
    (known : document.node? id = some node) (free : node.readOnly = false)
    (isNamed : document.parent? child ≠ none → named child) :
    Held origin top named (document.after (addNode id child)) := by
  have spared (childNode : NodeId) :=
    held.spare (spares_attach (free_of_node? known free) childNode)
  have hung :
      Held origin top named
        (document.after do
          assertNotAbove child id
          attach id child) := by
    apply holds_after_bind
    · rw [after_assertNotAbove]
      exact held
    · intro _ next reached _
      obtain ⟨rfl, -⟩ := run_assertNotAbove_eq_ok reached
      exact spared child
  rw [Document.addNode, after_get_bind]
  split
  · exact held
  · next childNode childKnown =>
      split
      · next parent hangs =>
          split
          · exact held
          · rw [after_get_bind]
            split
            · apply holds_after_bind
              · exact held.spare (spares_cloneSubtree document child)
              · intro copy next reached copied
                rw [run_cloneSubtree_eq_ok reached] at copied ⊢
                apply copied.spare
                exact spares_attach (free_of_node? (node?_plant known _) free) _
            · next removed =>
                apply holds_after_bind
                · rw [after_assertNotAbove]
                  exact held
                · intro _ next reached _
                  obtain ⟨rfl, -⟩ := run_assertNotAbove_eq_ok reached
                  have below : next.parent? child ≠ none := by
                    rw [parent?_of_node? childKnown, hangs]
                    nofun
                  have dropped :=
                    held.drop linked originLinked
                      (Bool.eq_false_of_not_eq_true removed) (isNamed below)
                  apply dropped.spare
                  apply spares_attach
                  apply (free_of_node? known free).update
                  exact fun _ => rfl
      · exact hung
      · exact hung

/-- A linked document with what is left of frozen elements. -/
def Guarded (origin : Document) (top : NodeId) (named : NodeId → Prop)
    (document : Document) : Prop :=
  document.Linked ∧ Held origin top named document

theorem Guarded.spare
    (guarded : Guarded origin top named document) {edit : Edit α}
    (yields : Yields edit document KeepsLinked)
    (spares : Spares document (document.after edit)) :
    Guarded origin top named (document.after edit) :=
  ⟨linked_after yields, guarded.2.spare spares⟩

mutual

/-- Content that is put into an element leaves the children of frozen elements
where they are, unless it names them. -/
theorem Guarded.add
    {document : Document} (guarded : Guarded origin top named document)
    (originLinked : origin.Linked) (id : NodeId) (content : Content)
    (within : ∀ child ∈ content.nodes, named child) :
    Guarded origin top named (document.after (add id content)) := by
  obtain ⟨linked, held⟩ := guarded
  cases content with
  | node child =>
      refine ⟨linked_after (yields_add linked id _), ?_⟩
      rw [Document.add]
      apply holds_after_assertModifiable held
      intro node known free
      exact
        held.addNode linked originLinked known free
          fun _ => within child List.mem_cons_self
  | field name value =>
      refine ⟨linked_after (yields_add linked id _), ?_⟩
      rw [Document.add]
      apply holds_after_assertModifiable held
      intro node known free
      exact held.spare (spares_update (free_of_node? known free) _)
  | value value =>
      refine ⟨linked_after (yields_add linked id _), ?_⟩
      rw [Document.add]
      apply holds_after_assertModifiable held
      intro node known free
      exact held.spare (spares_addValue (free_of_node? known free) value)
  | many members =>
      rw [Document.add]
      apply holds_after_assertModifiable ⟨linked, held⟩
      intro _ _ _
      exact Guarded.addAll ⟨linked, held⟩ originLinked id members within

theorem Guarded.addAll
    {document : Document} (guarded : Guarded origin top named document)
    (originLinked : origin.Linked) (id : NodeId) (members : List Content)
    (within : ∀ child ∈ Content.nodesAll members, named child) :
    Guarded origin top named (document.after (addAll id members)) := by
  cases members with
  | nil => exact guarded
  | cons member rest =>
      rw [Content.nodesAll, List.forall_mem_append] at within
      rw [Document.addAll]
      apply holds_after_bind
      · exact Guarded.add guarded originLinked id member within.1
      · intro _ next _ nextGuarded
        exact Guarded.addAll nextGuarded originLinked id rest within.2

end

theorem Guarded.set
    (guarded : Guarded origin top named document)
    (originLinked : origin.Linked) (id : NodeId) (content : Content)
    (within : ∀ child ∈ content.nodes, named child) :
    Guarded origin top named (document.after (set id content)) := by
  unfold Document.set
  apply holds_after_assertModifiable guarded
  intro node known free
  have unlocked := free_of_node? known free
  apply holds_after_bind
  · apply guarded.spare
    · exact (yields_clearContent guarded.1 id).mono fun _ _ both => both.1
    · exact spares_clearContent unlocked
  · intro _ next reached cleared
    rw [run_clearContent] at reached
    cases reached
    split
    · apply cleared.spare
      · exact cleared.1.relabel relabels_syncFlags id
      · apply spares_update
        exact (unlocked.shed id).update id fun _ => rfl
    · exact cleared.add originLinked id _ within

theorem Guarded.propertyNode
    (guarded : Guarded origin top named document)
    (originLinked : origin.Linked) (item : NodeId) (name : String) :
    Guarded origin top named (document.after (propertyNode item name)) := by
  refine ⟨linked_after (yields_propertyNode guarded.1 item name), ?_⟩
  rw [Document.propertyNode, after_get_bind]
  split
  · exact guarded.2
  · apply holds_after_assertModifiable guarded.2
    intro node known free
    apply holds_after_bind
    · exact guarded.2.spare (spares_create document _)
    · intro property next reached created
      cases reached
      have last := node?_push document (.bare name .property)
      have linked : (document.push (.bare name .property)).Linked := by
        rw [Node.bare, push_eq_plant]
        exact guarded.1.plant_leaf _
      apply holds_after_bind
      · apply created.addNode linked originLinked (node?_push_of_known known _)
          free
        intro below
        rw [parent?_of_node? last] at below
        exact absurd rfl below
      · exact fun _ _ _ added => added

theorem Guarded.setProperty
    (guarded : Guarded origin top named document)
    (originLinked : origin.Linked) (item : NodeId) (name : String)
    (content : Content) (within : ∀ child ∈ content.nodes, named child) :
    Guarded origin top named
      (document.after (setProperty item name content)) := by
  rw [Document.setProperty]
  apply holds_after_bind
  · exact guarded.propertyNode originLinked item name
  · intro property next _ between
    apply holds_after_bind
    · exact between.set originLinked property content within
    · exact fun _ _ _ written => written

theorem Guarded.remove
    (guarded : Guarded origin top named document) (id : NodeId) :
    Guarded origin top named (document.after (remove id)) := by
  refine ⟨linked_after (yields_remove guarded.1 id), ?_⟩
  rw [Document.remove]
  apply holds_after_assertModifiable guarded.2
  intro node known free
  have detached (between : Document) :=
    spares_update_parent between id .detached
  rw [after_get_bind]
  split
  · next parent hangs =>
      apply holds_after_assertModifiable guarded.2
      intro upper upperKnown upperFree
      apply guarded.2.spare
      apply Spares.trans (spares_update (free_of_node? upperKnown upperFree) _)
      exact detached _
  · exact guarded.2.spare (detached document)
  · exact guarded.2
  · exact guarded.2

/-- An attribute of an element that may be changed. -/
theorem Guarded.relabel
    (guarded : Guarded origin top named document) (id : NodeId)
    {change : Node → Node} (relabels : Relabels change) :
    Guarded origin top named
      (document.after do
        assertModifiable id
        Document.change id change) := by
  refine ⟨linked_after (yields_relabel guarded.1 id relabels), ?_⟩
  apply holds_after_assertModifiable guarded.2
  intro node known free
  exact guarded.2.spare (spares_update (free_of_node? known free) change)

theorem Guarded.removeNodes
    (guarded : Guarded origin top named document) (id : NodeId) :
    Guarded origin top named (document.after (removeNodes id)) := by
  refine ⟨linked_after (yields_removeNodes guarded.1 id), ?_⟩
  apply holds_after_assertModifiable guarded.2
  intro node known free
  rw [after_eq_of_ok (run_detachChildren id)]
  exact guarded.2.spare (spares_shed (free_of_node? known free))

theorem Guarded.freeze
    (guarded : Guarded origin top named document) (id : NodeId) :
    Guarded origin top named (document.after (freeze id)) := by
  apply guarded.spare (yields_freeze guarded.1 id)
  rw [Document.freeze, assertKnown, bind_assoc, after_get_bind]
  cases document.node? id with
  | none => exact .refl document
  | some node =>
      dsimp only
      rw [pure_bind, after_get_bind, after_eq_of_ok (run_forM_change _ _)]
      exact spares_lock document _

/-- The elements that a call puts elsewhere. -/
def Call.nodes : Call → List NodeId
  | .add _ content | .set _ content | .setProperty _ _ content => content.nodes
  | _ => []

/-- Whether a call may make elements changeable again. -/
def Call.unlocks : Call → Bool
  | .setReadOnly _ _ => true
  | _ => false

theorem Guarded.afterCall
    (guarded : Guarded origin top named document)
    (originLinked : origin.Linked) (call : Call)
    (silent : call.unlocks = false)
    (within : ∀ child ∈ call.nodes, named child) :
    Guarded origin top named (document.afterCall call) := by
  have linked := guarded.1
  cases call with
  | createElement name =>
      exact guarded.spare (yields_createElement linked _) (spares_create _ _)
  | createProperty name =>
      exact guarded.spare (yields_createProperty linked _) (spares_create _ _)
  | createItem typeName action =>
      apply guarded.spare (yields_createItem linked _ _)
      cases action <;> exact spares_create _ _
  | add id content => exact guarded.add originLinked id content within
  | set id content => exact guarded.set originLinked id content within
  | setAttribute id name value =>
      exact guarded.relabel id (relabels_setAttribute name value)
  | removeAttribute id name =>
      exact guarded.relabel id (relabels_eraseAttribute name)
  | removeAttributes id => exact guarded.relabel id relabels_clearAttributes
  | remove id => exact guarded.remove id
  | removeNodes id => exact guarded.removeNodes id
  | setReadOnly id readOnly => cases silent
  | freeze id => exact guarded.freeze id
  | propertyNode item name =>
      exact guarded.propertyNode originLinked item name
  | setProperty item name content =>
      exact guarded.setProperty originLinked item name content within
  | cloneSubtree id =>
      apply guarded.spare
      · exact yields_cloneSubtree linked (linked.plant (linked.valid_tree id))
      · exact spares_cloneSubtree document id

end

/-! ## Histories -/

namespace Step

/-- The elements that a step puts elsewhere. -/
def nodes : Step → List NodeId
  | .call asked => asked.nodes
  | .importFrom _ _ | .setLocale _ => []

/-- Whether a step may make elements changeable again. -/
def unlocks : Step → Bool
  | .call asked => asked.unlocks
  | .importFrom _ _ | .setLocale _ => false

end Step

section

variable {origin : Document} {top : NodeId} {named : NodeId → Prop}

theorem Guarded.afterStep
    (guarded : Guarded origin top named document)
    (originLinked : origin.Linked) {step : Step} (possible : step.Possible)
    (silent : step.unlocks = false)
    (within : ∀ child ∈ step.nodes, named child) :
    Guarded origin top named (document.afterStep step) := by
  cases step with
  | call call => exact guarded.afterCall originLinked call silent within
  | importFrom source id =>
      have linked := (possible source rfl).linked
      apply guarded.spare (yields_importFrom guarded.1 linked id)
      rw [importFrom]
      cases source.node? id with
      | none => exact .refl document
      | some node => exact spares_plant document _
  | setLocale locale =>
      exact
        ⟨⟨guarded.1.wiring, guarded.1.emptied⟩,
          guarded.2.spare (.refl document)⟩

theorem Guarded.afterSteps
    (guarded : Guarded origin top named document)
    (originLinked : origin.Linked) {steps : List Step}
    (possible : ∀ step ∈ steps, step.Possible)
    (silent : ∀ step ∈ steps, step.unlocks = false)
    (within : ∀ step ∈ steps, ∀ child ∈ step.nodes, named child) :
    Guarded origin top named (steps.foldl Document.afterStep document) := by
  induction steps generalizing document with
  | nil => exact guarded
  | cons step rest ih =>
      rw [List.forall_mem_cons] at possible silent within
      apply ih _ possible.2 silent.2 within.2
      exact guarded.afterStep originLinked possible.1 silent.1 within.1

end

/-! ## From the freezing on -/

theorem mem_toListAll
    {tree : Tree α} {trees : List (Tree α)} (member : tree ∈ trees) {value : α}
    (within : value ∈ tree.toList) :
    value ∈ Tree.toListAll trees := by
  induction trees with
  | nil => cases member
  | cons first rest ih =>
      rw [Tree.toListAll, List.mem_append]
      rcases List.mem_cons.mp member with rfl | member
      · exact .inl within
      · exact .inr (ih member)

/-- Everything below an element is in its outline. -/
theorem Linked.mem_outline
    (linked : document.Linked) {element : NodeId}
    (below : document.Below id element) :
    element ∈ (document.outline id).toList := by
  induction below using Relation.ReflTransGen.head_induction_on with
  | refl => exact linked.mem_outline_self _
  | @head id child above _ ih =>
      rw [linked.outline_eq]
      apply List.mem_cons_of_mem
      apply mem_toListAll (List.mem_map_of_mem _) ih
      exact (linked.wiring.links id child).mpr above

theorem isReadOnly_lock
    {ids : List NodeId} (member : id ∈ ids)
    (known : document.node? id = some node) :
    (document.updateAll ids fun node =>
      { node with readOnly := true }).isReadOnly id = true := by
  induction ids generalizing document node with
  | nil => cases member
  | cons first rest ih =>
      by_cases same : id = first
      · subst same
        have locked :
            (document.update id fun node =>
              { node with readOnly := true }).isReadOnly id = true := by
          rw [isReadOnly, node?_update_self, known]
          rfl
        exact ((spares_lock _ rest).kept locked).1
      · apply ih ((List.mem_cons.mp member).resolve_left same)
        rw [node?_update_of_ne same]
        exact known

theorem Linked.known_of_below
    (linked : document.Linked) (known : document.node? id = some node)
    {element : NodeId} (below : document.Below id element) :
    ∃ node, document.node? element = some node := by
  rcases below.cases_tail with rfl | ⟨parent, -, above⟩
  · exact ⟨node, known⟩
  · obtain ⟨-, child, -, childKnown, -⟩ := linked.exists_link above
    exact ⟨child, childKnown⟩

/-- A document in which an element was just frozen has everything of it. -/
theorem Linked.guarded_freeze
    (linked : document.Linked)
    (reached : (Document.freeze id).run document = .ok () next)
    (named : NodeId → Prop) :
    Guarded document id named next := by
  obtain ⟨⟨node, known⟩, rfl⟩ := run_freeze_eq_ok reached
  have labels (ids : List NodeId) :=
    read_updateAll
      (@label_update (fun node => { node with readOnly := true }) fun _ => rfl)
      document ids
  have childrenSame (ids : List NodeId) :=
    read_updateAll
      (@children_update (fun node => { node with readOnly := true })
        fun _ => rfl)
      document ids
  refine ⟨linked.relabelAll (relabels_readOnly true) _, ?_, ?_, ?_, ?_⟩
  · intro element below
    obtain ⟨after, found⟩ := linked.known_of_below known below
    exact isReadOnly_lock (linked.mem_outline below) found
  · intro element _
    rw [labels]
  · intro element _
    rw [childrenSame]
  · intro element _ child lost
    rw [Lost, childrenSame] at lost
    exact absurd lost.1 lost.2

section

variable {origin : Document} {top element : NodeId} {named : NodeId → Prop}

/-- Where no child of the uppermost element is put elsewhere, none is lost
further down. -/
theorem Held.not_lost
    (held : Held origin top named document) (originLinked : origin.Linked)
    (spared : ∀ child ∈ origin.children top, ¬ named child)
    (below : origin.Below top element) (child : NodeId) :
    ¬ Lost origin document element child := by
  induction below generalizing child with
  | refl =>
      intro lost
      exact spared child lost.1 (held.lost top .refl child lost).1
  | @tail upper element climbs above ih =>
      intro lost
      obtain ⟨isNamed, rfl | ⟨parent, -, taken⟩⟩ :=
        held.lost element (climbs.tail above) child lost
      · exact spared child lost.1 isNamed
      · have same : parent = upper :=
          Option.some_inj.mp
            (((originLinked.wiring.links parent element).mp taken.1).symm.trans
              above)
        exact ih element (same ▸ taken)

theorem Held.children_eq
    (held : Held origin top named document) (originLinked : origin.Linked)
    (spared : ∀ child ∈ origin.children top, ¬ named child)
    (below : origin.Below top element) :
    document.children element = origin.children element := by
  apply (held.fewer element below).eq_of_length_le
  apply ((originLinked.wiring.once element).subperm _).length_le
  intro child member
  by_contra gone
  exact held.not_lost originLinked spared below child ⟨member, gone⟩

end

/-- Elements that were frozen keep their labels whatever is done next, and get
no children.  They lose only such children as are put elsewhere, and none at
all if no child of the uppermost one is. -/
theorem frozen_after_steps
    {frozen : Document} (reachable : document.Reachable)
    (reached : (Document.freeze id).run document = .ok () frozen)
    (steps : List Step) (possible : ∀ step ∈ steps, step.Possible)
    (silent : ∀ step ∈ steps, step.unlocks = false)
    {element : NodeId} (below : document.Below id element) :
    let final := steps.foldl afterStep frozen
    final.isReadOnly element = true ∧
      final.label element = document.label element ∧
      (final.children element).Sublist (document.children element) ∧
      (∀ child, Lost document final element child →
        ∃ step ∈ steps, child ∈ step.nodes) ∧
      ((∀ child ∈ document.children id, ∀ step ∈ steps,
          child ∉ step.nodes) →
        final.children element = document.children element) := by
  intro final
  have linked := reachable.linked
  have start := linked.guarded_freeze reached fun child =>
    ∃ step ∈ steps, child ∈ step.nodes
  obtain ⟨-, held⟩ := start.afterSteps linked possible silent
    fun step member child within => ⟨step, member, within⟩
  refine ⟨held.locked element below, held.label element below,
    held.fewer element below, ?_, ?_⟩
  · intro child lost
    exact (held.lost element below child lost).1
  · intro spared
    apply held.children_eq linked _ below
    rintro child member ⟨step, taken, within⟩
    exact spared child member step taken within

/-- An element within one that is within a third. -/
def chain : Document :=
  [.createElement "a", .createElement "b", .createElement "c",
    .add 0 (.node 1), .add 1 (.node 2)].foldl afterCall
    (new ⟨"en", "en_US", 0, 0, firstMoment⟩)

/-- A frozen element is removed with the element above it, but keeps its own
child. -/
theorem frozen_after_removal :
    let steps : List Step :=
      [.call (.setAttribute 1 "key" "value"), .call (.removeNodes 0)]
    let final := steps.foldl afterStep (chain.afterCall (.freeze 1))
    chain.Reachable ∧ final.exists? 1 = false ∧ final.children 1 = [2] ∧
      final.label 1 = chain.label 1 := by
  intro steps final
  have reachable : chain.Reachable := (Reachable.new _).calls _
  have possible : ∀ step ∈ steps, step.Possible :=
    Step.possible_calls [.setAttribute 1 "key" "value", .removeNodes 0]
  have silent : ∀ step ∈ steps, step.unlocks = false := by decide
  obtain ⟨-, label, -, -, children⟩ :=
    @frozen_after_steps chain 1 _ reachable rfl steps possible silent 1 .refl
  have spared :
      ∀ child ∈ chain.children 1, ∀ step ∈ steps, child ∉ step.nodes := by
    decide +kernel
  refine ⟨reachable, by decide +kernel, ?_, label⟩
  exact (children spared).trans (by decide +kernel)

/-- A child of a frozen element that was removed is taken away from it. -/
theorem frozen_element_loses_child :
    ¬ ∀ (document frozen : Document) (id element : NodeId)
        (steps : List Step),
      document.Reachable →
        (Document.freeze id).run document = .ok () frozen →
          (∀ step ∈ steps, step.Possible) →
            (∀ step ∈ steps, step.unlocks = false) →
              document.Below id element →
                (steps.foldl afterStep frozen).children element =
                  document.children element := by
  intro keeps
  have same :=
    keeps chain _ 1 1
      [.call (.removeNodes 0), .call (.createElement "x"),
        .call (.add 3 (.node 2))]
      ((Reachable.new _).calls _) rfl
      (Step.possible_calls
        [.removeNodes 0, .createElement "x", .add 3 (.node 2)])
      (by decide) .refl
  exact absurd same (by decide +kernel)

end AmlExchange.Document
