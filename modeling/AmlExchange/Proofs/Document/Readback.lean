import AmlExchange.Document.Property
import AmlExchange.Proofs.Document.Assignment

/-!
# Properties read after they are written

A value that is put into a property of an item is found again under its name:
as a text, and by whatever reads the content of the property.  Readings that
start from the neutral value of a property find it as well, unless a neutral
value stands beside it from an earlier reading of markup
(`property_setProperty`).
-/

namespace AmlExchange.Document

variable {document next : Document} {item child : NodeId} {node : Node}

/-! ## The element of a property -/

/-- A root is hung where it is put. -/
theorem run_addNode_eq_ok
    {childNode : Node} (known : document.node? child = some childNode)
    (root : childNode.parent = .root) {result : Unit}
    (reached : (addNode item child).run document = .ok result next) :
    child ≠ item ∧
      next = (document.hang item child).update item Node.syncFlags := by
  rw [addNode, run_get_bind, known] at reached
  simp only [root] at reached
  obtain ⟨_, between, apart, attached⟩ := run_bind_eq_ok_iff.mp reached
  obtain ⟨rfl, differs⟩ := run_assertNotAbove_eq_ok apart
  rw [run_attach] at attached
  cases attached
  exact ⟨differs, rfl⟩

theorem name_hang
    (document : Document) (id child : NodeId) :
    (document.hang id child).name = document.name := by
  rw [hang, name_update, name_update]
  · intro
    rfl
  · intro
    rfl

section

variable {label : Label} {property : NodeId} {name : String}

theorem find?_congr
    {ids : List NodeId} {first second : NodeId → String}
    (same : ∀ id ∈ ids, first id = second id) :
    (ids.find? fun id => first id == name) =
      ids.find? fun id => second id == name := by
  induction ids with
  | nil => rfl
  | cons id rest ih =>
      rw [List.forall_mem_cons] at same
      rw [List.find?_cons, List.find?_cons, same.1, ih same.2]

/-- A new element is found under its name, if none was before it. -/
theorem child?_hang_push
    (linked : document.Linked) (known : document.node? item = some node)
    (absent : document.child? item label.name = none) :
    ((document.push ⟨label, [], .root, false, false⟩).hang item
        document.nextId).child? item label.name = some document.nextId := by
  have before := node?_push_of_known known ⟨label, [], .root, false, false⟩
  have last := node?_push document ⟨label, [], .root, false, false⟩
  have differs : document.nextId ≠ item := (lt_of_node? known).ne'
  rw [child?, hang, children_update_update before last differs rfl,
    Function.update_self, ← hang, name_hang]
  have kept (id : NodeId) (member : id ∈ document.children item) :
      (document.push ⟨label, [], .root, false, false⟩).name id =
        document.name id := by
    obtain ⟨_, child, -, childKnown, -⟩ :=
      linked.exists_link ((linked.wiring.links item id).mp member)
    rw [name_eq, name_eq, node?_push_of_known childKnown, childKnown]
  rw [child?, children_of_node? known] at absent
  rw [children_of_node? known] at kept
  have named :
      (document.push ⟨label, [], .root, false, false⟩).name document.nextId =
        label.name := by
    rw [name_eq, last]
    rfl
  rw [List.find?_append, find?_congr kept, absent, Option.none_or,
    List.find?_cons, named, beq_self_eq_true]

end

theorem attribute?_nextId
    (document : Document) (name : String) :
    document.attribute? document.nextId name = none := by
  have unknown : document.node? document.nextId = none := by
    simp [node?, nextId]
  rw [attribute?, attributes, label, unknown]
  rfl

/-- A new element is hung as it is. -/
theorem node?_hang_push
    (differs : document.nextId ≠ item) (name : String) (kind : Kind) :
    (((document.push (.bare name kind)).hang item document.nextId).update
        item Node.syncFlags).node? document.nextId =
      some { Node.bare name kind with parent := .attached item } := by
  have last := node?_push document (.bare name kind)
  rw [node?_update_of_ne differs, hang, node?_update_self,
    node?_update_of_ne differs, last]
  rfl

/-- A new element has no attributes once it is hung either. -/
theorem attribute?_hang_push
    (differs : document.nextId ≠ item) (name : String) (kind : Kind)
    (other : String) :
    (((document.push (.bare name kind)).hang item document.nextId).update item
        Node.syncFlags).attribute? document.nextId other = none := by
  rw [attribute?_of_node? (node?_hang_push differs name kind)]
  rfl

/-- The property of an item is found, or made so that it is found. -/
theorem found_propertyNode
    (linked : document.Linked) {property : NodeId} {name : String}
    (reached : (propertyNode item name).run document = .ok property next) :
    next.Linked ∧ next.child? item name = some property ∧
      next.locale = document.locale ∧
      ∀ other,
        next.attribute? property other = document.attribute? property other := by
  have yields := yields_propertyNode linked item name
  rw [Yields, reached] at yields
  refine ⟨yields, ?_⟩
  rw [propertyNode, run_get_bind] at reached
  cases found : document.child? item name with
  | some present =>
      rw [found] at reached
      cases reached
      exact ⟨found, rfl, fun _ => rfl⟩
  | none =>
      rw [found] at reached
      dsimp only at reached
      obtain ⟨_, between, modifiable, reached⟩ :=
        run_bind_eq_ok_iff.mp reached
      obtain ⟨same, node, known, -⟩ :=
        run_assertModifiable_eq_ok_iff.mp modifiable
      rw [same] at reached
      obtain ⟨_, _, created, reached⟩ := run_bind_eq_ok_iff.mp reached
      cases created
      obtain ⟨_, _, added, reached⟩ := run_bind_eq_ok_iff.mp reached
      cases reached
      have last := node?_push document (.bare name .property)
      obtain ⟨differs, rfl⟩ := run_addNode_eq_ok last rfl added
      refine ⟨?_, rfl, ?_⟩
      · rw [child?, children_update relabels_syncFlags.children,
          name_update name_syncFlags]
        exact child?_hang_push linked known found
      · intro other
        rw [attribute?_hang_push differs, attribute?_nextId]

/-! ## The reading of a written property -/

section

variable {final : Document} {property : NodeId} {name : String}
  {value : Value}

/-- A value put into a property comes to the property that holds it. -/
theorem run_setProperty_eq_ok
    (linked : document.Linked)
    (reached :
      (setProperty item name (.value value)).run document =
        .ok property final) :
    ∃ between node,
      (propertyNode item name).run document = .ok property between ∧
        between.Linked ∧ between.node? property = some node ∧
        node.readOnly = false ∧ final = between.hold property value := by
  obtain ⟨found, between, ran, reached⟩ := run_bind_eq_ok_iff.mp reached
  obtain ⟨_, after, set, last⟩ := run_bind_eq_ok_iff.mp reached
  cases last
  obtain ⟨_, _, modifiable, -⟩ := run_bind_eq_ok_iff.mp set
  obtain ⟨-, node, known, free⟩ := run_assertModifiable_eq_ok_iff.mp modifiable
  rw [run_set_value known free] at set
  cases set
  exact ⟨between, node, ran, (found_propertyNode linked ran).1, known, free, rfl⟩

theorem kind?_of_node?
    (known : document.node? item = some node) :
    document.kind? item = some node.label.kind := by
  rw [kind?, known]
  rfl

theorem Linked.kind?_hold
    (linked : document.Linked) (known : document.node? item = some node)
    (value : Value) :
    (document.hold item value).kind? item = some node.label.kind := by
  rw [kind?_of_node? (linked.node?_hold known value)]
  obtain ⟨attributes, same⟩ :=
    exists_syncFlags (node.childless.setContent value)
  rw [same]
  rfl

theorem Linked.child_ne
    (linked : document.Linked) (found : document.child? item name = some child) :
    item ≠ child := by
  have member := List.mem_of_find?_eq_some found
  obtain ⟨-, -, -, -, -, differs⟩ :=
    linked.exists_link ((linked.wiring.links item child).mp member)
  exact differs.symm

theorem neutralValue_eq_iff
    {read : Property} (present : read.node = some property)
    (unmarked : read.isNull = false)
    (content : read.document.content property = value) :
    read.neutralValue = value ↔
      ∀ neutral,
        read.document.attribute? property AttributeName.neutralValue =
            some neutral →
          neutral = "" ∨ value = .text neutral := by
  rw [Property.neutralValue, present, unmarked]
  dsimp only
  rw [if_neg Bool.false_ne_true, content]
  cases read.document.attribute? property AttributeName.neutralValue with
  | none => simp
  | some neutral =>
      dsimp only
      split
      · next empty => simp [String.isEmpty_iff.mp empty]
      · next some =>
          have written : neutral ≠ "" := by simpa using some
          simp [written, eq_comm]

/-- A value other than null that was put into a property of an item is what
the property holds from then on.  Its neutral reading is that value as well,
unless another neutral value stands beside it. -/
theorem property_setProperty
    (reachable : document.Reachable) (present : value ≠ .null)
    (reached :
      (setProperty item name (.value value)).run document =
        .ok property final)
    (kind : final.kind? property = some .property) :
    let read := final.property item name
    read.node = some property ∧ read.isNull = false ∧
      read.asText = some (document.locale.format value) ∧
      final.children property = [] ∧ read.asGuid = Locale.asGuid value ∧
      (read.neutralValue = value ↔
        ∀ neutral,
          document.attribute? property AttributeName.neutralValue =
              some neutral →
            neutral = "" ∨ value = .text neutral) := by
  obtain ⟨between, node, ran, linked, known, free, rfl⟩ :=
    run_setProperty_eq_ok reachable.linked reached
  obtain ⟨-, found, locale, attributes⟩ :=
    found_propertyNode reachable.linked ran
  have held := linked.attribute?_hold known
    (Option.some_inj.mp ((linked.kind?_hold known value).symm.trans kind)) value
  have content := linked.content_hold known value
  have childless : (between.hold property value).children property = [] := by
    rw [children_hold, Function.update_self]
  have unmarked : value.isNull = false := by
    cases value with
    | null => exact absurd rfl present
    | _ => rfl
  have lookup :
      (between.hold property value).property item name =
        ⟨between.hold property value, property, none⟩ := by
    rw [Document.property, child?_hold (linked.child_ne found), found]
  have clear :
      (Property.mk (between.hold property value) property none).isNull =
        false := by
    rw [Property.isNull]
    dsimp only
    rw [held, if_pos rfl, nullMark?, unmarked]
    rfl
  intro read
  rw [show read = _ from lookup]
  refine ⟨rfl, clear, ?_, childless, ?_, ?_⟩
  · rw [Property.asText, clear, Property.value?, if_neg Bool.false_ne_true]
    dsimp only
    rw [Document.value?, content, childless, unmarked, ← locale]
    exact congrArg (fun place => some (Locale.format place value))
      (locale_shed between property)
  · rw [Property.asGuid]
    dsimp only
    rw [content]
  · rw [neutralValue_eq_iff rfl clear content]
    dsimp only
    rw [held, if_neg (by decide), find?_rangeMarks_of_other (by decide),
      Option.none_or, attributes]

end

/-- A name put into a property that held none. -/
theorem property_setProperty_of_name :
    let final :=
      itemWithProperty.afterCall (.setProperty 0 "name" (.value (.text "Bolt")))
    itemWithProperty.Reachable ∧
      (setProperty 0 "name" (.value (.text "Bolt"))).run itemWithProperty =
        .ok 1 final ∧
      final.kind? 1 = some .property ∧
      (final.property 0 "name").neutralValue = .text "Bolt" := by
  intro final
  have reachable := reachable_itemWithProperty
  have reached :
      (setProperty 0 "name" (.value (.text "Bolt"))).run itemWithProperty =
        .ok 1 final :=
    rfl
  have kind : final.kind? 1 = some .property := by decide +kernel
  have present : Value.text "Bolt" ≠ .null := nofun
  obtain ⟨-, -, -, -, -, neutral⟩ :=
    property_setProperty reachable present reached kind
  refine ⟨reachable, reached, kind, neutral.mpr ?_⟩
  have absent :
      itemWithProperty.attribute? 1 AttributeName.neutralValue = none := by
    decide +kernel
  intro other present
  rw [absent] at present
  cases present

/-- An item with a cost that was read in another language. -/
def itemWithCost : Document :=
  [.createItem "Part" none, .createProperty "cost", .add 0 (.node 1),
    .add 1 (.value (.text "12,5")),
    .setAttribute 1 AttributeName.neutralValue "12.5"].foldl afterCall
    (new ⟨"en", "en_US", 0, 0, firstMoment⟩)

/-- A neutral value that was read stands for the value written after it. -/
theorem neutralValue_outlasts_value :
    ¬ ∀ (document final : Document) (item property : NodeId) (name : String)
        (value : Value),
      document.Reachable → value ≠ .null →
        (setProperty item name (.value value)).run document =
            .ok property final →
          final.kind? property = some .property →
            (final.property item name).neutralValue = value := by
  intro reads
  have same :=
    reads itemWithCost _ 0 1 "cost" (.int 20) ((Reachable.new _).calls _) nofun
      rfl (by decide +kernel)
  exact absurd (congrArg Value.isNumber same) (by decide +kernel)

end AmlExchange.Document
