import AmlExchange.Document.Drafting
import AmlExchange.Proofs.Markup.Drafts
import AmlExchange.Proofs.Markup.Forest

/-!
# What is written of a tree

The elements that are written of a tree make up a tree of their own: names that
belong to a namespace are bound, names of values in another language are
changed, and what is below a reference is left out.  Unless an element cannot
be written at all, a tree is written as that page (`toAml_eq`).
-/

namespace AmlExchange.Document

open Markup (Draft Instruction effective)

/-! ## Pages -/

/-- All that is written of one element. -/
structure Tag where
  name : String
  attributes : List (String × String)
  /-- The text in the element, empty if there is none. -/
  text : String

/-- The attributes of an element that are written: all but the bindings of
namespaces. -/
def visible (attributes : List (String × String)) : List (String × String) :=
  attributes.filter fun field => Markup.space? field.1 ≠ some "xmlns"

theorem visible_append
    (first second : List (String × String)) :
    visible (first ++ second) = visible first ++ visible second :=
  List.filter_append ..

/-- The name an element is written under and its namespace.  An element that
cannot be written keeps its name. -/
def spelling (locale : Locale) (element : Element) : String × Option Space :=
  match writtenName locale element with
  | .ok written => written
  | .error _ => (element.label.name, none)

/-- A namespace that is not bound yet. -/
def unbound (bound : List Space) : Option Space → List Space
  | none => []
  | some space => if bound.contains space then [] else [space]

/-- An attribute that an element gets unless it has one of that name. -/
def supplied (element : Element) (name : String) (value : Option String) :
    List (String × String) :=
  match element.attribute? name, value with
  | none, some value => [(name, value)]
  | _, _ => []

/-- The attributes by which a property refers to an item. -/
def referenceFields (locale : Locale) (element item : Element) :
    List (String × String) :=
  supplied element AttributeName.type item.typeName? ++
    supplied element AttributeName.keyedName
      ((item.keyedName? locale).filter fun name => !name.isEmpty)

/-- The attributes of its own that an element is written with, after those that
bind namespaces. -/
def writtenFields (locale : Locale) (bound : List Space)
    (element : Element) : List (String × String) :=
  (unbound bound (spelling locale element).2).map
      (fun space => (space.binding, space.uri)) ++
    visible element.label.attributes.entries

/-- The attributes that an element is written with besides its own. -/
def addedFields (form : Form) (element : Element) : List (String × String) :=
  match referent? form element with
  | some item => referenceFields form.locale element item
  | none => []

/-- The text that is written in an element. -/
def writtenText (form : Form) (element : Element) : String :=
  match referent? form element with
  | some item => (item.itemId? form.locale).getD ""
  | none => (element.value? form.locale).getD ""

/-- All that is written of an element, within elements that bind some
namespaces. -/
def tagOf (form : Form) (bound : List Space) (element : Element) : Tag :=
  ⟨(spelling form.locale element).1,
    writtenFields form.locale bound element ++ addedFields form element,
    writtenText form element⟩

mutual

/-- What is written of a tree, within elements that bind some namespaces. -/
def page (form : Form) (bound : List Space) : Element → Tree Tag
  | .node label children =>
      let element : Element := .node label children
      let inner := unbound bound (spelling form.locale element).2 ++ bound
      .node (tagOf form bound element)
        (match referent? form element with
          | some _ => []
          | none => pages form inner children)

/-- What is written of some trees. -/
def pages (form : Form) (bound : List Space) : List Element → List (Tree Tag)
  | [] => []
  | tree :: rest => page form bound tree :: pages form bound rest

end

mutual

/-- A page as a node of markup. -/
def nodeOf : Tree Tag → Markup.Node
  | .node tag children =>
      .element tag.name tag.attributes (.text tag.text :: nodesOf children)

/-- Pages as nodes of markup. -/
def nodesOf : List (Tree Tag) → List Markup.Node
  | [] => []
  | tree :: rest => nodeOf tree :: nodesOf rest

end

theorem page_eq
    (form : Form) (bound : List Space) (element : Element) :
    ∃ children,
      page form bound element = .node (tagOf form bound element) children := by
  obtain ⟨label, children⟩ := element
  rw [page]
  exact ⟨_, rfl⟩

theorem pages_eq_map
    (form : Form) (bound : List Space) (trees : List Element) :
    pages form bound trees = trees.map (page form bound) := by
  induction trees with
  | nil => rfl
  | cons tree rest ih => rw [pages, List.map_cons, ih]

/-! ## Elements that can be written -/

/-- Whether an attribute of a name is written or left out. -/
def Permitted (name : String) : Prop :=
  ∀ space, Markup.space? name = some space → space = "xml" ∨ space = "xmlns"

mutual

/-- Whether every element that is written of a tree can be written. -/
def Writable (form : Form) : Element → Prop
  | .node label children =>
      (∃ written, writtenName form.locale (.node label children) =
        .ok written) ∧
      (∀ field ∈ label.attributes.entries, Permitted field.1) ∧
      (referent? form (.node label children) = none →
        WritableAll form children)

/-- Whether every element that is written of some trees can be written. -/
def WritableAll (form : Form) : List Element → Prop
  | [] => True
  | tree :: rest => Writable form tree ∧ WritableAll form rest

end

theorem writableAll_iff
    {form : Form} {trees : List Element} :
    WritableAll form trees ↔ ∀ tree ∈ trees, Writable form tree := by
  induction trees with
  | nil => simp [WritableAll]
  | cons tree rest ih => rw [WritableAll, List.forall_mem_cons, ih]

theorem referent?_leaf
    (form : Form) (label : Label) :
    referent? form (.node label []) = none := by
  rw [referent?]
  split <;> rfl

theorem fault_attributeDraft
    (field : String × String) :
    (attributeDraft field).fault = none ↔ Permitted field.1 := by
  unfold attributeDraft Permitted
  split
  · next none => simp [none, Draft.of]
  · next xml => simp [xml, Draft.of]
  · next xmlns => simp [xmlns, Draft.empty]
  · next space notXml notXmlns found =>
      constructor
      · intro complete
        cases complete
      · intro permitted
        rcases permitted space found with rfl | rfl
        · exact absurd rfl notXml
        · exact absurd rfl notXmlns

/-- Attributes as instructions. -/
def fieldInstructions (attributes : List (String × String)) :
    List Instruction :=
  attributes.map fun field => .setAttribute field.1 field.2

theorem fieldInstructions_append
    (first second : List (String × String)) :
    fieldInstructions (first ++ second) =
      fieldInstructions first ++ fieldInstructions second :=
  List.map_append

theorem instructions_attributeDraft
    {field : String × String} (permitted : Permitted field.1) :
    (attributeDraft field).instructions =
      fieldInstructions (visible [field]) := by
  unfold attributeDraft
  split
  · next none => simp [visible, none, fieldInstructions, Draft.of]
  · next xml => simp [visible, xml, fieldInstructions, Draft.of]
  · next xmlns => simp [visible, xmlns, fieldInstructions, Draft.empty]
  · next space notXml notXmlns found =>
      rcases permitted space found with rfl | rfl
      · exact absurd rfl notXml
      · exact absurd rfl notXmlns

theorem fault_attributes
    (attributes : List (String × String)) :
    (Draft.concat (attributes.map attributeDraft)).fault = none ↔
      ∀ field ∈ attributes, Permitted field.1 := by
  rw [Draft.fault_concat, List.forall_mem_map]
  exact forall₂_congr fun field _ => fault_attributeDraft field

theorem instructions_attributes
    {attributes : List (String × String)}
    (permitted : ∀ field ∈ attributes, Permitted field.1) :
    (Draft.concat (attributes.map attributeDraft)).instructions =
      fieldInstructions (visible attributes) := by
  have complete :=
    (Draft.fault_concat _).mp ((fault_attributes _).mpr permitted)
  rw [Draft.instructions_concat complete]
  clear complete
  induction attributes with
  | nil => rfl
  | cons field rest ih =>
      rw [List.forall_mem_cons] at permitted
      rw [List.map_cons, List.flatMap_cons, ih permitted.2,
        instructions_attributeDraft permitted.1, ← fieldInstructions_append,
        ← visible_append, List.singleton_append]

theorem startDraft_eq
    {locale : Locale} {element : Element} {written : String × Option Space}
    (spelt : writtenName locale element = .ok written) (bound : List Space) :
    startDraft locale bound element =
      (.of
          (.startElement written.1 ::
            fieldInstructions
              ((unbound bound written.2).map fun space =>
                (space.binding, space.uri))),
        unbound bound written.2 ++ bound) := by
  obtain ⟨name, space⟩ := written
  rw [startDraft, spelt]
  cases space with
  | none => rfl
  | some space =>
      simp only [unbound]
      split <;> rfl

theorem fault_startDraft
    (locale : Locale) (bound : List Space) (element : Element) :
    (startDraft locale bound element).1.fault = none ↔
      ∃ written, writtenName locale element = .ok written := by
  constructor
  · intro complete
    cases spelt : writtenName locale element with
    | ok written => exact ⟨written, rfl⟩
    | error fault =>
        rw [startDraft, spelt] at complete
        cases complete
  · rintro ⟨written, spelt⟩
    rw [startDraft_eq spelt]
    rfl

theorem spelling_eq
    {locale : Locale} {element : Element} {written : String × Option Space}
    (spelt : writtenName locale element = .ok written) :
    spelling locale element = written := by
  rw [spelling, spelt]

/-- What is written within an element. -/
def contentDraft (form : Form) (bound : List Space) (element : Element) :
    Draft :=
  match referent? form element with
  | some item => referenceDraft form.locale element item
  | none =>
      .of ((element.value? form.locale).map Instruction.text).toList ++
        treesDraft form bound element.children

theorem append_empty
    (draft : Draft) :
    draft ++ Draft.empty = draft := by
  obtain ⟨instructions, fault⟩ := draft
  cases fault with
  | none => exact congrArg (Draft.mk · none) (List.append_nil instructions)
  | some fault => rfl

theorem treeDraft_eq
    (form : Form) (bound : List Space) (label : Label)
    (children : List Element) :
    treeDraft form bound (.node label children) =
      (startDraft form.locale bound (.node label children)).1 ++
        .concat (label.attributes.entries.map attributeDraft) ++
        contentDraft form
          (startDraft form.locale bound (.node label children)).2
          (.node label children) ++
        .of [.endElement] := by
  cases children with
  | nil =>
      rw [treeDraft, contentDraft, referent?_leaf]
      simp only [Tree.children, treesDraft, append_empty]
  | cons child rest =>
      rw [treeDraft, contentDraft]
      cases referent? form (.node label (child :: rest)) with
      | some item => rfl
      | none =>
          have valueless :
              Element.value? form.locale (.node label (child :: rest)) =
                none := by
            simp [Element.value?, Tree.children]
          rw [valueless]
          rfl

theorem instructions_missing
    (element : Element) (name : String) (value : Option String) :
    missing element name value =
      fieldInstructions (supplied element name value) := by
  unfold missing supplied
  cases element.attribute? name with
  | some present => rfl
  | none => cases value <;> rfl

/-- Text that is not there is as good as empty text. -/
theorem effective_text
    (text : Option String) :
    effective (text.map Instruction.text).toList =
      effective [.text (text.getD "")] := by
  cases text <;> rfl

mutual

theorem fault_treeDraft
    (form : Form) (bound : List Space) (tree : Element) :
    (treeDraft form bound tree).fault = none ↔ Writable form tree := by
  cases tree with
  | node label children =>
      rw [treeDraft_eq, Draft.fault_append, Draft.fault_append,
        Draft.fault_append, fault_startDraft, fault_attributes, Writable,
        contentDraft]
      cases referent? form (.node label children) with
      | some item => simp [referenceDraft, Draft.of]
      | none =>
          rw [Draft.fault_append, Tree.children, fault_treesDraft]
          simp [Draft.of, and_assoc]

/-- Some trees can be written if and only if all their elements can. -/
theorem fault_treesDraft
    (form : Form) (bound : List Space) (trees : List Element) :
    (treesDraft form bound trees).fault = none ↔ WritableAll form trees := by
  cases trees with
  | nil => exact iff_of_true rfl trivial
  | cons tree rest =>
      rw [treesDraft, Draft.fault_append, WritableAll, fault_treeDraft,
        fault_treesDraft]

end

/-- What is written of an element that can be written. -/
theorem instructions_eq
    {form : Form} {bound : List Space} {label : Label}
    {children : List Element}
    (writable : Writable form (.node label children)) :
    (treeDraft form bound (.node label children)).instructions =
      .startElement (spelling form.locale (.node label children)).1 ::
        fieldInstructions
          (writtenFields form.locale bound (.node label children)) ++
        (contentDraft form
          (unbound bound (spelling form.locale (.node label children)).2 ++
            bound)
          (.node label children)).instructions ++
        [.endElement] := by
  have complete := (fault_treeDraft form bound _).mpr writable
  rw [Writable] at writable
  obtain ⟨⟨written, spelt⟩, permitted, -⟩ := writable
  rw [treeDraft_eq, startDraft_eq spelt] at complete ⊢
  obtain ⟨content, -⟩ := (Draft.fault_append ..).mp complete
  obtain ⟨opening, -⟩ := (Draft.fault_append ..).mp content
  rw [Draft.instructions_append content, Draft.instructions_append opening,
    Draft.instructions_append rfl, instructions_attributes permitted,
    spelling_eq spelt, writtenFields, spelling_eq spelt,
    fieldInstructions_append]
  rfl

theorem instructions_nodeOf
    (tag : Tag) (children : List (Tree Tag)) :
    (nodeOf (.node tag children)).instructions =
      .startElement tag.name :: fieldInstructions tag.attributes ++
        ([.text tag.text] ++
          Markup.Node.instructionsAll (nodesOf children)) ++
        [.endElement] := by
  rw [nodeOf, Markup.Node.instructions, Markup.Node.instructionsAll,
    Markup.Node.instructions, fieldInstructions]

theorem instructions_referenceDraft
    (locale : Locale) (element item : Element) :
    (referenceDraft locale element item).instructions =
      fieldInstructions (referenceFields locale element item) ++
        ((item.itemId? locale).map Instruction.text).toList := by
  rw [referenceDraft, Draft.of, instructions_missing, instructions_missing,
    referenceFields, fieldInstructions_append]

mutual

theorem instructions_treeDraft
    (form : Form) (bound : List Space) (tree : Element)
    (writable : Writable form tree) :
    effective (treeDraft form bound tree).instructions =
      effective (nodeOf (page form bound tree)).instructions := by
  cases tree with
  | node label children =>
      rw [instructions_eq writable, page, instructions_nodeOf, tagOf,
        addedFields, writtenText, contentDraft]
      rw [Writable] at writable
      cases refers : referent? form (.node label children) with
      | some item =>
          simp only [instructions_referenceDraft, Markup.effective_append,
            effective_text, fieldInstructions_append, ← List.cons_append,
            List.append_assoc]
          rfl
      | none =>
          have below :=
            instructions_treesDraft form
              (unbound bound (spelling form.locale (.node label children)).2 ++
                bound)
              children (writable.2.2 refers)
          simp only [Draft.instructions_of_append, Tree.children,
            Markup.effective_append, effective_text, below, List.append_nil]

theorem instructions_treesDraft
    (form : Form) (bound : List Space) (trees : List Element)
    (writable : WritableAll form trees) :
    effective (treesDraft form bound trees).instructions =
      effective
        (Markup.Node.instructionsAll (nodesOf (pages form bound trees))) := by
  cases trees with
  | nil => rfl
  | cons tree rest =>
      rw [WritableAll] at writable
      have complete := (fault_treeDraft form bound tree).mpr writable.1
      rw [treesDraft, Draft.instructions_append complete, pages, nodesOf,
        Markup.Node.instructionsAll, Markup.effective_append,
        Markup.effective_append, instructions_treeDraft _ _ _ writable.1,
        instructions_treesDraft _ _ _ writable.2]

end

/-- A tree that can be written is written as its page. -/
theorem toText_treeDraft
    {form : Form} {bound : List Space} {tree : Element}
    (writable : Writable form tree) :
    (treeDraft form bound tree).toText =
      (Draft.of (nodeOf (page form bound tree)).instructions).toText := by
  rw [Draft.toText_of_fault ((fault_treeDraft ..).mpr writable)]
  exact Draft.toText_of_effective (instructions_treeDraft _ _ _ writable)

/-! ## Pages are markup -/

/-- Whether the names in a label are names. -/
def Label.Named (label : Label) : Prop :=
  Markup.isName label.name.toList = true ∧
    ∀ field ∈ label.attributes.entries,
      Markup.isName field.1.toList = true

instance (label : Label) :
    Decidable label.Named :=
  inferInstanceAs
    (Decidable (Markup.isName label.name.toList = true ∧
      ∀ field ∈ label.attributes.entries,
        Markup.isName field.1.toList = true))

theorem isName_append
    {first rest : List Char} (named : Markup.isName first = true)
    (chars : ∀ char ∈ rest, Markup.isNameChar char = true) :
    Markup.isName (first ++ rest) = true := by
  cases first with
  | nil => cases named
  | cons char others =>
      rw [Markup.isName, Bool.and_eq_true, List.all_eq_true] at named
      rw [List.cons_append, Markup.isName, Bool.and_eq_true,
        List.all_eq_true, List.forall_mem_append]
      exact ⟨named.1, named.2, chars⟩

theorem isNameChar_of_isName
    {name : List Char} (named : Markup.isName name = true) :
    ∀ char ∈ name, Markup.isNameChar char = true := by
  cases name with
  | nil => exact nofun
  | cons char rest =>
      rw [Markup.isName, Bool.and_eq_true, List.all_eq_true] at named
      rw [List.forall_mem_cons]
      exact ⟨Markup.isNameChar_of_isNameStart named.1, named.2⟩

theorem isName_qualify
    {name : String} (named : Markup.isName name.toList = true)
    (space : Space) :
    Markup.isName (space.qualify (Markup.localName name)).toList = true := by
  have chars : ∀ char ∈ (Markup.localName name).toList,
      Markup.isNameChar char = true := by
    intro char member
    apply isNameChar_of_isName named
    rw [Markup.localName] at member
    split at member
    · next before after found =>
        rw [String.toList_ofList] at member
        rw [Text.cutAt?_eq_some found]
        exact List.mem_append_right _ member
    · exact member
  rw [Space.qualify, String.toList_append]
  apply isName_append _ chars
  cases space <;> decide

theorem spelling_of_foreign
    {locale : Locale} {element : Element}
    (foreign : isForeign locale element = true) :
    spelling locale element =
      (Space.foreign.qualify (Markup.localName element.label.name),
        some .foreign) := by
  rw [spelling, writtenName, if_pos foreign]

/-- Only values in another language change their names. -/
theorem spelling_of_native
    {locale : Locale} {element : Element}
    (native : isForeign locale element = false) :
    (spelling locale element).1 = element.label.name := by
  unfold spelling
  split
  · next written spelt =>
      rw [writtenName, if_neg (by simp [native])] at spelt
      split at spelt
      · cases spelt
        rfl
      · split_ifs at spelt <;> cases spelt <;> rfl
  · rfl

theorem isName_spelling
    (locale : Locale) {element : Element} (named : element.label.Named) :
    Markup.isName (spelling locale element).1.toList = true := by
  cases foreign : isForeign locale element with
  | true =>
      rw [spelling_of_foreign foreign]
      exact isName_qualify named.1 .foreign
  | false =>
      rw [spelling_of_native foreign]
      exact named.1

theorem space?_binding
    (space : Space) :
    Markup.space? space.binding = some "xmlns" := by
  cases space <;> decide

theorem isName_binding
    (space : Space) :
    Markup.isName space.binding.toList = true := by
  cases space <;> decide

theorem mem_supplied
    {element : Element} {name : String} {value : Option String}
    {field : String × String} (member : field ∈ supplied element name value) :
    field.1 = name ∧ element.attribute? name = none := by
  unfold supplied at member
  split at member
  · next missing =>
      rw [List.mem_singleton.mp member]
      exact ⟨rfl, missing⟩
  · cases member

theorem nodup_supplied
    (element : Element) (name : String) (value : Option String) :
    ((supplied element name value).map Prod.fst).Nodup := by
  unfold supplied
  split <;> simp

/-- A reference adds attributes that are not there yet. -/
theorem mem_referenceFields
    {locale : Locale} {element item : Element} {field : String × String}
    (member : field ∈ referenceFields locale element item) :
    (field.1 = AttributeName.type ∨ field.1 = AttributeName.keyedName) ∧
      element.attribute? field.1 = none := by
  rcases List.mem_append.mp member with first | second
  · obtain ⟨same, missing⟩ := mem_supplied first
    exact ⟨.inl same, same ▸ missing⟩
  · obtain ⟨same, missing⟩ := mem_supplied second
    exact ⟨.inr same, same ▸ missing⟩

theorem nodup_referenceFields
    (locale : Locale) (element item : Element) :
    ((referenceFields locale element item).map Prod.fst).Nodup := by
  rw [referenceFields, List.map_append, List.nodup_append]
  refine ⟨nodup_supplied .., nodup_supplied .., ?_⟩
  intro first isFirst second isSecond
  obtain ⟨field, member, rfl⟩ := List.mem_map.mp isFirst
  obtain ⟨other, memberOther, rfl⟩ := List.mem_map.mp isSecond
  rw [(mem_supplied member).1, (mem_supplied memberOther).1]
  decide

theorem mem_addedFields
    {form : Form} {element : Element} {field : String × String}
    (member : field ∈ addedFields form element) :
    (field.1 = AttributeName.type ∨ field.1 = AttributeName.keyedName) ∧
      element.attribute? field.1 = none := by
  unfold addedFields at member
  split at member
  · exact mem_referenceFields member
  · cases member

theorem nodup_addedFields
    (form : Form) (element : Element) :
    ((addedFields form element).map Prod.fst).Nodup := by
  unfold addedFields
  split
  · exact nodup_referenceFields ..
  · exact List.nodup_nil

theorem space?_addedFields
    {form : Form} {element : Element} {field : String × String}
    (member : field ∈ addedFields form element) :
    Markup.space? field.1 = none := by
  rcases (mem_addedFields member).1 with same | same <;>
    · rw [same]
      decide

theorem mem_writtenFields
    {locale : Locale} {bound : List Space} {element : Element}
    {field : String × String}
    (member : field ∈ writtenFields locale bound element) :
    (∃ space : Space, field.1 = space.binding) ∨
      field ∈ element.label.attributes.entries ∧
        Markup.space? field.1 ≠ some "xmlns" := by
  rcases List.mem_append.mp member with binds | shown
  · obtain ⟨space, -, rfl⟩ := List.mem_map.mp binds
    exact .inl ⟨space, rfl⟩
  · obtain ⟨present, visible⟩ := List.mem_filter.mp shown
    exact .inr ⟨present, by simpa using visible⟩

theorem visible_visible
    (attributes : List (String × String)) :
    visible (visible attributes) = visible attributes := by
  simp [visible]

theorem visible_writtenFields
    (locale : Locale) (bound : List Space) (element : Element) :
    visible (writtenFields locale bound element) =
      visible element.label.attributes.entries := by
  have hidden (spaces : List Space) :
      visible (spaces.map fun space => (space.binding, space.uri)) = [] := by
    rw [visible, List.filter_eq_nil_iff, List.forall_mem_map]
    intro space _
    simp [space?_binding]
  rw [writtenFields, visible_append, hidden, visible_visible,
    List.nil_append]

theorem isName_writtenFields
    {locale : Locale} {bound : List Space} {element : Element}
    (named : element.label.Named) :
    ∀ field ∈ writtenFields locale bound element,
      Markup.isName field.1.toList = true := by
  intro field member
  rcases mem_writtenFields member with ⟨space, same⟩ | ⟨present, -⟩
  · rw [same]
    exact isName_binding space
  · exact named.2 field present

theorem nodup_writtenFields
    (locale : Locale) (bound : List Space) (element : Element) :
    ((writtenFields locale bound element).map Prod.fst).Nodup := by
  rw [writtenFields, List.map_append, List.nodup_append]
  refine ⟨?_, ?_, ?_⟩
  · unfold unbound
    split
    · simp
    · split <;> simp
  · exact (List.Sublist.map Prod.fst List.filter_sublist).nodup
      element.label.attributes.distinct
  · intro name binds other shown same
    obtain ⟨_, isBinding, rfl⟩ := List.mem_map.mp binds
    obtain ⟨space, -, rfl⟩ := List.mem_map.mp isBinding
    obtain ⟨field, member, rfl⟩ := List.mem_map.mp shown
    have visible : Markup.space? field.1 ≠ some "xmlns" := by
      simpa using (List.mem_filter.mp member).2
    exact visible (same ▸ space?_binding space)

theorem isName_tagOf
    {form : Form} {bound : List Space} {element : Element}
    (named : element.label.Named) :
    ∀ field ∈ (tagOf form bound element).attributes,
      Markup.isName field.1.toList = true := by
  intro field member
  rcases List.mem_append.mp member with own | added
  · exact isName_writtenFields named field own
  · rcases (mem_addedFields added).1 with same | same <;>
      · rw [same]
        decide

/-- No attribute is written twice. -/
theorem nodup_tagOf
    (form : Form) (bound : List Space) (element : Element) :
    ((tagOf form bound element).attributes.map Prod.fst).Nodup := by
  rw [tagOf, List.map_append, List.nodup_append]
  refine ⟨nodup_writtenFields .., nodup_addedFields .., ?_⟩
  intro name written other added same
  obtain ⟨field, member, rfl⟩ := List.mem_map.mp written
  obtain ⟨reference, isAdded, rfl⟩ := List.mem_map.mp added
  rcases mem_writtenFields member with ⟨space, binds⟩ | ⟨present, -⟩
  · have bound := space?_binding space
    rw [← binds, same, space?_addedFields isAdded] at bound
    cases bound
  · have missing := (mem_addedFields isAdded).2
    rw [← same] at missing
    exact Fields.find?_eq_none_iff.mp missing (List.mem_map_of_mem present)

mutual

/-- The page of a tree of names is lawful markup. -/
theorem lawful_page
    (form : Form) (bound : List Space) (tree : Element)
    (named : ∀ label ∈ tree.toList, label.Named) :
    (nodeOf (page form bound tree)).Lawful := by
  cases tree with
  | node label children =>
      rw [Tree.toList, List.forall_mem_cons] at named
      have own : (Tree.label (.node label children)).Named := named.1
      rw [page]
      refine ⟨isName_spelling _ own, isName_tagOf own, nodup_tagOf ..,
        trivial, ?_⟩
      cases referent? form (.node label children) with
      | some item => trivial
      | none => exact lawful_pages form _ children named.2

theorem lawful_pages
    (form : Form) (bound : List Space) (trees : List Element)
    (named : ∀ label ∈ Tree.toListAll trees, label.Named) :
    Markup.Node.LawfulAll (nodesOf (pages form bound trees)) := by
  cases trees with
  | nil => trivial
  | cons tree rest =>
      rw [Tree.toListAll, List.forall_mem_append] at named
      exact
        ⟨lawful_page form bound tree named.1,
          lawful_pages form bound rest named.2⟩

end

end AmlExchange.Document
