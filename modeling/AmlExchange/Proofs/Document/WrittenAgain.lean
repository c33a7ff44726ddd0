import AmlExchange.Proofs.Document.Reachable
import AmlExchange.Proofs.Document.Rewriting

/-!
# A document written again

What a document writes, with references for items, is read back and written
again.  The second text is the first unless some property that was written in
full is a reference now.  That happens only where an element in another
language got a name that makes its role a different one, and no second time
(`written_again`).
-/

namespace AmlExchange.Document

/-! ## Roles that stay as they are -/

/-- Whether a label is not that of an item or of relationships in another
language. -/
def Label.Plain (locale : Locale) (label : Label) : Prop :=
  isForeign locale (.node label []) = true →
    label.name ≠ "Item" ∧ label.name ≠ "Relationships"

theorem foreign_ne
    {name other : String} (begins : other.toList.head? ≠ some 'i') :
    Space.foreign.qualify name ≠ other := by
  rintro rfl
  rw [Space.qualify, String.toList_append] at begins
  exact begins rfl

/-- A written name that does not belong to the namespace of other languages is
the name of the element. -/
theorem name_of_spelling
    {locale : Locale} {element : Element} {other : String}
    (begins : other.toList.head? ≠ some 'i')
    (same : (spelling locale element).1 = other) :
    isForeign locale element = false ∧ element.label.name = other := by
  cases foreign : isForeign locale element with
  | true =>
      rw [spelling_of_foreign foreign] at same
      exact absurd same (foreign_ne begins)
  | false => exact ⟨rfl, (spelling_of_native foreign).symm.trans same⟩

section

variable {locale : Locale} {bound : List Space} {parent other : Option Kind}

/-- An element that is not an item in another language is read back as an item
if and only if it is one. -/
theorem kind_reread_eq_item
    {tree : Element} (regular : Regular parent tree)
    (plain : tree.label.Plain locale) :
    (reread other (page (brief locale) bound tree)).label.kind = .item ↔
      tree.label.kind = .item := by
  obtain ⟨children, shape⟩ := page_eq (brief locale) bound tree
  rw [shape, kind_reread, classify_eq_item]
  have role : tree.label.kind = .item ↔ tree.label.name = "Item" := by
    rw [((regular_iff ..).mp regular).2.1, classify_eq_item]
  refine Iff.trans ⟨?_, ?_⟩ role.symm
  · exact fun same => (name_of_spelling (by decide) same).2
  · intro item
    have native : isForeign locale tree = false := by
      rw [Bool.eq_false_iff]
      obtain ⟨label, below⟩ := tree
      exact fun foreign => (plain foreign).1 item
    exact (spelling_of_native native).trans item

/-- The items among some trees that are read back. -/
theorem items_rereadAll
    {trees : List Element} (regular : RegularAll parent trees)
    (plain : ∀ label ∈ Tree.toListAll trees, label.Plain locale) :
    (rereadAll other (pages (brief locale) bound trees)).filter
        (fun child => child.label.kind == .item) =
      rereadAll other
        (pages (brief locale) bound
          (trees.filter fun child => child.label.kind == .item)) := by
  induction trees with
  | nil => rfl
  | cons tree rest ih =>
      rw [RegularAll] at regular
      rw [Tree.toListAll, List.forall_mem_append] at plain
      have own : tree.label.Plain locale := by
        obtain ⟨label, children⟩ := tree
        exact plain.1 label List.mem_cons_self
      have same :=
        @kind_reread_eq_item locale bound parent other tree regular.1 own
      rw [pages, rereadAll]
      by_cases item : tree.label.kind = .item
      · rw [List.filter_cons_of_pos (by simpa using same.mpr item),
          List.filter_cons_of_pos (by simpa using item), pages, rereadAll,
          ih regular.2 plain.2]
      · rw [List.filter_cons_of_neg (by simpa [same] using item),
          List.filter_cons_of_neg (by simpa using item),
          ih regular.2 plain.2]

theorem referent?_of_kind
    {form : Form} {element : Element}
    (role : element.label.kind ≠ .property) :
    referent? form element = none := by
  rw [referent?, if_pos (by simp [role])]

theorem referent?_of_items
    {form : Form} {element : Element} (none : element.items = []) :
    referent? form element = .none := by
  rw [referent?, none]
  split <;> rfl

/-- A property that is written in full is so again if its children are regular
and keep their roles. -/
theorem referent?_reread
    {element : Element} (direct : referent? (brief locale) element = none)
    (role : element.label.kind = .property)
    (regular : RegularAll parent element.children)
    (plain : ∀ label ∈ Tree.toListAll element.children,
      label.Plain locale) (inner : List Space) :
    referent? (brief locale)
        (reread other
          (.node (tagOf (brief locale) bound element)
            (pages (brief locale) inner element.children))) =
      none := by
  have items :
      (reread other
          (.node (tagOf (brief locale) bound element)
            (pages (brief locale) inner element.children))).items =
        rereadAll
          (some (.classify (tagOf (brief locale) bound element).name other))
          (pages (brief locale) inner element.items) := by
    rw [Element.items, children_reread, items_rereadAll regular plain]
    rfl
  cases present : element.items with
  | nil =>
      rw [present] at items
      exact referent?_of_items items
  | cons item rest =>
      have acts : ¬ (item.attribute? AttributeName.action).isNone = true := by
        intro idle
        rw [referent?, if_neg (by simp [role]), present] at direct
        simp [idle] at direct
      obtain ⟨below, shape⟩ := page_eq (brief locale) inner item
      rw [present, pages, rereadAll, shape] at items
      rw [referent?, items]
      dsimp only
      rw [attribute?_reread (by decide) (by decide) (by decide),
        if_neg acts]
      split <;> rfl

end

/-- An element that is read back as a property is one. -/
theorem kind_of_reread
    {locale : Locale} {parent other : Option Kind} {element : Element}
    (regular : Regular parent element)
    (within : other = some .item → parent = some .item)
    (own : other = some .item → element.label.Plain locale)
    (again :
      Kind.classify (spelling locale element).1 other = .property) :
    element.label.kind = .property := by
  obtain ⟨notItem, inside, notRelationships⟩ := classify_eq_property.mp again
  have names :
      element.label.name ≠ "Item" ∧ element.label.name ≠ "Relationships" := by
    cases foreign : isForeign locale element with
    | true =>
        obtain ⟨label, children⟩ := element
        exact own inside foreign
    | false =>
        rw [spelling_of_native foreign] at notItem notRelationships
        exact ⟨notItem, notRelationships⟩
  rw [((regular_iff ..).mp regular).2.1, classify_eq_property]
  exact ⟨names.1, within inside, names.2⟩

/-- An element that is read back as an item is one. -/
theorem kind_of_reread_item
    {locale : Locale} {parent other : Option Kind} {element : Element}
    (regular : Regular parent element)
    (again : Kind.classify (spelling locale element).1 other = .item) :
    element.label.kind = .item := by
  have item := (name_of_spelling (by decide) (classify_eq_item.mp again)).2
  rw [((regular_iff ..).mp regular).2.1, classify_eq_item, item]

mutual

/-- Where no element below a tree is an item or relationships in another
language, no property becomes a reference. -/
theorem unreferring_reread
    {locale : Locale} (bound : List Space) {parent other : Option Kind}
    (tree : Element) (regular : Regular parent tree)
    (within : other = some .item → parent = some .item)
    (own : other = some .item → tree.label.Plain locale)
    (plain : ∀ label ∈ Tree.toListAll tree.children, label.Plain locale) :
    Unreferring locale (reread other (page (brief locale) bound tree)) := by
  cases tree with
  | node label children =>
      obtain ⟨-, -, below⟩ := (regular_iff ..).mp regular
      cases refers : referent? (brief locale) (.node label children) with
      | some item =>
          rw [page_of_reference refers, reread]
          exact ⟨referent?_leaf .., trivial⟩
      | none =>
          rw [page_of_direct refers, unreferring_iff, children_reread]
          constructor
          · -- what is a property now was one before, and its first item acts
            by_cases again :
                Kind.classify (spelling locale (.node label children)).1 other =
                  .property
            · have property := kind_of_reread regular within own again
              exact referent?_reread refers property below plain _
            · apply referent?_of_kind
              rw [kind_reread]
              exact again
          · apply unreferringAll_rereadAll _ children below _ plain
            intro item
            exact congrArg some
              (kind_of_reread_item regular (Option.some.inj item))

theorem unreferringAll_rereadAll
    {locale : Locale} (bound : List Space) {parent other : Option Kind}
    (trees : List Element) (regular : RegularAll parent trees)
    (within : other = some .item → parent = some .item)
    (plain : ∀ label ∈ Tree.toListAll trees, label.Plain locale) :
    UnreferringAll locale
      (rereadAll other (pages (brief locale) bound trees)) := by
  cases trees with
  | nil => trivial
  | cons tree rest =>
      rw [RegularAll] at regular
      rw [Tree.toListAll, List.forall_mem_append] at plain
      obtain ⟨label, children⟩ := tree
      rw [Tree.toList, List.forall_mem_cons] at plain
      exact
        ⟨unreferring_reread bound _ regular.1 within (fun _ => plain.1.1)
            plain.1.2,
          unreferringAll_rereadAll bound rest regular.2 within plain.2⟩

end

mutual

/-- Names that were changed are not names of items or of relationships. -/
theorem plain_reread
    (form : Form) (bound : List Space) (parent : Option Kind)
    (tree : Element) :
    ∀ label ∈ (reread parent (page form bound tree)).toList,
      label.Plain form.locale := by
  cases tree with
  | node label children =>
      have foreignAgain :=
        @isForeign_reread form bound (.node label children) form.locale parent
      rw [page, reread, Tree.toList, List.forall_mem_cons]
      constructor
      · intro foreign
        have own := (foreignAgain []).symm.trans foreign
        dsimp only [tagOf]
        rw [spelling_of_foreign own]
        exact ⟨foreign_ne (by decide), foreign_ne (by decide)⟩
      · cases referent? form (.node label children) with
        | some item => exact nofun
        | none => exact plain_rereadAll form _ _ children

theorem plain_rereadAll
    (form : Form) (bound : List Space) (parent : Option Kind)
    (trees : List Element) :
    ∀ label ∈ Tree.toListAll (rereadAll parent (pages form bound trees)),
      label.Plain form.locale := by
  cases trees with
  | nil => exact nofun
  | cons tree rest =>
      rw [pages, rereadAll, Tree.toListAll, List.forall_mem_append]
      exact
        ⟨plain_reread form bound parent tree,
          plain_rereadAll form bound parent rest⟩

end

/-! ## Elements of a document -/

section

variable {document : Document}

mutual

theorem unreferring_of_outline
    (linked : document.Linked) (locale : Locale) (outline : Tree NodeId)
    {id : NodeId} (same : document.outline id = outline) :
    Unreferring locale (document.tree id) ↔
      ∀ element ∈ outline.toList,
        referent? (brief locale) (document.tree element) = none := by
  cases outline with
  | node place below =>
      rw [linked.outline_eq] at same
      obtain ⟨rfl, following⟩ := Tree.node.inj same
      rw [unreferring_iff, Tree.toList, List.forall_mem_cons,
        ← unreferringAll_of_outlines linked locale below following]
      rw [linked.tree_eq id]
      rfl

theorem unreferringAll_of_outlines
    (linked : document.Linked) (locale : Locale)
    (outlines : List (Tree NodeId)) {ids : List NodeId}
    (same : ids.map document.outline = outlines) :
    UnreferringAll locale (ids.map document.tree) ↔
      ∀ element ∈ Tree.toListAll outlines,
        referent? (brief locale) (document.tree element) = none := by
  cases outlines with
  | nil =>
      rw [List.map_eq_nil_iff] at same
      rw [same]
      exact iff_of_true trivial nofun
  | cons outline rest =>
      obtain ⟨id, others, rfl, first, following⟩ :=
        List.map_eq_cons_iff.mp same
      rw [List.map_cons, UnreferringAll, Tree.toListAll,
        List.forall_mem_append,
        unreferring_of_outline linked locale outline first,
        unreferringAll_of_outlines linked locale rest following]

end

/-- No element of a tree is written as a reference if and only if no element
from its root on is. -/
theorem Linked.unreferring_tree
    (linked : document.Linked) (locale : Locale) (id : NodeId) :
    Unreferring locale (document.tree id) ↔
      ∀ element ∈ (document.outline id).toList,
        referent? (brief locale) (document.tree element) = none :=
  unreferring_of_outline linked locale _ rfl

/-- What holds of every element below another holds of every label below the
root of its tree. -/
theorem Linked.forall_mem_below
    (linked : document.Linked) {id : NodeId} {property : Label → Prop}
    (holds : ∀ child ∈ document.children id,
      ∀ element ∈ (document.outline child).toList,
        property (document.label element)) :
    ∀ label ∈ Tree.toListAll (document.tree id).children, property label := by
  intro label member
  rw [linked.tree_eq, Tree.children] at member
  obtain ⟨tree, isTree, within⟩ := exists_of_mem_toListAll member
  obtain ⟨child, isChild, rfl⟩ := List.mem_map.mp isTree
  exact forall_mem_tree.mpr (holds child isChild) label within

/-! ## The second text -/

/-- The document that is read back of what an element is written as. -/
def copyOf (document : Document) (stored : Bool) (id : NodeId) : Document :=
  ofTrees document.locale stored [document.rereading false id]

theorem tree_copyOf
    (document : Document) (stored : Bool) (id : NodeId) :
    (document.copyOf stored id).tree 0 = document.rereading false id :=
  tree_ofTrees _ _ (valid_rereading ..)

/-- What is read back of a regular tree is regular and can be written
again. -/
theorem regular_copyOf
    {id : NodeId} {parent : Option Kind}
    (regular : Regular parent (document.tree id)) (stored : Bool) :
    Regular none ((document.copyOf stored id).tree 0) := by
  rw [tree_copyOf]
  exact regular_reread _ _ (lawful_page _ _ _ regular.named)

/-- The second text is there, and is the first if and only if no element that
is read back is written as a reference. -/
theorem exists_second
    {id : NodeId} {parent : Option Kind}
    (regular : Regular parent (document.tree id)) {text : String}
    (written : document.toAml false id = .ok text) (stored : Bool) :
    ∃ again,
      (document.copyOf stored id).toAml false 0 = .ok again ∧
        (again = text ↔
          Unreferring document.locale
            ((document.copyOf stored id).tree 0)) := by
  have writable := writable_of_toAml written
  have shape := tree_copyOf document stored id
  have named := (regular_copyOf regular stored).named
  have second :
      Writable (brief document.locale)
        ((document.copyOf stored id).tree 0) := by
    rw [shape]
    exact writable_reread _ _ _ writable
  obtain ⟨again, writtenAgain, readAgain⟩ :=
    exists_toAml named second document.locale stored
  refine ⟨again, writtenAgain, ?_, ?_⟩
  · rintro rfl
    -- one text is read as one tree, so the second page is as large as it
    have readBack :=
      parse_toAml regular.named written document.locale stored
    have copies := Except.ok.inj (readBack.symm.trans readAgain)
    have trees :
        document.rereading false id =
          (document.copyOf stored id).rereading false 0 := by
      have roots := congrArg (fun copy => copy.tree 0) copies
      rwa [tree_ofTrees _ _ (valid_rereading ..),
        tree_ofTrees _ _ (valid_rereading ..)] at roots
    have sizes := congrArg Tree.size trees
    rw [← shape, rereading, size_reread] at sizes
    exact unreferring_of_size _ sizes.le
  · intro direct
    have samePage :
        page (brief document.locale) []
            ((document.copyOf stored id).tree 0) =
          page (brief document.locale) [] (document.tree id) := by
      rw [shape] at direct ⊢
      exact page_reread [] none _ direct
    have same :
        (document.copyOf stored id).toAml false 0 =
          document.toAml false id := by
      rw [toAml_eq writable, ← samePage]
      exact toAml_eq second
    rw [writtenAgain, written] at same
    exact Except.ok.inj same

theorem unreferring_rereading
    {id : NodeId} {parent : Option Kind}
    (regular : Regular parent (document.tree id))
    (plain : ∀ label ∈ Tree.toListAll (document.tree id).children,
      label.Plain document.locale) :
    Unreferring document.locale (document.rereading false id) :=
  @unreferring_reread _ [] parent none _ regular nofun nofun plain

/-- Elements that are read back are not items or relationships in another
language. -/
theorem plain_copyOf
    (document : Document) (stored : Bool) (id : NodeId) :
    ∀ label ∈
        Tree.toListAll ((document.copyOf stored id).tree 0).children,
      label.Plain document.locale := by
  have all :=
    plain_reread (brief document.locale) [] none (document.tree id)
  rw [tree_copyOf, rereading]
  generalize reread none _ = tree at all
  obtain ⟨label, children⟩ := tree
  rw [Tree.toList, List.forall_mem_cons] at all
  exact all.2

/-- Whether a text is written again when it is read back. -/
def Stable (locale : Locale) (stored : Bool) (text : String) : Prop :=
  ∃ copy root,
    parse .unlimited locale stored text = .ok copy ∧
      copy.roots = [root] ∧ copy.toAml false root = .ok text

theorem stable_of_unreferring
    {id : NodeId} {parent : Option Kind}
    (regular : Regular parent (document.tree id)) {text : String}
    (written : document.toAml false id = .ok text) (stored : Bool)
    (direct : Unreferring document.locale (document.rereading false id)) :
    Stable document.locale stored text := by
  obtain ⟨again, writtenAgain, same⟩ := exists_second regular written stored
  rw [tree_copyOf] at same
  rw [same.mpr direct] at writtenAgain
  exact
    ⟨_, 0, parse_toAml regular.named written _ stored,
      roots_ofTrees _ _ (valid_rereading ..), writtenAgain⟩

theorem locale_parse
    {limits : Markup.Limits} {locale : Locale} {stored : Bool}
    {text : String} (read : parse limits locale stored text = .ok document) :
    document.locale = locale := by
  rw [parse] at read
  split at read
  · cases read
  · cases read
    rfl

end

/-- What an element of a document that was read is written as is read back as
one tree and written again.  The second text is the first if and only if no
element is written as a reference that was not one before.  It is the first
where no item and no relationships below the element are in another language,
and is written again itself in any case. -/
theorem written_again
    {limits : Markup.Limits} {locale : Locale} {stored : Bool}
    {source : String} {document : Document}
    (read : parse limits locale stored source = .ok document) {id : NodeId}
    (known : id < document.nodes.size) {text : String}
    (written : document.toAml false id = .ok text) (kept : Bool) :
    ∃ copy root again,
      parse .unlimited locale kept text = .ok copy ∧
        copy.roots = [root] ∧ copy.toAml false root = .ok again ∧
        (again = text ↔
          ∀ element ∈ (copy.outline root).toList,
            referent? (brief locale) (copy.tree element) = none) ∧
        ((∀ child ∈ document.children id,
            ∀ element ∈ (document.outline child).toList,
              (document.label element).Plain locale) →
          again = text) ∧
        Stable locale kept again := by
  obtain ⟨parent, regular⟩ := regular_parse read known
  have linked := linked_parse read
  obtain rfl := locale_parse read
  obtain ⟨again, writtenAgain, same⟩ := exists_second regular written kept
  have valid := document.valid_rereading false id
  have copyLinked : (document.copyOf kept id).Linked :=
    linked_ofTrees _ _ valid
  refine ⟨document.copyOf kept id, 0, again,
    parse_toAml regular.named written _ kept, roots_ofTrees _ _ valid,
    writtenAgain, ?_, ?_, ?_⟩
  · rw [same, copyLinked.unreferring_tree]
  · intro plain
    rw [same, tree_copyOf]
    exact unreferring_rereading regular (linked.forall_mem_below plain)
  · have second := regular_copyOf regular kept
    apply stable_of_unreferring second writtenAgain
    exact unreferring_rereading second (document.plain_copyOf kept id)

/-- A part in an envelope, with a German name and an owner. -/
def partInEnvelope : String :=
  "<SOAP-ENV:Body><Item type='Part'><name xml:lang='de'>Teil</name>" ++
    "<owner><Item type='User' id='7'/></owner></Item></SOAP-ENV:Body>"

theorem written_again_of_part :
    ∃ document text,
      parse .standard english true partInEnvelope = .ok document ∧
        0 < document.nodes.size ∧ document.toAml false 0 = .ok text ∧
        ∃ copy root again,
          parse .unlimited english false text = .ok copy ∧
            copy.roots = [root] ∧ copy.toAml false root = .ok again ∧
            (again = text ↔
              ∀ element ∈ (copy.outline root).toList,
                referent? (brief english) (copy.tree element) = none) ∧
            ((∀ child ∈ document.children 0,
                ∀ element ∈ (document.outline child).toList,
                  (document.label element).Plain english) →
              again = text) ∧
            Stable english false again := by
  have first :
      (parse .standard english true partInEnvelope).toOption.map
          (fun document =>
            (document.nodes.size, (document.toAml false 0).toOption)) =
        some
          (5,
            some
              ("<SOAP-ENV:Body xmlns:SOAP-ENV=" ++
                "\"http://schemas.xmlsoap.org/soap/envelope/\">" ++
                "<Item type=\"Part\"><i18n:name " ++
                "xmlns:i18n=\"http://www.aras.com/I18N\" " ++
                "xml:lang=\"de\">Teil</i18n:name>" ++
                "<owner type=\"User\">7</owner></Item>" ++
                "</SOAP-ENV:Body>")) := by
    decide +kernel
  obtain ⟨document, read, facts⟩ := Option.map_eq_some_iff.mp first
  obtain ⟨size, written⟩ := Prod.mk.inj facts
  have known : 0 < document.nodes.size :=
    Nat.lt_of_lt_of_eq (by decide) size.symm
  exact
    ⟨document, _, eq_ok_of_toOption read, known, eq_ok_of_toOption written,
      written_again (eq_ok_of_toOption read) known
        (eq_ok_of_toOption written) false⟩

/-- Relationships in another language. -/
def foreignRelationships : String :=
  "<Item><Relationships xml:lang='de'>" ++
    "<Item type='Part' id='1'/></Relationships></Item>"

/-- Relationships in another language as they are written. -/
def writtenRelationships : String :=
  "<Item><i18n:Relationships xmlns:i18n=\"http://www.aras.com/I18N\"" ++
    " xml:lang=\"de\"><Item type=\"Part\" id=\"1\" />" ++
    "</i18n:Relationships></Item>"

/-- The same relationships written again: they are a property now. -/
def referringRelationships : String :=
  "<Item><i18n:Relationships xmlns:i18n=\"http://www.aras.com/I18N\"" ++
    " xml:lang=\"de\" type=\"Part\">1</i18n:Relationships></Item>"

/-- Relationships in another language are read back as a property of the item
around them, and so the first item among them is only referred to. -/
theorem relationships_become_property :
    ¬ ∀ (locale : Locale) (stored kept : Bool) (source text : String)
        (document : Document) (id : NodeId),
      parse .standard locale stored source = .ok document →
        id < document.nodes.size → document.toAml false id = .ok text →
        Stable locale kept text := by
  intro stable
  have first :
      (parse .standard english false foreignRelationships).toOption.map
          (fun document =>
            (document.nodes.size, (document.toAml false 0).toOption)) =
        some (3, some writtenRelationships) := by
    decide +kernel
  have second :
      (parse .unlimited english false writtenRelationships).toOption.map
          (fun copy => (copy.roots, (copy.toAml false 0).toOption)) =
        some ([0], some referringRelationships) := by
    decide +kernel
  obtain ⟨document, read, facts⟩ := Option.map_eq_some_iff.mp first
  obtain ⟨size, written⟩ := Prod.mk.inj facts
  have known : 0 < document.nodes.size :=
    Nat.lt_of_lt_of_eq (by decide) size.symm
  obtain ⟨copy, root, readCopy, roots, again⟩ :=
    stable english false false _ _ document 0 (eq_ok_of_toOption read) known
      (eq_ok_of_toOption written)
  rw [readCopy] at second
  obtain ⟨place, rewritten⟩ := Prod.mk.inj (Option.some.inj second)
  rw [roots] at place
  cases place
  rw [again] at rewritten
  exact absurd (Option.some.inj rewritten) (by decide)

end AmlExchange.Document
