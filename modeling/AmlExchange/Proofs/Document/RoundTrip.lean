import AmlExchange.Proofs.Document.Reachable
import AmlExchange.Proofs.Document.Rewriting

/-!
# A document read back from what it writes

Callers see of an element its name, its attributes and its value.  They see the
same of a tree that was written in full and is read back, element by element,
unless a value is in another language: its element changes its name.
-/

namespace AmlExchange

namespace Document

/-! ## What callers see -/

/-- What callers see of an element.  They take an empty value for none. -/
structure Sight where
  name : String
  /-- All attributes that bind no namespace. -/
  attributes : List (String × String)
  value : Option String

/-- What callers see of an element of a document. -/
def sight (document : Document) (id : NodeId) : Sight :=
  ⟨document.name id, visible (document.attributes id).entries,
    (document.value? id).filter fun text => !text.isEmpty⟩

/-- The text that callers see of a value. -/
def shownText (locale : Locale) (content : Value) : Option String :=
  (if content.isNull then none else some (locale.format content)).filter
    fun text => !text.isEmpty

/-- What callers see of an element with a label. -/
def Label.sight (locale : Locale) (label : Label) : Sight :=
  ⟨label.name, visible label.attributes.entries,
    shownText locale label.content⟩

theorem Linked.sight_eq
    {document : Document} (linked : document.Linked) (id : NodeId) :
    document.sight id = (document.label id).sight document.locale := by
  have value :
      document.value? id =
        if (document.label id).content.isNull then none
        else some (document.locale.format (document.label id).content) := by
    rw [value?, content]
    by_cases leaf : document.children id = []
    · simp [leaf]
    · have emptied : (document.label id).content = .null :=
        linked.content_of_children leaf
      simp [emptied, Value.isNull]
  rw [sight, value]
  rfl

mutual

theorem map_map
    {α β γ : Type} (first : α → β) (second : β → γ) (tree : Tree α) :
    (tree.map first).map second =
      tree.map fun label => second (first label) := by
  cases tree with
  | node label children =>
      rw [Tree.map, Tree.map, Tree.map, mapAll_mapAll]

theorem mapAll_mapAll
    {α β γ : Type} (first : α → β) (second : β → γ) (trees : List (Tree α)) :
    Tree.mapAll second (Tree.mapAll first trees) =
      Tree.mapAll (fun label => second (first label)) trees := by
  cases trees with
  | nil => rfl
  | cons tree rest =>
      rw [Tree.mapAll, Tree.mapAll, Tree.mapAll, map_map, mapAll_mapAll]

end

/-- What callers see of a tree. -/
theorem Linked.map_sight
    {document : Document} (linked : document.Linked) (id : NodeId) :
    (document.outline id).map document.sight =
      (document.tree id).map (Label.sight document.locale) := by
  rw [tree, map_map]
  exact congrArg (Tree.map · _) (funext linked.sight_eq)

/-! ## Pages read back -/

/-- What callers see of a tag. -/
def Tag.sight (tag : Tag) : Sight :=
  ⟨tag.name, visible tag.attributes,
    (some tag.text).filter fun text => !text.isEmpty⟩

theorem filter_getD
    (value : Option String) :
    (some (value.getD "")).filter (fun text => !text.isEmpty) =
      value.filter fun text => !text.isEmpty := by
  cases value <;> rfl

/-- A tag is read back as it looks, unless it has text beside children. -/
theorem sight_label_reread
    (other : Locale) (parent : Option Kind) {tag : Tag}
    {children : List (Tree Tag)}
    (distinct : (tag.attributes.map Prod.fst).Nodup)
    (emptied : children ≠ [] → tag.text = "") :
    (reread parent (.node tag children)).label.sight other = tag.sight := by
  have attributes := entries_reread distinct parent children
  rw [Label.sight, Tag.sight, attributes, reread]
  dsimp only [Tree.label]
  congr 1
  cases children with
  | cons child rest =>
      rw [emptied (List.cons_ne_nil child rest)]
      rfl
  | nil =>
      by_cases blank : tag.text = ""
      · rw [blank]
        rfl
      · simp [shownText, blank, Value.isNull]

theorem reread_node
    (parent : Option Kind) (tag : Tag) (children : List (Tree Tag)) :
    reread parent (.node tag children) =
      .node (reread parent (.node tag children)).label
        (rereadAll (some (.classify tag.name parent)) children) := by
  rw [reread]
  rfl

mutual

/-- Pages are read back as they look. -/
theorem sight_reread_page
    (form : Form) (bound : List Space) (other : Locale)
    (parent : Option Kind) (tree : Element) :
    (reread parent (page form bound tree)).map (Label.sight other) =
      (page form bound tree).map Tag.sight := by
  cases tree with
  | node label children =>
      cases refers : referent? form (.node label children) with
      | some item =>
          rw [page_of_reference refers, reread_node, Tree.map, Tree.map,
            sight_label_reread other parent (nodup_tagOf ..) nofun]
          rfl
      | none =>
          rw [page_of_direct refers, reread_node, Tree.map, Tree.map,
            sight_label_reread other parent (nodup_tagOf ..)
              (writtenText_of_pages refers),
            Tree.children, sight_rereadAll_pages]

theorem sight_rereadAll_pages
    (form : Form) (bound : List Space) (other : Locale)
    (parent : Option Kind) (trees : List Element) :
    Tree.mapAll (Label.sight other)
        (rereadAll parent (pages form bound trees)) =
      Tree.mapAll Tag.sight (pages form bound trees) := by
  cases trees with
  | nil => rfl
  | cons tree rest =>
      rw [pages, rereadAll, Tree.mapAll, Tree.mapAll, sight_reread_page,
        sight_rereadAll_pages]

end

/-! ## Trees in the language of the locale -/

/-- Whether an element is in the language of a locale, as far as it says. -/
def Label.Native (locale : Locale) (label : Label) : Prop :=
  ∀ language ∈ label.attributes.get? AttributeName.xmlLang,
    language = locale.language

instance (locale : Locale) (label : Label) :
    Decidable (label.Native locale) :=
  inferInstanceAs
    (Decidable (∀ language ∈ label.attributes.get? AttributeName.xmlLang,
      language = locale.language))

theorem isForeign_eq_true_iff
    {locale : Locale} {element : Element} :
    isForeign locale element = true ↔
      ∃ language ∈ element.attribute? AttributeName.xmlLang,
        language ≠ locale.language := by
  unfold isForeign
  cases element.attribute? AttributeName.xmlLang <;> simp

theorem isForeign_eq_false
    {locale : Locale} {label : Label} (native : label.Native locale)
    (children : List Element) :
    isForeign locale (.node label children) = false := by
  rw [← Bool.not_eq_true, isForeign_eq_true_iff]
  rintro ⟨language, given, differs⟩
  exact differs (native language given)

theorem referent?_expanded
    (locale : Locale) (element : Element) :
    referent? ⟨locale, true⟩ element = none :=
  rfl

/-- The tag of an element that is written in full looks as the element. -/
theorem sight_tagOf_expanded
    (locale : Locale) (bound : List Space) {label : Label}
    {children : List Element}
    (valid : children ≠ [] → label.content = .null)
    (native : label.Native locale) :
    (tagOf ⟨locale, true⟩ bound (.node label children)).sight =
      label.sight locale := by
  have name :
      (spelling locale (.node label children)).1 = label.name :=
    spelling_of_native (isForeign_eq_false native children)
  have value :
      Element.value? locale (.node label children) =
        if label.content.isNull then none
        else some (locale.format label.content) := by
    rw [Element.value?]
    cases children with
    | nil => simp [Tree.label, Tree.children]
    | cons child rest =>
        simp [Tree.label, valid (List.cons_ne_nil child rest), Value.isNull]
  rw [Tag.sight, tagOf, addedFields, writtenText, referent?_expanded]
  dsimp only
  rw [List.append_nil, visible_writtenFields, name, filter_getD, value]
  rfl

mutual

/-- A page of a tree that is written in full looks as the tree. -/
theorem sight_page_expanded
    (locale : Locale) (bound : List Space) (tree : Element)
    (valid : Valid tree)
    (native : ∀ label ∈ tree.toList, label.Native locale) :
    (page ⟨locale, true⟩ bound tree).map Tag.sight =
      tree.map (Label.sight locale) := by
  cases tree with
  | node label children =>
      rw [Tree.toList, List.forall_mem_cons] at native
      rw [Valid] at valid
      rw [page_of_direct (referent?_expanded ..), Tree.map, Tree.map,
        sight_tagOf_expanded locale bound valid.1 native.1, Tree.children,
        sight_pages_expanded _ _ children valid.2 native.2]

theorem sight_pages_expanded
    (locale : Locale) (bound : List Space) (trees : List Element)
    (valid : ValidAll trees)
    (native : ∀ label ∈ Tree.toListAll trees, label.Native locale) :
    Tree.mapAll Tag.sight (pages ⟨locale, true⟩ bound trees) =
      Tree.mapAll (Label.sight locale) trees := by
  cases trees with
  | nil => rfl
  | cons tree rest =>
      rw [Tree.toListAll, List.forall_mem_append] at native
      rw [ValidAll] at valid
      rw [pages, Tree.mapAll, Tree.mapAll,
        sight_page_expanded _ _ tree valid.1 native.1,
        sight_pages_expanded _ _ rest valid.2 native.2]

end

/-- What is read back of a tree that is written in full looks the same. -/
theorem sight_reread
    (locale other : Locale) (bound : List Space) (parent : Option Kind)
    (tree : Element) (valid : Valid tree)
    (native : ∀ label ∈ tree.toList, label.Native locale) :
    (reread parent (page ⟨locale, true⟩ bound tree)).map (Label.sight other) =
      tree.map (Label.sight locale) := by
  rw [sight_reread_page, sight_page_expanded locale bound tree valid native]

/-! ## Documents -/

/-- A tree of names in the language of the locale that is written in full is
read back as the only tree of a document, and looks the same there. -/
theorem read_written_tree
    {document : Document} (reachable : document.Reachable) {id : NodeId}
    (named : ∀ element ∈ (document.outline id).toList,
      (document.label element).Named)
    (native : ∀ element ∈ (document.outline id).toList,
      (document.label element).Native document.locale)
    {text : String} (written : document.toAml true id = .ok text)
    (locale : Locale) (stored : Bool) :
    ∃ copy root,
      parse .unlimited locale stored text = .ok copy ∧
        copy.roots = [root] ∧
        (copy.outline root).map copy.sight =
          (document.outline id).map document.sight := by
  have linked := reachable.linked
  rw [← forall_mem_tree] at named native
  have valid := document.valid_rereading true id
  refine ⟨_, 0, parse_toAml named written locale stored,
    roots_ofTrees locale stored valid, ?_⟩
  rw [(linked_ofTrees locale stored valid).map_sight,
    tree_ofTrees locale stored valid, linked.map_sight]
  exact sight_reread _ _ _ _ _ (linked.valid_tree id) native

/-- An item with a count, which says that it is English. -/
def partWithCount : Document :=
  [.createItem "Part" none, .setProperty 0 "count" (.value (.int 5)),
    .setAttribute 1 "note" "x<\"&\ty",
    .setAttribute 1 "xml:lang" "en"].foldl afterCall (new english)

theorem read_written_tree_of_part :
    ∃ text copy root,
      partWithCount.toAml true 0 = .ok text ∧
        parse .unlimited partWithCount.locale true text = .ok copy ∧
        copy.roots = [root] ∧
        (copy.outline root).map copy.sight =
          (partWithCount.outline 0).map partWithCount.sight := by
  have outline : (partWithCount.outline 0).toList = [0, 1] := by
    decide +kernel
  have reachable : partWithCount.Reachable := (Reachable.new _).calls _
  have named :
      ∀ element ∈ (partWithCount.outline 0).toList,
        (partWithCount.label element).Named := by
    rw [outline]
    decide +kernel
  have native :
      ∀ element ∈ (partWithCount.outline 0).toList,
        (partWithCount.label element).Native partWithCount.locale := by
    rw [outline]
    decide +kernel
  have written :
      (partWithCount.toAml true 0).toOption =
        some
          ("<Item type=\"Part\"><count note=\"x&lt;&quot;&amp;&#x9;y\"" ++
            " xml:lang=\"en\">5</count></Item>") := by
    decide +kernel
  obtain ⟨copy, root, read⟩ :=
    read_written_tree reachable named native
      (eq_ok_of_toOption written) partWithCount.locale true
  exact ⟨_, copy, root, eq_ok_of_toOption written, read⟩

end Document

end AmlExchange
