import AmlExchange.Proofs.Document.Roles

/-!
# A page read back and written again

What was written can be read back and written again.  The attributes that bind
namespaces come back where they were, and a name that was changed is not
changed again.  So the second page is the first, unless it has a reference
where an element was written in full: then it is smaller (`page_reread`,
`unreferring_of_size`).
-/

namespace AmlExchange.Document

/-- The way a tree is written with references. -/
abbrev brief (locale : Locale) : Form :=
  ⟨locale, false⟩

/-! ## Trees without references -/

mutual

/-- Whether no element of a tree is written as a reference. -/
def Unreferring (locale : Locale) : Element → Prop
  | .node label children =>
      referent? (brief locale) (.node label children) = none ∧
        UnreferringAll locale children

/-- Whether no element of some trees is written as a reference. -/
def UnreferringAll (locale : Locale) : List Element → Prop
  | [] => True
  | tree :: rest => Unreferring locale tree ∧ UnreferringAll locale rest

end

mutual

theorem size_page
    (form : Form) (bound : List Space) (tree : Element) :
    (page form bound tree).size ≤ tree.size := by
  cases tree with
  | node label children =>
      rw [page, Tree.size, Tree.size]
      cases referent? form (.node label children) with
      | some item => exact Nat.succ_le_succ (Nat.zero_le _)
      | none => exact Nat.succ_le_succ (sizeAll_pages ..)

/-- A page is not larger than the tree that is written. -/
theorem sizeAll_pages
    (form : Form) (bound : List Space) (trees : List Element) :
    Tree.sizeAll (pages form bound trees) ≤ Tree.sizeAll trees := by
  cases trees with
  | nil => exact Nat.le_refl 0
  | cons tree rest =>
      exact Nat.add_le_add (size_page ..) (sizeAll_pages ..)

end

mutual

theorem unreferring_of_size
    {locale : Locale} {bound : List Space} (tree : Element)
    (full : tree.size ≤ (page (brief locale) bound tree).size) :
    Unreferring locale tree := by
  cases tree with
  | node label children =>
      rw [page, Tree.size, Tree.size] at full
      rw [Unreferring]
      cases refers : referent? (brief locale) (.node label children) with
      | some item =>
          -- a reference leaves out what it refers to
          rw [refers] at full
          cases children with
          | nil => cases (referent?_leaf ..).symm.trans refers
          | cons child rest =>
              have positive := size_pos child
              simp only [Tree.sizeAll] at full
              omega
      | none =>
          rw [refers] at full
          exact ⟨rfl, unreferringAll_of_size children
            (Nat.le_of_succ_le_succ full)⟩

/-- Where a page is as large as the tree that is written, it has no
references. -/
theorem unreferringAll_of_size
    {locale : Locale} {bound : List Space} (trees : List Element)
    (full :
      Tree.sizeAll trees ≤ Tree.sizeAll (pages (brief locale) bound trees)) :
    UnreferringAll locale trees := by
  cases trees with
  | nil => trivial
  | cons tree rest =>
      rw [pages, Tree.sizeAll, Tree.sizeAll] at full
      have first := size_page (brief locale) bound tree
      have others := sizeAll_pages (brief locale) bound rest
      exact
        ⟨@unreferring_of_size locale bound tree (by omega),
          @unreferringAll_of_size locale bound rest (by omega)⟩

end

/-! ## Elements read back -/

theorem find?_visible
    {name : String} (shown : Markup.space? name ≠ some "xmlns")
    (attributes : List (String × String)) :
    Fields.find? name (visible attributes) =
      Fields.find? name attributes := by
  induction attributes with
  | nil => rfl
  | cons field rest ih =>
      by_cases present : Markup.space? field.1 = some "xmlns"
      · have other : field.1 ≠ name := by
          rintro rfl
          exact shown present
        rw [visible, List.filter_cons_of_neg (by simpa using present),
          ← visible, ih, Fields.find?, if_neg other]
      · rw [visible, List.filter_cons_of_pos (by simpa using present),
          ← visible, Fields.find?, Fields.find?, ih]

section

variable {form : Form} {bound : List Space} {element : Element}

/-- An attribute that is written is one of the element, or else one that a
reference adds. -/
theorem find?_attributes_tagOf
    {name : String} (shown : Markup.space? name ≠ some "xmlns") :
    Fields.find? name (tagOf form bound element).attributes =
      (element.attribute? name).or
        (Fields.find? name (addedFields form element)) := by
  have unbinding :
      Fields.find? name
          ((unbound bound (spelling form.locale element).2).map fun space =>
            (space.binding, space.uri)) = none := by
    rw [Fields.find?_eq_none_iff, List.map_map, List.mem_map]
    rintro ⟨space, -, rfl⟩
    exact shown (space?_binding space)
  rw [tagOf, Fields.find?_append, writtenFields, Fields.find?_append,
    unbinding, find?_visible shown, Option.none_or]
  rfl

/-- An attribute of an element that does not depend on how it is written. -/
theorem find?_tagOf
    {name : String} (shown : Markup.space? name ≠ some "xmlns")
    (notType : name ≠ AttributeName.type)
    (notKeyedName : name ≠ AttributeName.keyedName) :
    Fields.find? name (tagOf form bound element).attributes =
      element.attribute? name := by
  have unadded : Fields.find? name (addedFields form element) = none := by
    rw [Fields.find?_eq_none_iff, List.mem_map]
    rintro ⟨field, member, rfl⟩
    rcases (mem_addedFields member).1 with same | same
    · exact notType same
    · exact notKeyedName same
  rw [find?_attributes_tagOf shown, unadded, Option.or_none]

/-- The element that is read back of a tag has its attributes. -/
theorem attribute?_reread
    {name : String} (shown : Markup.space? name ≠ some "xmlns")
    (notType : name ≠ AttributeName.type)
    (notKeyedName : name ≠ AttributeName.keyedName)
    (parent : Option Kind) (children : List (Tree Tag)) :
    (reread parent (.node (tagOf form bound element) children)).attribute?
        name =
      element.attribute? name := by
  rw [Element.attribute?, Fields.get?, entries_reread (nodup_tagOf ..),
    find?_tagOf shown notType notKeyedName]

/-- Whether a value is in another language is seen when it is read back. -/
theorem isForeign_reread
    (locale : Locale) (parent : Option Kind) (children : List (Tree Tag)) :
    isForeign locale
        (reread parent (.node (tagOf form bound element) children)) =
      isForeign locale element := by
  rw [isForeign, isForeign,
    attribute?_reread (by decide) (by decide) (by decide)]

/-- A name within a namespace is cut at the colon after the namespace. -/
theorem cutAt?_qualify
    (space : Space) (name : String) :
    Text.cutAt? [':'] (space.qualify name).toList =
      some (space.name.toList, name.toList) := by
  rw [Space.qualify, String.toList_append, String.toList_append]
  cases space <;> simp [Space.name, Text.cutAt?]

theorem localName_qualify
    (space : Space) (name : String) :
    Markup.localName (space.qualify name) = name := by
  rw [Markup.localName, cutAt?_qualify]
  exact String.ofList_toList

theorem space?_qualify
    (space : Space) (name : String) :
    Markup.space? (space.qualify name) = some space.name := by
  rw [Markup.space?, cutAt?_qualify]
  cases space <;> rfl

theorem writtenName_congr
    {locale : Locale} {first second : Element}
    (foreign : isForeign locale first = isForeign locale second)
    (name : first.label.name = second.label.name) :
    writtenName locale first = writtenName locale second := by
  rw [writtenName, writtenName, foreign, name]

/-- A name is changed once only. -/
theorem writtenName_reread
    (parent : Option Kind) (children : List (Tree Tag)) :
    writtenName form.locale
        (reread parent (.node (tagOf form bound element) children)) =
      writtenName form.locale element := by
  have same :=
    @isForeign_reread form bound element form.locale parent children
  cases foreign : isForeign form.locale element with
  | true =>
      rw [foreign] at same
      rw [writtenName, writtenName, if_pos same, if_pos foreign, reread]
      simp only [Tree.label, tagOf, spelling_of_foreign foreign,
        localName_qualify]
  | false =>
      apply writtenName_congr same
      rw [reread]
      exact spelling_of_native foreign

theorem spelling_reread
    (parent : Option Kind) (children : List (Tree Tag)) :
    spelling form.locale
        (reread parent (.node (tagOf form bound element) children)) =
      spelling form.locale element := by
  cases spelt : writtenName form.locale element with
  | ok written =>
      rw [spelling_eq spelt, spelling_eq ((writtenName_reread ..).trans spelt)]
  | error fault =>
      -- what cannot be written keeps its name, and so it still cannot
      have name : (spelling form.locale element).2 = none := by
        rw [spelling, spelt]
      rw [spelling, writtenName_reread, spelt, reread]
      exact Prod.ext rfl name.symm

theorem visible_addedFields :
    visible (addedFields form element) = addedFields form element := by
  rw [visible, List.filter_eq_self]
  intro field member
  simp [space?_addedFields member]

/-- What is read back of a tag is written as the same tag, unless it is a
reference. -/
theorem tagOf_reread
    {parent : Option Kind} {children : List (Tree Tag)}
    (direct : referent? form
      (reread parent (.node (tagOf form bound element) children)) = none)
    (emptied : children ≠ [] → writtenText form element = "") :
    tagOf form bound
        (reread parent (.node (tagOf form bound element) children)) =
      tagOf form bound element := by
  have fields :
      writtenFields form.locale bound
          (reread parent (.node (tagOf form bound element) children)) =
        (tagOf form bound element).attributes := by
    rw [writtenFields, spelling_reread, entries_reread (nodup_tagOf ..),
      tagOf, visible_append, visible_writtenFields, visible_addedFields,
      writtenFields, List.append_assoc]
  have text :
      writtenText form
          (reread parent (.node (tagOf form bound element) children)) =
        (tagOf form bound element).text := by
    rw [writtenText, direct, Element.value?, reread]
    dsimp only [Tree.label, Tree.children, tagOf]
    cases children with
    | cons child rest =>
        rw [emptied (List.cons_ne_nil child rest)]
        simp [Value.isNull]
    | nil =>
        by_cases blank : writtenText form element = ""
        · simp [blank, Value.isNull]
        · simp [blank, Value.isNull, rereadAll]
  rw [tagOf, addedFields, direct, fields, text, spelling_reread,
    List.append_nil]
  rfl

end

theorem page_of_reference
    {form : Form} {element item : Element}
    (refers : referent? form element = some item) (bound : List Space) :
    page form bound element = .node (tagOf form bound element) [] := by
  obtain ⟨label, children⟩ := element
  rw [page, refers]

theorem page_of_direct
    {form : Form} {element : Element}
    (direct : referent? form element = none) (bound : List Space) :
    page form bound element =
      .node (tagOf form bound element)
        (pages form (unbound bound (spelling form.locale element).2 ++ bound)
          element.children) := by
  obtain ⟨label, children⟩ := element
  rw [page, direct]
  rfl

/-- No text is written beside pages. -/
theorem writtenText_of_pages
    {form : Form} {bound : List Space} {element : Element}
    (direct : referent? form element = none)
    (present : pages form bound element.children ≠ []) :
    writtenText form element = "" := by
  have parted : element.children ≠ [] :=
    fun leaf => present (congrArg (pages form bound) leaf)
  have valueless : element.value? form.locale = none := by
    simp [Element.value?, parted]
  rw [writtenText, direct, valueless]
  rfl

theorem unreferring_iff
    (locale : Locale) (element : Element) :
    Unreferring locale element ↔
      referent? (brief locale) element = none ∧
        UnreferringAll locale element.children := by
  obtain ⟨label, children⟩ := element
  rw [Unreferring]
  rfl

mutual

/-- A page that is read back without references is the same page again. -/
theorem page_reread
    {locale : Locale} (bound : List Space) (parent : Option Kind)
    (tree : Element)
    (direct : Unreferring locale
      (reread parent (page (brief locale) bound tree))) :
    page (brief locale) bound
        (reread parent (page (brief locale) bound tree)) =
      page (brief locale) bound tree := by
  cases tree with
  | node label children =>
      cases refers : referent? (brief locale) (.node label children) with
      | some item =>
          -- a reference is read back without children
          rw [page_of_reference refers] at direct ⊢
          obtain ⟨directRoot, -⟩ := (unreferring_iff ..).mp direct
          rw [page_of_direct directRoot, tagOf_reread directRoot nofun,
            children_reread]
          rfl
      | none =>
          rw [page_of_direct refers] at direct ⊢
          obtain ⟨directRoot, directBelow⟩ := (unreferring_iff ..).mp direct
          rw [children_reread] at directBelow
          rw [page_of_direct directRoot,
            tagOf_reread directRoot (writtenText_of_pages refers),
            spelling_reread, children_reread]
          exact congrArg _ (pages_reread _ _ children directBelow)

theorem pages_reread
    {locale : Locale} (bound : List Space) (parent : Option Kind)
    (trees : List Element)
    (direct : UnreferringAll locale
      (rereadAll parent (pages (brief locale) bound trees))) :
    pages (brief locale) bound
        (rereadAll parent (pages (brief locale) bound trees)) =
      pages (brief locale) bound trees := by
  cases trees with
  | nil => rfl
  | cons tree rest =>
      rw [pages, rereadAll, UnreferringAll] at direct
      rw [pages, rereadAll, pages, page_reread _ _ tree direct.1,
        pages_reread _ _ rest direct.2]

end

/-! ## What can be written again -/

theorem writable_iff
    (form : Form) (element : Element) :
    Writable form element ↔
      (∃ written, writtenName form.locale element = .ok written) ∧
        (∀ field ∈ element.label.attributes.entries, Permitted field.1) ∧
        (referent? form element = none →
          WritableAll form element.children) := by
  obtain ⟨label, children⟩ := element
  rw [Writable]
  rfl

theorem permitted_tagOf
    {form : Form} {bound : List Space} {element : Element}
    (permitted : ∀ field ∈ element.label.attributes.entries,
      Permitted field.1) :
    ∀ field ∈ (tagOf form bound element).attributes, Permitted field.1 := by
  intro field member space
  rcases List.mem_append.mp member with own | added
  · rcases mem_writtenFields own with ⟨binding, same⟩ | ⟨present, -⟩
    · rw [same, space?_binding]
      rintro ⟨⟩
      exact .inr rfl
    · exact permitted field present space
  · rw [space?_addedFields added]
    exact nofun

mutual

/-- What was written can be written again. -/
theorem writable_reread
    {form : Form} (bound : List Space) (parent : Option Kind)
    (tree : Element) (writable : Writable form tree) :
    Writable form (reread parent (page form bound tree)) := by
  cases tree with
  | node label children =>
      obtain ⟨⟨written, spelt⟩, permitted, below⟩ :=
        (writable_iff ..).mp writable
      rw [page, writable_iff, entries_reread (nodup_tagOf ..),
        children_reread]
      refine ⟨⟨written, (writtenName_reread ..).trans spelt⟩,
        permitted_tagOf permitted, fun _ => ?_⟩
      cases refers : referent? form (.node label children) with
      | some item => trivial
      | none => exact writable_rereadAll _ _ children (below refers)

theorem writable_rereadAll
    {form : Form} (bound : List Space) (parent : Option Kind)
    (trees : List Element) (writable : WritableAll form trees) :
    WritableAll form (rereadAll parent (pages form bound trees)) := by
  cases trees with
  | nil => trivial
  | cons tree rest =>
      rw [WritableAll] at writable
      exact
        ⟨writable_reread bound parent tree writable.1,
          writable_rereadAll bound parent rest writable.2⟩

end

mutual

/-- What is read back of lawful markup is regular. -/
theorem regular_reread
    (parent : Option Kind) (tree : Tree Tag) (lawful : (nodeOf tree).Lawful) :
    Regular parent (reread parent tree) := by
  cases tree with
  | node tag children =>
      obtain ⟨isName, areNames, distinct, -, below⟩ := lawful
      rw [reread, Regular, Label.Named, Fields.entries_ofList distinct]
      exact ⟨⟨isName, areNames⟩, rfl, regular_rereadAll _ children below⟩

theorem regular_rereadAll
    (parent : Option Kind) (trees : List (Tree Tag))
    (lawful : Markup.Node.LawfulAll (nodesOf trees)) :
    RegularAll parent (rereadAll parent trees) := by
  cases trees with
  | nil => trivial
  | cons tree rest =>
      exact
        ⟨regular_reread parent tree lawful.1,
          regular_rereadAll parent rest lawful.2⟩

end

end AmlExchange.Document
