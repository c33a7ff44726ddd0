import AmlExchange.Proofs.Document.Reachable
import AmlExchange.Proofs.Document.Rewriting

/-!
# Namespaces of written elements

A name that stands for a namespace is bound at the outermost element that uses
it and holds for all that is within.  So every such name is bound where it is
used and none is bound again (`namespaces_bound_once`).  The invariant is that
the namespaces known to be bound are those in scope, and it goes down the tree.
-/

namespace AmlExchange

theorem Space.name_injective :
    Function.Injective Space.name := by
  intro first second same
  cases first <;> cases second <;> first | rfl | exact absurd same (by decide)

theorem Space.localName_binding
    (space : Space) :
    Markup.localName space.binding = space.name := by
  cases space <;> decide

namespace Document

/-! ## Scopes -/

/-- The start tag of an element. -/
structure Heading where
  name : String
  attributes : List (String × String)

namespace Heading

/-- The names that a start tag binds, each with what it stands for. -/
def bindings (heading : Heading) : List (String × String) :=
  (heading.attributes.filter fun field =>
      Markup.space? field.1 = some "xmlns").map
    fun field => (Markup.localName field.1, field.2)

/-- Whether a start tag keeps to the namespaces of AML where some names are
bound already. -/
structure Sound (scope : List (String × String)) (heading : Heading) :
    Prop where
  /-- What stands before the colon of the name is bound to its namespace. -/
  bound :
    ∀ before, Markup.space? heading.name = some before →
      ∃ space : Space,
        before = space.name ∧
          (space.name, space.uri) ∈ heading.bindings ++ scope
  /-- What is bound is not in scope. -/
  fresh : ∀ binding ∈ heading.bindings, binding.1 ∉ scope.map Prod.fst
  distinct : (heading.bindings.map Prod.fst).Nodup
  /-- No attribute has a prefix but those that bind namespaces and those of
  `xml`. -/
  unprefixed :
    ∀ field ∈ heading.attributes, ∀ before,
      Markup.space? field.1 = some before →
        before = "xml" ∨
          ∃ space : Space, field = (space.binding, space.uri)

end Heading

mutual

/-- Whether all start tags of a tree keep to the namespaces of AML, each within
the scope of those around it. -/
def Scoped (scope : List (String × String)) : Tree Heading → Prop
  | .node heading children =>
      heading.Sound scope ∧ ScopedAll (heading.bindings ++ scope) children

/-- Whether all start tags of some trees keep to the namespaces of AML. -/
def ScopedAll (scope : List (String × String)) : List (Tree Heading) → Prop
  | [] => True
  | tree :: rest => Scoped scope tree ∧ ScopedAll scope rest

end

/-- The start tag that is written of an element. -/
def Tag.heading (tag : Tag) : Heading :=
  ⟨tag.name, tag.attributes⟩

/-- The start tag that an element was read from. -/
def Label.heading (label : Label) : Heading :=
  ⟨label.name, label.attributes.entries⟩

/-! ## Written start tags -/

/-- Namespaces in scope. -/
def scopeOf (bound : List Space) : List (String × String) :=
  bound.map fun space => (space.name, space.uri)

theorem mem_fst_scopeOf
    {bound : List Space} {space : Space} :
    space.name ∈ (scopeOf bound).map Prod.fst ↔ space ∈ bound := by
  rw [scopeOf, List.map_map]
  exact List.mem_map_of_injective Space.name_injective

section

variable {form : Form} {bound : List Space} {element : Element}

theorem space?_spelling
    {locale : Locale}
    (spelt : ∃ written, writtenName locale element = .ok written) :
    Markup.space? (spelling locale element).1 =
      (spelling locale element).2.map Space.name := by
  obtain ⟨written, spelt⟩ := spelt
  rw [spelling_eq spelt]
  rw [writtenName] at spelt
  split at spelt
  · cases spelt
    exact space?_qualify ..
  · split at spelt
    · next plain =>
        cases spelt
        exact plain
    · next space named =>
        split_ifs at spelt with envelope fault
        · cases spelt
          exact named.trans (congrArg some envelope)
        · cases spelt
          exact named.trans (congrArg some fault)

/-- An element binds the namespace of its name unless that is bound. -/
theorem bindings_tagOf :
    (tagOf form bound element).heading.bindings =
      scopeOf (unbound bound (spelling form.locale element).2) := by
  have plain (fields : List (String × String))
      (shown : visible fields = fields) :
      fields.filter (fun field =>
        Markup.space? field.1 = some "xmlns") = [] := by
    rw [List.filter_eq_nil_iff]
    intro field member
    rw [← shown] at member
    simpa using (List.mem_filter.mp member).2
  have binds (spaces : List Space) :
      (spaces.map fun space => (space.binding, space.uri)).filter
          (fun field => Markup.space? field.1 = some "xmlns") =
        spaces.map fun space => (space.binding, space.uri) := by
    rw [List.filter_eq_self, List.forall_mem_map]
    intro space _
    simp [space?_binding]
  rw [Heading.bindings, Tag.heading, tagOf]
  dsimp only
  rw [writtenFields, List.filter_append, List.filter_append, binds,
    plain _ (visible_visible _), plain _ visible_addedFields,
    List.append_nil, List.append_nil, List.map_map, scopeOf]
  exact List.map_congr_left fun space _ =>
    congrArg (·, space.uri) space.localName_binding

theorem mem_unbound_append
    (space : Space) :
    space ∈ unbound bound (some space) ++ bound := by
  rw [unbound]
  split
  · next known => exact List.contains_iff_mem.mp known
  · exact List.mem_cons_self

theorem not_mem_of_mem_unbound
    {space : Space} {used : Option Space}
    (member : space ∈ unbound bound used) :
    space ∉ bound := by
  cases used with
  | none => cases member
  | some used =>
      rw [unbound] at member
      split at member
      · cases member
      · next unknown =>
          cases List.mem_singleton.mp member
          exact fun known => unknown (List.contains_iff_mem.mpr known)

/-- An element that can be written keeps to the namespaces. -/
theorem sound_tagOf
    (spelt : ∃ written, writtenName form.locale element = .ok written)
    (permitted : ∀ field ∈ element.label.attributes.entries,
      Permitted field.1) :
    (tagOf form bound element).heading.Sound (scopeOf bound) := by
  constructor
  case bound =>
    intro before named
    have spaced := space?_spelling spelt
    rw [Tag.heading, tagOf] at named
    dsimp only at named
    rw [named] at spaced
    obtain ⟨space, belongs, rfl⟩ := Option.map_eq_some_iff.mp spaced.symm
    refine ⟨space, rfl, ?_⟩
    rw [bindings_tagOf, belongs, scopeOf, scopeOf, ← List.map_append]
    exact List.mem_map_of_mem (mem_unbound_append space)
  case fresh =>
    rw [bindings_tagOf, scopeOf, List.forall_mem_map]
    intro space member
    rw [mem_fst_scopeOf]
    exact not_mem_of_mem_unbound member
  case distinct =>
    rw [bindings_tagOf]
    cases (spelling form.locale element).2 with
    | none => exact List.nodup_nil
    | some space =>
        rw [unbound]
        split
        · exact List.nodup_nil
        · simp [scopeOf]
  case unprefixed =>
    intro field member before named
    rcases permitted_tagOf permitted field member before named
      with xml | binds
    · exact .inl xml
    · subst binds
      right
      rcases List.mem_append.mp member with own | added
      · rcases List.mem_append.mp own with binding | shown
        · obtain ⟨space, -, rfl⟩ := List.mem_map.mp binding
          exact ⟨space, rfl⟩
        · have hidden := (List.mem_filter.mp shown).2
          simp [named] at hidden
      · rw [space?_addedFields added] at named
        cases named

end

mutual

/-- All that is written of a tree keeps to the namespaces. -/
theorem scoped_page
    (form : Form) (bound : List Space) (tree : Element)
    (writable : Writable form tree) :
    Scoped (scopeOf bound) ((page form bound tree).map Tag.heading) := by
  cases tree with
  | node label children =>
      obtain ⟨spelt, permitted, below⟩ := (writable_iff ..).mp writable
      rw [page, Tree.map, Scoped]
      refine ⟨sound_tagOf spelt permitted, ?_⟩
      rw [bindings_tagOf, scopeOf, scopeOf, ← List.map_append]
      cases refers : referent? form (.node label children) with
      | some item => trivial
      | none => exact scoped_pages form _ children (below refers)

theorem scoped_pages
    (form : Form) (bound : List Space) (trees : List Element)
    (writable : WritableAll form trees) :
    ScopedAll (scopeOf bound)
      (Tree.mapAll Tag.heading (pages form bound trees)) := by
  cases trees with
  | nil => trivial
  | cons tree rest =>
      rw [WritableAll] at writable
      exact
        ⟨scoped_page form bound tree writable.1,
          scoped_pages form bound rest writable.2⟩

end

/-! ## Start tags that are read back -/

/-- Whether the names in a start tag are names. -/
def Heading.Named (heading : Heading) : Prop :=
  Markup.isName heading.name.toList = true ∧
    ∀ field ∈ heading.attributes, Markup.isName field.1.toList = true

instance (heading : Heading) :
    Decidable heading.Named :=
  inferInstanceAs
    (Decidable (Markup.isName heading.name.toList = true ∧
      ∀ field ∈ heading.attributes,
        Markup.isName field.1.toList = true))

mutual

/-- What is written is lawful markup if the names written are names. -/
theorem lawful_of_headings
    (form : Form) (bound : List Space) (tree : Element)
    (named : ∀ tag ∈ (page form bound tree).toList, tag.heading.Named) :
    (nodeOf (page form bound tree)).Lawful := by
  cases tree with
  | node label children =>
      rw [page, Tree.toList, List.forall_mem_cons] at named
      obtain ⟨own, below⟩ := named
      rw [page]
      refine ⟨own.1, own.2, nodup_tagOf .., trivial, ?_⟩
      cases refers : referent? form (.node label children) with
      | some item => trivial
      | none =>
          rw [refers] at below
          exact lawfulAll_of_headings form _ children below

theorem lawfulAll_of_headings
    (form : Form) (bound : List Space) (trees : List Element)
    (named :
      ∀ tag ∈ Tree.toListAll (pages form bound trees), tag.heading.Named) :
    Markup.Node.LawfulAll (nodesOf (pages form bound trees)) := by
  cases trees with
  | nil => trivial
  | cons tree rest =>
      rw [pages, Tree.toListAll, List.forall_mem_append] at named
      exact
        ⟨lawful_of_headings form bound tree named.1,
          lawfulAll_of_headings form bound rest named.2⟩

end

mutual

theorem heading_reread
    (parent : Option Kind) (tree : Tree Tag)
    (lawful : (nodeOf tree).Lawful) :
    (reread parent tree).map Label.heading = tree.map Tag.heading := by
  cases tree with
  | node tag children =>
      obtain ⟨-, -, distinct, -, below⟩ := lawful
      rw [reread, Tree.map, Tree.map, Label.heading, Tag.heading,
        Fields.entries_ofList distinct, heading_rereadAll _ children below]

theorem heading_rereadAll
    (parent : Option Kind) (trees : List (Tree Tag))
    (lawful : Markup.Node.LawfulAll (nodesOf trees)) :
    Tree.mapAll Label.heading (rereadAll parent trees) =
      Tree.mapAll Tag.heading trees := by
  cases trees with
  | nil => rfl
  | cons tree rest =>
      rw [rereadAll, Tree.mapAll, Tree.mapAll,
        heading_reread parent tree lawful.1,
        heading_rereadAll parent rest lawful.2]

end

/-- The text of an element is the markup of elements that keep to the
namespaces of AML: each name before the colon of an element's name is bound in
its scope, none is bound again within its scope, and besides these bindings no
attribute has a prefix but `xml`.  If the names written are names, these are
the elements that are read back. -/
theorem namespaces_bound_once
    {document : Document} {expanded : Bool} {id : NodeId} {text : String}
    (written : document.toAml expanded id = .ok text) :
    let tags := page ⟨document.locale, expanded⟩ [] (document.tree id)
    (Markup.Draft.of (nodeOf tags).instructions).toText = .ok text ∧
      Scoped [] (tags.map Tag.heading) ∧
      ((∀ tag ∈ tags.toList, tag.heading.Named) →
        ∀ (locale : Locale) (stored : Bool), ∃ copy root,
          parse .unlimited locale stored text = .ok copy ∧
            copy.roots = [root] ∧
            (copy.tree root).map Label.heading = tags.map Tag.heading) := by
  intro tags
  have writable := writable_of_toAml written
  have markup :
      (Markup.Draft.of (nodeOf tags).instructions).toText = .ok text :=
    (toAml_eq writable).symm.trans written
  refine ⟨markup, scoped_page _ [] _ writable, ?_⟩
  intro named locale stored
  have lawful := lawful_of_headings _ [] _ named
  obtain ⟨other, same, parsed⟩ := exists_toText_nodeOf lawful locale stored
  cases same.symm.trans markup
  have valid := valid_reread none tags
  refine ⟨_, 0, parsed, roots_ofTrees locale stored valid, ?_⟩
  rw [tree_ofTrees locale stored valid]
  exact heading_reread none tags lawful

/-- A name in German within an envelope. -/
def translatedReply : Document :=
  [.createElement "SOAP-ENV:Envelope", .createElement "SOAP-ENV:Body",
    .createElement "name", .setAttribute 2 AttributeName.xmlLang "de",
    .add 2 (.value (.text "Teil")), .add 1 (.node 2),
    .add 0 (.node 1)].foldl afterCall (new english)

theorem namespaces_bound_once_in_reply :
    ∃ text,
      translatedReply.toAml false 0 = .ok text ∧
        text =
          "<SOAP-ENV:Envelope xmlns:SOAP-ENV=" ++
            "\"http://schemas.xmlsoap.org/soap/envelope/\">" ++
            "<SOAP-ENV:Body><i18n:name " ++
            "xmlns:i18n=\"http://www.aras.com/I18N\" xml:lang=\"de\">" ++
            "Teil</i18n:name></SOAP-ENV:Body></SOAP-ENV:Envelope>" ∧
        ∃ copy root,
          parse .unlimited english true text = .ok copy ∧
            copy.roots = [root] ∧
            Scoped [] ((copy.tree root).map Label.heading) := by
  have written :
      (translatedReply.toAml false 0).toOption =
        some
          ("<SOAP-ENV:Envelope xmlns:SOAP-ENV=" ++
            "\"http://schemas.xmlsoap.org/soap/envelope/\">" ++
            "<SOAP-ENV:Body><i18n:name " ++
            "xmlns:i18n=\"http://www.aras.com/I18N\" xml:lang=\"de\">" ++
            "Teil</i18n:name></SOAP-ENV:Body></SOAP-ENV:Envelope>") := by
    decide +kernel
  have named :
      ∀ tag ∈ (page ⟨translatedReply.locale, false⟩ []
          (translatedReply.tree 0)).toList,
        tag.heading.Named := by
    decide +kernel
  obtain ⟨-, keeps, reading⟩ :=
    namespaces_bound_once (eq_ok_of_toOption written)
  obtain ⟨copy, root, parsed, alone, same⟩ := reading named english true
  refine ⟨_, eq_ok_of_toOption written, rfl, copy, root, parsed, alone, ?_⟩
  rw [same]
  exact keeps

end Document

end AmlExchange
