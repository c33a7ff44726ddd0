import AmlExchange.Proofs.Document.Lookups
import AmlExchange.Proofs.Document.RoundTrip
import AmlExchange.Proofs.Document.WrittenAgain

/-!
# What is written with references

A property whose first item is not to be changed is written as a reference to
that item.  All else in the property is left out with it, whether before or
after the item.  Every other element is written with all of its children, in
their order (`written_brief`).
-/

namespace AmlExchange.Document

/-! ## References of a document -/

/-- The item that an element is written as a reference to: the first item of a
property, unless it is to be changed. -/
def referred? (document : Document) (id : NodeId) : Option NodeId :=
  if document.kind? id = some .property then
    (document.items id).head?.filter fun item =>
      (document.attribute? item AttributeName.action).isNone
  else none

mutual

/-- The part of an outline that is written: nothing below a reference. -/
def briefOutline (document : Document) : Tree NodeId → Tree NodeId
  | .node id children =>
      .node id
        (match document.referred? id with
          | some _ => []
          | none => document.briefOutlines children)

/-- The parts of some outlines that are written. -/
def briefOutlines (document : Document) :
    List (Tree NodeId) → List (Tree NodeId)
  | [] => []
  | outline :: rest =>
      document.briefOutline outline :: document.briefOutlines rest

end

mutual

theorem mem_outline_of_brief
    {document : Document} {element : NodeId} (outline : Tree NodeId)
    (member : element ∈ (document.briefOutline outline).toList) :
    element ∈ outline.toList := by
  cases outline with
  | node id below =>
      rw [briefOutline, Tree.toList, List.mem_cons] at member
      rw [Tree.toList, List.mem_cons]
      refine member.imp_right fun within => ?_
      cases reference : document.referred? id with
      | some item =>
          rw [reference] at within
          cases within
      | none =>
          rw [reference] at within
          exact mem_outlines_of_brief below within

theorem mem_outlines_of_brief
    {document : Document} {element : NodeId} (outlines : List (Tree NodeId))
    (member :
      element ∈ Tree.toListAll (document.briefOutlines outlines)) :
    element ∈ Tree.toListAll outlines := by
  cases outlines with
  | nil => cases member
  | cons outline rest =>
      rw [briefOutlines, Tree.toListAll, List.mem_append] at member
      rw [Tree.toListAll, List.mem_append]
      exact
        member.imp (mem_outline_of_brief outline)
          (mem_outlines_of_brief rest)

end

/-- What is written of an element itself.  A reference has the identity of its
item, and its type and its name unless the property has such attributes. -/
def briefSight (document : Document) (id : NodeId) : Sight :=
  let shown := visible (document.attributes id).entries
  let name := (spelling document.locale (document.tree id)).1
  match document.referred? id with
  | some item =>
      ⟨name,
        shown ++
          referenceFields document.locale (document.tree id)
            (document.tree item),
        (document.itemId? item).filter fun text => !text.isEmpty⟩
  | none =>
      ⟨name, shown, (document.value? id).filter fun text => !text.isEmpty⟩

section

variable {document : Document}

/-- A reference stands for all children of a property: its item, what comes
before it, where there is no item, and whatever comes after it. -/
theorem referred?_eq_some_iff
    {property item : NodeId} :
    document.referred? property = some item ↔
      document.kind? property = some .property ∧
        ∃ before after,
          document.children property = before ++ item :: after ∧
            (∀ child ∈ before, document.kind? child ≠ some .item) ∧
            document.kind? item = some .item ∧
            document.attribute? item AttributeName.action = none := by
  have first :
      (document.items property).head? = some item ↔
        document.kind? item = some .item ∧
          ∃ before after,
            document.children property = before ++ item :: after ∧
              ∀ child ∈ before, document.kind? child ≠ some .item := by
    simp [items, List.head?_filter, List.find?_eq_some_iff_append]
  rw [referred?]
  by_cases role : document.kind? property = some .property
  · rw [if_pos role, Option.filter_eq_some_iff, first]
    simp only [role, Option.isNone_iff_eq_none, true_and]
    constructor
    · rintro ⟨⟨isItem, before, after, same, others⟩, idle⟩
      exact ⟨before, after, same, others, isItem, idle⟩
    · rintro ⟨before, after, same, others, isItem, idle⟩
      exact ⟨⟨isItem, before, after, same, others⟩, idle⟩
  · simp [role]

theorem kind?_eq_property
    {id : NodeId} :
    document.kind? id = some .property ↔
      (document.label id).kind = .property := by
  rw [kind?, label]
  cases document.node? id with
  | none =>
      constructor
      · intro same
        cases same
      · intro same
        cases same
  | some node => exact Option.some_inj

/-- The item that a tree refers to hangs in the document. -/
theorem Linked.referent?_tree
    (linked : document.Linked) (id : NodeId) :
    referent? (brief document.locale) (document.tree id) =
      (document.referred? id).map document.tree := by
  rw [referent?, referred?, linked.label_tree, linked.items_tree]
  by_cases role : document.kind? id = some .property
  · rw [if_pos role, if_neg (by simp [kind?_eq_property.mp role])]
    cases document.items id with
    | nil => rfl
    | cons item rest =>
        simp only [List.map_cons, List.head?_cons, Option.filter_some,
          linked.attribute?_tree]
        split <;> rfl
  · have other := mt kind?_eq_property.mpr role
    rw [if_neg role, if_pos (by simp [other])]
    rfl

/-! ## Pages -/

/-- The page of an element of a document. -/
theorem Linked.page_tree
    (linked : document.Linked) (bound : List Space) (id : NodeId) :
    page (brief document.locale) bound (document.tree id) =
      .node (tagOf (brief document.locale) bound (document.tree id))
        (match document.referred? id with
          | some _ => []
          | none =>
              pages (brief document.locale)
                (unbound bound
                    (spelling document.locale (document.tree id)).2 ++
                  bound)
                ((document.children id).map document.tree)) := by
  have refers := linked.referent?_tree id
  cases reference : document.referred? id with
  | some item =>
      rw [reference] at refers
      exact page_of_reference refers bound
  | none =>
      rw [reference] at refers
      rw [page_of_direct refers, linked.children_tree]

/-- The tag of an element shows what is written of it. -/
theorem Linked.sight_tagOf
    (linked : document.Linked) (bound : List Space) (id : NodeId) :
    (tagOf (brief document.locale) bound (document.tree id)).sight =
      document.briefSight id := by
  rw [Tag.sight, tagOf, visible_append, visible_writtenFields,
    visible_addedFields, linked.label_tree, addedFields, writtenText,
    linked.referent?_tree, briefSight]
  cases document.referred? id with
  | none =>
      simp only [Option.map_none, List.append_nil, filter_getD,
        linked.value?_tree]
      rfl
  | some item =>
      simp only [Option.map_some, filter_getD]
      rfl

mutual

theorem sight_page_of_outline
    (linked : document.Linked) (bound : List Space) (outline : Tree NodeId)
    {id : NodeId} (same : document.outline id = outline) :
    (page (brief document.locale) bound (document.tree id)).map Tag.sight =
      (document.briefOutline outline).map document.briefSight := by
  cases outline with
  | node place below =>
      rw [linked.outline_eq] at same
      obtain ⟨rfl, following⟩ := Tree.node.inj same
      rw [linked.page_tree, briefOutline, Tree.map, Tree.map,
        linked.sight_tagOf]
      cases document.referred? id with
      | some item => rfl
      | none =>
          exact congrArg _ (sight_pages_of_outlines linked _ below following)

theorem sight_pages_of_outlines
    (linked : document.Linked) (bound : List Space)
    (outlines : List (Tree NodeId)) {ids : List NodeId}
    (same : ids.map document.outline = outlines) :
    Tree.mapAll Tag.sight
        (pages (brief document.locale) bound (ids.map document.tree)) =
      Tree.mapAll document.briefSight (document.briefOutlines outlines) := by
  cases outlines with
  | nil =>
      rw [List.map_eq_nil_iff] at same
      rw [same]
      rfl
  | cons outline rest =>
      obtain ⟨id, others, rfl, first, following⟩ :=
        List.map_eq_cons_iff.mp same
      rw [List.map_cons, pages, Tree.mapAll, briefOutlines, Tree.mapAll,
        sight_page_of_outline linked bound outline first,
        sight_pages_of_outlines linked bound rest following]

end

/-- Whether the names of all elements that are written of another are names. -/
def BrieflyNamed (document : Document) (id : NodeId) : Prop :=
  ∀ element ∈ (document.briefOutline (document.outline id)).toList,
    (document.label element).Named

mutual

theorem lawful_page_of_outline
    (linked : document.Linked) (bound : List Space) (outline : Tree NodeId)
    {id : NodeId} (same : document.outline id = outline)
    (named : ∀ element ∈ (document.briefOutline outline).toList,
      (document.label element).Named) :
    (nodeOf
      (page (brief document.locale) bound (document.tree id))).Lawful := by
  cases outline with
  | node place below =>
      rw [linked.outline_eq] at same
      obtain ⟨rfl, following⟩ := Tree.node.inj same
      rw [briefOutline, Tree.toList, List.forall_mem_cons,
        ← linked.label_tree] at named
      obtain ⟨own, others⟩ := named
      rw [linked.page_tree, nodeOf]
      refine ⟨isName_spelling _ own, isName_tagOf own, nodup_tagOf ..,
        trivial, ?_⟩
      cases reference : document.referred? id with
      | some item => trivial
      | none =>
          rw [reference] at others
          exact lawful_pages_of_outlines linked _ below following others

theorem lawful_pages_of_outlines
    (linked : document.Linked) (bound : List Space)
    (outlines : List (Tree NodeId)) {ids : List NodeId}
    (same : ids.map document.outline = outlines)
    (named : ∀ element ∈ Tree.toListAll (document.briefOutlines outlines),
      (document.label element).Named) :
    Markup.Node.LawfulAll
      (nodesOf
        (pages (brief document.locale) bound (ids.map document.tree))) := by
  cases outlines with
  | nil =>
      rw [List.map_eq_nil_iff] at same
      rw [same]
      trivial
  | cons outline rest =>
      obtain ⟨id, others, rfl, first, following⟩ :=
        List.map_eq_cons_iff.mp same
      rw [briefOutlines, Tree.toListAll, List.forall_mem_append] at named
      exact
        ⟨lawful_page_of_outline linked bound outline first named.1,
          lawful_pages_of_outlines linked bound rest following named.2⟩

end

mutual

/-- A tree can be written if and only if every element that is written of it
can. -/
theorem writable_of_outline
    (linked : document.Linked) (outline : Tree NodeId)
    {id : NodeId} (same : document.outline id = outline) :
    Writable (brief document.locale) (document.tree id) ↔
      ∀ element ∈ (document.briefOutline outline).toList,
        (∃ spelt,
            writtenName document.locale (document.tree element) =
              .ok spelt) ∧
          ∀ field ∈ (document.label element).attributes.entries,
            Permitted field.1 := by
  cases outline with
  | node place below =>
      rw [linked.outline_eq] at same
      obtain ⟨rfl, following⟩ := Tree.node.inj same
      rw [writable_iff, linked.referent?_tree, linked.label_tree,
        linked.children_tree, briefOutline, Tree.toList,
        List.forall_mem_cons, and_assoc]
      cases document.referred? id with
      | some item => simp [Tree.toListAll]
      | none =>
          simp [writable_of_outlines linked below following]

theorem writable_of_outlines
    (linked : document.Linked) (outlines : List (Tree NodeId))
    {ids : List NodeId} (same : ids.map document.outline = outlines) :
    WritableAll (brief document.locale) (ids.map document.tree) ↔
      ∀ element ∈ Tree.toListAll (document.briefOutlines outlines),
        (∃ spelt,
            writtenName document.locale (document.tree element) =
              .ok spelt) ∧
          ∀ field ∈ (document.label element).attributes.entries,
            Permitted field.1 := by
  cases outlines with
  | nil =>
      rw [List.map_eq_nil_iff] at same
      rw [same]
      exact iff_of_true trivial nofun
  | cons outline rest =>
      obtain ⟨id, others, rfl, first, following⟩ :=
        List.map_eq_cons_iff.mp same
      rw [List.map_cons, WritableAll, briefOutlines, Tree.toListAll,
        List.forall_mem_append, writable_of_outline linked outline first,
        writable_of_outlines linked rest following]

end

/-- An element is written if and only if all elements that are written of it
can be. -/
theorem Linked.exists_toAml_iff
    (linked : document.Linked) {id : NodeId}
    (named : document.BrieflyNamed id) :
    (∃ text, document.toAml false id = .ok text) ↔
      ∀ element ∈ (document.briefOutline (document.outline id)).toList,
        (∃ spelt,
            writtenName document.locale (document.tree element) =
              .ok spelt) ∧
          ∀ field ∈ (document.label element).attributes.entries,
            Permitted field.1 := by
  rw [← writable_of_outline linked _ rfl]
  constructor
  · rintro ⟨text, written⟩
    exact writable_of_toAml written
  · intro writable
    have lawful :=
      lawful_page_of_outline linked [] (document.outline id) rfl named
    obtain ⟨text, written, -⟩ :=
      exists_toText_nodeOf lawful document.locale false
    exact ⟨text, (toAml_eq writable).trans written⟩

/-- What is written with references is read back if the names that are written
are names. -/
theorem Linked.parse_brief
    (linked : document.Linked) {id : NodeId}
    (named : document.BrieflyNamed id) {text : String}
    (written : document.toAml false id = .ok text) (locale : Locale)
    (stored : Bool) :
    parse .unlimited locale stored text =
      .ok (ofTrees locale stored [document.rereading false id]) := by
  have lawful :=
    lawful_page_of_outline linked [] (document.outline id) rfl named
  obtain ⟨other, same, parsed⟩ := exists_toText_nodeOf lawful locale stored
  rw [← toAml_eq (writable_of_toAml written), written] at same
  cases same
  exact parsed

/-! ## What callers read -/

/-- What an element of a document is written as with references, read back. -/
theorem Linked.sight_rereading
    (linked : document.Linked) (other : Locale) (id : NodeId) :
    (document.rereading false id).map (Label.sight other) =
      (document.briefOutline (document.outline id)).map
        document.briefSight := by
  rw [rereading, sight_reread_page,
    sight_page_of_outline linked [] (document.outline id) rfl]

end

/-- The text that an element is written as holds what is written of it and of
every element below it that no reference stands for, each in its place.  If the
names of these are names, callers who read the text see the same. -/
theorem written_brief
    {document : Document} (reachable : document.Reachable) {id : NodeId}
    {text : String} (written : document.toAml false id = .ok text) :
    (∃ tags : Tree Tag,
      (Markup.Draft.of (nodeOf tags).instructions).toText = .ok text ∧
        tags.map Tag.sight =
          (document.briefOutline (document.outline id)).map
            document.briefSight) ∧
      (∀ property item,
        document.referred? property = some item ↔
          document.kind? property = some .property ∧
            ∃ before after,
              document.children property = before ++ item :: after ∧
                (∀ child ∈ before, document.kind? child ≠ some .item) ∧
                document.kind? item = some .item ∧
                document.attribute? item AttributeName.action = none) ∧
      (document.BrieflyNamed id →
        ∀ (locale : Locale) (stored : Bool), ∃ copy root,
          parse .unlimited locale stored text = .ok copy ∧
            copy.roots = [root] ∧
            (copy.outline root).map copy.sight =
              (document.briefOutline (document.outline id)).map
                document.briefSight) := by
  have linked := reachable.linked
  refine ⟨⟨page (brief document.locale) [] (document.tree id), ?_, ?_⟩,
    fun property item => referred?_eq_some_iff, ?_⟩
  · rw [← toAml_eq (writable_of_toAml written), written]
  · exact sight_page_of_outline linked [] (document.outline id) rfl
  · intro named locale stored
    have valid := document.valid_rereading false id
    refine ⟨_, 0, linked.parse_brief named written locale stored,
      roots_ofTrees locale stored valid, ?_⟩
    rw [(linked_ofTrees locale stored valid).map_sight,
      tree_ofTrees locale stored valid]
    exact linked.sight_rereading locale id

/-- A part with an owner and with a lock that is to be added. -/
def partWithOwner : Document :=
  [.createItem "Part" none, .createItem "User" none, .setAttribute 1 "id" "7",
    .setProperty 0 "owner" (.node 1), .createItem "Lock" (some "add"),
    .setProperty 0 "lock" (.node 3)].foldl afterCall (new english)

theorem written_brief_of_owner :
    partWithOwner.referred? 2 = some 1 ∧ partWithOwner.referred? 4 = none ∧
      ∃ text copy root,
        partWithOwner.toAml false 0 = .ok text ∧
          parse .unlimited english true text = .ok copy ∧
          copy.roots = [root] ∧
          (copy.outline root).map copy.sight =
            (partWithOwner.briefOutline (partWithOwner.outline 0)).map
              partWithOwner.briefSight := by
  have reachable : partWithOwner.Reachable := (Reachable.new _).calls _
  have outline :
      (partWithOwner.briefOutline (partWithOwner.outline 0)).toList =
        [0, 2, 4, 3] := by
    decide +kernel
  have named : partWithOwner.BrieflyNamed 0 := by
    rw [BrieflyNamed, outline]
    decide +kernel
  have written :
      (partWithOwner.toAml false 0).toOption =
        some
          ("<Item type=\"Part\"><owner type=\"User\">7</owner>" ++
            "<lock><Item type=\"Lock\" action=\"add\" /></lock></Item>") := by
    decide +kernel
  obtain ⟨-, references, reading⟩ :=
    written_brief reachable (eq_ok_of_toOption written)
  obtain ⟨copy, root, read⟩ := reading named english true
  refine ⟨?_, by decide +kernel, _, copy, root, eq_ok_of_toOption written,
    read⟩
  rw [references]
  exact ⟨by decide +kernel, [], [], by decide +kernel, nofun,
    by decide +kernel, by decide +kernel⟩

/-- A property with two items. -/
def partWithOwners : String :=
  "<Item type='Part'><owner><Item type='User' id='1'/>" ++
    "<Item type='User' id='2'/></owner></Item>"

/-- A property with a second item is written as a reference to the first, and
the second is lost. -/
theorem reference_drops_item :
    ¬ ∀ (document copy : Document) (property root : NodeId) (text : String),
      document.Reachable → document.kind? property = some .property →
        (∀ item, document.children property = [item] →
          document.kind? item = some .item →
            document.attribute? item AttributeName.action ≠ none) →
          document.toAml false property = .ok text →
            parse .unlimited document.locale false text = .ok copy →
              copy.roots = [root] →
                (copy.children root).length =
                  (document.children property).length := by
  intro complete
  have first :
      (parse .standard english false partWithOwners).toOption.map
          (fun document =>
            (document.kind? 1, document.children 1,
              (document.toAml false 1).toOption)) =
        some
          (some .property, [2, 3], some "<owner type=\"User\">1</owner>") := by
    decide +kernel
  have second :
      (parse .unlimited english false
            "<owner type=\"User\">1</owner>").toOption.map
          (fun copy => (copy.roots, copy.children 0)) =
        some ([0], []) := by
    decide +kernel
  obtain ⟨document, read, facts⟩ := Option.map_eq_some_iff.mp first
  obtain ⟨role, rest⟩ := Prod.mk.inj facts
  obtain ⟨children, written⟩ := Prod.mk.inj rest
  obtain ⟨copy, readAgain, again⟩ := Option.map_eq_some_iff.mp second
  obtain ⟨roots, leaf⟩ := Prod.mk.inj again
  have locale := locale_parse (eq_ok_of_toOption read)
  have same :=
    complete document copy 1 0 _ (.parsed (eq_ok_of_toOption read)) role
      (by rw [children]; exact nofun) (eq_ok_of_toOption written)
      (by rw [locale]; exact eq_ok_of_toOption readAgain) roots
  rw [children, leaf] at same
  exact absurd same (by decide)

end AmlExchange.Document
