import AmlExchange.Document.Property
import AmlExchange.Proofs.Document.Brevity

/-!
# References to items

A property refers to the item that it holds.  When it is read back of what is
written, it refers to an item of the same identity.  The type and the name that
it tells then are those of the item, unless the property had attributes of its
own that say otherwise (`itemReference_reread`).
-/

namespace AmlExchange.Document

/-- A reference as callers see it, who take an empty name for none. -/
def ItemReference.shown (reference : ItemReference) : ItemReference :=
  { reference with
    keyedName := reference.keyedName.filter fun name => !name.isEmpty }

/-- What an element refers to when it is read as a property. -/
def itemReferenceOf? (document : Document) (id : NodeId) :
    Option ItemReference :=
  (Property.mk document (some id) none).itemReference?

section

variable {document : Document}

/-- A property with one child, an item, refers to that item. -/
theorem itemReferenceOf?_of_alone
    {property item : NodeId} {typeName identity : String}
    (alone : document.children property = [item])
    (isItem : document.kind? item = some .item)
    (typed : document.typeName? item = some typeName)
    (identified : document.itemId? item = some identity) :
    document.itemReferenceOf? property =
      some ⟨typeName, identity, document.keyedName? item⟩ := by
  have held : Property.heldItem? document property = some item := by
    simp [Property.heldItem?, items, alone, isItem]
  simp only [itemReferenceOf?, Property.itemReference?, Option.bind_some,
    held, Property.referenceToItem?, typed, identified]

/-- A property without children refers to the item that its attributes and its
text tell. -/
theorem itemReferenceOf?_of_leaf
    {property : NodeId} {typeName identity : String}
    (leaf : document.children property = [])
    (valued : document.value? property = some identity)
    (isGuid : Guid.isGuid identity.toList = true)
    (typed :
      document.attribute? property AttributeName.type = some typeName) :
    document.itemReferenceOf? property =
      some ⟨typeName, identity,
        document.attribute? property AttributeName.keyedName⟩ := by
  have held : Property.heldItem? document property = none := by
    simp [Property.heldItem?, items, leaf]
  simp only [itemReferenceOf?, Property.itemReference?, Option.bind_some,
    held, valued, typed, if_pos isGuid]

/-! ## Attributes of references -/

theorem find?_supplied_of_ne
    {name other : String} (different : name ≠ other) (element : Element)
    (value : Option String) :
    Fields.find? other (supplied element name value) = none := by
  rw [Fields.find?_eq_none_iff, List.mem_map]
  rintro ⟨field, member, rfl⟩
  exact different (mem_supplied member).1.symm

theorem or_find?_supplied
    (element : Element) (name : String) (value : Option String) :
    (element.attribute? name).or
        (Fields.find? name (supplied element name value)) =
      (element.attribute? name).or value := by
  unfold supplied
  cases element.attribute? name with
  | some own => rfl
  | none => cases value <;> simp [Fields.find?]

section

variable {form : Form} {bound : List Space} {element item : Element}

/-- The type that is written of a reference. -/
theorem find?_type_tagOf
    (refers : referent? form element = some item) :
    Fields.find? AttributeName.type (tagOf form bound element).attributes =
      (element.attribute? AttributeName.type).or item.typeName? := by
  rw [find?_attributes_tagOf (by decide), addedFields, refers]
  dsimp only
  rw [referenceFields, Fields.find?_append,
    find?_supplied_of_ne (by decide) _ (Option.filter ..), Option.or_none,
    or_find?_supplied]

/-- The name that is written of a reference. -/
theorem find?_keyedName_tagOf
    (refers : referent? form element = some item) :
    Fields.find? AttributeName.keyedName
        (tagOf form bound element).attributes =
      (element.attribute? AttributeName.keyedName).or
        ((item.keyedName? form.locale).filter fun name => !name.isEmpty) := by
  rw [find?_attributes_tagOf (by decide), addedFields, refers]
  dsimp only
  rw [referenceFields, Fields.find?_append,
    find?_supplied_of_ne (by decide) _ item.typeName?, Option.none_or,
    or_find?_supplied]

end

/-! ## Children that are read back -/

/-- The children that are read back of an element written in full stand for
those of the element. -/
theorem Linked.children_reread
    {copy : Document} (linked : document.Linked) (copied : copy.Linked)
    {id root : NodeId} {bound : List Space} {parent : Option Kind}
    (same : copy.tree root =
      reread parent
        (page (brief document.locale) bound (document.tree id)))
    (direct : document.referred? id = none) :
    ∃ inner kind,
      (copy.children root).map copy.tree =
        (document.children id).map fun child =>
          reread kind
            (page (brief document.locale) inner (document.tree child)) := by
  have shape := linked.page_tree bound id
  rw [direct] at shape
  rw [← copied.children_tree, same, shape, Document.children_reread]
  dsimp only
  rw [pages_eq_map, rereadAll_eq_map, List.map_map, List.map_map]
  exact ⟨_, _, rfl⟩

/-- No other name is written as one that is written unchanged. -/
theorem spelling_ne
    {locale : Locale} {element other : Element}
    (native : isForeign locale element = false)
    (spelt : ∃ written, writtenName locale element = .ok written)
    (different : other.label.name ≠ element.label.name) :
    (spelling locale other).1 ≠ element.label.name := by
  cases foreign : isForeign locale other with
  | false =>
      rw [spelling_of_native foreign]
      exact different
  | true =>
      -- a name in the namespace of other languages cannot be written as it is
      obtain ⟨written, spelt⟩ := spelt
      rw [spelling_of_foreign foreign]
      intro same
      rw [writtenName, if_neg (by simp [native]), ← same, space?_qualify]
        at spelt
      dsimp only at spelt
      rw [if_neg (by decide), if_neg (by decide)] at spelt
      cases spelt

/-- The children of an element that is written in full can be written. -/
theorem Linked.writtenName_child
    (linked : document.Linked) {id child : NodeId} {text : String}
    (written : document.toAml false id = .ok text)
    (direct : document.referred? id = none)
    (member : child ∈ document.children id) :
    ∃ spelling,
      writtenName document.locale (document.tree child) = .ok spelling := by
  have below := (writable_iff ..).mp (writable_of_toAml written)
  have all := below.2.2 (by rw [linked.referent?_tree, direct]; rfl)
  rw [linked.children_tree, writableAll_iff, List.forall_mem_map] at all
  exact ((writable_iff ..).mp (all child member)).1

/-- An element that was read back has the name that was written. -/
theorem Linked.name_of_reread
    {copy : Document} (linked : document.Linked) (copied : copy.Linked)
    {id node : NodeId} {bound : List Space} {parent : Option Kind}
    (same : copy.tree node =
      reread parent
        (page (brief document.locale) bound (document.tree id))) :
    copy.name node = (spelling document.locale (document.tree id)).1 := by
  have label := copied.label_tree node
  rw [name, ← label, same, Document.name_reread, linked.page_tree]
  rfl

/-- A child that is found under its name is found under it when it is read
back. -/
theorem Linked.child?_reread
    {copy : Document} (linked : document.Linked) (copied : copy.Linked)
    {id root child node : NodeId} {bound : List Space} {parent : Option Kind}
    (same :
      (copy.children root).map copy.tree =
        (document.children id).map fun child =>
          reread parent
            (page (brief document.locale) bound (document.tree child)))
    (native : isForeign document.locale (document.tree child) = false)
    (spelt : ∃ written,
      writtenName document.locale (document.tree child) = .ok written)
    {place : Nat} (here : (document.children id)[place]? = some child)
    (there : (copy.children root)[place]? = some node)
    (found : document.child? id (document.name child) = some child) :
    copy.child? root (document.name child) = some node := by
  have name (id : NodeId) :
      (document.tree id).label.name = document.name id :=
    congrArg Label.name (linked.label_tree id)
  have sizes := congrArg List.length same
  rw [List.length_map, List.length_map] at sizes
  have written {index : Nat} (inside : index < (document.children id).length)
      (within : index < (copy.children root).length) :
      copy.name (copy.children root)[index] =
        (spelling document.locale
          (document.tree (document.children id)[index])).1 := by
    have trees :
        copy.tree (copy.children root)[index] =
          reread parent
            (page (brief document.locale) bound
              (document.tree (document.children id)[index])) := by
      have both := congrArg (fun trees => trees[index]?) same
      simpa [inside, within] using both
    exact linked.name_of_reread copied trees
  obtain ⟨-, index, inside, isChild, others⟩ :=
    List.find?_eq_some_iff_getElem.mp found
  obtain rfl : index = place := by
    apply (List.getElem?_inj inside (linked.wiring.once id)).mp
    rw [here, List.getElem?_eq_getElem inside, isChild]
  obtain ⟨within, isNode⟩ := List.getElem?_eq_some_iff.mp there
  rw [child?, List.find?_eq_some_iff_getElem]
  refine ⟨?_, index, within, isNode, ?_⟩
  · rw [← isNode, written inside within, isChild,
      spelling_of_native native, name, beq_self_eq_true]
  · intro earlier before
    have different := others earlier before
    rw [written (before.trans inside) (before.trans within)]
    rw [Bool.not_eq_true', beq_eq_false_iff_ne] at different ⊢
    rw [← name, ← name child] at different
    rw [← name child]
    exact spelling_ne native spelt different

/-- What is read back of a property that is written as a reference. -/
theorem Linked.itemReferenceOf?_reread
    {copy : Document} (linked : document.Linked) (copied : copy.Linked)
    {property item node : NodeId} {bound : List Space}
    {parent : Option Kind}
    (same : copy.tree node =
      reread parent
        (page (brief document.locale) bound (document.tree property)))
    (refers : document.referred? property = some item)
    {typeName identity : String}
    (typed : document.typeName? item = some typeName)
    (identified : document.itemId? item = some identity)
    (isGuid : Guid.isGuid identity.toList = true) :
    copy.itemReferenceOf? node =
      some
        ⟨(document.attribute? property AttributeName.type).getD typeName,
          identity,
          (document.attribute? property AttributeName.keyedName).or
            ((document.keyedName? item).filter
              fun name => !name.isEmpty)⟩ := by
  have referent :
      referent? (brief document.locale) (document.tree property) =
        some (document.tree item) := by
    rw [linked.referent?_tree, refers]
    rfl
  rw [page_of_reference referent] at same
  have leaf : copy.children node = [] := by
    have none := copied.children_tree node
    rw [same, Document.children_reread, rereadAll] at none
    exact List.map_eq_nil_iff.mp none.symm
  have text : copy.value? node = some identity := by
    have written :
        writtenText (brief document.locale) (document.tree property) =
          identity := by
      rw [writtenText, referent]
      exact congrArg (Option.getD · "") identified
    have present : identity.isEmpty = false := by
      rw [Bool.eq_false_iff]
      intro nothing
      rw [String.isEmpty_iff.mp nothing] at isGuid
      cases isGuid
    rw [← copied.value?_tree, same, value?_reread, tagOf, written, present]
    rfl
  have told (name : String) :
      copy.attribute? node name =
        Fields.find? name
          (tagOf (brief document.locale) bound
            (document.tree property)).attributes := by
    rw [← copied.attribute?_tree, same, Element.attribute?, Fields.get?,
      entries_reread (nodup_tagOf ..)]
  have type :
      copy.attribute? node AttributeName.type =
        some
          ((document.attribute? property AttributeName.type).getD
            typeName) := by
    rw [told, find?_type_tagOf referent, linked.attribute?_tree,
      linked.typeName?_tree, typed]
    cases document.attribute? property AttributeName.type <;> rfl
  rw [itemReferenceOf?_of_leaf leaf text isGuid type, told,
    find?_keyedName_tagOf referent, linked.attribute?_tree]
  rfl

end

/-- Whether attributes of a property agree with the item that it holds: its
type and its name, where it has any, are those of the item. -/
structure Agrees (document : Document) (property item : NodeId) : Prop where
  type : ∀ own ∈ document.attribute? property AttributeName.type,
    document.typeName? item = some own
  keyedName : ∀ own ∈ document.attribute? property AttributeName.keyedName,
    (some own).filter (fun name => !name.isEmpty) =
      (document.keyedName? item).filter fun name => !name.isEmpty

/-- Two sources of a name show the same if the first, where there is one,
shows what the second does. -/
theorem filter_or_iff
    {own name : Option String} {shows : String → Bool} :
    (own.or (name.filter shows)).filter shows = name.filter shows ↔
      ∀ text ∈ own, (some text).filter shows = name.filter shows := by
  cases own with
  | some text => simp
  | none => simp [Option.filter_filter]

/-- What is read back of a property refers to the item that it held before if
and only if its attributes agree with the item. -/
theorem shown_eq_iff_agrees
    {document : Document} {property item : NodeId} {typeName : String}
    (typed : document.typeName? item = some typeName) (identity : String) :
    ItemReference.shown
          ⟨(document.attribute? property AttributeName.type).getD typeName,
            identity,
            (document.attribute? property AttributeName.keyedName).or
              ((document.keyedName? item).filter
                fun name => !name.isEmpty)⟩ =
        ItemReference.shown
          ⟨typeName, identity, document.keyedName? item⟩ ↔
      document.Agrees property item := by
  simp only [ItemReference.shown, ItemReference.mk.injEq, true_and,
    filter_or_iff]
  constructor
  · rintro ⟨types, names⟩
    refine ⟨fun own isOwn => ?_, names⟩
    rw [typed, ← types, Option.mem_def.mp isOwn]
    rfl
  · rintro ⟨types, names⟩
    refine ⟨?_, names⟩
    cases own : document.attribute? property AttributeName.type with
    | none => rfl
    | some text =>
        have agreed := types text own
        rw [typed] at agreed
        exact (Option.some.inj agreed).symm

/-- What an item is written as is read back, and what stands in the place of a
property that held an item refers to an item of the same identity.  It tells the
same type and the same name if and only if the attributes that the property had
of its own agree with the item. -/
theorem same_reference_iff_agrees
    {document : Document} (reachable : document.Reachable)
    {item property held : NodeId} {place : Nat}
    (isItem : document.kind? item = some .item)
    (placed : (document.children item)[place]? = some property)
    (isProperty : document.kind? property = some .property)
    (alone : document.children property = [held])
    (isHeld : document.kind? held = some .item)
    (idle : document.attribute? held AttributeName.action = none)
    {typeName identity : String}
    (typed : document.typeName? held = some typeName)
    (identified : document.itemId? held = some identity)
    (isGuid : Guid.isGuid identity.toList = true)
    (named : document.BrieflyNamed item) {text : String}
    (written : document.toAml false item = .ok text) (locale : Locale)
    (stored : Bool) :
    ∃ copy root node,
      parse .unlimited locale stored text = .ok copy ∧
        copy.roots = [root] ∧
        (copy.children root)[place]? = some node ∧
        ((document.label property).Native document.locale →
          document.child? item (document.name property) = some property →
            copy.child? root (document.name property) = some node) ∧
        document.itemReferenceOf? property =
          some ⟨typeName, identity, document.keyedName? held⟩ ∧
        copy.itemReferenceOf? node =
          some
            ⟨(document.attribute? property AttributeName.type).getD typeName,
              identity,
              (document.attribute? property AttributeName.keyedName).or
                ((document.keyedName? held).filter
                  fun name => !name.isEmpty)⟩ ∧
        ((copy.itemReferenceOf? node).map ItemReference.shown =
            (document.itemReferenceOf? property).map ItemReference.shown ↔
          document.Agrees property held) := by
  have linked := reachable.linked
  have valid := document.valid_rereading false item
  have copied := linked_ofTrees locale stored valid
  have top := tree_ofTrees locale stored valid
  have direct : document.referred? item = none := by
    rw [referred?, isItem, if_neg (by decide)]
  have refers : document.referred? property = some held :=
    referred?_eq_some_iff.mpr
      ⟨isProperty, [], [], alone, List.forall_mem_nil _, isHeld, idle⟩
  obtain ⟨bound, parent, same⟩ := linked.children_reread copied top direct
  have both := congrArg (fun trees => trees[place]?) same
  simp only [List.getElem?_map, placed, Option.map_some] at both
  obtain ⟨node, found, tree⟩ := Option.map_eq_some_iff.mp both
  have original := itemReferenceOf?_of_alone alone isHeld typed identified
  have again :=
    linked.itemReferenceOf?_reread copied tree refers typed identified isGuid
  refine ⟨_, 0, node, linked.parse_brief named written locale stored,
    roots_ofTrees locale stored valid, found, ?_, original, again, ?_⟩
  · intro native first
    have isNative :
        isForeign document.locale (document.tree property) = false := by
      rw [linked.tree_eq]
      exact isForeign_eq_false native _
    have member := List.mem_of_getElem? placed
    have spelt := linked.writtenName_child written direct member
    exact linked.child?_reread copied same isNative spelt placed found first
  · rw [again, original, Option.map_some, Option.map_some, Option.some_inj]
    exact shown_eq_iff_agrees typed identity

/-- A part whose owner is a user with a name. -/
def ownedPart : Document :=
  [.createItem "Part" none, .createItem "User" none,
    .setAttribute 1 "id" "30B991F927274FA3829655F50C99472E",
    .setProperty 1 "keyed_name" (.value (.text "Ann")),
    .setProperty 0 "owned_by_id" (.node 1)].foldl afterCall (new english)

theorem same_reference_of_owner :
    ∃ text copy root node,
      ownedPart.toAml false 0 = .ok text ∧
        parse .unlimited english true text = .ok copy ∧
        copy.roots = [root] ∧
        copy.child? root "owned_by_id" = some node ∧
        copy.itemReferenceOf? node =
          some ⟨"User", "30B991F927274FA3829655F50C99472E", some "Ann"⟩ ∧
        (copy.itemReferenceOf? node).map ItemReference.shown =
          (ownedPart.itemReferenceOf? 3).map ItemReference.shown := by
  have reachable : ownedPart.Reachable := (Reachable.new _).calls _
  have outline :
      (ownedPart.briefOutline (ownedPart.outline 0)).toList = [0, 3] := by
    decide +kernel
  have named : ownedPart.BrieflyNamed 0 := by
    rw [BrieflyNamed, outline]
    decide +kernel
  have written :
      (ownedPart.toAml false 0).toOption =
        some
          ("<Item type=\"Part\"><owned_by_id type=\"User\"" ++
            " keyed_name=\"Ann\">30B991F927274FA3829655F50C99472E" ++
            "</owned_by_id></Item>") := by
    decide +kernel
  have isItem : ownedPart.kind? 0 = some .item := by decide +kernel
  have placed : (ownedPart.children 0)[0]? = some 3 := by decide +kernel
  have isProperty : ownedPart.kind? 3 = some .property := by decide +kernel
  have alone : ownedPart.children 3 = [1] := by decide +kernel
  have isHeld : ownedPart.kind? 1 = some .item := by decide +kernel
  have idle : ownedPart.attribute? 1 AttributeName.action = none := by
    decide +kernel
  have typed : ownedPart.typeName? 1 = some "User" := by decide +kernel
  have identified :
      ownedPart.itemId? 1 = some "30B991F927274FA3829655F50C99472E" := by
    decide +kernel
  obtain ⟨copy, root, node, read, roots, -, lookup, -, again, same⟩ :=
    same_reference_iff_agrees reachable isItem placed isProperty
      alone isHeld idle typed identified (by decide +kernel) named
      (eq_ok_of_toOption written) english true
  have first : copy.child? root "owned_by_id" = some node :=
    lookup (by decide +kernel) (by decide +kernel)
  have agrees : ownedPart.Agrees 3 1 :=
    ⟨by decide +kernel, by decide +kernel⟩
  refine ⟨_, copy, root, node, eq_ok_of_toOption written, read, roots, first,
    again.trans ?_, same.mpr agrees⟩
  decide +kernel

/-- A part that belonged to everyone before it belonged to a user. -/
def handedOverPart : Document :=
  [.createItem "Part" none,
    .setProperty 0 "owned_by_id"
      (.value (.text "A73B655731924CD0B027E4F4D5FCC0A9")),
    .setAttribute 1 "type" "Identity", .setAttribute 1 "keyed_name" "World",
    .createItem "User" none,
    .setAttribute 2 "id" "30B991F927274FA3829655F50C99472E",
    .set 1 (.node 2)].foldl afterCall (new english)

/-- What a property told of an item that it held before stays when it is
written, and so it refers to no item that was ever there. -/
theorem reference_mixes_items :
    ¬ ∀ (document copy : Document) (item property held root : NodeId)
        (name typeName identity text : String),
      document.Reachable → document.kind? item = some .item →
        document.child? item name = some property →
        document.kind? property = some .property →
        document.children property = [held] →
        document.kind? held = some .item →
        document.attribute? held AttributeName.action = none →
        document.typeName? held = some typeName →
        document.itemId? held = some identity →
        Guid.isGuid identity.toList = true →
        document.toAml false item = .ok text →
        parse .unlimited document.locale false text = .ok copy →
        copy.roots = [root] →
        (copy.property root name).itemReference?.map ItemReference.shown =
          (document.property item name).itemReference?.map
            ItemReference.shown := by
  intro same
  have reachable : handedOverPart.Reachable := (Reachable.new _).calls _
  have written :
      (handedOverPart.toAml false 0).toOption =
        some
          ("<Item type=\"Part\"><owned_by_id type=\"Identity\"" ++
            " keyed_name=\"World\">30B991F927274FA3829655F50C99472E" ++
            "</owned_by_id></Item>") := by
    decide +kernel
  have read :
      (parse .unlimited english false
            ("<Item type=\"Part\"><owned_by_id type=\"Identity\"" ++
              " keyed_name=\"World\">30B991F927274FA3829655F50C99472E" ++
              "</owned_by_id></Item>")).toOption.map
          (fun copy =>
            (copy.roots,
              (copy.property 0 "owned_by_id").itemReference?.map
                ItemReference.shown)) =
        some
          ([0],
            some
              ⟨"Identity", "30B991F927274FA3829655F50C99472E",
                some "World"⟩) := by
    decide +kernel
  obtain ⟨copy, readCopy, facts⟩ := Option.map_eq_some_iff.mp read
  obtain ⟨roots, mixed⟩ := Prod.mk.inj facts
  have refers :=
    same handedOverPart copy 0 1 2 0 "owned_by_id" "User"
      "30B991F927274FA3829655F50C99472E" _ reachable (by decide +kernel)
      (by decide +kernel) (by decide +kernel) (by decide +kernel)
      (by decide +kernel) (by decide +kernel) (by decide +kernel)
      (by decide +kernel) (by decide +kernel) (eq_ok_of_toOption written)
      (eq_ok_of_toOption readCopy) roots
  rw [mixed] at refers
  exact absurd refers (by decide +kernel)

end AmlExchange.Document
