import AmlExchange.Proofs.Document.Reachable
import AmlExchange.Proofs.Document.Runs

/-!
# Values set one after the other

A value that is set takes the place of everything that an element held.  Of
the attributes it decides those that it writes itself: whether the property is
null and, for a date range, its condition and its definition.  What an earlier
range wrote stays unless a later one writes it again, and this is all that an
earlier value can leave behind (`set_set_eq_set_iff`).
-/

namespace AmlExchange.Document

variable {document : Document} {id : NodeId} {node : Node}

/-! ## What a value tells of itself -/

/-- The attributes that a date range writes. -/
def rangeFields (condition : Condition) (definition : Option String) :
    List (String × String) :=
  match condition.text? with
  | none => []
  | some text =>
      (AttributeName.condition, text) ::
        (definition.map fun text => (AttributeName.origDateRange, text)).toList

/-- The attributes that a value writes to tell which date range it is. -/
def rangeMarks : Value → List (String × String)
  | .dynamicRange range => rangeFields range.condition range.serialize
  | .staticRange range => rangeFields range.condition none
  | _ => []

/-- The attribute that a value writes to tell whether it is null. -/
def nullMark? (value : Value) : Option String :=
  if value.isNull then some "1" else none

theorem names_rangeFields
    (condition : Condition) (definition : Option String) :
    ((rangeFields condition definition).map Prod.fst).Sublist
      [AttributeName.condition, AttributeName.origDateRange] := by
  rw [rangeFields]
  cases condition.text? with
  | none => exact List.nil_sublist _
  | some text =>
      cases definition with
      | none => exact (List.nil_sublist _).cons_cons _
      | some definition => exact List.Sublist.refl _

theorem names_rangeMarks
    (value : Value) :
    ((rangeMarks value).map Prod.fst).Sublist
      [AttributeName.condition, AttributeName.origDateRange] := by
  cases value with
  | dynamicRange range => exact names_rangeFields _ _
  | staticRange range => exact names_rangeFields _ _
  | _ => exact List.nil_sublist _

theorem nodup_rangeMarks
    (value : Value) :
    ((rangeMarks value).map Prod.fst).Nodup :=
  (names_rangeMarks value).nodup (by decide)

theorem get?_setAttribute
    (node : Node) (name text other : String) :
    (node.setAttribute name text).label.attributes.get? other =
      if name = other then some text
      else node.label.attributes.get? other :=
  node.label.attributes.get?_insert name other text

theorem get?_setRange
    (node : Node) (condition : Condition) (definition : Option String)
    (name : String) :
    (node.setRange condition definition).label.attributes.get? name =
      (Fields.find? name (rangeFields condition definition)).or
        (node.label.attributes.get? name) := by
  rw [Node.setRange, rangeFields]
  cases condition.text? with
  | none => rfl
  | some text =>
      cases definition with
      | none =>
          simp only [get?_setAttribute, Option.map_none, Option.toList_none,
            Fields.find?]
          split <;> rfl
      | some definition =>
          simp only [get?_setAttribute, Option.map_some, Option.toList_some,
            Fields.find?]
          split
          · next last =>
              subst last
              rfl
          · split <;> rfl

theorem find?_rangeMarks_of_other
    {name : String}
    (other : name ∉ [AttributeName.condition, AttributeName.origDateRange])
    (value : Value) :
    Fields.find? name (rangeMarks value) = none :=
  Fields.find?_eq_none_iff.mpr fun member =>
    other ((names_rangeMarks value).subset member)

theorem find?_isNull_rangeMarks
    (value : Value) :
    Fields.find? AttributeName.isNull (rangeMarks value) = none :=
  find?_rangeMarks_of_other (by decide) value

theorem get?_syncFlags_of_value
    (property : node.label.kind = .property)
    (present : node.label.content.isNull = false) (name : String) :
    node.syncFlags.label.attributes.get? name =
      (Fields.find? name (rangeMarks node.label.content)).or
        (if AttributeName.isNull = name then none
          else node.label.attributes.get? name) := by
  have erased :
      (node.eraseAttribute AttributeName.isNull).label.attributes.get? name =
        if AttributeName.isNull = name then none
        else node.label.attributes.get? name :=
    node.label.attributes.get?_erase AttributeName.isNull name
  rw [Node.syncFlags, if_neg (not_not_intro property), present,
    Bool.false_and, if_neg Bool.false_ne_true]
  dsimp only
  split
  · next range content =>
      rw [get?_setRange, erased, show node.label.content = _ from content]
      rfl
  · next range content =>
      rw [get?_setRange, erased, show node.label.content = _ from content]
      rfl
  · next noDynamic noStatic =>
      have plain : rangeMarks node.label.content = [] := by
        cases content : node.label.content with
        | dynamicRange range => exact absurd content (noDynamic range)
        | staticRange range => exact absurd content (noStatic range)
        | _ => rfl
      rw [erased, plain]
      rfl

/-- The attributes of a property that holds nothing but a value. -/
theorem get?_syncFlags
    (property : node.label.kind = .property) (childless : node.children = [])
    (name : String) :
    node.syncFlags.label.attributes.get? name =
      if name = AttributeName.isNull then nullMark? node.label.content
      else
        (Fields.find? name (rangeMarks node.label.content)).or
          (node.label.attributes.get? name) := by
  cases null : node.label.content.isNull with
  | false =>
      rw [get?_syncFlags_of_value property null, nullMark?, null]
      by_cases same : name = AttributeName.isNull
      · rw [if_pos same, if_pos same.symm, same, find?_isNull_rangeMarks]
        rfl
      · rw [if_neg same, if_neg (Ne.symm same)]
  | true =>
      have unmarked : rangeMarks node.label.content = [] := by
        cases content : node.label.content with
        | null => rfl
        | _ =>
            rw [content] at null
            cases null
      rw [Node.syncFlags, if_neg (not_not_intro property), null, childless,
        Bool.true_and, List.isEmpty_nil, if_pos rfl, get?_setAttribute,
        nullMark?, null, unmarked]
      simp only [Fields.find?, Option.none_or, if_true, eq_comm]

/-! ## One value after another -/

theorem Linked.node?_hold
    (linked : document.Linked) (known : document.node? id = some node)
    (value : Value) :
    (document.hold id value).node? id =
      some (node.childless.setContent value).syncFlags := by
  have apart : id ∉ document.children id := by
    intro member
    have above := (linked.wiring.links id id).mp member
    exact linked.wiring.grounded.irrefl.irrefl id above
  rw [hold, node?_update_self, node?_shed, known]
  simp only [Option.map_some, if_pos, if_neg apart]

theorem attribute?_of_node?
    (known : document.node? id = some node) (name : String) :
    document.attribute? id name = node.label.attributes.get? name := by
  rw [attribute?, attributes, label, known]
  rfl

/-- The attributes of a property that was given a value. -/
theorem Linked.attribute?_hold
    (linked : document.Linked) (known : document.node? id = some node)
    (property : node.label.kind = .property) (value : Value)
    (name : String) :
    (document.hold id value).attribute? id name =
      if name = AttributeName.isNull then nullMark? value
      else
        (Fields.find? name (rangeMarks value)).or
          (document.attribute? id name) := by
  rw [attribute?_of_node? (linked.node?_hold known value),
    attribute?_of_node? known]
  exact
    @get?_syncFlags (node.childless.setContent value) property rfl name

theorem Linked.hold
    (linked : document.Linked) (known : document.node? id = some node)
    (free : node.readOnly = false) (value : Value) :
    (document.hold id value).Linked := by
  have yields := yields_set linked id (.value value)
  rw [Yields, run_set_value known free value] at yields
  exact yields

theorem Linked.content_hold
    (linked : document.Linked) (known : document.node? id = some node)
    (value : Value) :
    (document.hold id value).content id = value := by
  rw [content_of_node? (linked.node?_hold known value),
    relabels_syncFlags.content]
  rfl

theorem Linked.exists_hold
    (linked : document.Linked) (known : document.node? id = some node)
    (free : node.readOnly = false) (first : Value) :
    (document.hold id first).Linked ∧
      ∃ between, (document.hold id first).node? id = some between ∧
        between.label.kind = node.label.kind ∧ between.readOnly = false := by
  refine ⟨linked.hold known free first, _, linked.node?_hold known first, ?_⟩
  obtain ⟨attributes, same⟩ :=
    exists_syncFlags (node.childless.setContent first)
  rw [same]
  exact ⟨rfl, free⟩

/-- The attributes of a property that was given one value after another. -/
theorem Linked.attribute?_hold_hold
    (linked : document.Linked) (known : document.node? id = some node)
    (property : node.label.kind = .property)
    (free : node.readOnly = false) (first second : Value) (name : String) :
    ((document.hold id first).hold id second).attribute? id name =
      if name = AttributeName.isNull then nullMark? second
      else
        (Fields.find? name (rangeMarks second)).or
          ((Fields.find? name (rangeMarks first)).or
            (document.attribute? id name)) := by
  obtain ⟨linkedBetween, between, knownBetween, kind, -⟩ :=
    linked.exists_hold known free first
  rw [linkedBetween.attribute?_hold knownBetween (kind.trans property),
    linked.attribute?_hold known property]
  split <;> rfl

/-- Setting one value and then another comes to setting the other, but for the
attributes of a date range: those that the first value writes and the second
does not remain as the first wrote them. -/
theorem set_set_eq_set_iff
    (reachable : document.Reachable)
    (known : document.node? id = some node)
    (property : node.label.kind = .property)
    (free : node.readOnly = false) (first second : Value) :
    ∃ once twice,
      (set id (.value second)).run document = .ok () once ∧
      (do
          set id (.value first)
          set id (.value second)).run document = .ok () twice ∧
      once.content id = second ∧ twice.content id = second ∧
      once.children id = [] ∧ twice.children id = [] ∧
      (∀ name ∉ [AttributeName.condition, AttributeName.origDateRange],
        twice.attribute? id name = once.attribute? id name) ∧
      ((∀ name, twice.attribute? id name = once.attribute? id name) ↔
        ∀ mark ∈ rangeMarks first,
          mark.1 ∉ (rangeMarks second).map Prod.fst →
            document.attribute? id mark.1 = some mark.2) := by
  have linked := reachable.linked
  obtain ⟨linkedBetween, between, knownBetween, -, freeBetween⟩ :=
    linked.exists_hold known free first
  have once := linked.attribute?_hold known property second
  have twice := linked.attribute?_hold_hold known property free first second
  refine ⟨document.hold id second, (document.hold id first).hold id second,
    run_set_value known free second, ?_, linked.content_hold known second,
    linkedBetween.content_hold knownBetween second,
    ?_, ?_, ?_, ?_⟩
  · rw [run_bind_of_ok (run_set_value known free first)]
    exact run_set_value knownBetween freeBetween second
  · rw [children_hold, Function.update_self]
  · rw [children_hold, Function.update_self]
  · intro name other
    rw [once, twice, find?_rangeMarks_of_other other first, Option.none_or]
  · rw [← Fields.find?_or_find?_iff (nodup_rangeMarks first)]
    constructor
    · intro same name
      by_cases null : name = AttributeName.isNull
      · rw [null, find?_isNull_rangeMarks first, Option.none_or]
      · have written := same name
        rwa [once, twice, if_neg null, if_neg null] at written
    · intro same name
      rw [once, twice, same name]

/-- The two months up to the present one. -/
def lastMonths : DateRange.Dynamic :=
  ⟨.month, -1, .month, 0, .sunday⟩

/-- A property without content, in a document of its own. -/
def emptyProperty : Document :=
  (new ⟨"en", "en-US", 0, 0, firstMoment⟩).afterCall
    (.createProperty "created_on")

theorem reachable_emptyProperty :
    emptyProperty.Reachable :=
  (Reachable.new _).called _

/-- A fixed range writes its condition only, and a relative one after it writes
that as well. -/
theorem set_set_eq_set_of_ranges :
    let fixed : Value := .staticRange ⟨some emptyProperty.locale.now, none⟩
    let relative : Value := .dynamicRange lastMonths
    emptyProperty.Reachable ∧
      ∃ once twice,
        (set 0 (.value relative)).run emptyProperty = .ok () once ∧
        (do
            set 0 (.value fixed)
            set 0 (.value relative)).run emptyProperty = .ok () twice ∧
        once.children 0 = [] ∧ twice.children 0 = [] ∧
        ∀ name, twice.attribute? 0 name = once.attribute? 0 name := by
  intro fixed relative
  obtain ⟨once, twice, ranOnce, ranTwice, -, -, childless, childlessTwice, -,
      same⟩ :=
    @set_set_eq_set_iff emptyProperty 0 _ reachable_emptyProperty rfl rfl rfl
      fixed relative
  have written :
      ∀ mark ∈ rangeMarks fixed,
        mark.1 ∈ (rangeMarks relative).map Prod.fst := by
    decide +kernel
  exact
    ⟨reachable_emptyProperty, once, twice, ranOnce, ranTwice, childless,
      childlessTwice,
      same.mpr fun mark member absent => absurd (written mark member) absent⟩

/-- A text after a date range leaves the condition of the range behind. -/
theorem condition_outlasts_range :
    ¬ ∀ (document : Document) (id : NodeId) (first second : Value),
      document.Reachable → document.kind? id = some .property →
        document.isReadOnly id = false →
          ∀ name,
            ((document.afterCall (.set id (.value first))).afterCall
                (.set id (.value second))).attribute? id name =
              (document.afterCall (.set id (.value second))).attribute? id
                name := by
  intro decides
  have same :=
    decides emptyProperty 0 (.dynamicRange lastMonths) (.text "x")
      reachable_emptyProperty rfl rfl AttributeName.condition
  exact absurd same (by decide +kernel)

end AmlExchange.Document
