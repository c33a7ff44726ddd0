import AmlExchange.Proofs.Document.Pages
import AmlExchange.Proofs.Document.Refusals
import AmlExchange.Proofs.Document.Readback
import AmlExchange.Proofs.Template.RangeElements

/-!
# Date ranges in properties and in templates

A date range is written in two ways: as the value of a property, and for a
placeholder within the element of the property.  Both write the condition of
the range and, for a relative one, its definition.  But the property leaves the
definition out where there is no condition to go with it, which is the case for
a relative range without bounds (`toAml_eq_fill_iff`).
-/

namespace AmlExchange.Document

open Markup (Draft Node markupAll normalForm)
open Template (elementMarkup isRange ofArgument placeholderElement
  rangeOffers textElement)

variable
  {document : Document} {item : NodeId} {node : Document.Node}
  {name : String} {value : Value}

/-! ## A fresh property -/

/-- A property made for a value, as it hangs from an item. -/
def madeFor (value : Value) (item : NodeId) (name : String) :
    Document.Node :=
  let fresh : Document.Node :=
    { Node.bare name .property with parent := .attached item }
  (fresh.childless.setContent value).syncFlags

/-- A property made for a date range has the attributes of the range and no
others. -/
theorem entries_madeFor
    (ranged : isRange value = true) (item : NodeId) (name : String) :
    (madeFor value item name).label.attributes.entries =
      rangeMarks value := by
  cases value with
  | dynamicRange range =>
      show
        (Node.setRange _ range.condition
            (some range.serialize)).label.attributes.entries =
          rangeFields range.condition (some range.serialize)
      rw [Node.setRange, rangeFields]
      cases range.condition.text? <;> rfl
  | staticRange range =>
      show
        (Node.setRange _ range.condition none).label.attributes.entries =
          rangeFields range.condition none
      rw [Node.setRange, rangeFields]
      cases range.condition.text? <;> rfl
  | _ => cases ranged

theorem locale_hold
    (document : Document) (id : NodeId) (value : Value) :
    (document.hold id value).locale = document.locale :=
  locale_shed document id

/-- All that there is to a property made for a date range. -/
theorem exists_madeFor
    (ranged : isRange value = true) (item : NodeId) (name : String) :
    ∃ attributes,
      attributes.entries = rangeMarks value ∧
        madeFor value item name =
          ⟨⟨name, .property, attributes, value⟩, [], .attached item, false,
            false⟩ := by
  have marked := entries_madeFor ranged item name
  rw [madeFor] at marked ⊢
  obtain ⟨attributes, same⟩ :=
    exists_syncFlags
      (({ Node.bare name .property with parent := .attached item } :
        Document.Node).childless.setContent value)
  rw [same] at marked ⊢
  exact ⟨attributes, marked, rfl⟩

/-- A value is put into a property that is made for it. -/
theorem run_setProperty_of_absent
    (linked : document.Linked) (known : document.node? item = some node)
    (free : node.readOnly = false)
    (absent : document.child? item name = none) (value : Value) :
    ∃ final,
      (setProperty item name (.value value)).run document =
          .ok document.nextId final ∧
        final.Linked ∧ final.locale = document.locale ∧
          final.node? document.nextId = some (madeFor value item name) := by
  obtain ⟨_, between, added⟩ :=
    linked.grants_hang_push known (.bare name .property)
  have made :
      (propertyNode item name).run document =
        .ok document.nextId between := by
    rw [propertyNode, run_get_bind, absent]
    dsimp only
    rw [run_bind_of_ok (run_assertModifiable known free),
      run_bind_of_ok (show (createProperty name).run document = .ok _ _
        from rfl)]
    exact run_bind_of_ok added _
  obtain ⟨linkedBetween, -, locale, -⟩ := found_propertyNode linked made
  obtain ⟨differs, rfl⟩ :=
    run_addNode_eq_ok (node?_push document (.bare name .property)) rfl added
  have hung := node?_hang_push differs name .property
  refine ⟨_, ?_, linkedBetween.hold hung rfl value, ?_,
    linkedBetween.node?_hold hung value⟩
  · rw [setProperty, run_bind_of_ok made,
      run_bind_of_ok (run_set_value hung rfl value)]
    rfl
  · rw [locale_hold, locale]

/-! ## How it is written -/

theorem Linked.tree_leaf
    (linked : document.Linked) (known : document.node? item = some node)
    (childless : node.children = []) :
    document.tree item = .node node.label [] := by
  rw [linked.tree_eq, children_of_node? known, childless, label,
    known]
  rfl

/-- The bindings of namespaces that an element without others around it is
written with. -/
def bindings (locale : Locale) (element : Element) :
    List (String × String) :=
  (unbound [] (spelling locale element).2).map fun space =>
    (space.binding, space.uri)

/-- The names of the attributes of a date range stand for no namespace. -/
theorem space?_of_mem
    {name : String}
    (member : name ∈ [AttributeName.condition, AttributeName.origDateRange]) :
    Markup.space? name = none := by
  revert name
  decide

section

variable
  {label : Label} (ranged : isRange label.content = true)
  (marked : label.attributes.entries = rangeMarks label.content)

include marked

theorem space?_marks :
    ∀ field ∈ label.attributes.entries, Markup.space? field.1 = none := by
  rw [marked]
  intro field member
  apply space?_of_mem
  exact (names_rangeMarks label.content).subset (List.mem_map_of_mem member)

theorem isForeign_of_rangeMarks
    (locale : Locale) (children : List Element) :
    isForeign locale (.node label children) = false := by
  have absent : label.attributes.get? AttributeName.xmlLang = none := by
    rw [Fields.get?, marked]
    exact find?_rangeMarks_of_other (by decide) label.content
  rw [isForeign, Element.attribute?, Tree.label, absent]

/-- Nothing is bound for an element if and only if its name stands for no
namespace. -/
theorem bindings_eq_nil_iff
    {form : Form} :
    Writable form (.node label []) ∧
        bindings form.locale (.node label []) = [] ↔
      Markup.space? label.name = none := by
  have native := isForeign_of_rangeMarks marked form.locale []
  cases found : Markup.space? label.name with
  | none =>
      have spelt :
          writtenName form.locale (.node label []) =
            .ok (label.name, none) := by
        simp only [writtenName, native, Bool.false_eq_true, if_false,
          Tree.label, found]
      refine iff_of_true ⟨?_, ?_⟩ rfl
      · rw [Writable]
        refine ⟨⟨_, spelt⟩, ?_, fun _ => trivial⟩
        intro field member space named
        rw [space?_marks marked field member] at named
        cases named
      · rw [bindings, spelling_eq spelt]
        rfl
  | some space =>
      refine iff_of_false ?_ nofun
      rintro ⟨writable, nothing⟩
      rw [Writable] at writable
      obtain ⟨⟨written, same⟩, -⟩ := writable
      rw [bindings, spelling_eq same] at nothing
      simp only [writtenName, native, Bool.false_eq_true, if_false,
        Tree.label, found] at same
      split_ifs at same <;> cases same <;> cases nothing

include ranged

theorem nodeOf_rangeLabel
    (form : Form) :
    nodeOf (page form [] (.node label [])) =
      textElement label.name
        (bindings form.locale (.node label []) ++ rangeMarks label.content)
        (form.locale.format label.content) := by
  have native := isForeign_of_rangeMarks marked form.locale []
  have seen :
      visible (Tree.node label ([] : List Element)).label.attributes.entries =
        rangeMarks label.content := by
    rw [← marked, visible]
    apply List.filter_eq_self.mpr
    intro field member
    simp [space?_marks marked field member]
  have present : label.content.isNull = false := by
    cases content : label.content <;> simp_all [isRange, Value.isNull]
  have value :
      Element.value? form.locale (.node label []) =
        some (form.locale.format label.content) := by
    simp [Element.value?, Tree.label, Tree.children, present]
  rw [page, nodeOf, tagOf, addedFields, writtenText, writtenFields,
    referent?_leaf]
  dsimp only
  rw [spelling_of_native native, value, seen, List.append_nil]
  rfl

/-- An element that holds nothing but a date range, and has the attributes of
the range, is written with them and with the bindings of namespaces. -/
theorem toText_rangeLabel_iff
    {form : Form} {text : String} :
    (treeDraft form [] (.node label [])).toText = .ok text ↔
      Writable form (.node label []) ∧
        text =
          elementMarkup label.name
            (bindings form.locale (.node label []) ++
              rangeMarks label.content)
            (form.locale.format label.content) := by
  have written (writable : Writable form (.node label [])) :
      (treeDraft form [] (.node label [])).toText =
        .ok
          (elementMarkup label.name
            (bindings form.locale (.node label []) ++
              rangeMarks label.content)
            (form.locale.format label.content)) := by
    rw [toText_treeDraft writable, nodeOf_rangeLabel ranged marked,
      Node.instructions_eq_flatMap]
    exact Markup.toText_events (Template.nested_textElement ..)
  constructor
  · intro done
    have writable :=
      (fault_treeDraft form [] _).mp (Draft.fault_of_toText done)
    exact
      ⟨writable, (Except.ok.inj ((written writable).symm.trans done)).symm⟩
  · rintro ⟨writable, rfl⟩
    exact written writable

end

/-! ## The attributes of both -/

theorem names_rangeOffers
    (value : Value) :
    ((rangeOffers value).map Prod.fst).Sublist
      [AttributeName.condition, AttributeName.origDateRange] := by
  cases value with
  | dynamicRange range =>
      rw [rangeOffers, Template.conditionFields]
      cases range.condition.text? with
      | none => exact (List.Sublist.refl _).cons _
      | some text => exact List.Sublist.refl _
  | staticRange range =>
      rw [rangeOffers, Template.conditionFields]
      cases range.condition.text? with
      | none => exact List.nil_sublist _
      | some text => exact (List.nil_sublist _).cons_cons _
  | _ => exact List.nil_sublist _

theorem areFields_of_names
    {fields : List (String × String)}
    (names : (fields.map Prod.fst).Sublist
      [AttributeName.condition, AttributeName.origDateRange]) :
    Markup.Reader.AreFields fields := by
  have areNames :
      ∀ name ∈ [AttributeName.condition, AttributeName.origDateRange],
        Markup.isName name.toList = true := by
    decide
  exact
    ⟨fun field member =>
        areNames _ (names.subset (List.mem_map_of_mem member)),
      names.nodup (by decide)⟩

/-- Whether a value is a relative range without bounds. -/
def isBoundless : Value → Bool
  | .dynamicRange range => range.isStartOpen && range.isEndOpen
  | _ => false

theorem condition_text?_eq_none_iff
    (range : DateRange.Dynamic) :
    range.condition.text? = none ↔ isBoundless (.dynamicRange range) = true := by
  rw [DateRange.Dynamic.condition, isBoundless]
  cases range.isStartOpen <;> cases range.isEndOpen <;>
    simp [Condition.text?]

/-- A property has the attributes that a placeholder brings along, unless the
range has no bounds. -/
theorem rangeMarks_eq_iff
    (ranged : isRange value = true) :
    rangeMarks value = rangeOffers value ↔ isBoundless value = false := by
  cases value with
  | dynamicRange range =>
      rw [← Bool.not_eq_true, ← condition_text?_eq_none_iff, rangeMarks,
        rangeFields, rangeOffers, Template.conditionFields]
      cases range.condition.text? <;> simp
  | staticRange range =>
      rw [rangeMarks, rangeFields, rangeOffers, Template.conditionFields]
      cases range.condition.text? <;> simp [isBoundless]
  | _ => cases ranged

/-- Attributes of a date range with bindings before them are those of a range
only if nothing is bound. -/
theorem bindings_append_eq_iff
    {locale : Locale} {element : Element}
    {marks offers : List (String × String)}
    (names : (offers.map Prod.fst).Sublist
      [AttributeName.condition, AttributeName.origDateRange]) :
    bindings locale element ++ marks = offers ↔
      bindings locale element = [] ∧ marks = offers := by
  constructor
  · intro same
    cases bound : bindings locale element with
    | nil =>
        rw [bound, List.nil_append] at same
        exact ⟨rfl, same⟩
    | cons field rest =>
        rw [bound] at same
        have inOffers : field ∈ offers := same ▸ List.mem_cons_self
        have inBindings : field ∈ bindings locale element :=
          bound ▸ List.mem_cons_self
        obtain ⟨space, -, rfl⟩ := List.mem_map.mp inBindings
        have plain :=
          space?_of_mem (names.subset (List.mem_map_of_mem inOffers))
        rw [space?_binding] at plain
        cases plain
  · rintro ⟨nothing, rfl⟩
    rw [nothing, List.nil_append]

theorem areFields_bindings_append
    (locale : Locale) (element : Element) (value : Value) :
    Markup.Reader.AreFields
      (bindings locale element ++ rangeMarks value) := by
  have marks := areFields_of_names (names_rangeMarks value)
  rw [bindings]
  cases (spelling locale element).2 with
  | none => exact marks
  | some space =>
      constructor
      · exact List.forall_mem_cons.mpr ⟨isName_binding space, marks.1⟩
      · refine List.nodup_cons.mpr ⟨?_, marks.2⟩
        intro member
        have plain := space?_of_mem ((names_rangeMarks value).subset member)
        rw [space?_binding] at plain
        cases plain

/-- The property that is made for a date range is written like the element
that a placeholder for the range fills, if and only if the range has bounds
or is a fixed one, the name of the property stands for no namespace, and the
template is not too large to be read. -/
theorem toAml_eq_fill_iff
    (reachable : document.Reachable)
    (known : document.node? item = some node) (free : node.readOnly = false)
    (absent : document.child? item name = none)
    (isName : Markup.isName name.toList = true)
    (ranged : isRange value = true) :
    ∃ property final,
      (setProperty item name (.value value)).run document =
          .ok property final ∧
        ∀ expanded,
          (∃ text,
              final.toAml expanded property = .ok text ∧
                ((ofArgument value).fill document.locale none
                    (placeholderElement name)).2.text =
                  .ok text) ↔
            isBoundless value = false ∧ Markup.space? name = none ∧
              (placeholderElement name).utf8ByteSize ≤
                Markup.Limits.standard.size := by
  obtain ⟨final, ran, linked, locale, made⟩ :=
    run_setProperty_of_absent reachable.linked known free absent value
  refine ⟨document.nextId, final, ran, fun expanded => ?_⟩
  obtain ⟨attributes, marked, same⟩ := exists_madeFor ranged item name
  have tree := linked.tree_leaf (same ▸ made) rfl
  have written {text : String} :=
    @toText_rangeLabel_iff ⟨name, .property, attributes, value⟩ ranged marked
      ⟨final.locale, expanded⟩ text
  have native :=
    @bindings_eq_nil_iff ⟨name, .property, attributes, value⟩ marked
      ⟨final.locale, expanded⟩
  have areOffers := areFields_of_names (names_rangeOffers value)
  rw [toAml, draft, tree]
  constructor
  · rintro ⟨text, property, filled⟩
    have small := Template.small_of_fill filled
    rw [Template.fill_placeholderElement ranged isName small] at filled
    obtain ⟨writable, rfl⟩ := written.mp property
    have alike := Except.ok.inj filled
    rw [locale, Template.elementMarkup_inj isName areOffers
      (areFields_bindings_append ..), eq_comm, bindings_append_eq_iff
        (names_rangeOffers value), rangeMarks_eq_iff ranged, ← locale] at alike
    exact ⟨alike.2, native.mp ⟨writable, alike.1⟩, small⟩
  · rintro ⟨bounded, plain, small⟩
    obtain ⟨writable, nothing⟩ := native.mpr plain
    refine
      ⟨_, written.mpr ⟨writable, rfl⟩,
        (Template.fill_placeholderElement ranged isName small _).trans ?_⟩
    rw [nothing, List.nil_append, (rangeMarks_eq_iff ranged).mpr bounded,
      locale]

/-- An item without properties. -/
def onePart : Document :=
  (new english).afterCall (.createItem "Part" none)

theorem reachable_onePart :
    onePart.Reachable :=
  (Reachable.new english).called _

theorem toAml_eq_fill_of_lastMonths :
    onePart.Reachable ∧
      ∃ property final,
        (setProperty 0 "created_on"
              (.value (.dynamicRange lastMonths))).run onePart =
            .ok property final ∧
          ∃ text,
            final.toAml false property = .ok text ∧
              ((ofArgument (.dynamicRange lastMonths)).fill onePart.locale
                  none (placeholderElement "created_on")).2.text =
                .ok text := by
  obtain ⟨property, final, ran, same⟩ :=
    @toAml_eq_fill_iff onePart 0 _ "created_on" (.dynamicRange lastMonths)
      reachable_onePart rfl rfl rfl (by decide) rfl
  refine ⟨reachable_onePart, property, final, ran, (same false).mpr ?_⟩
  decide +kernel

/-- A property loses the definition of a range without bounds, which a template
keeps. -/
theorem boundless_range_loses_definition :
    ¬ ∀ (document : Document) (item : NodeId) (name : String) (value : Value),
      document.Reachable → document.kind? item = some .item →
        document.isReadOnly item = false →
          document.child? item name = none →
            Markup.isName name.toList = true → isRange value = true →
              ∀ (property : NodeId) (final : Document),
                (setProperty item name (.value value)).run document =
                    .ok property final →
                  ∀ expanded,
                    (final.toAml expanded property).toOption =
                      ((ofArgument value).fill document.locale none
                        (placeholderElement name)).2.text.toOption := by
  intro agree
  have same :=
    agree onePart 0 "created_on" (.dynamicRange .unbounded) reachable_onePart
      rfl rfl rfl (by decide) rfl 1
      (onePart.afterCall
        (.setProperty 0 "created_on" (.value (.dynamicRange .unbounded))))
      rfl false
  exact absurd same (by decide +kernel)

end AmlExchange.Document
