import AmlExchange.Proofs.Document.Brevity

/-!
# What was written, in another language

An element whose value is in another language than that of the locale is
written under a name for such values.  Read back where its language is that of
the locale, it keeps this name, and an element with this name that is in the
language of the locale is not written.  Nothing else that was written is refused
when it is to be written again, in whatever locale
(`written_in_other_language`).
-/

namespace AmlExchange.Document

/-! ## Labels that were written -/

/-- Whether a label is one that is written in a locale.  Its attributes can be
written again, and its name belongs to no namespace that is unknown, and to that
of other languages only if it names one. -/
structure Label.Written (locale : Locale) (label : Label) : Prop where
  permitted : ∀ field ∈ label.attributes.entries, Permitted field.1
  known : ∀ space, Markup.space? label.name = some space →
    space = Space.envelope.name ∨ space = Space.fault.name ∨
      space = Space.foreign.name ∧
        ∃ language ∈ label.attributes.get? AttributeName.xmlLang,
          language ≠ locale.language

/-- Whether an element has a name for values in other languages, but is in the
language of a locale. -/
def Label.Clashes (locale : Locale) (label : Label) : Prop :=
  Markup.space? label.name = some Space.foreign.name ∧
    label.attributes.get? AttributeName.xmlLang = some locale.language

instance (locale : Locale) (label : Label) :
    Decidable (label.Clashes locale) :=
  inferInstanceAs (Decidable (_ = _ ∧ _ = _))

/-- An element that is not in another language can be written if its name
belongs to no namespace, or to one of those for messages. -/
theorem exists_writtenName_of_native
    {locale : Locale} {element : Element}
    (native : isForeign locale element = false) :
    (∃ spelt, writtenName locale element = .ok spelt) ↔
      ∀ space, Markup.space? element.label.name = some space →
        space = Space.envelope.name ∨ space = Space.fault.name := by
  rw [writtenName, if_neg (by simp [native])]
  cases Markup.space? element.label.name with
  | none => simp
  | some space =>
      by_cases envelope : space = Space.envelope.name
      · simp [envelope]
      · by_cases fault : space = Space.fault.name
        · rw [fault] at envelope
          simp [envelope, fault]
        · simp [envelope, fault]

/-- An element that was written in one locale can be written in another one
unless it clashes with it. -/
theorem Label.Written.exists_writtenName_iff
    {locale other : Locale} {element : Element}
    (written : element.label.Written locale) :
    (∃ spelt, writtenName other element = .ok spelt) ↔
      ¬ element.label.Clashes other := by
  cases foreign : isForeign other element with
  | true =>
      obtain ⟨language, given, differs⟩ := isForeign_eq_true_iff.mp foreign
      refine iff_of_true ⟨_, by rw [writtenName, if_pos foreign]⟩ ?_
      rintro ⟨-, same⟩
      rw [Element.attribute?, same] at given
      exact differs (Option.some_inj.mp given).symm
  | false =>
      rw [exists_writtenName_of_native foreign]
      constructor
      · rintro known ⟨isForeign, -⟩
        rcases known _ isForeign with same | same <;>
          exact absurd same (by decide)
      · intro agrees space found
        rcases written.known space found with
          envelope | fault | ⟨rfl, language, given, -⟩
        · exact .inl envelope
        · exact .inr fault
        · have same : language = other.language := by
            by_contra differs
            rw [isForeign_eq_true_iff.mpr ⟨language, given, differs⟩] at foreign
            cases foreign
          exact absurd ⟨found, same ▸ given⟩ agrees

section

variable {form : Form} {bound : List Space} {element : Element}

/-- What is read back of a tag is as it was written. -/
theorem written_label_reread
    (spelt : ∃ written, writtenName form.locale element = .ok written)
    (permitted : ∀ field ∈ element.label.attributes.entries,
      Permitted field.1)
    (parent : Option Kind) (children : List (Tree Tag)) :
    (reread parent
      (.node (tagOf form bound element) children)).label.Written
        form.locale := by
  constructor
  · rw [entries_reread (nodup_tagOf ..)]
    exact permitted_tagOf permitted
  · intro space found
    rw [name_reread] at found
    replace found :
        Markup.space? (spelling form.locale element).1 = some space :=
      found
    cases foreign : isForeign form.locale element with
    | true =>
        rw [spelling_of_foreign foreign, space?_qualify] at found
        have language := isForeign_eq_true_iff.mp foreign
        rw [← @attribute?_reread form bound element _ (by decide) (by decide)
          (by decide) parent children] at language
        exact .inr (.inr ⟨(Option.some_inj.mp found).symm, language⟩)
    | false =>
        rw [spelling_of_native foreign] at found
        rcases (exists_writtenName_of_native foreign).mp spelt space found with
          envelope | fault
        · exact .inl envelope
        · exact .inr (.inl fault)

end

mutual

/-- Every element that is read back of a page is as it was written. -/
theorem written_reread
    {form : Form} (bound : List Space) (parent : Option Kind)
    (tree : Element) (writable : Writable form tree) :
    ∀ label ∈ (reread parent (page form bound tree)).toList,
      label.Written form.locale := by
  obtain ⟨spelt, permitted, below⟩ := (writable_iff ..).mp writable
  cases tree with
  | node label children =>
      cases refers : referent? form (.node label children) with
      | some item =>
          rw [page_of_reference refers, reread_node, Tree.toList,
            List.forall_mem_cons]
          exact ⟨written_label_reread spelt permitted parent [], nofun⟩
      | none =>
          rw [page_of_direct refers, reread_node, Tree.toList,
            List.forall_mem_cons]
          exact
            ⟨written_label_reread spelt permitted parent _,
              written_rereadAll _ _ children (below refers)⟩

theorem written_rereadAll
    {form : Form} (bound : List Space) (parent : Option Kind)
    (trees : List Element) (writable : WritableAll form trees) :
    ∀ label ∈ Tree.toListAll (rereadAll parent (pages form bound trees)),
      label.Written form.locale := by
  cases trees with
  | nil => exact nofun
  | cons tree rest =>
      rw [WritableAll] at writable
      rw [pages, rereadAll, Tree.toListAll, List.forall_mem_append]
      exact
        ⟨written_reread bound parent tree writable.1,
          written_rereadAll bound parent rest writable.2⟩

end

/-! ## Copies in another locale -/

section

variable {document : Document}

/-- The elements that are read back are in the languages of those that are
written. -/
theorem Linked.languages_rereading
    (linked : document.Linked) (id : NodeId) :
    (document.rereading false id).toList.map
        (fun label => label.attributes.get? AttributeName.xmlLang) =
      (document.briefOutline (document.outline id)).toList.map fun element =>
        document.attribute? element AttributeName.xmlLang := by
  have shown (attributes : List (String × String)) :
      Fields.find? AttributeName.xmlLang (visible attributes) =
        Fields.find? AttributeName.xmlLang attributes :=
    find?_visible (by decide) attributes
  have written (element : NodeId) :
      Fields.find? AttributeName.xmlLang
          (document.briefSight element).attributes =
        document.attribute? element AttributeName.xmlLang := by
    rw [← linked.sight_tagOf [] element, Tag.sight, shown,
      find?_tagOf (by decide) (by decide) (by decide), linked.attribute?_tree]
  have looks :=
    congrArg Tree.toList (linked.sight_rereading document.locale id)
  rw [toList_map, toList_map] at looks
  have languages :=
    congrArg
      (List.map fun sight =>
        Fields.find? AttributeName.xmlLang sight.attributes) looks
  simp only [List.map_map, Function.comp_def, Label.sight, shown,
    written] at languages
  exact languages

/-- What an element is written as, read back in another locale, can be written
there exactly if no element that is to be written clashes with the locale. -/
theorem Linked.exists_again_iff
    (linked : document.Linked) {id : NodeId}
    (named : document.BrieflyNamed id) {text : String}
    (written : document.toAml false id = .ok text) (other : Locale)
    (stored : Bool) :
    let copy := ofTrees other stored [document.rereading false id]
    (∀ element ∈ (copy.outline 0).toList,
        (copy.label element).Written document.locale) ∧
      ((∃ again, copy.toAml false 0 = .ok again) ↔
        ∀ element ∈ (copy.briefOutline (copy.outline 0)).toList,
          ¬ (copy.label element).Clashes other) := by
  intro copy
  have valid := document.valid_rereading false id
  have copyLinked : copy.Linked := linked_ofTrees other stored valid
  have tree : copy.tree 0 = document.rereading false id :=
    tree_ofTrees other stored valid
  have lawful :=
    lawful_page_of_outline linked [] (document.outline id) rfl named
  have copyNamed :
      ∀ element ∈ (copy.outline 0).toList, (copy.label element).Named := by
    rw [← forall_mem_tree, tree]
    exact (regular_reread none _ lawful).named
  have copyWritten :
      ∀ element ∈ (copy.outline 0).toList,
        (copy.label element).Written document.locale := by
    rw [← forall_mem_tree, tree]
    exact written_reread [] none _ (writable_of_toAml written)
  refine ⟨copyWritten, ?_⟩
  rw [copyLinked.exists_toAml_iff fun element member =>
    copyNamed element (mem_outline_of_brief _ member)]
  refine forall₂_congr fun element member => ?_
  have label := copyWritten element (mem_outline_of_brief _ member)
  rw [← copyLinked.label_tree] at label
  rw [show copy.locale = other from rfl, label.exists_writtenName_iff,
    copyLinked.label_tree]
  rw [copyLinked.label_tree] at label
  exact and_iff_left label.permitted

/-- An element of a copy that clashes with the locale of the copy is the copy of
one in its language. -/
theorem Linked.exists_of_clashes
    (linked : document.Linked) {id : NodeId} {other : Locale} {stored : Bool}
    {element : NodeId}
    (member : element ∈
      ((ofTrees other stored [document.rereading false id]).outline 0).toList)
    (clashes :
      ((ofTrees other stored [document.rereading false id]).label
        element).Clashes other) :
    ∃ original ∈ (document.briefOutline (document.outline id)).toList,
      document.attribute? original AttributeName.xmlLang =
        some other.language := by
  have tree := tree_ofTrees other stored (document.valid_rereading false id)
  have language :
      some other.language ∈
        (document.rereading false id).toList.map
          fun label => label.attributes.get? AttributeName.xmlLang := by
    rw [← tree, Document.tree, toList_map, List.map_map]
    exact List.mem_map.mpr ⟨element, member, clashes.2⟩
  rw [linked.languages_rereading] at language
  exact List.mem_map.mp language

end

/-- What an element is written as is read back in any locale as one tree.  The
tree can be written again exactly if none of its elements that is to be written
has a name for other languages while its language is that of the new locale.
So it can be written again in the same language, and in one that none of the
written elements has. -/
theorem written_in_other_language
    {document : Document} (reachable : document.Reachable) {id : NodeId}
    (named : document.BrieflyNamed id) {text : String}
    (written : document.toAml false id = .ok text) (other : Locale)
    (stored : Bool) :
    ∃ copy root,
      parse .unlimited other stored text = .ok copy ∧ copy.roots = [root] ∧
        ((∃ again, copy.toAml false root = .ok again) ↔
          ∀ element ∈ (copy.briefOutline (copy.outline root)).toList,
            ¬ (copy.label element).Clashes other) ∧
        ((other.language = document.locale.language ∨
            ∀ element ∈ (document.briefOutline (document.outline id)).toList,
              document.attribute? element AttributeName.xmlLang ≠
                some other.language) →
          ∃ again, copy.toAml false root = .ok again) := by
  have linked := reachable.linked
  obtain ⟨labels, again⟩ :=
    linked.exists_again_iff named written other stored
  refine ⟨_, 0, linked.parse_brief named written other stored,
    roots_ofTrees other stored (document.valid_rereading false id), again,
    fun spared => again.mpr fun element member clashes => ?_⟩
  have within := mem_outline_of_brief _ member
  rcases spared with same | apart
  · rcases (labels element within).known _ clashes.1 with
      envelope | fault | ⟨-, language, given, differs⟩
    · exact absurd envelope (by decide)
    · exact absurd fault (by decide)
    · rw [clashes.2, Option.mem_some_iff] at given
      exact differs (given.symm.trans same)
  · obtain ⟨original, isWritten, language⟩ :=
      linked.exists_of_clashes within clashes
    exact apart original isWritten language

/-- A part with a German name. -/
def partWithGermanName : Document :=
  [.createItem "Part" none, .setProperty 0 "name" (.value (.text "Teil")),
    .setAttribute 1 "xml:lang" "de"].foldl afterCall (new english)

/-- The part as it is written for English callers. -/
def writtenGermanName : String :=
  "<Item type=\"Part\"><i18n:name xmlns:i18n=\"http://www.aras.com/I18N\"" ++
    " xml:lang=\"de\">Teil</i18n:name></Item>"

theorem reachable_partWithGermanName :
    partWithGermanName.Reachable :=
  (Reachable.new _).calls _

theorem outline_partWithGermanName :
    (partWithGermanName.briefOutline (partWithGermanName.outline 0)).toList =
      [0, 1] := by
  decide +kernel

theorem named_partWithGermanName :
    partWithGermanName.BrieflyNamed 0 := by
  rw [BrieflyNamed, outline_partWithGermanName]
  decide +kernel

theorem toAml_partWithGermanName :
    partWithGermanName.toAml false 0 = .ok writtenGermanName :=
  eq_ok_of_toOption (by decide +kernel)

/-- The locale of French callers. -/
def french : Locale :=
  ⟨"fr", "fr_FR", 0, 0, firstMoment⟩

theorem written_in_other_language_of_french :
    ∃ copy root again,
      parse .unlimited french false writtenGermanName = .ok copy ∧
        copy.roots = [root] ∧ copy.toAml false root = .ok again := by
  have apart :
      ∀ element ∈ (partWithGermanName.briefOutline
          (partWithGermanName.outline 0)).toList,
        partWithGermanName.attribute? element AttributeName.xmlLang ≠
          some french.language := by
    rw [outline_partWithGermanName]
    decide +kernel
  obtain ⟨copy, root, read, roots, -, spared⟩ :=
    written_in_other_language reachable_partWithGermanName
      named_partWithGermanName toAml_partWithGermanName french false
  obtain ⟨again, writtenAgain⟩ := spared (.inr apart)
  exact ⟨copy, root, again, read, roots, writtenAgain⟩

/-- The locale of German callers. -/
def german : Locale :=
  ⟨"de", "de_DE", 0, 0, firstMoment⟩

/-- A German name that was written for English callers is not written again for
German ones. -/
theorem german_name_is_not_written_again :
    ¬ ∀ (document copy : Document) (id root : NodeId) (text : String)
        (other : Locale) (stored : Bool),
      document.Reachable → document.BrieflyNamed id →
        document.toAml false id = .ok text →
          parse .unlimited other stored text = .ok copy →
            copy.roots = [root] →
              ∃ again, copy.toAml false root = .ok again := by
  intro complete
  have second :
      (parse .unlimited german false writtenGermanName).toOption.map
          (fun copy => (copy.roots, (copy.toAml false 0).toOption)) =
        some ([0], none) := by
    decide +kernel
  obtain ⟨copy, readAgain, facts⟩ := Option.map_eq_some_iff.mp second
  obtain ⟨roots, refused⟩ := Prod.mk.inj facts
  obtain ⟨again, writtenAgain⟩ :=
    complete partWithGermanName copy 0 0 _ german false
      reachable_partWithGermanName named_partWithGermanName
      toAml_partWithGermanName (eq_ok_of_toOption readAgain) roots
  rw [writtenAgain] at refused
  cases refused

end AmlExchange.Document
