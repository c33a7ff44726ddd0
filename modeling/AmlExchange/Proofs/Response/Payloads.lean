import AmlExchange.Proofs.Response.Faults
import AmlExchange.Proofs.Response.Reachable

/-!
# Payloads travel in envelopes

The items of a response are written one after the other into its result, each
of them as if it stood alone, and the message after the result.  Read back, the
parts of the envelope are told apart by their names.  So a response comes back
with the same text or the same trees, and with the same message if it had one
(`read_written_payload`).
-/

namespace AmlExchange

open Document (NodeId Tag Element Sight nodeOf nodesOf page pages reread
  rereadAll)
open Markup (Draft Instruction effective effective_append)

/-- What callers see of an element and of all below it. -/
def Document.shown (document : Document) (id : NodeId) :
    Document.Tree Sight :=
  (document.outline id).map document.sight

namespace Response

/-- The items of a response, whether or not it reports a fault. -/
def heldItems (response : Response) : List NodeId :=
  match response.payload with
  | .items ids => ids
  | _ => []

/-- The elements that a response is written of. -/
def written (response : Response) : List NodeId :=
  response.heldItems ++ response.message.toList

/-! ## The page of a response -/

/-- All that is written of some elements of a response. -/
def pagesOf (response : Response) (ids : List NodeId) :
    List (Document.Tree Tag) :=
  pages ⟨response.document.locale, true⟩ [] (ids.map response.document.tree)

/-- All that is written of the result of a response. -/
def resultPage (response : Response) : Document.Tree Tag :=
  .node ⟨"Result", [], response.value?.getD ""⟩
    (response.pagesOf response.heldItems)

/-- All that is written of a response that reports no fault. -/
def answerPage (response : Response) : Document.Tree Tag :=
  envelopeOf
    (response.resultPage :: response.pagesOf response.message.toList)

/-! ## Writing -/

theorem concat_draft
    (document : Document) (expanded : Bool) (ids : List NodeId) :
    Draft.concat (ids.map (document.draft expanded)) =
      Document.treesDraft ⟨document.locale, expanded⟩ []
        (ids.map document.tree) := by
  induction ids with
  | nil => rfl
  | cons id rest ih =>
      rw [List.map_cons, List.map_cons, Draft.concat, ih, Document.treesDraft]
      rfl

section

variable {response : Response}

theorem effective_trees
    {ids : List NodeId}
    (complete :
      (Draft.concat (ids.map (response.document.draft true))).fault = none) :
    effective
        (Draft.concat (ids.map (response.document.draft true))).instructions =
      effective
        (Markup.Node.instructionsAll (nodesOf (response.pagesOf ids))) := by
  rw [concat_draft] at complete ⊢
  exact
    Document.instructions_treesDraft _ _ _
      ((Document.fault_treesDraft ..).mp complete)

theorem effective_resultDraft
    (complete : (response.resultDraft true).fault = none) :
    effective (response.resultDraft true).instructions =
      effective
        (.text (response.value?.getD "") ::
          Markup.Node.instructionsAll
            (nodesOf (response.pagesOf response.heldItems))) := by
  rw [resultDraft] at complete ⊢
  rw [value?, heldItems]
  cases held : response.payload with
  | items ids =>
      simp only [held] at complete
      exact effective_trees complete
  | value text => rfl
  | empty => rfl
  | fault fault => rfl

/-- The message of a response, after its result. -/
def messageDraft (response : Response) : Draft :=
  .concat (response.message.toList.map (response.document.draft true))

theorem bodyDraft_eq
    (clear : response.fault? = none) :
    response.bodyDraft true =
      .of [.startElement "Result"] ++ response.resultDraft true ++
        .of [.endElement] ++ response.messageDraft := by
  rw [bodyDraft, clear]
  dsimp only
  congr 1
  rw [messageDraft]
  cases response.message with
  | none => rfl
  | some message => exact (Document.append_empty _).symm

theorem instructions_answerPage
    (response : Response) :
    (nodeOf response.answerPage).instructions =
      [.startElement (Space.envelope.qualify "Envelope"),
          .setAttribute Space.envelope.binding Space.envelope.uri, .text "",
          .startElement (Space.envelope.qualify "Body"), .text "",
          .startElement "Result"] ++
        (.text (response.value?.getD "") ::
          Markup.Node.instructionsAll
            (nodesOf (response.pagesOf response.heldItems))) ++
        [.endElement] ++
        Markup.Node.instructionsAll
          (nodesOf (response.pagesOf response.message.toList)) ++
        [.endElement] ++ [.endElement] := by
  simp [answerPage, envelopeOf, resultPage, instructions_node, nodesOf,
    Markup.Node.instructionsAll, element]

/-- The draft of a response that reports no fault writes its page, but for the
ends of two elements. -/
theorem effective_draft
    (clear : response.fault? = none)
    (complete : (response.draft true).fault = none) :
    effective
        ((response.draft true).instructions ++ [.endElement] ++
          [.endElement]) =
      effective (nodeOf response.answerPage).instructions := by
  rw [draft, bodyDraft_eq clear] at complete ⊢
  obtain ⟨-, inside⟩ := (Draft.fault_append ..).mp complete
  obtain ⟨before, message⟩ := (Draft.fault_append ..).mp inside
  obtain ⟨begun, -⟩ := (Draft.fault_append ..).mp before
  obtain ⟨-, result⟩ := (Draft.fault_append ..).mp begun
  rw [instructions_answerPage, Draft.instructions_of_append,
    Draft.instructions_append before, Draft.instructions_append begun,
    Draft.instructions_of_append]
  simp only [effective_append, effective_resultDraft result,
    messageDraft, effective_trees message, List.append_assoc]
  rfl

/-- A response that is written is written as its page. -/
theorem toText_answerPage
    (clear : response.fault? = none)
    (lawful : (nodeOf response.answerPage).Lawful)
    {text : String} (written : response.toAml true = .ok text) :
    (Draft.of (nodeOf response.answerPage).instructions).toText =
      .ok text := by
  have complete := Draft.fault_of_toText written
  obtain ⟨other, full, -⟩ :=
    Document.exists_toText_nodeOf lawful response.document.locale false
  rw [full]
  rw [← Draft.toText_of_effective (effective_draft clear complete)] at full
  rw [toAml, Draft.toText_of_fault complete,
    Draft.toText_of_ended (Draft.toText_of_ended full)] at written
  exact written

/-- Elements whose names markup allows are written lawfully. -/
theorem lawful_pagesOf
    {ids : List NodeId}
    (named : ∀ top ∈ ids, ∀ id ∈ (response.document.outline top).toList,
      (response.document.label id).Named) :
    Markup.Node.LawfulAll (nodesOf (response.pagesOf ids)) := by
  apply lawful_nodesOf
  rw [pagesOf, Document.pages_eq_map, List.map_map, List.forall_mem_map]
  intro top member
  apply Document.lawful_page
  exact Document.forall_mem_tree.mpr (named top member)

theorem lawful_answerPage
    (named : ∀ top ∈ response.written,
      ∀ id ∈ (response.document.outline top).toList,
        (response.document.label id).Named) :
    (nodeOf response.answerPage).Lawful := by
  rw [written, List.forall_mem_append] at named
  have result : (nodeOf response.resultPage).Lawful := by
    have isName : Markup.isName "Result".toList = true := by decide
    rw [resultPage, nodeOf, Markup.Node.Lawful]
    exact ⟨isName, nofun, List.nodup_nil, trivial, lawful_pagesOf named.1⟩
  exact lawful_envelopeOf ⟨result, lawful_pagesOf named.2⟩

/-! ## What is read of a result -/

theorem items_of_clear
    (clear : response.fault? = none) :
    response.items = .ok response.heldItems := by
  rw [items, clear, heldItems]
  cases response.payload <;> rfl

/-- The response with some items, or else with a text, and perhaps with a
message. -/
def answering (document : Document) (ids : List NodeId)
    (value : Option String) (message : Option NodeId) : Response :=
  { ofDocument document with
    payload :=
      match ids with
      | [] =>
          match value with
          | some text => .value text
          | none => .empty
      | ids => .items ids
    message }

section

variable (document : Document) (ids : List NodeId) (value : Option String)
  (message : Option NodeId)

theorem fault?_answering :
    (answering document ids value message).fault? = none := by
  cases ids <;> cases value <;> rfl

theorem heldItems_answering :
    (answering document ids value message).heldItems = ids := by
  cases ids <;> cases value <;> rfl

theorem value?_answering :
    (answering document ids value message).value? =
      if ids = [] then value else none := by
  cases ids <;> cases value <;> rfl

end

theorem readPart_result
    {document : Document} {node : NodeId}
    (isResult : Markup.localName (document.name node) = "Result") :
    readPart (ofDocument document) node =
      answering document (document.items node) (document.value? node)
        none := by
  unfold readPart answering
  simp only [ofDocument, isResult]
  cases document.items node with
  | nil => cases document.value? node <;> rfl
  | cons item rest => rfl

theorem readPart_message
    {response : Response} {node : NodeId}
    (isMessage :
      Markup.localName (response.document.name node) = "Message") :
    readPart response node = { response with message := some node } := by
  rw [readPart]
  simp only [isMessage]

/-- An element in the language of its document is written under its name. -/
theorem name_page
    {document : Document} (linked : document.Linked) {id : NodeId}
    (native : (document.label id).Native document.locale) :
    (page ⟨document.locale, true⟩ [] (document.tree id)).label.name =
      document.name id := by
  obtain ⟨children, shape⟩ :=
    Document.page_eq ⟨document.locale, true⟩ [] (document.tree id)
  rw [shape]
  show (Document.spelling document.locale (document.tree id)).1 = _
  rw [Document.spelling_of_native, linked.label_tree, Document.name]
  rw [linked.tree_eq]
  exact Document.isForeign_eq_false native _

section

variable {copy : Document} {top : NodeId} {kind : Option Document.Kind}
  (linked : response.document.Linked) (copyLinked : copy.Linked)
  (result : copy.tree top = reread kind response.resultPage)
  (native : ∀ id ∈ response.heldItems,
    (response.document.label id).Native response.document.locale)
  (isItem : ∀ id ∈ response.heldItems, response.document.name id = "Item")

include linked copyLinked result native isItem

/-- The items of a result are read of the pages of the items. -/
theorem items_of_result :
    (copy.items top).map copy.tree =
      (response.pagesOf response.heldItems).map
        (reread (some (.classify "Result" kind))) := by
  rw [← copyLinked.items_tree, result, Element.items, resultPage,
    Document.children_reread, Document.rereadAll_eq_map]
  apply List.filter_eq_self.mpr
  rw [List.forall_mem_map, pagesOf, Document.pages_eq_map, List.map_map,
    List.forall_mem_map]
  intro id member
  have named :=
    (name_page linked (native id member)).trans (isItem id member)
  rw [Function.comp_apply]
  generalize page _ _ (response.document.tree id) = written at named ⊢
  obtain ⟨tag, children⟩ := written
  change tag.name = "Item" at named
  rw [Document.kind_reread, Document.classify_eq_item.mpr named]
  rfl

/-- A result with a text or with items is read as such. -/
theorem value?_of_result
    (filled : response.value? ≠ some "") :
    (if copy.items top = [] then copy.value? top else none) =
      response.value? := by
  have pages := items_of_result linked copyLinked result native isItem
  by_cases empty : response.heldItems = []
  · have nothing : response.pagesOf response.heldItems = [] := by
      rw [empty]
      rfl
    rw [nothing] at pages
    rw [if_pos (List.map_eq_nil_iff.mp pages), ← copyLinked.value?_tree,
      result, resultPage, nothing, Document.value?_reread]
    cases held : response.value? with
    | none => rfl
    | some text =>
        rw [held] at filled
        simpa using filled
  · have items : copy.items top ≠ [] := by
      intro none
      rw [none, pagesOf, Document.pages_eq_map] at pages
      exact empty (by simpa using pages.symm)
    rw [if_neg items, value?]
    cases held : response.payload with
    | value text => exact absurd (by rw [heldItems, held]) empty
    | _ => rfl

end

/-- Elements that are read of the pages of others look as these. -/
theorem map_shown
    {copy : Document} {kind : Option Document.Kind} {copied ids : List NodeId}
    (linked : response.document.Linked) (copyLinked : copy.Linked)
    (pages :
      copied.map copy.tree = (response.pagesOf ids).map (reread kind))
    (native : ∀ top ∈ ids, ∀ id ∈ (response.document.outline top).toList,
      (response.document.label id).Native response.document.locale) :
    copied.map copy.shown = ids.map response.document.shown := by
  calc
    copied.map copy.shown
      = (copied.map copy.tree).map
          (Document.Tree.map (Document.Label.sight copy.locale)) := by
        rw [List.map_map]
        exact List.map_congr_left fun id _ => copyLinked.map_sight id
    _ = ((response.pagesOf ids).map (reread kind)).map
          (Document.Tree.map (Document.Label.sight copy.locale)) := by
        rw [pages]
    _ = ids.map response.document.shown := by
        rw [pagesOf, Document.pages_eq_map, List.map_map, List.map_map,
          List.map_map]
        apply List.map_congr_left
        intro top member
        have here := Document.forall_mem_tree.mpr (native top member)
        exact
          (Document.sight_reread _ _ _ _ _ (linked.valid_tree top)
            here).trans (linked.map_sight top).symm

/-! ## The way back -/

section

variable (sound : response.Sound)
  (native : ∀ top ∈ response.written,
    ∀ id ∈ (response.document.outline top).toList,
      (response.document.label id).Native response.document.locale)

include sound native

/-- A message is read where one is written, and nothing else changes. -/
theorem exists_message
    {copy : Document} {kind : Option Document.Kind} {nodes : List NodeId}
    (copyLinked : copy.Linked)
    (pages :
      nodes.map copy.tree =
        (response.pagesOf response.message.toList).map (reread kind))
    {before : Response} (held : before.document = copy)
    (silent : before.message = none) :
    ∃ message, nodes = message.toList ∧
      nodes.foldl readPart before = { before with message } := by
  have linked := sound.document.linked
  cases told : response.message with
  | none =>
      rw [told] at pages
      cases List.map_eq_nil_iff.mp pages
      refine ⟨none, rfl, ?_⟩
      rw [← silent]
      rfl
  | some message =>
      rw [told] at pages
      obtain ⟨node, rfl, read⟩ := List.map_eq_singleton_iff.mp pages
      have own : (response.document.label message).Native _ :=
        native message (by simp [written, told]) message
          (linked.mem_outline_self message)
      have isMessage :
          Markup.localName (before.document.name node) = "Message" := by
        rw [held, name_of_page copyLinked read, name_page linked own]
        exact sound.message message told
      exact ⟨some node, rfl, readPart_message isMessage⟩

/-- What is read of the pages of a result and of a message. -/
theorem exists_answering
    (isItem : ∀ id ∈ response.heldItems, response.document.name id = "Item")
    (filled : response.value? ≠ some "")
    {copy : Document} {kind : Option Document.Kind} {nodes : List NodeId}
    (copyLinked : copy.Linked)
    (pages :
      nodes.map copy.tree =
        (response.resultPage ::
          response.pagesOf response.message.toList).map (reread kind)) :
    ∃ ids value message itemKind,
      nodes.foldl readPart (ofDocument copy) =
          answering copy ids value message ∧
        (if ids = [] then value else none) = response.value? ∧
        ids.map copy.tree =
          (response.pagesOf response.heldItems).map (reread itemKind) ∧
        message.toList.map copy.tree =
          (response.pagesOf response.message.toList).map (reread kind) := by
  have linked := sound.document.linked
  have nativeItems : ∀ id ∈ response.heldItems,
      (response.document.label id).Native response.document.locale :=
    fun id member =>
      native id (List.mem_append_left _ member) id (linked.mem_outline_self id)
  obtain ⟨top, rest, rfl, result, messages⟩ := List.map_eq_cons_iff.mp pages
  have isResult : Markup.localName (copy.name top) = "Result" := by
    have same : Markup.localName "Result" = "Result" := by decide
    rw [name_of_page copyLinked result]
    exact same
  have answered := readPart_result isResult
  obtain ⟨message, rfl, told⟩ :=
    @exists_message _ sound native _ _ _ copyLinked messages
      (answering copy (copy.items top) (copy.value? top) none) rfl rfl
  refine
    ⟨copy.items top, copy.value? top, message, some (.classify "Result" kind),
      ?_, ?_, ?_, messages⟩
  · rw [List.foldl_cons, answered, told]
    rfl
  · exact
      value?_of_result linked copyLinked result nativeItems isItem filled
  · exact items_of_result linked copyLinked result nativeItems isItem

end

end

/-- Whether a response is one that callers can make, without a fault, whose
items are elements of that name and whose text is not empty, in names that
markup allows and in the language of its document. -/
structure Portable (response : Response) : Prop where
  reachable : response.Reachable
  clear : response.fault? = none
  isItem : ∀ id ∈ response.heldItems, response.document.name id = "Item"
  filled : response.value? ≠ some ""
  named : ∀ top ∈ response.written,
    ∀ id ∈ (response.document.outline top).toList,
      (response.document.label id).Named
  native : ∀ top ∈ response.written,
    ∀ id ∈ (response.document.outline top).toList,
      (response.document.label id).Native response.document.locale

/-- A response that is written comes back as it was: with the same text, with
the same trees in the same order, and with the same message, if any. -/
theorem read_written_payload
    {response : Response} (portable : response.Portable) {text : String}
    (sent : response.toAml true = .ok text)
    (within : Markup.Within .standard text) (locale : Locale) :
    ∃ copy ids copied,
      read locale text = .ok copy ∧ copy.fault? = none ∧
        copy.value? = response.value? ∧
        response.items = .ok ids ∧ copy.items = .ok copied ∧
        copied.map copy.document.shown = ids.map response.document.shown ∧
        copy.message.map copy.document.shown =
          response.message.map response.document.shown := by
  have sound := portable.reachable.sound
  have clear := portable.clear
  have linked := sound.document.linked
  have lawful := lawful_answerPage portable.named
  obtain ⟨document, next, nodes, kind, reached, documentLinked, below,
      nextLinked, sameTrees⟩ :=
    exists_read_envelope
      (Document.parse_of_within lawful
        (toText_answerPage clear lawful sent) within locale true)
  obtain ⟨ids, value, message, itemKind, told, valued, items, messages⟩ :=
    exists_answering sound portable.native portable.isItem portable.filled
      documentLinked below
  rw [told] at reached
  rw [← sameTrees] at items messages
  have native := portable.native
  rw [written, List.forall_mem_append] at native
  have faultless := fault?_answering next ids value message
  refine
    ⟨answering next ids value message, response.heldItems, ids, reached,
      faultless, ?_, items_of_clear clear, ?_, ?_, ?_⟩
  · rw [value?_answering, valued]
  · rw [items_of_clear faultless, heldItems_answering]
  · exact map_shown linked nextLinked items native.1
  · have alike := map_shown linked nextLinked messages native.2
    have heads := congrArg List.head? alike
    rwa [List.head?_map, List.head?_map, Option.head?_toList,
      Option.head?_toList] at heads

/-- The answer that there is a part of some name, with a warning beside it. -/
def partAndWarning (name : String) : Response :=
  let document :=
    [.createItem "Part" none,
      .setProperty 0 "name" (.value (.text name))].foldl
        Document.afterCall (Document.new Document.english)
  ((ofDocument document).add 0 |>.addMessage (.value (.text "warning"))).2

theorem reachable_partAndWarning
    (name : String) :
    (partAndWarning name).Reachable := by
  have empty := Reachable.new Document.english
  have item :=
    empty.stepped (.call (.createItem "Part" none))
      (Document.Step.possible_call _)
  have named :=
    item.stepped (.call (.setProperty 0 "name" (.value (.text name))))
      (Document.Step.possible_call _)
  exact (named.extended 0).told (.value (.text "warning"))

theorem portable_partAndWarning
    {name : String} (isOne : name ∈ ["Bolt", ""]) :
    (partAndWarning name).Portable where
  reachable := reachable_partAndWarning name
  clear := rfl
  isItem := List.forall_mem_singleton.mpr (by revert name; decide +kernel)
  filled := nofun
  named := by
    revert name
    decide +kernel
  native := by
    revert name
    decide +kernel

theorem exists_toAml_partAndWarning
    {name : String} (isOne : name ∈ ["Bolt", ""]) :
    ∃ text, (partAndWarning name).toAml true = .ok text ∧
      Markup.Within .standard text := by
  have bounded :
      (partAndWarning name).answerPage.depth ≤
          Markup.Limits.standard.depth ∧
        ((partAndWarning name).toAml true).toOption.any fun text =>
          text.utf8ByteSize ≤ Markup.Limits.standard.size := by
    revert name
    decide +kernel
  have portable := portable_partAndWarning isOne
  have lawful := lawful_answerPage portable.named
  obtain ⟨room, short⟩ := bounded
  obtain ⟨text, same, small⟩ := (Option.any_eq_true ..).mp short
  have sent := eq_ok_of_toOption same
  exact
    ⟨text, sent,
      Document.within_nodeOf lawful
        (toText_answerPage portable.clear lawful sent) room
        (of_decide_eq_true small)⟩

theorem read_written_payload_of_part :
    ∃ text copy ids copied,
      (partAndWarning "Bolt").Portable ∧
        (partAndWarning "Bolt").toAml true = .ok text ∧
        Markup.Within .standard text ∧
        read Document.english text = .ok copy ∧ copy.fault? = none ∧
        copy.value? = none ∧
        (partAndWarning "Bolt").items = .ok ids ∧ copy.items = .ok copied ∧
        copied.map copy.document.shown =
          ids.map (partAndWarning "Bolt").document.shown ∧
        copy.message.map copy.document.shown =
          (partAndWarning "Bolt").message.map
            (partAndWarning "Bolt").document.shown := by
  have isOne : "Bolt" ∈ ["Bolt", ""] := by decide
  have portable := portable_partAndWarning isOne
  obtain ⟨text, sent, within⟩ := exists_toAml_partAndWarning isOne
  obtain ⟨copy, ids, copied, back⟩ :=
    read_written_payload portable sent within Document.english
  exact ⟨text, copy, ids, copied, portable, sent, within, back⟩

/-- The values of all elements of a tree, from its root. -/
def valuesBelow (response : Response) (top : NodeId) :
    List (Option String) :=
  (response.document.outline top).toList.map response.document.value?

/-- A property that is set to the empty text comes back without a value. -/
theorem empty_value_is_not_returned :
    ¬ ∀ (response : Response) (text : String),
      response.Portable → response.toAml true = .ok text →
        Markup.Within .standard text →
          ∃ copy ids copied,
            read response.document.locale text = .ok copy ∧
              response.items = .ok ids ∧ copy.items = .ok copied ∧
              copied.map copy.valuesBelow = ids.map response.valuesBelow := by
  intro returned
  have isOne : "" ∈ ["Bolt", ""] := by decide
  obtain ⟨text, sent, within⟩ := exists_toAml_partAndWarning isOne
  obtain ⟨copy, ids, copied, back, given, taken, same⟩ :=
    returned _ text (portable_partAndWarning isOne) sent within
  have before :
      ((partAndWarning "").items.toOption.map fun ids =>
        ids.map (partAndWarning "").valuesBelow) =
          some [[none, some ""]] := by
    decide +kernel
  have after :
      (((partAndWarning "").toAml true).toOption.bind fun text =>
        (read Document.english text).toOption.bind fun copy =>
          copy.items.toOption.map fun copied =>
            copied.map copy.valuesBelow) =
          some [[none, none]] := by
    decide +kernel
  change read Document.english text = _ at back
  rw [given] at before
  simp only [sent, back, taken, Except.toOption, Option.bind_some] at after
  have gone : copied.map copy.valuesBelow = [[none, none]] :=
    Option.some_inj.mp after
  have kept :
      ids.map (partAndWarning "").valuesBelow = [[none, some ""]] :=
    Option.some_inj.mp before
  rw [same, kept] at gone
  exact absurd gone (by decide)

end Response

end AmlExchange
