import AmlExchange.Proofs.Response.Envelopes

/-!
# Faults travel in envelopes

A fault is written with a code, its message and a detail, and read by other
rules: the code decides the kind of fault, and the type of item that was not
found stands in the detail, or else in the message.  Whatever texts a fault is
made of, it comes back with the same message; that there is no item of a type,
and the code of the server, come back as well, and any other fault comes back
as a fault of the server (`read_written_fault`).
-/

namespace AmlExchange

open Document (NodeId Tag Element nodeOf nodesOf reread rereadAll)
open Markup (Draft Instruction effective effective_append)

namespace Response

/-! ## The page of a fault -/

/-- An element that holds nothing but a text. -/
def leaf (name : String) (attributes : List (String × String))
    (text : String) : Document.Tree Tag :=
  .node ⟨name, attributes, text⟩ []

/-- An attribute that may be missing. -/
def optionalField (name : String) (value : Option String) :
    List (String × String) :=
  (value.map fun value => (name, value)).toList

/-- The elements in the detail of a fault. -/
def detailPages (fault : Fault) : List (Document.Tree Tag) :=
  let item := Space.fault.qualify "item"
  match fault.kind with
  | .noItems typeName => [leaf item [(AttributeName.type, typeName)] ""]
  | .validation typeName id properties =>
      leaf item
          (optionalField AttributeName.type typeName ++
            optionalField AttributeName.id id)
          "" ::
        properties.map (leaf (Space.fault.qualify "property") [])
  | _ => [leaf (Space.fault.qualify "legacy_detail") [] fault.message]

/-- The detail of a fault. -/
def detailPage (fault : Fault) : Document.Tree Tag :=
  .node ⟨"detail", [], ""⟩ (detailPages fault)

/-- All that is written of a fault. -/
def faultPage (fault : Fault) : Document.Tree Tag :=
  .node
    ⟨Space.envelope.qualify "Fault",
      [(Space.fault.binding, Space.fault.uri)], ""⟩
    [leaf "faultcode" [] (codeOf fault),
      leaf "faultstring" [] fault.message, detailPage fault]

/-- The body of an envelope. -/
def bodyPage (content : Document.Tree Tag) : Document.Tree Tag :=
  .node ⟨Space.envelope.qualify "Body", [], ""⟩ [content]

/-- An envelope with something in its body. -/
def envelopePage (content : Document.Tree Tag) : Document.Tree Tag :=
  .node
    ⟨Space.envelope.qualify "Envelope",
      [(Space.envelope.binding, Space.envelope.uri)], ""⟩
    [bodyPage content]

theorem instructions_optional
    (name : String) (value : Option String) :
    optional name value =
      (optionalField name value).map fun field =>
        Instruction.setAttribute field.1 field.2 := by
  cases value <;> rfl

theorem instructions_properties
    (properties : List String) :
    (properties.flatMap fun property =>
        element (Space.fault.qualify "property") [.text property]) =
      Markup.Node.instructionsAll
        (nodesOf
          (properties.map (leaf (Space.fault.qualify "property") []))) := by
  induction properties with
  | nil => rfl
  | cons property rest ih =>
      rw [List.flatMap_cons, ih, List.map_cons, nodesOf,
        Markup.Node.instructionsAll, leaf, instructions_node]
      rfl

theorem effective_detailOf
    (fault : Fault) :
    effective (detailOf fault) =
      effective
        (Markup.Node.instructionsAll (nodesOf (detailPages fault))) := by
  rw [detailOf, detailPages]
  cases fault.kind with
  | noItems typeName =>
      rw [nodesOf, Markup.Node.instructionsAll, leaf, instructions_node]
      rfl
  | validation typeName id properties =>
      dsimp only
      rw [nodesOf, Markup.Node.instructionsAll, leaf, instructions_node,
        instructions_optional, instructions_optional, ← List.map_append,
        instructions_properties, effective_append, effective_append]
      congr 1
      apply effective_element
      simp [effective, Instruction.isBlank, nodesOf,
        Markup.Node.instructionsAll]
  | _ =>
      rw [nodesOf, Markup.Node.instructionsAll, leaf, instructions_node]
      rfl

/-- The draft of a fault writes its page. -/
theorem effective_faultDraft
    (fault : Fault) :
    effective (faultDraft fault).instructions =
      effective (nodeOf (faultPage fault)).instructions := by
  have detail :
      effective (element "detail" (detailOf fault)) =
        effective (nodeOf (detailPage fault)).instructions := by
    rw [detailPage, instructions_node]
    exact effective_element (effective_detailOf fault) "detail"
  have alike (first : List Instruction) :
      effective (first ++ element "detail" (detailOf fault)) =
        effective (first ++ (nodeOf (detailPage fault)).instructions) := by
    rw [effective_append, detail, effective_append]
  rw [faultPage, instructions_node]
  apply effective_element
  simp only [nodesOf, Markup.Node.instructionsAll, leaf, instructions_node,
    List.append_nil, ← List.append_assoc]
  exact
    alike
      (.setAttribute Space.fault.binding Space.fault.uri ::
        element "faultcode" [.text (codeOf fault)] ++
        element "faultstring" [.text fault.message])

theorem lawful_leaf
    {name : String} (isName : Markup.isName name.toList = true)
    {attributes : List (String × String)}
    (areNames : ∀ field ∈ attributes, Markup.isName field.1.toList = true)
    (distinct : (attributes.map Prod.fst).Nodup) (text : String) :
    (nodeOf (leaf name attributes text)).Lawful := by
  rw [leaf, nodeOf, Markup.Node.Lawful]
  exact ⟨isName, areNames, distinct, trivial, trivial⟩

theorem lawful_plain_leaf
    {name : String} (isName : Markup.isName name.toList = true)
    (text : String) :
    (nodeOf (leaf name [] text)).Lawful := by
  apply lawful_leaf isName
  · exact nofun
  · exact List.nodup_nil

/-- Every element in the detail of a fault is lawful and holds a text only. -/
theorem lawful_detailPages
    (fault : Fault) :
    ∀ page ∈ detailPages fault, (nodeOf page).Lawful ∧ page.depth = 1 := by
  have isName : Markup.isName AttributeName.type.toList = true := by decide
  have isNameId : Markup.isName AttributeName.id.toList = true := by decide
  rw [detailPages]
  cases fault.kind with
  | noItems typeName =>
      rw [List.forall_mem_singleton]
      refine ⟨lawful_leaf (by decide) ?_ (by simp) "", rfl⟩
      exact List.forall_mem_singleton.mpr isName
  | validation typeName id properties =>
      rw [List.forall_mem_cons, List.forall_mem_map]
      constructor
      · refine ⟨lawful_leaf (by decide) ?_ ?_ "", rfl⟩
        · cases typeName <;> cases id <;>
            simp [optionalField, isName, isNameId]
        · cases typeName <;> cases id <;> simp [optionalField]
          decide
      · intro property _
        exact ⟨lawful_plain_leaf (by decide) property, rfl⟩
  | _ =>
      rw [List.forall_mem_singleton]
      exact ⟨lawful_plain_leaf (by decide) _, rfl⟩

theorem lawful_envelopePage
    (fault : Fault) :
    (nodeOf (envelopePage (faultPage fault))).Lawful := by
  have detail : (nodeOf (detailPage fault)).Lawful := by
    rw [detailPage, nodeOf, Markup.Node.Lawful]
    refine ⟨by decide, nofun, List.nodup_nil, trivial, ?_⟩
    apply lawful_nodesOf
    intro page member
    exact (lawful_detailPages fault page member).1
  have inside : (nodeOf (faultPage fault)).Lawful := by
    rw [faultPage, nodeOf, Markup.Node.Lawful]
    refine
      ⟨by decide, List.forall_mem_singleton.mpr (by decide), by decide,
        trivial, lawful_plain_leaf (by decide) _,
        lawful_plain_leaf (by decide) _,
        detail, trivial⟩
  exact lawful_envelopeOf ⟨inside, trivial⟩

theorem depth_envelopePage
    (fault : Fault) :
    (envelopePage (faultPage fault)).depth ≤ 5 := by
  have detail : Document.Tree.depthAll (detailPages fault) ≤ 1 := by
    apply Document.Tree.depthAll_le_iff.mpr
    intro page member
    exact (lawful_detailPages fault page member).2.le
  simp only [envelopePage, bodyPage, faultPage, detailPage, leaf,
    Document.Tree.depth, Document.Tree.depthAll]
  omega

/-- The instructions of an envelope with a fault write its page. -/
theorem effective_envelope
    (fault : Fault) :
    effective
        (element (Space.envelope.qualify "Envelope")
          (.setAttribute Space.envelope.binding Space.envelope.uri ::
            element (Space.envelope.qualify "Body")
              (faultDraft fault).instructions)) =
      effective
        (nodeOf (envelopePage (faultPage fault))).instructions := by
  have body :
      effective
          (element (Space.envelope.qualify "Body")
            (faultDraft fault).instructions) =
        effective (nodeOf (bodyPage (faultPage fault))).instructions := by
    rw [bodyPage, instructions_node, nodesOf, nodesOf,
      Markup.Node.instructionsAll, Markup.Node.instructionsAll,
      List.append_nil]
    exact effective_element (effective_faultDraft fault) _
  rw [envelopePage, instructions_node, nodesOf, nodesOf,
    Markup.Node.instructionsAll, Markup.Node.instructionsAll, List.append_nil]
  apply effective_element
  have alike (first : List Instruction) :
      effective
          (first ++
            element (Space.envelope.qualify "Body")
              (faultDraft fault).instructions) =
        effective
          (first ++
            (nodeOf (bodyPage (faultPage fault))).instructions) := by
    rw [effective_append, body, effective_append]
  exact alike [.setAttribute Space.envelope.binding Space.envelope.uri]

section

variable {response : Response} {fault : Fault}

/-- A fault is always written, as its page in the body of an envelope. -/
theorem exists_toAml_of_fault
    (reported : response.fault? = some fault) (expanded : Bool) :
    ∃ text, response.toAml expanded = .ok text ∧
      (Draft.of (nodeOf (envelopePage (faultPage fault))).instructions).toText =
        .ok text := by
  obtain ⟨text, written, -⟩ :=
    Document.exists_toText_nodeOf (lawful_envelopePage fault)
      response.document.locale false
  refine ⟨text, ?_, written⟩
  have begun :
      response.draft expanded =
        .of
          ([.startElement (Space.envelope.qualify "Envelope"),
              .setAttribute Space.envelope.binding Space.envelope.uri,
              .startElement (Space.envelope.qualify "Body")] ++
            (faultDraft fault).instructions) := by
    rw [draft, bodyDraft, reported]
    rfl
  rw [← Draft.toText_of_effective (effective_envelope fault)] at written
  rw [toAml, begun]
  apply Draft.toText_of_ended
  apply Draft.toText_of_ended
  rw [← written]
  simp [element]

end

/-! ## What is read of a fault -/

/-- The first element below an element with a local name. -/
def elementNamed? (element : Element) (name : String) : Option Element :=
  element.children.find? fun child =>
    Markup.localName child.label.name == name

section

variable {document : Document} (linked : document.Linked)

include linked

theorem elementNamed?_tree
    (node : NodeId) (name : String) :
    elementNamed? (document.tree node) name =
      (childNamed? document node name).map document.tree :=
  linked.find?_children_tree node fun other => Markup.localName other == name

theorem childText_eq
    (node : NodeId) (name : String) :
    childText document node name =
      ((elementNamed? (document.tree node) name).bind
        (Element.value? document.locale)).getD "" := by
  rw [childText, elementNamed?_tree linked]
  cases childNamed? document node name with
  | none => rfl
  | some child =>
      rw [Option.map_some, Option.bind_some, Option.bind_some,
        linked.value?_tree]

theorem typeInDetail?_eq
    (node : NodeId) :
    typeInDetail? document node =
      (elementNamed? (document.tree node) "detail").bind fun detail =>
        (elementNamed? detail "item").bind Element.typeName? := by
  rw [typeInDetail?, elementNamed?_tree linked]
  cases childNamed? document node "detail" with
  | none => rfl
  | some detail =>
      simp only [Option.map_some, Option.bind_some, bind,
        elementNamed?_tree linked]
      cases childNamed? document detail "item" with
      | none => rfl
      | some item => exact (linked.typeName?_tree item).symm

end

theorem elementNamed?_reread
    (parent : Option Document.Kind) (tag : Tag)
    (children : List (Document.Tree Tag))
    (name : String) :
    elementNamed? (reread parent (.node tag children)) name =
      (children.find? fun child =>
          Markup.localName child.label.name == name).map
        (reread (some (.classify tag.name parent))) := by
  rw [elementNamed?, Document.children_reread]
  exact
    Document.find?_rereadAll _ children fun other =>
      Markup.localName other == name

theorem value?_reread_leaf
    (locale : Locale) (parent : Option Document.Kind) (name : String)
    (attributes : List (String × String)) (text : String) :
    ((reread parent (leaf name attributes text)).value? locale).getD "" =
      text := by
  rw [leaf, Document.value?_reread]
  by_cases nothing : text = ""
  · subst nothing
    rfl
  · rw [if_neg (by simpa using nothing), Option.getD_some]

/-- The parts of a fault belong to no namespace. -/
theorem localName_parts :
    Markup.localName "faultcode" = "faultcode" ∧
      Markup.localName "faultstring" = "faultstring" ∧
      Markup.localName "detail" = "detail" := by
  decide

/-- The kind that a fault comes back with. -/
def returnedKind (fault : Fault) : Fault.Kind :=
  match fault.kind with
  | .noItems typeName => .noItems typeName
  | .server code =>
      if Text.trim code.toList = noItemsCode.toList then
        .noItems ((typeInMessage? fault.message).getD "?")
      else .server code
  | _ => .server serverCode

/-- The type of item that the detail of a fault tells. -/
def detailedType? (fault : Fault) : Option String :=
  ((detailPages fault).find? fun page =>
      Markup.localName page.label.name == "item").bind fun page =>
    (Fields.ofList page.label.attributes).get? AttributeName.type

theorem detailedType?_of_noItems
    {fault : Fault} {typeName : String}
    (kind : fault.kind = .noItems typeName) :
    detailedType? fault = some typeName := by
  have isItem : Markup.localName (Space.fault.qualify "item") = "item" := by
    decide
  rw [detailedType?, detailPages, kind]
  simp [leaf, Document.Tree.label, isItem, Fields.ofList, Fields.get?_insert]

/-- The detail of a fault of the server tells no type of item. -/
theorem detailedType?_of_server
    {fault : Fault} {code : String} (kind : fault.kind = .server code) :
    detailedType? fault = none := by
  have other :
      Markup.localName (Space.fault.qualify "legacy_detail") =
        "legacy_detail" := by
    decide
  rw [detailedType?, detailPages, kind]
  simp [leaf, Document.Tree.label, other]

section

variable {document : Document} (linked : document.Linked) {node : NodeId}
  {parent : Option Document.Kind} {fault : Fault}
  (written : document.tree node = reread parent (faultPage fault))

include linked written

theorem childText_faultcode :
    childText document node "faultcode" = codeOf fault := by
  have first :
      [leaf "faultcode" [] (codeOf fault), leaf "faultstring" [] fault.message,
          detailPage fault].find? (fun child =>
        Markup.localName child.label.name == "faultcode") =
          some (leaf "faultcode" [] (codeOf fault)) := by
    simp [leaf, Document.Tree.label, localName_parts]
  rw [childText_eq linked, written, faultPage, elementNamed?_reread, first]
  exact value?_reread_leaf ..

theorem childText_faultstring :
    childText document node "faultstring" = fault.message := by
  have second :
      [leaf "faultcode" [] (codeOf fault), leaf "faultstring" [] fault.message,
          detailPage fault].find? (fun child =>
        Markup.localName child.label.name == "faultstring") =
          some (leaf "faultstring" [] fault.message) := by
    simp [leaf, Document.Tree.label, localName_parts]
  rw [childText_eq linked, written, faultPage, elementNamed?_reread, second]
  exact value?_reread_leaf ..

theorem typeInDetail?_of_page :
    typeInDetail? document node = detailedType? fault := by
  have third :
      [leaf "faultcode" [] (codeOf fault), leaf "faultstring" [] fault.message,
          detailPage fault].find? (fun child =>
        Markup.localName child.label.name == "detail") =
          some (detailPage fault) := by
    simp [leaf, detailPage, Document.Tree.label, localName_parts]
  rw [typeInDetail?_eq linked, written, faultPage, elementNamed?_reread,
    third, Option.map_some, Option.bind_some, detailPage,
    elementNamed?_reread, detailedType?, Option.bind_map]
  congr 1
  funext page
  cases page
  rw [Function.comp_apply, reread]
  rfl

/-- The page of a fault is read as a fault with the same message. -/
theorem readFault_of_page :
    readFault document node =
      .worded (returnedKind fault) .nowhere fault.message := by
  rw [readFault, childText_faultcode linked written,
    childText_faultstring linked written,
    typeInDetail?_of_page linked written, returnedKind, codeOf]
  have other : ¬ Text.trim serverCode.toList = noItemsCode.toList := by decide
  cases kind : fault.kind with
  | noItems typeName =>
      have same : Text.trim noItemsCode.toList = noItemsCode.toList := by
        decide
      simp only [same, if_true, detailedType?_of_noItems kind]
  | server code => simp only [detailedType?_of_server kind]
  | _ => simp only [if_neg other]

end

/-! ## The way back -/

/-- What is read of an envelope with a fault reports that fault. -/
theorem exists_read
    {locale : Locale} {text : String} {fault : Fault}
    (parsed :
      Document.parse .standard locale true text =
        .ok (Document.ofTrees locale true
          [reread none (envelopePage (faultPage fault))])) :
    ∃ copy, read locale text = .ok copy ∧
      copy.fault? =
        some (.worded (returnedKind fault) .nowhere fault.message) := by
  obtain ⟨document, next, nodes, kind, reached, linked, below, -⟩ :=
    @exists_read_envelope locale text [faultPage fault] parsed
  obtain ⟨part, rfl, partTree⟩ := List.map_eq_singleton_iff.mp below
  have isFault : Markup.localName (document.name part) = "Fault" := by
    rw [name_of_page linked partTree]
    exact localName_envelope.2.2
  have reported :
      readPart (ofDocument document) part =
        (ofDocument document).setFault
          (.worded (returnedKind fault) .nowhere fault.message) := by
    rw [readPart]
    simp only [ofDocument, isFault, readFault_of_page linked partTree]
  rw [List.foldl_cons, List.foldl_nil, reported] at reached
  exact ⟨_, reached, rfl⟩

/-- A fault that a response reports is read back with its message.  That there
is no item of a type and the code of the server are read back as they were;
only the code for no items is read as just that, and other kinds of fault are
read as faults of the server. -/
theorem read_written_fault
    {response : Response} {fault : Fault}
    (reported : response.fault? = some fault) (expanded : Bool)
    (locale : Locale) :
    ∃ text, response.toAml expanded = .ok text ∧
      (text.utf8ByteSize ≤ Markup.Limits.standard.size →
        ∃ copy returned, read locale text = .ok copy ∧
          copy.fault? = some returned ∧
          returned.message = fault.message ∧
          (∀ typeName, fault.kind = .noItems typeName →
            returned.kind = .noItems typeName) ∧
          (∀ code, fault.kind = .server code →
            Text.trim code.toList ≠ noItemsCode.toList →
              returned.kind = .server code) ∧
          ((∀ typeName, fault.kind ≠ .noItems typeName) →
            (∀ code, fault.kind ≠ .server code) →
              returned.kind = .server serverCode)) := by
  obtain ⟨text, written, onPage⟩ := exists_toAml_of_fault reported expanded
  refine ⟨text, written, fun small => ?_⟩
  have room :
      (envelopePage (faultPage fault)).depth ≤ Markup.Limits.standard.depth :=
    (depth_envelopePage fault).trans (by decide)
  obtain ⟨copy, read, returned⟩ :=
    exists_read
      (Document.parse_nodeOf (lawful_envelopePage fault) room onPage small
        locale true)
  refine ⟨copy, _, read, returned, rfl, ?_, ?_, ?_⟩
  · intro typeName kind
    simp only [Fault.worded, returnedKind, kind]
  · intro code kind other
    simp only [Fault.worded, returnedKind, kind, if_neg other]
  · intro notItems notServer
    rw [Fault.worded, returnedKind]
    cases kind : fault.kind with
    | noItems typeName => exact absurd kind (notItems typeName)
    | server code => exact absurd kind (notServer code)
    | _ => rfl

/-- The answer that there is no part, in words with marks. -/
def missingPart : Response :=
  (new Document.english).setFault
    (.worded (.noItems "Part \"A\"") .nowhere "]]> & <none>")

theorem read_written_fault_of_part :
    ∃ text copy returned, missingPart.toAml false = .ok text ∧
      text.utf8ByteSize = 338 ∧
      read Document.english text = .ok copy ∧
      copy.fault? = some returned ∧ returned.message = "]]> & <none>" ∧
      returned.kind = .noItems "Part \"A\"" := by
  have size :
      (missingPart.toAml false).toOption.map String.utf8ByteSize =
        some 338 := by
    decide +kernel
  obtain ⟨text, written, back⟩ :=
    read_written_fault (show missingPart.fault? = some _ from rfl) false
      Document.english
  rw [written] at size
  have small : text.utf8ByteSize = 338 := Option.some_inj.mp size
  obtain ⟨copy, returned, read, reported, message, typeName, -⟩ :=
    back (small.trans_le (by decide))
  exact
    ⟨text, copy, returned, written, small, read, reported, message,
      typeName _ rfl⟩

end Response

end AmlExchange
