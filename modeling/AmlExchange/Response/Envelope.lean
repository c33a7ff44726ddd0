import AmlExchange.Document.Drafting
import AmlExchange.Response.Basic

/-!
# Responses as envelopes

A response travels as the body of an envelope: a result with items or with a
text, and a message beside it, or else a fault.  What is read from an envelope
may not be changed.
-/

namespace AmlExchange.Response

open Document (NodeId)
open Markup (Draft Instruction)

/-! ## Reading -/

/-- The first child with a local name. -/
def childNamed? (document : Document) (node : NodeId) (name : String) :
    Option NodeId :=
  (document.children node).find? fun child =>
    Markup.localName (document.name child) == name

/-- The text of the first child with a local name, empty if there is none. -/
def childText (document : Document) (node : NodeId) (name : String) :
    String :=
  ((childNamed? document node name).bind document.value?).getD ""

/-- A text without the apostrophes at its ends. -/
def unquoted (text : List Char) : List Char :=
  ((text.dropWhile (· = '\'')).reverse.dropWhile (· = '\'')).reverse

/-- The type of item that a message says is not found. -/
def typeInMessage? (message : String) : Option String :=
  match Text.cutAt? "of type ".toList message.toList with
  | some (_, rest) =>
      (Text.cutAt? " found".toList rest).map fun (typeName, _) =>
        String.ofList (unquoted (Text.trim typeName))
  | none => none

/-- The type of item in the detail of a fault. -/
def typeInDetail? (document : Document) (node : NodeId) : Option String := do
  let detail ← childNamed? document node "detail"
  let item ← childNamed? document detail "item"
  document.typeName? item

/-- The fault that an element of an envelope reports. -/
def readFault (document : Document) (node : NodeId) : Fault :=
  let code := childText document node "faultcode"
  let message := childText document node "faultstring"
  let kind :=
    if Text.trim code.toList = noItemsCode.toList then
      match typeInDetail? document node with
      | some typeName => Fault.Kind.noItems typeName
      | none => .noItems ((typeInMessage? message).getD "?")
    else .server code
  .worded kind .nowhere message

/-- The elements of an envelope that a response consists of; without an
envelope, all roots. -/
def parts (document : Document) (root : NodeId) : List NodeId :=
  if Markup.localName (document.name root) = "Envelope" then
    match childNamed? document root "Body" with
    | some body => document.children body
    | none => []
  else document.roots

/-- A response after one more of its parts. -/
def readPart (response : Response) (node : NodeId) : Response :=
  let document := response.document
  match Markup.localName (document.name node) with
  | "Result" =>
      match document.items node with
      | [] =>
          match document.value? node with
          | some text => response.setValue text
          | none => response
      | ids => { response with payload := .items ids }
  | "Item" => response.add node
  | "Message" => { response with message := some node }
  | "Fault" => response.setFault (readFault document node)
  | _ => response

/-- The response that an envelope holds, its elements read-only. -/
def read (locale : Locale) (text : String) : Except Fault Response := do
  let document ← Document.parse .standard locale true text
  match document.root? with
  | none => .error (.refused "empty response")
  | some root =>
      let response :=
        (parts document root).foldl readPart (ofDocument document)
      let (result, frozen) :=
        response.edit (document.roots.forM Document.freeze)
      result.map fun _ => frozen

/-! ## Writing -/

/-- An element with instructions for its content. -/
def element (name : String) (content : List Instruction) : List Instruction :=
  .startElement name :: content ++ [.endElement]

/-- An attribute that may be missing. -/
def optional (name : String) (value : Option String) : List Instruction :=
  (value.map (Instruction.setAttribute name)).toList

/-- The code that a fault is written with. -/
def codeOf (fault : Fault) : String :=
  match fault.kind with
  | .noItems _ => noItemsCode
  | .server code => code
  | _ => serverCode

/-- The detail of a fault. -/
def detailOf (fault : Fault) : List Instruction :=
  let item := Space.fault.qualify "item"
  match fault.kind with
  | .noItems typeName =>
      element item [.setAttribute AttributeName.type typeName]
  | .validation typeName id properties =>
      element item
          (optional AttributeName.type typeName ++
            optional AttributeName.id id) ++
        properties.flatMap fun property =>
          element (Space.fault.qualify "property") [.text property]
  | _ =>
      element (Space.fault.qualify "legacy_detail") [.text fault.message]

/-- A fault as part of an envelope. -/
def faultDraft (fault : Fault) : Draft :=
  .of <|
    element (Space.envelope.qualify "Fault") <|
      .setAttribute Space.fault.binding Space.fault.uri ::
        element "faultcode" [.text (codeOf fault)] ++
        element "faultstring" [.text fault.message] ++
        element "detail" (detailOf fault)

/-- The content of the result of a response. -/
def resultDraft (response : Response) (expanded : Bool) : Draft :=
  match response.payload with
  | .items ids =>
      .concat (ids.map (response.document.draft expanded))
  | .value text => .of [.text text]
  | .empty | .fault _ => .empty

/-- The body of the envelope of a response. -/
def bodyDraft (response : Response) (expanded : Bool) : Draft :=
  match response.fault? with
  | some fault => faultDraft fault
  | none =>
      let message :=
        match response.message with
        | some message => response.document.draft expanded message
        | none => .empty
      .of [.startElement "Result"] ++ response.resultDraft expanded ++
        .of [.endElement] ++ message

/-- The envelope of a response. -/
def draft (response : Response) (expanded : Bool) : Draft :=
  .of
      [.startElement (Space.envelope.qualify "Envelope"),
        .setAttribute Space.envelope.binding Space.envelope.uri,
        .startElement (Space.envelope.qualify "Body")] ++
    response.bodyDraft expanded

/-- The text of the envelope of a response. -/
def toAml (response : Response) (expanded : Bool) : Except Fault String :=
  (response.draft expanded).toText

end AmlExchange.Response
