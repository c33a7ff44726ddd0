import AmlExchange.Document.Edit
import AmlExchange.Document.Reading

/-!
# Responses

A response holds items, a value or a fault, and perhaps a message beside them.
Its items are elements of its own document.  Faults that are found while it is
made by hand are collected and reported as one.
-/

namespace AmlExchange

open Document (NodeId)

namespace Response

/-- What a response answers. -/
inductive Payload where
  | empty
  | items (ids : List NodeId)
  | value (text : String)
  | fault (fault : Fault)

end Response

/-- An answer of the server. -/
structure Response where
  document : Document
  payload : Response.Payload
  /-- The element of the message. -/
  message : Option NodeId
  /-- The messages of the faults found, in order. -/
  flaws : List String
  /-- The properties that the faults concern. -/
  flawedProperties : List String
  /-- The item that the faults concern. -/
  flawedItem : Option NodeId
  /-- The database and the query that faults are reported with. -/
  database : Option String
  query : Option String

namespace Response

/-- The response of a document that nothing is known of but its elements. -/
def ofDocument (document : Document) : Response :=
  ⟨document, .empty, none, [], [], none, none, none⟩

/-- The response without content. -/
def new (locale : Locale) : Response :=
  ofDocument (.new locale)

/-- The code of a fault that says that there is no item. -/
def noItemsCode : String :=
  "0"

/-- The code of a fault that has none of its own. -/
def serverCode : String :=
  "SOAP-ENV:Server"

/-- A response whose faults are reported with a database and a query. -/
def withDetails (response : Response) (database query : Option String) :
    Response :=
  { response with database, query }

/-- A payload with one more item. -/
def Payload.addItem (payload : Payload) (item : NodeId) : Payload :=
  match payload with
  | .items ids => .items (ids ++ [item])
  | _ => .items [item]

/-- A response with one more item. -/
def add (response : Response) (item : NodeId) : Response :=
  { response with payload := response.payload.addItem item }

/-- The document of a response changed, whether or not the change is refused
at last. -/
def edit (response : Response) (edit : Document.Edit α) :
    Except Fault α × Response :=
  match edit.run response.document with
  | .ok result document => (.ok result, { response with document })
  | .error fault document => (.error fault, { response with document })

/-- A response with a copy of an item of another document. -/
def importItem (response : Response) (source : Document) (id : NodeId) :
    Except Fault NodeId × Response :=
  match response.edit (Document.importFrom source id) with
  | (.ok copy, edited) => (.ok copy, edited.add copy)
  | (.error fault, edited) => (.error fault, edited)

/-- The value of a response. -/
def value? (response : Response) : Option String :=
  match response.payload with
  | .value text => some text
  | _ => none

/-- A response with a value. -/
def setValue (response : Response) (text : String) : Response :=
  { response with payload := .value text }

/-- A response with a fault. -/
def setFault (response : Response) (fault : Fault) : Response :=
  { response with payload := .fault fault }

/-- A response with an element for its message. -/
def openMessage (response : Response) : NodeId × Response :=
  match response.message with
  | some message => (message, response)
  | none =>
      let message := response.document.nextId
      (message,
        { response with
          document := response.document.push (.bare "Message" .element)
          message := some message })

/-- A response with content put into its message. -/
def addMessage (response : Response) (content : Document.Content) :
    Except Fault Unit × Response :=
  let (message, response) := response.openMessage
  response.edit (Document.add message content)

/-- A response with one more fault found. -/
def addFlaw (response : Response) (message : String)
    (properties : List String) : Response :=
  { response with
    flaws := response.flaws ++ [message]
    flawedProperties := response.flawedProperties ++ properties }

/-- A response whose faults concern an item. -/
def setFlawedItem (response : Response) (item : NodeId) : Response :=
  { response with flawedItem := some item }

/-- A fault with the database and the query of a response, unless it has some
of its own. -/
def detailed (response : Response) (fault : Fault) : Fault :=
  if fault.details.isSome then fault
  else fault.withDetails response.database response.query

/-- The kind of the faults found. -/
def flawKind (response : Response) : Fault.Kind :=
  match response.flawedItem with
  | some item =>
      .validation (response.document.typeName? item)
        (response.document.itemId? item) response.flawedProperties
  | none => .server serverCode

/-- The fault that a response reports. -/
def fault? (response : Response) : Option Fault :=
  if response.flaws.isEmpty then
    match response.payload with
    | .fault fault => some (response.detailed fault)
    | _ => none
  else
    some <| response.detailed <|
      .worded response.flawKind .nowhere
        ("\n".intercalate response.flaws)

/-- A fault raised for a response that is not what was expected. -/
def unexpected (response : Response) (kind : Fault.Kind) : Fault :=
  response.detailed (.ofKind kind)

/-- The fault of a response without items. -/
def noItems (response : Response) : Fault :=
  let general := response.unexpected (.noItems "?")
  match response.fault? with
  | some fault => if fault.isNoItems then fault else general
  | none => general

/-- Nothing, unless the response reports a fault.  The fault that there is no
item may be put up with. -/
def assertNoFault (response : Response) (ignoreNoItems : Bool) :
    Except Fault Unit :=
  match response.fault? with
  | some fault =>
      if ignoreNoItems && fault.isNoItems then .ok () else .error fault
  | none => .ok ()

/-- The items of a response, which must not report a fault of any kind. -/
def assertItems (response : Response) : Except Fault (List NodeId) :=
  match response.fault? with
  | some fault => .error fault
  | none =>
      match response.payload with
      | .items ids => .ok ids
      | _ => .error response.noItems

/-- The only item of a response, perhaps of a type that it must have. -/
def assertItem (response : Response) (typeName : Option String) :
    Except Fault NodeId := do
  match ← response.assertItems with
  | [] => .error response.noItems
  | [item] =>
      let found := response.document.typeName? item
      match typeName with
      | none => .ok item
      | some expected =>
          if found = some expected then .ok item
          else
            .error <| response.unexpected <|
              .typeMismatch expected (found.getD "")
  | _ => .error (response.unexpected .multipleItems)

/-- The items of a response; there are none if it says so. -/
def items (response : Response) : Except Fault (List NodeId) :=
  match response.fault? with
  | some fault => if fault.isNoItems then .ok [] else .error fault
  | none =>
      match response.payload with
      | .items ids => .ok ids
      | _ => .ok []

end Response

end AmlExchange
