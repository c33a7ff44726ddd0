import AmlExchange.Document.Basic
import AmlExchange.Locale.Reading

/-!
# Properties of items

A property is looked up by its name and read as the type that the caller asks
for.  A property that is missing, or marked null, reads as none.  An item that
the server sent answers six properties with the defaults of the schema where
the server left them out.
-/

namespace AmlExchange.Document

/-- A property that the schema gives a default. -/
inductive SchemaDefault where
  | generation
  | isCurrent
  | isReleased
  | majorRev
  | newVersion
  | notLockable
deriving DecidableEq, Repr

namespace SchemaDefault

/-- All properties with a default. -/
def all : List SchemaDefault :=
  [generation, isCurrent, isReleased, majorRev, newVersion, notLockable]

/-- The name of a property with a default. -/
def name : SchemaDefault → String
  | generation => PropertyName.generation
  | isCurrent => PropertyName.isCurrent
  | isReleased => PropertyName.isReleased
  | majorRev => PropertyName.majorRev
  | newVersion => PropertyName.newVersion
  | notLockable => PropertyName.notLockable

/-- The default of a property. -/
def value : SchemaDefault → String
  | generation | isCurrent => "1"
  | isReleased | newVersion | notLockable => "0"
  | majorRev => "A"

/-- The property with a name, if it has a default. -/
def ofName? (name : String) : Option SchemaDefault :=
  all.find? fun property => property.name == name

end SchemaDefault

/-- The item that a property refers to. -/
structure ItemReference where
  typeName : String
  id : String
  keyedName : Option String
deriving DecidableEq, Repr

/-- A property looked up in an item. -/
structure Property where
  document : Document
  /-- The element of the property, if the item has one. -/
  node : Option NodeId
  /-- What the schema answers in place of a missing element. -/
  schemaDefault : Option SchemaDefault

/-- The property of an item with a name. -/
def property (document : Document) (item : NodeId) (name : String) :
    Property :=
  match document.child? item name with
  | some node => ⟨document, some node, none⟩
  | none =>
      ⟨document, none,
        if document.isStored item then SchemaDefault.ofName? name else none⟩

namespace Property

/-- Whether the item has the property or the schema answers for it. -/
def exists? (property : Property) : Bool :=
  property.node.isSome || property.schemaDefault.isSome

/-- An attribute of the property. -/
def attribute? (property : Property) (name : String) : Option String :=
  property.node.bind fun node => property.document.attribute? node name

/-- Whether the property is marked null, or missing without a default. -/
def isNull (property : Property) : Bool :=
  match property.node with
  | some node =>
      match property.document.attribute? node AttributeName.isNull with
      | some mark => mark == "1" || mark == "true"
      | none => false
  | none => property.schemaDefault.isNone

/-- The value that typed readings start from.  Where the server sends a text
for the reader and a neutral value beside it, the latter counts. -/
def neutralValue (property : Property) : Value :=
  match property.node with
  | some node =>
      if property.isNull then .null
      else
        match
          property.document.attribute? node AttributeName.neutralValue with
        | some neutral =>
            if neutral.isEmpty then property.document.content node
            else .text neutral
        | none => property.document.content node
  | none =>
      match property.schemaDefault with
      | some answer => .text answer.value
      | none => .null

/-- The text of the value, marked null or not. -/
def value? (property : Property) : Option String :=
  match property.node with
  | some node => property.document.value? node
  | none => property.schemaDefault.map SchemaDefault.value

/-- The text of the value of a property that is not null. -/
def asText (property : Property) : Option String :=
  if property.isNull then none else property.value?

/-- The property as a truth value. -/
def asBoolean (property : Property) : Except Fault (Option Bool) :=
  Locale.asBoolean property.neutralValue

/-- The property as a whole number of 32 bits. -/
def asInt (property : Property) : Except Fault (Option Int32) :=
  Locale.asInt property.neutralValue

/-- The property as a whole number of 64 bits. -/
def asLong (property : Property) : Except Fault (Option Int64) :=
  Locale.asLong property.neutralValue

/-- The property as a floating-point number. -/
def asDouble (property : Property) : Except Fault (Option Float) :=
  Locale.asDouble property.neutralValue

/-- The property as a moment on the client's clock. -/
def asDateTime (property : Property) : Except Fault (Option Calendar.DateTime) :=
  property.document.locale.asDateTime property.neutralValue

/-- The property as a moment of universal time. -/
def asUniversal (property : Property) :
    Except Fault (Option Calendar.DateTime) :=
  property.document.locale.asUniversal property.neutralValue

/-- The property as a moment with its clock. -/
def asZoned (property : Property) :
    Except Fault (Option Calendar.ZonedDateTime) :=
  property.document.locale.asZoned property.neutralValue

/-- The content of the property as an identity. -/
def asGuid (property : Property) : Except Fault (Option Guid) :=
  match property.node with
  | some node => Locale.asGuid (property.document.content node)
  | none => .ok none

/-- A reading, with an answer for a property that reads as none. -/
def orElse (reading : Except Fault (Option α)) (answer : α) :
    Except Fault α :=
  reading.map fun found => found.getD answer

/-- The item within a property. -/
def heldItem? (document : Document) (node : NodeId) : Option NodeId :=
  (document.items node).head?

/-- The reference to an item within a property. -/
def referenceToItem? (document : Document) (item : NodeId) :
    Option ItemReference :=
  match document.typeName? item, document.itemId? item with
  | some typeName, some id =>
      some ⟨typeName, id, document.keyedName? item⟩
  | _, _ => none

/-- The file in the vault that a text names. -/
def referenceToFile? (content : String) : Option ItemReference :=
  (Text.afterHead? Locale.vaultHead.toList content.toList).map fun id =>
    ⟨"File", String.ofList id, none⟩

/-- The item that a property refers to: the item within it, the item whose
identity is its text, or a file in the vault. -/
def itemReference? (property : Property) : Option ItemReference :=
  let document := property.document
  property.node.bind fun node =>
    match heldItem? document node with
    | some item => referenceToItem? document item
    | none =>
        (document.value? node).bind fun content =>
          match document.attribute? node AttributeName.type with
          | some typeName =>
              if Guid.isGuid content.toList then
                some
                  ⟨typeName, content,
                    document.attribute? node AttributeName.keyedName⟩
              else referenceToFile? content
          | none => referenceToFile? content

end Property

end AmlExchange.Document
