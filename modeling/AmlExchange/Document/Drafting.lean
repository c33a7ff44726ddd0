import AmlExchange.Document.Basic
import AmlExchange.Markup.Instruction
import AmlExchange.Markup.Name
import AmlExchange.Namespaces

/-!
# Documents as markup

An element is written with its attributes and its value or children.  A name
that stands for a namespace is bound at the outermost element that uses it.
Values in another language move to a namespace of their own.  A property that
holds an item is written as a reference to that item, unless the item is to be
changed or references are to be written in full.
-/

namespace AmlExchange.Document

open Markup (Draft Instruction)

/-- How a tree is written. -/
structure Form where
  locale : Locale
  /-- Whether items within properties are written in full. -/
  expanded : Bool

/-- The refusal of a namespace that cannot be written. -/
def unsupported (name : String) : Fault :=
  .ofKind (.unsupportedPrefix name)

/-- Whether an element holds a value in another language. -/
def isForeign (locale : Locale) (element : Element) : Bool :=
  match element.attribute? AttributeName.xmlLang with
  | some language => language != locale.language
  | none => false

/-- The name an element is written under and the namespace it belongs to. -/
def writtenName (locale : Locale) (element : Element) :
    Except Fault (String × Option Space) :=
  let name := element.label.name
  if isForeign locale element then
    .ok (Space.foreign.qualify (Markup.localName name),
      some .foreign)
  else
    match Markup.space? name with
    | none => .ok (name, none)
    | some space =>
        if space = Space.envelope.name then .ok (name, some .envelope)
        else if space = Space.fault.name then .ok (name, some .fault)
        else .error (unsupported space)

/-- The start of an element, and the namespaces bound within it. -/
def startDraft (locale : Locale) (bound : List Space) (element : Element) :
    Draft × List Space :=
  match writtenName locale element with
  | .error fault => (.failed fault, bound)
  | .ok (name, none) => (.of [.startElement name], bound)
  | .ok (name, some space) =>
      if bound.contains space then (.of [.startElement name], bound)
      else
        (.of [.startElement name, .setAttribute space.binding space.uri],
          space :: bound)

/-- An attribute of an element.  Bindings of namespaces are left out. -/
def attributeDraft (field : String × String) : Draft :=
  match Markup.space? field.1 with
  | none | some "xml" => .of [.setAttribute field.1 field.2]
  | some "xmlns" => .empty
  | some space => .failed (unsupported space)

/-- The item that a property is written as a reference to. -/
def referent? (form : Form) (element : Element) : Option Element :=
  if form.expanded || element.label.kind != .property then none
  else
    match element.items with
    | [] => none
    | item :: _ =>
        if (item.attribute? AttributeName.action).isNone then some item
        else none

/-- An attribute that an element gets unless it has one of that name. -/
def missing (element : Element) (name : String) (value : Option String) :
    List Instruction :=
  match element.attribute? name, value with
  | none, some value => [.setAttribute name value]
  | _, _ => []

/-- A reference to an item: its type and its name as attributes, its identity
as text. -/
def referenceDraft (locale : Locale) (element item : Element) : Draft :=
  .of <|
    missing element AttributeName.type item.typeName? ++
      missing element AttributeName.keyedName
        ((item.keyedName? locale).filter fun name => !name.isEmpty) ++
      ((item.itemId? locale).map Instruction.text).toList

mutual

/-- A tree as markup, within elements that bind some namespaces. -/
def treeDraft (form : Form) (bound : List Space) : Element → Draft
  | .node label children =>
      let element : Element := .node label children
      let start := startDraft form.locale bound element
      let inside :=
        match children with
        | [] =>
            .of ((element.value? form.locale).map Instruction.text).toList
        | _ :: _ =>
            match referent? form element with
            | some item => referenceDraft form.locale element item
            | none => treesDraft form start.2 children
      start.1 ++ .concat (label.attributes.entries.map attributeDraft) ++
        inside ++ .of [.endElement]

/-- Trees as markup, one after the other. -/
def treesDraft (form : Form) (bound : List Space) : List Element → Draft
  | [] => .empty
  | tree :: rest => treeDraft form bound tree ++ treesDraft form bound rest

end

/-- The tree that hangs from an element as markup. -/
def draft (document : Document) (expanded : Bool) (id : NodeId) : Draft :=
  treeDraft ⟨document.locale, expanded⟩ [] (document.tree id)

/-- The text of the tree that hangs from an element. -/
def toAml (document : Document) (expanded : Bool) (id : NodeId) :
    Except Fault String :=
  (document.draft expanded id).toText

end AmlExchange.Document
