import AmlExchange.Markup.Instruction
import AmlExchange.Markup.Reader
import AmlExchange.Template.Rendering
import AmlExchange.Vocabulary

/-!
# What filling an AML template writes

A template is gone through event by event.  Each event yields the acts that
write its filled form; the state kept between events is what the text that
follows depends on: the condition and the date range of the elements around
it, the open elements, and where spacing is preserved.  The acts do not depend
on the output, so a template is filled by performing them one after the other.
-/

namespace AmlExchange.Template

open Markup (Event Instruction Writer)
open Text (Position)

/-- One step of filling a template. -/
inductive Act where
  | write (instruction : Instruction)
  /-- A parameter is looked up. -/
  | lookUp (name : String)
  /-- An item that lies within no other item is counted. -/
  | countItem
deriving DecidableEq, Repr

/-- What the events before a place leave to those after it. -/
structure Walk where
  condition : Option String
  range : Option DateRange.Dynamic
  /-- The local names of the attributes of the latest start tag. -/
  written : List String
  /-- The local names of the open elements, the innermost first. -/
  openNames : List String
  /-- Whether spacing is preserved in each open element, the innermost
  first. -/
  preserved : List Bool

namespace Walk

/-- The state before the first event. -/
def start : Walk :=
  ⟨none, none, [], [], []⟩

/-- Whether spacing is preserved at the place reached. -/
def preserving (walk : Walk) : Bool :=
  walk.preserved.head?.getD false

/-- The attribute that keeps or drops spacing. -/
def spaceAttribute : String :=
  "xml:space"

/-- The acts of looking up some names. -/
def lookUps (names : List String) : List Act :=
  names.map Act.lookUp

/-- The fault of a value that may not be inserted unescaped. -/
def rawNotAllowed (kind : RawPlace) (place : Position) : Fault :=
  .ofKindAt (.rawNotAllowed kind) (.point place)

/-- The attributes of a start tag with their values rendered, up to the first
that would be inserted unescaped, and the look-ups on the way. -/
def renderAttributes (setting : Setting) (place : Position) :
    List (String × String) →
      List String × Except Fault (List (String × String))
  | [] => ([], .ok [])
  | (name, value) :: rest =>
      let rendered :=
        setting.render (.ofName (Markup.localName name)) value
      if rendered.raw then
        (rendered.lookups, .error (rawNotAllowed .attribute place))
      else
        let (names, others) := renderAttributes setting place rest
        (rendered.lookups ++ names,
          others.map fun others => (name, rendered.text) :: others)

/-- Whether an attribute has a local name. -/
def isNamed (name : String) (field : String × String) : Bool :=
  Markup.localName field.1 == name

/-- The last value under a local name. -/
def lastNamed? (name : String) (attributes : List (String × String)) :
    Option String :=
  (attributes.reverse.find? (isNamed name)).map Prod.snd

/-- Attributes with the first value under a local name changed. -/
def changeFirst (name : String) (change : String → String) :
    List (String × String) → List (String × String)
  | [] => []
  | (other, value) :: rest =>
      if isNamed name (other, value) then (other, change value) :: rest
      else (other, value) :: changeFirst name change rest

/-- The attributes of an element with a date range: the condition is that of
the range if it has one, else that of the element, else `between`. -/
def withRange (range : DateRange.Dynamic) (attributes : List (String × String)) :
    List (String × String) :=
  let change (value : String) := range.condition.text?.getD value
  if attributes.any (isNamed AttributeName.condition) then
    changeFirst AttributeName.condition change attributes
  else attributes ++ [(AttributeName.condition, change "between")]

/-- Whether spacing is preserved within an element. -/
def preservedWithin (outside : Bool) (attributes : List (String × String)) :
    Bool :=
  match attributes.find? fun (name, _) => name == spaceAttribute with
  | some (_, "preserve") => true
  | some (_, "default") => false
  | _ => outside

/-- The acts and the state after a start tag whose attributes are rendered. -/
def enter (walk : Walk) (name : String) (source : List (String × String))
    (rendered : List (String × String)) (empty : Bool) : List Act × Walk :=
  let range :=
    (lastNamed? AttributeName.origDateRange source).bind
      DateRange.Dynamic.deserialize?
  let attributes :=
    match range with
    | some range => withRange range rendered
    | none => rendered
  let condition :=
    match range with
    | some _ =>
        (attributes.find? (isNamed AttributeName.condition)).map Prod.snd
    | none => lastNamed? AttributeName.condition rendered
  let localName := Markup.localName name
  let counted := localName == "Item" && !walk.openNames.contains "Item"
  let condition :=
    if localName = "sql" ∨ localName = "SQL" then some "sql" else condition
  let written := attributes.map fun (name, _) => Markup.localName name
  let acts :=
    attributes.map (fun (name, value) => Act.write (.setAttribute name value)) ++
      (if counted then [.countItem] else [])
  if empty then
    (acts ++ [.write .endElement], { walk with condition, range, written })
  else
    (acts,
      { condition, range, written
        openNames := localName :: walk.openNames
        preserved :=
          preservedWithin walk.preserving attributes :: walk.preserved })

/-- The attributes that go with a date range which is inserted as a text, less
those that the start tag has. -/
def rangeAttributes (written : List String) (value : Option Value) :
    List Act :=
  let condition (condition : Condition) : List Act :=
    match condition.text? with
    | some text =>
        if written.contains AttributeName.condition then []
        else [.write (.offerAttribute AttributeName.condition text)]
    | none => []
  match value with
  | some (.dynamicRange range) =>
      condition range.condition ++
        if written.contains AttributeName.origDateRange then []
        else
          [.write
            (.offerAttribute AttributeName.origDateRange range.serialize)]
  | some (.staticRange range) => condition range.condition
  | _ => []

/-- The acts for a text.  In an element with a date range the range takes the
place of the text. -/
def insertText (setting : Setting) (walk : Walk) (content : String) :
    List Act :=
  let source :=
    match walk.range with
    | some range => setting.locale.format (.dynamicRange range)
    | none => content
  let rendered := setting.render (.ofCondition walk.condition) source
  lookUps rendered.lookups ++ rangeAttributes walk.written rendered.value ++
    [.write
      (if rendered.raw then .raw rendered.text else .text rendered.text)]

/-- The acts for an event, and the state after it unless it may not be
written. -/
def step (setting : Setting) (walk : Walk) (event : Event)
    (place : Position) : List Act × Except Fault Walk :=
  match event with
  | .start name attributes empty =>
      let (names, rendered) := renderAttributes setting place attributes
      let opening := .write (.startElement name) :: lookUps names
      match rendered with
      | .error fault => (opening, .error fault)
      | .ok rendered =>
          let (acts, next) := walk.enter name attributes rendered empty
          (opening ++ acts, .ok next)
  | .finish _ =>
      ([.write .endElement],
        .ok
          { walk with
            condition := none
            openNames := walk.openNames.tail
            preserved := walk.preserved.tail })
  | .text content =>
      if Markup.isSpaced content then
        (if walk.preserving then [.write (.text content)] else [], .ok walk)
      else (insertText setting walk content, .ok walk)
  | .characterData content =>
      let rendered := setting.render (.ofCondition walk.condition) content
      if rendered.raw then
        (lookUps rendered.lookups,
          .error (rawNotAllowed .characterData place))
      else
        (lookUps rendered.lookups ++ [.write (.characterData rendered.text)],
          .ok walk)
  | .comment content => ([.write (.comment content)], .ok walk)

/-- The acts for a sequence of events, and the state after them unless one of
them may not be written. -/
def script (setting : Setting) (walk : Walk) :
    List (Event × Position) → List Act × Except Fault Walk
  | [] => ([], .ok walk)
  | (event, place) :: rest =>
      match step setting walk event place with
      | (acts, .error fault) => (acts, .error fault)
      | (acts, .ok next) =>
          let (others, last) := script setting next rest
          (acts ++ others, last)

end Walk

/-- What performing acts has come to. -/
structure Progress where
  writer : Writer
  /-- The names looked up, the latest first. -/
  lookups : List String
  items : Nat

namespace Progress

/-- One act performed, or the writer's refusal. -/
def perform (progress : Progress) : Act → Except Fault Progress
  | .write instruction =>
      (progress.writer.perform instruction).map fun writer =>
        { progress with writer }
  | .lookUp name =>
      .ok { progress with lookups := name :: progress.lookups }
  | .countItem => .ok { progress with items := progress.items + 1 }

/-- Acts performed up to the first refusal, which is reported with what was
done before. -/
def performAll (progress : Progress) :
    List Act → Progress × Except Fault Unit
  | [] => (progress, .ok ())
  | act :: rest =>
      match progress.perform act with
      | .error fault => (progress, .error fault)
      | .ok next => next.performAll rest

end Progress

end AmlExchange.Template
