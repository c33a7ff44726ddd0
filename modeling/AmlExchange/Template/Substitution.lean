import AmlExchange.Template.Script

/-!
# Filling templates

A substitution holds a table of parameters and fills templates from it.  A
template that begins with a tag is AML, unless the substitution is set to flat
SQL, and is filled event by event; any other template is flat SQL.  A blank
template is written as it is.
-/

namespace AmlExchange.Template

/-- What a template that begins with a tag is taken for. -/
inductive Mode where
  | aml
  | sql
deriving DecidableEq, Repr

/-- A table of parameters and how templates are filled from it. -/
structure Substitution where
  parameters : Fields Value
  mode : Mode
  style : Style
  /-- The items, within no other item, of the AML template filled last. -/
  itemCount : Nat
  /-- Whether look-ups are reported. -/
  listening : Bool

namespace Substitution

/-- A substitution without parameters. -/
def new : Substitution :=
  ⟨.empty, .aml, .named, 0, false⟩

instance : Inhabited Substitution :=
  ⟨new⟩

/-- A substitution with a parameter set or changed. -/
def bind (substitution : Substitution) (name : String) (value : Value) :
    Substitution :=
  { substitution with
    parameters := substitution.parameters.insert name value }

/-- A substitution with values set under the numbers from one number on. -/
def bindIndexedFrom (substitution : Substitution) (index : Nat) :
    List Value → Substitution
  | [] => substitution
  | value :: rest =>
      let name := String.ofList (Decimal.writeNat index)
      (substitution.bind name value).bindIndexedFrom (index + 1) rest

/-- A substitution with values set under the numbers 0, 1 and so on. -/
def bindIndexed (substitution : Substitution) (values : List Value) :
    Substitution :=
  substitution.bindIndexedFrom 0 values

/-- A substitution without its parameters. -/
def clear (substitution : Substitution) : Substitution :=
  { substitution with parameters := .empty }

/-- What filling a template has come to. -/
structure Filled where
  /-- Whether the template was filled to its end. -/
  result : Except Fault Unit
  /-- What was written, also before a fault. -/
  output : String
  /-- The names looked up, in order. -/
  lookups : List String

namespace Filled

/-- The filled template, or the fault. -/
def text (filled : Filled) : Except Fault String :=
  filled.result.map fun _ => filled.output

end Filled

/-- The refusal of output for which there is no room. -/
def full : Fault :=
  .refused "failed to write substituted output"

/-- What filling a template with one text comes to. -/
def writeOnce (room : Option Nat) (output : String)
    (lookups : List String) : Filled :=
  if Markup.Writer.fits room "" output then ⟨.ok (), output, lookups⟩
  else ⟨.error full, "", lookups⟩

/-- The setting in which templates are filled. -/
def setting (substitution : Substitution) (locale : Locale) : Setting :=
  ⟨locale, substitution.style, substitution.parameters⟩

/-- An AML template filled: the acts of its events are performed, and then
the elements still open are ended. -/
def fillAml (setting : Setting) (room : Option Nat) (template : String) :
    Progress × Except Fault Unit :=
  let stream := Markup.read .standard template
  let (acts, last) := Walk.script setting .start stream.events
  let beginning : Progress := ⟨.new room, [], 0⟩
  match beginning.performAll acts with
  | (progress, .error fault) => (progress, .error fault)
  | (progress, .ok ()) =>
      match last, stream.ending with
      | .error fault, _ => (progress, .error fault)
      | .ok _, .error fault => (progress, .error fault)
      | .ok _, .ok _ =>
          match progress.writer.finish with
          | .error fault => (progress, .error fault)
          | .ok writer => ({ progress with writer }, .ok ())

/-- Whether a template is filled as AML. -/
def isAml (substitution : Substitution) (template : String) : Bool :=
  (Text.trimLeft template.toList).head? == some '<' &&
    substitution.mode == .aml

/-- A template filled, with the substitution that remembers its items. -/
def fill (substitution : Substitution) (locale : Locale)
    (room : Option Nat) (template : String) : Substitution × Filled :=
  let heard (names : List String) : List String :=
    if substitution.listening then names else []
  if Text.allBlank template.toList then
    (substitution, writeOnce room template [])
  else if substitution.isAml template then
    let (progress, result) :=
      fillAml (substitution.setting locale) room template
    ({ substitution with itemCount := progress.items },
      ⟨result, progress.writer.output, heard progress.lookups.reverse⟩)
  else
    let filled := (substitution.setting locale).replaceSql false
      template.toList
    (substitution,
      writeOnce room (String.ofList filled)
        (heard (Sql.names template.toList)))

end Substitution

end AmlExchange.Template
