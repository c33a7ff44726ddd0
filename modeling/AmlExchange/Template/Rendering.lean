import AmlExchange.Fields
import AmlExchange.Template.Context
import AmlExchange.Template.Sql

/-!
# Rendering one value of a template

The content of an attribute, a text or a section of unescaped text is looked
at as a whole.  If it is a placeholder whose parameter has a value, the value
is written; otherwise it stays as it is, except where it is flat SQL.
-/

namespace AmlExchange.Template

/-- What a template is filled from. -/
structure Setting where
  locale : Locale
  style : Style
  parameters : Fields Value

/-- What the content of a place becomes. -/
structure Rendered where
  text : String
  /-- Whether the text is to be inserted unescaped. -/
  raw : Bool
  /-- The value that takes the place of the content. -/
  value : Option Value
  /-- The names that were looked up, in order. -/
  lookups : List String

namespace Rendered

/-- Content that stays as it is. -/
def unchanged (content : String) : Rendered :=
  ⟨content, false, none, []⟩

end Rendered

namespace Setting

/-- A flat SQL text filled in. -/
def replaceSql (setting : Setting) (inList : Bool) (text : List Char) :
    List Char :=
  Sql.replace setting.locale setting.parameters.get? inList text

/-- The part of the content of an `in` condition that is scanned for
parameters, and whether that part is the body of the list.  Parentheses around
a list that begins with a parameter are left out. -/
def listBody (content : List Char) : List Char × Bool :=
  match content with
  | _ :: '@' :: _ =>
      ((content.reverse.dropWhile (· = ')')).reverse.dropWhile (· = '('),
        true)
  | _ => (content, false)

/-- The content of a place that is not replaced as a whole, and the names that
were looked up in it. -/
def renderContent (setting : Setting) (context : Context)
    (content : List Char) : List Char × List String :=
  match context with
  | .sql => (setting.replaceSql false content, Sql.names content)
  | .isIn =>
      if (Text.trimLeft content).head? = some '(' then
        let (body, inList) := listBody (Text.trim content)
        (setting.replaceSql inList body, Sql.names body)
      else (content, [])
  | .idList | .like | .between | .plain => (content, [])

/-- The text of a value that takes the place of a placeholder. -/
def renderValue (setting : Setting) (context : Context) (raw : Bool)
    (value : Value) : List Char :=
  if raw then setting.locale.formatChars value
  else enumerate setting.locale.formatChars (context == .isIn) value

/-- What the content of a place becomes. -/
def render (setting : Setting) (context : Context) (content : String) :
    Rendered :=
  if Text.allBlank content.toList then .unchanged content
  else
    match Placeholder.read? setting.style content.toList with
    | some placeholder =>
        match setting.parameters.get? placeholder.name with
        | some value =>
            { text := String.ofList
                (setting.renderValue context placeholder.raw value)
              raw := placeholder.raw
              value := some value
              lookups := [placeholder.name] }
        | none =>
            let (text, names) := setting.renderContent context content.toList
            { text := String.ofList text
              raw := placeholder.raw
              value := none
              lookups := placeholder.name :: names }
    | none =>
        let (text, names) := setting.renderContent context content.toList
        { text := String.ofList text
          raw := false
          value := none
          lookups := names }

end Setting

end AmlExchange.Template
