import AmlExchange.Decimal.Integer
import AmlExchange.Text.Search
import AmlExchange.Text.WordChar

/-!
# Placeholders

A placeholder takes up a whole text or attribute value.  In the named style it
is `@name`, or `@name!` where the value is to be inserted unescaped.  In the
numbered style it is a number in braces, perhaps with a format after a colon.
-/

namespace AmlExchange.Template

/-- The spelling of placeholders. -/
inductive Style where
  | named
  | numbered
deriving DecidableEq, Repr

/-- Whether a character may be part of the name of a parameter. -/
def isParameterChar (char : Char) : Bool :=
  Text.isAlphanumeric char || char == '_'

/-- A reference to a parameter. -/
structure Placeholder where
  name : String
  /-- Whether the value is to be inserted unescaped. -/
  raw : Bool
deriving DecidableEq, Repr

namespace Placeholder

/-- The placeholder after an at sign. -/
def ofBody? (body : List Char) (raw : Bool) : Option Placeholder :=
  if !body.isEmpty && body.all isParameterChar then
    some ⟨String.ofList body, raw⟩
  else none

/-- The placeholder between braces. -/
def ofIndex? (body : List Char) : Option Placeholder :=
  let index :=
    match Text.cutAt? [':'] body with
    | some (before, _) => before
    | none => body
  match Decimal.readUnsigned? 10 index with
  | some number =>
      if number < UInt32.size then
        some ⟨String.ofList (Decimal.writeNat number), false⟩
      else none
  | none => none

/-- The placeholder that a text is as a whole. -/
def read? (style : Style) (text : List Char) : Option Placeholder :=
  match style, text with
  | .named, '@' :: body =>
      if body.getLast? = some '!' then ofBody? body.dropLast true
      else ofBody? body false
  | .numbered, '{' :: body =>
      if body.getLast? = some '}' then ofIndex? body.dropLast else none
  | _, _ => none

end Placeholder

end AmlExchange.Template
