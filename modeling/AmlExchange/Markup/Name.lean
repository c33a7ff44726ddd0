import AmlExchange.Text.Search

/-!
# Names of elements and attributes

A name begins with a letter, an underscore or a colon and goes on with these,
digits, hyphens and points; every character beyond ASCII counts as a letter.
The first colon divides a namespace from the local part of the name.
-/

namespace AmlExchange.Markup

/-- Whether a name may begin with a character. -/
def isNameStart (char : Char) : Bool :=
  char.isAlpha || char == '_' || char == ':' || 0x80 ≤ char.toNat

/-- Whether a name may go on with a character. -/
def isNameChar (char : Char) : Bool :=
  isNameStart char || char.isDigit || char == '-' || char == '.'

/-- Whether a text is a name as a whole. -/
def isName : List Char → Bool
  | [] => false
  | char :: rest => isNameStart char && rest.all isNameChar

/-- The part of a name after its first colon, or all of a name without one. -/
def localName (name : String) : String :=
  match Text.cutAt? [':'] name.toList with
  | some (_, after) => String.ofList after
  | none => name

/-- The part of a name before its first colon, unless it is empty. -/
def space? (name : String) : Option String :=
  match Text.cutAt? [':'] name.toList with
  | some (before, _) =>
      if before.isEmpty then none else some (String.ofList before)
  | none => none

theorem isNameChar_of_isNameStart {char : Char}
    (start : isNameStart char = true) :
    isNameChar char = true := by
  simp [isNameChar, start]

end AmlExchange.Markup
