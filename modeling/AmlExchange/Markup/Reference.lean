import AmlExchange.Decimal.Integer
import AmlExchange.Fault

/-!
# Character references

A reference begins with an ampersand and ends with the next semicolon, or with
the text if there is none.  It names one of five characters or gives the
number of a character in decimal or hexadecimal digits.
-/

namespace AmlExchange.Markup

/-- The character with a number, if there is one. -/
def charOfNumber? (number : Nat) : Option Char :=
  if number.isValidChar then some (Char.ofNat number) else none

/-- The character that a reference stands for, without ampersand and
semicolon. -/
def referent? (reference : List Char) : Option Char :=
  if reference = "amp".toList then some '&'
  else if reference = "lt".toList then some '<'
  else if reference = "gt".toList then some '>'
  else if reference = "quot".toList then some '"'
  else if reference = "apos".toList then some '\''
  else
    match reference with
    | '#' :: 'x' :: digits | '#' :: 'X' :: digits =>
        (Decimal.readUnsigned? 16 digits).bind charOfNumber?
    | '#' :: digits => (Decimal.readUnsigned? 10 digits).bind charOfNumber?
    | _ => none

/-- A text with every reference replaced by its character, or the first
reference that stands for none. -/
def expandReferences : List Char → Except (List Char) (List Char)
  | [] => .ok []
  | char :: rest =>
      if char = '&' then
        let reference := rest.takeWhile (· ≠ ';')
        match referent? reference with
        | some referent =>
            (expandReferences ((rest.dropWhile (· ≠ ';')).drop 1)).map
              (referent :: ·)
        | none => .error reference
      else (expandReferences rest).map (char :: ·)
termination_by text => text.length
decreasing_by
  · have := (List.dropWhile_sublist (l := rest)
      fun char => decide (char ≠ ';')).length_le
    simp only [List.length_drop, List.length_cons]
    omega
  · simp

/-- A text with every reference replaced by its character. -/
def decode (text : String) : Except Fault String :=
  match expandReferences text.toList with
  | .ok expanded => .ok (String.ofList expanded)
  | .error reference =>
      .error (.ofKind (.invalidEntity (String.ofList reference)))

end AmlExchange.Markup
