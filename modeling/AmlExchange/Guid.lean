import AmlExchange.Decimal.Integer
import AmlExchange.Text.Blank
import AmlExchange.Text.Case

/-!
# Item identities

An item is identified by 128 bits, written as 32 capital hexadecimal digits.
Read are 32 digits of either case, the same in five groups divided by hyphens,
and the divided form within braces or after `urn:uuid:`, the letters of which
may be of either case as well.
-/

namespace AmlExchange

/-- An identity of 32 hexadecimal digits. -/
@[ext]
structure Guid where
  digits : List (Fin 16)
  complete : digits.length = 32
deriving DecidableEq

namespace Guid

/-- The value of a hexadecimal digit. -/
def hexDigit? (char : Char) : Option (Fin 16) :=
  (Decimal.digitValue? 16 char).map (Fin.ofNat 16)

/-- The values of a text of hexadecimal digits. -/
def hexDigits? : List Char → Option (List (Fin 16))
  | [] => some []
  | char :: rest =>
      match hexDigit? char, hexDigits? rest with
      | some digit, some digits => some (digit :: digits)
      | _, _ => none

/-- The identity written as 32 digits and nothing else. -/
def ofDigits? (text : List Char) : Option Guid :=
  match hexDigits? text with
  | some digits =>
      if complete : digits.length = 32 then some ⟨digits, complete⟩ else none
  | none => none

/-- The text after a head that it must begin with. -/
def after? (head text : List Char) : Option (List Char) :=
  if head.isPrefixOf text then some (text.drop head.length) else none

/-- The digits of groups divided by hyphens, for groups of given sizes. -/
def undivided? : List Nat → List Char → Option (List Char)
  | [], text => if text.isEmpty then some [] else none
  | [size], text => if text.length = size then some text else none
  | size :: sizes, text =>
      match after? ['-'] (text.drop size) with
      | some rest =>
          if size ≤ text.length then
            (undivided? sizes rest).map fun digits => text.take size ++ digits
          else none
      | none => none

/-- The identity written in groups of 8, 4, 4, 4 and 12 digits. -/
def ofGroups? (text : List Char) : Option Guid :=
  (undivided? [8, 4, 4, 4, 12] text).bind ofDigits?

/-- The text between a brace and a closing brace. -/
def unbraced? (text : List Char) : Option (List Char) :=
  match text with
  | '{' :: rest =>
      if rest.getLast? = some '}' then some rest.dropLast else none
  | _ => none

/-- The identity that a text gives in one of the four forms. -/
def read? (text : List Char) : Option Guid :=
  if text.length = 32 then ofDigits? text
  else if text.length = 36 then ofGroups? text
  else if text.length = 38 then (unbraced? text).bind ofGroups?
  else if text.length = 45 then
    (Text.afterHead? "urn:uuid:".toList text).bind ofGroups?
  else none

/-- The 32 digits of an identity, letters as capitals. -/
def write (guid : Guid) : List Char :=
  guid.digits.map fun digit => (Decimal.digitChar digit.val).toUpper

/-- Whether a text, blanks at its ends aside, is an identity. -/
def isGuid (text : List Char) : Bool :=
  (read? (Text.trim text)).isSome

theorem hexDigits?_map (digits : List (Fin 16)) :
    hexDigits?
        (digits.map fun digit => (Decimal.digitChar digit.val).toUpper) =
      some digits := by
  have single (digit : Fin 16) :
      hexDigit? (Decimal.digitChar digit.val).toUpper = some digit := by
    decide +revert
  induction digits with
  | nil => rfl
  | cons digit rest ih => simp [hexDigits?, single, ih]

/-- Reading undoes writing. -/
theorem read?_write (guid : Guid) : read? guid.write = some guid := by
  have length : guid.write.length = 32 := by simp [write, guid.complete]
  rw [read?, if_pos length, ofDigits?]
  simp [write, hexDigits?_map, guid.complete]

end Guid

end AmlExchange
