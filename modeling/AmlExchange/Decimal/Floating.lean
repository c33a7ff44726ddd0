import AmlExchange.Decimal.Shortest
import AmlExchange.Text.Case

/-!
# Floating-point numbers as text

A double is written with the fewest digits that read back to it, never with
an exponent and never with a fraction of zero.  It is read from digits with an
optional point, an optional sign and an optional exponent, or from the names
of the values that have no digits.
-/

namespace AmlExchange.Decimal

/-- The parts of a finite double: its sign, and the whole number and the power
of two whose product is its size. -/
structure Binary where
  negative : Bool
  significand : Nat
  exponent : Int
  /-- Whether the double below is nearer than the double above. -/
  atPower : Bool

/-- What the 64 bits of a double say. -/
inductive Decoded where
  | notANumber
  | infinite (negative : Bool)
  | finite (parts : Binary)

/-- The reading of a double's bits: a sign, eleven bits of exponent and 52
bits of fraction. -/
def decode (value : Float) : Decoded :=
  let bits := value.toBits.toNat
  let hidden := Nat.pow 2 52
  let negative := Nat.pow 2 63 ≤ bits
  let exponent := bits / hidden % Nat.pow 2 11
  let fraction := bits % hidden
  if exponent = 2047 then
    if fraction = 0 then .infinite negative else .notANumber
  else if exponent = 0 then
    .finite ⟨negative, fraction, -1074, false⟩
  else
    .finite ⟨negative, hidden + fraction, Int.ofNat exponent - 1075,
      fraction = 0 && 1 < exponent⟩

/-- A double in the fewest digits that read back to it. -/
def writeFloat (value : Float) : List Char :=
  let signed (negative : Bool) (text : List Char) :=
    if negative then '-' :: text else text
  match decode value with
  | .notANumber => "NaN".toList
  | .infinite negative => signed negative "inf".toList
  | .finite parts =>
      signed parts.negative <|
        if parts.significand = 0 then ['0']
        else
          (Rounding.ofBinary parts.significand parts.exponent
            parts.atPower).shortest.render

/-- The whole number that a double is exactly, if it is one. -/
def integral? (value : Float) : Option Int :=
  match decode value with
  | .finite parts =>
      let scaled := parts.significand * Nat.pow 2 parts.exponent.toNat
      let divisor := Nat.pow 2 (-parts.exponent).toNat
      if scaled % divisor = 0 then
        let size := Int.ofNat (scaled / divisor)
        some (if parts.negative then -size else size)
      else none
  | _ => none

/-- The double nearest to `digits * 10 ^ exponent`.  Sizes that are certainly
beyond the range of doubles are settled without computing the power: a power
of ten is no smaller than the same power of eight. -/
def nearestFloat (digits : Nat) (exponent : Int) : Float :=
  let magnitude := Int.ofNat digits.log2 + 3 * exponent
  if digits = 0 then 0.0
  else if 0 ≤ exponent ∧ 1024 ≤ magnitude then Float.ofBits 0x7FF0000000000000
  else if exponent < 0 ∧ magnitude < -1080 then 0.0
  else Float.ofScientific digits (exponent < 0) exponent.natAbs

/-- The size from which the further digits of an exponent do not count. -/
def exponentLimit : Nat :=
  65536

/-- The size of an exponent, written with one or more digits. -/
def readExponentSize? (text : List Char) : Option Nat :=
  if text.isEmpty || !text.all Char.isDigit then none
  else
    some <| text.foldl
      (fun size char =>
        if size < exponentLimit then 10 * size + (char.toNat - 48) else size)
      0

/-- The exponent after the digits of a number: the letter `e`, an optional
sign, and one or more digits. -/
def readExponent? : List Char → Option Int
  | [] => some 0
  | char :: rest =>
      if char = 'e' ∨ char = 'E' then
        match rest with
        | '-' :: size => (readExponentSize? size).map fun size => -Int.ofNat size
        | '+' :: size => (readExponentSize? size).map Int.ofNat
        | size => (readExponentSize? size).map Int.ofNat
      else none

/-- The size of a number given by decimal digits around an optional point. -/
def readSize? (text : List Char) : Option Float :=
  let whole := text.takeWhile Char.isDigit
  let afterWhole := text.dropWhile Char.isDigit
  let (fraction, rest) :=
    match afterWhole with
    | '.' :: more => (more.takeWhile Char.isDigit, more.dropWhile Char.isDigit)
    | _ => ([], afterWhole)
  match readNat? 10 (whole ++ fraction), readExponent? rest with
  | some digits, some exponent =>
      some (nearestFloat digits (exponent - Int.ofNat fraction.length))
  | _, _ => none

/-- The double whose text this is. -/
def readFloat? (text : List Char) : Option Float :=
  let (negative, size) :=
    match text with
    | '-' :: rest => (true, rest)
    | '+' :: rest => (false, rest)
    | _ => (false, text)
  let found :=
    if Text.sameIgnoringCase size "inf".toList ||
        Text.sameIgnoringCase size "infinity".toList then
      some (Float.ofBits 0x7FF0000000000000)
    else if Text.sameIgnoringCase size "nan".toList then
      some (Float.ofBits 0x7FF8000000000000)
    else readSize? size
  found.map fun value => if negative then -value else value

end AmlExchange.Decimal
