import AmlExchange.Decimal.Integer

/-!
# The shortest decimal text of a binary number

A positive binary number `significand * 2 ^ exponent` is the nearest one to
every real number in an interval around it.  Its shortest decimal text has the
fewest digits of all decimals in that interval, and of those it is the nearest
to the number; a decimal half-way between two candidates gives way to the
larger one.  The search walks from coarse to fine powers of ten and tests the
two neighbours of the number on each grid in exact integer arithmetic.
-/

namespace AmlExchange.Decimal

/-- A positive number with the interval of reals that round to it, all three
over one positive denominator. -/
structure Rounding where
  value : Nat
  lowest : Nat
  highest : Nat
  denominator : Nat
  /-- Whether the ends of the interval round to the number as well. -/
  closed : Bool

/-- A decimal number `digits * 10 ^ exponent`. -/
structure Digits where
  digits : Nat
  exponent : Int
deriving DecidableEq, Repr

namespace Rounding

/-- The rounding interval of `significand * 2 ^ exponent`.  Below a power of
two the neighbours lie twice as close as above it. -/
def ofBinary (significand : Nat) (exponent : Int) (atPower : Bool) :
    Rounding :=
  let scaleUp := Nat.pow 2 (exponent - 2).toNat
  let below := if atPower then 1 else 2
  { value := 4 * significand * scaleUp
    lowest := (4 * significand - below) * scaleUp
    highest := (4 * significand + 2) * scaleUp
    denominator := Nat.pow 2 (2 - exponent).toNat
    closed := significand % 2 == 0 }

/-- Whether a number over the denominator rounds to the value. -/
def admits (interval : Rounding) (candidate : Nat) : Bool :=
  if interval.closed then
    interval.lowest ≤ candidate && candidate ≤ interval.highest
  else
    interval.lowest < candidate && candidate < interval.highest

/-- The interval with all numbers multiplied by a factor. -/
def scale (interval : Rounding) (factor : Nat) : Rounding :=
  { interval with
    value := interval.value * factor
    lowest := interval.lowest * factor
    highest := interval.highest * factor }

/-- The multiple of `unit` that rounds to the value and is nearest to it, the
larger of two that are equally near. -/
def nearestMultiple? (interval : Rounding) (unit : Nat) : Option Nat :=
  let lower := interval.value / unit
  let upper := lower + 1
  match interval.admits (lower * unit), interval.admits (upper * unit) with
  | true, true =>
      if 2 * interval.value < (lower + upper) * unit then some lower
      else some upper
  | true, false => some lower
  | false, true => some upper
  | false, false => none

/-- The decimal with the given exponent that rounds to the value. -/
def onGrid? (interval : Rounding) (exponent : Int) : Option Digits :=
  let scaled := interval.scale (Nat.pow 10 (-exponent).toNat)
  let unit := interval.denominator * Nat.pow 10 exponent.toNat
  (scaled.nearestMultiple? unit).map fun digits => ⟨digits, exponent⟩

/-- An exponent of ten whose power is larger than the value. -/
def ceiling (interval : Rounding) : Int :=
  if interval.denominator ≤ interval.value then
    (writeNat (interval.value / interval.denominator)).length
  else
    1 - (writeNat (interval.denominator / interval.value)).length

/-- The decimal on the coarsest grid that has one.  Eighteen significant
digits always suffice for a significand of 53 bits. -/
def shortest (interval : Rounding) : Digits :=
  let top := interval.ceiling
  ((List.range 20).findSome? fun step =>
    interval.onGrid? (top - Int.ofNat step)).getD ⟨0, 0⟩

end Rounding

namespace Digits

/-- The digits written out in full, without an exponent: zeros fill the place
of the unit, and a point divides whole from fraction where there is one. -/
def render (number : Digits) : List Char :=
  let text := writeNat number.digits
  if 0 ≤ number.exponent then
    text ++ List.replicate number.exponent.toNat '0'
  else
    let places := (-number.exponent).toNat
    if places < text.length then
      text.take (text.length - places) ++
        '.' :: text.drop (text.length - places)
    else
      "0.".toList ++ List.replicate (places - text.length) '0' ++ text

end Digits

end AmlExchange.Decimal
