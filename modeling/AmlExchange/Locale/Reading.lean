import AmlExchange.Locale

/-!
# Typed readings of values

Values that come from the server are texts, and texts are read as the type
that the caller asks for.  A null value and a blank text read as none; a value
that does not fit the type is refused.
-/

namespace AmlExchange.Locale

open Calendar (DateTime ZonedDateTime)

/-- The head of a text that names a file in the vault by its identity. -/
def vaultHead : String :=
  "vault:///?fileId="

/-- The refusal to read a value as the type named. -/
def refusal (target : String) : Fault :=
  .ofKind (.invalidValue target)

/-- The reading of a text that is trimmed and not blank, or none of a blank
one. -/
def readText (target : String) (read : List Char → Option α)
    (text : String) : Except Fault (Option α) :=
  let trimmed := Text.trim text.toList
  if trimmed.isEmpty then .ok none
  else
    match read trimmed with
    | some value => .ok (some value)
    | none => .error (refusal target)

/-- The truth value that a text names. -/
def readBoolean (text : List Char) : Option Bool :=
  if text = ['1'] then some true
  else if text = ['0'] then some false
  else if Text.sameIgnoringCase text "true".toList then some true
  else if Text.sameIgnoringCase text "false".toList then some false
  else none

/-- A value as a truth value; a whole number is true unless it is zero. -/
def asBoolean : Value → Except Fault (Option Bool)
  | .null => .ok none
  | .bool value => .ok (some value)
  | .int value => .ok (some (value != 0))
  | .text value => readText "boolean" readBoolean value
  | _ => .error (refusal "boolean")

/-- A value as a whole number of 64 bits. -/
def asLong : Value → Except Fault (Option Int64)
  | .null => .ok none
  | .int value => .ok (some value)
  | .bool value => .ok (some (if value then 1 else 0))
  | .float value =>
      match (Decimal.integral? value).bind Decimal.toInt64? with
      | some whole => .ok (some whole)
      | none => .error (refusal "long")
  | .text value => readText "long" Decimal.readInt64? value
  | _ => .error (refusal "long")

/-- A value as a whole number of 32 bits. -/
def asInt (value : Value) : Except Fault (Option Int32) := do
  match ← asLong value with
  | none => .ok none
  | some long =>
      match Decimal.toInt32? long.toInt with
      | some whole => .ok (some whole)
      | none => .error (refusal "int")

/-- The double nearest to a whole number. -/
def nearestDouble (value : Int64) : Float :=
  let size := Float.ofScientific value.toInt.natAbs false 0
  if value < 0 then -size else size

/-- A value as a floating-point number. -/
def asDouble : Value → Except Fault (Option Float)
  | .null => .ok none
  | .float value => .ok (some value)
  | .int value => .ok (some (nearestDouble value))
  | .text value => readText "double" Decimal.readFloat? value
  | _ => .error (refusal "double")

/-- A value as a moment with its clock.  A text is meant on the server's
clock. -/
def asZoned (locale : Locale) :
    Value → Except Fault (Option ZonedDateTime)
  | .null => .ok none
  | .dateTime value => .ok (some (locale.onClientClock value))
  | .zoned value => .ok (some value)
  | .text value =>
      readText "date"
        (fun text => (DateTime.read? text).map fun moment =>
          ⟨moment, locale.serverOffset⟩)
        value
  | _ => .error (refusal "date")

/-- A value as a moment on the client's clock. -/
def asDateTime (locale : Locale) (value : Value) :
    Except Fault (Option DateTime) := do
  .ok ((← locale.asZoned value).map (·.toZone locale.clientOffset))

/-- A value as a moment of universal time. -/
def asUniversal (locale : Locale) (value : Value) :
    Except Fault (Option DateTime) := do
  .ok ((← locale.asZoned value).map (·.toZone 0))

/-- The identity that a text gives, by itself or as a file in the vault. -/
def readGuid (text : List Char) : Option Guid :=
  match Text.afterHead? vaultHead.toList text with
  | some rest => Guid.read? rest
  | none => Guid.read? text

/-- A value as an identity. -/
def asGuid : Value → Except Fault (Option Guid)
  | .null => .ok none
  | .guid value => .ok (some value)
  | .text value => readText "guid" readGuid value
  | _ => .error (refusal "guid")

end AmlExchange.Locale
