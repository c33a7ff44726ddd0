/-!
# Whole numbers as text

A whole number is written with the fewest digits, after a minus sign when it
is negative.  It is read from one or more digits after an optional sign.
Reading undoes writing (`readInt?_writeInt`), but not the other way round:
`+7` and `007` are read as seven.
-/

namespace AmlExchange.Decimal

/-- The character of a digit, small letters following the nine. -/
def digitChar (value : Nat) : Char :=
  if value < 10 then Char.ofNat (48 + value) else Char.ofNat (87 + value)

/-- The value of a digit in a radix of at most 36, in either letter case. -/
def digitValue? (radix : Nat) (char : Char) : Option Nat :=
  let point := char.toNat
  let value :=
    if 48 ≤ point && point ≤ 57 then point - 48
    else if 97 ≤ point && point ≤ 122 then point - 87
    else if 65 ≤ point && point ≤ 90 then point - 55
    else radix
  if value < radix then some value else none

/-- The digits of a natural number, the most significant first. -/
def writeNat (value : Nat) : List Char :=
  if value < 10 then [digitChar value]
  else writeNat (value / 10) ++ [digitChar (value % 10)]
termination_by value
decreasing_by omega

/-- The digits of a number, with a minus sign before a negative one. -/
def writeInt (value : Int) : List Char :=
  if value < 0 then '-' :: writeNat value.natAbs else writeNat value.natAbs

/-- The number that digits stand for when they follow those of `high`. -/
def readDigits? (radix : Nat) (high : Nat) : List Char → Option Nat
  | [] => some high
  | char :: rest =>
      match digitValue? radix char with
      | some value => readDigits? radix (high * radix + value) rest
      | none => none

/-- The natural number written with one or more digits and nothing else. -/
def readNat? (radix : Nat) (text : List Char) : Option Nat :=
  if text.isEmpty then none else readDigits? radix 0 text

/-- As `readNat?`, with a plus sign allowed before the digits. -/
def readUnsigned? (radix : Nat) : List Char → Option Nat
  | '+' :: text => readNat? radix text
  | text => readNat? radix text

/-- The number written with decimal digits after an optional sign. -/
def readInt? : List Char → Option Int
  | '-' :: text => (readNat? 10 text).map fun value => -Int.ofNat value
  | text => (readUnsigned? 10 text).map Int.ofNat

/-- A number as a 64-bit one, if it fits. -/
def toInt64? (value : Int) : Option Int64 :=
  if Int64.minValue.toInt ≤ value ∧ value ≤ Int64.maxValue.toInt then
    some (Int64.ofInt value)
  else none

/-- A number as a 32-bit one, if it fits. -/
def toInt32? (value : Int) : Option Int32 :=
  if Int32.minValue.toInt ≤ value ∧ value ≤ Int32.maxValue.toInt then
    some (Int32.ofInt value)
  else none

/-- The number read from a text, if it fits into 64 bits. -/
def readInt64? (text : List Char) : Option Int64 :=
  (readInt? text).bind toInt64?

/-- The number read from a text, if it fits into 32 bits. -/
def readInt32? (text : List Char) : Option Int32 :=
  (readInt? text).bind toInt32?

@[simp]
theorem toInt64?_toInt (value : Int64) :
    toInt64? value.toInt = some value := by
  have lower := value.minValue_le_toInt
  have upper := value.toInt_le
  simp only [toInt64?, lower, upper, and_self, if_true, Int64.ofInt_toInt]

@[simp]
theorem toInt32?_toInt (value : Int32) :
    toInt32? value.toInt = some value := by
  have lower := value.minValue_le_toInt
  have upper := value.toInt_le
  simp only [toInt32?, lower, upper, and_self, if_true, Int32.ofInt_toInt]

theorem digitValue?_digitChar (value : Nat) (small : value < 10) :
    digitValue? 10 (digitChar value) = some value := by
  decide +revert

theorem readDigits?_append (radix high : Nat) (left right : List Char) :
    readDigits? radix high (left ++ right) =
      (readDigits? radix high left).bind fun middle =>
        readDigits? radix middle right := by
  induction left generalizing high with
  | nil => rfl
  | cons char rest ih =>
      simp only [List.cons_append, readDigits?]
      split
      · exact ih _
      · rfl

theorem writeNat_ne_nil (value : Nat) : writeNat value ≠ [] := by
  unfold writeNat
  split <;> simp

/-- What holds of all digits holds of the characters of a number. -/
theorem forall_mem_writeNat {holds : Char → Prop}
    (digits : ∀ {digit : Nat}, digit < 10 → holds (digitChar digit))
    (value : Nat) :
    ∀ char ∈ writeNat value, holds char := by
  induction value using Nat.strongRecOn with
  | _ value ih =>
      unfold writeNat
      split
      · next small => exact List.forall_mem_singleton.mpr (digits small)
      · next large =>
          rw [List.forall_mem_append, List.forall_mem_singleton]
          exact ⟨ih _ (by omega), digits (Nat.mod_lt _ (by decide))⟩

theorem readDigits?_writeNat (value : Nat) :
    readDigits? 10 0 (writeNat value) = some value := by
  induction value using Nat.strongRecOn with
  | _ value ih =>
      unfold writeNat
      split
      · next small =>
          simp [readDigits?, digitValue?_digitChar value small]
      · next large =>
          have digit : value % 10 < 10 := Nat.mod_lt _ (by omega)
          rw [readDigits?_append, ih (value / 10) (by omega)]
          simp only [Option.bind_some, readDigits?,
            digitValue?_digitChar _ digit, Option.some.injEq]
          omega

@[simp]
theorem readNat?_writeNat (value : Nat) :
    readNat? 10 (writeNat value) = some value := by
  simp [readNat?, writeNat_ne_nil, readDigits?_writeNat]

/-- The first digit of a number is no sign. -/
theorem head_writeNat (value : Nat) :
    ∃ digit rest, digit < 10 ∧ writeNat value = digitChar digit :: rest := by
  induction value using Nat.strongRecOn with
  | _ value ih =>
      unfold writeNat
      split
      · next small => exact ⟨value, [], small, rfl⟩
      · next large =>
          obtain ⟨digit, rest, small, equality⟩ :=
            ih (value / 10) (by omega)
          exact ⟨digit, _, small, by rw [equality, List.cons_append]⟩

theorem digitChar_ne_sign {digit : Nat} (small : digit < 10) :
    digitChar digit ≠ '-' ∧ digitChar digit ≠ '+' := by
  decide +revert

theorem readInt?_writeNat (value : Nat) :
    readInt? (writeNat value) = some (Int.ofNat value) := by
  obtain ⟨digit, rest, small, equality⟩ := head_writeNat value
  have sign := digitChar_ne_sign small
  have read := readNat?_writeNat value
  rw [equality] at read ⊢
  unfold readInt?
  split
  · next start => exact absurd (List.cons.inj start).1 sign.1
  · unfold readUnsigned?
    split
    · next start => exact absurd (List.cons.inj start).1 sign.2
    · simp [read]

/-- Reading undoes writing. -/
theorem readInt?_writeInt (value : Int) :
    readInt? (writeInt value) = some value := by
  unfold writeInt
  split
  · simp only [readInt?, readNat?_writeNat, Option.map_some,
      Option.some.injEq, Int.ofNat_eq_natCast]
    omega
  · rw [readInt?_writeNat]
    simp only [Option.some.injEq, Int.ofNat_eq_natCast]
    omega

end AmlExchange.Decimal
