import AmlExchange.Decimal.Integer
import Mathlib.Data.Nat.Digits.Defs
import Mathlib.Data.List.Forall2
import Mathlib.Data.List.Induction
import Mathlib.Tactic.SplitIfs

/-!
# Texts that are read as numbers

A number is read from its digits in a radix, in either letter case
(`readNat?_eq_some_iff`).  In decimal these are the digits that the number is
written with, perhaps after zeros (`readNat?_decimal_iff`), and a sign may
stand in front (`readInt?_eq_some_iff`).
-/

namespace AmlExchange.Decimal

/-! ## Any radix -/

/-- Whether a character is the digit with a value, in either letter case. -/
def IsDigit (radix value : Nat) (char : Char) : Prop :=
  value < radix ∧ (char = digitChar value ∨ char = (digitChar value).toUpper)

/-- Whether a text is a number in one or more digits of a radix. -/
def Writes (radix : Nat) (text : List Char) (number : Nat) : Prop :=
  text ≠ [] ∧
    ∃ values, List.Forall₂ (IsDigit radix) values text ∧
      number = Nat.ofDigits radix values.reverse

theorem toUpper_digitChar :
    ∀ value < 36, 10 ≤ value →
      (digitChar value).toUpper = Char.ofNat (55 + value) := by
  decide

theorem digitValue?_of_digitChar :
    ∀ value < 36,
      digitValue? 36 (digitChar value) = some value ∧
        digitValue? 36 (digitChar value).toUpper = some value := by
  decide

theorem digitValue?_eq_some_iff
    {radix value : Nat} {char : Char} (bounded : radix ≤ 36) :
    digitValue? radix char = some value ↔ IsDigit radix value char := by
  constructor
  · intro read
    unfold digitValue? at read
    simp only [Bool.and_eq_true, decide_eq_true_eq,
      Option.ite_none_right_eq_some, Option.some.injEq] at read
    obtain ⟨small, same⟩ := read
    have whole := Char.ofNat_toNat char
    split_ifs at small same with figure low high
    · have less : value < 10 := by omega
      refine ⟨by omega, .inl ?_⟩
      rw [digitChar, if_pos less, ← whole]
      congr 1
      omega
    · have more : ¬ value < 10 := by omega
      refine ⟨by omega, .inl ?_⟩
      rw [digitChar, if_neg more, ← whole]
      congr 1
      omega
    · refine ⟨by omega, .inr ?_⟩
      rw [toUpper_digitChar value (by omega) (by omega), ← whole]
      congr 1
      omega
    · omega
  · rintro ⟨small, spelled⟩
    have known := digitValue?_of_digitChar value (by omega)
    have read : digitValue? 36 char = some value := by
      rcases spelled with rfl | rfl
      · exact known.1
      · exact known.2
    unfold digitValue? at read ⊢
    simp only [Option.ite_none_right_eq_some, Option.some.injEq] at read ⊢
    split_ifs at read ⊢ <;> omega

/-- The digits after a number that was read before them. -/
theorem readDigits?_eq_some_iff
    {radix high number : Nat} {text : List Char} (bounded : radix ≤ 36) :
    readDigits? radix high text = some number ↔
      ∃ values, List.Forall₂ (IsDigit radix) values text ∧
        number =
          values.foldl (fun high value => high * radix + value) high := by
  induction text generalizing high with
  | nil =>
      rw [readDigits?, Option.some_inj]
      constructor
      · rintro rfl
        exact ⟨[], .nil, rfl⟩
      · rintro ⟨values, written, rfl⟩
        cases written
        rfl
  | cons char rest ih =>
      rw [readDigits?]
      constructor
      · intro read
        split at read
        · next value found =>
            obtain ⟨values, written, rfl⟩ := ih.mp read
            have first := (digitValue?_eq_some_iff bounded).mp found
            exact ⟨value :: values, .cons first written, rfl⟩
        · cases read
      · rintro ⟨_, written, rfl⟩
        cases written with
        | cons first others =>
            rw [(digitValue?_eq_some_iff bounded).mpr first]
            exact ih.mpr ⟨_, others, rfl⟩

theorem foldl_eq_ofDigits
    (radix : Nat) (values : List Nat) :
    values.foldl (fun high value => high * radix + value) 0 =
      Nat.ofDigits radix values.reverse := by
  induction values using List.reverseRecOn with
  | nil => rfl
  | append_singleton init last ih =>
      rw [List.foldl_append, ih, List.reverse_append, List.reverse_singleton,
        List.singleton_append, Nat.ofDigits_cons]
      simp [Nat.mul_comm, Nat.add_comm]

/-- A number is read from its digits. -/
theorem readNat?_eq_some_iff
    {radix number : Nat} {text : List Char} (bounded : radix ≤ 36) :
    readNat? radix text = some number ↔ Writes radix text number := by
  unfold readNat? Writes
  cases text with
  | nil => simp
  | cons char rest =>
      simp only [List.isEmpty_cons, Bool.false_eq_true, if_false,
        readDigits?_eq_some_iff bounded, foldl_eq_ofDigits]
      simp

theorem Writes.exists_digit
    {radix number : Nat} {text : List Char}
    (written : Writes radix text number) :
    ∀ char ∈ text, ∃ value, IsDigit radix value char := by
  obtain ⟨-, values, digits, -⟩ := written
  induction digits with
  | nil => exact nofun
  | cons first others ih => exact List.forall_mem_cons.mpr ⟨⟨_, first⟩, ih⟩

/-- A character that is no digit does not stand in a number. -/
theorem Writes.not_mem
    {radix number : Nat} {text : List Char}
    (written : Writes radix text number) (bounded : radix ≤ 36)
    (char : Char) (other : digitValue? radix char = none) :
    char ∉ text := by
  intro member
  obtain ⟨value, isDigit⟩ := written.exists_digit char member
  rw [(digitValue?_eq_some_iff bounded).mpr isDigit] at other
  cases other

/-- A plus sign may stand before a number without a sign of its own. -/
theorem readUnsigned?_eq_some_iff
    {radix number : Nat} {text : List Char} (bounded : radix ≤ 36) :
    readUnsigned? radix text = some number ↔
      ∃ sign ∈ [[], ['+']], ∃ digits,
        text = sign ++ digits ∧ Writes radix digits number := by
  have unsigned : digitValue? radix '+' = none := by
    simp [digitValue?]
  constructor
  · intro read
    unfold readUnsigned? at read
    split at read
    · next digits =>
        exact
          ⟨['+'], by simp, digits, rfl, (readNat?_eq_some_iff bounded).mp read⟩
    · exact ⟨[], by simp, text, rfl, (readNat?_eq_some_iff bounded).mp read⟩
  · rintro ⟨sign, allowed, digits, rfl, written⟩
    have read := (readNat?_eq_some_iff bounded).mpr written
    simp only [List.mem_cons, List.not_mem_nil, or_false] at allowed
    rcases allowed with rfl | rfl
    · rw [List.nil_append, readUnsigned?]
      · exact read
      · rintro rest rfl
        exact written.not_mem bounded _ unsigned List.mem_cons_self
    · exact read

/-! ## Decimal digits -/

theorem digitChar_of_digitValue?
    {char : Char} {value : Nat} (read : digitValue? 10 char = some value) :
    value < 10 ∧ digitChar value = char := by
  obtain ⟨small, same | same⟩ :=
    (digitValue?_eq_some_iff (by decide)).mp read
  · exact ⟨small, same.symm⟩
  · refine ⟨small, ?_⟩
    rw [same]
    clear read same
    decide +revert

/-- A number is read from zeros and its digits. -/
theorem readDigits?_zeros_append
    (zeros value : Nat) :
    readDigits? 10 0 (List.replicate zeros '0' ++ writeNat value) =
      some value := by
  induction zeros with
  | zero => exact readDigits?_writeNat value
  | succ zeros ih => exact ih

theorem writeNat_of_lt
    {value : Nat} (small : value < 10) :
    writeNat value = [digitChar value] := by
  rw [writeNat, if_pos small]

theorem writeNat_append_digit
    {high digit : Nat} (some : high ≠ 0) (small : digit < 10) :
    writeNat (high * 10 + digit) = writeNat high ++ [digitChar digit] := by
  have large : ¬ high * 10 + digit < 10 := by omega
  have front : (high * 10 + digit) / 10 = high := by omega
  have last : (high * 10 + digit) % 10 = digit := by omega
  rw [writeNat, if_neg large, front, last]

/-- What is read as a number is the digits of the number after zeros. -/
theorem exists_zeros_of_readDigits?
    {text : List Char} {value : Nat} (nonempty : text ≠ [])
    (read : readDigits? 10 0 text = some value) :
    ∃ zeros, text = List.replicate zeros '0' ++ writeNat value := by
  induction text using List.reverseRecOn generalizing value with
  | nil => exact absurd rfl nonempty
  | append_singleton init last ih =>
      rw [readDigits?_append, Option.bind_eq_some_iff] at read
      obtain ⟨high, front, back⟩ := read
      rw [readDigits?] at back
      split at back
      · next digit found =>
          obtain ⟨small, same⟩ := digitChar_of_digitValue? found
          obtain rfl : high * 10 + digit = value := Option.some_inj.mp back
          by_cases first : init = []
          · subst first
            obtain rfl : 0 = high := Option.some_inj.mp front
            refine ⟨0, ?_⟩
            rw [Nat.zero_mul, Nat.zero_add, writeNat_of_lt small, same]
            rfl
          · obtain ⟨zeros, whole⟩ := ih first front
            by_cases none : high = 0
            · -- the digits before were zeros only
              subst none
              refine ⟨zeros + 1, ?_⟩
              rw [whole, Nat.zero_mul, Nat.zero_add, writeNat_of_lt small,
                writeNat_of_lt (Nat.succ_pos 9), same, List.replicate_succ']
              rfl
            · refine ⟨zeros, ?_⟩
              rw [writeNat_append_digit none small, same, whole,
                List.append_assoc]
      · cases back

/-- In decimal a number is read from zeros and its digits. -/
theorem readNat?_decimal_iff
    {text : List Char} {value : Nat} :
    readNat? 10 text = some value ↔
      ∃ zeros, text = List.replicate zeros '0' ++ writeNat value := by
  constructor
  · intro read
    rw [readNat?] at read
    split at read
    · cases read
    · next some => exact exists_zeros_of_readDigits? (by simpa using some) read
  · rintro ⟨zeros, rfl⟩
    have nonempty :
        (List.replicate zeros '0' ++ writeNat value).isEmpty = false := by
      simp [writeNat_ne_nil]
    rw [readNat?, nonempty]
    exact readDigits?_zeros_append zeros value

/-- What is read as a number ends with the digits of the number. -/
theorem suffix_of_readUnsigned?
    {text : List Char} {value : Nat}
    (read : readUnsigned? 10 text = some value) :
    writeNat value <:+ text := by
  have unsigned {digits : List Char}
      (found : readNat? 10 digits = some value) :
      writeNat value <:+ digits := by
    obtain ⟨zeros, rfl⟩ := readNat?_decimal_iff.mp found
    exact List.suffix_append _ _
  unfold readUnsigned? at read
  split at read
  · exact (unsigned read).trans (List.suffix_cons _ _)
  · exact unsigned read

/-! ## Signs -/

/-- Whether a text is a whole number in decimal: a sign or none, zeros, and
the digits that the number is written with. -/
def WritesInt (text : List Char) (number : Int) : Prop :=
  ∃ sign zeros,
    text = sign ++ (List.replicate zeros '0' ++ writeNat number.natAbs) ∧
      (sign = ['-'] ∧ number ≤ 0 ∨ sign ∈ [[], ['+']] ∧ 0 ≤ number)

theorem readUnsigned?_decimal_iff
    {text : List Char} {value : Nat} :
    readUnsigned? 10 text = some value ↔
      ∃ sign ∈ [[], ['+']], ∃ zeros,
        text = sign ++ (List.replicate zeros '0' ++ writeNat value) := by
  rw [readUnsigned?_eq_some_iff (by decide)]
  constructor
  · rintro ⟨sign, allowed, digits, rfl, written⟩
    obtain ⟨zeros, rfl⟩ :=
      readNat?_decimal_iff.mp ((readNat?_eq_some_iff (by decide)).mpr written)
    exact ⟨sign, allowed, zeros, rfl⟩
  · rintro ⟨sign, allowed, zeros, rfl⟩
    exact
      ⟨sign, allowed, _, rfl,
        (readNat?_eq_some_iff (by decide)).mp
          (readNat?_decimal_iff.mpr ⟨zeros, rfl⟩)⟩

/-- A whole number is read from a sign or none, zeros and its digits. -/
theorem readInt?_eq_some_iff
    {text : List Char} {number : Int} :
    readInt? text = some number ↔ WritesInt text number := by
  constructor
  · intro read
    unfold readInt? at read
    split at read
    · next digits =>
        obtain ⟨value, found, rfl⟩ := Option.map_eq_some_iff.mp read
        obtain ⟨zeros, rfl⟩ := readNat?_decimal_iff.mp found
        exact ⟨['-'], zeros, by simp, .inl ⟨rfl, by simp⟩⟩
    · obtain ⟨value, found, rfl⟩ := Option.map_eq_some_iff.mp read
      obtain ⟨sign, allowed, zeros, rfl⟩ := readUnsigned?_decimal_iff.mp found
      exact ⟨sign, zeros, by simp, .inr ⟨allowed, by simp⟩⟩
  · rintro ⟨sign, zeros, rfl, ⟨rfl, negative⟩ | ⟨allowed, positive⟩⟩
    · have digits :
          readNat? 10 (List.replicate zeros '0' ++ writeNat number.natAbs) =
            some number.natAbs :=
        readNat?_decimal_iff.mpr ⟨zeros, rfl⟩
      rw [List.singleton_append, readInt?, digits, Option.map_some,
        Option.some_inj]
      simp only [Int.ofNat_eq_natCast]
      omega
    · have read :
          readUnsigned? 10
              (sign ++ (List.replicate zeros '0' ++ writeNat number.natAbs)) =
            some number.natAbs :=
        readUnsigned?_decimal_iff.mpr ⟨sign, allowed, zeros, rfl⟩
      rw [readInt?, read, Option.map_some, Option.some_inj]
      · simp only [Int.ofNat_eq_natCast]
        omega
      · -- a minus sign is no digit, so the text does not begin with one
        rintro rest same
        have unsigned : digitValue? 10 '-' = none := by decide
        simp [same, readUnsigned?, readNat?, readDigits?, unsigned] at read

theorem toInt32?_eq_some_iff
    {value : Int} {number : Int32} :
    toInt32? value = some number ↔ value = number.toInt := by
  constructor
  · intro fits
    rw [toInt32?, Option.ite_none_right_eq_some, Option.some_inj] at fits
    obtain ⟨⟨lower, upper⟩, rfl⟩ := fits
    have least : Int32.minValue.toInt = -2 ^ 31 := by decide
    have most : Int32.maxValue.toInt = 2 ^ 31 - 1 := by decide
    exact (Int32.toInt_ofInt_of_le (by omega) (by omega)).symm
  · rintro rfl
    exact toInt32?_toInt number

theorem readInt32?_eq_some_iff
    {text : List Char} {number : Int32} :
    readInt32? text = some number ↔ WritesInt text number.toInt := by
  simp only [readInt32?, Option.bind_eq_some_iff, readInt?_eq_some_iff,
    toInt32?_eq_some_iff, exists_eq_right]

end AmlExchange.Decimal
