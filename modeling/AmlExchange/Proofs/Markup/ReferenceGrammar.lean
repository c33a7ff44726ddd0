import AmlExchange.Proofs.Decimal.Numerals
import AmlExchange.Proofs.Markup.References
import AmlExchange.Proofs.Text.Marks

/-!
# The grammar of references

A text is decoded exactly if it can be taken apart into characters and
references, each of which stands for a character.  The rules by which it is
taken apart are more lenient than those of markup: a plus sign may stand before
the digits of a number, and the last reference may lack its semicolon.  Where a
text makes use of neither, the rules of markup decide (`decode_eq_ok_iff`).
-/

namespace AmlExchange.Markup

/-! ## The grammar -/

/-- What may be left open to those who write references. -/
structure ReferenceRules where
  /-- What may stand before the digits of a number. -/
  signs : List (List Char)
  /-- Whether the end of the text may end a reference. -/
  unended : Bool

namespace ReferenceRules

/-- The rules of markup. -/
def strict : ReferenceRules :=
  ⟨[[]], false⟩

/-- The rules by which texts are decoded. -/
def lenient : ReferenceRules :=
  ⟨[[], ['+']], true⟩

end ReferenceRules

open ReferenceRules (strict lenient)

/-- The characters that have names. -/
def predefined : List (String × Char) :=
  [("amp", '&'), ("lt", '<'), ("gt", '>'), ("quot", '"'), ("apos", '\'')]

/-- Whether a reference, without ampersand and semicolon, stands for a
character. -/
inductive Stands (rules : ReferenceRules) : List Char → Char → Prop where
  | named {name : String} {referent : Char}
      (known : (name, referent) ∈ predefined) :
      Stands rules name.toList referent
  | decimal {sign digits : List Char} {number : Nat}
      (signed : sign ∈ rules.signs)
      (written : Decimal.Writes 10 digits number)
      (scalar : number.isValidChar) :
      Stands rules ('#' :: (sign ++ digits)) (Char.ofNat number)
  | hexadecimal {mark : Char} {sign digits : List Char} {number : Nat}
      (marked : mark = 'x' ∨ mark = 'X') (signed : sign ∈ rules.signs)
      (written : Decimal.Writes 16 digits number)
      (scalar : number.isValidChar) :
      Stands rules ('#' :: mark :: (sign ++ digits)) (Char.ofNat number)

/-- Whether a text is another one with references in the place of some of its
characters. -/
inductive Expands (rules : ReferenceRules) :
    List Char → List Char → Prop where
  | nil : Expands rules [] []
  | plain {char : Char} {rest expanded : List Char} (plain : char ≠ '&')
      (expands : Expands rules rest expanded) :
      Expands rules (char :: rest) (char :: expanded)
  | reference {reference rest expanded : List Char} {referent : Char}
      (stands : Stands rules reference referent)
      (expands : Expands rules rest expanded) :
      Expands rules ('&' :: (reference ++ ';' :: rest)) (referent :: expanded)
  | unended {reference : List Char} {referent : Char}
      (allowed : rules.unended = true)
      (stands : Stands rules reference referent) :
      Expands rules ('&' :: reference) [referent]

/-! ## References -/

section

variable {rules : ReferenceRules} {reference : List Char} {referent : Char}

/-- No reference holds a mark that begins or ends one. -/
theorem Stands.not_mem
    (stands : Stands lenient reference referent) :
    ';' ∉ reference ∧ '&' ∉ reference := by
  have unmarked : ∀ sign ∈ lenient.signs, ';' ∉ sign ∧ '&' ∉ sign := by
    decide
  cases stands with
  | @named name referent known =>
      have all : ∀ entry ∈ predefined,
          ';' ∉ entry.1.toList ∧ '&' ∉ entry.1.toList := by
        decide
      exact all _ known
  | decimal signed written =>
      have first := written.not_mem (by decide) ';' (by decide)
      have second := written.not_mem (by decide) '&' (by decide)
      simp [unmarked _ signed, first, second]
  | hexadecimal marked signed written =>
      have first := written.not_mem (by decide) ';' (by decide)
      have second := written.not_mem (by decide) '&' (by decide)
      rcases marked with rfl | rfl <;>
        simp [unmarked _ signed, first, second]

/-! A reference is the name of a character or a number in one of two
radices. -/

theorem referent?_of_known :
    ∀ entry ∈ predefined, referent? entry.1.toList = some entry.2 := by
  decide

theorem referent?_hexadecimal
    {mark : Char} (marked : mark = 'x' ∨ mark = 'X') (digits : List Char) :
    referent? ('#' :: mark :: digits) =
      (Decimal.readUnsigned? 16 digits).bind charOfNumber? := by
  rcases marked with rfl | rfl <;> simp [referent?]

theorem referent?_decimal
    {digits : List Char}
    (unmarked : ∀ mark ∈ digits.head?, mark ≠ 'x' ∧ mark ≠ 'X') :
    referent? ('#' :: digits) =
      (Decimal.readUnsigned? 10 digits).bind charOfNumber? := by
  cases digits with
  | nil => simp [referent?]
  | cons mark rest =>
      obtain ⟨small, capital⟩ := unmarked mark rfl
      simp [referent?, small, capital]

theorem referent?_other
    (unknown : ∀ entry ∈ predefined, reference ≠ entry.1.toList)
    (unnumbered : reference.head? ≠ some '#') :
    referent? reference = none := by
  simp only [predefined, List.forall_mem_cons] at unknown
  obtain ⟨ampersand, less, greater, quote, apostrophe, -⟩ := unknown
  unfold referent?
  rw [if_neg ampersand, if_neg less, if_neg greater, if_neg quote,
    if_neg apostrophe]
  split
  · exact absurd rfl unnumbered
  · exact absurd rfl unnumbered
  · exact absurd rfl unnumbered
  · rfl

theorem exists_number_of_bind
    {radix : Nat} {text : List Char} (bounded : radix ≤ 36)
    (found :
      (Decimal.readUnsigned? radix text).bind charOfNumber? =
        some referent) :
    ∃ sign ∈ lenient.signs, ∃ digits number,
      text = sign ++ digits ∧ Decimal.Writes radix digits number ∧
        number.isValidChar ∧ Char.ofNat number = referent := by
  obtain ⟨number, read, isChar⟩ := Option.bind_eq_some_iff.mp found
  obtain ⟨sign, signed, digits, rfl, written⟩ :=
    (Decimal.readUnsigned?_eq_some_iff bounded).mp read
  have scalar : number.isValidChar ∧ Char.ofNat number = referent := by
    simpa [charOfNumber?] using isChar
  exact ⟨sign, signed, digits, number, rfl, written, scalar⟩

theorem bind_of_written
    {radix number : Nat} {sign digits : List Char} (bounded : radix ≤ 36)
    (signed : sign ∈ lenient.signs)
    (written : Decimal.Writes radix digits number)
    (scalar : number.isValidChar) :
    (Decimal.readUnsigned? radix (sign ++ digits)).bind charOfNumber? =
      some (Char.ofNat number) := by
  rw [(Decimal.readUnsigned?_eq_some_iff bounded).mpr
    ⟨sign, signed, digits, rfl, written⟩]
  exact if_pos scalar

theorem stands_of_referent?
    (found : referent? reference = some referent) :
    Stands lenient reference referent := by
  by_cases known : ∃ entry ∈ predefined, reference = entry.1.toList
  · obtain ⟨entry, member, rfl⟩ := known
    rw [referent?_of_known entry member, Option.some_inj] at found
    exact .named (found ▸ member)
  · by_cases numbered : reference.head? = some '#'
    · obtain ⟨text, rfl⟩ := List.head?_eq_some_iff.mp numbered
      by_cases marked : ∃ mark ∈ text.head?, mark = 'x' ∨ mark = 'X'
      · obtain ⟨mark, first, isMark⟩ := marked
        obtain ⟨text, rfl⟩ := List.head?_eq_some_iff.mp first
        rw [referent?_hexadecimal isMark] at found
        obtain ⟨sign, signed, digits, number, rfl, written, scalar, rfl⟩ :=
          exists_number_of_bind (by decide) found
        exact .hexadecimal isMark signed written scalar
      · have unmarked : ∀ mark ∈ text.head?, mark ≠ 'x' ∧ mark ≠ 'X' := by
          intro mark first
          rw [← not_or]
          exact fun isMark => marked ⟨mark, first, isMark⟩
        rw [referent?_decimal unmarked] at found
        obtain ⟨sign, signed, digits, number, rfl, written, scalar, rfl⟩ :=
          exists_number_of_bind (by decide) found
        exact .decimal signed written scalar
    · have unknown : ∀ entry ∈ predefined, reference ≠ entry.1.toList :=
        fun entry member same => known ⟨entry, member, same⟩
      rw [referent?_other unknown numbered] at found
      cases found

theorem referent?_of_stands
    (stands : Stands lenient reference referent) :
    referent? reference = some referent := by
  cases stands with
  | named known => exact referent?_of_known _ known
  | @decimal sign digits number signed written scalar =>
      rw [referent?_decimal, bind_of_written (by decide) signed written scalar]
      -- neither a sign nor a decimal digit marks a hexadecimal number
      have small := written.not_mem (by decide) 'x' (by decide)
      have capital := written.not_mem (by decide) 'X' (by decide)
      have unmarked :
          ∀ sign ∈ lenient.signs, 'x' ∉ sign ∧ 'X' ∉ sign := by
        decide
      obtain ⟨smallSign, capitalSign⟩ := unmarked sign signed
      intro mark first
      rcases List.mem_append.mp (List.mem_of_mem_head? first) with
        before | within
      · exact
          ⟨ne_of_mem_of_not_mem before smallSign,
            ne_of_mem_of_not_mem before capitalSign⟩
      · exact
          ⟨ne_of_mem_of_not_mem within small,
            ne_of_mem_of_not_mem within capital⟩
  | hexadecimal marked signed written scalar =>
      rw [referent?_hexadecimal marked,
        bind_of_written (by decide) signed written scalar]

theorem referent?_eq_some_iff :
    referent? reference = some referent ↔
      Stands lenient reference referent :=
  ⟨stands_of_referent?, referent?_of_stands⟩

end

/-! ## Texts -/

section

variable {rules : ReferenceRules} {text expanded : List Char}

/-- A reference that the text leaves unended is replaced all the same. -/
theorem expandReferences_unended
    {reference : List Char} {referent : Char}
    (named : referent? reference = some referent)
    (unended : ';' ∉ reference) :
    expandReferences ('&' :: reference) = .ok [referent] := by
  have inside : ∀ char ∈ reference, decide (char ≠ ';') = true :=
    fun char member => decide_eq_true fun same => unended (same ▸ member)
  rw [expandReferences, if_pos rfl]
  simp only [List.takeWhile_eq_self_iff.mpr inside,
    List.dropWhile_eq_nil_iff.mpr inside, named, List.drop_nil,
    expandReferences_nil]
  rfl

theorem expands_of_expandReferences
    (done : expandReferences text = .ok expanded) :
    Expands lenient text expanded := by
  fun_induction expandReferences text generalizing expanded with
  | case1 =>
      cases done
      exact .nil
  | case2 rest reference referent named =>
      rename_i ih
      have stands := referent?_eq_some_iff.mp named
      have whole :
          rest.takeWhile (· ≠ ';') ++ rest.dropWhile (· ≠ ';') = rest :=
        List.takeWhile_append_dropWhile
      have stops := Text.stops_dropWhile (· ≠ ';') rest
      cases others : expandReferences ((rest.dropWhile (· ≠ ';')).drop 1) with
      | error reference =>
          rw [others] at done
          cases done
      | ok decoded =>
          rw [others] at done
          cases done
          cases left : rest.dropWhile (· ≠ ';') with
          | nil =>
              rw [left, List.drop_nil, expandReferences_nil] at others
              cases others
              rw [left, List.append_nil] at whole
              rw [← whole]
              exact .unended rfl stands
          | cons mark more =>
              rw [left] at whole stops others ih
              obtain rfl : mark = ';' := by simpa using stops
              rw [← whole]
              exact .reference stands (ih others)
  | case3 => cases done
  | case4 char rest plain ih =>
      cases others : expandReferences rest with
      | error reference =>
          rw [others] at done
          cases done
      | ok decoded =>
          rw [others] at done
          cases done
          exact .plain plain (ih others)

theorem expandReferences_of_expands
    (expands : Expands lenient text expanded) :
    expandReferences text = .ok expanded := by
  induction expands with
  | nil => exact expandReferences_nil
  | plain plain _ ih =>
      rw [expandReferences_cons plain, ih]
      rfl
  | @reference reference rest expanded referent stands _ ih =>
      have unended : ∀ char ∈ reference, char ≠ ';' := by
        rintro char member rfl
        exact stands.not_mem.1 member
      have read :=
        expandReferences_reference reference
          (referent?_eq_some_iff.mpr stands) unended rest
      rw [List.cons_append] at read
      rw [read, ih]
      rfl
  | unended _ stands =>
      exact
        expandReferences_unended (referent?_eq_some_iff.mpr stands)
          stands.not_mem.1

theorem expandReferences_eq_ok_iff :
    expandReferences text = .ok expanded ↔ Expands lenient text expanded :=
  ⟨expands_of_expandReferences, expandReferences_of_expands⟩

/-- Whether something holds of what follows each ampersand of a text. -/
def AfterAmpersands (holds : List Char → Prop) (text : List Char) : Prop :=
  ∀ after, '&' :: after <:+ text → holds after

section

variable {holds : List Char → Prop} {front rest : List Char}

theorem afterAmpersands_nil : AfterAmpersands holds [] := by
  intro after within
  cases List.suffix_nil.mp within

theorem afterAmpersands_cons :
    AfterAmpersands holds ('&' :: rest) ↔
      holds rest ∧ AfterAmpersands holds rest := by
  simp only [AfterAmpersands, List.suffix_cons_iff, List.cons.injEq, true_and]
  constructor
  · intro all
    exact ⟨all rest (.inl rfl), fun after within => all after (.inr within)⟩
  · rintro ⟨first, others⟩ after (rfl | within)
    · exact first
    · exact others after within

theorem afterAmpersands_plain
    {char : Char} (plain : char ≠ '&') :
    AfterAmpersands holds (char :: rest) ↔ AfterAmpersands holds rest := by
  simp only [AfterAmpersands, List.suffix_cons_iff, List.cons.injEq,
    Ne.symm plain, false_and, false_or]

theorem afterAmpersands_append
    (absent : '&' ∉ front) :
    AfterAmpersands holds (front ++ rest) ↔ AfterAmpersands holds rest := by
  induction front with
  | nil => exact Iff.rfl
  | cons char more ih =>
      rw [List.mem_cons, not_or] at absent
      rw [← ih absent.2, List.cons_append,
        afterAmpersands_plain (Ne.symm absent.1)]

/-- There is no ampersand within a reference and the mark that ends it. -/
theorem afterAmpersands_reference
    {reference : List Char} {referent : Char}
    (stands : Stands lenient reference referent) :
    AfterAmpersands holds (reference ++ ';' :: rest) ↔
      AfterAmpersands holds rest := by
  rw [afterAmpersands_append stands.not_mem.2,
    afterAmpersands_plain (by decide)]

end

/-- Whether every ampersand of a text starts a reference. -/
def Referential (rules : ReferenceRules) : List Char → Prop :=
  AfterAmpersands fun after =>
    ∃ reference rest referent, after = reference ++ ';' :: rest ∧
      Stands rules reference referent

/-! ## The rules of markup -/

/-- How numbers with a sign begin. -/
def signedMarks : List (List Char) :=
  ["#+".toList, "#x+".toList, "#X+".toList]

/-- Whether no reference of a text lacks its semicolon or is a number with a
sign. -/
def Conventional : List Char → Prop :=
  AfterAmpersands fun after =>
    ';' ∈ after ∧ ∀ mark ∈ signedMarks, ¬ mark <+: after

/-- By the rules of markup a number has no sign. -/
theorem stands_strict_iff
    {reference : List Char} {referent : Char} :
    Stands strict reference referent ↔
      Stands lenient reference referent ∧
        ∀ mark ∈ signedMarks, ¬ mark <+: reference := by
  have unsigned : [] ∈ lenient.signs := by decide
  constructor
  · intro stands
    cases stands with
    | named known =>
        have all : ∀ entry ∈ predefined, ∀ mark ∈ signedMarks,
            ¬ mark <+: entry.1.toList := by
          decide
        exact ⟨.named known, all _ known⟩
    | @decimal sign digits number signed written scalar =>
        obtain rfl := List.mem_singleton.mp signed
        refine ⟨.decimal unsigned written scalar, ?_⟩
        have plus := written.not_mem (by decide) '+' (by decide)
        have small := written.not_mem (by decide) 'x' (by decide)
        have capital := written.not_mem (by decide) 'X' (by decide)
        cases digits with
        | nil => simp [signedMarks]
        | cons first rest =>
            simp only [List.mem_cons, not_or] at plus small capital
            simp [signedMarks, plus, small, capital]
    | @hexadecimal mark sign digits number marked signed written scalar =>
        obtain rfl := List.mem_singleton.mp signed
        refine ⟨.hexadecimal marked unsigned written scalar, ?_⟩
        have plus := written.not_mem (by decide) '+' (by decide)
        cases digits with
        | nil => rcases marked with rfl | rfl <;> simp [signedMarks]
        | cons first rest =>
            simp only [List.mem_cons, not_or] at plus
            rcases marked with rfl | rfl <;> simp [signedMarks, plus]
  · rintro ⟨stands, unmarked⟩
    have bare : [] ∈ strict.signs := by decide
    simp only [signedMarks, List.forall_mem_cons] at unmarked
    obtain ⟨decimal, small, capital, -⟩ := unmarked
    cases stands with
    | named known => exact .named known
    | @decimal sign digits number signed written scalar =>
        simp only [lenient, List.mem_cons, List.not_mem_nil, or_false]
          at signed
        rcases signed with rfl | rfl
        · exact .decimal bare written scalar
        · exact absurd (by simp) decimal
    | @hexadecimal mark sign digits number marked signed written scalar =>
        simp only [lenient, List.mem_cons, List.not_mem_nil, or_false]
          at signed
        rcases signed with rfl | rfl
        · exact .hexadecimal marked bare written scalar
        · rcases marked with rfl | rfl
          · exact absurd (by simp) small
          · exact absurd (by simp) capital

/-- A sign is seen before the semicolon. -/
theorem prefix_reference_iff
    {mark reference rest : List Char} (member : mark ∈ signedMarks) :
    mark <+: reference ++ ';' :: rest ↔ mark <+: reference := by
  have unended : ∀ mark ∈ signedMarks, ';' ∉ mark := by decide
  exact Text.prefix_append_mark_iff (unended mark member)

/-- A reference is ended, so that it is only the sign that matters. -/
theorem conventional_reference
    {reference rest : List Char} {referent : Char}
    (stands : Stands lenient reference referent) :
    Conventional ('&' :: (reference ++ ';' :: rest)) ↔
      (∀ mark ∈ signedMarks, ¬ mark <+: reference) ∧ Conventional rest := by
  have signs :
      (∀ mark ∈ signedMarks, ¬ mark <+: reference ++ ';' :: rest) ↔
        ∀ mark ∈ signedMarks, ¬ mark <+: reference :=
    forall₂_congr fun mark member => not_congr (prefix_reference_iff member)
  rw [Conventional, afterAmpersands_cons, signs,
    afterAmpersands_reference stands]
  simp

/-- The rules of markup read what is read anyway, unless it is peculiar to the
lenient ones. -/
theorem expands_strict_iff :
    Expands strict text expanded ↔
      Expands lenient text expanded ∧ Conventional text := by
  constructor
  · intro expands
    induction expands with
    | nil => exact ⟨.nil, afterAmpersands_nil⟩
    | plain plain _ ih =>
        exact ⟨.plain plain ih.1, (afterAmpersands_plain plain).mpr ih.2⟩
    | reference stands _ ih =>
        obtain ⟨loose, unsigned⟩ := stands_strict_iff.mp stands
        refine ⟨.reference loose ih.1, ?_⟩
        exact (conventional_reference loose).mpr ⟨unsigned, ih.2⟩
    | unended allowed => cases allowed
  · rintro ⟨expands, conventional⟩
    induction expands with
    | nil => exact .nil
    | plain plain _ ih =>
        exact .plain plain (ih ((afterAmpersands_plain plain).mp conventional))
    | reference stands _ ih =>
        obtain ⟨unsigned, others⟩ :=
          (conventional_reference stands).mp conventional
        exact
          .reference (stands_strict_iff.mpr ⟨stands, unsigned⟩) (ih others)
    | unended _ stands =>
        have ended := (afterAmpersands_cons.mp conventional).1.1
        exact absurd ended stands.not_mem.1

/-- By the rules of markup a text can be expanded if every ampersand starts a
reference. -/
theorem exists_expands_strict_iff :
    (∃ expanded, Expands strict text expanded) ↔ Referential strict text := by
  constructor
  · rintro ⟨expanded, expands⟩
    induction expands with
    | nil => exact afterAmpersands_nil
    | plain plain _ ih => exact (afterAmpersands_plain plain).mpr ih
    | reference stands _ ih =>
        have loose := (stands_strict_iff.mp stands).1
        exact
          afterAmpersands_cons.mpr
            ⟨⟨_, _, _, rfl, stands⟩, (afterAmpersands_reference loose).mpr ih⟩
    | unended allowed => cases allowed
  · intro referential
    induction length : text.length using Nat.strongRecOn generalizing text with
    | _ length ih =>
        subst length
        cases text with
        | nil => exact ⟨[], .nil⟩
        | cons char rest =>
            by_cases plain : char = '&'
            · subst plain
              obtain ⟨⟨reference, more, referent, rfl, stands⟩, others⟩ :=
                afterAmpersands_cons.mp referential
              have loose := (stands_strict_iff.mp stands).1
              have shorter :
                  more.length <
                    ('&' :: (reference ++ ';' :: more)).length := by
                simp only [List.length_cons, List.length_append]
                omega
              obtain ⟨expanded, expands⟩ :=
                ih _ shorter ((afterAmpersands_reference loose).mp others) rfl
              exact ⟨_, .reference stands expands⟩
            · obtain ⟨expanded, expands⟩ :=
                ih _ (Nat.lt_succ_self _)
                  ((afterAmpersands_plain plain).mp referential) rfl
              exact ⟨_, .plain plain expands⟩

end

/-! ## Decoding -/

/-- A text is decoded as the lenient rules say, and by those of markup exactly
if no reference is peculiar to the lenient ones. -/
theorem decode_eq_ok_iff (text : String) :
    (∀ result, decode text = .ok result ↔
      Expands lenient text.toList result.toList) ∧
    (∀ fault, decode text = .error fault →
      ∃ reference, fault = .ofKind (.invalidEntity reference)) ∧
    (∀ result, Expands strict text.toList result.toList ↔
      decode text = .ok result ∧ Conventional text.toList) ∧
    ((∃ expanded, Expands strict text.toList expanded) ↔
      Referential strict text.toList) := by
  have decoded (result : String) :
      decode text = .ok result ↔
        Expands lenient text.toList result.toList := by
    rw [← expandReferences_eq_ok_iff, decode]
    cases expandReferences text.toList with
    | error reference => exact ⟨nofun, nofun⟩
    | ok expanded =>
        rw [Except.ok.injEq, Except.ok.injEq, ← String.toList_inj,
          String.toList_ofList]
  refine ⟨decoded, ?_, ?_, exists_expands_strict_iff⟩
  · intro fault failed
    rw [decode] at failed
    split at failed
    · cases failed
    · cases failed
      exact ⟨_, rfl⟩
  · intro result
    rw [decoded]
    exact expands_strict_iff

/-- A reference without semicolon is decoded at the end of a text. -/
theorem unended_reference_is_decoded :
    ¬ ∀ text result : String,
      decode text = .ok result ↔ Expands strict text.toList result.toList := by
  intro same
  have stands : Stands lenient "amp".toList '&' := .named (by decide)
  have whole : "&amp".toList = '&' :: "amp".toList := by decide
  have decoded : decode "&amp" = .ok "&" := by
    rw [decode, whole, expandReferences_of_expands (.unended rfl stands)]
  obtain ⟨-, conventional⟩ := expands_strict_iff.mp ((same _ _).mp decoded)
  have ended := (conventional "amp".toList (List.suffix_refl _)).1
  exact absurd ended (by decide)

end AmlExchange.Markup
