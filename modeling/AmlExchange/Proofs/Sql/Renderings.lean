import AmlExchange.Proofs.Sql.Places

/-!
# Values in SQL

What stands in for a parameter is sealed: in code it leads back to code, and
outside of code it does not lead there, whatever it says.  A literal is sealed
because its apostrophes come in pairs, and a number because it has no mark but
the minus sign at its front.
-/

namespace AmlExchange.Template.Sql

open Place (within plainStep)

/-! ## Sealed texts -/

/-- Whether a region is one of those outside of code. -/
def Strayed : Region → Prop
  | .code => False
  | .quoted close => close = '\'' ∨ close = '"' ∨ close = ']'
  | .lineComment | .blockComment => True

/-- A region that reading a template can lead to. -/
def Proper (region : Region) : Prop :=
  region = .code ∨ Strayed region

/-- A text that leads from code to code, from anywhere else not into code, and
whose first character ends no mark. -/
structure Sealed (text : List Char) : Prop where
  closes : (within .code).run text = within .code
  strays : ∀ region, Strayed region →
    ∃ other, Strayed other ∧ (within region).run text = within other
  begins : ∃ first rest, text = first :: rest ∧ first ≠ '*'

/-- The characters that begin or end a region, or are part of a mark. -/
def marks : List Char :=
  ['-', '/', '*', '\'', '"', '[', ']', '\n', '\r']

theorem step_of_not_mem_marks
    {char : Char} (plain : char ∉ marks) {region : Region}
    (proper : Proper region) :
    (within region).step char = within region := by
  simp only [marks, List.mem_cons, List.not_mem_nil, or_false, not_or] at plain
  rw [Place.step_within]
  cases region with
  | code => simp [plainStep, plain]
  | quoted close =>
      rcases proper with code | rfl | rfl | rfl
      · cases code
      all_goals simp [plainStep, plain]
  | lineComment => simp [plainStep, plain]
  | blockComment =>
      simp [plainStep, plain]
      rfl

namespace Sealed

theorem append
    {first second : List Char} (before : Sealed first)
    (after : Sealed second) :
    Sealed (first ++ second) := by
  refine ⟨?_, ?_, ?_⟩
  · rw [Place.run_append, before.closes, after.closes]
  · intro region strayed
    obtain ⟨middle, strayedMiddle, reached⟩ := before.strays region strayed
    rw [Place.run_append, reached]
    exact after.strays middle strayedMiddle
  · obtain ⟨char, rest, rfl, noStar⟩ := before.begins
    exact ⟨char, rest ++ second, rfl, noStar⟩

theorem singleton
    {char : Char} (plain : char ∉ marks) :
    Sealed [char] := by
  refine ⟨?_, ?_, char, [], rfl, ?_⟩
  · exact step_of_not_mem_marks plain (.inl rfl)
  · intro region strayed
    exact ⟨region, strayed, step_of_not_mem_marks plain (.inr strayed)⟩
  · rintro rfl
    exact plain (by decide)

theorem of_not_mem_marks
    {text : List Char} (some : text ≠ [])
    (plain : ∀ char ∈ text, char ∉ marks) :
    Sealed text := by
  induction text with
  | nil => exact absurd rfl some
  | cons char rest ih =>
      rw [List.forall_mem_cons] at plain
      cases rest with
      | nil => exact singleton plain.1
      | cons other more =>
          exact append (singleton plain.1) (ih (by simp) plain.2)

/-- A minus sign may come first, if none follows it. -/
theorem minus
    {char : Char} {rest : List Char} (number : Sealed (char :: rest))
    (single : char ≠ '-') :
    Sealed ('-' :: char :: rest) := by
  refine ⟨?_, ?_, '-', char :: rest, rfl, by decide⟩
  · have apart : (⟨.code, some '-'⟩ : Place).step char =
        (within .code).step char := by
      rw [Place.step_within]
      apply @Place.apart_code '-' (char :: rest) _ _ char rfl
      · rintro more - begins
        exact single (List.cons.inj begins).1
      · rintro more slash
        exact absurd slash (by decide)
    rw [Place.run_cons, Place.step_within]
    show (⟨.code, some '-'⟩ : Place).run (char :: rest) = _
    rw [Place.run_cons, apart]
    exact number.closes
  · intro region strayed
    have still : (within region).step '-' = within region := by
      rw [Place.step_within]
      cases region with
      | code => exact absurd strayed id
      | quoted close => rcases strayed with rfl | rfl | rfl <;> rfl
      | lineComment | blockComment => rfl
    rw [Place.run_cons, still]
    exact number.strays region strayed

/-- Texts with commas between them. -/
theorem joined
    {texts : List (List Char)} (some : texts ≠ [])
    (each : ∀ text ∈ texts, Sealed text) :
    Sealed (Locale.joined texts) := by
  induction texts with
  | nil => exact absurd rfl some
  | cons text rest ih =>
      rw [List.forall_mem_cons] at each
      cases rest with
      | nil => exact each.1
      | cons other more =>
          rw [Locale.joined]
          · apply append each.1
            rw [← List.singleton_append]
            exact append (singleton (by decide)) (ih (by simp) each.2)
          · simp

end Sealed

/-! ## Literals -/

/-- Whether a region is one from which an apostrophe does not lead into
code. -/
def Open (region : Region) : Prop :=
  region = .code ∨ Strayed region ∧ region ≠ .quoted '\''

theorem doubled_cons
    (char : Char) (rest : List Char) :
    doubled (char :: rest) =
      (if char = '\'' then ['\'', '\''] else [char]) ++ doubled rest :=
  rfl

theorem run_doubled_of_quoted
    (text : List Char) :
    (within (.quoted '\'')).run (doubled text) = within (.quoted '\'') := by
  induction text with
  | nil => rfl
  | cons char rest ih =>
      rw [doubled_cons, Place.run_append]
      split
      · exact ih
      · next other =>
          have inside :
              (within (.quoted '\'')).run [char] = within (.quoted '\'') := by
            rw [Place.run_cons, Place.step_within, plainStep, if_neg other]
            rfl
          rw [inside, ih]

/-- No mark of two characters has an apostrophe. -/
theorem step_apostrophe
    (place : Place) :
    place.step '\'' = plainStep place.region '\'' := by
  unfold Place.step
  split <;> simp_all

theorem open_plainStep
    {region : Region} (opened : Open region) {char : Char}
    (other : char ≠ '\'') :
    Open (plainStep region char).region := by
  cases region with
  | code =>
      rw [plainStep]
      split_ifs with mark quote bracket
      · exact opened
      · rcases quote with single | rfl
        · exact absurd single other
        · refine .inr ⟨.inr (.inl rfl), ?_⟩
          rintro ⟨⟩
      · refine .inr ⟨.inr (.inr rfl), ?_⟩
        rintro ⟨⟩
      · exact opened
  | quoted close =>
      rw [plainStep]
      split_ifs
      · exact .inl rfl
      · exact opened
  | lineComment =>
      rw [plainStep]
      split_ifs
      · exact .inl rfl
      · exact opened
  | blockComment => exact opened

/-- Only an apostrophe leads into a literal. -/
theorem open_step
    {place : Place} (opened : Open place.region) {char : Char}
    (other : char ≠ '\'') :
    Open (place.step char).region := by
  unfold Place.step
  split
  · exact .inr ⟨trivial, nofun⟩
  · exact .inr ⟨trivial, nofun⟩
  · exact .inl rfl
  · exact open_plainStep opened other

/-- Outside of literals an apostrophe stays outside of code. -/
theorem strayed_apostrophe
    {region : Region} (opened : Open region) :
    ∃ other, Strayed other ∧ plainStep region '\'' = within other := by
  cases region with
  | code => exact ⟨.quoted '\'', .inl rfl, rfl⟩
  | quoted close =>
      rcases opened with code | ⟨strayed, differs⟩
      · cases code
      · have noApostrophe : '\'' ≠ close := by
          rintro rfl
          exact differs rfl
        refine ⟨.quoted close, strayed, ?_⟩
        rw [plainStep, if_neg noApostrophe]
  | lineComment => exact ⟨.lineComment, trivial, rfl⟩
  | blockComment => exact ⟨.blockComment, trivial, rfl⟩

/-- Two apostrophes lead back to where they began. -/
theorem open_pair
    {place : Place} (opened : Open place.region) :
    Open (place.run ['\'', '\'']).region := by
  rw [Place.run_cons, Place.run_cons, Place.run_nil, step_apostrophe,
    step_apostrophe]
  obtain ⟨region, held⟩ := place
  cases region with
  | code => exact opened
  | quoted close =>
      rcases opened with code | ⟨strayed, differs⟩
      · cases code
      · have noApostrophe : '\'' ≠ close := by
          rintro rfl
          exact differs rfl
        simp only [plainStep, within, if_neg noApostrophe]
        exact .inr ⟨strayed, differs⟩
  | lineComment | blockComment => exact opened

theorem open_run_doubled
    (text : List Char) {place : Place} (opened : Open place.region) :
    Open (place.run (doubled text)).region := by
  induction text generalizing place with
  | nil => exact opened
  | cons char rest ih =>
      rw [doubled_cons, Place.run_append]
      apply ih
      split
      · exact open_pair opened
      · next other => exact open_step opened other

/-- A literal is sealed, whatever it says. -/
theorem sealed_literal
    (text : List Char) :
    Sealed (literal text) := by
  refine ⟨?_, ?_, 'N', _, rfl, by decide⟩
  · show ((within (.quoted '\'')).run (doubled text ++ ['\''])) = _
    rw [Place.run_append, run_doubled_of_quoted]
    rfl
  · intro region strayed
    have entered : Open (((within region).step 'N').step '\'').region := by
      rw [step_of_not_mem_marks (by decide) (.inr strayed),
        Place.step_within]
      cases region with
      | code => exact absurd strayed id
      | quoted close =>
          rcases strayed with rfl | rfl | rfl
          · exact .inl rfl
          · exact .inr ⟨.inr (.inl rfl), nofun⟩
          · exact .inr ⟨.inr (.inr rfl), nofun⟩
      | lineComment | blockComment => exact .inr ⟨trivial, nofun⟩
    rw [literal, List.cons_append, List.cons_append, Place.run_cons,
      Place.run_cons, Place.run_append, Place.run_cons, Place.run_nil,
      step_apostrophe]
    exact strayed_apostrophe (open_run_doubled text entered)

/-! ## Numbers -/

theorem digitChar_not_mem_marks
    {digit : Nat} (small : digit < 10) :
    Decimal.digitChar digit ∉ marks := by
  decide +revert

theorem writeNat_not_mem_marks
    (value : Nat) :
    ∀ char ∈ Decimal.writeNat value, char ∉ marks :=
  Decimal.forall_mem_writeNat digitChar_not_mem_marks value

/-- Digits and a point are all that a number is written with. -/
theorem forall_mem_render
    {holds : Char → Prop}
    (digits : ∀ {digit}, digit < 10 → holds (Decimal.digitChar digit))
    (point : holds '.') (number : Decimal.Digits) :
    ∀ char ∈ number.render, holds char := by
  have written := Decimal.forall_mem_writeNat digits number.digits
  have zero : holds '0' := @digits 0 (by decide)
  have zeros (count : Nat) :
      ∀ char ∈ List.replicate count '0', holds char := by
    intro char member
    rw [List.eq_of_mem_replicate member]
    exact zero
  rw [Decimal.Digits.render]
  split
  · exact List.forall_mem_append.mpr ⟨written, zeros _⟩
  · dsimp only
    split
    · rw [List.forall_mem_append, List.forall_mem_cons]
      refine ⟨?_, point, ?_⟩
      · exact fun char member => written char (List.mem_of_mem_take member)
      · exact fun char member => written char (List.mem_of_mem_drop member)
    · rw [List.forall_mem_append, List.forall_mem_append]
      exact ⟨⟨by simp [zero, point], zeros _⟩, written⟩

theorem render_ne_nil
    (number : Decimal.Digits) :
    number.render ≠ [] := by
  have digits := Decimal.writeNat_ne_nil number.digits
  rw [Decimal.Digits.render]
  split
  · simp [digits]
  · dsimp only
    split <;> simp

/-- Digits, or a minus sign and digits. -/
theorem sealed_signed
    {text : List Char} (some : text ≠ [])
    (plain : ∀ char ∈ text, char ∉ marks) (negative : Bool) :
    Sealed (if negative then '-' :: text else text) := by
  have unsigned := Sealed.of_not_mem_marks some plain
  cases negative with
  | false => exact unsigned
  | true =>
      obtain ⟨char, rest, rfl, -⟩ := unsigned.begins
      apply Sealed.minus unsigned
      rintro rfl
      exact plain '-' (by simp) (by decide)

theorem sealed_writeInt
    (value : Int) :
    Sealed (Decimal.writeInt value) := by
  have digits := writeNat_not_mem_marks value.natAbs
  have signed :=
    sealed_signed (Decimal.writeNat_ne_nil _) digits (decide (value < 0))
  simpa [Decimal.writeInt] using signed

theorem sealed_writeFloat
    (value : Float) :
    Sealed (Decimal.writeFloat value) := by
  rw [Decimal.writeFloat]
  split
  · exact Sealed.of_not_mem_marks (by simp) (by simp [marks])
  · exact sealed_signed (by simp) (by simp [marks]) _
  · next parts _ =>
      apply sealed_signed
      · split
        · simp
        · exact render_ne_nil _
      · split
        · simp [marks]
        · exact forall_mem_render digitChar_not_mem_marks (by decide) _

/-! ## Values -/

/-- Digits, a point, a minus sign and the letters of what is no finite number
are all that the text of a number is made of. -/
theorem forall_mem_formatChars
    {holds : Char → Prop}
    (digits : ∀ {digit}, digit < 10 → holds (Decimal.digitChar digit))
    (others : ∀ char ∈ "-.NaNinf".toList, holds char)
    (locale : Locale) {value : Value} (number : value.isNumber = true) :
    ∀ char ∈ locale.formatChars value, holds char := by
  have letters {text : List Char} (known : text ⊆ "-.NaNinf".toList) :
      ∀ char ∈ text, holds char :=
    fun char member => others char (known member)
  have signed (negative : Bool) {text : List Char}
      (each : ∀ char ∈ text, holds char) :
      ∀ char ∈ if negative then '-' :: text else text, holds char := by
    split
    · exact List.forall_mem_cons.mpr ⟨others _ (by decide), each⟩
    · exact each
  cases value with
  | int value =>
      have plain :=
        @Decimal.forall_mem_writeNat holds digits value.toInt.natAbs
      rw [Locale.formatChars]
      simpa [Decimal.writeInt] using signed (decide (value.toInt < 0)) plain
  | float value =>
      rw [Locale.formatChars, Decimal.writeFloat]
      split
      · exact letters (by decide)
      · exact signed _ (letters (by decide))
      · apply signed
        split
        · exact List.forall_mem_singleton.mpr (@digits 0 (by decide))
        · exact forall_mem_render digits (others _ (by decide)) _
  | _ => cases number

theorem sealed_formatChars
    (locale : Locale) {value : Value} (number : value.isNumber = true) :
    Sealed (locale.formatChars value) := by
  cases value with
  | int value =>
      rw [Locale.formatChars]
      exact sealed_writeInt _
  | float value =>
      rw [Locale.formatChars]
      exact sealed_writeFloat _
  | _ => cases number

theorem sealed_enumerate
    (locale : Locale) (values : List Value) :
    Sealed (enumerate locale.formatChars true (.list values)) := by
  rw [enumerate]
  split
  · next numeric =>
      simp only [Bool.not_true, Bool.false_or, Value.isNumericList,
        Bool.and_eq_true, Bool.not_eq_true', List.isEmpty_eq_false_iff,
        List.all_eq_true] at numeric
      apply Sealed.joined
      · simpa using numeric.1
      · rw [List.forall_mem_map]
        intro value member
        exact sealed_formatChars locale (numeric.2 value member)
  · split
    · exact sealed_literal _
    · next members =>
        apply Sealed.joined
        · simpa using members
        · rw [List.forall_mem_map]
          intro value _
          exact sealed_literal _

/-- Every value is sealed as SQL. -/
theorem sealed_expression
    (locale : Locale) (inClause : Bool) (value : Value) :
    Sealed (expression locale inClause value) := by
  unfold expression
  split
  · exact Sealed.of_not_mem_marks (by simp) (by simp [marks])
  · exact sealed_formatChars locale rfl
  · exact sealed_formatChars locale rfl
  · split
    · exact sealed_enumerate locale _
    · exact sealed_literal _
  · exact sealed_literal _

/-- What stands in for a parameter is sealed. -/
theorem sealed_replacement
    (locale : Locale) {values : String → Option Value} {name : String}
    {value : Value} (bound : values name = some value) (inList : Bool)
    (written : List Char) :
    Sealed (replacement locale values inList name written) := by
  rw [replacement, bound]
  cases listPlace written with
  | elsewhere => exact sealed_expression ..
  | inParentheses => exact sealed_expression ..
  | afterKeyword =>
      show Sealed (['('] ++ expression locale true value ++ [')'])
      apply Sealed.append
      · exact (Sealed.singleton (by decide)).append (sealed_expression ..)
      · exact Sealed.singleton (by decide)

end AmlExchange.Template.Sql
