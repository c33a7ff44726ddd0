import AmlExchange.Markup.Escape
import AmlExchange.Markup.Reference
import Mathlib.Tactic.SplitIfs

/-!
# References undo escapes

Every character that is written as a reference is read back from it, and every
other character stands for itself.  So expanding the references of an escaped
text gives that text again, both between tags and within quotation marks.
Escaped text holds no mark that could begin a tag, and an escaped value none
that could end it.
-/

namespace AmlExchange.Markup

theorem expandReferences_nil : expandReferences [] = .ok [] := by
  rw [expandReferences]

theorem expandReferences_cons {char : Char} (plain : char ≠ '&')
    (rest : List Char) :
    expandReferences (char :: rest) =
      (expandReferences rest).map (char :: ·) := by
  rw [expandReferences, if_neg plain]

/-- A reference that names a character is replaced by it. -/
theorem expandReferences_reference (reference : List Char) {referent : Char}
    (named : referent? reference = some referent)
    (unended : ∀ char ∈ reference, char ≠ ';') (rest : List Char) :
    expandReferences ('&' :: reference ++ ';' :: rest) =
      (expandReferences rest).map (referent :: ·) := by
  have taken : (reference ++ ';' :: rest).takeWhile (· ≠ ';') = reference := by
    rw [List.takeWhile_append_of_pos (by simpa using unended)]
    simp
  have left :
      (reference ++ ';' :: rest).dropWhile (· ≠ ';') = ';' :: rest := by
    rw [List.dropWhile_append_of_pos (by simpa using unended)]
    simp
  rw [List.cons_append, expandReferences, if_pos rfl]
  simp only [taken, left, named, List.drop_succ_cons, List.drop_zero]

theorem expandReferences_escapeTextChar (char : Char) (rest : List Char) :
    expandReferences (escapeTextChar char ++ rest) =
      (expandReferences rest).map (char :: ·) := by
  unfold escapeTextChar
  split_ifs with ampersand less greater
  · subst ampersand
    exact
      expandReferences_reference "amp".toList (by decide) (by simp) rest
  · subst less
    exact
      expandReferences_reference "lt".toList (by decide) (by simp) rest
  · subst greater
    exact
      expandReferences_reference "gt".toList (by decide) (by simp) rest
  · exact expandReferences_cons ampersand rest

theorem expandReferences_escapeAttributeChar (char : Char)
    (rest : List Char) :
    expandReferences (escapeAttributeChar char ++ rest) =
      (expandReferences rest).map (char :: ·) := by
  unfold escapeAttributeChar
  split_ifs with quote feed carriage tab
  · subst quote
    exact
      expandReferences_reference "quot".toList (by decide) (by simp) rest
  · subst feed
    exact
      expandReferences_reference "#xA".toList (by decide) (by simp) rest
  · subst carriage
    exact
      expandReferences_reference "#xD".toList (by decide) (by simp) rest
  · subst tab
    exact
      expandReferences_reference "#x9".toList (by decide) (by simp) rest
  · exact expandReferences_escapeTextChar char rest

/-- A way to write characters one by one is undone on a whole text if it is
undone on each character. -/
theorem expandReferences_flatMap {escape : Char → List Char}
    (undone :
      ∀ char rest,
        expandReferences (escape char ++ rest) =
          (expandReferences rest).map (char :: ·))
    (text : List Char) :
    expandReferences (text.flatMap escape) = .ok text := by
  induction text with
  | nil => exact expandReferences_nil
  | cons char rest ih =>
      rw [List.flatMap_cons, undone, ih]
      rfl

theorem expandReferences_escapedText (text : List Char) :
    expandReferences (text.flatMap escapeTextChar) = .ok text :=
  expandReferences_flatMap expandReferences_escapeTextChar text

theorem expandReferences_escapedAttribute (text : List Char) :
    expandReferences (text.flatMap escapeAttributeChar) = .ok text :=
  expandReferences_flatMap expandReferences_escapeAttributeChar text

theorem lessThan_not_mem_escapeTextChar (char : Char) :
    '<' ∉ escapeTextChar char := by
  unfold escapeTextChar
  split_ifs with ampersand less greater
  · decide
  · decide
  · decide
  · simpa using Ne.symm less

/-- No tag begins within escaped text. -/
theorem lessThan_not_mem_escapedText (text : List Char) :
    '<' ∉ text.flatMap escapeTextChar := by
  intro member
  obtain ⟨char, -, inside⟩ := List.mem_flatMap.mp member
  exact lessThan_not_mem_escapeTextChar char inside

theorem quote_not_mem_escapeAttributeChar (char : Char) :
    '"' ∉ escapeAttributeChar char := by
  unfold escapeAttributeChar escapeTextChar
  split_ifs with quote
  all_goals first | decide | simpa using Ne.symm quote

/-- No quotation mark stands within an escaped value. -/
theorem quote_not_mem_escapedAttribute (text : List Char) :
    '"' ∉ text.flatMap escapeAttributeChar := by
  intro member
  obtain ⟨char, -, inside⟩ := List.mem_flatMap.mp member
  exact quote_not_mem_escapeAttributeChar char inside

theorem escapedText_eq_nil {text : List Char} :
    text.flatMap escapeTextChar = [] ↔ text = [] := by
  cases text with
  | nil => simp
  | cons char rest =>
      have written : escapeTextChar char ≠ [] := by
        unfold escapeTextChar
        split_ifs <;> simp
      simp [written]

end AmlExchange.Markup
