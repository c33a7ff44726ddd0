import AmlExchange.Text.Search
import Mathlib.Data.List.Infix
import Mathlib.Data.List.TakeWhile

/-!
# Marks that end a stretch of text

A mark such as `-->` ends with a character that it holds nowhere else.  Such a
mark cannot begin within a text and end within the mark that follows the text.
So a text in which the mark does not occur is exactly what is cut off before
the mark, whatever comes after it.
-/

namespace AmlExchange.Text

variable {mark text before after rest init : List Char} {last : Char}

/-- No cut means no occurrence. -/
theorem cutAt?_eq_none_iff :
    cutAt? mark text = none ↔ ¬ mark <:+: text := by
  induction text with
  | nil => cases mark <;> simp [cutAt?]
  | cons char rest ih =>
      rw [List.infix_cons_iff]
      simp only [cutAt?, List.isPrefixOf_iff_prefix]
      split_ifs with head
      · simp [head]
      · simp [head, ih]

/-- A mark that ends with a fresh character overlaps no second one: where it
begins within a text, it ends within that text. -/
theorem prefix_of_prefix_append (fresh : last ∉ init) (nonempty : text ≠ [])
    (head : init ++ [last] <+: text ++ (init ++ [last]) ++ rest) :
    init ++ [last] <+: text := by
  rw [List.append_assoc] at head
  rcases Nat.le_total (init ++ [last]).length text.length with short | long
  · exact List.prefix_of_prefix_length_le head
      (List.prefix_append _ _) short
  · obtain ⟨overlap, divided⟩ :=
      List.prefix_of_prefix_length_le (List.prefix_append _ _) head long
    rcases List.eq_nil_or_concat overlap with rfl | ⟨inner, final, rfl⟩
    · rw [← divided, List.append_nil]
    · -- the overlap would be a proper beginning of the mark, yet end like it
      have ends : text ++ inner = init ∧ final = last := by
        rw [List.concat_eq_append, ← List.append_assoc] at divided
        exact List.append_singleton_inj.mp divided
      have again : inner ++ [final] <+: init ++ [last] ++ rest := by
        rw [← List.prefix_append_right_inj text, ← List.append_assoc, ends.1,
          ends.2]
        exact head
      have inside : inner ++ [final] <+: init := by
        refine List.prefix_of_prefix_length_le again
          ((List.prefix_append init [last]).trans (List.prefix_append _ _)) ?_
        have := List.length_pos_iff.mpr nonempty
        rw [← ends.1]
        simp
        omega
      exact absurd (inside.subset (by simp [ends.2])) fresh

/-- A text without the mark is what is cut off before the mark. -/
theorem cutAt?_append_mark (fresh : last ∉ init)
    (absent : ¬ init ++ [last] <:+: text) :
    cutAt? (init ++ [last]) (text ++ (init ++ [last]) ++ rest) =
      some (text, rest) := by
  induction text with
  | nil =>
      cases marked : init ++ [last] with
      | nil => simp at marked
      | cons char tail => simp [cutAt?]
  | cons char text ih =>
      have elsewhere :
          ¬ init ++ [last] <+: char :: text ++ (init ++ [last]) ++ rest := by
        intro head
        apply absent
        exact (prefix_of_prefix_append fresh (by simp) head).isInfix
      have found := ih fun inside =>
        absent (inside.trans (List.suffix_cons _ _).isInfix)
      rw [List.cons_append, List.cons_append] at elsewhere ⊢
      rw [cutAt?, if_neg (by rwa [List.isPrefixOf_iff_prefix]), found]
      rfl

/-- The mark does not even begin before the place where it is found. -/
theorem not_infix_of_cutAt?
    (found : cutAt? (init ++ [last]) text = some (before, after)) :
    ¬ init ++ [last] <:+: before ++ init := by
  induction text generalizing before with
  | nil => simp [cutAt?] at found
  | cons char rest ih =>
      simp only [cutAt?] at found
      split_ifs at found with head
      · simp only [Option.some.injEq, Prod.mk.injEq] at found
        intro inside
        have shorter := inside.length_le
        simp only [← found.1, List.nil_append, List.length_append,
          List.length_singleton] at shorter
        omega
      · obtain ⟨⟨first, final⟩, inRest, equality⟩ :=
          Option.map_eq_some_iff.mp found
        simp only [Prod.mk.injEq] at equality
        obtain ⟨rfl, rfl⟩ := equality
        rw [List.cons_append, List.infix_cons_iff]
        rintro (begins | inside)
        · have whole := cutAt?_eq_some inRest
          rw [List.isPrefixOf_iff_prefix] at head
          apply head
          rw [whole]
          exact begins.trans ⟨last :: final, by simp⟩
        · exact ih inRest inside

/-! ## Stretches of characters of one class -/

variable {test : Char → Bool}

theorem takeWhile_append_of_stops
    (inside : ∀ char ∈ text, test char = true)
    (stops : ∀ char ∈ rest.head?, test char = false) :
    (text ++ rest).takeWhile test = text := by
  rw [List.takeWhile_append_of_pos inside]
  cases rest with
  | nil => simp
  | cons char more => simp [stops char rfl]

theorem dropWhile_append_of_stops
    (inside : ∀ char ∈ text, test char = true)
    (stops : ∀ char ∈ rest.head?, test char = false) :
    (text ++ rest).dropWhile test = rest := by
  rw [List.dropWhile_append_of_pos inside]
  cases rest with
  | nil => rfl
  | cons char more => simp [stops char rfl]

/-- A stretch of one class ends before a mark as it does at the end of a
text. -/
theorem takeWhile_append_mark
    {mark : Char} (stops : test mark = false) (text after : List Char) :
    (text ++ mark :: after).takeWhile test = text.takeWhile test := by
  induction text with
  | nil => simp [stops]
  | cons char rest ih =>
      rw [List.cons_append, List.takeWhile_cons, List.takeWhile_cons, ih]

theorem dropWhile_append_mark
    {mark : Char} (stops : test mark = false) (text after : List Char) :
    (text ++ mark :: after).dropWhile test =
      text.dropWhile test ++ mark :: after := by
  induction text with
  | nil => simp [stops]
  | cons char rest ih =>
      rw [List.cons_append, List.dropWhile_cons, List.dropWhile_cons, ih]
      split <;> rfl

/-- What a text begins with does not depend on what follows a mark that it
does not hold. -/
theorem prefix_append_mark_iff
    {start : List Char} {mark : Char} (absent : mark ∉ start) :
    start <+: text ++ mark :: after ↔ start <+: text := by
  induction text generalizing start with
  | nil =>
      cases start with
      | nil => simp
      | cons first more =>
          rw [List.mem_cons, not_or] at absent
          simp [Ne.symm absent.1]
  | cons char rest ih =>
      cases start with
      | nil => simp
      | cons first more =>
          rw [List.mem_cons, not_or] at absent
          rw [List.cons_append, List.cons_prefix_cons, List.cons_prefix_cons,
            ih absent.2]

theorem stops_dropWhile
    (test : Char → Bool) (text : List Char) :
    ∀ char ∈ (text.dropWhile test).head?, test char = false := by
  intro char begins
  have stops := text.head?_dropWhile_not test
  rw [begins] at stops
  exact stops

/-- A text without the last characters of one class, and those characters. -/
theorem exists_append_reverse_dropWhile
    (test : Char → Bool) (text : List Char) :
    ∃ last, text = (text.reverse.dropWhile test).reverse ++ last ∧
      ∀ char ∈ last, test char = true := by
  refine ⟨(text.reverse.takeWhile test).reverse, ?_, ?_⟩
  · rw [← List.reverse_append, List.takeWhile_append_dropWhile,
      List.reverse_reverse]
  · intro char member
    exact List.mem_takeWhile_imp (List.mem_reverse.mp member)

end AmlExchange.Text
