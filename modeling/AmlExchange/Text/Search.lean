/-!
# Finding and replacing parts of a text

A text is cut at the first place where a mark occurs, cut at every separator,
or has every occurrence of a part replaced, scanning from the left.
-/

namespace AmlExchange.Text

/-- The text before the first occurrence of a mark and the text after it. -/
def cutAt? (mark : List Char) : List Char → Option (List Char × List Char)
  | [] => if mark.isEmpty then some ([], []) else none
  | char :: rest =>
      if mark.isPrefixOf (char :: rest) then
        some ([], (char :: rest).drop mark.length)
      else
        (cutAt? mark rest).map fun (before, after) => (char :: before, after)

/-- Whether a mark occurs somewhere in a text. -/
def contains (mark text : List Char) : Bool :=
  (cutAt? mark text).isSome

/-- The parts of a text between the occurrences of one character. -/
def split (separator : Char) : List Char → List (List Char)
  | [] => [[]]
  | char :: rest =>
      match split separator rest with
      | [] => [[char]]
      | part :: parts =>
          if char = separator then [] :: part :: parts
          else (char :: part) :: parts

theorem split_ne_nil (separator : Char) (text : List Char) :
    split separator text ≠ [] := by
  cases text with
  | nil => simp [split]
  | cons char rest =>
      simp only [split]
      split
      · simp
      · split <;> simp

theorem cutAt?_eq_some {mark text before after : List Char}
    (found : cutAt? mark text = some (before, after)) :
    text = before ++ mark ++ after := by
  induction text generalizing before with
  | nil =>
      simp only [cutAt?] at found
      split at found <;> simp_all
  | cons char rest ih =>
      simp only [cutAt?] at found
      split at found
      · next head =>
          obtain ⟨tail, equality⟩ := List.isPrefixOf_iff_prefix.mp head
          simp only [Option.some.injEq, Prod.mk.injEq] at found
          obtain ⟨rfl, rfl⟩ := found
          simp [← equality]
      · obtain ⟨⟨first, last⟩, inRest, equality⟩ :=
          Option.map_eq_some_iff.mp found
        simp only [Prod.mk.injEq] at equality
        obtain ⟨rfl, rfl⟩ := equality
        simp [ih inRest]

/-- A mark that is not empty is consumed together with what precedes it. -/
theorem length_after_cutAt? {mark text before after : List Char}
    (found : cutAt? mark text = some (before, after))
    (marked : mark ≠ []) :
    after.length < text.length := by
  have split := cutAt?_eq_some found
  have positive := List.length_pos_iff.mpr marked
  simp only [split, List.length_append]
  omega

/-- A text with every occurrence of a part, found from the left, replaced. -/
def replace (part substitute text : List Char) : List Char :=
  if _ : part = [] then text
  else
    match _ : cutAt? part text with
    | none => text
    | some (before, after) =>
        before ++ substitute ++ replace part substitute after
termination_by text.length
decreasing_by exact length_after_cutAt? ‹_› ‹_›

end AmlExchange.Text
