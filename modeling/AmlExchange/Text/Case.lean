/-!
# Letter case

Conditions, units of time, weekdays and keywords are compared without regard
to the case of the letters `A` to `Z`.  No other letter has a case here: two
texts that differ in an accented capital stay different.
-/

namespace AmlExchange.Text

/-- A text with each of the letters `A` to `Z` in its small form. -/
def fold (text : List Char) : List Char :=
  text.map Char.toLower

/-- Two texts agree when the case of the letters `A` to `Z` is put aside. -/
def sameIgnoringCase (left right : List Char) : Bool :=
  fold left == fold right

/-- What follows `head` at the start of a text, letter case put aside. -/
def afterHead? (head text : List Char) : Option (List Char) :=
  if sameIgnoringCase (text.take head.length) head then
    some (text.drop head.length)
  else
    none

@[simp]
theorem fold_nil : fold [] = [] :=
  rfl

@[simp]
theorem fold_append (left right : List Char) :
    fold (left ++ right) = fold left ++ fold right := by
  simp [fold]

@[simp]
theorem length_fold (text : List Char) :
    (fold text).length = text.length := by
  simp [fold]

theorem sameIgnoringCase_iff (left right : List Char) :
    sameIgnoringCase left right = true ↔ fold left = fold right := by
  simp [sameIgnoringCase]

end AmlExchange.Text
