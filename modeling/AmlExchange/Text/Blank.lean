/-!
# Blank characters

Two notions of blank meet in AML.  Markup knows four spacing characters.
Values, conditions and templates are trimmed of every character that has the
Unicode property `White_Space`.
-/

namespace AmlExchange.Text

/-- Whether a character has the Unicode property `White_Space`. -/
def isBlank (char : Char) : Bool :=
  let point := char.toNat
  (9 ≤ point && point ≤ 13) || point == 0x20 || point == 0x85 ||
    point == 0xA0 || point == 0x1680 ||
    (0x2000 ≤ point && point ≤ 0x200A) || point == 0x2028 ||
    point == 0x2029 || point == 0x202F || point == 0x205F ||
    point == 0x3000

/-- Whether a character separates the parts of a tag: space, tab, return or
line feed. -/
def isSpacing (char : Char) : Bool :=
  char == ' ' || char == '\t' || char == '\r' || char == '\n'

/-- A text without the blank characters at its start. -/
def trimLeft (text : List Char) : List Char :=
  text.dropWhile isBlank

/-- A text without the blank characters at its end. -/
def trimRight (text : List Char) : List Char :=
  (text.reverse.dropWhile isBlank).reverse

/-- A text without the blank characters at either end. -/
def trim (text : List Char) : List Char :=
  trimRight (trimLeft text)

/-- Whether a text holds blank characters only. -/
def allBlank (text : List Char) : Bool :=
  text.all isBlank

theorem isBlank_of_isSpacing {char : Char}
    (spacing : isSpacing char = true) :
    isBlank char = true := by
  simp only [isSpacing, Bool.or_eq_true, beq_iff_eq] at spacing
  rcases spacing with ((rfl | rfl) | rfl) | rfl <;> rfl

@[simp]
theorem trimLeft_nil : trimLeft [] = [] :=
  rfl

@[simp]
theorem trim_nil : trim [] = [] :=
  rfl

end AmlExchange.Text
