import AmlExchange.Proofs.Template.Unbound
import Mathlib.Data.Bool.AllAny
import Mathlib.Data.List.Chain

/-!
# Filling flat SQL in stages

A parameter without a value stays as it is, so the outcome of filling a
template may be filled again from another table.  The second filling reads
what the first one wrote.  It finds the parameters that were left, and nothing
else, because a literal is read as its characters whatever it says.  It finds
each of them in the same place with respect to the keyword `in`, because no
literal ends like that keyword.  Only a parameter right after another one is
an exception: the letters that stand in for the second would be read as part
of the name of the first.
-/

namespace AmlExchange

namespace Fields

variable {α : Type}

/-- A table with the fields of another one written over it. -/
def union (fields others : Fields α) : Fields α :=
  others.entries.foldl (fun fields entry => fields.insert entry.1 entry.2)
    fields

theorem get?_foldl_insert
    {entries : List (String × α)}
    (distinct : (entries.map Prod.fst).Nodup)
    (fields : Fields α) (name : String) :
    (entries.foldl (fun fields entry => fields.insert entry.1 entry.2)
        fields).get? name =
      (find? name entries).or (fields.get? name) := by
  induction entries generalizing fields with
  | nil => rfl
  | cons entry rest ih =>
      rw [List.map_cons, List.nodup_cons] at distinct
      rw [List.foldl_cons, ih distinct.2, get?_insert, find?]
      split
      · next same =>
          rw [find?_eq_none_iff.mpr (same ▸ distinct.1)]
          rfl
      · rfl

theorem get?_union
    (fields others : Fields α) (name : String) :
    (fields.union others).get? name =
      (others.get? name).or (fields.get? name) :=
  get?_foldl_insert others.distinct fields name

end Fields

/-- Whether a value is written in SQL as one literal, or as `null`. -/
def Value.isLiteral : Value → Bool
  | .int _ | .float _ | .list _ => false
  | _ => true

namespace Template.Sql

/-! ## Places of equal kind -/

/-- Whether two texts, both given from their ends backwards, are the same to
what looks for the keyword `in` before a place. -/
def SamePlaces (written other : List Char) : Prop :=
  ∀ after, listPlace (after ++ written) = listPlace (after ++ other)

/-- A text, given from its end backwards, with which no keyword goes on. -/
def Blunt (written : List Char) : Prop :=
  SamePlaces written ['@']

namespace SamePlaces

theorem here
    {written other : List Char} (same : SamePlaces written other) :
    listPlace written = listPlace other :=
  same []

theorem append
    {written other : List Char} (same : SamePlaces written other)
    (text : List Char) :
    SamePlaces (text ++ written) (text ++ other) := by
  intro after
  rw [← List.append_assoc, ← List.append_assoc]
  exact same (after ++ text)

end SamePlaces

theorem Blunt.same
    {written other : List Char} (first : Blunt written)
    (second : Blunt other) :
    SamePlaces written other :=
  fun after => (first after).trans (second after).symm

/-- The characters of which the keyword and what may stand around it are
made. -/
def keywordChars : List Char :=
  ['(', ' ', 'n', 'i']

theorem blunt_of_head
    {char : Char} (plain : char.toLower ∉ keywordChars)
    (ascii : char.toNat < 0x80) (rest : List Char) :
    Blunt (char :: rest) := by
  simp only [keywordChars, List.mem_cons, List.not_mem_nil, or_false,
    not_or] at plain
  intro after
  rcases after with _ | ⟨a, _ | ⟨b, _ | ⟨c, _ | ⟨d, _ | ⟨e, more⟩⟩⟩⟩⟩ <;>
    simp [listPlace, Text.sameIgnoringCase, Text.fold, plain, ascii]

theorem blunt_cons
    {char : Char} (notSpace : char.toLower ≠ ' ')
    (ascii : char.toNat < 0x80) {written : List Char} (blunt : Blunt written) :
    Blunt (char :: written) := by
  intro after
  have further := blunt (after ++ [char])
  rw [List.append_assoc, List.append_assoc, List.singleton_append,
    List.singleton_append] at further
  rw [further]
  rcases after with _ | ⟨a, _ | ⟨b, _ | ⟨c, _ | ⟨d, _ | ⟨e, more⟩⟩⟩⟩⟩ <;>
    simp [listPlace, Text.sameIgnoringCase, Text.fold, notSpace, ascii]

theorem eq_space_of_toLower
    {char : Char} (space : char.toLower = ' ') :
    char = ' ' := by
  unfold Char.toLower at space
  split at space
  · next upper =>
      have zero : char.val = 0 := by simpa using congrArg Char.val space
      rw [zero] at upper
      exact absurd upper.1 (by decide)
  · exact space

theorem toLower_ne_space
    {char : Char} (letter : isParameterChar char = true) :
    char.toLower ≠ ' ' := by
  intro space
  rw [eq_space_of_toLower space] at letter
  exact absurd letter (by decide)

/-- The name of a parameter does not end like the keyword, because the at sign
is before it. -/
theorem blunt_name
    {letters : List Char}
    (name : ∀ char ∈ letters, isParameterChar char = true)
    (ascii : ∀ char ∈ letters, char.toNat < 0x80) (written : List Char) :
    Blunt (letters ++ '@' :: written) := by
  induction letters with
  | nil => exact blunt_of_head (by decide) (by decide) written
  | cons char rest ih =>
      rw [List.forall_mem_cons] at name ascii
      exact
        blunt_cons (toLower_ne_space name.1) ascii.1 (ih name.2 ascii.2)

/-! ## Texts that are read as their characters -/

/-- The characters in code that begin more than a part of their own. -/
def starts : List Char :=
  ['-', '/', '\'', '"', '[', '@']

/-- A text as parts of one character each. -/
def copies (text : List Char) : List Piece :=
  text.map fun char => .copied [char]

/-- Whether a text in code is read character by character, whatever follows
it. -/
def Verbatim (text : List Char) : Prop :=
  ∀ rest, pieces .code (text ++ rest) = copies text ++ pieces .code rest

theorem pieces_cons
    (region : Region) (char : Char) (rest : List Char) :
    pieces region (char :: rest) =
      (next region char rest).1 ::
        pieces (next region char rest).2.1 (next region char rest).2.2 := by
  rw [pieces]

namespace Verbatim

theorem append
    {first second : List Char} (before : Verbatim first)
    (after : Verbatim second) :
    Verbatim (first ++ second) := by
  intro rest
  rw [List.append_assoc, before, after, copies, copies, copies,
    List.map_append, List.append_assoc]

theorem of_plain
    {text : List Char} (plain : ∀ char ∈ text, char ∉ starts) :
    Verbatim text := by
  intro rest
  induction text with
  | nil => rfl
  | cons char more ih =>
      rw [List.forall_mem_cons] at plain
      have single :
          next .code char (more ++ rest) =
            (.copied [char], .code, more ++ rest) := by
        have differs := plain.1
        simp only [starts, List.mem_cons, List.not_mem_nil, or_false,
          not_or] at differs
        simp [next, differs]
      rw [List.cons_append, pieces_cons, single, ih plain.2]
      rfl

end Verbatim

theorem pieces_quoted
    (close char : Char) (rest : List Char) :
    pieces (.quoted close) (char :: rest) =
      .copied [char] ::
        pieces (if char = close then .code else .quoted close) rest :=
  pieces_cons ..

theorem pieces_apostrophe
    (rest : List Char) :
    pieces .code ('\'' :: rest) =
      .copied ['\''] :: pieces (.quoted '\'') rest :=
  pieces_cons ..

theorem pieces_doubled
    (text rest : List Char) :
    pieces (.quoted '\'') (doubled text ++ rest) =
      copies (doubled text) ++ pieces (.quoted '\'') rest := by
  induction text with
  | nil => rfl
  | cons char more ih =>
      rw [doubled_cons, List.append_assoc]
      split
      · rw [List.cons_append, pieces_quoted, if_pos rfl, List.singleton_append,
          pieces_apostrophe, ih]
        rfl
      · next other =>
          rw [List.singleton_append, pieces_quoted, if_neg other, ih]
          rfl

/-- A literal is read character by character, whatever it says. -/
theorem verbatim_literal
    (text : List Char) :
    Verbatim (literal text) := by
  have quoted : Verbatim ('\'' :: doubled text ++ ['\'']) := by
    intro rest
    rw [List.append_assoc, List.cons_append, pieces_apostrophe,
      pieces_doubled, List.singleton_append, pieces_quoted, if_pos rfl]
    simp [copies]
  have letter : Verbatim ['N'] :=
    Verbatim.of_plain (List.all_iff_forall_prop.mp (by decide))
  exact letter.append quoted

/-! ## Values -/

/-- The characters that a value in SQL may begin with. -/
def firsts : List Char :=
  ['n', 'N', '(']

/-- A text that a second filling reads as its characters, and that leaves no
trace of the keyword `in` behind. -/
structure Settled (text : List Char) : Prop where
  verbatim : Verbatim text
  begins : ∃ first ∈ firsts, ∃ rest, text = first :: rest
  blunt : ∀ written, Blunt (text.reverse ++ written)

theorem settled_null : Settled "null".toList := by
  have plain : Verbatim "null".toList :=
    Verbatim.of_plain (List.all_iff_forall_prop.mp (by decide))
  refine ⟨plain, ⟨'n', by decide, _, rfl⟩, ?_⟩
  intro written
  exact blunt_of_head (by decide) (by decide) _

theorem settled_literal
    (text : List Char) :
    Settled (literal text) := by
  refine ⟨verbatim_literal text, ⟨'N', by decide, _, rfl⟩, ?_⟩
  intro written
  rw [literal, List.reverse_append]
  exact blunt_of_head (by decide) (by decide) _

theorem settled_parenthesized
    {text : List Char} (settled : Settled text) :
    Settled ('(' :: text ++ [')']) := by
  refine ⟨?_, ⟨'(', by decide, _, rfl⟩, ?_⟩
  · have opening : Verbatim ['('] :=
      Verbatim.of_plain (List.all_iff_forall_prop.mp (by decide))
    have closing : Verbatim [')'] :=
      Verbatim.of_plain (List.all_iff_forall_prop.mp (by decide))
    exact (opening.append settled.verbatim).append closing
  · intro written
    rw [List.reverse_append]
    exact blunt_of_head (by decide) (by decide) _

theorem settled_expression
    (locale : Locale) (inClause : Bool) {value : Value}
    (isLiteral : value.isLiteral = true) :
    Settled (expression locale inClause value) := by
  cases value with
  | null => exact settled_null
  | int _ | float _ | list _ => cases isLiteral
  | _ => exact settled_literal _

theorem settled_replacement
    (locale : Locale) {values : String → Option Value} {name : String}
    {value : Value} (bound : values name = some value)
    (isLiteral : value.isLiteral = true) (inList : Bool)
    (written : List Char) :
    Settled (replacement locale values inList name written) := by
  rw [replacement, bound]
  cases listPlace written with
  | elsewhere => exact settled_expression locale inList isLiteral
  | inParentheses => exact settled_expression locale true isLiteral
  | afterKeyword =>
      exact
        settled_parenthesized (settled_expression locale true isLiteral)

/-! ## The outcome of one filling -/

section

variable (locale : Locale) (values : String → Option Value)

/-- What filling some parts adds to the text before them, which is given from
its end backwards. -/
def addition (parts : List Piece) (written : List Char) : List Char :=
  (segments locale values false parts written).flatMap Segment.outcome

theorem replace_eq_addition
    (template : List Char) :
    replace locale values false template =
      addition locale values (pieces .code template) [] :=
  fill_eq_outcome ..

theorem addition_copied
    (text : List Char) (rest : List Piece) (written : List Char) :
    addition locale values (.copied text :: rest) written =
      text ++ addition locale values rest (text.reverse ++ written) :=
  rfl

theorem addition_parameter
    (name : List Char) (rest : List Piece) (written : List Char) :
    addition locale values (.parameter name :: rest) written =
      replacement locale values false (String.ofList name) written ++
        addition locale values rest
          ((replacement locale values false (String.ofList name)
            written).reverse ++ written) := by
  rw [addition, segments, List.flatMap_cons]
  cases bound : values (String.ofList name) with
  | none => simp [Segment.outcome, addition, replacement, bound]
  | some value => simp [Segment.outcome, addition]

theorem addition_copies
    (text : List Char) (rest : List Piece) (written : List Char) :
    addition locale values (copies text ++ rest) written =
      text ++ addition locale values rest (text.reverse ++ written) := by
  induction text generalizing written with
  | nil => rfl
  | cons char more ih =>
      rw [copies, List.map_cons, List.cons_append, addition_copied, ← copies,
        ih]
      simp

end

/-! ## The outcome read again -/

/-- Whether a text begins like another one, or like a value. -/
def Begins (text other : List Char) : Prop :=
  text.head? = other.head? ∨ ∃ first ∈ firsts, text.head? = some first

theorem Begins.head_ne
    {text other : List Char} (begins : Begins text other)
    (char : Char) (notFirst : char ∉ firsts)
    (differs : other.head? ≠ some char) :
    text.head? ≠ some char := by
  intro found
  rcases begins with same | ⟨first, member, value⟩
  · exact differs (same ▸ found)
  · rw [found, Option.some_inj] at value
    exact notFirst (value ▸ member)

/-- A part that is copied is read again, whatever value may come after it. -/
theorem next_copied
    {region : Region} {char : Char} {rest text : List Char}
    (read : (next region char rest).1 = .copied text) {other : List Char}
    (begins : Begins other (next region char rest).2.2) :
    ∃ more, text = char :: more ∧
      next region char (more ++ other) =
        (.copied text, (next region char rest).2.1, other) := by
  have noDash := begins.head_ne '-' (by decide)
  have noStar := begins.head_ne '*' (by decide)
  have noSlash := begins.head_ne '/' (by decide)
  unfold next at read noDash noStar noSlash
  split at read <;> cases read <;> refine ⟨_, rfl, ?_⟩
  case h_7 quote double bracket sign dash slash =>
    simp only [ne_eq, List.head?_eq_some_iff] at noDash noStar
    rw [List.nil_append]
    unfold next
    split <;> simp_all
  case h_11 star =>
    simp only [ne_eq, List.head?_eq_some_iff] at noSlash
    rw [List.nil_append]
    unfold next
    split <;> simp_all
  all_goals rfl

theorem pieces_copied
    {region : Region} {char : Char} {rest text : List Char}
    (read : (next region char rest).1 = .copied text) {other : List Char}
    (begins : Begins other (next region char rest).2.2) :
    pieces region (text ++ other) =
      .copied text :: pieces (next region char rest).2.1 other := by
  obtain ⟨more, rfl, again⟩ := next_copied read begins
  rw [List.cons_append, pieces_cons, again]

/-- A parameter that is left is read again, unless a letter comes after it. -/
theorem pieces_parameter
    {name : List Char} (letters : ∀ char ∈ name, isParameterChar char = true)
    {other : List Char}
    (ends : ∀ char ∈ other.head?, isParameterChar char = false) :
    pieces .code ('@' :: name ++ other) =
      .parameter name :: pieces .code other := by
  have found :
      next .code '@' (name ++ other) = (.parameter name, .code, other) := by
    have read :
        next .code '@' (name ++ other) =
          (.parameter ((name ++ other).takeWhile isParameterChar), .code,
            (name ++ other).dropWhile isParameterChar) :=
      rfl
    rw [read, Text.takeWhile_append_of_stops letters ends,
      Text.dropWhile_append_of_stops letters ends]
  rw [List.cons_append, pieces_cons, found]

theorem head_source_next
    (region : Region) (char : Char) (rest : List Char) :
    (next region char rest).1.source.head? = some char := by
  have whole := source_next region char rest
  have sound := sound_next region char rest
  cases piece : (next region char rest).1 with
  | copied part =>
      rw [piece] at whole sound
      obtain ⟨letter, more, rfl⟩ := List.exists_cons_of_ne_nil sound
      rw [(List.cons.inj whole).1]
      rfl
  | parameter name =>
      rw [piece] at whole
      rw [← (List.cons.inj whole).1]
      rfl

/-- Whether all values of a table are written as one literal, or as `null`. -/
def Literals (values : String → Option Value) : Prop :=
  ∀ name value, values name = some value → value.isLiteral = true

/-- Whether no parameter stands right after another one. -/
def Separate (parts : List Piece) : Prop :=
  parts.IsChain fun part other => part.name? = none ∨ other.name? = none

instance (parts : List Piece) : Decidable (Separate parts) :=
  inferInstanceAs (Decidable (List.IsChain _ _))

section

variable {locale : Locale} {first second both : String → Option Value}

theorem replacement_begins
    (locale : Locale) {values : String → Option Value}
    (literals : Literals values) (name : String) (written : List Char) :
    ∃ letter ∈ '@' :: firsts, ∃ rest,
      replacement locale values false name written = letter :: rest := by
  cases bound : values name with
  | none =>
      exact
        ⟨'@', List.mem_cons_self, _,
          replacement_of_unbound locale values bound written⟩
  | some value =>
      obtain ⟨letter, member, rest, begins⟩ :=
        (settled_replacement locale bound (literals _ _ bound) false
          written).begins
      exact ⟨letter, List.mem_cons_of_mem _ member, rest, begins⟩

/-- Whatever is copied begins the outcome as it begins the template. -/
theorem head_addition_of_copied
    {region : Region} {text : List Char}
    (copied : ∀ piece ∈ (pieces region text).head?, piece.name? = none)
    (written : List Char) :
    (addition locale first (pieces region text) written).head? =
      text.head? := by
  cases text with
  | nil =>
      rw [pieces]
      rfl
  | cons char rest =>
      have head := head_source_next region char rest
      rw [pieces_cons] at copied ⊢
      cases piece : (next region char rest).1 with
      | copied part =>
          rw [piece] at head
          rw [addition_copied, List.head?_append, show part.head? = _ from head]
          rfl
      | parameter name =>
          rw [piece] at copied
          cases copied _ rfl

theorem begins_addition
    (literals : Literals first) (region : Region)
    (text written : List Char) :
    Begins (addition locale first (pieces region text) written) text := by
  by_cases copied : ∀ piece ∈ (pieces region text).head?, piece.name? = none
  · exact .inl (head_addition_of_copied copied written)
  cases text with
  | nil =>
      rw [pieces] at copied
      exact absurd (fun _ member => by cases member) copied
  | cons char rest =>
      rw [pieces_cons] at copied ⊢
      cases piece : (next region char rest).1 with
      | copied part =>
          rw [piece] at copied
          refine absurd ?_ copied
          rintro _ ⟨⟩
          rfl
      | parameter name =>
          obtain ⟨-, rfl, -⟩ := parameter_next piece
          rw [addition_parameter]
          obtain ⟨letter, member, more, begins⟩ :=
            replacement_begins locale literals (String.ofList name) written
          rw [begins]
          rcases List.mem_cons.mp member with rfl | value
          · exact .inl rfl
          · exact .inr ⟨letter, value, rfl⟩

/-! ## Two fillings -/

theorem replacement_congr
    {values others : String → Option Value} {name : String}
    (value : values name = others name) {written after : List Char}
    (place : SamePlaces written after) :
    replacement locale values false name written =
      replacement locale others false name after := by
  rw [replacement, replacement, value, place.here]

/-- Whether a parameter is replaced or left, nothing of the keyword `in` is
seen from behind it. -/
theorem blunt_replacement
    {values : String → Option Value} (literals : Literals values)
    {name : List Char} (letters : ∀ char ∈ name, isParameterChar char = true)
    (ascii : ∀ char ∈ name, char.toNat < 0x80)
    (place written : List Char) :
    Blunt
      ((replacement locale values false (String.ofList name) place).reverse ++
        written) := by
  cases bound : values (String.ofList name) with
  | none =>
      rw [replacement_of_unbound locale values bound, String.toList_ofList,
        List.reverse_cons, List.append_assoc, List.singleton_append]
      apply blunt_name
      · simpa using letters
      · simpa using ascii
  | some value =>
      exact
        (settled_replacement locale bound (literals _ _ bound) false
          place).blunt written

/-- No letter comes after a parameter, if no other parameter does. -/
theorem not_letter_addition
    {name rest : List Char}
    (separate :
      Separate (.parameter name :: pieces .code (next .code '@' rest).2.2))
    (written : List Char) :
    ∀ char ∈ (addition locale first
        (pieces .code (next .code '@' rest).2.2) written).head?,
      isParameterChar char = false := by
  have after := (List.isChain_cons.mp separate).1
  rw [head_addition_of_copied fun part member =>
    (after part member).resolve_left nofun]
  exact Text.stops_dropWhile isParameterChar rest

/-- Filling what another filling added to a text adds the same as filling once
from both tables, if the texts before are the same to what looks for the
keyword `in`. -/
theorem addition_addition
    (literals : Literals first) (others : Literals second)
    (union : ∀ name, both name = (first name).or (second name))
    {region : Region} {text : List Char}
    (ascii : ∀ char ∈ text, char.toNat < 0x80)
    (separate : Separate (pieces region text))
    {earlier later written : List Char}
    (before : SamePlaces earlier written)
    (again : SamePlaces later written) :
    addition locale second
        (pieces region (addition locale first (pieces region text) earlier))
        later =
      addition locale both (pieces region text) written := by
  have all : Literals both := by
    intro name value bound
    rw [union, Option.or_eq_some_iff] at bound
    rcases bound with found | ⟨-, found⟩
    · exact literals name value found
    · exact others name value found
  fun_induction pieces region text generalizing earlier later written with
  | case1 region =>
      show addition locale second (pieces region []) later = []
      rw [pieces]
      rfl
  | case2 region char rest ih =>
      have whole := source_next region char rest
      rw [← whole, List.forall_mem_append] at ascii
      cases piece : (next region char rest).1 with
      | copied part =>
          rw [addition_copied,
            pieces_copied piece (begins_addition literals ..),
            addition_copied, addition_copied]
          exact
            congrArg _
              (ih ascii.2 separate.of_cons (before.append _) (again.append _))
      | parameter name =>
          obtain ⟨rfl, rfl, code⟩ := parameter_next piece
          have letters := sound_next .code '@' rest
          rw [piece] at ascii letters separate
          have plain := (List.forall_mem_cons.mp ascii.1).2
          rw [code] at ih separate ⊢
          rw [addition_parameter, addition_parameter]
          cases bound : first (String.ofList name) with
          | some value =>
              have same :
                  replacement locale first false (String.ofList name)
                      earlier =
                    replacement locale both false (String.ofList name)
                      written :=
                replacement_congr (by rw [union, bound]; rfl) before
              have settled :=
                settled_replacement locale bound (literals _ _ bound) false
                  earlier
              rw [settled.verbatim, addition_copies, same]
              exact
                congrArg _
                  (ih ascii.2 separate.of_cons (before.append _)
                    (again.append _))
          | none =>
              have same :
                  replacement locale second false (String.ofList name)
                      later =
                    replacement locale both false (String.ofList name)
                      written :=
                replacement_congr (by rw [union, bound]; rfl) again
              have behind :
                  SamePlaces
                    ((replacement locale first false (String.ofList name)
                      earlier).reverse ++ earlier)
                    ((replacement locale both false (String.ofList name)
                      written).reverse ++ written) :=
                (blunt_replacement literals letters plain _ _).same
                  (blunt_replacement all letters plain _ _)
              rw [replacement_of_unbound locale first bound] at behind ⊢
              rw [String.toList_ofList] at behind ⊢
              rw [pieces_parameter letters (not_letter_addition separate _),
                addition_parameter, same]
              exact
                congrArg _
                  (ih ascii.2 separate.of_cons behind (again.append _))

/-- Filling an outcome again is filling once from both tables. -/
theorem replace_replace
    (literals : Literals first) (others : Literals second)
    (union : ∀ name, both name = (first name).or (second name))
    {template : List Char} (ascii : ∀ char ∈ template, char.toNat < 0x80)
    (separate : Separate (pieces .code template)) :
    replace locale second false (replace locale first false template) =
      replace locale both false template := by
  rw [replace_eq_addition, replace_eq_addition, replace_eq_addition]
  exact
    addition_addition literals others union ascii separate (fun _ => rfl)
      (fun _ => rfl)

/-- Filling does not make a template begin with a tag. -/
theorem noTag_addition
    (literals : Literals first) {region : Region} {text : List Char}
    (noTag : (Text.trimLeft text).head? ≠ some '<') (written : List Char) :
    (Text.trimLeft
        (addition locale first (pieces region text) written)).head? ≠
      some '<' := by
  fun_induction pieces region text generalizing written with
  | case1 => exact noTag
  | case2 region char rest ih =>
      cases piece : (next region char rest).1 with
      | copied part =>
          have whole := source_next region char rest
          rw [piece, Piece.source] at whole
          rw [← whole, Text.trimLeft, List.dropWhile_append] at noTag
          rw [addition_copied, Text.trimLeft, List.dropWhile_append]
          split
          · next blank =>
              rw [if_pos blank] at noTag
              exact ih noTag _
          · next visible =>
              rw [if_neg visible] at noTag
              rw [List.isEmpty_iff] at visible
              obtain ⟨letter, more, found⟩ :=
                List.exists_cons_of_ne_nil visible
              rw [found] at noTag ⊢
              exact noTag
      | parameter name =>
          obtain ⟨letter, member, more, begins⟩ :=
            replacement_begins locale literals (String.ofList name) written
          have plain :
              ∀ char ∈ '@' :: firsts,
                Text.isBlank char = false ∧ char ≠ '<' :=
            List.all_iff_forall_prop.mp (by decide)
          rw [addition_parameter, begins, List.cons_append, Text.trimLeft,
            List.dropWhile_cons_of_neg (by simp [(plain _ member).1])]
          intro tag
          exact (plain _ member).2 (Option.some_inj.mp tag)

end

end Sql

/-! ## Whole templates -/

namespace Substitution

/-- A substitution with another table of parameters. -/
def withParameters (substitution : Substitution)
    (parameters : Fields Value) : Substitution :=
  { substitution with parameters }

theorem inert_of_blank
    {text : List Char} (blank : Text.allBlank text = true) :
    Inert text := by
  have visible : ∀ char ∈ openings, Text.isBlank char = false :=
    List.all_iff_forall_prop.mp (by decide)
  intro char member opening
  have spaced := List.all_eq_true.mp blank char member
  rw [visible char opening] at spaced
  cases spaced

theorem text_writeOnce
    (room : Option Nat) (output : String) (names : List String) :
    (writeOnce room output names).text = (writeOnce room output []).text := by
  unfold writeOnce
  split <;> rfl

/-- Filling a template that is not AML gives its text with the parameters
replaced, also where the template is blank. -/
theorem text_fill_of_flat
    {substitution : Substitution} {template : String}
    (flat : substitution.isAml template = false) (locale : Locale)
    (room : Option Nat) :
    (substitution.fill locale room template).2.text =
      (writeOnce room
        (String.ofList
          (Sql.replace locale substitution.parameters.get? false
            template.toList)) []).text := by
  rw [fill]
  dsimp only
  split
  · next blank =>
      have unnamed := Setting.names_of_inert (inert_of_blank blank)
      rw [Sql.replace_of_unbound, String.ofList_toList]
      rw [unnamed]
      exact List.forall_mem_nil _
  · rw [flat, if_neg Bool.false_ne_true]
    exact text_writeOnce ..

/-- The outcome of filling a template that is not AML is not AML either. -/
theorem isAml_replace
    {substitution : Substitution} {template : String}
    (flat : substitution.isAml template = false) (locale : Locale)
    {values : String → Option Value} (literals : Sql.Literals values) :
    substitution.isAml
      (String.ofList (Sql.replace locale values false template.toList)) =
        false := by
  rw [isAml, Bool.and_eq_false_iff, beq_eq_false_iff_ne] at flat ⊢
  refine flat.imp_left fun noTag => ?_
  rw [String.toList_ofList, Sql.replace_eq_addition]
  exact Sql.noTag_addition literals noTag []

/-- A template of flat SQL without one parameter right after another, filled
from one table of literals and then from another, comes to what it comes to
filled once from both tables. -/
theorem fill_in_stages
    (substitution : Substitution) (locale : Locale) {template : String}
    (flat : substitution.isAml template = false)
    (ascii : ∀ char ∈ template.toList, char.toNat < 0x80)
    (separate : Sql.Separate (Sql.pieces .code template.toList))
    {first second : Fields Value}
    (apart : ∀ name, first.contains name = true →
      second.contains name = false)
    (literals : Sql.Literals first.get?) (others : Sql.Literals second.get?) :
    ∃ middle,
      ((substitution.withParameters first).fill locale none
        template).2.text = .ok middle ∧
      ∀ room,
        ((substitution.withParameters second).fill locale room
            middle).2.text =
          ((substitution.withParameters (first.union second)).fill locale room
            template).2.text := by
  have union (name : String) :
      (first.union second).get? name =
        (first.get? name).or (second.get? name) := by
    rw [Fields.get?_union]
    cases found : first.get? name with
    | none => exact Option.or_none
    | some value =>
        have absent := apart name (by rw [Fields.contains, found]; rfl)
        rw [Fields.contains, Option.isSome_eq_false_iff,
          Option.isNone_iff_eq_none] at absent
        rw [absent]
        rfl
  have once (parameters : Fields Value) :=
    @text_fill_of_flat (substitution.withParameters parameters) _ flat locale
  have again :=
    @text_fill_of_flat (substitution.withParameters second) _
      (isAml_replace flat locale literals) locale
  refine
    ⟨String.ofList (Sql.replace locale first.get? false template.toList),
      once first none, fun room => ?_⟩
  rw [again room, once (first.union second) room, String.toList_ofList]
  exact
    congrArg (fun text => (writeOnce room (String.ofList text) []).text)
      (Sql.replace_replace literals others union ascii separate)

/-- A name that looks like a parameter, and then the body of a list. -/
theorem fill_in_stages_of_list :
    ∃ middle,
      ((new.withParameters
          (Fields.empty.insert "a" (.text "it's @b"))).fill
            ⟨"en", "en-US", 0, 0, ⟨0, 0, by decide, by decide⟩⟩ none
            "name=@a and id in @b").2.text = .ok middle ∧
        ((new.withParameters (Fields.empty.insert "b" .null)).fill
            ⟨"en", "en-US", 0, 0, ⟨0, 0, by decide, by decide⟩⟩ none
            middle).2.text =
          .ok "name=N'it''s @b' and id in (null)" := by
  have literals (name : String) (value : Value)
      (isLiteral : value.isLiteral = true) :
      Sql.Literals (Fields.empty.insert name value).get? := by
    intro other found bound
    rw [Fields.get?_insert] at bound
    split at bound
    · cases bound
      exact isLiteral
    · cases bound
  have apart (name : String) (bound : (Fields.empty.insert "a"
      (Value.text "it's @b")).contains name = true) :
      (Fields.empty.insert "b" Value.null).contains name = false := by
    rw [Fields.contains, Fields.get?_insert] at bound ⊢
    split at bound
    · next same =>
        subst same
        rfl
    · cases bound
  have ascii : ∀ char ∈ "name=@a and id in @b".toList, char.toNat < 0x80 :=
    List.all_iff_forall_prop.mp (by decide)
  obtain ⟨middle, filled, again⟩ :=
    @fill_in_stages new ⟨"en", "en-US", 0, 0, ⟨0, 0, by decide, by decide⟩⟩
      "name=@a and id in @b" rfl ascii (by decide +kernel) _ _
      apart (literals "a" (.text "it's @b") rfl) (literals "b" .null rfl)
  refine ⟨middle, filled, (again none).trans ?_⟩
  rw [text_fill_of_flat rfl]
  exact congrArg Except.ok (by decide +kernel)

end Substitution

end Template

end AmlExchange
