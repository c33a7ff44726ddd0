import AmlExchange.Template.Enumeration
import AmlExchange.Template.Placeholder

/-!
# Parameters in flat SQL

SQL is read as code, quoted text and comments.  A parameter is an at sign in
code with the name characters that follow it.  A parameter that has a value is
replaced by a literal, a number, or the members of a list; one that has none
stays as it is.
-/

namespace AmlExchange.Template.Sql

/-- What the text after a place belongs to. -/
inductive Region where
  | code
  /-- A literal or a quoted name, up to its closing character. -/
  | quoted (close : Char)
  /-- A comment up to the end of the line. -/
  | lineComment
  /-- A comment between marks. -/
  | blockComment
deriving DecidableEq, Repr

/-- A part of a template. -/
inductive Piece where
  | copied (text : List Char)
  | parameter (name : List Char)
deriving DecidableEq, Repr

/-- The part that begins with a character, the region after it and what
remains to be read. -/
def next (region : Region) (char : Char) (rest : List Char) :
    Piece × Region × List Char :=
  match region, char, rest with
  | .code, '-', '-' :: more => (.copied ['-', '-'], .lineComment, more)
  | .code, '/', '*' :: more => (.copied ['/', '*'], .blockComment, more)
  | .code, '\'', _ => (.copied [char], .quoted '\'', rest)
  | .code, '"', _ => (.copied [char], .quoted '"', rest)
  | .code, '[', _ => (.copied [char], .quoted ']', rest)
  | .code, '@', _ =>
      (.parameter (rest.takeWhile isParameterChar), .code,
        rest.dropWhile isParameterChar)
  | .code, _, _ => (.copied [char], .code, rest)
  | .quoted close, _, _ =>
      (.copied [char], if char = close then .code else region, rest)
  | .lineComment, _, _ =>
      (.copied [char],
        if char = '\n' ∨ char = '\r' then .code else .lineComment, rest)
  | .blockComment, '*', '/' :: more => (.copied ['*', '/'], .code, more)
  | .blockComment, _, _ => (.copied [char], .blockComment, rest)

theorem length_next_le (region : Region) (char : Char) (rest : List Char) :
    (next region char rest).2.2.length ≤ rest.length := by
  unfold next
  split <;> simp
  exact (List.dropWhile_sublist isParameterChar).length_le

/-- The parts of a template that begins in a region. -/
def pieces (region : Region) : List Char → List Piece
  | [] => []
  | char :: rest =>
      (next region char rest).1 ::
        pieces (next region char rest).2.1 (next region char rest).2.2
termination_by text => text.length
decreasing_by
  have := length_next_le region char rest
  simp only [List.length_cons]
  omega

/-- The template that a part was read from. -/
def Piece.source : Piece → List Char
  | .copied text => text
  | .parameter name => '@' :: name

/-- The name of a part that is a parameter. -/
def Piece.name? : Piece → Option String
  | .copied _ => none
  | .parameter name => some (String.ofList name)

/-- The names of the parameters of a template, in order. -/
def names (template : List Char) : List String :=
  (pieces .code template).filterMap Piece.name?

/-- The parts of a template one after the other, each parameter replaced by
what `answer` makes of its name and of the text before it.  That text is given
from its end backwards. -/
def fill (answer : String → List Char → List Char) :
    List Piece → List Char → List Char
  | [], written => written.reverse
  | .copied text :: rest, written =>
      fill answer rest (text.reverse ++ written)
  | .parameter name :: rest, written =>
      fill answer rest
        ((answer (String.ofList name) written).reverse ++ written)

/-- Where a value stands with respect to the keyword `in`. -/
inductive ListPlace where
  | elsewhere
  /-- Right after the keyword, so that parentheses are missing. -/
  | afterKeyword
  /-- After the keyword and an opening parenthesis. -/
  | inParentheses
deriving DecidableEq, Repr

/-- The place at the end of a text, which is given from its end backwards.
The keyword counts only at the beginning of a text or after an ASCII
character, unless a parenthesis follows it. -/
def listPlace (written : List Char) : ListPlace :=
  if Text.sameIgnoringCase (written.take 5) "( ni ".toList then
    .inParentheses
  else if Text.sameIgnoringCase (written.take 4) " ni ".toList then
    match written.drop 4 with
    | [] => .afterKeyword
    | char :: _ =>
        if char.toNat < 0x80 then .afterKeyword else .elsewhere
  else .elsewhere

/-- A value as SQL.  Within an `in` clause a list is written as its members;
anywhere else it is one literal. -/
def expression (locale : Locale) (inClause : Bool) (value : Value) :
    List Char :=
  match value with
  | .null => "null".toList
  | .int _ | .float _ => locale.formatChars value
  | .list _ =>
      if inClause then enumerate locale.formatChars true value
      else literal (locale.formatChars value)
  | _ => literal (locale.formatChars value)

/-- What stands in for a parameter after some text, given from its end
backwards.  `inList` says that the whole template is the body of an `in`
clause. -/
def replacement (locale : Locale) (values : String → Option Value)
    (inList : Bool) (name : String) (written : List Char) : List Char :=
  match values name with
  | none => '@' :: name.toList
  | some value =>
      match listPlace written with
      | .elsewhere => expression locale inList value
      | .inParentheses => expression locale true value
      | .afterKeyword => '(' :: expression locale true value ++ [')']

/-- A template with its parameters replaced by their values. -/
def replace (locale : Locale) (values : String → Option Value)
    (inList : Bool) (template : List Char) : List Char :=
  fill (replacement locale values inList) (pieces .code template) []

end AmlExchange.Template.Sql
