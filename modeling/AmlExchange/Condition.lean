import AmlExchange.Fault
import AmlExchange.Text.Blank
import AmlExchange.Text.Case

/-!
# Conditions

The `condition` of a property says how a query compares it.  Each condition
has one AML text; the comparisons may be read from their signs as well.
-/

namespace AmlExchange

/-- How a query compares a property. -/
inductive Condition where
  | undefined
  | eq
  | ne
  | gt
  | ge
  | lt
  | le
  | like
  | notLike
  | isIn
  | notIn
  | between
  | notBetween
  | isNull
  | isNotNull
  | is
deriving DecidableEq, Repr

namespace Condition

/-- The name of a condition in reports. -/
def name : Condition → String
  | undefined => "Undefined"
  | eq => "Eq"
  | ne => "Ne"
  | gt => "Gt"
  | ge => "Ge"
  | lt => "Lt"
  | le => "Le"
  | like => "Like"
  | notLike => "NotLike"
  | isIn => "In"
  | notIn => "NotIn"
  | between => "Between"
  | notBetween => "NotBetween"
  | isNull => "IsNull"
  | isNotNull => "IsNotNull"
  | is => "Is"

/-- The AML text of a condition that has one. -/
def text? : Condition → Option String
  | undefined => none
  | eq => some "eq"
  | ne => some "ne"
  | gt => some "gt"
  | ge => some "ge"
  | lt => some "lt"
  | le => some "le"
  | like => some "like"
  | notLike => some "not like"
  | isIn => some "in"
  | notIn => some "not in"
  | between => some "between"
  | notBetween => some "not between"
  | isNull => some "is null"
  | isNotNull => some "is not null"
  | is => some "is"

/-- The AML text of a condition, empty for the undefined one. -/
def text (condition : Condition) : String :=
  condition.text?.getD ""

/-- The spellings of each condition, in small letters. -/
def spellings : List (String × Condition) :=
  [("eq", eq), ("=", eq), ("ne", ne), ("<>", ne), ("!=", ne), ("gt", gt),
    (">", gt), ("ge", ge), (">=", ge), ("lt", lt), ("<", lt), ("le", le),
    ("<=", le), ("like", like), ("not like", notLike), ("in", isIn),
    ("not in", notIn), ("between", between), ("not between", notBetween),
    ("is null", isNull), ("is not null", isNotNull), ("is", is)]

/-- The condition that a text spells, blanks at its ends and letter case put
aside. -/
def read (text : String) : Except Fault Condition :=
  let wanted := Text.fold (Text.trim text.toList)
  match spellings.find? fun spelling => spelling.1.toList == wanted with
  | some (_, condition) => .ok condition
  | none => .error (.ofKind (.invalidValue "condition"))

end Condition

end AmlExchange
