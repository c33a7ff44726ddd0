import AmlExchange.Locale
import AmlExchange.Text.Search

/-!
# Lists of values

A list is written as its members with commas between them.  Where it has to be
quoted, each member is a literal of its own, unless all are numbers, and the
empty list is one literal that equals nothing.
-/

namespace AmlExchange.Template

/-- The text that stands in a quoted list without members. -/
def emptyListSentinel : String :=
  "`EMTPY_VALUE_LIST`"

/-- A text with every apostrophe written twice. -/
def doubled (text : List Char) : List Char :=
  text.flatMap fun char => if char = '\'' then ['\'', '\''] else [char]

/-- A text as a literal. -/
def literal (text : List Char) : List Char :=
  'N' :: '\'' :: doubled text ++ ['\'']

/-- A value, or the members of a list, in the words of a formatter. -/
def enumerate (format : Value → List Char) (quote : Bool) (value : Value) :
    List Char :=
  match value with
  | .list values =>
      if !quote || value.isNumericList then
        Locale.joined (values.map format)
      else if values.isEmpty then literal (format (.text emptyListSentinel))
      else Locale.joined (values.map fun value => literal (format value))
  | _ => format value

end AmlExchange.Template
