import AmlExchange.Text.Blank
import AmlExchange.Text.Case

/-!
# Where a value is inserted

The name of an attribute, or the condition of an element, decides how a value
inserted there is written.
-/

namespace AmlExchange.Template

/-- How a value is written at a place of a template. -/
inductive Context where
  /-- Identities with commas between them. -/
  | idList
  /-- The members of an `in` condition, quoted unless they are numbers. -/
  | isIn
  | like
  /-- The text is flat SQL. -/
  | sql
  | between
  | plain
deriving DecidableEq, Repr

namespace Context

/-- The names that choose a context, in small letters. -/
def spellings : List (String × Context) :=
  [("idlist", idList), ("in", isIn), ("not in", isIn), ("like", like),
    ("not like", like), ("sql", sql), ("where", sql), ("between", between),
    ("not between", between)]

/-- The context that a name chooses, blanks at its ends and letter case put
aside. -/
def ofName (name : String) : Context :=
  let wanted := Text.fold (Text.trim name.toList)
  match spellings.find? fun spelling => spelling.1.toList == wanted with
  | some (_, context) => context
  | none => plain

/-- The context that the condition of an element chooses. -/
def ofCondition (condition : Option String) : Context :=
  match condition with
  | some name => ofName name
  | none => plain

/-- The name of a context. -/
def name : Context → String
  | idList => "IdList"
  | isIn => "In"
  | like => "Like"
  | sql => "Sql"
  | between => "Between"
  | plain => "Default"

end Context

end AmlExchange.Template
