import AmlExchange.Text.Position

/-!
# Faults

Whatever goes wrong is reported as a fault: what kind of thing went wrong,
where in a text, in which words, and for which database and query.  The kinds
and the words that belong to each stand here; the words of one particular
occasion are given by the module where it arises.
-/

namespace AmlExchange

open Text (Position Span)

/-- The places in which a value may not stand unescaped. -/
inductive RawPlace where
  | attribute
  | characterData
deriving DecidableEq, Repr

/-- What a place is called in a message. -/
def RawPlace.describe : RawPlace → String
  | .attribute => "an attribute"
  | .characterData => "a CDATA section"

namespace Fault

/-- The kinds of fault. -/
inductive Kind where
  /-- Markup holds a character that cannot stand where it does. -/
  | invalidToken
  /-- Markup ends within a construct. -/
  | unexpectedEnd
  /-- An end tag names another element than the innermost open one. -/
  | mismatchedTag (expected found : String)
  /-- A reference stands for no character. -/
  | invalidEntity (reference : String)
  /-- Elements are nested too deeply. -/
  | tooDeep (limit : Nat)
  /-- A text is too long. -/
  | tooLarge (limit : Nat)
  /-- A call is refused in the present state. -/
  | invalidOperation
  /-- A value was to be inserted unescaped where that is not allowed. -/
  | rawNotAllowed (place : RawPlace)
  /-- An element belongs to a namespace that cannot be written. -/
  | unsupportedPrefix (name : String)
  /-- A value does not read as the type asked for. -/
  | invalidValue (target : String)
  /-- A date range leaves the calendar. -/
  | invalidDateRange
  /-- The server reports a fault. -/
  | server (code : String)
  /-- The server has no item to answer with. -/
  | noItems (itemType : String)
  /-- There are several items where one is expected. -/
  | multipleItems
  /-- An item has another type than the one expected. -/
  | typeMismatch (expected found : String)
  /-- Properties of an item are not acceptable. -/
  | validation (itemType itemId : Option String) (properties : List String)
deriving DecidableEq, Repr

/-- The words for a kind of fault when the occasion has none of its own. -/
def Kind.describe : Kind → String
  | .invalidToken => "invalid token"
  | .unexpectedEnd => "unexpected end of input"
  | .mismatchedTag expected found =>
      "mismatched closing tag: expected </" ++ expected ++ ">, found </" ++
        found ++ ">"
  | .invalidEntity reference => "invalid xml entity: &" ++ reference ++ ";"
  | .tooDeep limit => "max depth exceeded: " ++ toString limit
  | .tooLarge limit => "max size exceeded: " ++ toString limit
  | .invalidOperation => "invalid operation"
  | .rawNotAllowed place =>
      "raw parameter not allowed in " ++ place.describe
  | .unsupportedPrefix name => "unsupported namespace prefix: " ++ name
  | .invalidValue target => "value cannot be converted to " ++ target
  | .invalidDateRange => "invalid date range"
  | .server code => "server error (fault code " ++ code ++ ")"
  | .noItems itemType => "no items of type " ++ itemType ++ " found"
  | .multipleItems =>
      "multiple items were found when only one was expected"
  | .typeMismatch expected found =>
      "an item of type '" ++ found ++ "' was found while an item of type '" ++
        expected ++ "' was expected"
  | .validation _ _ _ => "validation failed"

/-- The request that a fault answers. -/
structure Details where
  database : Option String
  query : Option String
deriving DecidableEq, Repr

end Fault

/-- A report of something that went wrong. -/
structure Fault where
  kind : Fault.Kind
  span : Span
  message : String
  details : Option Fault.Details
deriving DecidableEq, Repr

namespace Fault

/-- A fault of some kind at a stretch of a text, in the words of its kind. -/
def ofKindAt (kind : Kind) (span : Span) : Fault :=
  ⟨kind, span, kind.describe, none⟩

/-- A fault of some kind at no place, in the words of its kind. -/
def ofKind (kind : Kind) : Fault :=
  ofKindAt kind .nowhere

/-- A fault of some kind, in words of its own. -/
def worded (kind : Kind) (span : Span) (message : String) : Fault :=
  ⟨kind, span, message, none⟩

/-- A call that is refused for the reason given. -/
def refused (reason : String) : Fault :=
  worded .invalidOperation .nowhere reason

/-- A fault with the request that it answers.  A request of which nothing is
known leaves the fault as it is. -/
def withDetails (fault : Fault) (database query : Option String) : Fault :=
  if database.isSome || query.isSome then
    { fault with details := some ⟨database, query⟩ }
  else fault

/-- Whether the fault says that there is no item. -/
def isNoItems (fault : Fault) : Bool :=
  match fault.kind with
  | .noItems _ => true
  | _ => false

/-- A fault in one line: its place if it has one, its words, and its database
if that is known. -/
def render (fault : Fault) : String :=
  let place :=
    if fault.span.isNowhere then ""
    else "error at " ++ fault.span.start.render ++ ": "
  let database :=
    match fault.details.bind Details.database with
    | some name => " (database: " ++ name ++ ")"
    | none => ""
  place ++ fault.message ++ database

end Fault

theorem eq_ok_of_toOption
    {α : Type} {result : Except Fault α} {value : α}
    (given : result.toOption = some value) :
    result = .ok value := by
  cases result with
  | error fault => cases given
  | ok other =>
      cases given
      rfl

end AmlExchange
