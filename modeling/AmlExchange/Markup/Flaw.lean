import AmlExchange.Fault

/-!
# Flaws of markup

Everything that makes a text unreadable as markup, with the kind of fault that
it is and the words in which it is reported.
-/

namespace AmlExchange.Markup

open Text (Position Span)

/-- What is wrong at a place in markup. -/
inductive Flaw where
  | unterminatedElement (name : String)
  | unterminatedTag
  | unterminatedValue
  | unterminatedMarkup
  | endBeforeName
  | endBeforeMark
  | nameExpected
  | markExpected
  | quoteExpected
  | textOutsideRoot
  | unexpectedEndTag
  | duplicateAttribute (name : String)
  | mismatchedTag (expected found : String)
  | badReference (reference : String)
  | tooDeep (limit : Nat)
deriving DecidableEq, Repr

namespace Flaw

/-- The kind of fault that a flaw is. -/
def kind : Flaw → Fault.Kind
  | unterminatedElement _ | unterminatedTag | unterminatedValue
  | unterminatedMarkup | endBeforeName | endBeforeMark => .unexpectedEnd
  | nameExpected | markExpected | quoteExpected | textOutsideRoot
  | unexpectedEndTag | duplicateAttribute _ => .invalidToken
  | mismatchedTag expected found => .mismatchedTag expected found
  | badReference reference => .invalidEntity reference
  | tooDeep limit => .tooDeep limit

/-- The words for a flaw. -/
def describe : Flaw → String
  | unterminatedElement name => "unterminated element <" ++ name ++ ">"
  | unterminatedTag => "unterminated tag"
  | unterminatedValue => "unterminated attribute value"
  | unterminatedMarkup => "unterminated markup"
  | endBeforeName | nameExpected => "expected name"
  | endBeforeMark => "unexpected end of input"
  | markExpected => "unexpected token"
  | quoteExpected => "expected quoted attribute value"
  | textOutsideRoot => "text outside of the root element"
  | unexpectedEndTag => "unexpected closing tag"
  | duplicateAttribute name => "duplicate attribute " ++ name
  | flaw => flaw.kind.describe

/-- The fault that reports a flaw at a place. -/
def fault (flaw : Flaw) (place : Position) : Fault :=
  .worded flaw.kind (.point place) flaw.describe

end Flaw

end AmlExchange.Markup
