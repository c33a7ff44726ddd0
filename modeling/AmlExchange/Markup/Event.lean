import AmlExchange.Text.Blank

/-!
# Markup events

A document in markup is a sequence of tags, texts and comments.
-/

namespace AmlExchange.Markup

/-- One part of a document in markup. -/
inductive Event where
  /-- A start tag.  An empty one stands for the whole element and has no end
  tag. -/
  | start (name : String) (attributes : List (String × String))
      (empty : Bool)
  /-- An end tag. -/
  | finish (name : String)
  /-- The text between two tags, its references expanded. -/
  | text (content : String)
  /-- The content of a section of unescaped text. -/
  | characterData (content : String)
  | comment (content : String)
deriving DecidableEq, Repr

/-- Whether a text consists of spacing characters only. -/
def isSpaced (text : String) : Bool :=
  text.toList.all Text.isSpacing

/-- Whether an event is text of spacing characters only. -/
def Event.isSpacing : Event → Bool
  | .text content => isSpaced content
  | _ => false

end AmlExchange.Markup
