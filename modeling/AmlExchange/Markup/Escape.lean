/-!
# Escaped characters

In text the three characters that markup is made of are written as references.
In the value of an attribute so are the quotation mark and the spacing
characters other than the space.
-/

namespace AmlExchange.Markup

/-- How a character is written in text. -/
def escapeTextChar (char : Char) : List Char :=
  if char = '&' then "&amp;".toList
  else if char = '<' then "&lt;".toList
  else if char = '>' then "&gt;".toList
  else [char]

/-- How a character is written in the value of an attribute. -/
def escapeAttributeChar (char : Char) : List Char :=
  if char = '"' then "&quot;".toList
  else if char = '\n' then "&#xA;".toList
  else if char = '\r' then "&#xD;".toList
  else if char = '\t' then "&#x9;".toList
  else escapeTextChar char

/-- A text as it is written between tags. -/
def escapeText (text : String) : String :=
  String.ofList (text.toList.flatMap escapeTextChar)

/-- A text as it is written between quotation marks in a tag. -/
def escapeAttribute (text : String) : String :=
  String.ofList (text.toList.flatMap escapeAttributeChar)

end AmlExchange.Markup
