import AmlExchange.Fault
import AmlExchange.Markup.Escape
import AmlExchange.Text.Search

/-!
# Writing markup

A writer appends tags, texts and comments to its output.  The start tag of the
latest element stays open until something is put into the element, so that
attributes can be added to it; an element that gets no content is closed by
the short form of the tag.  A writer may have room for a limited number of
bytes only; what would exceed it is refused.
-/

namespace AmlExchange.Markup

/-- The state of the output. -/
structure Writer where
  /-- What is written so far. -/
  output : String
  /-- The names of the open elements, the innermost first. -/
  openNames : List String
  /-- Whether the latest start tag can still take attributes. -/
  startOpen : Bool
  /-- The number of bytes that the output may have. -/
  room : Option Nat
deriving DecidableEq, Repr

namespace Writer

/-- A writer that has written nothing. -/
def new (room : Option Nat) : Writer :=
  ⟨"", [], false, room⟩

/-- The refusal of output for which there is no room. -/
def full : Fault :=
  .refused "failed to write XML output"

/-- Whether an output may have some text added to it. -/
def fits (room : Option Nat) (output text : String) : Bool :=
  match room with
  | none => true
  | some limit => output.utf8ByteSize + text.utf8ByteSize ≤ limit

/-- The writer after some text. -/
def put (writer : Writer) (text : String) : Except Fault Writer :=
  if fits writer.room writer.output text then
    .ok { writer with output := writer.output ++ text }
  else .error full

/-- The mark that ends an open start tag before content is written. -/
def closing (writer : Writer) : String :=
  if writer.startOpen then ">" else ""

/-- The writer after some text within the element. -/
def putContent (writer : Writer) (text : String) : Except Fault Writer :=
  { writer with startOpen := false }.put (writer.closing ++ text)

/-- The writer after the beginning of a start tag. -/
def startElement (writer : Writer) (name : String) : Except Fault Writer := do
  let written ← writer.putContent ("<" ++ name)
  .ok { written with openNames := name :: written.openNames, startOpen := true }

/-- The writer after an attribute of the open start tag. -/
def setAttribute (writer : Writer) (name value : String) :
    Except Fault Writer :=
  if writer.startOpen then
    writer.put (" " ++ name ++ "=\"" ++ escapeAttribute value ++ "\"")
  else
    .error <| .refused <|
      "cannot write attribute " ++ name ++ " after element content"

/-- The writer after text.  Empty text leaves a start tag open. -/
def text (writer : Writer) (content : String) : Except Fault Writer :=
  if content.isEmpty then .ok writer
  else writer.putContent (escapeText content)

/-- The writer after markup that is not escaped. -/
def raw (writer : Writer) (content : String) : Except Fault Writer :=
  if content.isEmpty then .ok writer else writer.putContent content

/-- A text in which no section of unescaped text ends: each end mark is
divided between two sections. -/
def guarded (content : String) : String :=
  String.ofList
    (Text.replace "]]>".toList "]]]]><![CDATA[>".toList content.toList)

/-- The writer after a section of unescaped text. -/
def characterData (writer : Writer) (content : String) :
    Except Fault Writer :=
  writer.putContent ("<![CDATA[" ++ guarded content ++ "]]>")

/-- The writer after a comment. -/
def comment (writer : Writer) (content : String) : Except Fault Writer :=
  writer.putContent ("<!--" ++ content ++ "-->")

/-- The writer after the end of the innermost element. -/
def endElement (writer : Writer) : Except Fault Writer :=
  match writer.openNames with
  | [] => .error (.refused "no open element to close")
  | name :: outer =>
      if writer.startOpen then
        { writer with openNames := outer, startOpen := false }.put " />"
      else
        { writer with openNames := outer }.put ("</" ++ name ++ ">")

/-- The writer after the ends of as many elements as are listed. -/
def endElements (writer : Writer) : List String → Except Fault Writer
  | [] => .ok writer
  | _ :: outer => do (← writer.endElement).endElements outer

/-- The writer after the ends of all open elements. -/
def finish (writer : Writer) : Except Fault Writer :=
  writer.endElements writer.openNames

end Writer

end AmlExchange.Markup
