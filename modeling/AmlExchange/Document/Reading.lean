import AmlExchange.Document.Layout
import AmlExchange.Markup.Reader

/-!
# Documents read from markup

The events of markup make up trees.  The text of an element that has no child
elements is its value; comments, and text beside child elements, are left out.
-/

namespace AmlExchange.Document

open Markup (Event Limits)

/-- An element whose end is still to be read. -/
structure Frame where
  name : String
  kind : Kind
  attributes : Fields String
  /-- The text read in the element. -/
  text : String
  /-- The children read, the latest first. -/
  children : List Element

/-- The element that a frame has become. -/
def Frame.close (frame : Frame) : Element :=
  let content :=
    if frame.children.isEmpty && !frame.text.isEmpty then
      Value.text frame.text
    else .null
  .node ⟨frame.name, frame.kind, frame.attributes, content⟩
    frame.children.reverse

/-- What some events have made so far. -/
structure Growth where
  /-- The elements whose end is still to be read, the innermost first. -/
  frames : List Frame
  /-- The trees read to their end, the latest first. -/
  finished : List Element

namespace Growth

/-- Nothing read. -/
def start : Growth :=
  ⟨[], []⟩

/-- A tree added below the innermost open element, or as one of its own. -/
def add (growth : Growth) (tree : Element) : Growth :=
  match growth.frames with
  | [] => { growth with finished := tree :: growth.finished }
  | frame :: outer =>
      { growth with
        frames := { frame with children := tree :: frame.children } :: outer }

/-- Text added to the innermost open element. -/
def addText (growth : Growth) (text : String) : Growth :=
  match growth.frames with
  | [] => growth
  | frame :: outer =>
      { growth with frames := { frame with text := frame.text ++ text } :: outer }

/-- What has been made after one more event. -/
def step (growth : Growth) (event : Event) : Growth :=
  match event with
  | .start name attributes empty =>
      let kind := Kind.classify name (growth.frames.head?.map Frame.kind)
      let frame : Frame := ⟨name, kind, .ofList attributes, "", []⟩
      if empty then growth.add frame.close
      else { growth with frames := frame :: growth.frames }
  | .finish _ =>
      match growth.frames with
      | [] => growth
      | frame :: outer => { growth with frames := outer }.add frame.close
  | .text content | .characterData content => growth.addText content
  | .comment _ => growth

end Growth

/-- The trees that some events make up. -/
def treesOf (events : List Event) : List Element :=
  (events.foldl Growth.step .start).finished.reverse

/-- The document that a text writes.  `stored` says that the server sent
it. -/
def parse (limits : Limits) (locale : Locale) (stored : Bool)
    (text : String) : Except Fault Document :=
  let stream := Markup.read limits text
  match stream.ending with
  | .error fault => .error fault
  | .ok _ =>
      .ok (ofTrees locale stored (treesOf (stream.events.map Prod.fst)))

end AmlExchange.Document
