import AmlExchange.Markup.Writer

/-!
# Drafts of markup

What is to be written can be drafted before there is a writer: a draft lists
instructions, and perhaps the fault that ends it.  A writer performs a draft up
to its end or up to the first instruction that it refuses.
-/

namespace AmlExchange.Markup

/-- One thing to be written. -/
inductive Instruction where
  | startElement (name : String)
  | setAttribute (name value : String)
  /-- An attribute for the start tag, if that is still open. -/
  | offerAttribute (name value : String)
  | text (content : String)
  | raw (content : String)
  | characterData (content : String)
  | comment (content : String)
  | endElement
deriving DecidableEq, Repr

namespace Writer

/-- The writer after an instruction. -/
def perform (writer : Writer) : Instruction → Except Fault Writer
  | .startElement name => writer.startElement name
  | .setAttribute name value => writer.setAttribute name value
  | .offerAttribute name value =>
      if writer.startOpen then writer.setAttribute name value
      else .ok writer
  | .text content => writer.text content
  | .raw content => writer.raw content
  | .characterData content => writer.characterData content
  | .comment content => writer.comment content
  | .endElement => writer.endElement

/-- The writer after the instructions up to the first that it refuses. -/
def performAll (writer : Writer) :
    List Instruction → Writer × Except Fault Unit
  | [] => (writer, .ok ())
  | instruction :: rest =>
      match writer.perform instruction with
      | .error fault => (writer, .error fault)
      | .ok next => next.performAll rest

end Writer

/-- Instructions, and the fault that ends them if there is one. -/
structure Draft where
  instructions : List Instruction
  fault : Option Fault

namespace Draft

/-- The draft without instructions. -/
def empty : Draft :=
  ⟨[], none⟩

/-- The draft of some instructions. -/
def of (instructions : List Instruction) : Draft :=
  ⟨instructions, none⟩

/-- The draft that ends at once. -/
def failed (fault : Fault) : Draft :=
  ⟨[], some fault⟩

/-- Two drafts one after the other.  Nothing follows a fault. -/
def append (first second : Draft) : Draft :=
  match first.fault with
  | some _ => first
  | none => ⟨first.instructions ++ second.instructions, second.fault⟩

instance : Append Draft :=
  ⟨append⟩

/-- Drafts one after the other. -/
def concat : List Draft → Draft
  | [] => empty
  | draft :: rest => draft ++ concat rest

/-- A draft written by a writer. -/
def writeTo (draft : Draft) (writer : Writer) : Writer × Except Fault Unit :=
  match writer.performAll draft.instructions with
  | (written, .error fault) => (written, .error fault)
  | (written, .ok ()) =>
      match draft.fault with
      | some fault => (written, .error fault)
      | none => (written, .ok ())

/-- The whole text of a draft, with the elements ended that it leaves
open. -/
def toText (draft : Draft) : Except Fault String :=
  match draft.writeTo (.new none) with
  | (_, .error fault) => .error fault
  | (writer, .ok ()) => writer.finish.map Writer.output

end Draft

end AmlExchange.Markup
