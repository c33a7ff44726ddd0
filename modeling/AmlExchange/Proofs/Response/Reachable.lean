import AmlExchange.Proofs.Document.Names
import AmlExchange.Proofs.Response.Envelopes

/-!
# The responses that callers can make

A response is new or read from an envelope, or left behind by a call on such a
response or by a step on its document.  Its document is one that callers can
make, and its message is an element of that name: names never change
(`Reachable.sound`).
-/

namespace AmlExchange.Response

open Document (NodeId NamesKept)

/-- The responses that callers can make. -/
inductive Reachable : Response → Prop where
  | new (locale : Locale) : Reachable (new locale)
  | answered {locale : Locale} {text : String} {response : Response}
      (done : read locale text = .ok response) : Reachable response
  | stepped {response : Response} (reached : Reachable response)
      (step : Document.Step) (possible : step.Possible) :
      Reachable
        { response with document := response.document.afterStep step }
  | informed {response : Response} (reached : Reachable response)
      (database query : Option String) :
      Reachable (response.withDetails database query)
  | extended {response : Response} (reached : Reachable response)
      (item : NodeId) :
      Reachable (response.add item)
  | importedItem {response : Response} {source : Document}
      (reached : Reachable response) (sourceReached : source.Reachable)
      (id : NodeId) :
      Reachable (response.importItem source id).2
  | valued {response : Response} (reached : Reachable response)
      (text : String) :
      Reachable (response.setValue text)
  | failed {response : Response} (reached : Reachable response)
      (fault : Fault) :
      Reachable (response.setFault fault)
  | told {response : Response} (reached : Reachable response)
      (content : Document.Content) :
      Reachable (response.addMessage content).2
  | flawed {response : Response} (reached : Reachable response)
      (message : String) (properties : List String) :
      Reachable (response.addFlaw message properties)
  | flawedAt {response : Response} (reached : Reachable response)
      (item : NodeId) :
      Reachable (response.setFlawedItem item)

/-- Whether a response has a document that callers can make, and an element of
that name for its message. -/
structure Sound (response : Response) : Prop where
  document : response.document.Reachable
  message : ∀ message ∈ response.message,
    Markup.localName (response.document.name message) = "Message"

namespace Sound

variable {response : Response}

theorem ofDocument
    {document : Document} (reachable : document.Reachable) :
    (ofDocument document).Sound := by
  refine ⟨reachable, fun message given => ?_⟩
  cases given

/-- A document that keeps its names may be changed. -/
theorem change
    (sound : response.Sound) {next : Document} (reachable : next.Reachable)
    (kept : NamesKept response.document next) :
    Sound { response with document := next } := by
  refine ⟨reachable, fun message given => ?_⟩
  have named := sound.message message given
  rw [Document.name_eq_name?] at named
  cases known : response.document.name? message with
  | none =>
      rw [known] at named
      exact absurd named (by decide)
  | some name =>
      rw [known] at named
      rw [Document.name_eq_name?, kept message name known]
      exact named

theorem step
    (sound : response.Sound) {step : Document.Step} (possible : step.Possible) :
    Sound { response with document := response.document.afterStep step } :=
  sound.change (sound.document.stepped step possible)
    (Document.keepsNames_afterStep response.document step)

theorem call
    (sound : response.Sound) (call : Document.Call) :
    Sound { response with document := response.document.afterCall call } :=
  sound.step (Document.Step.possible_call call)

end Sound

theorem edit_eq
    (response : Response) {α : Type} (change : Document.Edit α) :
    (response.edit change).2 =
      { response with document := response.document.after change } := by
  rw [edit, Document.after]
  cases change.run response.document <;> rfl

theorem sound_importItem
    {response : Response} (sound : response.Sound) {source : Document}
    (sourceReached : source.Reachable) (id : NodeId) :
    Sound (response.importItem source id).2 := by
  have edited : Sound (response.edit (Document.importFrom source id)).2 := by
    rw [edit_eq]
    refine @Sound.step _ sound (.importFrom source id) ?_
    rintro _ ⟨⟩
    exact sourceReached
  rw [importItem]
  split
  · next done =>
      rw [done] at edited
      exact ⟨edited.document, edited.message⟩
  · next failed =>
      rw [failed] at edited
      exact edited

theorem sound_openMessage
    {response : Response} (sound : response.Sound) :
    Sound response.openMessage.2 := by
  rw [openMessage]
  split
  · exact sound
  · have made := sound.document.called (.createElement "Message")
    refine ⟨made, fun message given => ?_⟩
    cases given
    show Markup.localName (Document.name (response.document.push _) _) = _
    rw [Document.name_eq, Document.node?_push]
    decide

theorem sound_addMessage
    {response : Response} (sound : response.Sound)
    (content : Document.Content) :
    Sound (response.addMessage content).2 := by
  have opened := sound_openMessage sound
  rw [addMessage, edit_eq]
  exact opened.call (.add _ content)

/-! ## Responses that are read -/

theorem sound_readPart
    {response : Response} (sound : response.Sound) (node : NodeId) :
    Sound (readPart response node) := by
  refine ⟨document_readPart response node ▸ sound.document, ?_⟩
  intro message given
  rw [document_readPart]
  rw [readPart] at given
  split at given
  · split at given
    · split at given <;> exact sound.message message given
    · exact sound.message message given
  · exact sound.message message given
  · next named =>
      cases given
      exact named
  · exact sound.message message given
  · exact sound.message message given

theorem sound_foldl_readPart
    (nodes : List NodeId) {response : Response} (sound : response.Sound) :
    Sound (nodes.foldl readPart response) := by
  induction nodes generalizing response with
  | nil => exact sound
  | cons node rest ih => exact ih (sound_readPart sound node)

theorem map_eq_ok_iff
    {α β : Type} {outcome : Except Fault α} {change : α → β} {result : β} :
    outcome.map change = .ok result ↔
      ∃ before, outcome = .ok before ∧ change before = result := by
  cases outcome with
  | error fault => exact ⟨nofun, fun ⟨_, failed, _⟩ => nomatch failed⟩
  | ok before => simp [Except.map]

theorem sound_freeze
    (nodes : List NodeId) {response : Response} (sound : response.Sound) :
    Sound
      { response with
        document :=
          response.document.after (nodes.forM Document.freeze) } := by
  induction nodes generalizing response with
  | nil => exact sound
  | cons node rest ih =>
      show
        Sound
          { response with
            document :=
              response.document.after
                (Document.freeze node >>= fun _ =>
                  rest.forM Document.freeze) }
      apply
        @Document.holds_after_bind _ _ _
          (fun next => Sound { response with document := next })
      · exact sound.call (.freeze node)
      · exact fun _ next _ kept => ih kept

theorem sound_read
    {locale : Locale} {text : String} {response : Response}
    (done : read locale text = .ok response) :
    response.Sound := by
  rw [read] at done
  cases parsed : Document.parse .standard locale true text with
  | error fault =>
      rw [parsed] at done
      cases done
  | ok document =>
      have started : (ofDocument document).Sound :=
        .ofDocument (.parsed parsed)
      simp only [parsed, bind, Except.bind] at done
      split at done
      · cases done
      · next root _ =>
          have frozen :=
            sound_freeze document.roots
              (sound_foldl_readPart (parts document root) started)
          rw [← edit_eq] at frozen
          obtain ⟨_, -, rfl⟩ := map_eq_ok_iff.mp done
          exact frozen

theorem Reachable.sound
    {response : Response} (reachable : response.Reachable) :
    response.Sound := by
  induction reachable with
  | new locale => exact .ofDocument (.new locale)
  | answered done => exact sound_read done
  | stepped reached step possible ih => exact ih.step possible
  | importedItem reached sourceReached id ih =>
      exact sound_importItem ih sourceReached id
  | told reached content ih => exact sound_addMessage ih content
  | informed _ _ _ ih | extended _ _ ih | valued _ _ ih | failed _ _ ih
  | flawed _ _ _ ih | flawedAt _ _ ih => exact ⟨ih.document, ih.message⟩

end AmlExchange.Response
