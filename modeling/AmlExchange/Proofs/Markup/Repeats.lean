import AmlExchange.Proofs.Markup.Streams

/-!
# Start tags with an attribute given twice

A writer adds whatever attributes it is told to.  A reader refuses a start tag
that gives an attribute twice, so that what is written and can be read gives
each once (`lawful_of_read`), and what gives each once can be read
(`readable_iff_nodup`).
-/

namespace AmlExchange.Markup

/-- What markup asks of the names and the comment of one event.  The names of
attributes may repeat. -/
def Event.Named : Event → Prop
  | .start name attributes _ =>
      isName name.toList = true ∧
        ∀ field ∈ attributes, isName field.1.toList = true
  | .comment content => ¬ "-->".toList <:+: content.toList
  | .finish _ | .text _ | .characterData _ => True

theorem Event.Lawful.named
    {event : Event} (lawful : event.Lawful) :
    event.Named := by
  cases event with
  | start name attributes empty => exact ⟨lawful.1, lawful.2.1⟩
  | comment content => exact lawful
  | _ => trivial

theorem named_normalForm
    {events : List Event} (named : ∀ event ∈ events, event.Named) :
    ∀ event ∈ normalForm events, event.Named :=
  forall_mem_normalForm (fun _ => trivial) (fun _ => trivial)
    (fun _ _ tag => tag) named

namespace Reader

theorem areFields_of_markup
    {fields found : List (String × String)} {rest : List Char}
    (areNames : ∀ field ∈ fields, isName field.1.toList = true)
    (before : AreFields found) {input : Input}
    (shape : input.rest = fields.flatMap fieldMarkup ++ rest)
    {read : List (String × String) × Input}
    (succeeded : attributes input found = .ok read) :
    AreFields (found ++ fields) := by
  induction fields generalizing found input with
  | nil => rwa [List.append_nil]
  | cons field fields ih =>
      rw [List.forall_mem_cons] at areNames
      rw [List.flatMap_cons, List.append_assoc] at shape
      obtain ⟨after, part, left⟩ := tagPart_of_field shape areNames.1
      rw [attributes_eq, part] at succeeded
      dsimp only at succeeded
      split at succeeded
      · cases succeeded
      · next fresh =>
          have extended : AreFields (found ++ [field]) :=
            areFields_append before areNames.1 (by simpa [names] using fresh)
          have all := ih areNames.2 extended left succeeded
          rwa [List.append_assoc] at all

/-- An event that is read from its markup gives no attribute twice. -/
theorem lawful_of_step
    {reader : Reader} {event : Event} (named : event.Named)
    {rest : List Char} (shape : reader.input.rest = event.markup ++ rest)
    {step : Step} (read : reader.step = .ok step) :
    event.Lawful := by
  cases event with
  | start name attributes empty =>
      obtain ⟨isName, areNames⟩ := named
      obtain ⟨begins, named, nameRead, afterName⟩ :=
        begins_startTag isName shape
      rw [begins, startTag] at read
      simp only [bind, Except.bind, nameRead] at read
      split at read
      · cases read
      · next succeeded =>
          exact
            ⟨isName, areFields_of_markup areNames areFields_nil afterName
              succeeded⟩
  | comment content => exact named
  | finish _ | text _ | characterData _ => trivial

/-- Nested events in normal form, read from their markup up to its end, give no
attribute twice. -/
theorem lawful_of_run
    {events : List Event} {reader : Reader}
    (shallow : Shallow reader.depth reader.openNames.length events)
    (areNames : ∀ name ∈ reader.openNames, isName name.toList = true)
    (nested : Nested reader.openNames events)
    (named : ∀ event ∈ events, event.Named)
    (settled : Settled events)
    (shape : reader.input.rest = markupAll events)
    {place : Text.Position} (ended : reader.run.ending = .ok place) :
    ∀ event ∈ events, event.Lawful := by
  induction events generalizing reader with
  | nil => exact List.forall_mem_nil _
  | cons event rest ih =>
      obtain ⟨names, fits, nestedRest⟩ := nested_cons.mp nested
      rw [List.forall_mem_cons] at named
      obtain ⟨settledEvent, apart, settledRest⟩ := settled
      have lawful : event.Lawful := by
        cases read : reader.step with
        | error fault =>
            rw [run_eq, read] at ended
            cases ended
        | ok step => exact lawful_of_step named.1 shape read
      obtain ⟨input, read, left⟩ :=
        delivers_event shallow.1 areNames fits lawful settledEvent
          (fun isText => head?_markupAll (apart isText)) shape
      rw [run_eq, read] at ended
      exact
        List.forall_mem_cons.mpr
          ⟨lawful,
            @ih { reader with input, openNames := names }
              (length_of_nest? fits ▸ shallow.2)
              (isName_of_nest? fits lawful areNames) nestedRest named.2
              settledRest left ended⟩

end Reader

/-- What is written for nested events gives no attribute twice, if it can be
read. -/
theorem lawful_of_read
    {events : List Event} (nested : Nested [] events)
    (named : ∀ event ∈ events, event.Named) {limits : Limits}
    (shallow : Shallow limits.depth 0 events) {text : String}
    (written : text = String.ofList (markupAll (normalForm events)))
    {place : Text.Position}
    (ended : (read limits text).ending = .ok place) :
    ∀ event ∈ normalForm events, event.Lawful := by
  have letters : text.toList = markupAll (normalForm events) := by
    rw [written]
    exact String.toList_ofList ..
  rw [read] at ended
  split at ended
  · cases ended
  · exact
      @Reader.lawful_of_run _ ⟨limits.depth, .ofText text, []⟩
        (shallow_normalForm shallow) (List.forall_mem_nil _)
        (nested_normalForm nested) (named_normalForm named)
        (settled_normalForm events) letters _ ended

/-- What is written for nested events, if it can be read, is read back as their
normal form. -/
theorem delivered_of_read
    {events : List Event} (nested : Nested [] events)
    (named : ∀ event ∈ events, event.Named) {text : String}
    (written : text = String.ofList (markupAll (normalForm events)))
    {place : Text.Position}
    (ended : (read .unlimited text).ending = .ok place) :
    (read .unlimited text).Delivered (normalForm events) := by
  have lawful :=
    lawful_of_read nested named (shallow_unlimited 0 events) written ended
  have delivered :=
    delivered_unlimited (nested_normalForm nested) lawful
      (normalForm_normalForm events ▸ written)
  rwa [normalForm_normalForm] at delivered

/-- Events with names are lawful exactly if no start tag gives an attribute
twice. -/
theorem lawful_iff_nodup
    {events : List Event} (named : ∀ event ∈ events, event.Named) :
    (∀ event ∈ events, event.Lawful) ↔
      ∀ tag ∈ tags events, (tag.2.map Prod.fst).Nodup := by
  induction events with
  | nil => exact iff_of_true (List.forall_mem_nil _) (List.forall_mem_nil _)
  | cons event rest ih =>
      rw [List.forall_mem_cons] at named
      rw [List.forall_mem_cons, tags_cons, List.forall_mem_append,
        ih named.2]
      apply and_congr_left'
      cases event with
      | start name attributes empty =>
          refine Iff.trans ?_ List.forall_mem_singleton.symm
          exact
            ⟨fun lawful => lawful.2.2,
              fun distinct => ⟨named.1.1, named.1.2, distinct⟩⟩
      | comment content => exact iff_of_true named.1 (List.forall_mem_nil _)
      | finish _ | text _ | characterData _ =>
          exact iff_of_true trivial (List.forall_mem_nil _)

/-- What is written for nested events can be read exactly if no start tag gives
an attribute twice, unless it is too large or nested too deep. -/
theorem readable_iff_nodup
    {events : List Event} (nested : Nested [] events)
    (named : ∀ event ∈ events, event.Named) {limits : Limits}
    (shallow : Shallow limits.depth 0 events) {text : String}
    (written : text = String.ofList (markupAll (normalForm events)))
    (small : 0 < limits.size → text.utf8ByteSize ≤ limits.size) :
    (∃ place, (read limits text).ending = .ok place) ↔
      ∀ tag ∈ tags events, (tag.2.map Prod.fst).Nodup := by
  rw [← lawful_iff_nodup named]
  constructor
  · rintro ⟨place, ended⟩
    have lawful := lawful_of_read nested named shallow written ended
    rwa [lawful_iff_nodup (named_normalForm named), tags_normalForm,
      ← lawful_iff_nodup named] at lawful
  · intro lawful
    exact (delivered_of_shallow nested lawful shallow written small).1

end AmlExchange.Markup
