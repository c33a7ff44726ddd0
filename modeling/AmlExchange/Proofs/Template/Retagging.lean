import AmlExchange.Proofs.Template.Unbound

/-!
# What date ranges change

Where values stay as they are, filling a template still sets the conditions of
the elements that hold a date range, and the texts that follow their start
tags.  So a template is written as it is exactly if each of these is already
what the range makes of it (`refilledAll_eq_iff`).
-/

namespace AmlExchange.Template

open Markup (Event Nested normalForm tags)

/-! ## Start tags -/

namespace Walk

/-- Whether a start tag keeps its attributes. -/
def Kept (attributes : List (String × String)) : Prop :=
  retagged attributes attributes = attributes

theorem kept_of_absent
    {attributes : List (String × String)}
    (absent : ∀ field ∈ attributes,
      Markup.localName field.1 ≠ AttributeName.origDateRange) :
    Kept attributes :=
  retagged_of_absent absent attributes

theorem names_changeFirst
    (name : String) (change : String → String)
    (attributes : List (String × String)) :
    (changeFirst name change attributes).map Prod.fst =
      attributes.map Prod.fst := by
  induction attributes with
  | nil => rfl
  | cons field rest ih =>
      obtain ⟨other, value⟩ := field
      rw [changeFirst]
      split
      · rfl
      · rw [List.map_cons, ih, List.map_cons]

theorem areFields_of_names
    {first second : List (String × String)}
    (same : second.map Prod.fst = first.map Prod.fst)
    (fields : Markup.Reader.AreFields first) :
    Markup.Reader.AreFields second := by
  refine ⟨?_, same ▸ fields.2⟩
  intro field member
  have known : field.1 ∈ first.map Prod.fst :=
    same ▸ List.mem_map_of_mem member
  obtain ⟨other, within, named⟩ := List.mem_map.mp known
  rw [← named]
  exact fields.1 other within

theorem isName_condition :
    Markup.isName AttributeName.condition.toList = true := by
  decide

/-- The condition that a date range adds to a start tag is no repetition. -/
theorem areFields_retagged
    {rendered : List (String × String)}
    (fields : Markup.Reader.AreFields rendered)
    (source : List (String × String)) :
    Markup.Reader.AreFields (retagged source rendered) := by
  rw [retagged]
  split
  · next range found =>
      rw [withRange]
      split
      · exact areFields_of_names (names_changeFirst ..) fields
      · next unnamed =>
          apply Markup.Reader.areFields_append fields
          · exact isName_condition
          · intro member
            obtain ⟨field, within, same⟩ := List.mem_map.mp member
            apply unnamed
            refine List.any_eq_true.mpr ⟨field, within, ?_⟩
            rw [isNamed, same]
            decide
  · exact fields

theorem lawful_retagged
    {name : String} {attributes : List (String × String)} {empty : Bool}
    (lawful : (Event.start name attributes empty).Lawful) :
    (Event.start name (retagged attributes attributes) empty).Lawful :=
  ⟨lawful.1, areFields_retagged lawful.2 attributes⟩

theorem nested_refilledAll
    {names : List String} {events : List Event}
    (nested : Nested names events) (locale : Locale) (walk : Walk) :
    Nested names (walk.refilledAll locale events) := by
  induction events generalizing names walk with
  | nil => exact nested
  | cons event rest ih =>
      obtain ⟨next, fits, nestedRest⟩ := Markup.nested_cons.mp nested
      refine Markup.nested_cons.mpr ⟨next, ?_, ih nestedRest _⟩
      cases event with
      | text content =>
          obtain ⟨other, changed⟩ := refilled_text locale walk content
          rw [changed]
          exact fits
      | _ => exact fits

theorem lawful_refilledAll
    {events : List Event} (lawful : ∀ event ∈ events, event.Lawful)
    (locale : Locale) (walk : Walk) :
    ∀ event ∈ walk.refilledAll locale events, event.Lawful := by
  induction events generalizing walk with
  | nil => exact List.forall_mem_nil _
  | cons event rest ih =>
      rw [List.forall_mem_cons] at lawful
      rw [refilledAll, List.forall_mem_cons]
      refine ⟨?_, ih lawful.2 _⟩
      cases event with
      | start name attributes empty => exact lawful_retagged lawful.1
      | text content =>
          obtain ⟨other, changed⟩ := refilled_text locale walk content
          rw [changed]
          trivial
      | _ => exact lawful.1

/-! ## Texts -/

/-- Whether each text after a date range and before the next start tag is what
the range comes to, or spacing. -/
def Agrees (locale : Locale) (range : Option DateRange.Dynamic) :
    List Event → Prop
  | [] => True
  | .start _ attributes _ :: rest => Agrees locale (rangeOf attributes) rest
  | .text content :: rest =>
      (Markup.isSpaced content = true ∨
          ∀ given ∈ range, content = locale.format (.dynamicRange given)) ∧
        Agrees locale range rest
  | _ :: rest => Agrees locale range rest

theorem range_past
    (walk : Walk) (name : String) (attributes : List (String × String))
    (empty : Bool) :
    (walk.past (.start name attributes empty)).range =
      rangeOf attributes := by
  rw [past, enter]
  cases empty <;> rfl

theorem refilled_start_eq_iff
    (locale : Locale) (walk : Walk) (name : String)
    (attributes : List (String × String)) (empty : Bool) :
    walk.refilled locale (.start name attributes empty) =
        .start name attributes empty ↔
      Kept attributes := by
  rw [refilled, Event.start.injEq, Kept]
  exact ⟨fun same => same.2.1, fun same => ⟨rfl, same, rfl⟩⟩

theorem refilled_text_eq_iff
    (locale : Locale) (walk : Walk) (content : String) :
    walk.refilled locale (.text content) = .text content ↔
      Markup.isSpaced content = true ∨
        ∀ given ∈ walk.range,
          content = locale.format (.dynamicRange given) := by
  rw [refilled]
  cases walk.range with
  | none =>
      refine ⟨fun _ => .inr ?_, fun _ => rfl⟩
      intro given member
      cases member
  | some range =>
      by_cases spaced : Markup.isSpaced content = true
      · simp [spaced]
      · simp [spaced, eq_comm]

/-- Events stay as they are exactly if their start tags and their texts do. -/
theorem refilledAll_eq_iff
    {locale : Locale} {walk : Walk} {events : List Event} :
    walk.refilledAll locale events = events ↔
      Agrees locale walk.range events ∧ ∀ tag ∈ tags events, Kept tag.2 := by
  induction events generalizing walk with
  | nil =>
      exact ⟨fun _ => ⟨trivial, List.forall_mem_nil _⟩, fun _ => rfl⟩
  | cons event rest ih =>
      rw [refilledAll, List.cons.injEq, ih, Markup.tags_cons,
        List.forall_mem_append]
      cases event with
      | start name attributes empty =>
          have tag :
              (∀ tag ∈ tags [.start name attributes empty], Kept tag.2) ↔
                Kept attributes :=
            List.forall_mem_singleton
          rw [refilled_start_eq_iff, range_past, tag]
          exact and_left_comm
      | text content =>
          rw [refilled_text_eq_iff]
          constructor
          · rintro ⟨told, agrees, kept⟩
            exact ⟨⟨told, agrees⟩, List.forall_mem_nil _, kept⟩
          · rintro ⟨⟨told, agrees⟩, -, kept⟩
            exact ⟨told, agrees, kept⟩
      | finish name | characterData content | comment content =>
          constructor
          · rintro ⟨-, agrees, kept⟩
            exact ⟨agrees, List.forall_mem_nil _, kept⟩
          · rintro ⟨agrees, -, kept⟩
            exact ⟨rfl, agrees, kept⟩

theorem isText_refilledAll
    {events : List Event}
    (noText : ∀ event ∈ events.head?, event.isText = false)
    (locale : Locale) (walk : Walk) :
    ∀ event ∈ (walk.refilledAll locale events).head?,
      event.isText = false := by
  cases events with
  | nil =>
      intro event first
      cases first
  | cons event rest =>
      have other : event.isText = false := noText event rfl
      rintro _ ⟨⟩
      cases event with
      | text content => cases other
      | _ => rfl

/-- Where the normal form of what is written is what was there, nothing has
changed: the normal form would have hidden only a text that became empty. -/
theorem refilledAll_eq_of_normalForm
    {locale : Locale} {walk : Walk} {events : List Event}
    (settled : Markup.Settled events)
    (same : normalForm (walk.refilledAll locale events) = events) :
    walk.refilledAll locale events = events := by
  induction events generalizing walk with
  | nil => rfl
  | cons event rest ih =>
      rw [refilledAll, Markup.normalForm_cons] at same
      rw [refilledAll]
      cases event with
      | start name attributes empty =>
          obtain ⟨tag, others⟩ := Markup.before_start_eq_cons same
          exact congrArg₂ List.cons tag (ih settled.2.2 others)
      | text content =>
          obtain ⟨other, changed⟩ := refilled_text locale walk content
          have noText :=
            Markup.head?_normalForm
              (isText_refilledAll (settled.2.1 rfl) locale
                (walk.past (.text content)))
          rw [changed] at same ⊢
          obtain ⟨first, others⟩ := Markup.before_text_eq_cons noText same
          exact congrArg₂ List.cons first (ih settled.2.2 others)
      | finish name =>
          obtain ⟨-, others⟩ := List.cons.inj same
          exact congrArg (List.cons _) (ih settled.2.2 others)
      | comment content =>
          obtain ⟨-, others⟩ := List.cons.inj same
          exact congrArg (List.cons _) (ih settled.2.2 others)
      | characterData content =>
          have single := Markup.sectionEvents_of_settled settled.1
          have shape :
              Markup.sectionEvents content ++
                  normalForm
                    (refilledAll locale (walk.past (.characterData content))
                      rest) =
                .characterData content :: rest :=
            same
          rw [single] at shape
          obtain ⟨-, others⟩ := List.cons.inj shape
          exact congrArg (List.cons _) (ih settled.2.2 others)

theorem agrees_text
    {locale : Locale} {events : List Event}
    (agrees : Agrees locale none events) (content : String) :
    Agrees locale none (.text content :: events) :=
  ⟨.inr fun _ given => absurd given (Option.not_mem_none _), agrees⟩

/-- Whether no text but spacing stands before the next start tag. -/
def Quiet : List Event → Prop
  | [] => True
  | .start .. :: _ => True
  | .text content :: rest => Markup.isSpaced content = true ∧ Quiet rest
  | _ :: rest => Quiet rest

theorem agrees_of_quiet
    {locale : Locale} {events : List Event} (quiet : Quiet events)
    {before : Option DateRange.Dynamic}
    (agrees : Agrees locale before events)
    (range : Option DateRange.Dynamic) :
    Agrees locale range events := by
  induction events with
  | nil => trivial
  | cons event rest ih =>
      cases event with
      | start name attributes empty => exact agrees
      | text content => exact ⟨.inl quiet.1, ih quiet.2 agrees.2⟩
      | finish name | characterData content | comment content =>
          exact ih quiet agrees

theorem agrees_sectionEvents
    {locale : Locale} {range : Option DateRange.Dynamic}
    {content : String} {events : List Event}
    (agrees : Agrees locale range (.characterData content :: events)) :
    Agrees locale range (Markup.sectionEvents content ++ events) :=
  Markup.append_sectionEvents (motive := Agrees locale range) content agrees
    fun _ _ _ following => following

theorem quiet_sectionEvents
    {content : String} {events : List Event}
    (quiet : Quiet (.characterData content :: events)) :
    Quiet (Markup.sectionEvents content ++ events) :=
  Markup.append_sectionEvents (motive := Quiet) content quiet
    fun _ _ _ following => following

theorem agrees_before
    {locale : Locale} {event : Event} {following : List Event}
    (agrees : Agrees locale none (event :: following)) :
    Agrees locale none (event.before following) := by
  unfold Event.before
  split
  · split
    · exact agrees.2
    · split
      · exact agrees_text agrees.2.2 _
      · exact agrees
  · exact agrees_sectionEvents agrees
  · exact agrees
  · exact agrees

theorem quiet_before
    {event : Event} {following : List Event}
    (quiet : Quiet (event :: following)) :
    Quiet (event.before following) := by
  unfold Event.before
  split
  · split
    · exact quiet.2
    · split
      · refine ⟨?_, quiet.2.2⟩
        simp only [Markup.isSpaced, String.toList_append, List.all_append,
          Bool.and_eq_true]
        exact ⟨quiet.1, quiet.2.1⟩
      · exact quiet
  · exact quiet_sectionEvents quiet
  · trivial
  · exact quiet

theorem quiet_normalForm
    {events : List Event} (quiet : Quiet events) :
    Quiet (normalForm events) := by
  induction events with
  | nil => trivial
  | cons event rest ih =>
      apply quiet_before
      cases event with
      | start name attributes empty => trivial
      | text content => exact ⟨quiet.1, ih quiet.2⟩
      | finish name | characterData content | comment content => exact ih quiet

end Walk

end AmlExchange.Template
