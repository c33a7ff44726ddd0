import AmlExchange.Markup.Escape
import AmlExchange.Markup.Event
import AmlExchange.Markup.Name
import AmlExchange.Proofs.Text.Marks

/-!
# Events as they are written

A writer does not tell all sequences of events apart: an element without
content is written in the short form, empty text leaves no trace, one text
after another is one text, and a section of unescaped text that holds an end
mark is written as several.  The normal form of a sequence is what is left of
it, and its markup is the text in which every event has a piece of its own.
-/

namespace AmlExchange.Markup

/-! ## Nesting -/

/-- The open elements after an event, the innermost first, if the event may
occur within those open before. -/
def Event.nest? (event : Event) (names : List String) :
    Option (List String) :=
  match event with
  | .start name _ empty => some (if empty then names else name :: names)
  | .finish name =>
      match names with
      | [] => none
      | top :: outer => if top = name then some outer else none
  | .text _ => if names.isEmpty then none else some names
  | .characterData _ | .comment _ => some names

theorem nest?_start
    {name : String} {attributes : List (String × String)} {empty : Bool}
    {names : List String} :
    (Event.start name attributes empty).nest? names =
      some (if empty then names else name :: names) :=
  rfl

/-- An end tag ends the innermost open element. -/
theorem nest?_finish
    {name : String} {names next : List String} :
    (Event.finish name).nest? names = some next ↔ names = name :: next := by
  cases names with
  | nil => simp [Event.nest?]
  | cons top outer =>
      simp only [Event.nest?, List.cons.injEq]
      split_ifs with same <;> simp [same]

/-- Text occurs within elements only. -/
theorem nest?_text
    {content : String} {names next : List String} :
    (Event.text content).nest? names = some next ↔
      names ≠ [] ∧ next = names := by
  cases names <;> simp [Event.nest?, eq_comm]

/-- Whether events may occur within some open elements and end all of
them. -/
def Nested (names : List String) (events : List Event) : Prop :=
  events.foldlM (fun names event => event.nest? names) names = some []

theorem nested_nil
    {names : List String} :
    Nested names [] ↔ names = [] := by
  simp [Nested]

theorem nested_cons
    {names : List String} {event : Event} {events : List Event} :
    Nested names (event :: events) ↔
      ∃ next, event.nest? names = some next ∧ Nested next events := by
  simp [Nested, Option.bind_eq_some_iff]

/-- What markup asks of one event: names that are names, distinct names of
attributes, and no end mark within a comment. -/
def Event.Lawful : Event → Prop
  | .start name attributes _ =>
      isName name.toList = true ∧
        (∀ field ∈ attributes, isName field.1.toList = true) ∧
        (attributes.map Prod.fst).Nodup
  | .comment content => ¬ "-->".toList <:+: content.toList
  | .finish _ | .text _ | .characterData _ => True

/-! ## Sections of unescaped text -/

/-- The sections that a text is written in, so that no end mark stands within
one: each end mark is divided before its last character. -/
def sections (content : List Char) : List (List Char) :=
  match _ : Text.cutAt? "]]>".toList content with
  | none => [content]
  | some (before, after) => (before ++ "]]".toList) :: sections ('>' :: after)
termination_by content.length
decreasing_by
  have divided := Text.cutAt?_eq_some ‹_›
  simp [divided]
  omega

/-- The sections of a text, one after the other, are that text. -/
theorem flatten_sections
    (content : List Char) :
    (sections content).flatten = content := by
  fun_induction sections content with
  | case1 => simp
  | case2 content before after found ih =>
      rw [List.flatten_cons, ih, Text.cutAt?_eq_some found]
      simp

/-- No section holds an end mark. -/
theorem not_infix_of_mem_sections
    {content part : List Char}
    (member : part ∈ sections content) :
    ¬ "]]>".toList <:+: part := by
  fun_induction sections content with
  | case1 content absent =>
      rw [List.mem_singleton.mp member]
      exact Text.cutAt?_eq_none_iff.mp absent
  | case2 content before after found ih =>
      rcases List.mem_cons.mp member with rfl | member
      · exact @Text.not_infix_of_cutAt? _ _ _ "]]".toList '>' found
      · exact ih member

theorem sections_ne_nil
    (content : List Char) :
    sections content ≠ [] := by
  rw [sections]
  split <;> simp

/-! ## The normal form -/

/-- The events of the sections that a text is written in. -/
def sectionEvents (content : String) : List Event :=
  (sections content.toList).map fun part =>
    .characterData (String.ofList part)

/-- An event put before events in normal form. -/
def Event.before (event : Event) (following : List Event) : List Event :=
  match event, following with
  | .text content, following =>
      if content.isEmpty then following
      else
        match following with
        | .text more :: rest => .text (content ++ more) :: rest
        | _ => .text content :: following
  | .characterData content, following => sectionEvents content ++ following
  | .start name attributes false, .finish _ :: rest =>
      .start name attributes true :: rest
  | _, _ => event :: following

/-- The normal form of a sequence of events. -/
def normalForm (events : List Event) : List Event :=
  events.foldr Event.before []

@[simp]
theorem normalForm_nil :
    normalForm [] = [] :=
  rfl

theorem normalForm_cons
    (event : Event) (events : List Event) :
    normalForm (event :: events) = event.before (normalForm events) :=
  rfl

/-! ## What the normal form keeps -/

/-- What holds of events holds with the sections of a text before them if one
more section does not matter. -/
theorem append_sectionEvents
    {motive : List Event → Prop} (content : String) {events : List Event}
    (base : motive events)
    (step : ∀ part rest, ¬ "]]>".toList <:+: part.toList →
      motive rest → motive (.characterData part :: rest)) :
    motive (sectionEvents content ++ events) := by
  have each :
      ∀ part ∈ sections content.toList,
        ¬ "]]>".toList <:+: (String.ofList part).toList := by
    intro part member
    simpa using not_infix_of_mem_sections member
  unfold sectionEvents
  generalize sections content.toList = parts at each
  induction parts with
  | nil => exact base
  | cons part rest ih =>
      rw [List.forall_mem_cons] at each
      exact step _ _ each.1 (ih each.2)

theorem nested_sectionEvents
    (content : String) {names : List String} {events : List Event}
    (nested : Nested names events) :
    Nested names (sectionEvents content ++ events) := by
  apply append_sectionEvents (motive := Nested names) content nested
  intro part rest _ following
  exact nested_cons.mpr ⟨names, rfl, following⟩

theorem nested_before
    {event : Event} {following : List Event} {names next : List String}
    (fits : event.nest? names = some next)
    (nested : Nested next following) :
    Nested names (event.before following) := by
  unfold Event.before
  split
  · next following content =>
      obtain ⟨-, rfl⟩ := nest?_text.mp fits
      split
      · exact nested
      · split
        · next more rest =>
            obtain ⟨after, fitsMore, nestedRest⟩ := nested_cons.mp nested
            exact nested_cons.mpr ⟨after, fitsMore, nestedRest⟩
        · exact nested_cons.mpr ⟨_, fits, nested⟩
  · next following content =>
      cases fits
      exact nested_sectionEvents content nested
  · next name attributes other rest =>
      cases fits
      obtain ⟨after, fitsEnd, nestedRest⟩ := nested_cons.mp nested
      obtain ⟨-, rfl⟩ := List.cons.inj (nest?_finish.mp fitsEnd)
      exact nested_cons.mpr ⟨_, nest?_start, nestedRest⟩
  · exact nested_cons.mpr ⟨_, fits, nested⟩

/-- The normal form of nested events is nested in the same way. -/
theorem nested_normalForm
    {names : List String} {events : List Event}
    (nested : Nested names events) :
    Nested names (normalForm events) := by
  induction events generalizing names with
  | nil => exact nested
  | cons event rest ih =>
      obtain ⟨next, fits, nestedRest⟩ := nested_cons.mp nested
      exact nested_before fits (ih nestedRest)

section

variable
  {holds : Event → Prop}
  (texts : ∀ content, holds (.text content))
  (sections : ∀ content, holds (.characterData content))
  (tags : ∀ name attributes,
    holds (.start name attributes false) →
      holds (.start name attributes true))

include texts sections tags

theorem forall_mem_before
    {event : Event} {following : List Event} (first : holds event)
    (others : ∀ other ∈ following, holds other) :
    ∀ other ∈ event.before following, holds other := by
  unfold Event.before
  split
  · split
    · exact others
    · split
      · rw [List.forall_mem_cons] at others ⊢
        exact ⟨texts _, others.2⟩
      · exact List.forall_mem_cons.mpr ⟨first, others⟩
  · rw [List.forall_mem_append]
    refine ⟨?_, others⟩
    simp only [sectionEvents, List.forall_mem_map]
    exact fun part _ => sections _
  · rw [List.forall_mem_cons] at others ⊢
    exact ⟨tags _ _ first, others.2⟩
  · exact List.forall_mem_cons.mpr ⟨first, others⟩

/-- What holds of all texts, and of an empty tag if it holds of the start tag,
holds of the normal form if it holds of the events. -/
theorem forall_mem_normalForm
    {events : List Event} (all : ∀ event ∈ events, holds event) :
    ∀ event ∈ normalForm events, holds event := by
  induction events with
  | nil => exact List.forall_mem_nil _
  | cons event rest ih =>
      rw [List.forall_mem_cons] at all
      exact forall_mem_before texts sections tags all.1 (ih all.2)

end

theorem lawful_normalForm
    {events : List Event}
    (lawful : ∀ event ∈ events, event.Lawful) :
    ∀ event ∈ normalForm events, event.Lawful :=
  forall_mem_normalForm (fun _ => trivial) (fun _ => trivial)
    (fun _ _ tag => tag) lawful

/-- An event that leaves a trace of its own: text that is not empty, unescaped
text without an end mark, or any other event. -/
def Event.Settled : Event → Prop
  | .text content => content ≠ ""
  | .characterData content => ¬ "]]>".toList <:+: content.toList
  | _ => True

/-- Whether an event is text. -/
def Event.isText : Event → Bool
  | .text _ => true
  | _ => false

/-- Whether every event leaves a trace of its own, and no text follows
another. -/
def Settled : List Event → Prop
  | [] => True
  | event :: rest =>
      event.Settled ∧
        (event.isText = true →
          ∀ next ∈ rest.head?, next.isText = false) ∧
        Settled rest

theorem settled_sectionEvents
    (content : String) {events : List Event}
    (settled : Settled events) :
    Settled (sectionEvents content ++ events) := by
  apply append_sectionEvents (motive := Settled) content settled
  intro part rest absent following
  exact ⟨absent, nofun, following⟩

theorem settled_before
    {event : Event} {following : List Event}
    (settled : Settled following) :
    Settled (event.before following) := by
  unfold Event.before
  split
  · next following content =>
      split
      · exact settled
      · next written =>
          have nonempty : content ≠ "" := by simpa using written
          split
          · next more rest =>
              refine ⟨?_, settled.2.1, settled.2.2⟩
              simp [Event.Settled, nonempty]
          · next other =>
              refine ⟨nonempty, ?_, settled⟩
              rintro - next first
              obtain ⟨rest, rfl⟩ := List.head?_eq_some_iff.mp first
              cases next with
              | text more => exact (other more rest rfl).elim
              | _ => rfl
  · exact settled_sectionEvents _ settled
  · exact ⟨trivial, nofun, settled.2.2⟩
  · next noText noData noEmpty =>
      cases event with
      | text content => exact absurd rfl (noText content)
      | characterData content => exact absurd rfl (noData content)
      | _ => exact ⟨trivial, nofun, settled⟩

/-- In normal form every event leaves a trace of its own. -/
theorem settled_normalForm
    (events : List Event) :
    Settled (normalForm events) := by
  induction events with
  | nil => trivial
  | cons event rest ih => exact settled_before ih

/-! ## Depth -/

/-- Whether an event begins an element that stays open. -/
def Event.opens : Event → Bool
  | .start _ _ empty => !empty
  | _ => false

theorem unopened
    {event : Event} {claim : Prop} (shut : event.opens = false) :
    event.opens = true → claim :=
  fun opens => absurd (shut.symm.trans opens) Bool.false_ne_true

/-- The number of open elements after an event. -/
def Event.level (level : Nat) : Event → Nat
  | .start _ _ false => level + 1
  | .finish _ => level - 1
  | _ => level

/-- Whether no more elements are open at a time than a depth allows.  Zero is
no bound. -/
def Shallow (depth : Nat) : Nat → List Event → Prop
  | _, [] => True
  | level, event :: rest =>
      (event.opens = true → 0 < depth → level < depth) ∧
        Shallow depth (event.level level) rest

theorem length_of_nest?
    {event : Event} {names next : List String}
    (fits : event.nest? names = some next) :
    next.length = event.level names.length := by
  cases event with
  | start name attributes empty =>
      cases fits
      cases empty <;> rfl
  | finish name =>
      rw [nest?_finish.mp fits]
      rfl
  | text content =>
      obtain ⟨-, rfl⟩ := nest?_text.mp fits
      rfl
  | characterData content | comment content =>
      cases fits
      rfl

theorem shallow_unlimited
    (level : Nat) (events : List Event) :
    Shallow 0 level events := by
  induction events generalizing level with
  | nil => trivial
  | cons event rest ih => exact ⟨fun _ => nofun, ih _⟩

theorem shallow_sectionEvents
    {depth level : Nat} {events : List Event}
    (shallow : Shallow depth level events) (content : String) :
    Shallow depth level (sectionEvents content ++ events) := by
  apply append_sectionEvents (motive := Shallow depth level) content shallow
  intro part rest _ following
  exact ⟨nofun, following⟩

theorem shallow_before
    {depth level : Nat} {event : Event} {following : List Event}
    (shallow : Shallow depth level (event :: following)) :
    Shallow depth level (event.before following) := by
  unfold Event.before
  split
  · split
    · exact shallow.2
    · split
      · exact ⟨nofun, shallow.2.2⟩
      · exact shallow
  · exact shallow_sectionEvents shallow.2 _
  · exact ⟨nofun, shallow.2.2⟩
  · exact shallow

/-- In normal form no more elements are open at a time than before. -/
theorem shallow_normalForm
    {depth level : Nat} {events : List Event}
    (shallow : Shallow depth level events) :
    Shallow depth level (normalForm events) := by
  induction events generalizing level with
  | nil => trivial
  | cons event rest ih => exact shallow_before ⟨shallow.1, ih shallow.2⟩

/-! ## Normal forms of normal forms -/

/-- Whether every element without content is written in the short form. -/
def Short : List Event → Prop
  | [] => True
  | event :: rest =>
      (event.opens = true → ∀ next ∈ rest.head?, ∀ name,
          next ≠ .finish name) ∧
        Short rest

theorem short_sectionEvents
    {events : List Event} (short : Short events) (content : String) :
    Short (sectionEvents content ++ events) := by
  apply append_sectionEvents (motive := Short) content short
  intro part rest _ following
  exact ⟨nofun, following⟩

theorem short_before
    {following : List Event} (short : Short following) (event : Event) :
    Short (event.before following) := by
  unfold Event.before
  split
  · split
    · exact short
    · split
      · exact ⟨nofun, short.2⟩
      · exact ⟨nofun, short⟩
  · exact short_sectionEvents short _
  · exact ⟨nofun, short.2⟩
  · next noText noData noEmpty =>
      refine ⟨?_, short⟩
      intro opens next first name same
      obtain ⟨rest, rfl⟩ := List.head?_eq_some_iff.mp first
      subst same
      cases event with
      | start name' attributes empty =>
          cases empty with
          | false => exact noEmpty name' attributes name rest rfl rfl
          | true => cases opens
      | _ => cases opens

theorem short_normalForm
    (events : List Event) :
    Short (normalForm events) := by
  induction events with
  | nil => trivial
  | cons event rest ih => exact short_before ih event

theorem sectionEvents_of_settled
    {content : String} (settled : (Event.characterData content).Settled) :
    sectionEvents content = [.characterData content] := by
  rw [sectionEvents, sections]
  split
  · rw [List.map_singleton, String.ofList_toList]
  · next found =>
      refine absurd ?_ settled
      exact ⟨_, _, (Text.cutAt?_eq_some found).symm⟩

theorem before_of_settled
    {event : Event} {following : List Event}
    (settled : Settled (event :: following))
    (short : Short (event :: following)) :
    event.before following = event :: following := by
  unfold Event.before
  split
  · next following content =>
      have written : content ≠ "" := settled.1
      rw [if_neg (by simpa using written)]
      split
      · next more rest => cases settled.2.1 rfl _ rfl
      · rfl
  · rw [sectionEvents_of_settled settled.1]
    rfl
  · next name attributes other rest =>
      exact absurd rfl (short.1 rfl _ rfl other)
  · rfl

/-- A normal form is its own normal form. -/
theorem normalForm_of_settled
    {events : List Event} (settled : Settled events) (short : Short events) :
    normalForm events = events := by
  induction events with
  | nil => rfl
  | cons event rest ih =>
      rw [normalForm_cons, ih settled.2.2 short.2,
        before_of_settled settled short]

theorem normalForm_normalForm
    (events : List Event) :
    normalForm (normalForm events) = normalForm events :=
  normalForm_of_settled (settled_normalForm events) (short_normalForm events)

theorem head?_sectionEvents
    (content : String) (events : List Event) :
    ∃ part,
      (sectionEvents content ++ events).head? = some (.characterData part) := by
  rw [sectionEvents]
  cases parts : sections content.toList with
  | nil => exact absurd parts (sections_ne_nil _)
  | cons part rest => exact ⟨_, rfl⟩

/-- What does not begin with text does not do so in normal form. -/
theorem head?_normalForm
    {events : List Event}
    (noText : ∀ event ∈ events.head?, event.isText = false) :
    ∀ event ∈ (normalForm events).head?, event.isText = false := by
  cases events with
  | nil => exact nofun
  | cons event rest =>
      have other : event.isText = false := noText event rfl
      rw [normalForm_cons]
      unfold Event.before
      split
      · cases other
      · next content following =>
          obtain ⟨part, first⟩ := head?_sectionEvents _ _
          rw [first]
          rintro _ ⟨⟩
          rfl
      · rintro _ ⟨⟩
        rfl
      · rintro _ ⟨⟩
        exact other

theorem before_start_eq_cons
    {name other : String} {attributes fields : List (String × String)}
    {empty : Bool} {following rest : List Event}
    (same :
      (Event.start name attributes empty).before following =
        .start other fields empty :: rest) :
    Event.start name attributes empty = .start other fields empty ∧
      following = rest := by
  cases empty with
  | true => exact List.cons.inj same
  | false =>
      cases following with
      | nil => exact List.cons.inj same
      | cons next others =>
          cases next with
          | finish closing => cases same
          | _ => exact List.cons.inj same

theorem before_text_eq_cons
    {content other : String} {following rest : List Event}
    (noText : ∀ event ∈ following.head?, event.isText = false)
    (same : (Event.text content).before following = .text other :: rest) :
    Event.text content = .text other ∧ following = rest := by
  have apart :
      (Event.text content).before following =
        if content.isEmpty then following
        else .text content :: following := by
    cases following with
    | nil => rfl
    | cons next others =>
        cases next with
        | text more => cases noText _ rfl
        | _ => rfl
  rw [apart] at same
  split at same
  · rw [same] at noText
    cases noText _ rfl
  · exact List.cons.inj same

/-- The names and attributes of the elements, in order. -/
def tags (events : List Event) : List (String × List (String × String)) :=
  events.filterMap fun
    | .start name attributes _ => some (name, attributes)
    | _ => none

theorem tags_append
    (first second : List Event) :
    tags (first ++ second) = tags first ++ tags second :=
  List.filterMap_append

theorem tags_cons
    (event : Event) (events : List Event) :
    tags (event :: events) = tags [event] ++ tags events :=
  tags_append [event] events

theorem tags_sectionEvents
    (content : String) :
    tags (sectionEvents content) = [] := by
  rw [tags, List.filterMap_eq_nil_iff]
  intro event member
  obtain ⟨part, -, rfl⟩ := List.mem_map.mp member
  rfl

theorem tags_before
    (event : Event) (following : List Event) :
    tags (event.before following) = tags (event :: following) := by
  unfold Event.before
  split
  · split
    · rfl
    · split <;> rfl
  · rw [tags_append, tags_sectionEvents]
    rfl
  · rfl
  · rfl

/-- The normal form keeps the names and attributes of the elements. -/
theorem tags_normalForm
    (events : List Event) :
    tags (normalForm events) = tags events := by
  induction events with
  | nil => rfl
  | cons event rest ih =>
      rw [normalForm_cons, tags_before, tags_cons, ih, ← tags_cons]

end AmlExchange.Markup
