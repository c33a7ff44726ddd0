import AmlExchange.Proofs.Markup.Nesting
import AmlExchange.Proofs.Markup.Spelling

/-!
# The bounds of a reader

The bounds of a reader do nothing but refuse a text: what is read within them
is what is read without (`delivered_iff`).  An empty tag opens no element, so
that it may stand one level deeper than a start tag.  A text that has some of
its empty tags written as two keeps the bound exactly if the text itself does
and these elements have room to be open (`shallow_respelledEvents_iff`).
-/

namespace AmlExchange.Markup

open Text (Position)

namespace Reader

/-! ## Reading under another bound -/

/-- A reader with another bound for the number of open elements. -/
def bounded (reader : Reader) (depth : Nat) : Reader :=
  { reader with depth }

/-- A step of a reader with another bound. -/
def Step.bounded (depth : Nat) : Step → Step
  | .ended => .ended
  | .skipped next => .skipped (next.bounded depth)
  | .delivered event next => .delivered event (next.bounded depth)

/-- Whether a step has room under a bound. -/
def Allows (reader : Reader) (depth : Nat) : Step → Prop
  | .delivered event _ => event.opens = true → (reader.bounded depth).HasRoom
  | .ended | .skipped _ => True

section

variable (reader : Reader) (depth : Nat)

@[simp]
theorem input_bounded :
    (reader.bounded depth).input = reader.input :=
  rfl

@[simp]
theorem openNames_bounded :
    (reader.bounded depth).openNames = reader.openNames :=
  rfl

theorem endTag_bounded :
    (reader.bounded depth).endTag =
      reader.endTag.map (Step.bounded depth) := by
  rw [endTag, endTag, input_bounded, openNames_bounded]
  simp only [bind, Except.bind]
  split
  · rfl
  · split
    · rfl
    · split
      · rfl
      · split <;> rfl

theorem characters_bounded :
    (reader.bounded depth).characters =
      reader.characters.map (Step.bounded depth) := by
  rw [characters, characters, input_bounded, openNames_bounded]
  simp only [bind, Except.bind]
  split
  · rfl
  · split_ifs <;> rfl

theorem declared_bounded :
    (reader.bounded depth).declared =
      reader.declared.map (Step.bounded depth) := by
  rw [declared, declared, input_bounded]
  simp only [bind, Except.bind]
  split_ifs
  all_goals split <;> rfl

theorem instruction_bounded :
    (reader.bounded depth).instruction =
      reader.instruction.map (Step.bounded depth) := by
  rw [instruction, instruction, input_bounded]
  simp only [bind, Except.bind]
  split <;> rfl

end

section

variable {reader : Reader} {depth : Nat} {step : Step}

theorem eq_of_leads
    {input next other : Input} {stretch : List Char}
    (leads : Input.Leads input next stretch)
    (leadsOther : Input.Leads input other stretch) :
    next = other := by
  obtain ⟨rest, place⟩ := next
  obtain ⟨otherRest, otherPlace⟩ := other
  have sameRest :=
    List.append_cancel_left (leads.1.symm.trans leadsOther.1)
  have samePlace := leads.2.trans leadsOther.2.symm
  rw [Input.mk.injEq]
  exact ⟨sameRest, samePlace⟩

/-- Only a start tag looks at the bound. -/
theorem startTag_bounded
    (read : reader.startTag = .ok step) (room : reader.Allows depth step) :
    (reader.bounded depth).startTag = .ok (step.bounded depth) := by
  rw [startTag_eq] at read ⊢
  rw [input_bounded]
  cases opened : opening reader.input with
  | error fault =>
      rw [opened] at read
      cases read
  | ok tag =>
      rw [opened] at read
      obtain ⟨empty, next, rfl, leads, -⟩ := mark_of_closeTag read
      have allowed : empty = false → (reader.bounded depth).HasRoom := by
        rintro rfl
        exact room rfl
      obtain ⟨other, again, -⟩ :=
        @closeTag_of_mark (reader.bounded depth) tag.1.1 tag.1.2 tag.2 empty
          allowed next.rest leads.1
      obtain ⟨_, _, same, leadsOther, -⟩ := mark_of_closeTag again
      cases same
      rw [← eq_of_leads leads leadsOther] at again
      exact again

/-- A step is the same under every bound that it has room under. -/
theorem step_bounded
    (read : reader.step = .ok step) (room : reader.Allows depth step) :
    (reader.bounded depth).step = .ok (step.bounded depth) := by
  unfold Reader.step at read ⊢
  rw [input_bounded, openNames_bounded]
  split at read
  · split at read
    · cases read
      rfl
    · cases read
  · rw [declared_bounded, read]
    rfl
  · rw [instruction_bounded, read]
    rfl
  · rw [endTag_bounded, read]
    rfl
  · exact startTag_bounded read room
  · rw [characters_bounded, read]
    rfl

end

/-- A run that has room under another bound is the same under it, if it comes
to the end of the text. -/
theorem run_bounded
    {reader : Reader} {depth : Nat} {place : Position}
    (ended : reader.run.ending = .ok place)
    (shallow : Shallow depth reader.openNames.length
      (reader.run.events.map Prod.fst)) :
    (reader.bounded depth).run = reader.run := by
  fun_induction Reader.run reader with
  | case1 => cases ended
  | case2 reader read =>
      rw [run_eq, step_bounded read trivial]
      rfl
  | case3 reader next read ih =>
      obtain ⟨same, -⟩ := fits_step read
      rw [← same] at shallow
      rw [run_eq, step_bounded read trivial]
      exact ih ended shallow
  | case4 reader event next read ih =>
      obtain ⟨fits, -⟩ := fits_step read
      obtain ⟨room, others⟩ := shallow
      rw [← length_of_nest? fits] at others
      rw [run_eq, step_bounded read room]
      exact congrArg (Stream.cons event next.input.place) (ih ended others)

end Reader

/-! ## Whole texts -/

/-- The bound on the size does not matter to a text that it allows. -/
theorem read_of_small
    {depth size other : Nat} {text : String}
    (small : 0 < size → text.utf8ByteSize ≤ size)
    (fits : 0 < other → text.utf8ByteSize ≤ other) :
    read ⟨depth, size⟩ text = read ⟨depth, other⟩ text := by
  have allowed {bound : Nat} (fits : 0 < bound → text.utf8ByteSize ≤ bound) :
      ¬ (0 < bound ∧ bound < text.utf8ByteSize) :=
    fun full => absurd (fits full.1) (Nat.not_le_of_lt full.2)
  rw [read, read, if_neg (allowed small), if_neg (allowed fits)]

theorem small_of_read
    {limits : Limits} {text : String} {place : Position}
    (ended : (read limits text).ending = .ok place) :
    0 < limits.size → text.utf8ByteSize ≤ limits.size := by
  intro bounded
  rw [read] at ended
  split at ended
  · cases ended
  · next allowed =>
      exact Nat.le_of_not_lt fun large => allowed ⟨bounded, large⟩

/-- The bound on the depth does not matter to a text that is read under
another one and keeps it. -/
theorem read_of_shallow
    {depth other : Nat} {text : String} {place : Position}
    (ended : (read ⟨depth, 0⟩ text).ending = .ok place)
    (shallow :
      Shallow other 0 ((read ⟨depth, 0⟩ text).events.map Prod.fst)) :
    read ⟨other, 0⟩ text = read ⟨depth, 0⟩ text := by
  have free (depth : Nat) :
      read ⟨depth, 0⟩ text = (Reader.mk depth (.ofText text) []).run :=
    if_neg fun full => absurd full.1 (Nat.lt_irrefl 0)
  rw [free] at ended shallow
  rw [free, free]
  exact Reader.run_bounded ended shallow

/-- A text that is read to its end keeps the bounds, and is read as without
any. -/
theorem within_of_ended
    {limits : Limits} {text : String} {place : Position}
    (ended : (read limits text).ending = .ok place) :
    Within limits text ∧ read limits text = read .unlimited text := by
  obtain ⟨depth, size⟩ := limits
  have small := small_of_read ended
  have shallow := shallow_read ⟨depth, size⟩ text
  have unsized : read ⟨depth, size⟩ text = read ⟨depth, 0⟩ text :=
    read_of_small small nofun
  rw [unsized] at ended shallow ⊢
  have same := read_of_shallow ended (shallow_unlimited 0 _)
  rw [← same] at shallow ⊢
  exact ⟨⟨small, shallow⟩, rfl⟩

/-- What is read within some bounds is what is read without, as far as the text
keeps them. -/
theorem delivered_iff
    {limits : Limits} {text : String} {events : List Event} :
    (read limits text).Delivered events ↔
      Within limits text ∧ (read .unlimited text).Delivered events := by
  constructor
  · rintro ⟨⟨place, ended⟩, delivered⟩
    obtain ⟨within, same⟩ := within_of_ended ended
    rw [same] at ended delivered
    exact ⟨within, ⟨place, ended⟩, delivered⟩
  · rintro ⟨within, ⟨place, ended⟩, delivered⟩
    obtain ⟨depth, size⟩ := limits
    have unsized : read ⟨depth, size⟩ text = read ⟨depth, 0⟩ text :=
      read_of_small within.small nofun
    rw [unsized, read_of_shallow ended within.shallow]
    exact ⟨⟨place, ended⟩, delivered⟩

/-! ## Room for empty tags -/

/-- Whether the chosen empty tags among some events stand within fewer open
elements than a depth. -/
def HaveRoom (depth : Nat) (chosen : Position → Bool)
    (events : List (Event × Position)) : Prop :=
  ∀ before name attributes place after,
    events = before ++ (.start name attributes true, place) :: after →
      chosen place = true → (openAfter (before.map Prod.fst)).length < depth

/-- As `HaveRoom`, event by event from a number of open elements on. -/
def RoomFrom (depth : Nat) (chosen : Position → Bool) :
    Nat → List (Event × Position) → Prop
  | _, [] => True
  | level, (event, place) :: rest =>
      (chosen place = true → event.tags ≠ [event] → level < depth) ∧
        RoomFrom depth chosen (event.level level) rest

section

variable {depth : Nat} {chosen : Position → Bool}
  {events : List (Event × Position)}

theorem length_openAfter
    (names : List String) (event : Event) :
    (event.openAfter names).length = event.level names.length := by
  cases event with
  | start name attributes empty => cases empty <;> rfl
  | finish name => exact List.length_tail
  | text content | characterData content | comment content => rfl

theorem tags_ne_iff
    {event : Event} :
    event.tags ≠ [event] ↔
      ∃ name attributes, event = .start name attributes true := by
  cases event with
  | start name attributes empty => cases empty <;> simp [Event.tags]
  | finish _ | text _ | characterData _ | comment _ => simp [Event.tags]

theorem roomFrom_iff
    (names : List String) :
    RoomFrom depth chosen names.length events ↔
      ∀ before name attributes place after,
        events = before ++ (.start name attributes true, place) :: after →
          chosen place = true →
            ((before.map Prod.fst).foldl Event.openAfter names).length <
              depth := by
  induction events generalizing names with
  | nil => simp [RoomFrom]
  | cons entry rest ih =>
      obtain ⟨event, place⟩ := entry
      rw [RoomFrom, ← length_openAfter, ih]
      constructor
      · rintro ⟨here, later⟩ before name attributes spot after parts
        cases before with
        | nil =>
            cases parts
            intro taken
            exact here taken (tags_ne_iff.mpr ⟨name, attributes, rfl⟩)
        | cons first before =>
            cases parts
            exact later before name attributes spot after rfl
      · intro whole
        refine ⟨?_, ?_⟩
        · intro taken empty
          obtain ⟨name, attributes, rfl⟩ := tags_ne_iff.mp empty
          exact whole [] name attributes place rest rfl taken
        · rintro before name attributes spot after rfl
          exact whole ((event, place) :: before) name attributes spot after rfl

theorem haveRoom_iff :
    HaveRoom depth chosen events ↔ RoomFrom depth chosen 0 events :=
  (roomFrom_iff []).symm

/-- Events with some of the empty tags written as two are as deep as the events
are, and these elements have to be open. -/
theorem shallow_respelledEvents_iff
    (bounded : 0 < depth) (level : Nat) :
    Shallow depth level (respelledEvents chosen events) ↔
      Shallow depth level (events.map Prod.fst) ∧
        RoomFrom depth chosen level events := by
  induction events generalizing level with
  | nil => simp [respelledEvents, Shallow, RoomFrom]
  | cons entry rest ih =>
      obtain ⟨event, place⟩ := entry
      rw [respelledEvents, List.map_cons, RoomFrom, Shallow]
      by_cases full : chosen place = true ∧ event.tags ≠ [event]
      · obtain ⟨taken, empty⟩ := full
        obtain ⟨name, attributes, rfl⟩ := tags_ne_iff.mp empty
        have opened :
            Shallow depth level
                ((Event.start name attributes true).tags ++
                  respelledEvents chosen rest) ↔
              level < depth ∧
                Shallow depth level (respelledEvents chosen rest) := by
          simp [Event.tags, Shallow, Event.opens, Event.level, bounded]
        rw [if_pos taken, opened, ih level]
        constructor
        · rintro ⟨room, shallow, others⟩
          have closed : (Event.start name attributes true).opens ≠ true :=
            Bool.false_ne_true
          exact
            ⟨⟨fun opens => absurd opens closed, shallow⟩, fun _ _ => room,
              others⟩
        · rintro ⟨⟨-, shallow⟩, room, others⟩
          exact ⟨room taken empty, shallow, others⟩
      · have alone :
            (if chosen place then event.tags else [event]) = [event] := by
          split
          · next taken => exact not_not.mp fun empty => full ⟨taken, empty⟩
          · rfl
        have none :
            chosen place = true → event.tags ≠ [event] → level < depth :=
          fun taken empty => absurd ⟨taken, empty⟩ full
        rw [alone, List.singleton_append, Shallow, ih]
        constructor
        · rintro ⟨room, shallow, others⟩
          exact ⟨⟨room, shallow⟩, none, others⟩
        · rintro ⟨⟨room, shallow⟩, -, others⟩
          exact ⟨room, shallow, others⟩

/-- A text with some of its empty tags written as two is read to its end if the
text itself is, these elements have room, and it is not too long. -/
theorem delivered_respell_iff
    {limits : Limits} (bounded : 0 < limits.depth) {text : String}
    {delivered : List Event} :
    (read limits (respell .unlimited chosen text)).Delivered delivered ↔
      (read limits text).Delivered
          ((read .unlimited text).events.map Prod.fst) ∧
        HaveRoom limits.depth chosen (read .unlimited text).events ∧
        (0 < limits.size →
          (respell .unlimited chosen text).utf8ByteSize ≤ limits.size) ∧
        delivered = respelledEvents chosen (read .unlimited text).events := by
  obtain ⟨events, ending⟩ :=
    @read_respell .unlimited chosen text nofun (shallow_unlimited 0 _)
  have longer := utf8ByteSize_le_respell .unlimited chosen text
  have ended :
      (∃ place, (read .unlimited (respell .unlimited chosen text)).ending =
          .ok place) ↔
        ∃ place, (read .unlimited text).ending = .ok place := by
    rw [← faultKind?_eq_none_iff, ending, faultKind?_eq_none_iff]
  have deep :
      Shallow limits.depth 0
          (respelledEvents chosen (read .unlimited text).events) ↔
        Shallow limits.depth 0
            ((read .unlimited text).events.map Prod.fst) ∧
          HaveRoom limits.depth chosen (read .unlimited text).events := by
    rw [shallow_respelledEvents_iff bounded, haveRoom_iff]
  rw [@delivered_iff limits text, delivered_iff]
  constructor
  · rintro ⟨within, reached, rfl⟩
    have shallow := within.shallow
    rw [events, deep] at shallow
    exact
      ⟨⟨⟨fun sized => longer.trans (within.small sized), shallow.1⟩,
        ended.mp reached, rfl⟩, shallow.2, within.small, events⟩
  · rintro ⟨⟨within, reached, -⟩, room, small, rfl⟩
    refine ⟨⟨small, ?_⟩, ended.mpr reached, events⟩
    rw [events, deep]
    exact ⟨within.shallow, room⟩

theorem shallow_succ
    {level : Nat} (bounded : 0 < depth) {events : List Event}
    (shallow : Shallow depth level events) :
    Shallow (depth + 1) level events := by
  induction events generalizing level with
  | nil => trivial
  | cons event rest ih =>
      obtain ⟨room, others⟩ := shallow
      exact ⟨fun opens _ => Nat.lt_succ_of_lt (room opens bounded), ih others⟩

/-- An empty tag stands within as many open elements as the bound allows at
most. -/
theorem haveRoom_succ
    {limits : Limits} (bounded : 0 < limits.depth)
    (chosen : Position → Bool) (text : String) :
    HaveRoom (limits.depth + 1) chosen (read limits text).events := by
  obtain ⟨-, -, -, nested, -⟩ := wellNested_read limits text
  intro before name attributes place after parts _
  apply Nat.lt_succ_of_le
  apply nested.shallow bounded
  rw [parts, List.map_append]
  exact List.prefix_append ..

end

end AmlExchange.Markup
