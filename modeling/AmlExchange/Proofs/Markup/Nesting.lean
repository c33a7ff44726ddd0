import AmlExchange.Proofs.Markup.Streams

/-!
# Well-nested events

Whatever the text and however its reading ends, the events that a reader
delivers are well nested and keep to its limits.  Each of them is read from
some bytes of its own, so there are no more of them than the text has bytes
(`wellNested_read`).
-/

namespace AmlExchange

open Text (Position)

namespace Markup

/-! ## Open elements -/

/-- The names of the open elements after an event, the innermost first. -/
def Event.openAfter (openNames : List String) : Event → List String
  | .start name _ empty => if empty then openNames else name :: openNames
  | .finish _ => openNames.tail
  | .text _ | .characterData _ | .comment _ => openNames

/-- The names of the elements that some events leave open, the innermost
first. -/
def openAfter (events : List Event) : List String :=
  events.foldl Event.openAfter []

/-- Whether events are well nested, with at most as many elements open at a
time as a depth allows.  Zero is no bound. -/
structure WellNested (depth : Nat) (events : List Event) : Prop where
  /-- An end tag has the name of the innermost open element. -/
  closes :
    ∀ {before name after}, events = before ++ .finish name :: after →
      (openAfter before).head? = some name
  /-- Text stands within an element.  A section of unescaped text and a comment
  may stand outside of all. -/
  encloses :
    ∀ {before content after}, events = before ++ .text content :: after →
      openAfter before ≠ []
  shallow :
    0 < depth →
      ∀ {before}, before <+: events → (openAfter before).length ≤ depth
  /-- No start tag has two attributes of one name. -/
  distinct :
    ∀ {name attributes empty}, .start name attributes empty ∈ events →
      (attributes.map Prod.fst).Nodup

section

variable {event : Event} {events before after : List Event}
  {names next last : List String} {depth : Nat}

theorem eq_openAfter_of_nest?
    (fits : event.nest? names = some next) :
    next = event.openAfter names := by
  cases event with
  | finish name =>
      rw [nest?_finish.mp fits]
      rfl
  | text content => exact (nest?_text.mp fits).2
  | start name attributes empty =>
      cases fits
      rfl
  | characterData content | comment content =>
      cases fits
      rfl

theorem eq_openAfter_of_nests
    (nests :
      events.foldlM (fun names event => event.nest? names) names =
        some last) :
    last = events.foldl Event.openAfter names := by
  induction events generalizing names with
  | nil => exact (Option.some.inj nests).symm
  | cons event rest ih =>
      rw [List.foldlM_cons] at nests
      obtain ⟨next, fits, others⟩ := Option.bind_eq_some_iff.mp nests
      rw [List.foldl_cons, ← eq_openAfter_of_nest? fits]
      exact ih others

/-- An event is in place within the elements that those before it leave
open. -/
theorem exists_nest?_of_append
    (nests :
      (before ++ event :: after).foldlM
          (fun names event => event.nest? names) [] =
        some last) :
    ∃ next, event.nest? (openAfter before) = some next := by
  rw [List.foldlM_append] at nests
  obtain ⟨names, front, back⟩ := Option.bind_eq_some_iff.mp nests
  rw [List.foldlM_cons] at back
  obtain ⟨next, fits, -⟩ := Option.bind_eq_some_iff.mp back
  rw [eq_openAfter_of_nests front] at fits
  exact ⟨next, fits⟩

theorem level_le
    {level : Nat} (room : event.opens = true → level < depth)
    (within : level ≤ depth) :
    event.level level ≤ depth := by
  cases event with
  | start name attributes empty =>
      cases empty with
      | true => exact within
      | false => exact room rfl
  | finish name => exact Nat.le_trans (Nat.sub_le ..) within
  | text content | characterData content | comment content => exact within

theorem length_le_of_shallow
    (bounded : 0 < depth) (within : names.length ≤ depth)
    (shallow : Shallow depth names.length (before ++ after))
    (nests :
      before.foldlM (fun names event => event.nest? names) names =
        some last) :
    last.length ≤ depth := by
  induction before generalizing names with
  | nil =>
      cases nests
      exact within
  | cons event rest ih =>
      obtain ⟨room, below⟩ := shallow
      rw [List.foldlM_cons] at nests
      obtain ⟨next, fits, others⟩ := Option.bind_eq_some_iff.mp nests
      have level := length_of_nest? fits
      rw [← level] at below
      refine ih ?_ below others
      rw [level]
      exact level_le (fun opens => room opens bounded) within

/-- Events that are in place, lawful and not too deep are well nested. -/
theorem wellNested_of_nests
    (nests :
      events.foldlM (fun names event => event.nest? names) [] = some last)
    (shallow : Shallow depth 0 events)
    (lawful : ∀ event ∈ events, event.Lawful) :
    WellNested depth events := by
  constructor
  case closes =>
    rintro before name after rfl
    obtain ⟨next, fits⟩ := exists_nest?_of_append nests
    rw [nest?_finish.mp fits]
    rfl
  case encloses =>
    rintro before content after rfl
    obtain ⟨next, fits⟩ := exists_nest?_of_append nests
    exact (nest?_text.mp fits).1
  case shallow =>
    rintro bounded before ⟨after, rfl⟩
    rw [List.foldlM_append] at nests
    obtain ⟨names, front, -⟩ := Option.bind_eq_some_iff.mp nests
    rw [openAfter, ← eq_openAfter_of_nests front]
    have within : ([] : List String).length ≤ depth := Nat.zero_le depth
    exact length_le_of_shallow bounded within shallow front
  case distinct =>
    intro name attributes empty member
    exact (lawful _ member).2.2

end

/-! ## Places of events -/

namespace Input

/-- The number of bytes up to the end of a text. -/
def finish (input : Input) : Nat :=
  input.place.offset + (String.ofList input.rest).utf8ByteSize

theorem offset_past
    (place : Position) (text : List Char) :
    (place.past text).offset =
      place.offset + (String.ofList text).utf8ByteSize := by
  induction text generalizing place with
  | nil => rfl
  | cons char rest ih =>
      have step : (place.step char).offset = place.offset + char.utf8Size := by
        rw [Position.step]
        split <;> rfl
      rw [Position.past_cons, ih, step, String.ofList_cons,
        String.utf8ByteSize_append, String.utf8ByteSize_singleton,
        Nat.add_assoc]

theorem utf8ByteSize_pos
    {text : List Char} (some : text ≠ []) :
    0 < (String.ofList text).utf8ByteSize := by
  obtain ⟨char, rest, rfl⟩ := List.exists_cons_of_ne_nil some
  rw [String.ofList_cons, String.utf8ByteSize_append,
    String.utf8ByteSize_singleton]
  exact Nat.add_pos_left char.utf8Size_pos _

/-- Reading on leaves the end of the text where it is. -/
theorem Leads.finish_eq
    {input next : Input} {stretch : List Char}
    (leads : Leads input next stretch) :
    next.finish = input.finish := by
  rw [finish, finish, leads.1, leads.2, offset_past, String.ofList_append,
    String.utf8ByteSize_append, Nat.add_assoc]

theorem Leads.offset_lt
    {input next : Input} {stretch : List Char}
    (leads : Leads input next stretch) (moved : stretch ≠ []) :
    input.place.offset < next.place.offset := by
  rw [leads.2, offset_past]
  exact Nat.lt_add_of_pos_right (utf8ByteSize_pos moved)

end Input

namespace Stream

/-- The number of bytes up to the end of each event. -/
def offsets (stream : Stream) : List Nat :=
  stream.events.map fun event => event.2.offset

end Stream

namespace Reader

/-- Every step but the last moves on and leaves the end of the text where it
is. -/
theorem moves_step
    {reader next : Reader} {step : Step} (read : reader.step = .ok step)
    (reached : step.next? = some next) :
    reader.input.place.offset < next.input.place.offset ∧
      next.input.finish = reader.input.finish := by
  obtain ⟨stretch, moved, leads⟩ := movesTo_step read reached
  exact ⟨leads.offset_lt moved, leads.finish_eq⟩

/-- Each event ends beyond the one before it and within the text. -/
theorem offsets_run
    (reader : Reader) :
    (reader.input.place.offset :: reader.run.offsets).Pairwise (· < ·) ∧
      ∀ offset ∈ reader.run.offsets, offset ≤ reader.input.finish := by
  fun_induction Reader.run reader with
  | case1 => exact ⟨List.pairwise_singleton .., List.forall_mem_nil _⟩
  | case2 => exact ⟨List.pairwise_singleton .., List.forall_mem_nil _⟩
  | case3 reader next read ih =>
      obtain ⟨moved, same⟩ := moves_step read rfl
      obtain ⟨ordered, within⟩ := ih
      rw [List.pairwise_cons] at ordered ⊢
      rw [← same]
      exact
        ⟨⟨fun offset member => moved.trans (ordered.1 offset member),
          ordered.2⟩, within⟩
  | case4 reader event next read ih =>
      obtain ⟨moved, same⟩ := moves_step read rfl
      obtain ⟨ordered, within⟩ := ih
      have first : next.input.place.offset ≤ next.input.finish :=
        Nat.le_add_right ..
      have later := (List.pairwise_cons.mp ordered).1
      rw [← same]
      refine ⟨List.pairwise_cons.mpr ⟨?_, ordered⟩, ?_⟩
      · exact
          List.forall_mem_cons.mpr
            ⟨moved, fun offset member => moved.trans (later offset member)⟩
      · exact List.forall_mem_cons.mpr ⟨first, within⟩

end Reader

theorem offsets_read
    (limits : Limits) (text : String) :
    (0 :: (read limits text).offsets).Pairwise (· < ·) ∧
      ∀ offset ∈ (read limits text).offsets,
        offset ≤ text.utf8ByteSize := by
  unfold read
  split
  · exact ⟨List.pairwise_singleton .., List.forall_mem_nil _⟩
  · have finish : (Input.ofText text).finish = text.utf8ByteSize := by
      simp [Input.finish, Input.ofText, Position.start]
    rw [← finish]
    exact Reader.offsets_run ⟨limits.depth, .ofText text, []⟩

theorem length_le_of_increasing
    {start bound : Nat} {offsets : List Nat} (startWithin : start ≤ bound)
    (ordered : (start :: offsets).Pairwise (· < ·))
    (within : ∀ offset ∈ offsets, offset ≤ bound) :
    start + offsets.length ≤ bound := by
  induction offsets generalizing start with
  | nil => exact startWithin
  | cons offset rest ih =>
      obtain ⟨first, others⟩ := List.pairwise_cons.mp ordered
      obtain ⟨here, below⟩ := List.forall_mem_cons.mp within
      have moved := first offset List.mem_cons_self
      have length := ih here others below
      rw [List.length_cons]
      omega

/-! ## A whole text -/

/-- The events of a text are well nested within the limits of its reading,
whether it ends at the end of the text or by a flaw.  Each event is read from
some bytes of the text that follow those of the one before, so there are no
more events than bytes.  At the end of the text no element is open. -/
theorem wellNested_read
    (limits : Limits) (text : String) :
    let stream := read limits text
    let events := stream.events.map Prod.fst
    (0 :: stream.offsets).Pairwise (· < ·) ∧
      (∀ offset ∈ stream.offsets, offset ≤ text.utf8ByteSize) ∧
      events.length ≤ text.utf8ByteSize ∧
      WellNested limits.depth events ∧
      ∀ place, stream.ending = .ok place → openAfter events = [] := by
  intro stream events
  obtain ⟨⟨last, nests, closed⟩, lawful⟩ := nests_read limits text
  obtain ⟨ordered, within⟩ := offsets_read limits text
  have few := length_le_of_increasing (Nat.zero_le _) ordered within
  rw [Nat.zero_add, Stream.offsets, List.length_map] at few
  refine
    ⟨ordered, within, ?_,
      wellNested_of_nests nests (shallow_read limits text) lawful, ?_⟩
  · rw [List.length_map]
    exact few
  · intro place ended
    rw [openAfter, ← eq_openAfter_of_nests nests]
    exact closed place ended

/-- A declaration, an element with text and an empty element, and spacing. -/
def partlySkipped : String :=
  "<!DOCTYPE a><a k='1'>t<b/></a>\n"

theorem wellNested_read_of_partlySkipped :
    ∃ place,
      (read .standard partlySkipped).ending = .ok place ∧
        (read .standard partlySkipped).offsets = [21, 22, 26, 30] ∧
        openAfter ((read .standard partlySkipped).events.map Prod.fst) =
          [] := by
  have ended :
      (read .standard partlySkipped).ending.toOption = some ⟨31, 2, 1⟩ := by
    decide +kernel
  obtain ⟨-, -, -, -, closed⟩ := wellNested_read .standard partlySkipped
  exact
    ⟨_, eq_ok_of_toOption ended, by decide +kernel,
      closed _ (eq_ok_of_toOption ended)⟩

end Markup

end AmlExchange
