import AmlExchange.Proofs.Markup.StepLocality

/-!
# The two spellings of an empty element

An element without content is written as one empty tag, or as a start tag and
an end tag.  A text that has some of its empty tags written as two reads like
the text itself, but for these tags: each of them is two events instead of one
(`read_respell`).
-/

namespace AmlExchange

/-- The kind of the fault that something comes to, if it does. -/
def faultKind? {α : Type} (result : Except Fault α) : Option Fault.Kind :=
  match result with
  | .ok _ => none
  | .error fault => some fault.kind

theorem faultKind?_eq_none_iff
    {α : Type} {result : Except Fault α} :
    faultKind? result = none ↔ ∃ value, result = .ok value := by
  cases result <;> simp [faultKind?]

namespace Markup

open Text (Position)

/-! ## Spelling an empty tag as two -/

/-- The markup of an event with an empty tag written as two. -/
def Event.inFull (event : Event) (markup : List Char) : List Char :=
  match event with
  | .start name _ true =>
      markup.dropLast.dropLast ++ ('>' :: '<' :: '/' :: name.toList ++ ['>'])
  | _ => markup

/-- The events of the tags that stand for an event. -/
def Event.tags : Event → List Event
  | .start name attributes true =>
      [.start name attributes false, .finish name]
  | event => [event]

/-- Events with some of the empty tags written as two, chosen by the place
where they end. -/
def respelledEvents (chosen : Position → Bool) :
    List (Event × Position) → List Event
  | [] => []
  | (event, place) :: rest =>
      (if chosen place then event.tags else [event]) ++
        respelledEvents chosen rest

namespace Reader

/-- The text that is passed on the way to a later state. -/
def passed (reader next : Reader) : List Char :=
  reader.input.rest.take
    (reader.input.rest.length - next.input.rest.length)

/-- The rest of a text with some of its empty tags written as two, chosen by
the place where they end. -/
def respelled (chosen : Position → Bool) (reader : Reader) : List Char :=
  match _ : reader.step with
  | .error _ | .ok .ended => reader.input.rest
  | .ok (.skipped next) => reader.passed next ++ next.respelled chosen
  | .ok (.delivered event next) =>
      (if chosen next.input.place then event.inFull (reader.passed next)
        else reader.passed next) ++
        next.respelled chosen
termination_by reader.input.rest.length
decreasing_by
  all_goals exact Reader.step_shortens ‹_› rfl

theorem respelled_eq
    (chosen : Position → Bool) (reader : Reader) :
    reader.respelled chosen =
      match reader.step with
      | .error _ | .ok .ended => reader.input.rest
      | .ok (.skipped next) => reader.passed next ++ next.respelled chosen
      | .ok (.delivered event next) =>
          (if chosen next.input.place then event.inFull (reader.passed next)
            else reader.passed next) ++
            next.respelled chosen := by
  rw [respelled]
  split <;> next read => rw [read]

theorem passed_of_leads
    {reader next : Reader} {stretch : List Char}
    (leads : Input.Leads reader.input next.input stretch) :
    reader.passed next = stretch := by
  rw [passed, leads.1, List.length_append, Nat.add_sub_cancel]
  exact List.take_left

end Reader

/-- A text with some of its empty tags written as two, chosen by the place
where they end. -/
def respell (limits : Limits) (chosen : Position → Bool) (text : String) :
    String :=
  String.ofList
    ((Reader.mk limits.depth (.ofText text) []).respelled chosen)

namespace Reader

open Input

variable {chosen : Position → Bool}

/-! ## Reading two tags for one -/

theorem startTag_of_delivered
    {reader next : Reader}
    {name : String} {attributes : List (String × String)} {empty : Bool}
    (read :
      reader.step = .ok (.delivered (.start name attributes empty) next)) :
    reader.startTag = .ok (.delivered (.start name attributes empty) next) ∧
      ∃ rest, reader.input.rest = '<' :: rest ∧
        ∀ char ∈ rest.head?, char ≠ '!' ∧ char ≠ '?' ∧ char ≠ '/' := by
  unfold step at read
  split at read
  · split at read <;> cases read
  · simp only [declared, bind, Except.bind] at read
    repeat' split at read
    all_goals cases read
  · simp only [instruction, bind, Except.bind] at read
    split at read <;> cases read
  · simp only [endTag, bind, Except.bind] at read
    repeat' split at read
    all_goals cases read
  · next rest noBang noQuestion noSlash shape =>
      refine ⟨read, rest, shape, ?_⟩
      intro char begins
      obtain ⟨more, rfl⟩ := List.head?_eq_some_iff.mp begins
      refine ⟨?_, ?_, ?_⟩
      · rintro rfl
        exact noBang more rfl
      · rintro rfl
        exact noQuestion more rfl
      · rintro rfl
        exact noSlash more rfl
  · simp only [characters, bind, Except.bind] at read
    repeat' split at read
    all_goals cases read

/-- An empty tag ends with its mark; with the other mark in its place it is a
start tag. -/
theorem step_of_full
    {reader next : Reader}
    {name : String} {attributes : List (String × String)}
    (read :
      reader.step = .ok (.delivered (.start name attributes true) next)) :
    ∃ tag, tag ≠ [] ∧
      Leads reader.input next.input (tag ++ closeMark true) ∧
        (reader.HasRoom → ∀ (other : Input) (rest : List Char),
          other.rest = tag ++ closeMark false ++ rest →
            ∃ last,
              Reader.step { reader with input := other } =
                  .ok
                    (.delivered (.start name attributes false)
                      (reader.entered name false last)) ∧
                last.rest = rest) := by
  obtain ⟨tagRead, more, shape, plain⟩ := startTag_of_delivered read
  rw [startTag_eq] at tagRead
  cases opened : opening reader.input with
  | error fault =>
      rw [opened] at tagRead
      cases tagRead
  | ok result =>
      rw [opened] at tagRead
      obtain ⟨⟨label, found⟩, tagged, tag, rfl, leads, again⟩ :=
        (local_opening reader.input).takes result opened
      obtain ⟨empty, after, same, ends, -⟩ := mark_of_closeTag tagRead
      cases same
      have slash : tagged.rest = '/' :: '>' :: after.rest := ends.1
      -- the tag has a name, so the character after its first is not a slash
      obtain ⟨second, tail, rfl⟩ :
          ∃ second tail, tag = '<' :: second :: tail := by
        have front := leads.1
        rw [shape, slash] at front
        cases tag with
        | nil => cases front
        | cons first tail =>
            obtain ⟨rfl, rfl⟩ := List.cons.inj front
            cases tail with
            | nil => exact absurd rfl (plain '/' rfl).2.2
            | cons second tail => exact ⟨second, tail, rfl⟩
      refine ⟨_, by simp, leads.trans ends, ?_⟩
      intro room other rest otherShape
      rw [List.append_assoc] at otherShape
      obtain ⟨middle, reopened, left⟩ :=
        again other _ otherShape
          (.inr ⟨⟨'>', rfl, .inr rfl⟩, '/', by rw [slash]; rfl, .inl rfl⟩)
      obtain ⟨last, closed, remains⟩ :=
        @closeTag_of_mark reader label found middle false (fun _ => room)
          rest left
      refine ⟨last, ?_, remains⟩
      have start :=
        @step_of_tag { reader with input := other } _ otherShape (by
          intro char begins
          apply plain char
          have front := leads.1
          rw [shape] at front
          obtain ⟨-, rfl⟩ := List.cons.inj front
          exact begins)
      rw [start, startTag_eq, reopened]
      exact closed

/-- Where an empty tag has been passed, it is spelled as a start tag and an
end tag. -/
theorem inFull_passed
    {reader next : Reader}
    {name : String} {attributes : List (String × String)} {tag : List Char}
    (leads : Leads reader.input next.input (tag ++ closeMark true)) :
    (Event.start name attributes true).inFull (reader.passed next) =
      tag ++ closeMark false ++ (Event.finish name).markup := by
  rw [passed_of_leads leads]
  simp [Event.inFull, closeMark, Event.markup]

/-- The markup of an event as it is spelled. -/
theorem spelled_of_delivered
    {reader next : Reader} {event : Event}
    (read : reader.step = .ok (.delivered event next)) (full : Bool) :
    ((if full then event.inFull (reader.passed next)
          else reader.passed next) = reader.passed next ∧
        (if full then event.tags else [event]) = [event]) ∨
      full = true ∧
        ∃ name attributes, event = .start name attributes true := by
  cases full with
  | false => exact .inl ⟨rfl, rfl⟩
  | true =>
      cases event with
      | start name attributes empty =>
          cases empty with
          | false => exact .inl ⟨rfl, rfl⟩
          | true => exact .inr ⟨rfl, name, attributes, rfl⟩
      | _ => exact .inl ⟨rfl, rfl⟩

/-- The spelling of empty tags leaves the first character as it is. -/
theorem head?_respelled
    (chosen : Position → Bool) (reader : Reader) :
    (reader.respelled chosen).head? = reader.input.rest.head? := by
  rw [respelled_eq]
  split
  · rfl
  · rfl
  · next next read =>
      obtain ⟨stretch, moved, leads⟩ := movesTo_step read rfl
      rw [passed_of_leads leads, leads.1, List.head?_append_of_ne_nil _ moved,
        List.head?_append_of_ne_nil _ moved]
  · next event next read =>
      rcases spelled_of_delivered read (chosen next.input.place) with
        ⟨same, -⟩ | ⟨full, name, attributes, rfl⟩
      · obtain ⟨stretch, moved, leads⟩ := movesTo_step read rfl
        rw [same, passed_of_leads leads, leads.1,
          List.head?_append_of_ne_nil _ moved,
          List.head?_append_of_ne_nil _ moved]
      · obtain ⟨tag, moved, leads, -⟩ := step_of_full read
        rw [if_pos full, inFull_passed leads, leads.1]
        simp only [List.append_assoc]
        rw [List.head?_append_of_ne_nil _ moved,
          List.head?_append_of_ne_nil _ moved]

/-- Text is passed up to the next tag. -/
theorem step_of_text
    {reader : Reader} {step : Step} {char : Char} {rest : List Char}
    (shape : reader.input.rest = char :: rest) (text : char ≠ '<')
    (read : reader.step = .ok step) :
    let next := { reader with input := reader.input.dropWhile (· ≠ '<') }
    step = .skipped next ∨
      ∃ content, step = .delivered (.text content) next := by
  rw [step_of_character shape text] at read
  simp only [characters, bind, Except.bind] at read
  split at read
  · cases read
  · split at read
    · split at read
      · cases read
        exact .inl rfl
      · cases read
    · cases read
      exact .inr ⟨_, rfl⟩

/-- The text before the first tag is left as it is. -/
theorem respelled_of_front
    {reader : Reader} {front more : List Char}
    (shape : reader.input.rest = front ++ '<' :: more)
    (plain : '<' ∉ front) (chosen : Position → Bool) :
    ∃ other, reader.respelled chosen = front ++ '<' :: other := by
  have tagged {reader : Reader} {more : List Char}
      (shape : reader.input.rest = '<' :: more) :
      ∃ other, reader.respelled chosen = '<' :: other := by
    apply List.head?_eq_some_iff.mp
    rw [head?_respelled, shape]
    rfl
  cases front with
  | nil => exact tagged shape
  | cons char text =>
      have different : char ≠ '<' := by
        rintro rfl
        exact plain List.mem_cons_self
      have inside : ∀ other ∈ char :: text, decide (other ≠ '<') = true :=
        fun other member =>
          decide_eq_true fun same => plain (same ▸ member)
      have dropped : (reader.input.dropWhile (· ≠ '<')).rest = '<' :: more := by
        show reader.input.rest.dropWhile _ = _
        rw [shape]
        exact Text.dropWhile_append_of_stops inside (by simp)
      have passed :
          reader.passed
              { reader with input := reader.input.dropWhile (· ≠ '<') } =
            char :: text := by
        apply passed_of_leads
        have leads := leads_dropWhile reader.input (· ≠ '<')
        rwa [shape, Text.takeWhile_append_of_stops inside (by simp)] at leads
      obtain ⟨other, respelling⟩ :=
        @tagged { reader with input := reader.input.dropWhile (· ≠ '<') } _
          dropped
      rw [respelled_eq]
      cases read : reader.step with
      | error fault => exact ⟨more, shape⟩
      | ok step =>
          rcases step_of_text shape different read with
            rfl | ⟨content, rfl⟩
          · refine ⟨other, ?_⟩
            dsimp only
            rw [passed, respelling]
          · refine ⟨other, ?_⟩
            dsimp only [Event.inFull]
            rw [ite_self, passed, respelling]

theorem utf8ByteSize_append_le
    {first second other more : List Char}
    (front : (String.ofList first).utf8ByteSize ≤
      (String.ofList other).utf8ByteSize)
    (back : (String.ofList second).utf8ByteSize ≤
      (String.ofList more).utf8ByteSize) :
    (String.ofList (first ++ second)).utf8ByteSize ≤
      (String.ofList (other ++ more)).utf8ByteSize := by
  simp only [String.ofList_append, String.utf8ByteSize_append]
  omega

/-- Spelling empty tags as two makes a text no shorter. -/
theorem utf8ByteSize_respelled
    (chosen : Position → Bool) (reader : Reader) :
    (String.ofList reader.input.rest).utf8ByteSize ≤
      (String.ofList (reader.respelled chosen)).utf8ByteSize := by
  fun_induction respelled chosen reader with
  | case1 | case2 => exact Nat.le_refl _
  | case3 reader next read ih =>
      obtain ⟨stretch, -, leads⟩ := movesTo_step read rfl
      rw [passed_of_leads leads, leads.1]
      exact utf8ByteSize_append_le (Nat.le_refl _) ih
  | case4 reader event next read ih =>
      rcases spelled_of_delivered read (chosen next.input.place) with
        ⟨same, -⟩ | ⟨full, name, attributes, rfl⟩
      · obtain ⟨stretch, -, leads⟩ := movesTo_step read rfl
        rw [same, passed_of_leads leads, leads.1]
        exact utf8ByteSize_append_le (Nat.le_refl _) ih
      · obtain ⟨tag, -, leads, -⟩ := step_of_full read
        rw [if_pos full, inFull_passed leads, leads.1]
        apply utf8ByteSize_append_le _ ih
        have marks :
            (String.ofList (closeMark true)).utf8ByteSize ≤
              (String.ofList
                (closeMark false ++ (Event.finish name).markup)).utf8ByteSize
              := by
          have two : "/>".utf8ByteSize = 2 := by decide
          have one : ">".utf8ByteSize = 1 := by decide
          simp [closeMark, Event.markup]
          omega
        rw [List.append_assoc]
        exact utf8ByteSize_append_le (Nat.le_refl _) marks

/-! ## A whole text -/

/-- Two tags in the place of an empty one are read as two, and then what
follows them. -/
theorem run_of_full
    {reader next : Reader}
    {name : String} {attributes : List (String × String)}
    (read :
      reader.step = .ok (.delivered (.start name attributes true) next))
    (room : reader.HasRoom) {other : Input} {rest : List Char}
    (shape :
      other.rest =
        (Event.start name attributes true).inFull (reader.passed next) ++
          rest) :
    ∃ last place, last.rest = rest ∧
      Reader.run { reader with input := other } =
        ((Reader.run { next with input := last }).cons
          (.finish name) last.place).cons
            (.start name attributes false) place := by
  obtain ⟨fits, lawful, -, depth⟩ := fits_step read
  obtain ⟨tag, -, leads, again⟩ := step_of_full read
  rw [inFull_passed leads, List.append_assoc] at shape
  obtain ⟨middle, opened, left⟩ := again room other _ shape
  obtain ⟨last, closed, remains⟩ :=
    @delivers_finish (reader.entered name false middle) name
      reader.openNames rfl lawful.1 _ left
  have kept : reader.openNames = next.openNames := Option.some.inj fits
  have onward :
      (reader.entered name false middle).run =
        (Reader.run { next with input := last }).cons (.finish name)
          last.place := by
    rw [run_eq, closed, depth, ← kept]
    rfl
  refine ⟨last, middle.place, remains, ?_⟩
  rw [run_eq, opened]
  dsimp only
  rw [onward]
  rfl

theorem run_respelled
    {reader : Reader}
    (shallow : Shallow reader.depth reader.openNames.length
      (respelledEvents chosen reader.run.events))
    {other : Input} (shape : other.rest = reader.respelled chosen) :
    (Reader.run { reader with input := other }).events.map Prod.fst =
        respelledEvents chosen reader.run.events ∧
      faultKind? (Reader.run { reader with input := other }).ending =
        faultKind? reader.run.ending := by
  fun_induction Reader.run reader generalizing other with
  | case1 reader fault read =>
      rw [respelled_eq, read] at shape
      obtain ⟨again, failed, kind⟩ := step_of_same read shape
      rw [run_eq, failed]
      exact ⟨rfl, congrArg some kind⟩
  | case2 reader read =>
      rw [respelled_eq, read] at shape
      rw [run_eq, step_of_ended read shape]
      exact ⟨rfl, rfl⟩
  | case3 reader next read ih =>
      obtain ⟨stretch, -, leads, again⟩ := step_of_append read rfl
      rw [respelled_eq, read] at shape
      dsimp only at shape
      rw [passed_of_leads leads] at shape
      obtain ⟨last, passed, left⟩ :=
        again other _ shape (head?_respelled chosen next)
      obtain ⟨same, depth⟩ := fits_step read
      rw [run_eq, passed]
      rw [← same, ← depth] at shallow
      exact ih shallow left
  | case4 reader event next read ih =>
      obtain ⟨fits, lawful, -, depth⟩ := fits_step read
      rw [respelled_eq, read] at shape
      dsimp only at shape
      simp only [Stream.cons, respelledEvents] at shallow ⊢
      rcases spelled_of_delivered read (chosen next.input.place) with
        ⟨same, alone⟩ | ⟨full, name, attributes, rfl⟩
      · obtain ⟨stretch, -, leads, again⟩ := step_of_append read rfl
        rw [same, passed_of_leads leads] at shape
        obtain ⟨last, passed, left⟩ :=
          again other _ shape (head?_respelled chosen next)
        rw [alone] at shallow ⊢
        obtain ⟨others, ending⟩ :=
          ih (by
            rw [length_of_nest? fits, depth]
            exact shallow.2) left
        rw [run_eq, passed]
        exact ⟨congrArg (List.cons event) others, ending⟩
      · rw [if_pos full] at shape shallow ⊢
        obtain ⟨room, -, within⟩ := shallow
        obtain ⟨last, place, remains, ran⟩ := run_of_full read (room rfl) shape
        have kept : reader.openNames = next.openNames := Option.some.inj fits
        obtain ⟨others, ending⟩ :=
          ih (by
            rw [depth, ← kept]
            exact within) remains
        rw [ran]
        refine ⟨?_, ending⟩
        simp only [Stream.cons, List.map_cons, others]
        rfl

end Reader

/-- A text with some of its empty tags written as two is no shorter. -/
theorem utf8ByteSize_le_respell
    (limits : Limits) (chosen : Position → Bool) (text : String) :
    text.utf8ByteSize ≤ (respell limits chosen text).utf8ByteSize := by
  have longer :=
    Reader.utf8ByteSize_respelled chosen ⟨limits.depth, .ofText text, []⟩
  rwa [Input.ofText, String.ofList_toList] at longer

/-- A text with some of its empty tags written as two reads like the text, but
for these tags. -/
theorem read_respell
    {limits : Limits} {chosen : Position → Bool} {text : String}
    (small : 0 < limits.size →
      (respell limits chosen text).utf8ByteSize ≤ limits.size)
    (shallow : Shallow limits.depth 0
      (respelledEvents chosen (read limits text).events)) :
    (read limits (respell limits chosen text)).events.map Prod.fst =
        respelledEvents chosen (read limits text).events ∧
      faultKind? (read limits (respell limits chosen text)).ending =
        faultKind? (read limits text).ending := by
  have longer := utf8ByteSize_le_respell limits chosen text
  have fits :
      ¬ (0 < limits.size ∧
        limits.size < (respell limits chosen text).utf8ByteSize) :=
    fun full => absurd (small full.1) (Nat.not_le_of_lt full.2)
  have fitsFirst : ¬ (0 < limits.size ∧ limits.size < text.utf8ByteSize) :=
    fun full => fits ⟨full.1, Nat.lt_of_lt_of_le full.2 longer⟩
  simp only [read, if_neg fits, if_neg fitsFirst] at shallow ⊢
  exact
    @Reader.run_respelled chosen ⟨limits.depth, .ofText text, []⟩ shallow
      (.ofText (respell limits chosen text)) (String.toList_ofList ..)

end Markup

end AmlExchange
