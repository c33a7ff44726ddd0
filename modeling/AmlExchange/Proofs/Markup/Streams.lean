import AmlExchange.Proofs.Markup.Reading

/-!
# What a reader delivers

The events that a reader delivers up to the end of a text are nested, and each
of them is lawful: the reader itself refuses what is not a name, an attribute
that comes twice and an end tag out of place.  Where a flaw ends the reading,
the same holds of the events before it, but for elements that are still
open.
-/

namespace AmlExchange.Markup

namespace Input

theorem isName_of_assignment
    {input next : Input} {field : String × String}
    (read : input.assignment = .ok (field, next)) :
    isName field.1.toList = true := by
  simp only [Input.assignment, bind, Except.bind] at read
  split at read
  · cases read
  · next named nameRead =>
      split at read
      · cases read
      · split at read
        · cases read
        · cases read
          exact (leads_name nameRead).2

theorem not_infix_of_upTo
    {input next : Input} {stretch init : List Char} {last : Char}
    {missing : Flaw}
    (read : input.upTo (init ++ [last]) missing = .ok (stretch, next)) :
    ¬ init ++ [last] <:+: stretch := by
  unfold upTo at read
  split at read
  · next before after found =>
      cases read
      intro occurs
      apply Text.not_infix_of_cutAt? found
      exact occurs.trans (List.prefix_append _ _).isInfix
  · cases read

end Input

namespace Reader

/-- Attributes as a start tag may have them. -/
def AreFields (found : List (String × String)) : Prop :=
  (∀ field ∈ found, isName field.1.toList = true) ∧
    (found.map Prod.fst).Nodup

theorem areFields_append
    {found : List (String × String)} {name value : String}
    (fields : AreFields found) (lawful : isName name.toList = true)
    (fresh : name ∉ found.map Prod.fst) :
    AreFields (found ++ [(name, value)]) := by
  constructor
  · intro field member
    rcases List.mem_append.mp member with before | last
    · exact fields.1 field before
    · rw [List.mem_singleton.mp last]
      exact lawful
  · rw [List.map_append, List.nodup_append]
    refine ⟨fields.2, by simp, ?_⟩
    rintro other before _ last rfl
    rw [List.map_singleton, List.mem_singleton] at last
    rw [last] at before
    exact fresh before

theorem isName_of_tagPart
    {input next : Input} {name value : String}
    (read : tagPart input = .ok (.field name value next)) :
    isName name.toList = true := by
  simp only [tagPart] at read
  split at read
  · cases read
  · split at read
    · cases read
    · split at read
      · cases read
      · next assigned =>
          cases read
          exact Input.isName_of_assignment assigned

theorem areFields_attributes
    {input next : Input} {found all : List (String × String)}
    (fields : AreFields found)
    (read : attributes input found = .ok (all, next)) :
    AreFields all := by
  fun_induction attributes input found with
  | case1 => cases read
  | case2 =>
      cases read
      exact fields
  | case3 => cases read
  | case4 input found name value field fieldRead fresh ih =>
      apply ih _ read
      apply areFields_append fields (isName_of_tagPart fieldRead)
      simpa [names] using fresh

/-- No attributes. -/
theorem areFields_nil :
    AreFields [] :=
  ⟨by simp, by simp⟩

/-! ## One step -/

/-- What a step may come to.  The text ends outside of all elements, what is
passed over leaves the open elements as they are, and an event is lawful, in
place and not too deep. -/
def Fits (reader : Reader) : Step → Prop
  | .ended => reader.openNames = []
  | .skipped next =>
      next.openNames = reader.openNames ∧ next.depth = reader.depth
  | .delivered event next =>
      event.nest? reader.openNames = some next.openNames ∧ event.Lawful ∧
        (event.opens = true → 0 < reader.depth →
          reader.openNames.length < reader.depth) ∧
        next.depth = reader.depth

theorem fits_startTag
    {reader : Reader} {step : Step} (read : reader.startTag = .ok step) :
    reader.Fits step := by
  simp only [startTag, bind, Except.bind] at read
  split at read
  · cases read
  · next named nameRead =>
      split at read
      · cases read
      · next attributed attributesRead =>
          have fields := areFields_attributes areFields_nil attributesRead
          have lawful := (Input.leads_name nameRead).2
          split at read
          · split at read
            · cases read
            · cases read
              exact ⟨rfl, ⟨lawful, fields⟩, unopened rfl, rfl⟩
          · split at read
            · cases read
            · split at read
              · cases read
              · next room =>
                  cases read
                  rw [not_and, Nat.not_le] at room
                  exact ⟨rfl, ⟨lawful, fields⟩, fun _ => room, rfl⟩

theorem fits_endTag
    {reader : Reader} {step : Step} (read : reader.endTag = .ok step) :
    reader.Fits step := by
  simp only [endTag, bind, Except.bind] at read
  split at read
  · cases read
  · split at read
    · cases read
    · split at read
      · cases read
      · next expected outer within =>
          split at read
          · next same =>
              cases read
              have nests := nest?_finish.mpr (same ▸ within)
              exact ⟨nests, trivial, unopened rfl, rfl⟩
          · cases read

theorem fits_characters
    {reader : Reader} {step : Step} (read : reader.characters = .ok step) :
    reader.Fits step := by
  simp only [characters, bind, Except.bind] at read
  split at read
  · cases read
  · split at read
    · split at read
      · cases read
        exact ⟨rfl, rfl⟩
      · cases read
    · next within =>
        cases read
        have inside : reader.openNames ≠ [] := by simpa using within
        exact ⟨nest?_text.mpr ⟨inside, rfl⟩, trivial, unopened rfl, rfl⟩

theorem fits_declared
    {reader : Reader} {step : Step} (read : reader.declared = .ok step) :
    reader.Fits step := by
  simp only [declared, bind, Except.bind] at read
  split at read
  · split at read
    · cases read
    · next pair found =>
        cases read
        have absent :=
          @Input.not_infix_of_upTo _ _ _ ['-', '-'] '>' _ found
        rw [← String.toList_ofList (l := pair.1)] at absent
        exact ⟨rfl, absent, unopened rfl, rfl⟩
  · split at read
    · split at read
      · cases read
      · cases read
        exact ⟨rfl, trivial, unopened rfl, rfl⟩
    · split at read
      · cases read
      · cases read
        exact ⟨rfl, rfl⟩

theorem fits_instruction
    {reader : Reader} {step : Step} (read : reader.instruction = .ok step) :
    reader.Fits step := by
  simp only [instruction, bind, Except.bind] at read
  split at read
  · cases read
  · cases read
    exact ⟨rfl, rfl⟩

theorem fits_step
    {reader : Reader} {step : Step} (read : reader.step = .ok step) :
    reader.Fits step := by
  unfold Reader.step at read
  split at read
  · split at read
    · next within =>
        cases read
        exact within
    · cases read
  · exact fits_declared read
  · exact fits_instruction read
  · exact fits_endTag read
  · exact fits_startTag read
  · exact fits_characters read

/-! ## A whole text -/

/-- Whatever ends a run, its events are lawful and each is in place within the
elements that are open then.  At the end of a text none is open. -/
theorem nests_run
    (reader : Reader) :
    (∃ last,
      (reader.run.events.map Prod.fst).foldlM
          (fun names event => event.nest? names) reader.openNames =
        some last ∧
      ∀ place, reader.run.ending = .ok place → last = []) ∧
      ∀ event ∈ reader.run.events.map Prod.fst, event.Lawful := by
  fun_induction Reader.run reader with
  | case1 => exact ⟨⟨_, rfl, nofun⟩, nofun⟩
  | case2 reader read =>
      have closed : reader.openNames = [] := fits_step read
      exact ⟨⟨_, rfl, fun _ _ => closed⟩, nofun⟩
  | case3 reader next read ih =>
      obtain ⟨same, -⟩ := fits_step read
      rw [← same]
      exact ih
  | case4 reader event next read ih =>
      obtain ⟨fits, lawful, -⟩ := fits_step read
      obtain ⟨⟨last, nests, closed⟩, others⟩ := ih
      rw [Stream.cons, List.map_cons, List.foldlM_cons,
        List.forall_mem_cons, fits]
      exact ⟨⟨last, nests, closed⟩, lawful, others⟩

/-- No more elements are open at a time than the reader allows. -/
theorem shallow_run
    (reader : Reader) :
    Shallow reader.depth reader.openNames.length
      (reader.run.events.map Prod.fst) := by
  fun_induction Reader.run reader with
  | case1 => trivial
  | case2 => trivial
  | case3 reader next read ih =>
      obtain ⟨same, depth⟩ := fits_step read
      rw [← same, ← depth]
      exact ih
  | case4 reader event next read ih =>
      obtain ⟨fits, -, room, depth⟩ := fits_step read
      refine ⟨room, ?_⟩
      rw [← length_of_nest? fits, ← depth]
      exact ih

end Reader

theorem nests_read
    (limits : Limits) (text : String) :
    (∃ last,
      ((read limits text).events.map Prod.fst).foldlM
          (fun names event => event.nest? names) [] =
        some last ∧
      ∀ place, (read limits text).ending = .ok place → last = []) ∧
      ∀ event ∈ (read limits text).events.map Prod.fst, event.Lawful := by
  unfold read
  split
  · exact ⟨⟨_, rfl, nofun⟩, nofun⟩
  · exact Reader.nests_run ⟨limits.depth, .ofText text, []⟩

/-- Up to the end of a text its events are nested and lawful. -/
theorem nested_read
    {limits : Limits} {text : String} {place : Text.Position}
    (ended : (read limits text).ending = .ok place) :
    Nested [] ((read limits text).events.map Prod.fst) ∧
      ∀ event ∈ (read limits text).events.map Prod.fst, event.Lawful := by
  obtain ⟨⟨last, nests, closed⟩, lawful⟩ := nests_read limits text
  rw [closed place ended] at nests
  exact ⟨nests, lawful⟩

theorem shallow_read
    (limits : Limits) (text : String) :
    Shallow limits.depth 0 ((read limits text).events.map Prod.fst) := by
  unfold read
  split
  · trivial
  · exact Reader.shallow_run ⟨limits.depth, .ofText text, []⟩

end AmlExchange.Markup
