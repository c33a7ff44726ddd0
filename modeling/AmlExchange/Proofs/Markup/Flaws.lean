import AmlExchange.Markup.Reader

/-!
# What reading fails with

A text that is not read to its end is longer than it may be, or has a flaw at
the place that reading has reached.  So a fault of any other kind does not come
from reading.
-/

namespace AmlExchange.Markup

open Text (Position)

variable {α β : Type}

/-- Whether a result that is a fault is a flaw of markup. -/
def FailsByFlaw (result : Except Fault α) : Prop :=
  ∀ fault, result = .error fault → ∃ flaw place, fault = Flaw.fault flaw place

namespace FailsByFlaw

theorem ok
    (value : α) :
    FailsByFlaw (.ok value) :=
  nofun

theorem flawed
    (input : Input) (flaw : Flaw) :
    FailsByFlaw (α := α) (input.flawed flaw) := by
  rintro fault ⟨⟩
  exact ⟨flaw, input.place, rfl⟩

theorem bind
    {first : Except Fault α} {next : α → Except Fault β}
    (before : FailsByFlaw first) (after : ∀ value, FailsByFlaw (next value)) :
    FailsByFlaw (first >>= next) := by
  cases first with
  | error fault =>
      rintro _ ⟨⟩
      exact before fault rfl
  | ok value => exact after value

end FailsByFlaw

namespace Input

theorem failsByFlaw_expect
    (input : Input) (mark : Char) :
    FailsByFlaw (input.expect mark) := by
  unfold expect
  split
  · exact .flawed input _
  · split
    · exact .ok _
    · exact .flawed input _

theorem failsByFlaw_name
    (input : Input) :
    FailsByFlaw input.name := by
  unfold Input.name
  split
  · exact .flawed input _
  · split
    · exact .ok _
    · exact .flawed input _

theorem failsByFlaw_upTo
    (input : Input) (mark : List Char) (missing : Flaw) :
    FailsByFlaw (input.upTo mark missing) := by
  unfold upTo
  split
  · exact .ok _
  · exact .flawed input.atEnd missing

theorem failsByFlaw_expanded
    (input : Input) (stretch : List Char) :
    FailsByFlaw (input.expanded stretch) := by
  unfold expanded
  split
  · exact .ok _
  · exact .flawed input _

theorem failsByFlaw_value
    (input : Input) :
    FailsByFlaw input.value := by
  unfold Input.value
  split
  · split
    · apply FailsByFlaw.bind (failsByFlaw_upTo _ _ _)
      rintro ⟨stretch, next⟩
      exact (failsByFlaw_expanded next stretch).bind fun _ => .ok _
    · exact .flawed input _
  · exact .flawed input _

theorem failsByFlaw_assignment
    (input : Input) :
    FailsByFlaw input.assignment := by
  apply (failsByFlaw_name input).bind
  rintro ⟨name, named⟩
  apply (failsByFlaw_expect named.skipSpacing '=').bind
  intro marked
  exact (failsByFlaw_value marked.skipSpacing).bind fun _ => .ok _

end Input

namespace Reader

theorem failsByFlaw_tagPart
    (input : Input) :
    FailsByFlaw (tagPart input) := by
  simp only [tagPart]
  split
  · exact .flawed _ _
  · split
    · exact .ok _
    · have assigned := Input.failsByFlaw_assignment input.skipSpacing
      split
      · next found =>
          rw [found] at assigned
          rintro _ ⟨⟩
          exact assigned _ rfl
      · exact .ok _

theorem failsByFlaw_attributes
    (input : Input) (found : List (String × String)) :
    FailsByFlaw (attributes input found) := by
  fun_induction attributes input found with
  | case1 input found fault failed =>
      rintro _ ⟨⟩
      exact failsByFlaw_tagPart input fault failed
  | case2 => exact .ok _
  | case3 => exact .flawed _ _
  | case4 _ _ _ _ _ _ _ ih => exact ih

variable (reader : Reader)

theorem failsByFlaw_startTag : FailsByFlaw reader.startTag := by
  apply (Input.failsByFlaw_name _).bind
  rintro ⟨name, named⟩
  apply (failsByFlaw_attributes named []).bind
  rintro ⟨found, input⟩
  dsimp only
  split
  · exact (Input.failsByFlaw_expect _ _).bind fun _ => .ok _
  · apply (Input.failsByFlaw_expect _ _).bind
    intro closed
    split
    · exact .flawed closed _
    · exact .ok _

theorem failsByFlaw_endTag : FailsByFlaw reader.endTag := by
  apply (Input.failsByFlaw_name _).bind
  rintro ⟨name, named⟩
  apply (Input.failsByFlaw_expect named.skipSpacing '>').bind
  intro closed
  split
  · exact .flawed closed _
  · split
    · exact .ok _
    · exact .flawed closed _

theorem failsByFlaw_characters : FailsByFlaw reader.characters := by
  apply (Input.failsByFlaw_expanded _ _).bind
  intro text
  split
  · split
    · exact .ok _
    · exact .flawed _ _
  · exact .ok _

theorem failsByFlaw_declared : FailsByFlaw reader.declared := by
  unfold declared
  split
  · exact (Input.failsByFlaw_upTo _ _ _).bind fun _ => .ok _
  · split
    · exact (Input.failsByFlaw_upTo _ _ _).bind fun _ => .ok _
    · exact (Input.failsByFlaw_upTo _ _ _).bind fun _ => .ok _

theorem failsByFlaw_instruction : FailsByFlaw reader.instruction :=
  (Input.failsByFlaw_upTo _ _ _).bind fun _ => .ok _

theorem failsByFlaw_step : FailsByFlaw reader.step := by
  unfold step
  split
  · split
    · exact .ok _
    · exact .flawed _ _
  · exact failsByFlaw_declared reader
  · exact failsByFlaw_instruction reader
  · exact failsByFlaw_endTag reader
  · exact failsByFlaw_startTag reader
  · exact failsByFlaw_characters reader

theorem failsByFlaw_run : FailsByFlaw reader.run.ending := by
  fun_induction Reader.run reader with
  | case1 reader fault failed =>
      rintro _ ⟨⟩
      exact failsByFlaw_step reader fault failed
  | case2 => exact .ok _
  | case3 _ _ _ ih => exact ih
  | case4 _ _ _ _ ih => exact ih

end Reader

/-- A reading fails because of the length of the text or because of a flaw. -/
theorem flaw_of_read
    {limits : Limits} {text : String} {fault : Fault}
    (failed : (read limits text).ending = .error fault) :
    fault = .ofKind (.tooLarge limits.size) ∨
      ∃ flaw place, fault = Flaw.fault flaw place := by
  unfold read at failed
  split at failed
  · cases failed
    exact .inl rfl
  · exact .inr (Reader.failsByFlaw_run _ fault failed)

/-- Reading does not fail because of a value that is to be inserted. -/
theorem kind_ne_of_read
    {limits : Limits} {text : String} {fault : Fault}
    (failed : (read limits text).ending = .error fault) (kind : RawPlace) :
    fault.kind ≠ .rawNotAllowed kind := by
  obtain rfl | ⟨flaw, place, rfl⟩ := flaw_of_read failed
  · nofun
  · cases flaw <;> nofun

end AmlExchange.Markup
