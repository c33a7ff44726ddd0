import AmlExchange.Markup.Flaw
import AmlExchange.Markup.Name
import AmlExchange.Markup.Reference
import AmlExchange.Text.Blank

/-!
# Lexemes of markup

What remains to be read of a text, together with the place where it begins,
and the lexemes that can be taken from its front: marks, names, quoted values
and stretches up to a mark.  Every lexeme leaves a later part of the same text
at the right place (`Input.Leads`), so reading always moves on.
-/

namespace AmlExchange.Markup

open Text (Position)

/-- The rest of a text and the place where it begins. -/
structure Input where
  rest : List Char
  place : Position

namespace Input

/-- A text before anything of it is read. -/
def ofText (text : String) : Input :=
  ⟨text.toList, .start⟩

/-- A flaw at the front of the rest. -/
def flawed (input : Input) (flaw : Flaw) : Except Fault α :=
  .error (flaw.fault input.place)

/-- The rest without a number of characters. -/
def drop (input : Input) (count : Nat) : Input :=
  ⟨input.rest.drop count, input.place.past (input.rest.take count)⟩

/-- The rest from the first character on that a test refuses. -/
def dropWhile (input : Input) (test : Char → Bool) : Input :=
  ⟨input.rest.dropWhile test, input.place.past (input.rest.takeWhile test)⟩

/-- The rest from the first character on that is not spacing. -/
def skipSpacing (input : Input) : Input :=
  input.dropWhile Text.isSpacing

/-- The end of the text. -/
def atEnd (input : Input) : Input :=
  input.drop input.rest.length

/-- The rest after a character that must come first. -/
def expect (input : Input) (mark : Char) : Except Fault Input :=
  match input.rest with
  | [] => input.flawed .endBeforeMark
  | char :: _ =>
      if char = mark then .ok (input.drop 1)
      else input.flawed .markExpected

/-- The name at the front. -/
def name (input : Input) : Except Fault (String × Input) :=
  match input.rest with
  | [] => input.flawed .endBeforeName
  | char :: _ =>
      if isNameStart char then
        .ok (String.ofList (input.rest.takeWhile isNameChar),
          input.dropWhile isNameChar)
      else input.flawed .nameExpected

/-- The stretch before the first occurrence of a mark, and the rest after the
mark. -/
def upTo (input : Input) (mark : List Char) (missing : Flaw) :
    Except Fault (List Char × Input) :=
  match Text.cutAt? mark input.rest with
  | some (before, after) =>
      .ok (before, ⟨after, input.place.past (before ++ mark)⟩)
  | none => input.atEnd.flawed missing

/-- A stretch with its references expanded.  A flaw is reported at the place
that reading has reached. -/
def expanded (input : Input) (stretch : List Char) : Except Fault String :=
  match expandReferences stretch with
  | .ok text => .ok (String.ofList text)
  | .error reference =>
      input.flawed (.badReference (String.ofList reference))

/-- The value between quotation marks or apostrophes at the front. -/
def value (input : Input) : Except Fault (String × Input) :=
  match input.rest with
  | quote :: _ =>
      if quote = '"' ∨ quote = '\'' then do
        let (stretch, next) ← (input.drop 1).upTo [quote] .unterminatedValue
        let text ← next.expanded stretch
        .ok (text, next)
      else input.flawed .quoteExpected
  | [] => input.flawed .quoteExpected

/-- The attribute at the front: a name, an equals sign and a value. -/
def assignment (input : Input) : Except Fault ((String × String) × Input) := do
  let (name, input) ← input.name
  let input ← input.skipSpacing.expect '='
  let (value, input) ← input.skipSpacing.value
  .ok ((name, value), input)

/-- Whether one input is what another leaves after a stretch of its text. -/
def Leads (input next : Input) (stretch : List Char) : Prop :=
  input.rest = stretch ++ next.rest ∧ next.place = input.place.past stretch

namespace Leads

theorem refl (input : Input) : Leads input input [] :=
  ⟨rfl, rfl⟩

theorem trans {first second third : Input} {left right : List Char}
    (before : Leads first second left) (after : Leads second third right) :
    Leads first third (left ++ right) :=
  ⟨by rw [before.1, after.1, List.append_assoc],
    by rw [after.2, before.2, Position.past_append]⟩

theorem length_lt {input next : Input} {stretch : List Char}
    (leads : Leads input next stretch) (moved : stretch ≠ []) :
    next.rest.length < input.rest.length := by
  have := List.length_pos_iff.mpr moved
  simp only [leads.1, List.length_append]
  omega

end Leads

theorem leads_drop (input : Input) (count : Nat) :
    Leads input (input.drop count) (input.rest.take count) :=
  ⟨(List.take_append_drop count input.rest).symm, rfl⟩

theorem leads_dropWhile (input : Input) (test : Char → Bool) :
    Leads input (input.dropWhile test) (input.rest.takeWhile test) :=
  ⟨List.takeWhile_append_dropWhile.symm, rfl⟩

theorem leads_expect {input next : Input} {mark : Char}
    (read : input.expect mark = .ok next) :
    Leads input next [mark] := by
  unfold expect at read
  split at read
  · cases read
  · next char rest shape =>
      split at read
      · next same =>
          cases read
          have := leads_drop input 1
          rwa [shape, List.take_succ_cons, List.take_zero, same] at this
      · cases read

theorem leads_name {input next : Input} {name : String}
    (read : input.name = .ok (name, next)) :
    Leads input next name.toList ∧ isName name.toList = true := by
  unfold Input.name at read
  split at read
  · cases read
  · next char rest shape =>
      split at read
      · next start =>
          cases read
          refine ⟨by simpa using leads_dropWhile input isNameChar, ?_⟩
          simp [shape, isNameChar_of_isNameStart start, isName, start]
      · cases read

theorem leads_upTo {input next : Input} {mark stretch : List Char}
    {missing : Flaw} (read : input.upTo mark missing = .ok (stretch, next)) :
    Leads input next (stretch ++ mark) := by
  unfold upTo at read
  split at read
  · next before after found =>
      cases read
      exact ⟨Text.cutAt?_eq_some found, rfl⟩
  · cases read

theorem leads_value {input next : Input} {value : String}
    (read : input.value = .ok (value, next)) :
    ∃ stretch, stretch ≠ [] ∧ Leads input next stretch := by
  unfold Input.value at read
  split at read
  · next quote rest shape =>
      split at read
      · simp only [bind, Except.bind] at read
        split at read
        · cases read
        · next pair found =>
            split at read
            · cases read
            · cases read
              have leads := (leads_drop input 1).trans (leads_upTo found)
              exact ⟨_, by simp [shape], leads⟩
      · cases read
  · cases read

theorem leads_assignment {input next : Input} {field : String × String}
    (read : input.assignment = .ok (field, next)) :
    ∃ stretch, stretch ≠ [] ∧ Leads input next stretch := by
  simp only [Input.assignment, bind, Except.bind] at read
  split at read
  · cases read
  · next named nameRead =>
      split at read
      · cases read
      · next marked markRead =>
          split at read
          · cases read
          · next valued valueRead =>
              cases read
              have first := (leads_name nameRead).1
              have second := leads_dropWhile named.2 Text.isSpacing
              have third := leads_expect markRead
              have fourth := leads_dropWhile marked Text.isSpacing
              obtain ⟨_, _, last⟩ := leads_value valueRead
              exact ⟨_, by simp,
                (((first.trans second).trans third).trans fourth).trans last⟩

end Input

end AmlExchange.Markup
