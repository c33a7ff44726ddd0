import AmlExchange.Proofs.Markup.Streams
import Mathlib.Data.List.TakeWhile

/-!
# How far reading looks

What is taken from the front of a text depends on what is taken and on how the
rest begins, not on the place where the text stands nor on how it goes on.
Lexemes are local in this sense (`Input.Local`), and so is what is made of
several, one after the other (`Input.Local.bind`).
-/

namespace AmlExchange.Markup

namespace Input

/-- Whether two texts begin alike for what is read before them: with the same
character, or both with an end of a tag. -/
def BeginAlike (first second : List Char) : Prop :=
  first.head? = second.head? ∨
    Reader.EndsTag first ∧ Reader.EndsTag second

theorem beginAlike_append
    {first second : List Char} (alike : BeginAlike first second)
    (stretch : List Char) :
    BeginAlike (stretch ++ first) (stretch ++ second) := by
  cases stretch with
  | nil => exact alike
  | cons char more => exact .inl rfl

theorem BeginAlike.head?_eq
    {first second : List Char} (alike : BeginAlike first second)
    (plain : ¬ Reader.EndsTag second) :
    first.head? = second.head? :=
  alike.resolve_right fun ends => plain ends.2

/-- Where a class without the ends of tags stops, it stops before whatever
begins alike. -/
theorem BeginAlike.stops
    {first second : List Char} (alike : BeginAlike first second)
    {test : Char → Bool} (slash : test '/' = false)
    (greater : test '>' = false)
    (stops : ∀ char ∈ second.head?, test char = false) :
    ∀ char ∈ first.head?, test char = false := by
  intro char begins
  rcases alike with same | ⟨⟨mark, ends, isMark⟩, -⟩
  · exact stops char (same ▸ begins)
  · obtain rfl : mark = char := Option.some.inj (ends.symm.trans begins)
    rcases isMark with rfl | rfl
    · exact slash
    · exact greater

/-- Whether what a lexeme makes of an input depends on nothing but the stretch
that it takes and the way in which the rest begins.  What is found goes
together with the input that is left. -/
structure Local {α ρ : Type} (put : α → Input → ρ)
    (lexeme : Input → Except Fault ρ) (input : Input) : Prop where
  takes : ∀ result, lexeme input = .ok result →
    ∃ value next stretch,
      result = put value next ∧ Leads input next stretch ∧
        ∀ (other : Input) (rest : List Char), other.rest = stretch ++ rest →
          BeginAlike rest next.rest →
            ∃ last, lexeme other = .ok (put value last) ∧ last.rest = rest
  fails : ∀ fault, lexeme input = .error fault →
    ∀ other : Input, other.rest = input.rest →
      ∃ again, lexeme other = .error again ∧ again.kind = fault.kind

namespace Local

variable {α β ρ σ : Type} {put : α → Input → ρ} {place : β → Input → σ}

/-- Taking nothing is local. -/
theorem pure
    (put : α → Input → ρ) (value : α) (input : Input) :
    Local put (fun input => .ok (put value input)) input where
  takes _ read := by
    cases read
    refine ⟨value, input, [], rfl, .refl input, ?_⟩
    intro other rest shape _
    exact ⟨other, rfl, shape⟩
  fails _ read := by cases read

/-- A refusal is local. -/
theorem flawed
    (put : α → Input → ρ) (flaw : Flaw) (input : Input) :
    Local put (fun input => input.flawed flaw) input where
  takes _ read := by cases read
  fails _ read other _ := by
    cases read
    exact ⟨flaw.fault other.place, rfl, rfl⟩

/-- One local lexeme after another. -/
theorem bind
    {first : Input → Except Fault ρ} {second : ρ → Except Fault σ}
    {input : Input} (front : Local put first input)
    (back : ∀ value next, first input = .ok (put value next) →
      Local place (fun input => second (put value input)) next) :
    Local place (fun input => first input >>= second) input where
  takes result read := by
    cases found : first input with
    | error fault =>
        simp only [found] at read
        cases read
    | ok middle =>
        simp only [found] at read
        obtain ⟨value, next, stretch, rfl, leads, again⟩ :=
          front.takes middle found
        obtain ⟨final, last, more, rfl, leadsMore, againMore⟩ :=
          (back value next found).takes result read
        refine
          ⟨final, last, stretch ++ more, rfl, leads.trans leadsMore, ?_⟩
        intro other rest shape alike
        rw [List.append_assoc] at shape
        obtain ⟨between, passed, left⟩ :=
          again other _ shape
            (leadsMore.1 ▸ beginAlike_append alike more)
        obtain ⟨ended, finished, remains⟩ :=
          againMore between rest left alike
        refine ⟨ended, ?_, remains⟩
        simp only [passed]
        exact finished
  fails fault read other same := by
    cases found : first input with
    | error refusal =>
        simp only [found] at read
        cases read
        obtain ⟨again, refused, kind⟩ := front.fails _ found other same
        refine ⟨again, ?_, kind⟩
        simp only [refused]
        rfl
    | ok middle =>
        simp only [found] at read
        obtain ⟨value, next, stretch, rfl, leads, again⟩ :=
          front.takes middle found
        obtain ⟨between, passed, left⟩ :=
          again other next.rest (same.trans leads.1) (.inl rfl)
        obtain ⟨refusal, refused, kind⟩ :=
          (back value next found).fails fault read between left
        refine ⟨refusal, ?_, kind⟩
        simp only [passed]
        exact refused

/-- A lexeme that does the same as a local one on all texts that begin
alike. -/
theorem congr
    {lexeme branch : Input → Except Fault ρ} {input : Input}
    (same : ∀ other : Input, BeginAlike other.rest input.rest →
      lexeme other = branch other)
    (local' : Local put branch input) :
    Local put lexeme input where
  takes result read := by
    rw [same input (.inl rfl)] at read
    obtain ⟨value, next, stretch, final, leads, again⟩ :=
      local'.takes result read
    refine ⟨value, next, stretch, final, leads, ?_⟩
    intro other rest shape alike
    have begins : BeginAlike other.rest input.rest := by
      rw [shape, leads.1]
      exact beginAlike_append alike stretch
    rw [same other begins]
    exact again other rest shape alike
  fails fault read other rest := by
    rw [same input (.inl rfl)] at read
    rw [same other (.inl (congrArg List.head? rest))]
    exact local'.fails fault read other rest

end Local

/-- What is left of an input, and nothing else. -/
def alone (_ : Unit) (input : Input) : Input :=
  input

section

variable {α β ρ σ : Type} {put : α → Input → ρ} {place : β → Input → σ}

/-- Whether what a lexeme takes ends with the end of a tag and is taken alike
however the text goes on. -/
def Closes (put : α → Input → ρ) (lexeme : Input → Except Fault ρ)
    (input : Input) : Prop :=
  ∀ result, lexeme input = .ok result →
    ∃ value next passed,
      result = put value next ∧ Leads input next (passed ++ ['>']) ∧
        ∀ (other : Input) (rest : List Char),
          other.rest = passed ++ '>' :: rest →
            ∃ last, lexeme other = .ok (put value last) ∧ last.rest = rest

/-- A local lexeme and then one that closes.  What follows the first begins
alike, as the second takes something. -/
theorem Local.closes
    {first : Input → Except Fault ρ} {second : ρ → Except Fault σ}
    {input : Input} (front : Local put first input)
    (back : ∀ value next, first input = .ok (put value next) →
      Closes place (fun input => second (put value input)) next) :
    Closes place (fun input => first input >>= second) input := by
  intro result read
  cases found : first input with
  | error fault =>
      simp only [found] at read
      cases read
  | ok middle =>
      simp only [found] at read
      obtain ⟨value, next, stretch, rfl, leads, again⟩ :=
        front.takes middle found
      obtain ⟨final, last, passed, rfl, leadsMore, againMore⟩ :=
        back value next found result read
      have whole := leads.trans leadsMore
      rw [← List.append_assoc] at whole
      refine ⟨final, last, stretch ++ passed, rfl, whole, ?_⟩
      intro other rest shape
      have alike : BeginAlike (passed ++ '>' :: rest) next.rest := by
        rw [leadsMore.1, List.append_assoc]
        apply beginAlike_append
        exact .inl rfl
      rw [List.append_assoc] at shape
      obtain ⟨between, took, left⟩ := again other _ shape alike
      obtain ⟨ended, finished, remains⟩ := againMore between rest left
      refine ⟨ended, ?_, remains⟩
      simp only [took]
      exact finished

/-- A lexeme that closes after some text is passed over. -/
theorem Closes.after
    {lexeme : Input → Except Fault ρ} {pass : Input → Input} {input : Input}
    (passed : Local alone (fun input => .ok (pass input)) input)
    (closes : Closes put lexeme (pass input)) :
    Closes put (fun input => lexeme (pass input)) input := by
  refine @Local.closes _ _ _ _ _ _ _ lexeme _ passed ?_
  intro _ next same
  cases same
  exact closes

/-- What is made of a lexeme that closes, without taking more. -/
theorem Closes.map
    {first : Input → Except Fault ρ} {second : ρ → Except Fault σ}
    {input : Input} (front : Closes put first input)
    (back : ∀ value next result,
      second (put value next) = .ok result →
        ∃ final, ∀ other, second (put value other) = .ok (place final other)) :
    Closes place (fun input => first input >>= second) input := by
  intro result read
  cases found : first input with
  | error fault =>
      simp only [found] at read
      cases read
  | ok middle =>
      simp only [found] at read
      obtain ⟨value, next, passed, rfl, leads, again⟩ := front middle found
      obtain ⟨final, same⟩ := back value next result read
      have made : result = place final next :=
        Except.ok.inj (read.symm.trans (same next))
      refine ⟨final, next, passed, made, leads, ?_⟩
      intro other rest shape
      obtain ⟨last, took, left⟩ := again other rest shape
      refine ⟨last, ?_, left⟩
      simp only [took]
      exact same last

end

/-! ## Lexemes -/

theorem local_drop
    (count : Nat) (input : Input) :
    Local alone (fun input => .ok (input.drop count)) input where
  takes _ read := by
    cases read
    refine ⟨(), _, _, rfl, leads_drop input count, ?_⟩
    intro other rest shape alike
    refine ⟨other.drop count, rfl, ?_⟩
    show other.rest.drop count = rest
    rcases Nat.le_total count input.rest.length with long | short
    · rw [shape, List.drop_left' (List.length_take_of_le long)]
    · have nothing : input.rest.drop count = [] :=
        List.drop_eq_nil_of_le short
      have ended : rest = [] := by
        rcases alike with same | ⟨-, char, begins, -⟩
        · exact List.head?_eq_none_iff.mp (same.trans (by simp [nothing]))
        · simp [nothing] at begins
      rw [shape, ended, List.append_nil, List.take_of_length_le short]
      exact List.drop_eq_nil_of_le short
  fails _ read := by cases read

theorem local_dropWhile
    {test : Char → Bool} (slash : test '/' = false)
    (greater : test '>' = false) (input : Input) :
    Local alone (fun input => .ok (input.dropWhile test)) input where
  takes _ read := by
    cases read
    refine ⟨(), _, _, rfl, leads_dropWhile input test, ?_⟩
    intro other rest shape alike
    refine ⟨other.dropWhile test, rfl, ?_⟩
    show other.rest.dropWhile test = rest
    rw [shape]
    apply Text.dropWhile_append_of_stops
    · exact fun char member => List.mem_takeWhile_imp member
    · apply alike.stops slash greater
      exact Text.stops_dropWhile test input.rest
  fails _ read := by cases read

theorem local_skipSpacing
    (input : Input) :
    Local alone (fun input => .ok input.skipSpacing) input :=
  local_dropWhile rfl rfl input

theorem local_expect
    (mark : Char) (input : Input) :
    Local alone (fun input => input.expect mark) input where
  takes next read := by
    refine ⟨(), next, _, rfl, leads_expect read, ?_⟩
    intro other rest shape _
    exact expect_of_cons shape
  fails fault read other same := by
    unfold expect at read ⊢
    rw [same]
    split at read
    · cases read
      exact ⟨_, rfl, rfl⟩
    · split at read
      · cases read
      · next different =>
          cases read
          rw [if_neg different]
          exact ⟨_, rfl, rfl⟩

theorem local_name
    (input : Input) :
    Local Prod.mk name input where
  takes result read := by
    obtain ⟨name, next⟩ := result
    obtain ⟨leads, lawful⟩ := leads_name read
    refine ⟨name, next, _, rfl, leads, ?_⟩
    intro other rest shape alike
    apply name_of_append shape lawful
    apply alike.stops (by decide) (by decide)
    have left : next = input.dropWhile isNameChar := by
      unfold Input.name at read
      split at read
      · cases read
      · split at read <;> cases read
        rfl
    rw [left]
    exact Text.stops_dropWhile isNameChar input.rest
  fails fault read other same := by
    unfold Input.name at read ⊢
    rw [same]
    split at read
    · cases read
      exact ⟨_, rfl, rfl⟩
    · split at read
      · cases read
      · next different =>
          cases read
          simp only [different]
          exact ⟨_, rfl, rfl⟩

theorem local_upTo
    {init : List Char} {last : Char} (fresh : last ∉ init) (missing : Flaw)
    (input : Input) :
    Local Prod.mk (fun input => input.upTo (init ++ [last]) missing)
      input where
  takes result read := by
    obtain ⟨stretch, next⟩ := result
    refine ⟨stretch, next, _, rfl, leads_upTo read, ?_⟩
    intro other rest shape _
    exact upTo_of_append shape fresh (not_infix_of_upTo read)
  fails fault read other same := by
    unfold upTo at read ⊢
    rw [same]
    split at read
    · cases read
    · cases read
      exact ⟨_, rfl, rfl⟩

theorem closes_expect
    (input : Input) :
    Closes alone (fun input => input.expect '>') input := by
  intro next read
  refine ⟨(), next, [], rfl, leads_expect read, ?_⟩
  intro other rest shape
  exact expect_of_cons shape

theorem closes_upTo
    {init : List Char} (fresh : '>' ∉ init) (missing : Flaw) (input : Input) :
    Closes Prod.mk (fun input => input.upTo (init ++ ['>']) missing)
      input := by
  intro result read
  obtain ⟨stretch, next⟩ := result
  have leads := leads_upTo read
  rw [← List.append_assoc] at leads
  refine ⟨stretch, next, stretch ++ init, rfl, leads, ?_⟩
  intro other rest shape
  apply upTo_of_append _ fresh (not_infix_of_upTo read)
  simpa using shape

/-- A lexeme that goes on from a stretch with its references expanded. -/
theorem local_expanded
    {α ρ : Type} {put : α → Input → ρ}
    {lexeme : String → Input → Except Fault ρ} {input : Input}
    (local' : ∀ text, Local put (lexeme text) input)
    (stretch : List Char) :
    Local put
      (fun input =>
        input.expanded stretch >>= fun text => lexeme text input)
      input := by
  simp only [expanded]
  cases expandReferences stretch with
  | ok text => exact local' (String.ofList text)
  | error reference =>
      exact .flawed put (.badReference (String.ofList reference)) input

/-- One lexeme after some text is passed over. -/
theorem Local.after
    {α ρ : Type} {put : α → Input → ρ} {lexeme : Input → Except Fault ρ}
    {pass : Input → Input} {input : Input}
    (passed : Local alone (fun input => .ok (pass input)) input)
    (local' : Local put lexeme (pass input)) :
    Local put (fun input => lexeme (pass input)) input := by
  refine @Local.bind _ _ _ _ _ _ _ lexeme _ passed ?_
  intro _ next same
  cases same
  exact local'

theorem not_endsTag_cons
    {char : Char} (slash : char ≠ '/') (greater : char ≠ '>')
    (rest : List Char) :
    ¬ Reader.EndsTag (char :: rest) := by
  rintro ⟨mark, begins, isMark⟩
  cases begins
  exact isMark.elim slash greater

theorem local_value
    (input : Input) :
    Local Prod.mk value input := by
  have refused (other : Input)
      (unquoted : ∀ quote ∈ other.rest.head?,
        ¬ (quote = '"' ∨ quote = '\'')) :
      other.value = other.flawed .quoteExpected := by
    unfold value
    split
    · next shape => rw [if_neg (unquoted _ (by rw [shape]; rfl))]
    · rfl
  by_cases quoted : ∀ quote ∈ input.rest.head?, ¬ (quote = '"' ∨ quote = '\'')
  · apply Local.congr _ (.flawed Prod.mk .quoteExpected input)
    intro other alike
    apply refused
    rcases alike with same | ⟨⟨mark, begins, isMark⟩, -⟩
    · exact same ▸ quoted
    · intro quote first
      obtain rfl : mark = quote := Option.some.inj (begins.symm.trans first)
      rcases isMark with rfl | rfl <;> decide
  · push Not at quoted
    obtain ⟨quote, begins, isQuote⟩ := quoted
    obtain ⟨more, shape⟩ := List.head?_eq_some_iff.mp begins
    have plain : ¬ Reader.EndsTag input.rest := by
      rw [shape]
      rcases isQuote with rfl | rfl <;>
        exact not_endsTag_cons (by decide) (by decide) more
    have within (other : Input) :
        Local Prod.mk
          (fun input =>
            input.upTo ([] ++ [quote]) .unterminatedValue >>=
              fun pair => pair.2.expanded pair.1 >>=
                fun text => .ok (text, pair.2))
          other :=
      .bind (local_upTo List.not_mem_nil _ other)
        fun stretch next _ =>
          local_expanded (fun text => .pure Prod.mk text next) stretch
    apply Local.congr _ (.after (local_drop 1 input) (within _))
    intro other alike
    obtain ⟨tail, otherShape⟩ :=
      List.head?_eq_some_iff.mp ((alike.head?_eq plain).trans begins)
    unfold value
    rw [otherShape]
    exact if_pos isQuote

theorem local_assignment
    (input : Input) :
    Local Prod.mk assignment input := by
  have valued (name : String) (marked : Input) :
      Local Prod.mk
        (fun input => input.skipSpacing.value >>= fun valued =>
          .ok ((name, valued.1), valued.2))
        marked :=
    .bind (.after (local_skipSpacing marked) (local_value _))
      fun text next _ => .pure Prod.mk (name, text) next
  have marked (name : String) (named : Input) :
      Local Prod.mk
        (fun input => input.skipSpacing.expect '=' >>= fun marked =>
          marked.skipSpacing.value >>= fun valued =>
            .ok ((name, valued.1), valued.2))
        named :=
    .bind (.after (local_skipSpacing named) (local_expect '=' _))
      fun _ next _ => valued name next
  exact .bind (local_name input) fun name next _ => marked name next

end Input

namespace Reader

open Input

/-- The next part of a tag, if it is an attribute, and the input that is
left. -/
def TagPart.of : Option (String × String) → Input → TagPart
  | some (name, value), next => .field name value next
  | none, next => .close next

/-- The part of a tag that begins at once. -/
def partAt (front : Input) : Except Fault TagPart :=
  match front.rest with
  | [] => front.flawed .unterminatedTag
  | char :: _ =>
      if char = '/' ∨ char = '>' then .ok (.close front)
      else
        match front.assignment with
        | .error fault => .error fault
        | .ok ((name, value), next) => .ok (.field name value next)

theorem local_partAt
    (front : Input) :
    Local TagPart.of partAt front := by
  cases shape : front.rest with
  | nil =>
      apply Local.congr _ (.flawed TagPart.of .unterminatedTag front)
      intro other alike
      have plain : ¬ EndsTag front.rest := by
        rw [shape]
        rintro ⟨mark, begins, -⟩
        cases begins
      have ended := alike.head?_eq plain
      rw [shape, List.head?_nil, List.head?_eq_none_iff] at ended
      simp only [partAt, ended]
  | cons char rest =>
      by_cases ends : char = '/' ∨ char = '>'
      · apply Local.congr _ (.pure TagPart.of none front)
        intro other alike
        have otherEnds : EndsTag other.rest := by
          have here : EndsTag front.rest := ⟨char, by rw [shape]; rfl, ends⟩
          rcases alike with same | both
          · rwa [EndsTag, same]
          · exact both.1
        obtain ⟨mark, begins, isMark⟩ := otherEnds
        obtain ⟨more, otherShape⟩ := List.head?_eq_some_iff.mp begins
        simp only [partAt, otherShape]
        exact if_pos isMark
      · have assigned :
            Local TagPart.of
              (fun front => front.assignment >>= fun pair =>
                .ok (.field pair.1.1 pair.1.2 pair.2))
              front :=
          .bind (local_assignment front) fun field next _ =>
            .pure TagPart.of (some field) next
        apply Local.congr _ assigned
        intro other alike
        have plain : ¬ EndsTag front.rest := by
          rw [shape]
          rw [not_or] at ends
          exact not_endsTag_cons ends.1 ends.2 rest
        have begins := alike.head?_eq plain
        rw [shape] at begins
        obtain ⟨more, otherShape⟩ := List.head?_eq_some_iff.mp begins
        simp only [partAt, otherShape]
        rw [if_neg ends]
        cases other.assignment <;> rfl

theorem local_tagPart
    (input : Input) :
    Local TagPart.of tagPart input :=
  (Local.after (local_skipSpacing input) (local_partAt _) :)

/-- The attributes of a tag are taken one after the other. -/
theorem local_attributes
    (input : Input) (found : List (String × String)) :
    Local Prod.mk (fun input => attributes input found) input := by
  have step :
      (fun input => attributes input found) =
        fun input => tagPart input >>= fun part =>
          match part with
          | .close next => .ok (found, next)
          | .field name value next =>
              if names found name then next.flawed (.duplicateAttribute name)
              else attributes next (found ++ [(name, value)]) := by
    funext input
    rw [attributes_eq]
    cases tagPart input with
    | error fault => rfl
    | ok part => cases part <;> rfl
  rw [step]
  refine .bind (local_tagPart input) fun part next read => ?_
  cases part with
  | none => exact .pure Prod.mk found next
  | some field =>
      show
        Local Prod.mk
          (fun next =>
            if names found field.1 then
              next.flawed (.duplicateAttribute field.1)
            else attributes next (found ++ [field]))
          next
      split
      · exact .flawed Prod.mk (.duplicateAttribute field.1) next
      · exact local_attributes next (found ++ [field])
termination_by input.rest.length
decreasing_by
  obtain ⟨_, moved, leads⟩ := leads_tagPart_field read
  exact leads.length_lt moved

end Reader

end AmlExchange.Markup
