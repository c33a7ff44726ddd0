import AmlExchange.Proofs.Markup.Locality

/-!
# How far a step of the reader looks

A step depends on what it passes and on the character after that, wherever the
text stands (`Reader.step_of_append`).  A step at a tag depends on the tag alone
(`Reader.step_of_tagged`), and its end may even be exchanged for the other one:
what stands before it is read alike.
-/

namespace AmlExchange.Markup

namespace Reader

open Input

/-! ## Tags -/

/-- A step with other input left after it. -/
def Step.leaving (step : Step) (input : Input) : Step :=
  match step with
  | .ended => .ended
  | .skipped next => .skipped { next with input }
  | .delivered event next => .delivered event { next with input }

/-- The name and the attributes of the start tag at the front. -/
def opening (input : Input) :
    Except Fault ((String × List (String × String)) × Input) :=
  (input.drop 1).name >>= fun named =>
    attributes named.2 [] >>= fun tagged =>
      .ok ((named.1, tagged.1), tagged.2)

/-- The step that a start tag comes to at its end. -/
def closeTag (reader : Reader) (name : String)
    (found : List (String × String)) (input : Input) : Except Fault Step :=
  match input.rest with
  | '/' :: _ =>
      (input.drop 1).expect '>' >>= fun input =>
        .ok (.delivered (.start name found true) { reader with input })
  | _ =>
      input.expect '>' >>= fun input =>
        if 0 < reader.depth ∧ reader.depth ≤ reader.openNames.length then
          input.flawed (.tooDeep reader.depth)
        else
          .ok (.delivered (.start name found false)
            { reader with input, openNames := name :: reader.openNames })

theorem startTag_eq
    (reader : Reader) :
    reader.startTag =
      opening reader.input >>= fun tag =>
        reader.closeTag tag.1.1 tag.1.2 tag.2 := by
  rw [startTag, opening, bind_assoc]
  congr 1
  funext named
  rw [bind_assoc]
  congr 1

theorem local_opening
    (input : Input) :
    Local Prod.mk opening input := by
  have tagged (name : String) (named : Input) :
      Local Prod.mk
        (fun input => attributes input [] >>= fun tagged =>
          .ok ((name, tagged.1), tagged.2))
        named :=
    .bind (local_attributes named []) fun found next _ =>
      .pure Prod.mk (name, found) next
  exact
    .bind (.after (local_drop 1 input) (local_name _))
      fun name next _ => tagged name next

/-- The mark that ends a start tag. -/
def closeMark (empty : Bool) : List Char :=
  if empty then ['/', '>'] else ['>']

/-- A reader after a start tag. -/
def entered (reader : Reader) (name : String) (empty : Bool)
    (input : Input) : Reader :=
  { reader with
    input
    openNames := if empty then reader.openNames else name :: reader.openNames }

/-- Whether one more element may be open. -/
def HasRoom (reader : Reader) : Prop :=
  0 < reader.depth → reader.openNames.length < reader.depth

section

variable
  {reader : Reader}
  {name : String} {found : List (String × String)}
  {input : Input}

theorem closeTag_of_mark
    {empty : Bool} (room : empty = false → reader.HasRoom)
    {rest : List Char} (shape : input.rest = closeMark empty ++ rest) :
    ∃ next,
      reader.closeTag name found input =
          .ok
            (.delivered (.start name found empty)
              (reader.entered name empty next)) ∧
        next.rest = rest := by
  cases empty with
  | true =>
      have front : input.rest = '/' :: '>' :: rest := shape
      have after : (input.drop 1).rest = '>' :: rest := by
        simp [Input.drop, front]
      obtain ⟨next, closed, left⟩ := Input.expect_of_cons after
      refine ⟨next, ?_, left⟩
      rw [closeTag, front]
      simp only [closed]
      rfl
  | false =>
      have front : input.rest = '>' :: rest := shape
      obtain ⟨next, closed, left⟩ := Input.expect_of_cons front
      have fits :
          ¬ (0 < reader.depth ∧ reader.depth ≤ reader.openNames.length) :=
        fun full => absurd (room rfl full.1) (Nat.not_lt_of_le full.2)
      refine ⟨next, ?_, left⟩
      rw [closeTag, front]
      simp only [closed]
      exact if_neg fits

theorem mark_of_closeTag
    {step : Step} (read : reader.closeTag name found input = .ok step) :
    ∃ empty next,
      step =
          .delivered (.start name found empty)
            (reader.entered name empty next) ∧
        Leads input next (closeMark empty) ∧
          (empty = false → reader.HasRoom) := by
  unfold closeTag at read
  simp only [bind, Except.bind] at read
  split at read
  · next rest shape =>
      split at read
      · cases read
      · next closed closeRead =>
          cases read
          have first := leads_drop input 1
          rw [shape] at first
          exact
            ⟨true, closed, rfl, first.trans (leads_expect closeRead), nofun⟩
  · split at read
    · cases read
    · next closed closeRead =>
        split at read
        · cases read
        · next room =>
            cases read
            rw [not_and, Nat.not_le] at room
            exact
              ⟨false, closed, rfl, leads_expect closeRead, fun _ => room⟩

theorem local_closeTag
    (reader : Reader) (name : String) (found : List (String × String))
    (input : Input) :
    Local Step.leaving (fun input => reader.closeTag name found input)
      input where
  takes step read := by
    obtain ⟨empty, next, rfl, leads, room⟩ := mark_of_closeTag read
    refine
      ⟨.delivered (.start name found empty) (reader.entered name empty next),
        next, _, rfl, leads, ?_⟩
    intro other rest shape _
    exact closeTag_of_mark room shape
  fails fault read other same := by
    have short :
        Local Step.leaving
          (fun input => (input.drop 1).expect '>' >>= fun input =>
            .ok (.delivered (.start name found true) { reader with input }))
          input :=
      .bind (.after (local_drop 1 input) (local_expect '>' _))
        fun _ next _ =>
          .pure Step.leaving
            (.delivered (.start name found true)
              { reader with input := next })
            next
    have full :
        Local Step.leaving
          (fun input => input.expect '>' >>= fun input =>
            if 0 < reader.depth ∧ reader.depth ≤ reader.openNames.length then
              input.flawed (.tooDeep reader.depth)
            else
              .ok (.delivered (.start name found false)
                { reader with input, openNames := name :: reader.openNames }))
          input := by
      refine .bind (local_expect '>' input) fun _ next _ => ?_
      split
      · exact .flawed _ (.tooDeep reader.depth) next
      · exact
          .pure Step.leaving
            (.delivered (.start name found false)
              { reader with
                input := next, openNames := name :: reader.openNames })
            next
    unfold closeTag at read ⊢
    rw [same]
    split at read
    · next rest shape => exact short.fails fault read other same
    · exact full.fails fault read other same

theorem closes_closeTag
    (reader : Reader) (name : String) (found : List (String × String))
    (input : Input) :
    Closes Step.leaving (fun input => reader.closeTag name found input)
      input := by
  intro step read
  obtain ⟨empty, next, rfl, leads, room⟩ := mark_of_closeTag read
  have mark : closeMark empty = (if empty then ['/'] else []) ++ ['>'] := by
    cases empty <;> rfl
  refine
    ⟨.delivered (.start name found empty) (reader.entered name empty next),
      next, _, rfl, mark ▸ leads, ?_⟩
  intro other rest shape
  apply closeTag_of_mark room
  rw [shape, mark, List.append_assoc]
  rfl

theorem local_startTag
    (reader : Reader) (input : Input) :
    Local Step.leaving
      (fun input => Reader.startTag { reader with input }) input := by
  simp only [startTag_eq]
  show
    Local Step.leaving
      (fun input => opening input >>= fun tag =>
        reader.closeTag tag.1.1 tag.1.2 tag.2)
      input
  exact (local_opening input).bind fun tag next _ =>
    local_closeTag reader tag.1 tag.2 next

theorem closes_startTag
    (reader : Reader) (input : Input) :
    Closes Step.leaving
      (fun input => Reader.startTag { reader with input }) input := by
  simp only [startTag_eq]
  show
    Closes Step.leaving
      (fun input => opening input >>= fun tag =>
        reader.closeTag tag.1.1 tag.1.2 tag.2)
      input
  exact (local_opening input).closes fun tag next _ =>
    closes_closeTag reader tag.1 tag.2 next

end

/-! ## The other steps -/

/-- The step that an end tag comes to at its end. -/
def closeElement (reader : Reader) (name : String) (input : Input) :
    Except Fault Step :=
  match reader.openNames with
  | [] => input.flawed .unexpectedEndTag
  | expected :: outer =>
      if expected = name then
        .ok (.delivered (.finish name)
          { reader with input, openNames := outer })
      else input.flawed (.mismatchedTag expected name)

theorem local_endTag
    (reader : Reader) (input : Input) :
    Local Step.leaving
      (fun input => Reader.endTag { reader with input }) input := by
  have closed (name : String) (after : Input) :
      Local Step.leaving (fun input => reader.closeElement name input)
        after := by
    unfold closeElement
    cases reader.openNames with
    | nil => exact .flawed _ .unexpectedEndTag after
    | cons expected outer =>
        dsimp only
        split
        · exact
            .pure Step.leaving
              (.delivered (.finish name)
                { reader with input := after, openNames := outer })
              after
        · exact .flawed _ (.mismatchedTag expected name) after
  have marked (name : String) (named : Input) :
      Local Step.leaving
        (fun input => input.skipSpacing.expect '>' >>= fun input =>
          reader.closeElement name input)
        named :=
    .bind (.after (local_skipSpacing named) (local_expect '>' _))
      fun _ next _ => closed name next
  show
    Local Step.leaving
      (fun input => (input.drop 2).name >>= fun named =>
        named.2.skipSpacing.expect '>' >>= fun input =>
          reader.closeElement named.1 input)
      input
  exact
    .bind (.after (local_drop 2 input) (local_name _))
      fun name next _ => marked name next

theorem closes_endTag
    (reader : Reader) (input : Input) :
    Closes Step.leaving
      (fun input => Reader.endTag { reader with input }) input := by
  have closed (name : String) (next : Input) (step : Step)
      (read : reader.closeElement name next = .ok step) :
      ∃ final : Step, ∀ other,
        reader.closeElement name other = .ok (final.leaving other) := by
    unfold closeElement at read ⊢
    split at read
    · cases read
    · next expected outer within =>
        split at read
        · next same =>
            exact
              ⟨.delivered (.finish name) { reader with openNames := outer },
                fun _ => if_pos same⟩
        · cases read
  have marked (name : String) (named : Input) :
      Closes Step.leaving
        (fun input => input.skipSpacing.expect '>' >>= fun input =>
          reader.closeElement name input)
        named := by
    have front :
        Closes alone (fun input => input.skipSpacing.expect '>') named :=
      .after (local_skipSpacing named) (closes_expect _)
    exact front.map fun _ next step => closed name next step
  show
    Closes Step.leaving
      (fun input => (input.drop 2).name >>= fun named =>
        named.2.skipSpacing.expect '>' >>= fun input =>
          reader.closeElement named.1 input)
      input
  exact
    Local.closes (.after (local_drop 2 input) (local_name _))
      fun name next _ => marked name next

/-- The step that text comes to at its end. -/
def passText (reader : Reader) (text : String) (input : Input) :
    Except Fault Step :=
  if reader.openNames.isEmpty then
    if isSpaced text then .ok (.skipped { reader with input })
    else input.flawed .textOutsideRoot
  else .ok (.delivered (.text text) { reader with input })

/-- A stretch of a class that the ends of tags belong to. -/
theorem local_stretch
    {test : Char → Bool} (slash : test '/' = true)
    (greater : test '>' = true) (input : Input) :
    Local Prod.mk
      (fun input => .ok (input.rest.takeWhile test, input.dropWhile test))
      input where
  takes _ read := by
    cases read
    refine ⟨_, _, _, rfl, leads_dropWhile input test, ?_⟩
    intro other rest shape alike
    have stops := Text.stops_dropWhile test input.rest
    have plain : ¬ EndsTag (input.dropWhile test).rest := by
      rintro ⟨mark, begins, isMark⟩
      have refused := stops mark begins
      rcases isMark with rfl | rfl <;> simp_all
    have inside : ∀ char ∈ input.rest.takeWhile test, test char = true :=
      fun char member => List.mem_takeWhile_imp member
    have ends : ∀ char ∈ rest.head?, test char = false := by
      rw [alike.head?_eq plain]
      exact stops
    refine ⟨other.dropWhile test, ?_, ?_⟩
    · rw [shape, Text.takeWhile_append_of_stops inside ends]
    · show other.rest.dropWhile test = rest
      rw [shape, Text.dropWhile_append_of_stops inside ends]
  fails _ read := by cases read

theorem local_characters
    (reader : Reader) (input : Input) :
    Local Step.leaving
      (fun input => Reader.characters { reader with input }) input := by
  have passed (text : String) (after : Input) :
      Local Step.leaving (fun input => reader.passText text input) after := by
    unfold passText
    split
    · split
      · exact .pure Step.leaving (.skipped { reader with input := after }) after
      · exact .flawed _ .textOutsideRoot after
    · exact
        .pure Step.leaving
          (.delivered (.text text) { reader with input := after }) after
  show
    Local Step.leaving
      (fun input =>
        .ok (input.rest.takeWhile (· ≠ '<'), input.dropWhile (· ≠ '<')) >>=
          fun cut => cut.2.expanded cut.1 >>= fun text =>
            reader.passText text cut.2)
      input
  exact (local_stretch rfl rfl input).bind fun stretch next _ =>
    local_expanded (fun text => passed text next) stretch

/-- A step that is built from what comes before a mark. -/
theorem local_cut
    {init : List Char} {last : Char} (fresh : last ∉ init)
    (build : List Char → Step) (input : Input) :
    Local Step.leaving
      (fun input =>
        input.upTo (init ++ [last]) .unterminatedMarkup >>= fun cut =>
          .ok ((build cut.1).leaving cut.2))
      input :=
  (local_upTo fresh .unterminatedMarkup input).bind fun stretch next _ =>
    .pure Step.leaving (build stretch) next

theorem closes_cut
    {init : List Char} (fresh : '>' ∉ init) (build : List Char → Step)
    (input : Input) :
    Closes Step.leaving
      (fun input =>
        input.upTo (init ++ ['>']) .unterminatedMarkup >>= fun cut =>
          .ok ((build cut.1).leaving cut.2))
      input :=
  (closes_upTo fresh .unterminatedMarkup input).map fun stretch _ _ _ =>
    ⟨build stretch, fun _ => rfl⟩

theorem local_instruction
    (reader : Reader) (input : Input) :
    Local Step.leaving
      (fun input => Reader.instruction { reader with input }) input :=
  @local_cut ['?'] '>' (by decide) (fun _ => .skipped reader) input

theorem closes_instruction
    (reader : Reader) (input : Input) :
    Closes Step.leaving
      (fun input => Reader.instruction { reader with input }) input :=
  @closes_cut ['?'] (by decide) (fun _ => .skipped reader) input

/-- What is chosen by a mark at the front closes if it does so after the
mark. -/
theorem closes_of_mark
    {ρ α : Type} {put : α → Input → ρ}
    {lexeme branch : Input → Except Fault ρ}
    {mark : List Char} {input : Input} (begins : mark <+: input.rest)
    (chosen : ∀ other : Input, mark <+: other.rest →
      lexeme other = branch (other.drop mark.length))
    (closes : Closes put branch (input.drop mark.length)) :
    Closes put lexeme input := by
  intro result read
  rw [chosen input begins] at read
  obtain ⟨value, next, passed, final, leads, again⟩ := closes result read
  have front : Leads input (input.drop mark.length) mark := by
    obtain ⟨more, shape⟩ := begins
    have dropped := leads_drop input mark.length
    rwa [← shape, List.take_left] at dropped
  have whole := front.trans leads
  rw [← List.append_assoc] at whole
  refine ⟨value, next, _, final, whole, ?_⟩
  intro other rest shape
  rw [List.append_assoc] at shape
  rw [chosen other (shape ▸ List.prefix_append ..)]
  apply again _ rest
  show other.rest.drop mark.length = _
  rw [shape, List.drop_left]

/-- A mark without the last character of a stretch lies within the rest of the
stretch if it stands at the front of the text. -/
theorem prefix_of_fresh
    {mark stretch rest : List Char} {last : Char} (fresh : last ∉ mark)
    (front : mark <+: stretch ++ last :: rest) :
    mark <+: stretch := by
  rcases Nat.le_total mark.length stretch.length with short | long
  · exact List.prefix_of_prefix_length_le front (List.prefix_append ..) short
  · obtain ⟨more, rfl⟩ :=
      List.prefix_of_prefix_length_le (List.prefix_append ..) front long
    rw [List.prefix_append_right_inj] at front
    cases more with
    | nil => simp
    | cons char tail =>
        obtain ⟨rfl, -⟩ := List.cons_prefix_cons.mp front
        exact absurd (by simp) fresh

theorem closes_declared
    (reader : Reader) (input : Input) :
    Closes Step.leaving
      (fun input => Reader.declared { reader with input }) input := by
  by_cases comment : "<!--".toList <+: input.rest
  · apply closes_of_mark comment _
      (@closes_cut ['-', '-'] (by decide)
        (fun stretch =>
          .delivered (.comment (String.ofList stretch)) reader) _)
    intro other begins
    exact if_pos (List.isPrefixOf_iff_prefix.mpr begins)
  by_cases data : "<![CDATA[".toList <+: input.rest
  · apply closes_of_mark data _
      (@closes_cut [']', ']'] (by decide)
        (fun stretch =>
          .delivered (.characterData (String.ofList stretch)) reader) _)
    intro other begins
    have noComment : ¬ "<!--".toList.isPrefixOf other.rest = true := by
      obtain ⟨more, shape⟩ := begins
      simp [← shape]
    rw [declared, if_neg noComment]
    exact if_pos (List.isPrefixOf_iff_prefix.mpr begins)
  · -- no stretch of a declaration can make up one of the other two marks
    have skipped {other : Input}
        (noComment : ¬ "<!--".toList <+: other.rest)
        (noData : ¬ "<![CDATA[".toList <+: other.rest) :
        Reader.declared { reader with input := other } =
          other.upTo ([] ++ ['>']) .unterminatedMarkup >>= fun cut =>
            .ok ((Step.skipped reader).leaving cut.2) := by
      rw [← List.isPrefixOf_iff_prefix] at noComment noData
      rw [declared, if_neg noComment, if_neg noData]
      rfl
    intro step read
    obtain ⟨value, next, passed, final, leads, again⟩ :=
      @closes_cut [] List.not_mem_nil (fun _ => .skipped reader) input step
        ((skipped comment data).symm.trans read)
    refine ⟨value, next, passed, final, leads, ?_⟩
    intro other rest shape
    have within {mark : List Char} (fresh : '>' ∉ mark)
        (front : mark <+: other.rest) :
        mark <+: input.rest := by
      rw [shape] at front
      rw [leads.1, List.append_assoc]
      exact (prefix_of_fresh fresh front).trans (List.prefix_append ..)
    obtain ⟨last, again, left⟩ := again other rest shape
    refine ⟨last, ?_, left⟩
    exact
      (skipped (fun front => comment (within (by decide) front))
        (fun front => data (within (by decide) front))).trans again

theorem local_declared
    (reader : Reader) (input : Input) :
    Local Step.leaving
      (fun input => Reader.declared { reader with input }) input where
  takes step read := by
    obtain ⟨value, next, passed, final, leads, again⟩ :=
      closes_declared reader input step read
    refine ⟨value, next, _, final, leads, ?_⟩
    intro other rest shape _
    apply again other rest
    rw [shape, List.append_assoc]
    rfl
  fails fault read other same := by
    have comment :=
      @local_cut ['-', '-'] '>' (by decide)
        (fun stretch =>
          .delivered (.comment (String.ofList stretch)) reader)
        (input.drop 4)
    have data :=
      @local_cut [']', ']'] '>' (by decide)
        (fun stretch =>
          .delivered (.characterData (String.ofList stretch)) reader)
        (input.drop 9)
    have declaration :=
      @local_cut [] '>' List.not_mem_nil (fun _ => .skipped reader) input
    have dropped (count : Nat) :
        (other.drop count).rest = (input.drop count).rest :=
      congrArg (List.drop count) same
    unfold declared at read ⊢
    dsimp only at read ⊢
    rw [same]
    split at read
    · next begins =>
        rw [if_pos begins]
        exact comment.fails fault read _ (dropped 4)
    · next noComment =>
        rw [if_neg noComment]
        split at read
        · next begins =>
            rw [if_pos begins]
            exact data.fails fault read _ (dropped 9)
        · next noData =>
            rw [if_neg noData]
            exact declaration.fails fault read other same

/-! ## One step -/

theorem step_of_tag
    {reader : Reader} {rest : List Char}
    (shape : reader.input.rest = '<' :: rest)
    (plain : ∀ char ∈ rest.head?, char ≠ '!' ∧ char ≠ '?' ∧ char ≠ '/') :
    reader.step = reader.startTag := by
  unfold step
  rw [shape]
  split
  · next empty => cases empty
  · next begins =>
      cases begins
      exact absurd rfl (plain '!' rfl).1
  · next begins =>
      cases begins
      exact absurd rfl (plain '?' rfl).2.1
  · next begins =>
      cases begins
      exact absurd rfl (plain '/' rfl).2.2
  · rfl
  · next noTag => exact absurd rfl (noTag rest)

/-- What a step does at a tag, chosen by the character after its mark. -/
theorem exists_tag_branch
    {reader : Reader} {rest : List Char}
    (tagged : reader.input.rest = '<' :: rest) :
    ∃ branch ∈ [startTag, endTag, declared, instruction],
      ∀ other : Reader,
        other.input.rest.take 2 = reader.input.rest.take 2 →
          other.step = branch other := by
  have begins {other : Reader}
      (same : other.input.rest.take 2 = reader.input.rest.take 2) :
      ∃ more, other.input.rest = '<' :: more ∧ more.head? = rest.head? := by
    rw [tagged] at same
    cases shape : other.input.rest with
    | nil => simp [shape] at same
    | cons first more =>
        have second := congrArg (fun front => front[1]?) same
        rw [shape, List.take_succ_cons, List.take_succ_cons,
          List.cons.injEq] at same
        obtain ⟨rfl, -⟩ := same
        exact ⟨more, rfl, by simpa [shape, List.head?_eq_getElem?] using second⟩
  by_cases plain : ∀ char ∈ rest.head?, char ≠ '!' ∧ char ≠ '?' ∧ char ≠ '/'
  · refine ⟨startTag, by simp, fun other same => ?_⟩
    obtain ⟨more, shape, second⟩ := begins same
    rw [← second] at plain
    exact step_of_tag shape plain
  · simp only [not_forall, not_and_or, not_not] at plain
    obtain ⟨char, first, mark⟩ := plain
    have marked {other : Reader}
        (same : other.input.rest.take 2 = reader.input.rest.take 2) :
        ∃ more, other.input.rest = '<' :: char :: more := by
      obtain ⟨more, shape, second⟩ := begins same
      obtain ⟨tail, rfl⟩ := List.head?_eq_some_iff.mp (second.trans first)
      exact ⟨tail, shape⟩
    rcases mark with rfl | rfl | rfl
    · refine ⟨declared, by simp, fun other same => ?_⟩
      obtain ⟨more, shape⟩ := marked same
      exact step_of_exclamation shape
    · refine ⟨instruction, by simp, fun other same => ?_⟩
      obtain ⟨more, shape⟩ := marked same
      simp [step, shape]
    · refine ⟨endTag, by simp, fun other same => ?_⟩
      obtain ⟨more, shape⟩ := marked same
      exact step_of_slash shape

/-- The first two characters choose what a step does. -/
theorem exists_local_branch
    {reader : Reader} (begun : reader.input.rest ≠ []) :
    ∃ branch : Input → Except Fault Step,
      Local Step.leaving branch reader.input ∧
        ∀ other : Input, other.rest.take 2 = reader.input.rest.take 2 →
          Reader.step { reader with input := other } = branch other := by
  cases shape : reader.input.rest with
  | nil => exact absurd shape begun
  | cons first rest =>
      by_cases tag : first = '<'
      · subst tag
        obtain ⟨branch, member, chosen⟩ := exists_tag_branch shape
        rw [shape] at chosen
        refine
          ⟨fun input => branch { reader with input }, ?_,
            fun other => chosen { reader with input := other }⟩
        simp only [List.mem_cons, List.not_mem_nil, or_false] at member
        rcases member with rfl | rfl | rfl | rfl
        · exact local_startTag reader _
        · exact local_endTag reader _
        · exact local_declared reader _
        · exact local_instruction reader _
      · refine ⟨_, local_characters reader reader.input, ?_⟩
        intro other same
        have begins := congrArg (fun front => front[0]?) same
        simp only [List.take_succ_cons, List.getElem?_cons_zero,
          List.getElem?_take, Nat.zero_lt_succ, if_true] at begins
        rw [← List.head?_eq_getElem?] at begins
        obtain ⟨more, otherShape⟩ := List.head?_eq_some_iff.mp begins
        exact
          @step_of_character { reader with input := other } first more
            otherShape tag

theorem take_two_append
    {stretch first second : List Char} (moved : stretch ≠ [])
    (alike : first.head? = second.head?) :
    (stretch ++ first).take 2 = (stretch ++ second).take 2 := by
  cases stretch with
  | nil => exact absurd rfl moved
  | cons char more =>
      cases more with
      | nil => simp [List.take_one, alike]
      | cons other tail => simp

/-- A step at a tag ends at the mark that ends the tag, whatever follows. -/
theorem step_of_tagged
    {reader next : Reader} {step : Step} {rest : List Char}
    (tagged : reader.input.rest = '<' :: rest)
    (read : reader.step = .ok step) (reached : step.next? = some next) :
    ∃ stretch, Leads reader.input next.input stretch ∧
      ∀ (other : Input) (rest : List Char), other.rest = stretch ++ rest →
        ∃ last,
          Reader.step { reader with input := other } =
              .ok (step.leaving last) ∧
            last.rest = rest := by
  obtain ⟨branch, member, chosen⟩ := exists_tag_branch tagged
  have closes :
      Closes Step.leaving (fun input => branch { reader with input })
        reader.input := by
    simp only [List.mem_cons, List.not_mem_nil, or_false] at member
    rcases member with rfl | rfl | rfl | rfl
    · exact closes_startTag reader _
    · exact closes_endTag reader _
    · exact closes_declared reader _
    · exact closes_instruction reader _
  obtain ⟨value, front, passed, rfl, leads, again⟩ :=
    closes step ((chosen reader rfl).symm.trans read)
  have arrived : next.input = front := by
    cases value <;> cases reached <;> rfl
  subst arrived
  refine ⟨_, leads, ?_⟩
  intro other more shape
  -- the mark at the front is not the one at the end
  have moved : passed ≠ [] := by
    rintro rfl
    rw [leads.1] at tagged
    cases tagged
  have same : other.rest.take 2 = reader.input.rest.take 2 := by
    rw [shape, leads.1, List.append_assoc, List.append_assoc]
    exact take_two_append moved rfl
  rw [List.append_assoc] at shape
  obtain ⟨last, took, left⟩ := again other more shape
  refine ⟨last, ?_, left⟩
  refine (chosen { reader with input := other } same).trans (took.trans ?_)
  cases value <;> rfl

/-- A step depends on what it passes and on the character after that. -/
theorem step_of_append
    {reader next : Reader} {step : Step} (read : reader.step = .ok step)
    (reached : step.next? = some next) :
    ∃ stretch, stretch ≠ [] ∧ Leads reader.input next.input stretch ∧
      ∀ (other : Input) (rest : List Char), other.rest = stretch ++ rest →
        rest.head? = next.input.rest.head? →
          ∃ last,
            Reader.step { reader with input := other } =
                .ok (step.leaving last) ∧
              last.rest = rest := by
  obtain ⟨passed, moved, leads⟩ := movesTo_step read reached
  have begun : reader.input.rest ≠ [] := by
    rw [leads.1]
    exact List.append_ne_nil_of_left_ne_nil moved _
  obtain ⟨branch, local', chosen⟩ := exists_local_branch begun
  have taken : branch reader.input = .ok step :=
    (chosen reader.input rfl).symm.trans read
  obtain ⟨value, front, stretch, rfl, leadsFront, again⟩ :=
    local'.takes step taken
  have arrived : next.input = front := by
    cases value <;> cases reached <;> rfl
  subst arrived
  have same : passed = stretch :=
    List.append_cancel_right (leads.1.symm.trans leadsFront.1)
  subst same
  refine ⟨passed, moved, leads, ?_⟩
  intro other rest shape alike
  obtain ⟨last, found, left⟩ := again other rest shape (.inl alike)
  refine ⟨last, ?_, left⟩
  rw [chosen other (by rw [shape, leads.1, take_two_append moved alike]),
    found]
  cases value <;> rfl

/-- A step that fails does so wherever the text stands. -/
theorem step_of_same
    {reader : Reader} {fault : Fault} (read : reader.step = .error fault)
    {other : Input} (same : other.rest = reader.input.rest) :
    ∃ again,
      Reader.step { reader with input := other } = .error again ∧
        again.kind = fault.kind := by
  by_cases begun : reader.input.rest = []
  · unfold step at read ⊢
    simp only [same, begun] at read ⊢
    cases names : reader.openNames with
    | nil =>
        rw [names] at read
        cases read
    | cons name outer =>
        rw [names] at read
        cases read
        exact ⟨_, rfl, rfl⟩
  · obtain ⟨branch, local', chosen⟩ := exists_local_branch begun
    rw [chosen other (congrArg (List.take 2) same)]
    apply local'.fails fault _ other same
    exact (chosen reader.input rfl).symm.trans read

/-- The end of a text is its end wherever the text stands. -/
theorem step_of_ended
    {reader : Reader} (read : reader.step = .ok .ended)
    {other : Input} (same : other.rest = reader.input.rest) :
    Reader.step { reader with input := other } = .ok .ended := by
  by_cases begun : reader.input.rest = []
  · unfold step at read ⊢
    simp only [same, begun] at read ⊢
    split at read
    · rfl
    · cases read
  · obtain ⟨branch, local', chosen⟩ := exists_local_branch begun
    obtain ⟨value, next, stretch, final, leads, again⟩ :=
      local'.takes .ended ((chosen reader.input rfl).symm.trans read)
    obtain ⟨last, found, -⟩ := again other _ (same.trans leads.1) (.inl rfl)
    rw [chosen other (congrArg (List.take 2) same), found]
    cases value <;> cases final
    rfl

end Reader

end AmlExchange.Markup
