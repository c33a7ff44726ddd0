import AmlExchange.Proofs.Markup.Reading
import AmlExchange.Proofs.Markup.WholeCharacters

/-!
# Reading by bytes

Each lexeme, each step and each run of a reader of bytes comes to what the
reader of characters comes to, with the same fault if there is one
(`Agrees`).  So the bytes of a text are read as the text, and no slice of them
fails to be text (`read_of_bytes`).
-/

namespace AmlExchange.Markup.ByteReader

open Text (Position Tells encode)

/-- Whether reading by bytes came to what reading by characters came to: to
related values, or to the same fault. -/
def Agrees (text : List Char) (related : α → ByteReader → β → Prop) :
    EStateM.Result Halt ByteReader α → Except Fault β → Prop
  | .ok value next, .ok other => related value next other
  | .error halt last, .error fault =>
      halt = .flaw fault ∧ Sound text last.slices
  | _, _ => False

/-- The same value read, and the rest of the text behind it. -/
def SameValue (text : List Char) (state : Reader) (value : α)
    (next : ByteReader) (read : α × Input) : Prop :=
  value = read.1 ∧ Tracks text next { state with input := read.2 }

/-- The rest of the text behind what was read. -/
def SameRest (text : List Char) (state : Reader) (_ : Unit)
    (next : ByteReader) (input : Input) : Prop :=
  Tracks text next { state with input }

theorem Agrees.bind {text : List Char}
    {related : α → ByteReader → γ → Prop}
    {relatedAfter : β → ByteReader → δ → Prop}
    {lexing : Lexing α} {more : α → Lexing β} {reader : ByteReader}
    {result : Except Fault γ} {others : γ → Except Fault δ}
    (first : Agrees text related (lexing reader) result)
    (rest : ∀ value next other, related value next other →
      Agrees text relatedAfter (more value next) (others other)) :
    Agrees text relatedAfter ((lexing >>= more) reader)
      (result >>= others) := by
  show Agrees text relatedAfter (EStateM.bind lexing more reader) _
  rw [EStateM.bind]
  cases outcome : lexing reader with
  | ok value next =>
      rw [outcome] at first
      cases result with
      | ok other => exact rest value next other first
      | error fault => exact first.elim
  | error halt last =>
      rw [outcome] at first
      cases result with
      | ok other => exact first.elim
      | error fault => exact first

theorem Agrees.of_ok {text : List Char}
    {related : α → ByteReader → β → Prop} {value : α} {next : ByteReader}
    {result : Except Fault β}
    (agrees : Agrees text related (.ok value next) result) :
    ∃ other, result = .ok other ∧ related value next other := by
  cases result with
  | ok other => exact ⟨other, rfl, agrees⟩
  | error fault => exact agrees.elim

theorem Agrees.of_error {text : List Char}
    {related : α → ByteReader → β → Prop} {halt : Halt} {last : ByteReader}
    {result : Except Fault β}
    (agrees : Agrees text related (.error halt last) result) :
    ∃ fault, result = .error fault ∧ halt = .flaw fault ∧
      Sound text last.slices := by
  cases result with
  | ok other => exact agrees.elim
  | error fault => exact ⟨fault, rfl, agrees⟩

theorem Agrees.map {text : List Char} {related : α → ByteReader → γ → Prop}
    {change : β → γ} {outcome : EStateM.Result Halt ByteReader α}
    {result : Except Fault β}
    (agrees : Agrees text
      (fun value next other => related value next (change other))
      outcome result) :
    Agrees text related outcome
      (result >>= fun other => .ok (change other)) := by
  cases outcome <;> cases result <;> exact agrees

section

variable {text : List Char} {reader : ByteReader} {state : Reader}

theorem agrees_halt (tracks : Tracks text reader state)
    {related : α → ByteReader → β → Prop} (flaw : Flaw) :
    Agrees text related (halt flaw reader) (state.input.flawed flaw) := by
  refine ⟨?_, tracks.sound⟩
  rw [tracks.place]

/-! ## Lexemes -/

theorem bind_of_ok {lexing : Lexing α} {more : α → Lexing β} {value : α}
    {next : ByteReader} (read : lexing reader = .ok value next) :
    (lexing >>= more) reader = more value next := by
  show EStateM.bind lexing more reader = _
  rw [EStateM.bind, read]

theorem get_bind (more : ByteReader → Lexing α) :
    ((get : Lexing ByteReader) >>= more) reader = more reader reader :=
  rfl

theorem move_bind (change : ByteCursor → ByteCursor)
    (more : Unit → Lexing α) :
    (move change >>= more) reader =
      more () (reader.moveTo (change reader.cursor)) :=
  rfl

theorem nest_bind (change : List String → List String)
    (more : Unit → Lexing α) :
    (nest change >>= more) reader =
      more () { reader with openNames := change reader.openNames } :=
  rfl

theorem current?_eq_mark_iff (tracks : Tracks text reader state)
    {mark : Char} (ascii : mark.toNat < 128) :
    reader.cursor.current? = some mark.toUInt8 ↔
      ∃ rest, state.input.rest = mark :: rest := by
  cases shape : state.input.rest with
  | nil => simp [tracks.current_none shape]
  | cons char rest =>
      obtain ⟨byte, member, current⟩ := tracks.exists_current shape
      rw [current, Option.some_inj, eq_mark_iff ascii member]
      simp

theorem consumed_of_front (tracks : Tracks text reader state)
    {mark : Char} (ascii : mark.toNat < 128) {rest : List Char}
    (front : state.input.rest = mark :: rest) :
    consumed mark reader =
      .ok true (reader.moveTo reader.cursor.advance) := by
  have comes := (current?_eq_mark_iff tracks ascii).mpr ⟨rest, front⟩
  rw [consumed, ByteCursor.consume?, if_pos comes]

theorem consumed_of_other (tracks : Tracks text reader state)
    {mark : Char} (ascii : mark.toNat < 128)
    (other : ∀ rest, state.input.rest ≠ mark :: rest) :
    consumed mark reader = .ok false reader := by
  have differs : reader.cursor.current? ≠ some mark.toUInt8 := by
    rw [Ne, current?_eq_mark_iff tracks ascii]
    rintro ⟨rest, front⟩
    exact other rest front
  rw [consumed, ByteCursor.consume?, if_neg differs]

theorem atEnd_eq (tracks : Tracks text reader state) :
    reader.cursor.atEnd = state.input.rest.isEmpty := by
  rw [ByteCursor.atEnd, tracks.remaining]
  cases state.input.rest with
  | nil => rfl
  | cons char rest =>
      rw [List.isEmpty_cons, List.isEmpty_eq_false_iff]
      exact Text.encode_ne_nil (List.cons_ne_nil char rest)

theorem agrees_expect (tracks : Tracks text reader state)
    {mark : Char} (ascii : mark.toNat < 128) :
    Agrees text (SameRest text state) (expect mark reader)
      (state.input.expect mark) := by
  have atEnd := atEnd_eq tracks
  rw [expect, Input.expect]
  split
  · next none =>
      rw [bind_of_ok (consumed_of_other tracks ascii (by simp [none])),
        if_neg Bool.false_ne_true, get_bind, if_pos (by rw [atEnd, none]; rfl)]
      exact agrees_halt tracks _
  · next char rest front =>
      split
      · next same =>
          subst same
          rw [bind_of_ok (consumed_of_front tracks ascii front), if_pos rfl]
          exact tracks.advance front ascii
      · next differs =>
          have other := consumed_of_other tracks ascii
            (by simp [front, differs])
          rw [bind_of_ok other, if_neg Bool.false_ne_true, get_bind,
            if_neg (by rw [atEnd, front]; simp)]
          exact agrees_halt tracks _

/-- One byte that a test admits, and the others behind it. -/
theorem advanceWhile_advance {cursor : ByteCursor} {byte : UInt8}
    {test : UInt8 → Bool} (current : cursor.current? = some byte)
    (admitted : test byte = true) :
    cursor.advance.advanceWhile test = cursor.advanceWhile test := by
  obtain ⟨rest, shape⟩ := List.head?_eq_some_iff.mp current
  rw [ByteCursor.advanceWhile, ByteCursor.advanceWhile,
    ByteCursor.remaining_advance, shape, List.takeWhile_cons_of_pos admitted]
  rfl

theorem agrees_name (tracks : Tracks text reader state) :
    Agrees text (SameValue text state) (name reader) state.input.name := by
  rw [name, get_bind, Input.name]
  split
  · next none =>
      rw [tracks.current_none none]
      exact agrees_halt tracks _
  · next char rest front =>
      obtain ⟨byte, member, current⟩ := tracks.exists_current front
      rw [current]
      dsimp only
      rw [tells_isNameStart char byte member]
      split
      · next start =>
          have admitted : isNameByte byte = true := by
            rw [tells_isNameChar char byte member]
            exact isNameChar_of_isNameStart start
          have named : state.input.rest.takeWhile isNameChar ≠ [] := by
            rw [front, List.takeWhile_cons_of_pos
              (isNameChar_of_isNameStart start)]
            exact List.cons_ne_nil _ _
          obtain ⟨taken, after⟩ := tracks.takesWhile tells_isNameChar named
          rw [move_bind, move_bind, get_bind]
          simp only [moveTo, advanceWhile_advance current admitted]
          simp only [moveTo] at taken
          rw [taken]
          exact ⟨rfl, after⟩
      · exact agrees_halt tracks _

/-- The same stretch read, and the rest of the text behind it. -/
def SameStretch (text : List Char) (state : Reader) (value : String)
    (next : ByteReader) (read : List Char × Input) : Prop :=
  value = String.ofList read.1 ∧ Tracks text next { state with input := read.2 }

theorem agrees_upTo (tracks : Tracks text reader state)
    {mark : List Char} (marked : mark ≠ []) (missing : Flaw) :
    Agrees text (SameStretch text state) (upTo (encode mark) missing reader)
      (state.input.upTo mark missing) := by
  rw [upTo, get_bind, tracks.remaining, Text.before?_encode marked,
    Input.upTo]
  cases found : Text.cutAt? mark state.input.rest with
  | none =>
      have atEnd := tracks.over
        (Input.leads_drop state.input state.input.rest.length)
      rw [List.take_length] at atEnd
      exact agrees_halt atEnd missing
  | some parts =>
      obtain ⟨before, after⟩ := parts
      have whole := Text.cutAt?_eq_some found
      have leads :
          Input.Leads state.input
            ⟨mark ++ after, state.input.place.past before⟩ before :=
        ⟨by rw [whole, List.append_assoc], rfl⟩
      have goesOn :
          Input.Leads ⟨mark ++ after, state.input.place.past before⟩
            ⟨after, state.input.place.past (before ++ mark)⟩ mark :=
        ⟨rfl, Position.past_append _ _ _⟩
      obtain ⟨taken, last⟩ := tracks.takes leads goesOn (by simp [marked])
      have passed :
          (reader.cursor.advanceOver (encode before)).advanceBy
              (encode mark).length =
            (reader.cursor.advanceOver (encode before)).advanceOver
              (encode mark) := by
        have remaining := (tracks.over leads).remaining
        simp only [moveTo, Text.encode_append] at remaining
        rw [ByteCursor.advanceBy, remaining, List.take_left]
      show Agrees text _
        (takeText _ (reader.moveTo (ByteCursor.advanceBy _ _))) _
      rw [passed, taken]
      exact ⟨rfl, last⟩

theorem agrees_expanded (tracks : Tracks text reader state)
    (stretch : List Char) :
    Agrees text
      (fun value next other => value = other ∧ Tracks text next state)
      (expanded (String.ofList stretch) reader)
      (state.input.expanded stretch) := by
  rw [expanded, Input.expanded, String.toList_ofList]
  cases expandReferences stretch with
  | ok expansion => exact ⟨rfl, tracks⟩
  | error reference => exact agrees_halt tracks _

theorem agrees_value (tracks : Tracks text reader state) :
    Agrees text (SameValue text state) (value reader) state.input.value := by
  rw [value, get_bind, Input.value]
  split
  · next quote rest front =>
      obtain ⟨byte, member, current⟩ := tracks.exists_current front
      rw [current]
      dsimp only
      have same :
          byte = '"'.toUInt8 ∨ byte = '\''.toUInt8 ↔
            quote = '"' ∨ quote = '\'' :=
        or_congr (eq_mark_iff (by decide) member)
          (eq_mark_iff (by decide) member)
      by_cases isQuote : quote = '"' ∨ quote = '\''
      · have ascii : quote.toNat < 128 := by
          rcases isQuote with rfl | rfl <;> decide
        have single : [byte] = encode [quote] := by
          rw [Text.encode_cons, Text.utf8EncodeChar_of_mem ascii member]
          rfl
        rw [if_pos isQuote, if_pos (same.mpr isQuote), move_bind, single]
        refine (agrees_upTo (tracks.advance front ascii)
          (List.cons_ne_nil _ _) _).bind ?_
        rintro _ next ⟨stretch, input⟩ ⟨rfl, tracks⟩
        exact (agrees_expanded tracks stretch).map
      · rw [if_neg isQuote, if_neg (mt same.mp isQuote)]
        exact agrees_halt tracks _
  · next none =>
      rw [tracks.current_none none]
      exact agrees_halt tracks _

theorem agrees_content (tracks : Tracks text reader state)
    {char : Char} {rest : List Char}
    (front : state.input.rest = char :: rest) (isText : char ≠ '<') :
    let input := state.input.dropWhile (· ≠ '<')
    Agrees text
      (fun value next other =>
        value = other ∧ Tracks text next { state with input })
      (content reader)
      (input.expanded (state.input.rest.takeWhile (· ≠ '<'))) := by
  have moved : state.input.rest.takeWhile (· ≠ '<') ≠ [] := by
    rw [front, List.takeWhile_cons_of_pos (by simpa using isText)]
    exact List.cons_ne_nil _ _
  obtain ⟨taken, after⟩ := tracks.takesWhile (tells_ne (by decide)) moved
  intro input
  rw [content, get_bind, move_bind, get_bind]
  simp only [moveTo] at taken ⊢
  rw [bind_of_ok taken]
  exact agrees_expanded after _

theorem Tracks.skipSpacing (tracks : Tracks text reader state) :
    Tracks text (reader.moveTo reader.cursor.skipSpacing)
      { state with input := state.input.skipSpacing } :=
  tracks.advanceWhile tells_isSpacing

theorem agrees_assignment (tracks : Tracks text reader state) :
    Agrees text (SameValue text state) (assignment reader)
      state.input.assignment := by
  refine (agrees_name tracks).bind ?_
  rintro _ next ⟨name, input⟩ ⟨rfl, tracks⟩
  rw [move_bind]
  refine (agrees_expect (Tracks.skipSpacing tracks) (by decide)).bind ?_
  rintro ⟨⟩ next input tracks
  rw [move_bind]
  refine (agrees_value (Tracks.skipSpacing tracks)).bind ?_
  rintro _ next ⟨value, input⟩ ⟨rfl, tracks⟩
  exact ⟨rfl, tracks⟩

/-! ## Tags -/

/-- The same part of a tag, and the rest of the text behind it. -/
def SamePart (text : List Char) (state : Reader) :
    Option (String × String) → ByteReader → Reader.TagPart → Prop
  | none, next, .close input => Tracks text next { state with input }
  | some field, next, .field name value input =>
      field = (name, value) ∧ Tracks text next { state with input }
  | _, _, _ => False

theorem agrees_tagPart (tracks : Tracks text reader state) :
    Agrees text (SamePart text state) (tagPart reader)
      (Reader.tagPart state.input) := by
  have tracks := Tracks.skipSpacing tracks
  rw [tagPart, move_bind, get_bind, Reader.tagPart]
  split
  · next none =>
      rw [tracks.current_none none]
      exact agrees_halt tracks _
  · next char rest front =>
      obtain ⟨byte, member, current⟩ := tracks.exists_current front
      rw [current]
      dsimp only
      have same :
          byte = '/'.toUInt8 ∨ byte = '>'.toUInt8 ↔ char = '/' ∨ char = '>' :=
        or_congr (eq_mark_iff (by decide) member)
          (eq_mark_iff (by decide) member)
      by_cases closes : char = '/' ∨ char = '>'
      · rw [if_pos closes, if_pos (same.mpr closes)]
        exact tracks
      · rw [if_neg closes, if_neg (mt same.mp closes)]
        have assigned :
            Agrees text (SamePart text state)
              ((assignment >>= fun field => pure (some field))
                (reader.moveTo reader.cursor.skipSpacing))
              (state.input.skipSpacing.assignment >>= fun read =>
                .ok (.field read.1.1 read.1.2 read.2)) :=
          (agrees_assignment tracks).bind fun _ _ _ same => same
        split
        · next failed =>
            rw [failed] at assigned
            exact assigned
        · next read =>
            rw [read] at assigned
            exact assigned

theorem agrees_attributes (tracks : Tracks text reader state)
    (found : List (String × String)) :
    Agrees text (SameValue text state) (attributes found reader)
      (Reader.attributes state.input found) := by
  fun_induction attributes found reader generalizing state with
  | case1 found reader halt next failed =>
      have part := agrees_tagPart tracks
      rw [failed] at part
      obtain ⟨fault, same, known⟩ := part.of_error
      rw [Reader.attributes_eq, same]
      exact known
  | case2 found reader next closed =>
      have part := agrees_tagPart tracks
      rw [closed] at part
      obtain ⟨other, same, tracks⟩ := part.of_ok
      cases other with
      | field => exact tracks.elim
      | close input =>
          rw [Reader.attributes_eq, same]
          exact ⟨rfl, tracks⟩
  | case3 found reader name value next field repeated =>
      have part := agrees_tagPart tracks
      rw [field] at part
      obtain ⟨other, same, tracks⟩ := part.of_ok
      cases other with
      | close => exact tracks.elim
      | field _ _ input =>
          obtain ⟨⟨⟩, tracks⟩ := tracks
          rw [Reader.attributes_eq, same]
          dsimp only
          rw [if_pos repeated]
          exact agrees_halt tracks _
  | case4 found reader name value next field fresh ih =>
      have part := agrees_tagPart tracks
      rw [field] at part
      obtain ⟨other, same, tracks⟩ := part.of_ok
      cases other with
      | close => exact tracks.elim
      | field _ _ input =>
          obtain ⟨⟨⟩, tracks⟩ := tracks
          rw [Reader.attributes_eq, same]
          dsimp only
          rw [if_neg fresh]
          exact ih tracks

/-! ## Steps -/

/-- The same step, and the state after it. -/
def SameStep (text : List Char) (state : Reader) :
    Step → ByteReader → Reader.Step → Prop
  | .ended, next, .ended => Tracks text next state
  | .skipped, next, .skipped after => Tracks text next after
  | .delivered event, next, .delivered same after =>
      event = same ∧ Tracks text next after
  | _, _, _ => False

theorem agrees_startTag (tracks : Tracks text reader state)
    {rest : List Char} (front : state.input.rest = '<' :: rest) :
    Agrees text (SameStep text state) (startTag reader) state.startTag := by
  rw [startTag, move_bind]
  refine (agrees_name (tracks.advance front (by decide))).bind ?_
  rintro _ next ⟨name, input⟩ ⟨rfl, tracks⟩
  refine (agrees_attributes tracks []).bind ?_
  rintro _ next ⟨found, input⟩ ⟨rfl, tracks⟩
  dsimp only
  split
  · next rest front =>
      rw [bind_of_ok (consumed_of_front tracks (by decide) front), if_pos rfl]
      refine (agrees_expect (tracks.advance front (by decide))
        (by decide)).bind ?_
      rintro ⟨⟩ next input tracks
      exact ⟨rfl, tracks⟩
  · next other =>
      rw [bind_of_ok (consumed_of_other tracks (by decide) other),
        if_neg Bool.false_ne_true]
      refine (agrees_expect tracks (by decide)).bind ?_
      rintro ⟨⟩ next input tracks
      rw [get_bind, tracks.depth, tracks.openNames]
      dsimp only
      split
      · exact agrees_halt tracks _
      · exact ⟨rfl, tracks.nest (List.cons _)⟩

theorem agrees_endTag (tracks : Tracks text reader state)
    {rest : List Char} (front : state.input.rest = '<' :: '/' :: rest) :
    Agrees text (SameStep text state) (endTag reader) state.endTag := by
  rw [endTag, move_bind]
  refine (agrees_name (tracks.advanceBy ['<', '/'] ?_)).bind ?_
  · exact ⟨rest, front.symm⟩
  rintro _ next ⟨name, input⟩ ⟨rfl, tracks⟩
  rw [move_bind]
  refine (agrees_expect (Tracks.skipSpacing tracks) (by decide)).bind ?_
  rintro ⟨⟩ next input tracks
  have popped := tracks.nest List.tail
  rw [get_bind, nest_bind, tracks.openNames]
  rw [tracks.openNames] at popped
  dsimp only at popped ⊢
  cases opened : state.openNames with
  | nil =>
      rw [opened] at popped
      exact agrees_halt popped _
  | cons expected outer =>
      rw [opened] at popped
      dsimp only
      split
      · exact ⟨rfl, popped⟩
      · exact agrees_halt popped _

theorem agrees_characters (tracks : Tracks text reader state)
    {char : Char} {rest : List Char}
    (front : state.input.rest = char :: rest) (isText : char ≠ '<') :
    Agrees text (SameStep text state) (characters reader)
      state.characters := by
  refine (agrees_content tracks front isText).bind ?_
  rintro _ next value ⟨rfl, tracks⟩
  rw [get_bind, tracks.openNames]
  dsimp only
  split
  · split
    · exact tracks
    · exact agrees_halt tracks _
  · exact ⟨rfl, tracks⟩

theorem bytesOf_eq_encode (mark : String) : bytesOf mark = encode mark.toList :=
  (Text.encode_toList mark).symm

theorem startsWith_eq (tracks : Tracks text reader state) (mark : String) :
    reader.cursor.startsWith (bytesOf mark) =
      mark.toList.isPrefixOf state.input.rest := by
  rw [ByteCursor.startsWith, tracks.remaining, bytesOf_eq_encode,
    Text.isPrefixOf_encode]

/-- Markup between two marks, the first of which comes next. -/
theorem agrees_enclosed (tracks : Tracks text reader state)
    {opening : List Char} (front : opening <+: state.input.rest)
    {mark : String} (marked : mark.toList ≠ []) (event : String → Event) :
    Agrees text (SameStep text state)
      (enclosed (encode opening).length mark event reader)
      (do
        let (stretch, input) ←
          (state.input.drop opening.length).upTo mark.toList .unterminatedMarkup
        .ok (.delivered (event (String.ofList stretch))
          { state with input })) := by
  rw [enclosed, move_bind, bytesOf_eq_encode]
  refine (agrees_upTo (tracks.advanceBy opening front) marked _).bind ?_
  rintro _ next ⟨stretch, input⟩ ⟨rfl, tracks⟩
  exact ⟨rfl, tracks⟩

theorem agrees_passedOver (tracks : Tracks text reader state)
    (mark : String) (marked : mark.toList ≠ [])
    (chosen : mark =
      if "<?".toList.isPrefixOf state.input.rest then "?>" else ">") :
    Agrees text (SameStep text state) (passedOver reader)
      (do
        let (_, input) ← state.input.upTo mark.toList .unterminatedMarkup
        .ok (.skipped { state with input })) := by
  rw [passedOver, get_bind, startsWith_eq tracks]
  dsimp only
  rw [← chosen, bytesOf_eq_encode]
  refine (agrees_upTo tracks marked _).bind ?_
  rintro _ next ⟨stretch, input⟩ ⟨rfl, tracks⟩
  exact tracks

theorem current?_of_front (tracks : Tracks text reader state)
    {rest : List Char} (front : state.input.rest = '<' :: rest) :
    reader.cursor.current? = some '<'.toUInt8 :=
  (current?_eq_mark_iff tracks (by decide)).mpr ⟨rest, front⟩

/-- What a step at a tag depends on. -/
theorem step_of_front (tracks : Tracks text reader state)
    {rest : List Char} (front : state.input.rest = '<' :: rest) :
    step reader =
      (if ['!', '-', '-'] <+: rest then enclosed 4 "-->" .comment
        else if ['!', '[', 'C', 'D', 'A', 'T', 'A', '['] <+: rest then
          enclosed 9 "]]>" .characterData
        else if ['!'] <+: rest ∨ ['?'] <+: rest then passedOver
        else if ['/'] <+: rest then endTag
        else startTag) reader := by
  rw [step, get_bind, current?_of_front tracks front]
  simp [startsWith_eq tracks, front]

theorem agrees_declared (tracks : Tracks text reader state)
    {rest : List Char} (front : state.input.rest = '<' :: '!' :: rest) :
    Agrees text (SameStep text state) (step reader) state.declared := by
  rw [step, get_bind, current?_of_front tracks front]
  simp only [startsWith_eq tracks, Reader.declared]
  rw [if_neg (by simp)]
  split
  · next comment =>
      exact agrees_enclosed tracks (List.isPrefixOf_iff_prefix.mp comment)
        (by decide) Event.comment
  · split
    · next data =>
        exact agrees_enclosed tracks (List.isPrefixOf_iff_prefix.mp data)
          (by decide) Event.characterData
    · rw [if_pos (.inl (by rw [front]; rfl))]
      exact agrees_passedOver tracks ">" (by decide) (by rw [front]; rfl)

theorem agrees_step (tracks : Tracks text reader state) :
    Agrees text (SameStep text state) (step reader) state.step := by
  unfold Reader.step
  split
  · next none =>
      rw [step, get_bind, tracks.current_none none, tracks.openNames]
      dsimp only
      cases state.openNames with
      | nil => exact tracks
      | cons name outer => exact agrees_halt tracks _
  · next rest front => exact agrees_declared tracks front
  · next rest front =>
      rw [step_of_front tracks front, if_neg (by simp), if_neg (by simp),
        if_pos (by simp)]
      exact agrees_passedOver tracks "?>" (by decide) (by rw [front]; rfl)
  · next rest front =>
      rw [step_of_front tracks front, if_neg (by simp), if_neg (by simp),
        if_neg (by simp), if_pos (by simp)]
      exact agrees_endTag tracks front
  · next rest noMark noQuestion noSlash front =>
      have absent {char : Char} (more : List Char)
          (other : ∀ tail, rest = char :: tail → False) :
          ¬ char :: more <+: rest :=
        fun ⟨tail, same⟩ => other (more ++ tail) same.symm
      rw [step_of_front tracks front, if_neg (absent _ noMark),
        if_neg (absent _ noMark),
        if_neg (not_or.mpr ⟨absent _ noMark, absent _ noQuestion⟩),
        if_neg (absent _ noSlash)]
      exact agrees_startTag tracks front
  · next noEnd _ _ _ noTag =>
      cases front : state.input.rest with
      | nil => exact absurd front noEnd
      | cons char rest =>
          have isText : char ≠ '<' := by
            rintro rfl
            exact noTag rest front
          obtain ⟨byte, member, current⟩ := tracks.exists_current front
          rw [step, get_bind, current]
          dsimp only
          rw [if_pos (mt (eq_mark_iff (by decide) member).mp isText)]
          exact agrees_characters tracks front isText

end

/-! ## Runs -/

/-- Whether a stream of bytes is a stream of characters, and what was taken
for text stretches of it. -/
structure SameStream (text : List Char) (bytes : ByteStream)
    (stream : Stream) : Prop where
  events : bytes.events = stream.events
  ending : bytes.ending = stream.ending.mapError .flaw
  sound : Sound text bytes.slices.reverse

theorem run_eq (state : Reader) :
    state.run =
      match state.step with
      | .error fault => ⟨[], .error fault⟩
      | .ok .ended => ⟨[], .ok state.input.place⟩
      | .ok (.skipped next) => next.run
      | .ok (.delivered event next) =>
          next.run.cons event next.input.place := by
  rw [Reader.run]
  split <;> next read => rw [read]

theorem sameStream_run {text : List Char} {reader : ByteReader}
    {state : Reader} (tracks : Tracks text reader state) :
    SameStream text reader.run state.run := by
  fun_induction run reader generalizing state with
  | case1 reader halt last failed =>
      have agrees := agrees_step tracks
      rw [failed] at agrees
      obtain ⟨fault, same, rfl, sound⟩ := agrees.of_error
      rw [run_eq, same]
      exact ⟨rfl, rfl, by simpa using sound⟩
  | case2 reader last ended =>
      have agrees := agrees_step tracks
      rw [ended] at agrees
      obtain ⟨other, same, tracks⟩ := agrees.of_ok
      cases other with
      | ended =>
          rw [run_eq, same]
          refine ⟨rfl, ?_, by simpa using tracks.sound⟩
          rw [tracks.place]
          rfl
      | skipped => exact tracks.elim
      | delivered => exact tracks.elim
  | case3 reader next skipped ih =>
      have agrees := agrees_step tracks
      rw [skipped] at agrees
      obtain ⟨other, same, tracks⟩ := agrees.of_ok
      cases other with
      | ended => exact tracks.elim
      | skipped after =>
          rw [run_eq, same]
          exact ih tracks
      | delivered => exact tracks.elim
  | case4 reader event next delivered ih =>
      have agrees := agrees_step tracks
      rw [delivered] at agrees
      obtain ⟨other, same, tracks⟩ := agrees.of_ok
      cases other with
      | ended => exact tracks.elim
      | skipped => exact tracks.elim
      | delivered _ after =>
          obtain ⟨rfl, tracks⟩ := tracks
          have rest := ih tracks
          rw [run_eq, same]
          refine ⟨?_, rest.ending, rest.sound⟩
          show (event, next.cursor.place) :: next.run.events = _
          rw [rest.events, tracks.place]
          rfl

theorem tracks_start (limits : Limits) (text : String) :
    Tracks text.toList ⟨limits.depth, .ofBytes (bytesOf text), [], []⟩
      ⟨limits.depth, .ofText text, []⟩ := by
  refine ⟨rfl, rfl, ⟨[], rfl, rfl, ?_⟩, ⟨?_, .nil⟩, ?_⟩
  · rw [bytesOf_eq_encode]
    rfl
  · exact List.forall_mem_nil _
  · exact List.forall_mem_nil _

/-- Reading by bytes gives the events of the text, each with its place, and
comes to the same end or the same fault, so that no slice fails to be text.
What it takes for text are stretches of the text that begin and end between
two characters, one after the other. -/
theorem read_of_bytes (limits : Limits) (text : String) :
    let bytes := read limits text
    let stream := Markup.read limits text
    bytes.events = stream.events ∧
      bytes.ending = stream.ending.mapError .flaw ∧
      (∀ place, bytes.ending ≠ .error (.noText place)) ∧
      (∀ slice ∈ bytes.slices, ∃ before taken after : String,
        text = before ++ taken ++ after ∧
          slice.first = before.utf8ByteSize ∧
          slice.bytes = bytesOf taken ∧ slice.text? = some taken) ∧
      bytes.slices.Pairwise fun earlier later =>
        earlier.first < later.first ∧ earlier.last ≤ later.first := by
  intro bytes stream
  have same : SameStream text.toList bytes stream := by
    have size : (bytesOf text).length = text.utf8ByteSize := by
      rw [bytesOf_eq_encode, Text.length_encode]
    simp only [bytes, stream, read, Markup.read, size]
    split
    · exact ⟨rfl, rfl, ⟨List.forall_mem_nil _, .nil⟩⟩
    · exact sameStream_run (tracks_start limits text)
  refine
    ⟨same.events, same.ending, fun place => ?_, fun slice member => ?_, ?_⟩
  · rw [same.ending]
    cases stream.ending <;>
      · intro equal
        cases equal
  · obtain ⟨before, taken, after, whole, first, held⟩ :=
      same.sound.whole slice (List.mem_reverse.mpr member)
    have isText : slice.text? = some (String.ofList taken) := by
      rw [Slice.text?, held, Text.fromUTF8?_encode]
    refine
      ⟨.ofList before, .ofList taken, .ofList after, ?_, ?_, ?_, isText⟩
    · rw [← String.ofList_append, ← String.ofList_append, ← whole,
        String.ofList_toList]
    · rw [first, ← Text.length_encode, String.toList_ofList]
    · rw [held, bytesOf_eq_encode, String.toList_ofList]
  · exact List.pairwise_reverse.mp same.sound.rising

end AmlExchange.Markup.ByteReader
