import AmlExchange.Proofs.Sql.Tokens

/-!
# What SQL is made of

SQL is read as code, parameters, and texts that are enclosed: literals, quoted
and bracketed names, and comments.  A closing mark that stands twice within
what it closes is part of it.  Scanning a template one character after the
other finds the parameters of this reading (`parameters_found`), with one
exception: it ends a bracketed name at its first closing bracket, also where
two of them stand for one (`bracketed_name_ends_early`).
-/

namespace AmlExchange.Template.Sql

/-! ## Enclosed texts -/

/-- Whether two closing marks stand for one within what they close.  Whether
brackets do is left open. -/
def Doubles (brackets : Bool) (close : Char) : Prop :=
  close = ']' → brackets = true

/-- The marks around literals and names. -/
inductive Delimits : Char → Char → Prop
  | literal : Delimits '\'' '\''
  | quotedName : Delimits '"' '"'
  | bracketedName : Delimits '[' ']'

/-- A text that a closing mark does not end. -/
inductive Body (brackets : Bool) (close : Char) : List Char → Prop
  | nil : Body brackets close []
  | other {char : Char} {rest : List Char} (differs : char ≠ close)
      (more : Body brackets close rest) :
      Body brackets close (char :: rest)
  | pair {rest : List Char} (doubles : Doubles brackets close)
      (more : Body brackets close rest) :
      Body brackets close (close :: close :: rest)

/-- The mark that ends a text before some rest, or nothing where the text is
not ended and no rest follows it. -/
inductive Ends (mark : List Char) : List Char → List Char → Prop
  | ended (rest : List Char) : Ends mark mark rest
  | unended : Ends mark [] []

/-- Whether a character ends no line. -/
def inLine (char : Char) : Bool :=
  char != '\n' && char != '\r'

/-- An enclosed text before some rest. -/
inductive Encloses (brackets : Bool) : List Char → List Char → Prop
  | quoted {opening close : Char} {body ending rest : List Char}
      (delimits : Delimits opening close)
      (inside : Body brackets close body)
      (ends : Ends [close] ending rest)
      (single : Doubles brackets close → rest.head? ≠ some close) :
      Encloses brackets (opening :: body ++ ending) rest
  | lineComment {body rest : List Char}
      (inside : ∀ char ∈ body, inLine char = true)
      (ends : ∀ char ∈ rest.head?, inLine char = false) :
      Encloses brackets ('-' :: '-' :: body) rest
  | blockComment {body ending rest : List Char}
      (inside : ¬ ['*', '/'] <:+: body)
      (ends : Ends ['*', '/'] ending rest) :
      Encloses brackets ('/' :: '*' :: body ++ ending) rest

/-- Whether an enclosed text begins here. -/
def opens : List Char → Bool
  | '\'' :: _ | '"' :: _ | '[' :: _ => true
  | '-' :: '-' :: _ => true
  | '/' :: '*' :: _ => true
  | _ => false

/-! ## Readings -/

/-- What SQL is made of. -/
inductive Lexeme where
  | code (char : Char)
  | enclosed (text : List Char)
  | parameter (name : List Char)
deriving DecidableEq, Repr

/-- A text as code, enclosed texts and parameters, each of them as long as it
can be. -/
inductive Reads (brackets : Bool) : List Char → List Lexeme → Prop
  | nil : Reads brackets [] []
  | enclosed {text rest : List Char} {lexemes : List Lexeme}
      (encloses : Encloses brackets text rest)
      (more : Reads brackets rest lexemes) :
      Reads brackets (text ++ rest) (.enclosed text :: lexemes)
  | parameter {name rest : List Char} {lexemes : List Lexeme}
      (letters : ∀ char ∈ name, isParameterChar char = true)
      (ends : ∀ char ∈ rest.head?, isParameterChar char = false)
      (more : Reads brackets rest lexemes) :
      Reads brackets ('@' :: name ++ rest) (.parameter name :: lexemes)
  | code {char : Char} {rest : List Char} {lexemes : List Lexeme}
      (bare : opens (char :: rest) = false) (noSign : char ≠ '@')
      (more : Reads brackets rest lexemes) :
      Reads brackets (char :: rest) (.code char :: lexemes)

/-- The parameters among some lexemes, each with the number of characters
before it. -/
def parameters (start : Nat) : List Lexeme → List (Nat × List Char)
  | [] => []
  | .code _ :: rest => parameters (start + 1) rest
  | .enclosed text :: rest => parameters (start + text.length) rest
  | .parameter name :: rest =>
      (start, name) :: parameters (start + 1 + name.length) rest

/-! ## Every text has a reading -/

theorem exists_body
    (brackets : Bool) (close : Char) (text : List Char) :
    ∃ body ending rest, text = body ++ ending ++ rest ∧
      Body brackets close body ∧ Ends [close] ending rest ∧
      (Doubles brackets close → rest.head? ≠ some close) := by
  induction length : text.length using Nat.strongRecOn generalizing text with
  | ind count ih =>
      subst length
      cases text with
      | nil => exact ⟨[], [], [], rfl, .nil, .unended, fun _ => nofun⟩
      | cons char rest =>
          by_cases same : char = close
          · subst same
            by_cases double :
                Doubles brackets char ∧ rest.head? = some char
            · obtain ⟨more, rfl⟩ := List.head?_eq_some_iff.mp double.2
              obtain ⟨body, ending, after, rfl, inside, ends, single⟩ :=
                ih more.length (by simp only [List.length_cons]; omega) more
                  rfl
              exact
                ⟨char :: char :: body, ending, after, rfl,
                  .pair double.1 inside, ends, single⟩
            · exact
                ⟨[], [char], rest, rfl, .nil, .ended rest,
                  fun doubles twice => double ⟨doubles, twice⟩⟩
          · obtain ⟨body, ending, after, rfl, inside, ends, single⟩ :=
              ih rest.length (by simp) rest rfl
            exact
              ⟨char :: body, ending, after, rfl, .other same inside, ends,
                single⟩

theorem infix_cons_iff
    {char : Char} {body : List Char} :
    ['*', '/'] <:+: char :: body ↔
      (char = '*' ∧ body.head? = some '/') ∨ ['*', '/'] <:+: body := by
  rw [List.infix_cons_iff]
  refine or_congr_left ?_
  cases body with
  | nil => simp
  | cons next rest => simp [eq_comm]

theorem exists_commentBody
    (text : List Char) :
    ∃ body ending rest, text = body ++ ending ++ rest ∧
      ¬ ['*', '/'] <:+: body ∧ Ends ['*', '/'] ending rest := by
  induction text with
  | nil => exact ⟨[], [], [], rfl, by simp, .unended⟩
  | cons char rest ih =>
      by_cases mark : char = '*' ∧ rest.head? = some '/'
      · obtain ⟨rfl, slash⟩ := mark
        obtain ⟨more, rfl⟩ := List.head?_eq_some_iff.mp slash
        exact ⟨[], ['*', '/'], more, rfl, by simp, .ended more⟩
      · obtain ⟨body, ending, after, rfl, inside, ends⟩ := ih
        refine ⟨char :: body, ending, after, rfl, ?_, ends⟩
        rw [infix_cons_iff]
        rintro (⟨star, slash⟩ | early)
        · apply mark
          refine ⟨star, ?_⟩
          obtain ⟨more, rfl⟩ := List.head?_eq_some_iff.mp slash
          rfl
        · exact inside early

/-- Where an enclosed text begins, there is one. -/
theorem exists_encloses
    (brackets : Bool) {text : List Char} (opened : opens text = true) :
    ∃ first char rest, text = (char :: first) ++ rest ∧
      Encloses brackets (char :: first) rest := by
  have quoted {opening close : Char} (delimits : Delimits opening close)
      (more : List Char) :
      ∃ first char rest, opening :: more = (char :: first) ++ rest ∧
        Encloses brackets (char :: first) rest := by
    obtain ⟨body, ending, rest, rfl, inside, ends, single⟩ :=
      exists_body brackets close more
    exact
      ⟨body ++ ending, opening, rest, rfl,
        .quoted delimits inside ends single⟩
  unfold opens at opened
  split at opened
  · exact quoted .literal _
  · exact quoted .quotedName _
  · exact quoted .bracketedName _
  · next more =>
      refine
        ⟨'-' :: more.takeWhile inLine, '-', more.dropWhile inLine, ?_,
          .lineComment (fun _ member => List.mem_takeWhile_imp member)
            (Text.stops_dropWhile inLine more)⟩
      simp
  · next more =>
      obtain ⟨body, ending, rest, rfl, inside, ends⟩ :=
        exists_commentBody more
      exact
        ⟨'*' :: body ++ ending, '/', rest, rfl, .blockComment inside ends⟩
  · cases opened

theorem exists_reads
    (brackets : Bool) (text : List Char) :
    ∃ lexemes, Reads brackets text lexemes := by
  induction length : text.length using Nat.strongRecOn generalizing text with
  | ind count ih =>
      subst length
      cases text with
      | nil => exact ⟨[], .nil⟩
      | cons char rest =>
          cases opened : opens (char :: rest) with
          | true =>
              obtain ⟨first, opening, after, parts, encloses⟩ :=
                exists_encloses brackets opened
              have shorter : after.length < (char :: rest).length := by
                rw [parts, List.length_append, List.length_cons]
                omega
              rw [parts]
              obtain ⟨lexemes, more⟩ := ih after.length shorter after rfl
              exact ⟨_, .enclosed encloses more⟩
          | false =>
              by_cases sign : char = '@'
              · subst sign
                have shorter :=
                  (List.dropWhile_sublist isParameterChar
                    (l := rest)).length_le
                obtain ⟨lexemes, more⟩ :=
                  ih (rest.dropWhile isParameterChar).length
                    (Nat.lt_succ_of_le shorter) _ rfl
                have whole :=
                  @Reads.parameter brackets (rest.takeWhile isParameterChar) _ _
                    (fun _ member => List.mem_takeWhile_imp member)
                    (Text.stops_dropWhile isParameterChar rest) more
                rw [List.cons_append,
                  List.takeWhile_append_dropWhile] at whole
                exact ⟨_, whole⟩
              · obtain ⟨lexemes, more⟩ := ih rest.length (by simp) rest rfl
                exact ⟨_, .code opened sign more⟩

/-! ## No text has two readings -/

theorem Body.unique
    {brackets : Bool} {close : Char} {body other : List Char}
    (inside : Body brackets close body) (within : Body brackets close other)
    {ending rest lastEnding last : List Char}
    (ends : Ends [close] ending rest)
    (single : Doubles brackets close → rest.head? ≠ some close)
    (lastEnds : Ends [close] lastEnding last)
    (lastSingle : Doubles brackets close → last.head? ≠ some close)
    (same : body ++ (ending ++ rest) = other ++ (lastEnding ++ last)) :
    body = other ∧ ending = lastEnding ∧ rest = last := by
  induction inside generalizing other with
  | nil =>
      cases within with
      | nil => cases ends <;> cases lastEnds <;> simp_all
      | other differs more =>
          cases ends with
          | unended => cases same
          | ended =>
              exact absurd (List.cons.inj same).1.symm differs
      | pair doubles more =>
          cases ends with
          | unended => cases same
          | ended =>
              have twice : rest = close :: _ := (List.cons.inj same).2
              rw [twice] at single
              exact absurd rfl (single doubles)
  | other differs more ih =>
      cases within with
      | nil =>
          cases lastEnds with
          | unended => cases same
          | ended => exact absurd (List.cons.inj same).1 differs
      | other _ others =>
          obtain ⟨rfl, equal⟩ := List.cons.inj same
          obtain ⟨rfl, tails⟩ := ih others equal
          exact ⟨rfl, tails⟩
      | pair doubles others =>
          exact absurd (List.cons.inj same).1 differs
  | pair doubles more ih =>
      cases within with
      | nil =>
          cases lastEnds with
          | unended => cases same
          | ended =>
              have twice : close :: _ = last := (List.cons.inj same).2
              rw [← twice] at lastSingle
              exact absurd rfl (lastSingle doubles)
      | other differs others =>
          exact absurd (List.cons.inj same).1.symm differs
      | pair _ others =>
          obtain ⟨rfl, tails⟩ :=
            ih others (List.cons.inj (List.cons.inj same).2).2
          exact ⟨rfl, tails⟩

theorem commentBody_unique
    {body other ending rest lastEnding last : List Char}
    (inside : ¬ ['*', '/'] <:+: body) (within : ¬ ['*', '/'] <:+: other)
    (ends : Ends ['*', '/'] ending rest)
    (lastEnds : Ends ['*', '/'] lastEnding last)
    (same : body ++ (ending ++ rest) = other ++ (lastEnding ++ last)) :
    body = other ∧ ending = lastEnding ∧ rest = last := by
  induction body generalizing other with
  | nil =>
      cases other with
      | nil => cases ends <;> cases lastEnds <;> simp_all
      | cons char more =>
          cases ends with
          | unended => cases same
          | ended =>
              rw [infix_cons_iff] at within
              obtain ⟨star, tails⟩ := List.cons.inj same
              cases more with
              | nil => cases lastEnds <;> simp_all
              | cons next others =>
                  exact
                    absurd
                      (.inl ⟨star.symm,
                        congrArg some (List.cons.inj tails).1.symm⟩)
                      within
  | cons char more ih =>
      cases other with
      | nil =>
          cases lastEnds with
          | unended => cases same
          | ended =>
              rw [infix_cons_iff] at inside
              obtain ⟨star, tails⟩ := List.cons.inj same
              cases more with
              | nil => cases ends <;> simp_all
              | cons next others =>
                  exact
                    absurd
                      (.inl ⟨star, congrArg some (List.cons.inj tails).1⟩)
                      inside
      | cons _ others =>
          rw [infix_cons_iff, not_or] at inside within
          obtain ⟨rfl, equal⟩ := List.cons.inj same
          obtain ⟨rfl, tails⟩ := ih inside.2 within.2 equal
          exact ⟨rfl, tails⟩

/-- An enclosed text is as long as it can be. -/
theorem Encloses.unique
    {brackets : Bool} {first rest other last : List Char}
    (encloses : Encloses brackets first rest)
    (further : Encloses brackets other last)
    (same : first ++ rest = other ++ last) :
    first = other ∧ rest = last := by
  cases encloses with
  | @quoted opening close body ending _ delimits inside ends single =>
      cases further with
      | @quoted other final more final' _ delimited within lastEnds lastSingle =>
          obtain ⟨rfl, equal⟩ := List.cons.inj same
          have marks : close = final := by
            cases delimits <;> cases delimited <;> rfl
          subst marks
          simp only [List.append_eq, List.append_assoc] at equal
          obtain ⟨rfl, rfl, rfl⟩ :=
            inside.unique within ends single lastEnds lastSingle equal
          exact ⟨rfl, rfl⟩
      | lineComment => cases delimits <;> cases same
      | blockComment => cases delimits <;> cases same
  | @lineComment body _ inside ends =>
      cases further with
      | quoted delimited => cases delimited <;> cases same
      | @lineComment other _ within lastEnds =>
          have equal : body ++ rest = other ++ last :=
            (List.cons.inj (List.cons.inj same).2).2
          have first := Text.takeWhile_append_of_stops inside ends
          have second := Text.takeWhile_append_of_stops within lastEnds
          rw [← equal, first] at second
          subst second
          exact ⟨rfl, List.append_cancel_left equal⟩
      | blockComment => cases same
  | @blockComment body ending _ inside ends =>
      cases further with
      | quoted delimited => cases delimited <;> cases same
      | lineComment => cases same
      | @blockComment other final _ within lastEnds =>
          have equal := (List.cons.inj (List.cons.inj same).2).2
          simp only [List.append_eq, List.append_assoc] at equal
          obtain ⟨rfl, rfl, rfl⟩ :=
            commentBody_unique inside within ends lastEnds equal
          exact ⟨rfl, rfl⟩

theorem Encloses.opens
    {brackets : Bool} {text rest : List Char}
    (encloses : Encloses brackets text rest) :
    opens (text ++ rest) = true := by
  cases encloses with
  | quoted delimits => cases delimits <;> rfl
  | lineComment | blockComment => rfl

/-- A text is read in one way. -/
theorem Reads.unique
    {brackets : Bool} {text other : List Char} {lexemes others : List Lexeme}
    (reads : Reads brackets text lexemes)
    (further : Reads brackets other others) (same : text = other) :
    lexemes = others := by
  induction reads generalizing other others with
  | nil =>
      cases further with
      | nil => rfl
      | enclosed encloses =>
          have opened := encloses.opens
          rw [← same] at opened
          cases opened
      | parameter => cases same
      | code => cases same
  | enclosed encloses more ih =>
      have opened := encloses.opens
      cases further with
      | nil =>
          rw [same] at opened
          cases opened
      | enclosed encloses' more' =>
          obtain ⟨rfl, rfl⟩ := encloses.unique encloses' same
          rw [ih more' rfl]
      | parameter =>
          rw [same] at opened
          cases opened
      | code bare =>
          rw [same, bare] at opened
          cases opened
  | @parameter name rest _ letters ends more ih =>
      cases further with
      | nil => cases same
      | enclosed encloses =>
          have opened := encloses.opens
          rw [← same] at opened
          cases opened
      | @parameter _ last _ letters' ends' more' =>
          have equal : name ++ rest = _ ++ last := (List.cons.inj same).2
          have first := Text.takeWhile_append_of_stops letters ends
          have second := Text.takeWhile_append_of_stops letters' ends'
          rw [← equal, first] at second
          subst second
          rw [ih more' (List.append_cancel_left equal)]
      | code _ noSign => exact absurd (List.cons.inj same).1.symm noSign
  | code bare noSign more ih =>
      cases further with
      | nil => cases same
      | enclosed encloses =>
          have opened := encloses.opens
          rw [← same, bare] at opened
          cases opened
      | parameter => exact absurd (List.cons.inj same).1 noSign
      | code _ _ more' =>
          obtain ⟨rfl, equal⟩ := List.cons.inj same
          rw [ih more' equal]

/-! ## Scanning -/

/-- What is read up to some rest has no parameters. -/
def Passes (region : Region) (text : List Char) (after : Region)
    (rest : List Char) : Prop :=
  ∀ start,
    tokens start (pieces region (text ++ rest)) =
      tokens (start + text.length) (pieces after rest)

namespace Passes

variable {region middle after : Region} {text rest : List Char}

theorem refl
    (region : Region) (rest : List Char) :
    Passes region [] region rest :=
  fun _ => rfl

theorem trans
    {more : List Char} (first : Passes region text middle (more ++ rest))
    (second : Passes middle more after rest) :
    Passes region (text ++ more) after rest := by
  intro start
  rw [List.append_assoc, first, second, List.length_append, Nat.add_assoc]

/-- One more character in front. -/
theorem cons
    {char : Char}
    (read : next region char (text ++ rest) =
      (.copied [char], middle, text ++ rest))
    (more : Passes middle text after rest) :
    Passes region (char :: text) after rest := by
  intro start
  rw [List.cons_append, pieces_cons, read, tokens, more, List.length_singleton,
    List.length_cons, Nat.add_right_comm, Nat.add_assoc]

/-- A mark of two characters in front. -/
theorem mark
    {char second : Char}
    (read : next region char (second :: text ++ rest) =
      (.copied [char, second], middle, text ++ rest))
    (more : Passes middle text after rest) :
    Passes region (char :: second :: text) after rest := by
  intro start
  rw [List.cons_append, pieces_cons, read, tokens, more]
  congr 1
  simp only [List.length_cons, List.length_nil]
  omega

/-- A text at the end of a template, which may end in any region. -/
theorem ending
    (more : Passes region text middle []) : Passes region text after [] := by
  intro start
  rw [more, pieces, pieces]

end Passes

theorem passes_body
    {opening close : Char} (delimits : Delimits opening close)
    {body : List Char} (inside : Body false close body) (rest : List Char) :
    Passes (.quoted close) body (.quoted close) rest := by
  induction inside with
  | nil => exact .refl _ _
  | @other char more differs _ ih =>
      refine .cons ?_ ih
      rw [next, if_neg differs]
  | @pair more doubles _ ih =>
      -- The first mark leads into code, and the second one out of it again.
      have reopens :
          next .code close (more ++ rest) =
            (.copied [close], .quoted close, more ++ rest) := by
        cases delimits with
        | literal | quotedName => rfl
        | bracketedName => exact absurd (doubles rfl) Bool.false_ne_true
      refine .cons ?_ (.cons reopens ih)
      rw [next, if_pos rfl]

theorem passes_lineComment
    {body rest : List Char} (inside : ∀ char ∈ body, inLine char = true)
    (ends : ∀ char ∈ rest.head?, inLine char = false) :
    Passes .lineComment body .code rest := by
  induction body with
  | nil =>
      -- The end of the line is read as part of the comment or as code.
      intro start
      cases rest with
      | nil =>
          rw [List.nil_append, pieces, pieces]
          rfl
      | cons char more =>
          have last : char = '\n' ∨ char = '\r' := by
            simpa [inLine, or_iff_not_imp_left] using ends char rfl
          rw [List.nil_append, pieces_cons, pieces_cons]
          rcases last with rfl | rfl <;> rfl
  | cons char more ih =>
      rw [List.forall_mem_cons] at inside
      have within : ¬ (char = '\n' ∨ char = '\r') := by
        simpa [inLine] using inside.1
      refine .cons ?_ (ih inside.2)
      rw [next, if_neg within]

theorem passes_commentBody
    {body : List Char} (inside : ¬ ['*', '/'] <:+: body)
    {rest : List Char} (closes : rest.head? ≠ some '/') :
    Passes .blockComment body .blockComment rest := by
  induction body with
  | nil => exact .refl _ _
  | cons char more ih =>
      rw [infix_cons_iff, not_or] at inside
      refine .cons ?_ (ih inside.2)
      have noMark (others : List Char) (star : char = '*') :
          more ++ rest ≠ '/' :: others := by
        intro slash
        cases more with
        | nil => exact closes (by rw [← List.nil_append rest, slash]; rfl)
        | cons next _ =>
            exact inside.1
              ⟨star, congrArg some (List.cons.inj slash).1⟩
      rw [next]
      exact noMark

/-- An enclosed text has no parameters, and code follows it. -/
theorem passes_encloses
    {text rest : List Char} (encloses : Encloses false text rest) :
    Passes .code text .code rest := by
  cases encloses with
  | @quoted opening close body ending _ delimits inside ends single =>
      have enters (more : List Char) :
          next .code opening more =
            (.copied [opening], .quoted close, more) := by
        cases delimits <;> rfl
      show Passes .code (opening :: (body ++ ending)) .code rest
      refine .cons (enters _) ?_
      cases ends with
      | ended =>
          refine (passes_body delimits inside _).trans (.cons ?_ (.refl _ _))
          rw [next, if_pos rfl]
      | unended =>
          rw [List.append_nil]
          exact (passes_body delimits inside []).ending
  | lineComment inside ends =>
      exact .mark rfl (passes_lineComment inside ends)
  | @blockComment body ending _ inside ends =>
      show Passes .code ('/' :: '*' :: (body ++ ending)) .code rest
      refine .mark rfl ?_
      cases ends with
      | ended =>
          exact
            (passes_commentBody inside (by simp)).trans
              (.mark rfl (.refl _ _))
      | unended =>
          rw [List.append_nil]
          exact (passes_commentBody inside (by simp)).ending

/-- A character of code that is no at sign. -/
theorem next_of_bare
    {char : Char} {rest : List Char} (bare : opens (char :: rest) = false)
    (noSign : char ≠ '@') :
    next .code char rest = (.copied [char], .code, rest) := by
  unfold next
  split <;> simp_all [opens]

/-- Scanning finds the parameters of the reading in which brackets do not
double. -/
theorem tokens_of_reads
    {text : List Char} {lexemes : List Lexeme}
    (reads : Reads false text lexemes) (start : Nat) :
    tokens start (pieces .code text) = parameters start lexemes := by
  induction reads generalizing start with
  | nil =>
      rw [pieces]
      rfl
  | enclosed encloses more ih =>
      rw [passes_encloses encloses, ih]
      rfl
  | parameter letters ends more ih =>
      rw [pieces_parameter letters ends, tokens, ih]
      rfl
  | code bare noSign more ih =>
      rw [pieces_cons, next_of_bare bare noSign, tokens, ih]
      rfl

/-! ## Brackets within names -/

/-- Whether a text is a bracketed name in which two brackets stand for one. -/
def EscapesBracket (text : List Char) : Prop :=
  text.head? = some '[' ∧ [']', ']'] <:+: text

instance (text : List Char) : Decidable (EscapesBracket text) :=
  inferInstanceAs (Decidable (_ ∧ _))

theorem Body.apart
    {close : Char} {body : List Char} (inside : Body true close body)
    (apart : close = ']' → ¬ [']', ']'] <:+: body) :
    Body false close body := by
  induction inside with
  | nil => exact .nil
  | other differs _ ih =>
      exact .other differs (ih fun same twice =>
        apart same (List.infix_cons twice))
  | @pair more _ _ ih =>
      have noBracket : close ≠ ']' := by
        rintro rfl
        exact apart rfl ⟨[], more, rfl⟩
      exact
        .pair (fun same => absurd same noBracket)
          (ih fun same => absurd same noBracket)

theorem Body.not_mem
    {body : List Char} (inside : Body false ']' body) :
    ']' ∉ body := by
  generalize bracket : ']' = close at inside
  induction inside with
  | nil => exact List.not_mem_nil
  | other differs _ ih => simp [differs.symm, ih]
  | pair doubles => exact absurd (doubles bracket.symm) Bool.false_ne_true

/-- An enclosed text is read alike in both ways unless it is a bracketed name
that holds a bracket. -/
theorem Encloses.iff_not_escapesBracket
    {text rest : List Char} (encloses : Encloses true text rest) :
    Encloses false text rest ↔ ¬ EscapesBracket text := by
  constructor
  · rintro further ⟨opened, twice⟩
    have least : 2 ≤ text.count ']' := twice.sublist.count_le ']'
    cases further with
    | @quoted opening close body ending _ delimits inside ends =>
        cases delimits with
        | literal | quotedName => exact absurd opened (by simp)
        | bracketedName =>
            have none := List.count_eq_zero.mpr inside.not_mem
            cases ends <;> simp [none] at least
    | lineComment | blockComment => exact absurd opened (by simp)
  · intro single
    cases encloses with
    | @quoted opening close body ending _ delimits inside ends apart =>
        have noPair (bracket : close = ']') : ¬ [']', ']'] <:+: body := by
          intro twice
          cases delimits with
          | literal | quotedName => exact absurd bracket (by decide)
          | bracketedName =>
              exact single
                ⟨rfl, (List.infix_cons twice).trans
                  (List.prefix_append _ ending).isInfix⟩
        refine .quoted delimits (inside.apart noPair) ends ?_
        exact fun doubles => apart fun bracket => absurd (doubles bracket) nofun
    | lineComment inside ends => exact .lineComment inside ends
    | blockComment inside ends => exact .blockComment inside ends

namespace Reads

variable {brackets : Bool} {text : List Char} {lexemes : List Lexeme}

theorem of_enclosed
    {first : List Char}
    (reads : Reads brackets text (.enclosed first :: lexemes)) :
    ∃ rest, text = first ++ rest ∧ Encloses brackets first rest ∧
      Reads brackets rest lexemes := by
  cases reads with
  | enclosed encloses more => exact ⟨_, rfl, encloses, more⟩

theorem of_parameter
    {name : List Char}
    (reads : Reads brackets text (.parameter name :: lexemes)) :
    ∃ rest, text = '@' :: name ++ rest ∧ Reads brackets rest lexemes := by
  cases reads with
  | parameter letters ends more => exact ⟨_, rfl, more⟩

theorem of_code
    {char : Char} (reads : Reads brackets text (.code char :: lexemes)) :
    ∃ rest, text = char :: rest ∧ Reads brackets rest lexemes := by
  cases reads with
  | code bare noSign more => exact ⟨_, rfl, more⟩

end Reads

/-- Whether no bracketed name among some lexemes holds a bracket. -/
def NoneEscapes (lexemes : List Lexeme) : Prop :=
  ∀ text, .enclosed text ∈ lexemes → ¬ EscapesBracket text

theorem noneEscapes_cons
    {lexeme : Lexeme} {lexemes : List Lexeme} :
    NoneEscapes (lexeme :: lexemes) ↔
      (∀ text, lexeme = .enclosed text → ¬ EscapesBracket text) ∧
        NoneEscapes lexemes := by
  constructor
  · intro all
    exact
      ⟨fun text same => all text (same ▸ List.mem_cons_self),
        fun text member => all text (List.mem_cons_of_mem _ member)⟩
  · rintro ⟨first, others⟩ text member
    rcases List.mem_cons.mp member with same | member
    · exact first text same.symm
    · exact others text member

/-- The reading in which brackets double is the other one exactly if no
bracketed name holds a bracket. -/
theorem Reads.iff_noneEscapes
    {text : List Char} {lexemes : List Lexeme}
    (reads : Reads true text lexemes) :
    Reads false text lexemes ↔ NoneEscapes lexemes := by
  induction reads with
  | nil => exact ⟨fun _ _ => nofun, fun _ => .nil⟩
  | @enclosed first rest lexemes encloses more ih =>
      rw [noneEscapes_cons, ← ih]
      constructor
      · intro further
        obtain ⟨last, same, encloses', more'⟩ := further.of_enclosed
        obtain rfl := List.append_cancel_left same
        refine ⟨?_, more'⟩
        rintro _ ⟨⟩
        exact encloses.iff_not_escapesBracket.mp encloses'
      · rintro ⟨single, more'⟩
        exact
          .enclosed (encloses.iff_not_escapesBracket.mpr (single _ rfl)) more'
  | @parameter name rest lexemes letters ends more ih =>
      rw [noneEscapes_cons, ← ih]
      constructor
      · intro further
        obtain ⟨last, same, more'⟩ := further.of_parameter
        obtain rfl := List.append_cancel_left same
        exact ⟨nofun, more'⟩
      · rintro ⟨-, more'⟩
        exact .parameter letters ends more'
  | @code char rest lexemes bare noSign more ih =>
      rw [noneEscapes_cons, ← ih]
      constructor
      · intro further
        obtain ⟨last, same, more'⟩ := further.of_code
        obtain rfl := (List.cons.inj same).2
        exact ⟨nofun, more'⟩
      · rintro ⟨-, more'⟩
        exact .code bare noSign more'

/-! ## The parameters of a template -/

/-- Whether scanning a template finds the parameters of some lexemes, each once
and in their order: what stands in for them takes their places, and everything
else is copied. -/
structure Scans (template : List Char) (lexemes : List Lexeme) : Prop where
  tokens : tokens 0 (pieces .code template) = parameters 0 lexemes
  names :
    names template =
      (parameters 0 lexemes).map fun token => String.ofList token.2
  filled : ∀ answer,
    fill answer (pieces .code template) [] =
      splice answer template 0 (parameters 0 lexemes) []

theorem scans_of_reads
    {template : List Char} {lexemes : List Lexeme}
    (reads : Reads false template lexemes) :
    Scans template lexemes := by
  have found := tokens_of_reads reads 0
  refine ⟨found, ?_, fun answer => ?_⟩
  · rw [← found]
    exact names_eq_tokens ..
  · rw [← found]
    exact fill_eq_splice ..

/-- Every template is read in one way, also if closing brackets double, and
scanning finds the parameters of the reading in which they do not.  The two
readings are one, so that scanning finds the parameters of both, exactly if no
bracketed name holds a bracket. -/
theorem parameters_found
    (template : List Char) :
    (∃ lexemes, Reads false template lexemes ∧
      (∀ others, Reads false template others → others = lexemes) ∧
      Scans template lexemes) ∧
    ∃ lexemes, Reads true template lexemes ∧
      (∀ others, Reads true template others → others = lexemes) ∧
      (Reads false template lexemes ↔ NoneEscapes lexemes) ∧
      (NoneEscapes lexemes → Scans template lexemes) := by
  obtain ⟨short, reads⟩ := exists_reads false template
  obtain ⟨lexemes, doubling⟩ := exists_reads true template
  refine
    ⟨⟨short, reads, fun _ other => other.unique reads rfl,
      scans_of_reads reads⟩, lexemes, doubling,
      fun _ other => other.unique doubling rfl, doubling.iff_noneEscapes,
      fun single => ?_⟩
  exact scans_of_reads (doubling.iff_noneEscapes.mpr single)

/-- Where two closing brackets stand for one, the rest of the name is scanned
as code. -/
theorem bracketed_name_ends_early :
    ¬ ∀ template lexemes, Reads true template lexemes →
      tokens 0 (pieces .code template) = parameters 0 lexemes := by
  intro agrees
  have inside : Body true ']' "a]]@b".toList :=
    .other (by decide)
      (.pair (fun _ => rfl)
        (.other (by decide) (.other (by decide) .nil)))
  have reads : Reads true "[a]]@b]".toList [.enclosed "[a]]@b]".toList] :=
    .enclosed
      (.quoted .bracketedName inside (.ended []) fun _ => nofun) .nil
  exact absurd (agrees _ _ reads) (by decide +kernel)

end AmlExchange.Template.Sql
