import AmlExchange.Proofs.Sql.Stages

/-!
# Parameters by their places

The parameters of a template are told by their places and names.  Filling
copies the template up to the place of each one, lets something else stand in
for it, and goes on after it (`fill_eq_splice`).  The tokens stand in the
template where their places say, one after the other, so a template is put
together again from what is copied and from the tokens themselves
(`splice_tokens`).
-/

namespace AmlExchange.Template

namespace Sql

/-- The parameters among some parts, each with its place: the number of
characters before it, `start` of which are before all parts. -/
def tokens (start : Nat) : List Piece → List (Nat × List Char)
  | [] => []
  | .copied text :: rest => tokens (start + text.length) rest
  | .parameter name :: rest =>
      (start, name) :: tokens (start + 1 + name.length) rest

/-- A template from one place on, after some text that is given from its end
backwards.  It is copied up to each token, and what `answer` makes of the name
and of the text before it stands in for the token. -/
def splice (answer : String → List Char → List Char)
    (template : List Char) :
    Nat → List (Nat × List Char) → List Char → List Char
  | last, [], written => written.reverse ++ template.drop last
  | last, (start, name) :: rest, written =>
      let before := ((template.take start).drop last).reverse ++ written
      splice answer template (start + 1 + name.length) rest
        ((answer (String.ofList name) before).reverse ++ before)

/-! ## Filling by places -/

/-- Filling some parts is splicing.  What is pending was read and is not yet
copied. -/
theorem fill_eq_splice_from
    (answer : String → List Char → List Char) {template : List Char}
    {parts : List Piece} {front pending : List Char}
    (whole : template = front ++ pending ++ parts.flatMap Piece.source)
    (written : List Char) :
    fill answer parts (pending.reverse ++ written) =
      splice answer template front.length
        (tokens (front.length + pending.length) parts) written := by
  induction parts generalizing front pending written with
  | nil =>
      rw [List.flatMap_nil, List.append_nil] at whole
      rw [fill, tokens, splice, whole, List.drop_left]
      simp
  | cons piece rest ih =>
      cases piece with
      | copied text =>
          have longer :
              template =
                front ++ (pending ++ text) ++ rest.flatMap Piece.source := by
            simpa [Piece.source] using whole
          have further := ih longer written
          rw [List.length_append, ← Nat.add_assoc] at further
          rw [fill, tokens, ← further, List.reverse_append,
            List.append_assoc]
      | parameter name =>
          have longer :
              template =
                (front ++ pending ++ '@' :: name) ++ [] ++
                  rest.flatMap Piece.source := by
            simpa [Piece.source] using whole
          have place :
              (front ++ pending ++ '@' :: name).length =
                front.length + pending.length + 1 + name.length := by
            simp only [List.length_append, List.length_cons]
            omega
          have copied :
              (template.take (front.length + pending.length)).drop
                  front.length =
                pending := by
            rw [whole, ← List.length_append, List.take_left,
              List.drop_left]
          have further :=
            ih longer
              ((answer (String.ofList name)
                  (pending.reverse ++ written)).reverse ++
                (pending.reverse ++ written))
          rw [List.reverse_nil, List.nil_append, List.length_nil,
            Nat.add_zero, place] at further
          rw [fill, tokens, splice, copied, further]

/-- A template is filled by splicing at its tokens. -/
theorem fill_eq_splice
    (answer : String → List Char → List Char) (template : List Char) :
    fill answer (pieces .code template) [] =
      splice answer template 0 (tokens 0 (pieces .code template)) [] := by
  apply @fill_eq_splice_from answer template _ [] []
  rw [source_pieces]
  rfl

/-! ## Tokens in their places -/

theorem le_of_mem_tokens
    {start : Nat} {parts : List Piece} {token : Nat × List Char}
    (member : token ∈ tokens start parts) :
    start ≤ token.1 := by
  induction parts generalizing start with
  | nil => cases member
  | cons piece rest ih =>
      cases piece with
      | copied text => exact Nat.le_of_add_right_le (ih member)
      | parameter name =>
          rcases List.mem_cons.mp member with rfl | member
          · exact Nat.le_refl _
          · have := ih member
            omega

/-- Every token ends before the next one begins. -/
theorem pairwise_tokens
    (start : Nat) (parts : List Piece) :
    (tokens start parts).Pairwise fun token other =>
      token.1 + 1 + token.2.length ≤ other.1 := by
  induction parts generalizing start with
  | nil => exact List.Pairwise.nil
  | cons piece rest ih =>
      cases piece with
      | copied text => exact ih _
      | parameter name =>
          exact
            List.pairwise_cons.mpr
              ⟨fun other member => le_of_mem_tokens member, ih _⟩

/-- A token stands in the text where its place says. -/
theorem prefix_of_mem_tokens
    {before : List Char} {parts : List Piece} {token : Nat × List Char}
    (member : token ∈ tokens before.length parts) :
    '@' :: token.2 <+:
      (before ++ parts.flatMap Piece.source).drop token.1 := by
  induction parts generalizing before with
  | nil => cases member
  | cons piece rest ih =>
      have longer (added : List Char) :
          before ++ (added ++ rest.flatMap Piece.source) =
            (before ++ added) ++ rest.flatMap Piece.source :=
        (List.append_assoc ..).symm
      rw [List.flatMap_cons, longer]
      cases piece with
      | copied text =>
          apply ih
          rw [List.length_append]
          exact member
      | parameter name =>
          rcases List.mem_cons.mp member with rfl | member
          · rw [← longer, List.drop_left]
            exact List.prefix_append _ _
          · apply ih
            rw [List.length_append, Piece.source, List.length_cons,
              Nat.add_comm name.length 1, ← Nat.add_assoc]
            exact member

theorem names_eq_tokens
    (start : Nat) (parts : List Piece) :
    parts.filterMap Piece.name? =
      (tokens start parts).map fun token => String.ofList token.2 := by
  induction parts generalizing start with
  | nil => rfl
  | cons piece rest ih =>
      cases piece with
      | copied text => exact ih _
      | parameter name => exact congrArg _ (ih _)

/-- The tokens in their own places give the template again. -/
theorem splice_tokens
    (template : List Char) :
    splice (fun name _ => '@' :: name.toList) template 0
        (tokens 0 (pieces .code template)) [] =
      template := by
  rw [← fill_eq_splice, fill_of_echoed fun _ _ _ => rfl, source_pieces]
  rfl

end Sql

namespace Substitution

/-- Flat SQL none of whose parameters has a value is kept to the last
character.  Whatever stands in for its tokens, they are read in their places,
one after the other, and what is between them is copied. -/
theorem unresolved_kept
    (substitution : Substitution) (locale : Locale) {template : String}
    (unresolved : ∀ name ∈ Sql.names template.toList,
      substitution.parameters.get? name = none) :
    (substitution.isAml template = false →
        (substitution.fill locale none template).2.text = .ok template) ∧
      (∀ inList,
        (substitution.setting locale).replaceSql inList template.toList =
          template.toList) ∧
      ∃ found,
        Sql.names template.toList =
          found.map (fun token => String.ofList token.2) ∧
        (∀ token ∈ found,
          '@' :: token.2 <+: template.toList.drop token.1) ∧
        found.Pairwise (fun token other =>
          token.1 + 1 + token.2.length ≤ other.1) ∧
        (∀ answer,
          Sql.fill answer (Sql.pieces .code template.toList) [] =
            Sql.splice answer template.toList 0 found []) ∧
        Sql.splice (fun name _ => '@' :: name.toList) template.toList 0
            found [] =
          template.toList := by
  refine
    ⟨?_, fun inList => Sql.replace_of_unbound unresolved,
      Sql.tokens 0 (Sql.pieces .code template.toList),
      Sql.names_eq_tokens .., ?_, Sql.pairwise_tokens ..,
      fun answer => Sql.fill_eq_splice answer _, Sql.splice_tokens _⟩
  · intro flat
    rw [text_fill_of_flat flat, Sql.replace_of_unbound unresolved,
      String.ofList_toList]
    rfl
  · intro token member
    have placed :=
      @Sql.prefix_of_mem_tokens []
        (Sql.pieces .code template.toList) token member
    rwa [Sql.source_pieces] at placed

/-- A name with an accent, a bare at sign, and a literal that does not end and
that holds the name of a value. -/
theorem unresolved_kept_of_accent :
    Sql.names "é=@ü or @ <> '@a".toList = ["ü", ""] ∧
      ((new.bind "a" (.text "v")).fill
          ⟨"en", "en-US", 0, 0, ⟨0, 0, by decide, by decide⟩⟩ none
          "é=@ü or @ <> '@a").2.text =
        .ok "é=@ü or @ <> '@a" := by
  have names : Sql.names "é=@ü or @ <> '@a".toList = ["ü", ""] := by
    decide +kernel
  refine ⟨names, ?_⟩
  apply (unresolved_kept _ _ ?_).1
  · decide +kernel
  · rw [names]
    decide +kernel

end Substitution

end AmlExchange.Template
