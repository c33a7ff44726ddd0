import AmlExchange.Proofs.Sql.Literals
import AmlExchange.Proofs.Sql.Stages
import AmlExchange.Proofs.Text.Marks

/-!
# Lists in `in` clauses

The keyword `in` begins with a blank, which ends whatever is read before it, so
a template is read up to the keyword as if it ended there.  After the keyword
and a parenthesis, a list is written as its members, whatever comes before.
After the keyword alone it is written as its members in parentheses where the
text before the keyword is empty or ends with an ASCII character.  Any other
character before the keyword hides it, and then the list is one literal
(`list_after_accent_stays_whole`).
-/

namespace AmlExchange.Template

namespace Sql

/-! ## Up to a blank -/

/-- A blank before which a mark is missing does not bring it. -/
theorem ne_append_blank
    {rest : List Char} {mark : Char} (noBlank : mark ≠ ' ')
    (absent : ∀ others, rest ≠ mark :: others) (more : List Char) :
    ∀ others, rest ++ ' ' :: more ≠ mark :: others := by
  intro others same
  cases rest with
  | nil => exact noBlank (List.cons.inj same).1.symm
  | cons char _ =>
      rw [List.cons_append] at same
      exact absent _ (congrArg (· :: _) (List.cons.inj same).1)

/-- A blank ends whatever is read before it. -/
theorem next_blank
    (region : Region) (char : Char) (rest more : List Char) :
    next region char (rest ++ ' ' :: more) =
      ((next region char rest).1, (next region char rest).2.1,
        (next region char rest).2.2 ++ ' ' :: more) := by
  have stops : isParameterChar ' ' = false := by decide
  fun_cases next region char rest with
  | case6 =>
      rw [next, Text.takeWhile_append_mark stops,
        Text.dropWhile_append_mark stops]
  | case7 _ _ quote double bracket sign noLine noBlock =>
      have line (minus : char = '-') :=
        ne_append_blank (by decide) (fun others => noLine others minus) more
      have block (slash : char = '/') :=
        ne_append_blank (by decide) (fun others => noBlock others slash) more
      unfold next
      split <;> simp_all
  | case11 _ _ noEnd =>
      have ending (star : char = '*') :=
        ne_append_blank (by decide) (fun others => noEnd others star) more
      unfold next
      split <;> simp_all
  | _ => rfl

/-- A template is read up to a blank as if it ended there. -/
theorem pieces_blank
    (region : Region) (before more : List Char) :
    pieces region (before ++ ' ' :: more) =
      pieces region before ++
        pieces (regionAfter region before) (' ' :: more) := by
  fun_induction pieces region before with
  | case1 region => rw [regionAfter, List.nil_append, List.nil_append]
  | case2 region char rest ih =>
      rw [List.cons_append, pieces_cons, next_blank, ih, regionAfter]
      rfl

section

variable {locale : Locale} {values : String → Option Value}

theorem addition_append
    (first second : List Piece) (written : List Char) :
    addition locale values (first ++ second) written =
      addition locale values first written ++
        addition locale values second
          ((addition locale values first written).reverse ++ written) := by
  induction first generalizing written with
  | nil => rfl
  | cons piece rest ih =>
      cases piece with
      | copied text =>
          rw [List.cons_append, addition_copied, addition_copied, ih]
          simp
      | parameter name =>
          rw [List.cons_append, addition_parameter, addition_parameter, ih]
          simp

end

/-! ## The last character -/

/-- Whether a text is empty or ends with an ASCII character. -/
def endsAscii (text : List Char) : Bool :=
  text.getLast?.all fun last => last.toNat < 0x80

theorem endsAscii_append
    {text : List Char} (some : text ≠ []) (before : List Char) :
    endsAscii (before ++ text) = endsAscii text := by
  rw [endsAscii, List.getLast?_append_of_ne_nil before some, endsAscii]

theorem endsAscii_of_ascii
    {text : List Char} (ascii : ∀ char ∈ text, char.toNat < 0x80) :
    endsAscii text = true := by
  rw [endsAscii, Option.all_eq_true]
  intro last member
  simpa using ascii last (List.mem_of_getLast? member)

theorem endsAscii_literal
    (text : List Char) :
    endsAscii (literal text) = true := by
  rw [literal, endsAscii_append (by simp)]
  rfl

theorem joined_ne_nil
    {text : List Char} {rest : List (List Char)} (some : text ≠ []) :
    Locale.joined (text :: rest) ≠ [] := by
  cases rest with
  | nil => exact some
  | cons other more => simp [Locale.joined]

theorem endsAscii_joined
    {texts : List (List Char)}
    (each : ∀ text ∈ texts, text ≠ [] ∧ endsAscii text = true) :
    endsAscii (Locale.joined texts) = true := by
  induction texts with
  | nil => rfl
  | cons text rest ih =>
      rw [List.forall_mem_cons] at each
      cases rest with
      | nil => exact each.1.2
      | cons other more =>
          rw [joined_cons (by simp), endsAscii_append (by simp),
            ← List.singleton_append,
            endsAscii_append (joined_ne_nil (each.2 _ (by simp)).1)]
          exact ih each.2

theorem ascii_digitChar
    {digit : Nat} (small : digit < 10) :
    (Decimal.digitChar digit).toNat < 0x80 := by
  decide +revert

theorem ascii_formatChars
    (locale : Locale) {value : Value} (number : value.isNumber = true) :
    ∀ char ∈ locale.formatChars value, char.toNat < 0x80 :=
  forall_mem_formatChars ascii_digitChar
    (List.all_iff_forall_prop.mp (by decide)) locale number

theorem endsAscii_formatChars
    (locale : Locale) {value : Value} (number : value.isNumber = true) :
    locale.formatChars value ≠ [] ∧
      endsAscii (locale.formatChars value) = true := by
  obtain ⟨first, rest, begins, -⟩ := (sealed_formatChars locale number).begins
  refine ⟨?_, endsAscii_of_ascii (ascii_formatChars locale number)⟩
  rw [begins]
  exact List.cons_ne_nil first rest

/-- The members of a list as SQL with a comma between any two: bare if all of
them are numbers, and otherwise as literals. -/
def clauseBody (locale : Locale) (members : List Value) : List Char :=
  Locale.joined
    (if Value.isNumericList (.list members) then
      members.map locale.formatChars
    else (listTexts locale members).map literal)

theorem enumerate_eq_clauseBody
    (locale : Locale) (members : List Value) :
    enumerate locale.formatChars true (.list members) =
      clauseBody locale members := by
  cases numeric : Value.isNumericList (.list members) with
  | true =>
      rw [enumerate, clauseBody, numeric]
      rfl
  | false =>
      rw [enumerate_of_quoted locale numeric, clauseBody, numeric]
      rfl

theorem endsAscii_clauseBody
    (locale : Locale) (members : List Value) :
    endsAscii (clauseBody locale members) = true := by
  apply endsAscii_joined
  split
  · next numeric =>
      rw [Value.isNumericList, Bool.and_eq_true, List.all_eq_true] at numeric
      rw [List.forall_mem_map]
      exact fun value member =>
        endsAscii_formatChars locale (numeric.2 value member)
  · rw [List.forall_mem_map]
    exact fun text _ => ⟨by simp [literal], endsAscii_literal text⟩

theorem endsAscii_expression
    (locale : Locale) (inClause : Bool) (value : Value) :
    endsAscii (expression locale inClause value) = true := by
  unfold expression
  split
  · rfl
  · exact (endsAscii_formatChars locale rfl).2
  · exact (endsAscii_formatChars locale rfl).2
  · split
    · rw [enumerate_eq_clauseBody]
      exact endsAscii_clauseBody ..
    · exact endsAscii_literal _
  · exact endsAscii_literal _

section

variable {locale : Locale} {values : String → Option Value}

theorem endsAscii_replacement
    {name : String} {value : Value} (bound : values name = some value)
    (inList : Bool) (written : List Char) :
    replacement locale values inList name written ≠ [] ∧
      endsAscii (replacement locale values inList name written) = true := by
  constructor
  · obtain ⟨first, rest, begins, -⟩ :=
      (sealed_replacement locale bound inList written).begins
    rw [begins]
    exact List.cons_ne_nil first rest
  · rw [replacement_of_bound locale bound]
    cases listPlace written with
    | elsewhere | inParentheses => exact endsAscii_expression ..
    | afterKeyword =>
        rw [parenthesized, endsAscii_append (by simp)]
        rfl

/-- What stands for a part ends with an ASCII character if the part does,
because every value does. -/
theorem exists_addition_cons
    (piece : Piece) (rest : List Piece) (written : List Char) :
    ∃ text,
      addition locale values (piece :: rest) written =
        text ++ addition locale values rest (text.reverse ++ written) ∧
      (piece.source ≠ [] → endsAscii piece.source = true →
        text ≠ [] ∧ endsAscii text = true) := by
  cases piece with
  | copied text =>
      exact ⟨text, addition_copied .., fun some ascii => ⟨some, ascii⟩⟩
  | parameter name =>
      refine ⟨_, addition_parameter .., fun some ascii => ?_⟩
      cases bound : values (String.ofList name) with
      | none =>
          rw [replacement_of_unbound locale values bound, String.toList_ofList]
          exact ⟨some, ascii⟩
      | some value => exact endsAscii_replacement bound false written

theorem endsAscii_addition
    (region : Region) {text : List Char} (some : text ≠ [])
    (ascii : endsAscii text = true) (written : List Char) :
    addition locale values (pieces region text) written ≠ [] ∧
      endsAscii (addition locale values (pieces region text) written) =
        true := by
  fun_induction pieces region text generalizing written with
  | case1 => exact absurd rfl some
  | case2 region char rest ih =>
      have whole := source_next region char rest
      obtain ⟨filled, parts, ends⟩ :=
        @exists_addition_cons locale values (next region char rest).1
          (pieces (next region char rest).2.1 (next region char rest).2.2)
          written
      rw [parts]
      by_cases last : (next region char rest).2.2 = []
      · rw [last, List.append_nil] at whole
        rw [← whole] at some ascii
        rw [last, pieces]
        show filled ++ [] ≠ [] ∧ endsAscii (filled ++ []) = true
        rw [List.append_nil]
        exact ends some ascii
      · rw [← whole, endsAscii_append last] at ascii
        obtain ⟨more, following⟩ := ih last ascii (filled.reverse ++ written)
        rw [endsAscii_append more]
        exact ⟨List.append_ne_nil_of_right_ne_nil _ more, following⟩

/-- A filled text is empty or ends with an ASCII character if the template
does. -/
theorem endsAscii_replace
    {template : List Char} (ascii : endsAscii template = true) :
    endsAscii (replace locale values false template) = true := by
  rw [replace_eq_addition]
  by_cases some : template = []
  · rw [some, pieces]
    rfl
  · exact (endsAscii_addition .code some ascii []).2

end

/-! ## The keyword -/

theorem not_mem_starts
    {char : Char} (part : char.toLower ∈ keywordChars) :
    char ∉ starts := by
  have others : ∀ mark ∈ starts, mark.toLower ∉ keywordChars :=
    List.all_iff_forall_prop.mp (by decide)
  exact fun start => others char start part

/-- A keyword is read as its characters. -/
theorem verbatim_of_fold
    {keyword : List Char}
    (parts : ∀ char ∈ Text.fold keyword, char ∈ keywordChars) :
    Verbatim keyword := by
  apply Verbatim.of_plain
  intro char member
  exact not_mem_starts (parts _ (List.mem_map_of_mem member))

theorem fold_reverse
    (text : List Char) :
    Text.fold text.reverse = (Text.fold text).reverse :=
  List.map_reverse

/-- After the keyword and a parenthesis, whatever is before them. -/
theorem listPlace_of_open
    {keyword : List Char}
    (isKeyword : Text.sameIgnoringCase keyword " in (".toList = true)
    (written : List Char) :
    listPlace (keyword.reverse ++ written) = .inParentheses := by
  rw [Text.sameIgnoringCase_iff] at isKeyword
  have five : keyword.reverse.length = 5 := by
    simpa using congrArg List.length isKeyword
  have same :
      Text.sameIgnoringCase keyword.reverse "( ni ".toList = true := by
    rw [Text.sameIgnoringCase_iff, fold_reverse, isKeyword]
    rfl
  rw [listPlace, List.take_left' five, if_pos same]

/-- After the keyword alone the character before it counts. -/
theorem listPlace_of_keyword
    {keyword : List Char}
    (isKeyword : Text.sameIgnoringCase keyword " in ".toList = true)
    (written : List Char) :
    listPlace (keyword.reverse ++ written) =
      if endsAscii written.reverse then .afterKeyword
      else .elsewhere := by
  rw [Text.sameIgnoringCase_iff] at isKeyword
  have four : keyword.reverse.length = 4 := by
    simpa using congrArg List.length isKeyword
  have same :
      Text.sameIgnoringCase keyword.reverse " ni ".toList = true := by
    rw [Text.sameIgnoringCase_iff, fold_reverse, isKeyword]
    rfl
  have unopened :
      Text.sameIgnoringCase ((keyword.reverse ++ written).take 5)
        "( ni ".toList = false := by
    rw [← Bool.not_eq_true, Text.sameIgnoringCase_iff, List.take_append,
      Text.fold_append, List.take_of_length_le (by omega), fold_reverse,
      isKeyword]
    exact fun opened => absurd (List.cons.inj opened).1 (by decide)
  rw [listPlace, unopened, List.take_left' four, List.drop_left' four, same]
  cases written with
  | nil => rfl
  | cons char rest => simp [endsAscii]

/-! ## Lists after the keyword -/

/-- Whether a text is the keyword, or the keyword and a parenthesis, in any
letter case. -/
def IsKeyword (keyword : List Char) : Prop :=
  Text.sameIgnoringCase keyword " in ".toList = true ∨
    Text.sameIgnoringCase keyword " in (".toList = true

theorem IsKeyword.begins
    {keyword : List Char} (isKeyword : IsKeyword keyword) :
    ∃ rest, keyword = ' ' :: rest := by
  rcases isKeyword with same | same
  all_goals
    rw [Text.sameIgnoringCase_iff] at same
    obtain ⟨first, rest, rfl, space, -⟩ := List.map_eq_cons_iff.mp same
    exact ⟨rest, by rw [eq_space_of_toLower space]⟩

theorem IsKeyword.verbatim
    {keyword : List Char} (isKeyword : IsKeyword keyword) :
    Verbatim keyword := by
  apply verbatim_of_fold
  rcases isKeyword with same | same
  all_goals
    rw [(Text.sameIgnoringCase_iff ..).mp same]
    exact List.all_iff_forall_prop.mp (by decide)

/-- The outcome of a template in which some text stands for the parameter after
the keyword. -/
def filledAround (locale : Locale) (values : String → Option Value)
    (before keyword text rest : List Char) : List Char :=
  let written := replace locale values false before ++ keyword ++ text
  written ++ addition locale values (pieces .code rest) written.reverse

section

variable {locale : Locale} {values : String → Option Value}
variable {before keyword name rest : List Char}

/-- A parameter after the keyword in code. -/
theorem replace_keyword
    (inCode : regionAfter .code before = .code)
    (isKeyword : IsKeyword keyword)
    (letters : ∀ char ∈ name, isParameterChar char = true)
    (ends : ∀ char ∈ rest.head?, isParameterChar char = false) :
    replace locale values false (before ++ keyword ++ '@' :: name ++ rest) =
      filledAround locale values before keyword
        (replacement locale values false (String.ofList name)
          (replace locale values false before ++ keyword).reverse)
        rest := by
  obtain ⟨following, rfl⟩ := isKeyword.begins
  have parts :
      pieces .code (before ++ ' ' :: following ++ '@' :: name ++ rest) =
        pieces .code before ++
          (copies (' ' :: following) ++
            .parameter name :: pieces .code rest) := by
    rw [← pieces_parameter letters ends, ← isKeyword.verbatim]
    have divided := pieces_blank .code before
      (following ++ ('@' :: name ++ rest))
    rw [inCode] at divided
    simpa using divided
  rw [filledAround, replace_eq_addition, replace_eq_addition, parts,
    addition_append, addition_copies, addition_parameter]
  simp

theorem replacement_after_open
    {members : List Value}
    (bound : values (String.ofList name) = some (.list members))
    (opened : Text.sameIgnoringCase keyword " in (".toList = true)
    (written : List Char) :
    replacement locale values false (String.ofList name)
        (written ++ keyword).reverse =
      clauseBody locale members := by
  rw [replacement_of_bound locale bound, isInClause, List.reverse_append,
    listPlace_of_open opened]
  exact enumerate_eq_clauseBody locale members

theorem replacement_after_keyword
    {members : List Value}
    (bound : values (String.ofList name) = some (.list members))
    (unopened : Text.sameIgnoringCase keyword " in ".toList = true)
    (written : List Char) :
    replacement locale values false (String.ofList name)
        (written ++ keyword).reverse =
      if endsAscii written then '(' :: clauseBody locale members ++ [')']
      else literal (locale.formatChars (.list members)) := by
  rw [replacement_of_bound locale bound, isInClause, List.reverse_append,
    listPlace_of_keyword unopened, List.reverse_reverse,
    ← enumerate_eq_clauseBody]
  split <;> rfl

end

end Sql

namespace Substitution

open Sql

/-- A list after the keyword `in` in code.  Where a parenthesis follows the
keyword, its members are written, whatever is before it.  Where none follows,
they are written in parentheses if the text before the keyword is empty or ends
with an ASCII character; otherwise the list is one literal. -/
theorem list_after_keyword
    (substitution : Substitution) (locale : Locale)
    {template : String} {before keyword name rest : List Char}
    (parts : template.toList = before ++ keyword ++ '@' :: name ++ rest)
    (flat : substitution.isAml template = false)
    (inCode : regionAfter .code before = .code)
    (letters : ∀ char ∈ name, isParameterChar char = true)
    (ends : ∀ char ∈ rest.head?, isParameterChar char = false)
    {members : List Value}
    (bound : substitution.parameters.get? (String.ofList name) =
      some (.list members))
    (isKeyword : IsKeyword keyword) :
    ∃ text,
      (substitution.fill locale none template).2.text =
        .ok
          (String.ofList
            (filledAround locale substitution.parameters.get? before keyword
              text rest)) ∧
      (Text.sameIgnoringCase keyword " in (".toList = true →
        text = clauseBody locale members) ∧
      (Text.sameIgnoringCase keyword " in ".toList = true →
        text =
          if endsAscii
              (replace locale substitution.parameters.get? false before) then
            '(' :: clauseBody locale members ++ [')']
          else literal (locale.formatChars (.list members))) ∧
      (Text.sameIgnoringCase keyword " in ".toList = true →
        endsAscii before = true →
          text = '(' :: clauseBody locale members ++ [')']) := by
  have filled := text_fill_of_flat flat locale none
  rw [parts, replace_keyword inCode isKeyword letters ends] at filled
  have spaced (unopened : Text.sameIgnoringCase keyword " in ".toList = true) :=
    @replacement_after_keyword locale _ keyword name members bound unopened
      (replace locale substitution.parameters.get? false before)
  refine ⟨_, filled, ?_, spaced, ?_⟩
  · intro opened
    exact replacement_after_open bound opened _
  · intro unopened ascii
    rw [spaced unopened, if_pos (endsAscii_replace ascii)]

/-- A substitution with a list of two texts. -/
def listed : Substitution :=
  new.bind "p" (.list [.text "a", .text "it's"])

theorem list_after_keyword_of_listed :
    (listed.fill Document.english none "where id not In @p").2.text =
      .ok "where id not In (N'a',N'it''s')" := by
  obtain ⟨text, filled, -, -, expanded⟩ :=
    @list_after_keyword listed Document.english "where id not In @p"
      "where id not".toList " In ".toList "p".toList [] rfl (by decide)
      (by decide +kernel) (List.all_iff_forall_prop.mp (by decide)) nofun _ rfl
      (.inl (by decide))
  rw [filled, expanded (by decide) (by decide)]
  exact congrArg Except.ok (by decide +kernel)

/-- A list is one literal where a letter with an accent is before the
keyword. -/
theorem list_after_accent_stays_whole :
    ¬ ∀ (substitution : Substitution) (locale : Locale) (template : String)
        (before keyword name rest : List Char) (members : List Value),
      template.toList = before ++ keyword ++ '@' :: name ++ rest →
        substitution.isAml template = false →
          regionAfter .code before = .code →
            (∀ char ∈ name, isParameterChar char = true) →
              (∀ char ∈ rest.head?, isParameterChar char = false) →
                substitution.parameters.get? (String.ofList name) =
                    some (.list members) →
                  Text.sameIgnoringCase keyword " in ".toList = true →
                    (substitution.fill locale none template).2.text =
                      .ok
                        (String.ofList
                          (filledAround locale substitution.parameters.get?
                            before keyword
                            ('(' :: clauseBody locale members ++ [')'])
                            rest)) := by
  intro expands
  have expanded :=
    expands listed Document.english "where é in @p" "where é".toList
      " in ".toList "p".toList [] [.text "a", .text "it's"] rfl (by decide)
      (by decide +kernel) (List.all_iff_forall_prop.mp (by decide)) nofun rfl
      (by decide)
  rw [text_fill_of_flat (by decide)] at expanded
  exact absurd (Except.ok.inj expanded) (by decide +kernel)

end Substitution

end AmlExchange.Template
