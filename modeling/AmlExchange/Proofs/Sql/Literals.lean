import AmlExchange.Proofs.Document.Reachable
import AmlExchange.Proofs.Sql.Renderings
import AmlExchange.Proofs.Template.Ranges

/-!
# Literals read back

A literal ends at its first single apostrophe, and two apostrophes within it
stand for one.  Read by this rule, and with a comma between any two of them, the
literals that a value is written as say what the value says, each in its place
and to the end of the text.  The rule reads nothing else: a text is read as
some literals only if it is what they are written as (`literals?_eq_some_iff`).
-/

namespace AmlExchange.Template.Sql

/-! ## Reading literals -/

/-- The text within a literal from some character of it on, and what follows
the literal. -/
def quotedText? : List Char → Option (List Char × List Char)
  | [] => none
  | '\'' :: '\'' :: rest =>
      (quotedText? rest).map fun found => ('\'' :: found.1, found.2)
  | '\'' :: rest => some ([], rest)
  | char :: rest =>
      (quotedText? rest).map fun found => (char :: found.1, found.2)

/-- The text of the literal at the front, and what follows the literal. -/
def literalAt? : List Char → Option (List Char × List Char)
  | 'N' :: '\'' :: rest => quotedText? rest
  | _ => none

theorem quotedText?_doubled
    {after : List Char} (single : after.head? ≠ some '\'')
    (text : List Char) :
    quotedText? (doubled text ++ '\'' :: after) = some (text, after) := by
  induction text with
  | nil =>
      have noPair (rest : List Char) : after ≠ '\'' :: rest := by
        rintro rfl
        exact single rfl
      show quotedText? ('\'' :: after) = _
      rw [quotedText?.eq_3 after noPair]
  | cons char more ih =>
      rw [doubled_cons]
      split
      · next apostrophe =>
          show quotedText? ('\'' :: '\'' :: (doubled more ++ '\'' :: after)) = _
          rw [quotedText?, ih, apostrophe]
          rfl
      · next other =>
          show quotedText? (char :: (doubled more ++ '\'' :: after)) = _
          rw [quotedText?, ih]
          · rfl
          · exact fun _ quote _ => other quote
          · exact fun quote => other quote

theorem eq_of_quotedText?
    {source text after : List Char}
    (found : quotedText? source = some (text, after)) :
    source = doubled text ++ '\'' :: after ∧ after.head? ≠ some '\'' := by
  fun_induction quotedText? source generalizing text with
  | case1 => cases found
  | case2 rest ih =>
      obtain ⟨⟨inner, last⟩, read, same⟩ := Option.map_eq_some_iff.mp found
      cases same
      obtain ⟨rfl, single⟩ := ih read
      exact ⟨rfl, single⟩
  | case3 rest noPair =>
      cases found
      refine ⟨rfl, fun second => ?_⟩
      obtain ⟨more, rfl⟩ := List.head?_eq_some_iff.mp second
      exact noPair more rfl
  | case4 char rest noPair noQuote ih =>
      obtain ⟨⟨inner, last⟩, read, same⟩ := Option.map_eq_some_iff.mp found
      cases same
      obtain ⟨rfl, single⟩ := ih read
      rw [doubled_cons, if_neg noQuote]
      exact ⟨rfl, single⟩

theorem quotedText?_eq_some_iff
    {source text after : List Char} :
    quotedText? source = some (text, after) ↔
      source = doubled text ++ '\'' :: after ∧ after.head? ≠ some '\'' := by
  constructor
  · exact eq_of_quotedText?
  · rintro ⟨rfl, single⟩
    exact quotedText?_doubled single text

theorem literalAt?_eq_some_iff
    {source text after : List Char} :
    literalAt? source = some (text, after) ↔
      source = literal text ++ after ∧ after.head? ≠ some '\'' := by
  unfold literalAt?
  split
  · rw [quotedText?_eq_some_iff]
    simp [literal]
  · next noLiteral =>
      constructor
      · rintro ⟨⟩
      · rintro ⟨rfl, -⟩
        exact absurd rfl (noLiteral _)

theorem length_of_literalAt?
    {source text after : List Char}
    (found : literalAt? source = some (text, after)) :
    after.length < source.length := by
  obtain ⟨rfl, -⟩ := literalAt?_eq_some_iff.mp found
  simp [literal]
  omega

/-- The texts of some literals with a comma between any two of them, if that is
what a text is as a whole. -/
def literals? (source : List Char) : Option (List (List Char)) :=
  match _ : literalAt? source with
  | some (text, []) => some [text]
  | some (text, ',' :: rest) => (literals? rest).map (text :: ·)
  | _ => none
termination_by source.length
decreasing_by
  have shorter := length_of_literalAt? ‹_›
  rw [List.length_cons] at shorter
  omega

theorem literalAt?_literal
    {after : List Char} (single : after.head? ≠ some '\'')
    (text : List Char) :
    literalAt? (literal text ++ after) = some (text, after) :=
  literalAt?_eq_some_iff.mpr ⟨rfl, single⟩

theorem joined_cons
    {text : List Char} {rest : List (List Char)} (more : rest ≠ []) :
    Locale.joined (text :: rest) = text ++ ',' :: Locale.joined rest := by
  cases rest with
  | nil => exact absurd rfl more
  | cons other others => rfl

/-- Literals with commas between them are read back. -/
theorem literals?_joined
    {texts : List (List Char)} (some : texts ≠ []) :
    literals? (Locale.joined (texts.map literal)) = .some texts := by
  induction texts with
  | nil => exact absurd rfl some
  | cons text rest ih =>
      cases rest with
      | nil =>
          have whole := @literalAt?_literal [] (by simp) text
          rw [List.append_nil] at whole
          rw [List.map_singleton, Locale.joined, literals?]
          split <;> simp_all
      | cons other more =>
          have others := ih (List.cons_ne_nil other more)
          have front :=
            @literalAt?_literal
              (',' :: Locale.joined ((other :: more).map literal)) (by simp)
              text
          rw [List.map_cons, joined_cons (by simp), literals?]
          split <;> simp_all

/-- Only what is written as literals is read as literals, and in one way. -/
theorem literals?_eq_some_iff
    {source : List Char} {texts : List (List Char)} :
    literals? source = some texts ↔
      texts ≠ [] ∧ source = Locale.joined (texts.map literal) := by
  constructor
  · fun_induction literals? source generalizing texts with
    | case1 source text found =>
        rintro ⟨⟩
        obtain ⟨rfl, -⟩ := literalAt?_eq_some_iff.mp found
        exact ⟨List.cons_ne_nil _ _, List.append_nil _⟩
    | case2 source text rest found ih =>
        intro read
        obtain ⟨others, readOthers, rfl⟩ := Option.map_eq_some_iff.mp read
        obtain ⟨rfl, -⟩ := literalAt?_eq_some_iff.mp found
        obtain ⟨more, rfl⟩ := ih readOthers
        refine ⟨List.cons_ne_nil _ _, ?_⟩
        rw [List.map_cons, joined_cons (by simpa using more)]
    | case3 => nofun
  · rintro ⟨some, rfl⟩
    exact literals?_joined some

/-! ## What values are written as -/

/-- What a list says, literal by literal.  A list without members says that
there are none. -/
def listTexts (locale : Locale) (members : List Value) :
    List (List Char) :=
  if members.isEmpty then [emptyListSentinel.toList]
  else members.map locale.formatChars

/-- Whether a list that stands after some text is written as its members.  The
text is given from its end backwards. -/
def isInClause (inList : Bool) (written : List Char) : Bool :=
  inList || listPlace written != .elsewhere

/-- A text with the parentheses that are missing at its place. -/
def parenthesized (place : ListPlace) (text : List Char) : List Char :=
  match place with
  | .afterKeyword => '(' :: text ++ [')']
  | .elsewhere | .inParentheses => text

theorem listTexts_ne_nil
    (locale : Locale) (members : List Value) :
    listTexts locale members ≠ [] := by
  unfold listTexts
  split
  · exact List.cons_ne_nil _ _
  · next some => simpa using some

/-- A list that is not one of numbers is written as literals. -/
theorem enumerate_of_quoted
    (locale : Locale) {members : List Value}
    (quoted : Value.isNumericList (.list members) = false) :
    enumerate locale.formatChars true (.list members) =
      Locale.joined ((listTexts locale members).map literal) := by
  rw [enumerate, if_neg (by simp [quoted]), listTexts]
  split
  · rfl
  · rw [List.map_map]
    rfl

/-- Any other value that is not a number is written as one literal. -/
theorem expression_of_quoted
    (locale : Locale) {inClause : Bool} {value : Value}
    (present : value.isNull = false) (notNumber : value.isNumber = false)
    (whole : inClause = true → value.list? = none) :
    expression locale inClause value = literal (locale.formatChars value) := by
  cases value with
  | null => cases present
  | int _ | float _ => cases notNumber
  | list members =>
      have outside : inClause = false := by
        rw [← Bool.not_eq_true]
        exact fun inside => Option.some_ne_none _ (whole inside)
      rw [expression, outside]
      rfl
  | _ => rfl

theorem replacement_of_bound
    (locale : Locale) {values : String → Option Value} {name : String}
    {value : Value} (bound : values name = some value) (inList : Bool)
    (written : List Char) :
    replacement locale values inList name written =
      parenthesized (listPlace written)
        (expression locale (isInClause inList written) value) := by
  rw [replacement, bound, isInClause]
  cases listPlace written <;> cases inList <;> rfl

/-- A list that takes the place of a placeholder in an `in` condition. -/
theorem render_of_list
    {setting : Setting} {content name : String} {members : List Value}
    (bound : setting.parameters.get? name = some (.list members))
    (whole : Placeholder.read? setting.style content.toList =
      some ⟨name, false⟩) :
    (setting.render .isIn content).text.toList =
      enumerate setting.locale.formatChars true (.list members) := by
  have visible := Dated.allBlank_of_read? whole
  rw [Setting.render, if_neg (by simp [visible]), whole]
  dsimp only
  rw [bound]
  exact String.toList_ofList

/-- Literals say what the value says that they are written for, whatever texts
there are in it.  A list says its members, one after the other, both within an
`in` clause and in an `in` condition, and one without members says so; any other
value that is not a number is one literal. -/
theorem quoted_values_read_back
    {setting : Setting} {name : String} {value : Value}
    (bound : setting.parameters.get? name = some value) :
    (∀ members, value = .list members → value.isNumericList = false →
      (∀ inList written, isInClause inList written = true →
        ∃ body,
          replacement setting.locale setting.parameters.get? inList name
              written =
            parenthesized (listPlace written) body ∧
          literals? body = some (listTexts setting.locale members)) ∧
      ∀ content : String,
        Placeholder.read? setting.style content.toList =
            some ⟨name, false⟩ →
          literals? (setting.render .isIn content).text.toList =
            some (listTexts setting.locale members)) ∧
    (value.isNull = false → value.isNumber = false →
      ∀ inList written,
        (isInClause inList written = true → value.list? = none) →
        ∃ body,
          replacement setting.locale setting.parameters.get? inList name
              written =
            parenthesized (listPlace written) body ∧
          literals? body = some [setting.locale.formatChars value]) := by
  constructor
  · rintro members rfl quoted
    have body := enumerate_of_quoted setting.locale quoted
    have read :=
      literals?_eq_some_iff.mpr ⟨listTexts_ne_nil setting.locale members, rfl⟩
    constructor
    · intro inList written inside
      refine ⟨_, replacement_of_bound setting.locale bound inList written, ?_⟩
      rw [inside, expression, if_pos rfl, body, read]
    · intro content whole
      rw [render_of_list bound whole, body, read]
  · intro present notNumber inList written whole
    refine ⟨_, replacement_of_bound setting.locale bound inList written, ?_⟩
    rw [expression_of_quoted setting.locale present notNumber whole]
    exact literals?_eq_some_iff.mpr ⟨List.cons_ne_nil _ [], rfl⟩

/-- A list of texts that look like the ends of literals. -/
def misleadingTexts : Value :=
  .list [.text "it's", .text "x',N'y", .null]

/-- The list under a name. -/
def misleading : Setting :=
  ⟨Document.english, .named, Fields.empty.insert "p" misleadingTexts⟩

theorem quoted_values_read_back_of_misleading :
    misleading.parameters.get? "p" = some misleadingTexts ∧
      misleadingTexts.isNumericList = false ∧
      misleadingTexts.isNull = false ∧ misleadingTexts.isNumber = false ∧
      (∃ body,
        replacement misleading.locale misleading.parameters.get? false "p"
            "where id in ".toList.reverse =
          '(' :: body ++ [')'] ∧
        literals? body =
          some ["it's".toList, "x',N'y".toList, "".toList]) ∧
      literals? (misleading.render .isIn "@p").text.toList =
        some ["it's".toList, "x',N'y".toList, "".toList] ∧
      ∃ body,
        replacement misleading.locale misleading.parameters.get? false "p"
            "where id = ".toList.reverse =
          body ∧
        literals? body = some ["it's,x',N'y,".toList] := by
  have bound : misleading.parameters.get? "p" = some misleadingTexts := rfl
  obtain ⟨asList, asText⟩ := quoted_values_read_back bound
  obtain ⟨inClause, inCondition⟩ := asList _ rfl (by decide)
  exact
    ⟨bound, by decide, rfl, rfl,
      inClause false "where id in ".toList.reverse (by decide),
      inCondition "@p" (by decide),
      asText rfl rfl false "where id = ".toList.reverse (by decide)⟩

end AmlExchange.Template.Sql
