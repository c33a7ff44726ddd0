import AmlExchange.Proofs.Sql.InClauses

/-!
# Parentheses in `in` conditions

The parentheses of a text that stand in code are counted along its regions.  A
value adds none, or a pair, so filling a template keeps its parentheses
balanced, unless two minus signs are joined (`balanced_replace_iff`).  From the
text of an `in` condition that begins with a parenthesis and a parameter, that
parenthesis is left out, and so are all at the end of the text.  What remains
is balanced only if they are one pair around the whole
(`balanced_rendered_iff`).
-/

namespace AmlExchange.Template

namespace Sql

open Place (within plainStep)

/-! ## Depth -/

/-- The depth of parentheses after one more character of a region.  Only those
in code count, and there is none after one that closes what was not opened. -/
def nest (region : Region) (char : Char) (depth : Nat) : Option Nat :=
  if region = .code ∧ char = '(' then some (depth + 1)
  else if region = .code ∧ char = ')' then
    if depth = 0 then none else some (depth - 1)
  else some depth

/-- The depth of parentheses after some characters, each with its region. -/
def depthAfter (depth : Nat) : List (Region × Char) → Option Nat
  | [] => some depth
  | (region, char) :: rest =>
      (nest region char depth).bind fun depth => depthAfter depth rest

/-- Whether the parentheses in the code of a text are balanced and properly
nested. -/
def Balanced (text : List Char) : Prop :=
  depthAfter 0 ((regions .code text).zip text) = some 0

instance (text : List Char) : Decidable (Balanced text) :=
  inferInstanceAs (Decidable (_ = _))

/-- The depth of parentheses after a text that is read from a place on. -/
def Place.depth (place : Place) (depth : Nat) (text : List Char) :
    Option Nat :=
  depthAfter depth ((place.trace text).zip text)

theorem balanced_iff
    {text : List Char} :
    Balanced text ↔ (within .code).depth 0 text = some 0 := by
  rw [Balanced, Place.depth,
    ← (regions_eq_trace (Place.apart_within .code text)).1]
  rfl

namespace Place

theorem depth_cons
    (place : Place) (depth : Nat) (char : Char) (rest : List Char) :
    place.depth depth (char :: rest) =
      (nest place.region char depth).bind fun depth =>
        (place.step char).depth depth rest :=
  rfl

theorem depth_append
    (place : Place) (depth : Nat) (text more : List Char) :
    place.depth depth (text ++ more) =
      (place.depth depth text).bind fun depth =>
        (place.run text).depth depth more := by
  induction text generalizing place depth with
  | nil => rfl
  | cons char rest ih =>
      rw [List.cons_append, depth_cons, depth_cons, run_cons,
        Option.bind_assoc]
      exact congrArg _ (funext fun depth => ih _ depth)

/-- A text without parentheses. -/
theorem depth_of_plain
    {text : List Char} (plain : ∀ char ∈ text, char ≠ '(' ∧ char ≠ ')')
    (place : Place) (depth : Nat) :
    place.depth depth text = some depth := by
  induction text generalizing place with
  | nil => rfl
  | cons char rest ih =>
      rw [List.forall_mem_cons] at plain
      rw [depth_cons, nest, if_neg (fun opened => plain.1.1 opened.2),
        if_neg (fun closed => plain.1.2 closed.2)]
      exact ih plain.2 _

theorem nest_add
    {region : Region} {char : Char} {depth after : Nat}
    (reached : nest region char depth = some after) (more : Nat) :
    nest region char (depth + more) = some (after + more) := by
  unfold nest at reached ⊢
  split_ifs at reached ⊢ with opened closed none positive
  · cases reached
    rw [Nat.add_right_comm]
  · omega
  · cases reached
    rw [Nat.sub_add_comm (by omega)]
  · cases reached
    rfl

/-- Within more parentheses a text nests as it does by itself. -/
theorem depth_add
    {place : Place} {depth after : Nat} {text : List Char}
    (reached : place.depth depth text = some after) (more : Nat) :
    place.depth (depth + more) text = some (after + more) := by
  induction text generalizing place depth with
  | nil =>
      cases reached
      rfl
  | cons char rest ih =>
      rw [depth_cons] at reached ⊢
      obtain ⟨middle, first, others⟩ := Option.bind_eq_some_iff.mp reached
      rw [nest_add first]
      exact ih others

end Place

/-! ## Values -/

/-- A text that is sealed, and whose parentheses in code are balanced. -/
structure Level (text : List Char) : Prop extends Sealed text where
  depth : ∀ depth, (within .code).depth depth text = some depth

namespace Level

theorem of_sealed
    {text : List Char} (closed : Sealed text)
    (depth : (within .code).depth 0 text = some 0) :
    Level text := by
  refine ⟨closed, fun more => ?_⟩
  have further := Place.depth_add depth more
  rwa [Nat.zero_add] at further

theorem of_plain
    {text : List Char} (closed : Sealed text)
    (plain : ∀ char ∈ text, char ≠ '(' ∧ char ≠ ')') :
    Level text :=
  ⟨closed, Place.depth_of_plain plain _⟩

theorem append
    {first second : List Char} (before : Level first) (after : Level second) :
    Level (first ++ second) := by
  refine ⟨before.toSealed.append after.toSealed, fun depth => ?_⟩
  rw [Place.depth_append, before.depth, before.closes]
  exact after.depth depth

theorem joined
    {texts : List (List Char)} (some : texts ≠ [])
    (each : ∀ text ∈ texts, Level text) :
    Level (Locale.joined texts) := by
  induction texts with
  | nil => exact absurd rfl some
  | cons text rest ih =>
      rw [List.forall_mem_cons] at each
      cases rest with
      | nil => exact each.1
      | cons other more =>
          have comma : Level [','] :=
            of_plain (.singleton (by decide))
              (List.forall_mem_singleton.mpr (by decide))
          rw [joined_cons (by simp), ← List.singleton_append]
          exact each.1.append (comma.append (ih (by simp) each.2))

end Level

theorem depth_doubled
    (depth : Nat) (text : List Char) :
    (within (.quoted '\'')).depth depth (doubled text) = some depth := by
  induction text with
  | nil => rfl
  | cons char rest ih =>
      rw [doubled_cons, Place.depth_append]
      split
      · exact ih
      · next other =>
          rw [Place.depth_cons, Place.run_cons, Place.step_within, plainStep,
            if_neg other]
          exact ih

theorem level_literal
    (text : List Char) :
    Level (literal text) := by
  apply Level.of_sealed (sealed_literal text)
  show (within (.quoted '\'')).depth 0 (doubled text ++ ['\'']) = _
  rw [Place.depth_append, depth_doubled, run_doubled_of_quoted]
  rfl

theorem level_formatChars
    (locale : Locale) {value : Value} (number : value.isNumber = true) :
    Level (locale.formatChars value) := by
  apply Level.of_plain (sealed_formatChars locale number)
  apply forall_mem_formatChars
  · decide
  · exact List.all_iff_forall_prop.mp (by decide)
  · exact number

theorem level_clauseBody
    (locale : Locale) (members : List Value) :
    Level (clauseBody locale members) := by
  rw [clauseBody]
  split
  · next numeric =>
      rw [Value.isNumericList, Bool.and_eq_true, List.all_eq_true] at numeric
      apply Level.joined
      · simpa using numeric.1
      · rw [List.forall_mem_map]
        exact fun value member =>
          level_formatChars locale (numeric.2 value member)
  · apply Level.joined
    · simpa using listTexts_ne_nil locale members
    · rw [List.forall_mem_map]
      exact fun text _ => level_literal text

theorem level_expression
    (locale : Locale) (inClause : Bool) (value : Value) :
    Level (expression locale inClause value) := by
  have closed := sealed_expression locale inClause value
  cases value with
  | null =>
      have plain : ∀ char ∈ "null".toList, char ≠ '(' ∧ char ≠ ')' :=
        List.all_iff_forall_prop.mp (by decide)
      exact .of_plain closed plain
  | int _ | float _ => exact level_formatChars locale rfl
  | list members =>
      cases inClause with
      | true =>
          rw [expression, if_pos rfl, enumerate_eq_clauseBody]
          exact level_clauseBody ..
      | false => exact level_literal _
  | _ => exact level_literal _

/-- What stands in for a parameter adds no parentheses, or a pair. -/
theorem level_replacement
    (locale : Locale) {values : String → Option Value} {name : String}
    {value : Value} (bound : values name = some value) (inList : Bool)
    (written : List Char) :
    Level (replacement locale values inList name written) := by
  have inside (inClause : Bool) := level_expression locale inClause value
  rw [replacement_of_bound locale bound]
  cases listPlace written with
  | elsewhere | inParentheses => exact inside _
  | afterKeyword =>
      apply Level.of_sealed
      · exact
          ((Sealed.singleton (by decide)).append (inside _).toSealed).append
            (.singleton (by decide))
      · show (within .code).depth 1 (_ ++ [')']) = _
        rw [Place.depth_append, (inside _).depth, (inside _).closes]
        rfl

/-- In code the character held before a value does not count, if the two make
no mark. -/
theorem Level.depth_code
    {text : List Char} (level : Level text) {held : Option Char}
    (single : held = some '-' → text.head? ≠ some '-') (depth : Nat) :
    (⟨.code, held⟩ : Place).depth depth text = some depth := by
  have inCode := level.depth depth
  obtain ⟨first, rest, rfl, noStar⟩ := level.begins
  have apart : Place.step ⟨.code, held⟩ first = (within .code).step first :=
    step_code noStar fun minus same => single minus (congrArg some same)
  rw [Place.depth_cons, apart]
  exact inCode

/-! ## Filling -/

theorem not_parenthesis_of_isParameterChar
    {char : Char} (letter : isParameterChar char = true) :
    char ≠ '(' ∧ char ≠ ')' := by
  constructor
  all_goals
    rintro rfl
    exact absurd letter (by decide)

theorem depth_parameter
    {name : List Char} (letters : ∀ char ∈ name, isParameterChar char = true)
    (place : Place) (depth : Nat) :
    place.depth depth ('@' :: name) = some depth := by
  apply Place.depth_of_plain
  rw [List.forall_mem_cons]
  exact ⟨by decide, fun char member =>
    not_parenthesis_of_isParameterChar (letters char member)⟩

section

variable {locale : Locale} {values : String → Option Value} {inList : Bool}

/-- From one place on, a filled template has the depth of the template. -/
theorem depth_outcome
    {region : Region} {held : Option Char} {text : List Char}
    (apart : (⟨region, held⟩ : Place).Apart text)
    {minus : Bool} {written : List Char}
    (follows : Follows ⟨region, held⟩ minus written)
    (separate :
      joinsMinus locale values inList minus (pieces region text) = false)
    (depth : Nat) :
    (⟨region, held⟩ : Place).depth depth
        ((segments locale values inList (pieces region text) written).flatMap
          Segment.outcome) =
      (⟨region, held⟩ : Place).depth depth text := by
  fun_induction pieces region text
    generalizing held minus written depth with
  | case1 => rfl
  | case2 region char rest ih =>
      have sound := sound_next region char rest
      rw [← source_next region char rest, Place.depth_append]
      cases piece : (next region char rest).1 with
      | copied part =>
          rw [piece] at separate
          obtain ⟨after, apartRest⟩ := run_copied apart piece
          rw [after] at apartRest
          rw [segments, List.flatMap_cons, Place.depth_append,
            Segment.outcome, Piece.source, after]
          exact congrArg _ <| funext fun depth =>
            ih apartRest (follows_copied follows.proper apart piece written)
              separate depth
      | parameter name =>
          obtain ⟨rfl, rfl, code⟩ := parameter_next piece
          rw [piece] at sound separate
          have named := run_parameter apart sound
          rw [code] at ih ⊢
          rw [joinsMinus, Bool.or_eq_false_iff] at separate
          have others (written : List Char) :=
            ih (Place.apart_within .code _) (follows_parameter written)
              separate.2 depth
          rw [segments, List.flatMap_cons, Place.depth_append, Piece.source,
            depth_parameter sound, named]
          cases bound : values (String.ofList name) with
          | none =>
              rw [Option.isSome_none, if_neg Bool.false_ne_true,
                Segment.outcome, depth_parameter sound, named]
              exact others _
          | some value =>
              -- What stands in ends in code as the name does, at the same depth.
              have single :=
                @head_replacement_ne_minus locale values inList _ _ _ follows
                  _ _ bound (by simpa [bound] using separate.1)
              have level :=
                level_replacement locale bound inList written
              rw [Option.isSome_some, if_pos rfl, Segment.outcome,
                level.depth_code single, run_sealed level.toSealed single]
              exact others _

/-- Where no minus signs are joined, the parentheses of a filled template are
balanced exactly if those of the template are. -/
theorem balanced_replace_iff
    {template : List Char}
    (separate :
      joinsMinus locale values inList false (pieces .code template) =
        false) :
    Balanced (replace locale values inList template) ↔ Balanced template := by
  rw [balanced_iff, balanced_iff, replace, fill_eq_outcome,
    List.reverse_nil, List.nil_append]
  exact Eq.congr_left
    (depth_outcome (Place.apart_within .code template) (follows_parameter [])
      separate 0)

end

/-! ## Blanks at the ends -/

theorem step_of_isBlank
    {char : Char} (blank : Text.isBlank char = true) :
    (within .code).step char = within .code := by
  have plain (mark : Char) (visible : Text.isBlank mark = false) :
      char ≠ mark := by
    rintro rfl
    rw [visible] at blank
    cases blank
  rw [Place.step_within, plainStep]
  simp [plain '-' (by decide), plain '/' (by decide), plain '\'' (by decide),
    plain '"' (by decide), plain '[' (by decide)]

theorem run_of_blank
    {text : List Char} (blank : ∀ char ∈ text, Text.isBlank char = true) :
    (within .code).run text = within .code := by
  induction text with
  | nil => rfl
  | cons char rest ih =>
      rw [List.forall_mem_cons] at blank
      rw [Place.run_cons, step_of_isBlank blank.1]
      exact ih blank.2

theorem depth_of_blank
    {text : List Char} (blank : ∀ char ∈ text, Text.isBlank char = true)
    (place : Place) (depth : Nat) :
    place.depth depth text = some depth := by
  apply Place.depth_of_plain
  intro char member
  constructor
  all_goals
    rintro rfl
    exact absurd (blank _ member) (by decide)

theorem balanced_trim_iff
    {text : List Char} :
    Balanced (Text.trim text) ↔ Balanced text := by
  have leading : ∀ char ∈ text.takeWhile Text.isBlank,
      Text.isBlank char = true :=
    fun char member => List.mem_takeWhile_imp member
  obtain ⟨trailing, parts, blank⟩ :=
    Text.exists_append_reverse_dropWhile Text.isBlank (Text.trimLeft text)
  have whole :
      text.takeWhile Text.isBlank ++ (Text.trim text ++ trailing) = text := by
    rw [Text.trim, Text.trimRight, ← parts]
    exact List.takeWhile_append_dropWhile
  have same :
      (within .code).depth 0 text =
        (within .code).depth 0 (Text.trim text) := by
    conv_lhs => rw [← whole]
    rw [Place.depth_append, depth_of_blank leading, run_of_blank leading,
      Option.bind_some, Place.depth_append]
    exact (Option.bind_congr fun depth _ => depth_of_blank blank _ depth).trans
      (Option.bind_fun_some _)
  rw [balanced_iff, balanced_iff, same]

/-! ## Parentheses at the end -/

theorem proper_regionAfter
    {region : Region} (proper : Proper region) (text : List Char) :
    Proper (regionAfter region text) := by
  fun_induction pieces region text with
  | case1 => rwa [regionAfter]
  | case2 region char rest ih =>
      rw [regionAfter]
      exact ih (proper_next proper char rest)

/-- A closing parenthesis outside of code stays outside. -/
theorem strayed_closing
    {place : Place} (strayed : Strayed place.region) :
    Strayed (place.step ')').region := by
  obtain ⟨region, held⟩ := place
  have single : Place.step ⟨region, held⟩ ')' = plainStep region ')' := by
    unfold Place.step
    split <;> simp_all
  rw [single]
  cases region with
  | code => exact absurd strayed id
  | quoted close =>
      rcases strayed with rfl | rfl | rfl
      · exact .inl rfl
      · exact .inr (.inl rfl)
      · exact .inr (.inr rfl)
  | lineComment | blockComment => exact trivial

theorem depth_closing_of_strayed
    {place : Place} (strayed : Strayed place.region) (depth count : Nat) :
    place.depth depth (List.replicate count ')') = some depth := by
  induction count generalizing place with
  | zero => rfl
  | succ count ih =>
      have outside : place.region ≠ .code := by
        intro inCode
        rw [inCode] at strayed
        exact strayed
      rw [List.replicate_succ, Place.depth_cons, nest,
        if_neg (fun opened => outside opened.1),
        if_neg (fun closed => outside closed.1)]
      exact ih (strayed_closing strayed)

/-- In code one parenthesis is closed by one. -/
theorem eq_one_of_closing
    {place : Place} (inCode : place.region = .code) {count : Nat}
    (closing : place.depth 1 (List.replicate count ')') = some 0) :
    count = 1 := by
  obtain ⟨region, held⟩ := place
  cases inCode
  match count, closing with
  | 0, closing => cases closing
  | 1, _ => rfl
  | count + 2, closing =>
      have stepped : Place.step ⟨.code, held⟩ ')' = within .code :=
        step_code (by decide) (fun _ => by decide)
      rw [List.replicate_succ, Place.depth_cons, stepped] at closing
      cases closing

/-- A balanced text between one parenthesis and some at the end is balanced
only if there is one at the end. -/
theorem eq_one_of_balanced
    {body : List Char} {count : Nat} (inner : Balanced body)
    (whole : Balanced ('(' :: body ++ List.replicate count ')')) :
    count = 1 := by
  rw [balanced_iff] at inner whole
  have opened : (within .code).depth 1 body = some 1 :=
    Place.depth_add inner 1
  rw [← List.singleton_append, List.append_assoc] at whole
  have closing :
      ((within .code).run body).depth 1 (List.replicate count ')') =
        some 0 := by
    have reached :
        (within .code).depth 1 (body ++ List.replicate count ')') = some 0 :=
      whole
    rwa [Place.depth_append, opened] at reached
  have proper := proper_regionAfter (.inl rfl) body
  rw [show regionAfter .code body = _ from
    (regions_eq_trace (Place.apart_within .code body)).2] at proper
  rcases proper with inCode | strayed
  · exact eq_one_of_closing inCode closing
  · rw [depth_closing_of_strayed strayed] at closing
    cases closing

end Sql

namespace Setting

open Sql

theorem listBody_of_plain
    {rest : List Char} (plain : rest.head? ≠ some '@') :
    listBody ('(' :: rest) = ('(' :: rest, false) := by
  unfold listBody
  split
  · next begins =>
      rw [(List.cons.inj begins).2] at plain
      exact absurd rfl plain
  · rfl

/-- From a text that begins with a parenthesis and a parameter, that one
parenthesis is left out and all at the end. -/
theorem listBody_of_parameter
    (more : List Char) :
    ∃ body count,
      listBody ('(' :: '@' :: more) = (body, true) ∧
        body.getLast? ≠ some ')' ∧
        '@' :: more = body ++ List.replicate count ')' := by
  have ends := Text.stops_dropWhile (· = ')') ('(' :: '@' :: more).reverse
  obtain ⟨closing, parts, each⟩ :=
    Text.exists_append_reverse_dropWhile (· = ')') ('(' :: '@' :: more)
  -- neither of the two characters at the beginning is left out at the end
  have first : '(' ∉ closing := fun member =>
    absurd (each '(' member) (by decide)
  have second : '@' ∉ closing := fun member =>
    absurd (each '@' member) (by decide)
  obtain ⟨inner, left, follows⟩ := List.cons_eq_append_iff.mp parts
    |>.resolve_left fun none => first (none.2 ▸ List.mem_cons_self)
  obtain ⟨others, rfl, final⟩ := List.cons_eq_append_iff.mp follows
    |>.resolve_left fun none => second (none.2 ▸ List.mem_cons_self)
  refine ⟨'@' :: others, closing.length, ?_, ?_, ?_⟩
  · rw [listBody, left]
    rfl
  · rw [List.reverse_eq_iff.mp left, List.head?_reverse,
      List.getLast?_cons_cons] at ends
    exact fun closes => absurd (ends ')' closes) (by decide)
  · have closes : closing = List.replicate closing.length ')' :=
      List.eq_replicate_of_mem fun char member =>
        of_decide_eq_true (each char member)
    rw [final, ← closes]
    rfl

/-- A text of an `in` condition that begins with a parenthesis is filled as
SQL. -/
theorem text_render_of_open
    (setting : Setting) {content : String} {rest : List Char}
    (opened : Text.trim content.toList = '(' :: rest) :
    (setting.render .isIn content).text.toList =
      setting.replaceSql (listBody ('(' :: rest)).2
        (listBody ('(' :: rest)).1 := by
  obtain ⟨trailing, parts, -⟩ :=
    Text.exists_append_reverse_dropWhile Text.isBlank
      (Text.trimLeft content.toList)
  have begins : Text.trimLeft content.toList = '(' :: (rest ++ trailing) := by
    rw [parts, ← List.cons_append, ← opened]
    rfl
  have visible : Text.allBlank content.toList = false := by
    rw [← Bool.not_eq_true, Text.allBlank, List.all_eq_true]
    intro blank
    rw [Text.trimLeft, List.dropWhile_eq_nil_iff.mpr blank] at begins
    cases begins
  have other : Placeholder.read? setting.style content.toList = none := by
    unfold Placeholder.read?
    split
    · next named =>
        rw [named] at begins
        cases begins
    · next numbered =>
        rw [numbered] at begins
        cases begins
    · rfl
  rw [render, visible, if_neg Bool.false_ne_true, other]
  simp only [renderContent, begins, List.head?_cons, if_true, opened,
    String.toList_ofList]

/-- The text of an `in` condition that begins with a parenthesis is filled as it
is, or, where a parameter follows the parenthesis, without it and all at the
end.  If the parentheses of the text are balanced, and no minus signs are
joined, those of the outcome are balanced exactly if nothing is left out, or
one pair around a text that is balanced by itself. -/
theorem balanced_rendered_iff
    (setting : Setting) {condition : Option String} {content : String}
    (isIn : Context.ofCondition condition = .isIn) {rest : List Char}
    (opened : Text.trim content.toList = '(' :: rest)
    (balanced : Balanced content.toList) {body : List Char} {inList : Bool}
    (left : listBody ('(' :: rest) = (body, inList)) :
    (setting.render (.ofCondition condition) content).text.toList =
        setting.replaceSql inList body ∧
      (rest.head? ≠ some '@' → body = '(' :: rest ∧ inList = false) ∧
      (rest.head? = some '@' →
        inList = true ∧ body.getLast? ≠ some ')' ∧
          ∃ count, rest = body ++ List.replicate count ')') ∧
      (joinsMinus setting.locale setting.parameters.get? inList false
          (pieces .code body) = false →
        (Balanced
            (setting.render (.ofCondition condition) content).text.toList ↔
          body = '(' :: rest ∨ rest = body ++ [')'] ∧ Balanced body)) := by
  have trimmed := balanced_trim_iff.mpr balanced
  have filled := text_render_of_open setting opened
  rw [opened] at trimmed
  rw [left] at filled
  rw [isIn, filled]
  refine ⟨rfl, ?_⟩
  by_cases named : rest.head? = some '@'
  · obtain ⟨more, rfl⟩ := List.head?_eq_some_iff.mp named
    obtain ⟨inner, count, begins, ends, parts⟩ := listBody_of_parameter more
    obtain ⟨rfl, rfl⟩ := Prod.mk.inj (left.symm.trans begins)
    refine ⟨fun plain => absurd rfl plain,
      fun _ => ⟨rfl, ends, count, parts⟩, fun separate => ?_⟩
    rw [replaceSql, balanced_replace_iff separate]
    constructor
    · intro inner
      rw [parts] at trimmed
      rw [eq_one_of_balanced inner trimmed] at parts
      exact .inr ⟨parts, inner⟩
    · rintro (same | ⟨-, inner⟩)
      · rwa [← same] at trimmed
      · exact inner
  · obtain ⟨rfl, rfl⟩ :=
      Prod.mk.inj (left.symm.trans (listBody_of_plain named))
    refine ⟨fun _ => ⟨rfl, rfl⟩, fun found => absurd found named,
      fun separate => ?_⟩
    rw [replaceSql, balanced_replace_iff separate]
    exact ⟨fun _ => .inl rfl, fun _ => trimmed⟩

theorem balanced_rendered_iff_of_misleading :
    Context.ofCondition (some "not in") = .isIn ∧
      Text.trim " (@p, ')')".toList = "(@p, ')')".toList ∧
      Balanced " (@p, ')')".toList ∧
      listBody "(@p, ')')".toList = ("@p, ')'".toList, true) ∧
      joinsMinus misleading.locale misleading.parameters.get? true false
          (pieces .code "@p, ')'".toList) = false ∧
      Balanced
        (misleading.render (.ofCondition (some "not in"))
          " (@p, ')')").text.toList := by
  have balanced : Balanced " (@p, ')')".toList := by decide +kernel
  have inner : Balanced "@p, ')'".toList := by decide +kernel
  have separate :
      joinsMinus misleading.locale misleading.parameters.get? true false
        (pieces .code "@p, ')'".toList) = false := by decide +kernel
  obtain ⟨-, -, -, kept⟩ :=
    @balanced_rendered_iff misleading (some "not in") " (@p, ')')"
      (by decide +kernel) "@p, ')')".toList (by decide +kernel) balanced
      "@p, ')'".toList true (by decide +kernel)
  exact ⟨by decide +kernel, by decide +kernel, balanced, by decide +kernel,
    separate, (kept separate).mpr (.inr ⟨by decide, inner⟩)⟩

/-- All the parentheses at the end are left out, also those of a pair that does
not enclose the text. -/
theorem parenthesis_of_call_lost :
    ¬ ∀ (setting : Setting) (condition : Option String) (content : String),
      Context.ofCondition condition = .isIn →
        (Text.trim content.toList).head? = some '(' →
          Balanced content.toList →
            Balanced
              (setting.render (.ofCondition condition)
                content).text.toList := by
  intro kept
  have balanced :=
    kept ⟨Document.english, .named, Fields.empty⟩ (some "in")
      "(@a, abs(7))" (by decide +kernel) (by decide +kernel)
      (by decide +kernel)
  exact absurd balanced (by decide +kernel)

end Setting

end AmlExchange.Template
