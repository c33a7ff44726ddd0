import AmlExchange.Proofs.Sql.Lexemes
import AmlExchange.Proofs.Sql.Parentheses
import AmlExchange.Proofs.Template.LateAttributes
import AmlExchange.Proofs.Template.Outcome
import AmlExchange.Proofs.Template.RangeScope

/-!
# The names that are looked up

Filling a template looks up the names that occur in it, in order: in attribute
values, texts and sections of unescaped text, and in flat SQL
(`lookups_of_fill`).  A content that is a placeholder as a whole is looked up
under its name.  If the placeholder has no value, and the content is read as
SQL, its parameters are looked up as well, so that the same name comes twice
there.  A text whose place a date range takes holds no name at all
(`lookups_differ_from_placeholders`).

What is left out around a list makes no difference: neither blanks nor
parentheses at the ends of a text are parameters, or change those within it.
-/

namespace AmlExchange

/-! ## Blank characters are no letters -/

namespace Text

/-- No interval of letters and digits reaches a blank character. -/
theorem alphanumericIntervals_apart :
    ∀ interval ∈ alphanumericIntervals.toList,
      0xA0 < interval.1 ∧ interval.2 < 0x1680 ∨
        0x1680 < interval.1 ∧ interval.2 < 0x2000 ∨
        0x205F < interval.1 ∧ interval.2 < 0x3000 ∨ 0x3000 < interval.1 := by
  decide +kernel

theorem not_isAlphanumeric_of_isBlank
    {char : Char} (blank : isBlank char = true) :
    isAlphanumeric char = false := by
  rw [isAlphanumeric]
  split
  · next small =>
      have ascii :
          ∀ point < 0x80, isBlank (Char.ofNat point) = true →
            (Char.ofNat point).isAlphanum = false := by
        decide
      have bare := ascii _ small
      rw [Char.ofNat_toNat] at bare
      exact bare blank
  · next large =>
      rw [liesIn, ← Array.any_toList, List.any_eq_false]
      intro interval member within
      have apart := alphanumericIntervals_apart interval member
      simp only [isBlank, Bool.or_eq_true, Bool.and_eq_true,
        decide_eq_true_eq, beq_iff_eq] at blank within
      omega

theorem head?_trim
    {text : List Char} {char : Char}
    (begins : (trimLeft text).head? = some char) :
    (trim text).head? = some char := by
  have visible := stops_dropWhile isBlank text char begins
  obtain ⟨trailing, parts, blank⟩ :=
    exists_append_reverse_dropWhile isBlank (trimLeft text)
  change trimLeft text = trim text ++ trailing at parts
  rw [parts, List.head?_append, Option.or_eq_some_iff] at begins
  rcases begins with within | ⟨-, behind⟩
  · exact within
  · rw [blank char (List.mem_of_head? behind)] at visible
    cases visible

end Text

namespace Template

open Markup (Event)
open Text (Position)

/-! ## Sites -/

/-- Where names may be looked up. -/
inductive Site where
  /-- An attribute value, a text or a section of unescaped text. -/
  | value (context : Context) (content : String)
  /-- A template of flat SQL. -/
  | flat (template : String)
  /-- A text whose place is taken by the date range of an element that has
  ended. -/
  | replaced (content : String)
deriving DecidableEq

/-- Whether a content is read as SQL. -/
def Context.scans (context : Context) (content : String) : Bool :=
  match context with
  | .sql => true
  | .isIn => (Text.trimLeft content.toList).head? == some '('
  | .idList | .like | .between | .plain => false

/-- The names of the parameters among some lexemes, in order. -/
def Sql.namesOf (lexemes : List Lexeme) : List String :=
  (parameters 0 lexemes).map fun token => String.ofList token.2

/-- The names that occur in a content: that of the placeholder which it is as a
whole, and, unless this one has a value, those of its parameters as SQL. -/
def Setting.occurrences (setting : Setting) (context : Context)
    (content : String) (parameters : List String) : List String :=
  let scanned := if context.scans content then parameters else []
  match Placeholder.read? setting.style content.toList with
  | some placeholder =>
      placeholder.name ::
        if setting.parameters.contains placeholder.name then [] else scanned
  | none => scanned

/-- Whether names are those that occur at a site.  Where a bracketed name of the
SQL holds an escaped bracket, and where a date range has outlived its element,
this says nothing. -/
def Setting.Finds (setting : Setting) (names : List String) : Site → Prop
  | .value context content =>
      ∀ lexemes, Sql.Reads true content.toList lexemes →
        (context.scans content = true → Sql.NoneEscapes lexemes) →
          names = setting.occurrences context content (Sql.namesOf lexemes)
  | .flat template =>
      ∀ lexemes, Sql.Reads true template.toList lexemes →
        Sql.NoneEscapes lexemes → names = Sql.namesOf lexemes
  | .replaced _ => True

namespace Walk

/-- The sites at an event, where the element begun last may have ended.  A text
in an element with a date range is none. -/
def sitesAt (walk : Walk) (ended : Bool) : Event → List Site
  | .start _ attributes _ =>
      attributes.map fun field =>
        .value (.ofName (Markup.localName field.1)) field.2
  | .text content =>
      match walk.range with
      | none => [.value (.ofCondition walk.condition) content]
      | some _ => if ended then [.replaced content] else []
  | .characterData content => [.value (.ofCondition walk.condition) content]
  | .finish _ | .comment _ => []

/-- The sites at some events, in order. -/
def sites (setting : Setting) (walk : Walk) (ended : Bool) :
    List Event → List Site
  | [] => []
  | event :: rest =>
      walk.sitesAt ended event ++
        sites setting (walk.after setting event) (endedAfter ended event) rest

end Walk

/-- The sites of a template, in order. -/
def Substitution.sites (substitution : Substitution) (locale : Locale)
    (template : String) : List Site :=
  if substitution.isAml template then
    Walk.sites (substitution.setting locale) .start false
      ((Markup.read .standard template).events.map Prod.fst)
  else [.flat template]

/-! ## Parameters within margins -/

namespace Sql

/-- Whether a character neither goes on a name nor makes up a mark with the
character before it, nor is an at sign. -/
def Quiet (char : Char) : Prop :=
  isParameterChar char = false ∧ char ∉ ['-', '*', '/', '@']

theorem quiet_of_isBlank
    {char : Char} (blank : Text.isBlank char = true) :
    Quiet char := by
  have visible :
      ∀ mark ∈ ['_', '-', '*', '/', '@'], Text.isBlank mark = false :=
    List.all_iff_forall_prop.mp (by decide)
  have other : char ∉ ['_', '-', '*', '/', '@'] := by
    intro mark
    rw [visible char mark] at blank
    cases blank
  rw [List.mem_cons, not_or] at other
  refine ⟨?_, other.2⟩
  rw [isParameterChar, Text.not_isAlphanumeric_of_isBlank blank,
    beq_eq_false_iff_ne.mpr other.1]
  rfl

/-- What comes after a text does not change the letters at its beginning, if it
goes on none of them. -/
theorem letters_append
    {after : List Char} (quiet : ∀ char ∈ after, Quiet char)
    (rest : List Char) :
    (rest ++ after).takeWhile isParameterChar =
        rest.takeWhile isParameterChar ∧
      (rest ++ after).dropWhile isParameterChar =
        rest.dropWhile isParameterChar ++ after := by
  have letters : ∀ char ∈ rest.takeWhile isParameterChar,
      isParameterChar char = true :=
    fun _ member => List.mem_takeWhile_imp member
  have ends :
      ∀ char ∈ (rest.dropWhile isParameterChar ++ after).head?,
        isParameterChar char = false := by
    intro char begins
    rw [List.head?_append, Option.mem_def, Option.or_eq_some_iff] at begins
    rcases begins with within | ⟨-, behind⟩
    · exact Text.stops_dropWhile isParameterChar rest char within
    · exact (quiet char (List.mem_of_head? behind)).1
  have whole :
      rest ++ after =
        rest.takeWhile isParameterChar ++
          (rest.dropWhile isParameterChar ++ after) := by
    rw [← List.append_assoc, List.takeWhile_append_dropWhile]
  rw [whole]
  exact
    ⟨Text.takeWhile_append_of_stops letters ends,
      Text.dropWhile_append_of_stops letters ends⟩

/-- What comes after a text does not change how its parts are read, if it goes
on none of them. -/
theorem next_append
    {after : List Char} (quiet : ∀ char ∈ after, Quiet char)
    (region : Region) (char : Char) (rest : List Char) :
    next region char (rest ++ after) =
      ((next region char rest).1, (next region char rest).2.1,
        (next region char rest).2.2 ++ after) := by
  by_cases parameter : region = .code ∧ char = '@'
  · obtain ⟨rfl, rfl⟩ := parameter
    obtain ⟨name, behind⟩ := letters_append quiet rest
    simp only [next, name, behind]
  -- Only the character after this one can tell how it is read.
  · cases rest with
    | nil =>
        cases after with
        | nil => simp
        | cons first more =>
            have := (quiet first List.mem_cons_self).2
            unfold next
            split <;> simp_all
    | cons first more =>
        rw [List.cons_append]
        unfold next
        split <;> simp_all

/-- Quiet characters at the end of a text have no parameters, and change none
before them. -/
theorem names_append_of_quiet
    {after : List Char} (quiet : ∀ char ∈ after, Quiet char)
    (region : Region) (text : List Char) :
    (pieces region (text ++ after)).filterMap Piece.name? =
      (pieces region text).filterMap Piece.name? := by
  fun_induction pieces region text with
  | case1 region =>
      have unsigned : '@' ∉ after :=
        fun sign => absurd (by decide) (quiet _ sign).2
      rw [List.nil_append, nameless_of_not_mem unsigned]
      rfl
  | case2 region char rest ih =>
      rw [List.cons_append, pieces_cons, next_append quiet,
        List.filterMap_cons, List.filterMap_cons, ih]

/-- Characters at the beginning of a text that begin nothing but themselves
have no parameters, and change none after them. -/
theorem names_append_of_plain
    {before : List Char} (plain : ∀ char ∈ before, char ∉ starts)
    (text : List Char) :
    names (before ++ text) = names text := by
  have copied : (copies before).filterMap Piece.name? = [] := by
    rw [List.filterMap_eq_nil_iff, copies, List.forall_mem_map]
    exact fun _ _ => rfl
  rw [names, Verbatim.of_plain plain, List.filterMap_append, copied,
    List.nil_append, names]

theorem names_trim
    (text : List Char) :
    names (Text.trim text) = names text := by
  have leading : ∀ char ∈ text.takeWhile Text.isBlank, char ∉ starts := by
    intro char member start
    have visible : ∀ mark ∈ starts, Text.isBlank mark = false :=
      List.all_iff_forall_prop.mp (by decide)
    have blank := List.mem_takeWhile_imp member
    rw [visible char start] at blank
    cases blank
  obtain ⟨trailing, parts, blank⟩ :=
    Text.exists_append_reverse_dropWhile Text.isBlank (Text.trimLeft text)
  calc names (Text.trim text)
      = names (Text.trim text ++ trailing) :=
        (names_append_of_quiet
          (fun char member => quiet_of_isBlank (blank char member)) ..).symm
    _ = names (Text.trimLeft text) := by
        rw [Text.trim, Text.trimRight, ← parts]
    _ = names (text.takeWhile Text.isBlank ++ Text.trimLeft text) :=
        (names_append_of_plain leading _).symm
    _ = names text := by rw [Text.trimLeft, List.takeWhile_append_dropWhile]

/-- The parentheses around a list have no part in its parameters. -/
theorem names_listBody
    (rest : List Char) :
    names (Setting.listBody ('(' :: rest)).1 = names ('(' :: rest) := by
  by_cases named : rest.head? = some '@'
  · obtain ⟨more, rfl⟩ := List.head?_eq_some_iff.mp named
    obtain ⟨body, count, left, -, parts⟩ :=
      Setting.listBody_of_parameter more
    have opening : ∀ char ∈ ['('], char ∉ starts :=
      List.all_iff_forall_prop.mp (by decide)
    have closing : ∀ char ∈ List.replicate count ')', Quiet char := by
      intro char member
      rw [List.eq_of_mem_replicate member]
      exact ⟨by decide, by decide⟩
    calc names (Setting.listBody ('(' :: '@' :: more)).1
        = names body := by rw [left]
      _ = names (body ++ List.replicate count ')') :=
          (names_append_of_quiet closing ..).symm
      _ = names ('@' :: more) := by rw [parts]
      _ = names ('(' :: '@' :: more) :=
          (names_append_of_plain opening _).symm
  · rw [Setting.listBody_of_plain named]

end Sql

/-! ## What is looked up at a site -/

namespace Setting

variable (setting : Setting) (context : Context) (content : String)

/-- Names are looked up in the whole of a content that is read as SQL. -/
theorem names_renderContent :
    (setting.renderContent context content.toList).2 =
      if context.scans content then Sql.names content.toList else [] := by
  cases context with
  | sql => rfl
  | isIn =>
      rw [renderContent, Context.scans]
      simp only [beq_iff_eq]
      split
      · next opened =>
          obtain ⟨rest, begins⟩ :=
            List.head?_eq_some_iff.mp (Text.head?_trim opened)
          rw [begins]
          dsimp only
          rw [Sql.names_listBody, ← begins, Sql.names_trim]
      · rfl
  | idList | like | between | plain => rfl

theorem occurrences_of_inert
    {content : String} (inert : Inert content.toList) :
    setting.occurrences context content (Sql.names content.toList) = [] := by
  rw [occurrences, read?_of_inert inert, names_of_inert inert]
  exact ite_self []

/-- The names that are looked up in a content are those that occur in it. -/
theorem lookups_render :
    (setting.render context content).lookups =
      setting.occurrences context content (Sql.names content.toList) := by
  rw [render]
  split
  · next blank =>
      exact (setting.occurrences_of_inert context
        (Substitution.inert_of_blank blank)).symm
  · rw [occurrences, ← names_renderContent setting]
    cases found : Placeholder.read? setting.style content.toList with
    | none => rfl
    | some placeholder =>
        dsimp only
        rw [Fields.contains]
        cases setting.parameters.get? placeholder.name <;> rfl

/-- The names that are looked up at a site. -/
def namesAt : Site → List String
  | .value context content => (setting.render context content).lookups
  | .flat template => Sql.names template.toList
  | .replaced _ => []

/-- At every site the names that occur there are looked up. -/
theorem finds_namesAt
    (site : Site) :
    setting.Finds (setting.namesAt site) site := by
  have scanned {text : List Char} {lexemes : List Sql.Lexeme}
      (reads : Sql.Reads true text lexemes)
      (single : Sql.NoneEscapes lexemes) :
      Sql.names text = Sql.namesOf lexemes :=
    (Sql.scans_of_reads (reads.iff_noneEscapes.mpr single)).names
  cases site with
  | value context content =>
      intro lexemes reads single
      rw [namesAt, lookups_render, occurrences, occurrences]
      cases scans : context.scans content with
      | true => rw [scanned reads (single scans)]
      | false => rfl
  | flat template => exact fun lexemes reads single => scanned reads single
  | replaced content => trivial

end Setting

/-! ## What a walk looks up -/

/-- The name that an act looks up. -/
def Act.name? : Act → Option String
  | .lookUp name => some name
  | .write _ | .countItem => none

/-- The names that some acts look up, in order. -/
def lookedUp (acts : List Act) : List String :=
  acts.filterMap Act.name?

@[simp]
theorem lookedUp_append
    (first second : List Act) :
    lookedUp (first ++ second) = lookedUp first ++ lookedUp second :=
  List.filterMap_append

@[simp]
theorem lookedUp_write_cons
    (instruction : Markup.Instruction) (acts : List Act) :
    lookedUp (.write instruction :: acts) = lookedUp acts :=
  rfl

@[simp]
theorem lookedUp_nil : lookedUp [] = [] :=
  rfl

@[simp]
theorem lookedUp_lookUps
    (names : List String) :
    lookedUp (Walk.lookUps names) = names := by
  induction names with
  | nil => rfl
  | cons name rest ih => exact congrArg _ ih

/-- Performing acts reports the names that they look up. -/
theorem Progress.lookups_of_performAll
    {progress final : Progress} {acts : List Act}
    (performed : progress.performAll acts = (final, .ok ())) :
    final.lookups.reverse = progress.lookups.reverse ++ lookedUp acts := by
  induction acts generalizing progress with
  | nil =>
      cases performed
      simp
  | cons act rest ih =>
      rw [performAll] at performed
      split at performed
      · cases performed
      · next next done =>
          rw [ih performed]
          cases act with
          | write instruction =>
              rw [perform] at done
              cases written : progress.writer.perform instruction with
              | error fault =>
                  rw [written] at done
                  cases done
              | ok writer =>
                  rw [written] at done
                  cases done
                  rfl
          | lookUp name =>
              cases done
              simp [lookedUp, Act.name?]
          | countItem =>
              cases done
              rfl

namespace Walk

variable {setting : Setting} {walk next : Walk}

theorem lookedUp_setAttributes
    (attributes : List (String × String)) :
    lookedUp
        (attributes.map fun field =>
          .write (.setAttribute field.1 field.2)) =
      [] := by
  rw [lookedUp, List.filterMap_eq_nil_iff, List.forall_mem_map]
  exact fun _ _ => rfl

theorem lookedUp_enter
    (walk : Walk) (name : String) (source rendered : List (String × String))
    (empty : Bool) :
    lookedUp (walk.enter name source rendered empty).1 = [] := by
  have counting (counted : Prop) [Decidable counted] :
      lookedUp (if counted then [.countItem] else []) = [] := by
    split <;> rfl
  rw [enter]
  cases empty <;> simp [lookedUp_setAttributes, counting]

theorem lookedUp_rangeAttributes
    (written : List String) (value : Option Value) :
    lookedUp (rangeAttributes written value) = [] := by
  rw [lookedUp, List.filterMap_eq_nil_iff]
  intro act member
  obtain ⟨name, text, rfl, -⟩ := mem_rangeAttributes member
  rfl

theorem lookedUp_insertText
    (walk : Walk) (content : String) :
    lookedUp (insertText setting walk content) =
      (walk.inserted setting content).lookups := by
  have written (raw : Bool) (text : String) :
      lookedUp [.write (if raw then .raw text else .text text)] = [] :=
    rfl
  rw [insertText]
  simp only [lookedUp_append, lookedUp_lookUps, lookedUp_rangeAttributes,
    written, List.append_nil]
  rfl

/-- Attributes that are rendered to the end are all looked at. -/
theorem lookups_renderAttributes
    {place : Position} {attributes rendered : List (String × String)}
    (done : (renderAttributes setting place attributes).2 = .ok rendered) :
    (renderAttributes setting place attributes).1 =
      attributes.flatMap fun field =>
        (setting.render (.ofName (Markup.localName field.1))
          field.2).lookups := by
  induction attributes generalizing rendered with
  | nil => rfl
  | cons field rest ih =>
      rw [renderAttributes] at done ⊢
      split at done
      · cases done
      · next escaped =>
          rw [if_neg escaped, List.flatMap_cons]
          cases others : (renderAttributes setting place rest).2 with
          | error fault =>
              simp only [others, Except.map] at done
              cases done
          | ok fields =>
              exact congrArg _ (ih others)

theorem inert_formatRange
    (locale : Locale) (range : DateRange.Dynamic) :
    Inert (locale.format (.dynamicRange range)).toList := by
  rw [Locale.format, String.toList_ofList, Locale.formatChars]
  exact inert_formatDynamic _ _

theorem lookups_inserted_of_inert
    (setting : Setting) (walk : Walk) {content : String}
    (inert : Inert content.toList) :
    (walk.inserted setting content).lookups = [] := by
  rw [inserted, Setting.lookups_render]
  apply Setting.occurrences_of_inert
  cases walk.range with
  | none => exact inert
  | some range => exact inert_formatRange setting.locale range

/-- At a text names are looked up unless a date range takes its place. -/
theorem lookups_inserted
    (setting : Setting) (walk : Walk) (ended : Bool) (content : String) :
    (walk.inserted setting content).lookups =
      (walk.sitesAt ended (.text content)).flatMap setting.namesAt := by
  rw [inserted, sitesAt]
  cases ranged : walk.range with
  | none => simp [Setting.namesAt]
  | some range =>
      dsimp only
      have inert := inert_formatRange setting.locale range
      rw [Setting.lookups_render, Setting.occurrences_of_inert _ _ inert]
      cases ended <;> rfl

/-- What a step looks up is what is looked up at the sites of its event. -/
theorem lookedUp_step
    {event : Event} {place : Position}
    (reached : (step setting walk event place).2 = .ok next)
    (ended : Bool) :
    lookedUp (step setting walk event place).1 =
      (walk.sitesAt ended event).flatMap setting.namesAt := by
  cases event with
  | start name attributes empty =>
      cases outcome : renderAttributes setting place attributes with
      | mk names result =>
          cases result with
          | error fault =>
              simp only [step, outcome] at reached
              cases reached
          | ok rendered =>
              have looked :=
                lookups_renderAttributes (congrArg Prod.snd outcome)
              rw [outcome] at looked
              simp only [step, outcome, sitesAt, List.cons_append,
                lookedUp_write_cons, lookedUp_append, lookedUp_lookUps,
                lookedUp_enter, List.append_nil, looked, List.flatMap_map]
              rfl
  | finish name | comment content => rfl
  | text content =>
      rw [step]
      split
      · next spaced =>
          rw [← lookups_inserted setting walk ended,
            lookups_inserted_of_inert setting walk
              (Substitution.inert_of_blank (Dated.allBlank_of_isSpaced spaced))]
          cases walk.preserving <;> rfl
      · rw [lookedUp_insertText, lookups_inserted setting walk ended]
  | characterData content =>
      simp only [step] at reached ⊢
      split at reached
      · cases reached
      · next escaped =>
          rw [if_neg escaped]
          simp [sitesAt, Setting.namesAt]

/-- What a script looks up is what is looked up at the sites of its events. -/
theorem lookedUp_script
    {events : List (Event × Position)} {last : Walk}
    (reached : (script setting walk events).2 = .ok last) (ended : Bool) :
    lookedUp (script setting walk events).1 =
      (sites setting walk ended (events.map Prod.fst)).flatMap
        setting.namesAt := by
  induction events generalizing walk ended with
  | nil => rfl
  | cons pair rest ih =>
      obtain ⟨event, place⟩ := pair
      obtain ⟨next, passed, onward, acts⟩ := exists_next reached
      rw [acts, lookedUp_append, lookedUp_step passed ended, ih onward,
        next_eq_after passed, List.map_cons, sites, List.flatMap_append]

end Walk

/-! ## Whole templates -/

namespace Substitution

/-- Filling an AML template reports what its walk looks up. -/
theorem lookups_of_fillAml
    {setting : Setting} {room : Option Nat} {template : String}
    (filled : (fillAml setting room template).2 = .ok ()) :
    (fillAml setting room template).1.lookups.reverse =
      lookedUp
        (Walk.script setting .start
          (Markup.read .standard template).events).1 := by
  simp only [fillAml] at filled ⊢
  split at filled
  · cases filled
  · next performed =>
      have reported := Progress.lookups_of_performAll performed
      split at filled
      · cases filled
      · cases filled
      · split at filled
        · cases filled
        · exact reported

theorem lookups_writeOnce
    (room : Option Nat) (output : String) (names : List String) :
    (writeOnce room output names).lookups = names := by
  unfold writeOnce
  split <;> rfl

/-- When a template is filled, the names that occur at its sites are looked up,
site by site and in order. -/
theorem lookups_of_fill
    {substitution : Substitution} (listening : substitution.listening = true)
    {locale : Locale} {room : Option Nat} {template : String}
    (filled : (substitution.fill locale room template).2.result = .ok ()) :
    ∃ found : Site → List String,
      (∀ site, (substitution.setting locale).Finds (found site) site) ∧
        (substitution.fill locale room template).2.lookups =
          (substitution.sites locale template).flatMap found := by
  refine ⟨_, (substitution.setting locale).finds_namesAt, ?_⟩
  cases aml : substitution.isAml template with
  | true =>
      obtain ⟨result, -⟩ := fill_of_isAml aml locale room
      have done := result.symm.trans filled
      obtain ⟨-, last, walked⟩ := exists_last_of_fillAml done
      have tagged := aml
      simp only [isAml, Bool.and_eq_true, beq_iff_eq] at tagged
      rw [fill, if_neg (by simp [allBlank_eq_false tagged.1]), if_pos aml]
      dsimp only
      rw [if_pos listening, lookups_of_fillAml done,
        Walk.lookedUp_script walked false, sites, if_pos aml]
  | false =>
      have single :
          (substitution.sites locale template).flatMap
              (substitution.setting locale).namesAt =
            Sql.names template.toList := by
        rw [sites, aml, if_neg Bool.false_ne_true, List.flatMap_singleton]
        rfl
      rw [single]
      rw [fill]
      dsimp only
      split
      · next blank =>
          rw [lookups_writeOnce, Setting.names_of_inert (inert_of_blank blank)]
      · rw [aml, if_neg Bool.false_ne_true]
        exact lookups_writeOnce ..

/-- A substitution without parameters that reports what it looks up. -/
def reporting : Substitution :=
  { new with listening := true }

theorem lookups_of_fill_of_sql :
    (reporting.fill inJune none "<sql a='@b'>@c</sql>").2.result = .ok () ∧
      ∃ found : Site → List String,
        found (.value .plain "@b") = ["b"] ∧
          found (.value .sql "@c") = ["c", "c"] ∧
          (reporting.fill inJune none "<sql a='@b'>@c</sql>").2.lookups =
            found (.value .plain "@b") ++ found (.value .sql "@c") := by
  have filled :
      (reporting.fill inJune none "<sql a='@b'>@c</sql>").2.result = .ok () :=
    eq_ok_of_toOption (by decide +kernel)
  have sites :
      reporting.sites inJune "<sql a='@b'>@c</sql>" =
        [.value .plain "@b", .value .sql "@c"] := by
    decide +kernel
  obtain ⟨found, finds, lookups⟩ := lookups_of_fill rfl filled
  have reads {name : List Char}
      (letters : ∀ char ∈ name, isParameterChar char = true) :
      Sql.Reads true ('@' :: name) [.parameter name] := by
    have whole :=
      @Sql.Reads.parameter true name [] [] letters (fun _ => nofun) .nil
    rwa [List.append_nil] at whole
  have letter (char : Char) (isLetter : isParameterChar char = true) :
      ∀ other ∈ [char], isParameterChar other = true :=
    List.forall_mem_singleton.mpr isLetter
  refine ⟨filled, found, ?_, ?_, ?_⟩
  · exact finds (.value .plain "@b") _ (reads (letter 'b' (by decide))) nofun
  · exact
      finds (.value .sql "@c") _ (reads (letter 'c' (by decide))) fun _ => nofun
  · rw [lookups, sites]
    simp

/-- A placeholder without a value is looked up twice where it is read as SQL as
well, and a placeholder whose place a date range takes is not looked up. -/
theorem lookups_differ_from_placeholders :
    (¬ ∀ tag template : String,
      (Markup.read .standard template).events.map Prod.fst =
          [.start tag [] false, .text "@missing", .finish tag] →
        (reporting.fill inJune none template).2.result.toOption = some () →
          (reporting.fill inJune none template).2.lookups = ["missing"]) ∧
    ¬ ∀ range template : String,
      (Markup.read .standard template).events.map Prod.fst =
          [.start "x" [("origDateRange", range)] false, .text "@missing",
            .finish "x"] →
        Placeholder.read? .named range.toList = none →
          (reporting.fill inJune none template).2.result.toOption = some () →
            (reporting.fill inJune none template).2.lookups =
              ["missing"] := by
  constructor
  · intro once
    have seen :=
      once "sql" "<sql>@missing</sql>" (by decide +kernel) (by decide +kernel)
    exact absurd seen (by decide +kernel)
  · intro once
    have seen :=
      once "Dynamic|Day|0|Day|0"
        "<x origDateRange='Dynamic|Day|0|Day|0'>@missing</x>"
        (by decide +kernel) (by decide +kernel) (by decide +kernel)
    exact absurd seen (by decide +kernel)

end Substitution

end Template

end AmlExchange
