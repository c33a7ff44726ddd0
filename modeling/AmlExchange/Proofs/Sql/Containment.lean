import AmlExchange.Proofs.Sql.Renderings

/-!
# Where values stay in their place

A filled SQL template holds the characters of the template that are not
replaced, and in between what stands in for the parameters.  The values are
contained if every character that stays is in the region that it had in the
template, and so is the end.  They are, unless a minus sign in code stands
right before a parameter whose value begins with another one: the two signs
begin a comment (`contained_iff`).
-/

namespace AmlExchange.Template.Sql

open Place (within plainStep)

/-! ## Segments -/

/-- A part of a filled template. -/
inductive Segment where
  /-- A text that stays. -/
  | kept (text : List Char)
  /-- A parameter, and what stands in for it. -/
  | replaced (name text : List Char)

namespace Segment

/-- The part of the template. -/
def source : Segment → List Char
  | .kept text => text
  | .replaced name _ => '@' :: name

/-- The part of the filled template. -/
def outcome : Segment → List Char
  | .kept text => text
  | .replaced _ text => text

end Segment

/-- The regions of the characters that stay, out of those of all characters of
the template or of the filled template. -/
def keptRegions (side : Segment → List Char) :
    List Segment → List Region → List Region
  | [], _ => []
  | .kept text :: rest, found =>
      found.take text.length ++
        keptRegions side rest (found.drop text.length)
  | .replaced name text :: rest, found =>
      keptRegions side rest (found.drop (side (.replaced name text)).length)

section

variable (locale : Locale) (values : String → Option Value) (inList : Bool)

/-- The segments of a template that is filled from its parts.  The text before
them is given from its end backwards. -/
def segments : List Piece → List Char → List Segment
  | [], _ => []
  | .copied text :: rest, written =>
      .kept text :: segments rest (text.reverse ++ written)
  | .parameter name :: rest, written =>
      let text :=
        replacement locale values inList (String.ofList name) written
      (if (values (String.ofList name)).isSome then .replaced name text
        else .kept ('@' :: name)) ::
        segments rest (text.reverse ++ written)

/-- Whether every character that stays, and the end, is in the region that it
had in the template. -/
structure Contained (template : List Char) : Prop where
  kept :
    keptRegions Segment.source
        (segments locale values inList (pieces .code template) [])
        (regions .code template) =
      keptRegions Segment.outcome
        (segments locale values inList (pieces .code template) [])
        (regions .code (replace locale values inList template))
  ending :
    regionAfter .code template =
      regionAfter .code (replace locale values inList template)

/-- Whether a minus sign stands right before a parameter whose value begins
with another one.  The first argument says whether the part before is a minus
sign. -/
def joinsMinus : Bool → List Piece → Bool
  | _, [] => false
  | _, .copied text :: rest => joinsMinus (text == ['-']) rest
  | minus, .parameter name :: rest =>
      (minus &&
          (values (String.ofList name)).any fun value =>
            (expression locale inList value).head? == some '-') ||
        joinsMinus false rest

/-! ## The two texts -/

theorem source_segments
    (parts : List Piece) (written : List Char) :
    (segments locale values inList parts written).flatMap Segment.source =
      parts.flatMap Piece.source := by
  induction parts generalizing written with
  | nil => rfl
  | cons piece rest ih =>
      cases piece with
      | copied text =>
          rw [segments, List.flatMap_cons, List.flatMap_cons, ih]
          rfl
      | parameter name =>
          rw [segments, List.flatMap_cons, List.flatMap_cons, ih]
          split <;> rfl

theorem fill_eq_outcome
    (parts : List Piece) (written : List Char) :
    fill (replacement locale values inList) parts written =
      written.reverse ++
        (segments locale values inList parts written).flatMap
          Segment.outcome := by
  induction parts generalizing written with
  | nil => simp [fill, segments]
  | cons piece rest ih =>
      cases piece with
      | copied text =>
          rw [fill, ih, segments, List.flatMap_cons]
          simp [Segment.outcome]
      | parameter name =>
          rw [fill, ih, segments, List.flatMap_cons]
          cases bound : values (String.ofList name) with
          | none => simp [Segment.outcome, replacement, bound]
          | some value => simp [Segment.outcome]

end

theorem source_pieces
    (region : Region) (text : List Char) :
    (pieces region text).flatMap Piece.source = text := by
  fun_induction pieces region text with
  | case1 => rfl
  | case2 region char rest ih =>
      rw [List.flatMap_cons, ih, source_next]

/-! ## Regions along the segments -/

/-- The regions of the characters that stay, along the places of one of the
two texts. -/
def keptTrace (side : Segment → List Char) (place : Place) :
    List Segment → List Region
  | [] => []
  | .kept text :: rest =>
      place.trace text ++ keptTrace side (place.run text) rest
  | .replaced name text :: rest =>
      keptTrace side (place.run (side (.replaced name text))) rest

theorem keptRegions_trace
    {side : Segment → List Char} (keeps : ∀ text, side (.kept text) = text)
    (place : Place) (parts : List Segment) :
    keptRegions side parts (place.trace (parts.flatMap side)) =
      keptTrace side place parts := by
  induction parts generalizing place with
  | nil => rfl
  | cons segment rest ih =>
      rw [List.flatMap_cons, Place.trace_append]
      cases segment with
      | kept text =>
          rw [keptRegions, keptTrace, keeps]
          rw [List.take_left' (Place.length_trace place text),
            List.drop_left' (Place.length_trace place text), ih]
      | replaced name text =>
          rw [keptRegions, keptTrace,
            List.drop_left' (Place.length_trace place _), ih]

/-- Whether two places, one in each text, lead to the same regions. -/
structure Agree (first second : Place) (parts : List Segment) : Prop where
  kept :
    keptTrace Segment.source first parts =
      keptTrace Segment.outcome second parts
  ending :
    (first.run (parts.flatMap Segment.source)).region =
      (second.run (parts.flatMap Segment.outcome)).region

theorem agree_kept
    (place : Place) (text : List Char) (rest : List Segment) :
    Agree place place (.kept text :: rest) ↔
      Agree (place.run text) (place.run text) rest := by
  constructor
  · rintro ⟨kept, ending⟩
    constructor
    · exact List.append_cancel_left kept
    · simpa [Place.run_append, Segment.source, Segment.outcome] using ending
  · rintro ⟨kept, ending⟩
    constructor
    · exact congrArg _ kept
    · simpa [Place.run_append, Segment.source, Segment.outcome] using ending

theorem agree_replaced
    (first second : Place) (name text : List Char) (rest : List Segment) :
    Agree first second (.replaced name text :: rest) ↔
      Agree (first.run ('@' :: name)) (second.run text) rest := by
  constructor
  · rintro ⟨kept, ending⟩
    rw [List.flatMap_cons, List.flatMap_cons, Place.run_append,
      Place.run_append] at ending
    exact ⟨kept, ending⟩
  · rintro ⟨kept, ending⟩
    constructor
    · exact kept
    · rw [List.flatMap_cons, List.flatMap_cons, Place.run_append,
        Place.run_append]
      exact ending

theorem contained_iff_agree
    (locale : Locale) (values : String → Option Value) (inList : Bool)
    (template : List Char) :
    Contained locale values inList template ↔
      Agree (within .code) (within .code)
        (segments locale values inList (pieces .code template) []) := by
  have sources :=
    source_segments locale values inList (pieces .code template) []
  have outcomes :=
    fill_eq_outcome locale values inList (pieces .code template) []
  rw [source_pieces] at sources
  rw [List.reverse_nil, List.nil_append] at outcomes
  have before := regions_eq_trace (Place.apart_within .code template)
  have after :=
    regions_eq_trace
      (Place.apart_within .code (replace locale values inList template))
  have first :=
    @keptRegions_trace Segment.source (fun _ => rfl) (within .code)
      (segments locale values inList (pieces .code template) [])
  have second :=
    @keptRegions_trace Segment.outcome (fun _ => rfl) (within .code)
      (segments locale values inList (pieces .code template) [])
  rw [sources, ← before.1] at first
  rw [← outcomes] at second
  constructor
  · rintro ⟨kept, ending⟩
    constructor
    · rw [← first, ← second]
      exact kept.trans (congrArg _ after.1)
    · rw [sources, ← outcomes]
      exact (before.2.symm.trans ending).trans after.2
  · rintro ⟨kept, ending⟩
    rw [sources, ← outcomes] at ending
    constructor
    · exact
        (first.trans (kept.trans second.symm)).trans
          (congrArg _ after.1.symm)
    · exact before.2.trans (ending.trans after.2.symm)

/-! ## What the parts of a template are -/

/-- What reading a template makes sure of. -/
def Segment.Sound : Segment → Prop
  | .kept text => text ≠ []
  | .replaced name text =>
      (∀ char ∈ name, isParameterChar char = true) ∧ Sealed text

/-- Once the two texts have parted, the next character that stays, or the end,
shows it. -/
theorem not_agree_of_strayed
    {parts : List Segment} (sound : ∀ segment ∈ parts, segment.Sound)
    {region : Region} (strayed : Strayed region) :
    ¬ Agree (within .code) (within region) parts := by
  induction parts generalizing region with
  | nil =>
      rintro ⟨-, ending⟩
      have inCode : Region.code = region := ending
      rw [← inCode] at strayed
      exact strayed
  | cons segment rest ih =>
      rw [List.forall_mem_cons] at sound
      cases segment with
      | kept text =>
          rintro ⟨kept, -⟩
          cases text with
          | nil => exact sound.1 rfl
          | cons char more =>
              have inCode : Region.code = region := (List.cons.inj kept).1
              rw [← inCode] at strayed
              exact strayed
      | replaced name text =>
          obtain ⟨letters, closed⟩ := sound.1
          obtain ⟨other, strayedOther, reached⟩ :=
            closed.strays region strayed
          have named :
              (within .code).run ('@' :: name) = within .code :=
            (Place.run_of_isParameterChar letters).1
          rw [agree_replaced, named, reached]
          exact ih sound.2 strayedOther

/-- What the parts of a template are made of. -/
def Piece.Sound : Piece → Prop
  | .copied text => text ≠ []
  | .parameter name => ∀ char ∈ name, isParameterChar char = true

theorem sound_next
    (region : Region) (char : Char) (rest : List Char) :
    (next region char rest).1.Sound := by
  unfold next
  split
  case h_6 => exact fun _ member => List.mem_takeWhile_imp member
  all_goals exact List.cons_ne_nil _ _

theorem sound_pieces
    (region : Region) (text : List Char) :
    ∀ piece ∈ pieces region text, piece.Sound := by
  fun_induction pieces region text with
  | case1 =>
      intro piece member
      cases member
  | case2 region char rest ih =>
      exact List.forall_mem_cons.mpr ⟨sound_next region char rest, ih⟩

theorem sound_segments
    (locale : Locale) (values : String → Option Value) (inList : Bool)
    {parts : List Piece} (sound : ∀ piece ∈ parts, piece.Sound)
    (written : List Char) :
    ∀ segment ∈ segments locale values inList parts written,
      segment.Sound := by
  induction parts generalizing written with
  | nil => exact nofun
  | cons piece rest ih =>
      rw [List.forall_mem_cons] at sound
      cases piece with
      | copied text =>
          exact List.forall_mem_cons.mpr ⟨sound.1, ih sound.2 _⟩
      | parameter name =>
          rw [segments, List.forall_mem_cons]
          refine ⟨?_, ih sound.2 _⟩
          cases bound : values (String.ofList name) with
          | none => exact List.cons_ne_nil _ _
          | some value =>
              exact ⟨sound.1, sealed_replacement locale bound inList written⟩

/-! ## The exact condition -/

theorem proper_next
    {region : Region} (proper : Proper region) (char : Char)
    (rest : List Char) :
    Proper (next region char rest).2.1 := by
  unfold next
  split
  · exact .inr trivial
  · exact .inr trivial
  · exact .inr (.inl rfl)
  · exact .inr (.inr (.inl rfl))
  · exact .inr (.inr (.inr rfl))
  · exact proper
  · exact proper
  · dsimp only
    split_ifs
    · exact .inl rfl
    · exact proper
  · dsimp only
    split_ifs
    · exact .inl rfl
    · exact proper
  · exact .inl rfl
  · exact proper

theorem held_plainStep_code
    (char : Char) :
    (plainStep .code char).held = some '-' ↔ char = '-' := by
  rw [plainStep]
  split_ifs with mark quote bracket
  · exact Option.some_inj
  · constructor
    · rintro ⟨⟩
    · rintro rfl
      exact absurd (.inl rfl) mark
  · constructor
    · rintro ⟨⟩
    · rintro rfl
      exact absurd (.inl rfl) mark
  · constructor
    · rintro ⟨⟩
    · rintro rfl
      exact absurd (.inl rfl) mark

/-- In code a minus sign is held only as a part of its own. -/
theorem minus_of_copied
    {region : Region} {held : Option Char} {char : Char} {rest : List Char}
    (proper : Proper region)
    (apart : (⟨region, held⟩ : Place).Apart (char :: rest))
    {text more : List Char}
    (read : next region char rest = (.copied text, .code, more)) :
    (text == ['-']) = true ↔
      ((⟨region, held⟩ : Place).run text).held = some '-' := by
  have stepped : Place.step ⟨region, held⟩ char = plainStep region char :=
    apart char rfl
  rw [beq_iff_eq]
  unfold next at read
  split at read <;>
    simp only [Prod.mk.injEq, Piece.copied.injEq, reduceCtorEq, false_and,
      and_false, true_and] at read
  case h_7 =>
    obtain ⟨rfl, -⟩ := read
    rw [Place.run_cons, stepped, Place.run_nil, held_plainStep_code]
    exact ⟨fun same => (List.cons.inj same).1, fun same => by rw [same]⟩
  case h_8 close =>
    obtain ⟨rfl, closed, -⟩ := read
    split_ifs at closed with same
    subst same
    rw [Place.run_cons, stepped, Place.run_nil]
    constructor
    · intro minus
      rw [(List.cons.inj minus).1] at proper
      rcases proper with code | single | double | bracket
      · cases code
      · exact absurd single (by decide)
      · exact absurd double (by decide)
      · exact absurd bracket (by decide)
    · nofun
  case h_9 =>
    obtain ⟨rfl, closed, -⟩ := read
    split_ifs at closed with ends
    rw [Place.run_cons, stepped, Place.run_nil]
    constructor
    · intro minus
      rw [(List.cons.inj minus).1] at ends
      exact absurd ends (by decide)
    · nofun
  case h_10 =>
    obtain ⟨rfl, -⟩ := read
    rw [Place.run_cons, stepped]
    exact ⟨nofun, nofun⟩

/-- What is known of a place in a template and of the part before it. -/
structure Follows (place : Place) (minus : Bool) (written : List Char) :
    Prop where
  proper : Proper place.region
  held : place.region = .code → (minus = true ↔ place.held = some '-')
  written : minus = true → written.head? = some '-'

theorem follows_parameter
    (written : List Char) :
    Follows (within .code) false written :=
  ⟨.inl rfl, fun _ => ⟨nofun, nofun⟩, nofun⟩

/-- No list begins right after a minus sign. -/
theorem listPlace_of_minus
    {written : List Char} (minus : written.head? = some '-') :
    listPlace written = .elsewhere := by
  obtain ⟨rest, rfl⟩ := List.head?_eq_some_iff.mp minus
  simp [listPlace, Text.sameIgnoringCase, Text.fold]

/-- In code a character makes no mark with the one held, unless both are minus
signs or it is a star. -/
theorem step_code
    {held : Option Char} {char : Char} (noStar : char ≠ '*')
    (single : held = some '-' → char ≠ '-') :
    Place.step ⟨.code, held⟩ char = (within .code).step char := by
  rw [Place.step_within]
  unfold Place.step
  split
  · next minus => exact absurd rfl (single minus)
  · exact absurd rfl noStar
  · next region _ => cases region
  · rfl

/-- In code what stands in for a parameter leads back to code, unless a minus
sign is held and another comes first. -/
theorem run_sealed
    {held : Option Char} {text : List Char} (closed : Sealed text)
    (single : held = some '-' → text.head? ≠ some '-') :
    (⟨.code, held⟩ : Place).run text = within .code := by
  obtain ⟨first, rest, rfl, noStar⟩ := closed.begins
  have apart : Place.step ⟨.code, held⟩ first = (within .code).step first :=
    step_code noStar fun minus same => single minus (congrArg some same)
  rw [Place.run_cons, apart]
  exact closed.closes

/-- Two minus signs lead out of code. -/
theorem run_sealed_of_minus
    {text : List Char} (closed : Sealed text)
    (minus : text.head? = some '-') :
    ∃ other, Strayed other ∧
      (⟨.code, some '-'⟩ : Place).run text = within other := by
  obtain ⟨rest, rfl⟩ := List.head?_eq_some_iff.mp minus
  exact closed.strays .lineComment trivial

/-- The place after a part that is copied. -/
theorem run_copied
    {region : Region} {held : Option Char} {char : Char} {rest : List Char}
    (apart : (⟨region, held⟩ : Place).Apart (char :: rest))
    {text : List Char} (read : (next region char rest).1 = .copied text) :
    (⟨region, held⟩ : Place).run text =
        ⟨(next region char rest).2.1,
          ((⟨region, held⟩ : Place).run text).held⟩ ∧
      ((⟨region, held⟩ : Place).run text).Apart
        (next region char rest).2.2 := by
  have passes := Place.passes_next apart
  rw [read] at passes
  refine ⟨?_, passes.apart⟩
  rw [← passes.region]
  rfl

theorem follows_copied
    {region : Region} {held : Option Char} {char : Char} {rest : List Char}
    (proper : Proper region)
    (apart : (⟨region, held⟩ : Place).Apart (char :: rest))
    {text : List Char} (read : (next region char rest).1 = .copied text)
    (written : List Char) :
    Follows
      ⟨(next region char rest).2.1,
        ((⟨region, held⟩ : Place).run text).held⟩
      (text == ['-']) (text.reverse ++ written) := by
  refine ⟨proper_next proper char rest, ?_, ?_⟩
  · intro code
    apply minus_of_copied proper apart
    rw [← read, ← show (next region char rest).2.1 = .code from code]
  · intro minus
    rw [beq_iff_eq.mp minus]
    rfl

theorem parameter_next
    {region : Region} {char : Char} {rest name : List Char}
    (read : (next region char rest).1 = .parameter name) :
    region = .code ∧ char = '@' ∧ (next region char rest).2.1 = .code := by
  unfold next at read ⊢
  split at read <;> simp_all

theorem run_parameter
    {held : Option Char} {rest name : List Char}
    (apart : (⟨.code, held⟩ : Place).Apart ('@' :: rest))
    (letters : ∀ char ∈ name, isParameterChar char = true) :
    (⟨.code, held⟩ : Place).run ('@' :: name) = within .code := by
  have sign : Place.step ⟨.code, held⟩ '@' = within .code := apart '@' rfl
  rw [Place.run_cons, sign]
  exact (Place.run_of_isParameterChar letters).1

section

variable {locale : Locale} {values : String → Option Value} {inList : Bool}

/-- Where no minus signs are joined, what stands in for a parameter right after
a minus sign does not begin with another one. -/
theorem head_replacement_ne_minus
    {held : Option Char} {minus : Bool} {written : List Char}
    (follows : Follows ⟨.code, held⟩ minus written)
    {name : String} {value : Value} (bound : values name = some value)
    (separate :
      (minus && (expression locale inList value).head? == some '-') = false)
    (sign : held = some '-') :
    (replacement locale values inList name written).head? ≠ some '-' := by
  have before := (follows.held rfl).mpr sign
  rw [before, Bool.true_and, beq_eq_false_iff_ne] at separate
  rw [replacement, bound]
  simp only [listPlace_of_minus (follows.written before)]
  exact separate

/-- A replaced parameter right after two texts that agree. -/
theorem agree_parameter
    {held : Option Char} {name : List Char}
    (named : (⟨.code, held⟩ : Place).run ('@' :: name) = within .code)
    {minus : Bool} {written : List Char}
    (follows : Follows ⟨.code, held⟩ minus written)
    {value : Value} (bound : values (String.ofList name) = some value)
    {rest : List Segment} (sound : ∀ segment ∈ rest, segment.Sound) :
    Agree ⟨.code, held⟩ ⟨.code, held⟩
        (.replaced name
            (replacement locale values inList (String.ofList name)
              written) ::
          rest) ↔
      (minus && (expression locale inList value).head? == some '-') =
          false ∧
        Agree (within .code) (within .code) rest := by
  have closed := sealed_replacement locale bound inList written
  rw [agree_replaced, named]
  by_cases joined :
    minus = true ∧ (expression locale inList value).head? = some '-'
  · obtain ⟨sign, negative⟩ := joined
    have elsewhere :
        replacement locale values inList (String.ofList name) written =
          expression locale inList value := by
      rw [replacement, bound]
      simp only [listPlace_of_minus (follows.written sign)]
    have minusHeld : held = some '-' := (follows.held rfl).mp sign
    subst minusHeld
    rw [elsewhere] at closed ⊢
    obtain ⟨other, strayed, reached⟩ := run_sealed_of_minus closed negative
    rw [reached]
    constructor
    · exact fun agree => absurd agree (not_agree_of_strayed sound strayed)
    · simp [sign, negative]
  · have separate :
        (minus && (expression locale inList value).head? == some '-') =
          false := by
      simpa [not_and] using joined
    have single :=
      @head_replacement_ne_minus locale values inList _ _ _ follows _ _ bound
        separate
    rw [run_sealed closed single]
    exact ⟨fun agree => ⟨separate, agree⟩, fun both => both.2⟩

/-- From one place on, the two texts agree unless minus signs are joined. -/
theorem agree_iff
    {region : Region} {held : Option Char} {text : List Char}
    (apart : (⟨region, held⟩ : Place).Apart text)
    {minus : Bool} {written : List Char}
    (follows : Follows ⟨region, held⟩ minus written) :
    Agree ⟨region, held⟩ ⟨region, held⟩
        (segments locale values inList (pieces region text) written) ↔
      joinsMinus locale values inList minus (pieces region text) = false := by
  fun_induction pieces region text generalizing held minus written with
  | case1 => exact ⟨fun _ => rfl, fun _ => ⟨rfl, rfl⟩⟩
  | case2 region char rest ih =>
      have sound := sound_next region char rest
      cases piece : (next region char rest).1 with
      | copied part =>
          obtain ⟨after, apartRest⟩ := run_copied apart piece
          rw [after] at apartRest
          rw [segments, agree_kept, joinsMinus, after]
          exact
            ih apartRest (follows_copied follows.proper apart piece written)
      | parameter name =>
          obtain ⟨rfl, rfl, code⟩ := parameter_next piece
          rw [piece] at sound
          have named := run_parameter apart sound
          rw [code] at ih ⊢
          have others (written : List Char) :=
            ih (Place.apart_within .code _) (follows_parameter written)
          rw [segments, joinsMinus]
          cases bound : values (String.ofList name) with
          | none =>
              simp only [Option.isSome_none, Bool.false_eq_true, if_false,
                Option.any_none, Bool.and_false, Bool.false_or]
              rw [agree_kept, named]
              exact others _
          | some value =>
              simp only [Option.isSome_some, if_true, Option.any_some,
                Bool.or_eq_false_iff]
              rw [agree_parameter named follows bound
                (sound_segments locale values inList
                  (sound_pieces .code _) _)]
              exact and_congr_right fun _ => others _

/-- Values stay in their place exactly if, in code, no minus sign stands right
before a parameter whose value begins with another one. -/
theorem contained_iff
    (locale : Locale) (values : String → Option Value) (inList : Bool)
    (template : List Char) :
    Contained locale values inList template ↔
      joinsMinus locale values inList false (pieces .code template) =
        false := by
  rw [contained_iff_agree]
  exact
    agree_iff (Place.apart_within .code template) (follows_parameter [])

/-- A negative number after a minus sign puts the rest of the line into a
comment. -/
theorem not_contained_negative :
    ¬ Contained ⟨"en", "en-US", 0, 0, ⟨0, 0, by decide, by decide⟩⟩
      (fun name => if name = "a" then some (.int (-5)) else none) false
      "select 7-@a from t".toList := by
  intro contained
  have agree := (contained_iff_agree ..).mp contained
  have separate :=
    (agree_iff (Place.apart_within .code _) (follows_parameter [])).mp agree
  revert separate
  decide +kernel

end

end AmlExchange.Template.Sql
