import AmlExchange.Template.Sql
import Mathlib.Data.List.TakeWhile
import Mathlib.Tactic.SplitIfs

/-!
# Places in SQL

The regions of a text are found piece by piece, and a piece may be a mark of
two characters.  So the regions of two texts one after the other are not those
of each text alone.  A place repairs this: it is a region together with the
character before it, if that may begin such a mark, and places go on from one
character to the next (`regions_eq_trace`).
-/

namespace AmlExchange.Template.Sql

/-! ## Regions -/

/-- The region of each character of a text that begins in a region: the one
that the part begins in which the character belongs to. -/
def regions (region : Region) : List Char → List Region
  | [] => []
  | char :: rest =>
      List.replicate (next region char rest).1.source.length region ++
        regions (next region char rest).2.1 (next region char rest).2.2
termination_by text => text.length
decreasing_by
  have := length_next_le region char rest
  simp only [List.length_cons]
  omega

/-- The region at the end of a text that begins in a region. -/
def regionAfter (region : Region) : List Char → Region
  | [] => region
  | char :: rest =>
      regionAfter (next region char rest).2.1 (next region char rest).2.2
termination_by text => text.length
decreasing_by
  have := length_next_le region char rest
  simp only [List.length_cons]
  omega

/-! ## Places -/

/-- A region, and the character before if it may begin a mark of two. -/
structure Place where
  region : Region
  held : Option Char
deriving DecidableEq, Repr

namespace Place

/-- The place in a region after nothing that counts. -/
def within (region : Region) : Place :=
  ⟨region, none⟩

/-- The place after one more character that ends no mark of two. -/
def plainStep (region : Region) (char : Char) : Place :=
  match region with
  | .code =>
      if char = '-' ∨ char = '/' then ⟨.code, some char⟩
      else if char = '\'' ∨ char = '"' then within (.quoted char)
      else if char = '[' then within (.quoted ']')
      else within .code
  | .quoted close => within (if char = close then .code else .quoted close)
  | .lineComment =>
      within (if char = '\n' ∨ char = '\r' then .code else .lineComment)
  | .blockComment => ⟨.blockComment, if char = '*' then some char else none⟩

/-- The place after one more character. -/
def step (place : Place) (char : Char) : Place :=
  match place.region, place.held, char with
  | .code, some '-', '-' => within .lineComment
  | .code, some '/', '*' => within .blockComment
  | .blockComment, some '*', '/' => within .code
  | region, _, _ => plainStep region char

/-- The place after a text. -/
def run (place : Place) (text : List Char) : Place :=
  text.foldl step place

/-- The region of each character of a text. -/
def trace (place : Place) : List Char → List Region
  | [] => []
  | char :: rest => place.region :: trace (place.step char) rest

@[simp]
theorem run_nil
    (place : Place) :
    place.run [] = place :=
  rfl

@[simp]
theorem run_cons
    (place : Place) (char : Char) (rest : List Char) :
    place.run (char :: rest) = (place.step char).run rest :=
  rfl

theorem run_append
    (place : Place) (first second : List Char) :
    place.run (first ++ second) = (place.run first).run second :=
  List.foldl_append

theorem trace_append
    (place : Place) (first second : List Char) :
    place.trace (first ++ second) =
      place.trace first ++ (place.run first).trace second := by
  induction first generalizing place with
  | nil => rfl
  | cons char rest ih =>
      rw [List.cons_append, trace, trace, ih]
      rfl

@[simp]
theorem length_trace
    (place : Place) (text : List Char) :
    (place.trace text).length = text.length := by
  induction text generalizing place with
  | nil => rfl
  | cons char rest ih => rw [trace, List.length_cons, ih, List.length_cons]

theorem step_within
    (region : Region) (char : Char) :
    (within region).step char = plainStep region char := by
  unfold step within
  split <;> simp_all

/-- Whether the character held makes no mark with the one that follows. -/
def Apart (place : Place) (text : List Char) : Prop :=
  ∀ char ∈ text.head?, place.step char = plainStep place.region char

theorem apart_within
    (region : Region) (text : List Char) :
    (within region).Apart text :=
  fun char _ => step_within region char

end Place

/-! ## Pieces and places -/

theorem plainStep_of_isParameterChar
    {char : Char} (letter : isParameterChar char = true) :
    Place.plainStep .code char = .within .code := by
  have plain (mark : Char) (special : isParameterChar mark = false) :
      char ≠ mark := by
    rintro rfl
    rw [letter] at special
    cases special
  rw [Place.plainStep]
  simp [plain '-' (by decide), plain '/' (by decide), plain '\'' (by decide),
    plain '"' (by decide), plain '[' (by decide)]

/-- What a place makes of a part of a text and the rest after it. -/
structure Place.Passes
    (place : Place) (piece : Piece) (region : Region) (rest : List Char) :
    Prop where
  region : (place.run piece.source).region = region
  trace :
    place.trace piece.source =
      List.replicate piece.source.length place.region
  apart : (place.run piece.source).Apart rest

namespace Place

theorem run_of_isParameterChar
    {name : List Char} (letters : ∀ char ∈ name, isParameterChar char = true) :
    (within .code).run name = within .code ∧
      (within .code).trace name = List.replicate name.length .code := by
  induction name with
  | nil => exact ⟨rfl, rfl⟩
  | cons char rest ih =>
      rw [List.forall_mem_cons] at letters
      have same : (within .code).step char = within .code := by
        rw [step_within, plainStep_of_isParameterChar letters.1]
      rw [run_cons, trace, same, List.length_cons, List.replicate_succ]
      exact ⟨(ih letters.2).1, congrArg _ (ih letters.2).2⟩

/-- A part of one character. -/
theorem passes_of_character
    {place : Place} {char : Char} {rest : List Char}
    (stepped : place.step char = plainStep place.region char)
    (apart : (plainStep place.region char).Apart rest) :
    place.Passes (.copied [char]) (plainStep place.region char).region
      rest := by
  refine ⟨?_, rfl, ?_⟩
  · show (place.step char).region = _
    rw [stepped]
  · show (place.step char).Apart rest
    rw [stepped]
    exact apart

/-- A part that is a mark of two characters. -/
theorem passes_of_mark
    {place : Place} {first second : Char} {region : Region}
    {rest : List Char}
    (stepped : place.step first = ⟨place.region, some first⟩)
    (marked :
      (⟨place.region, some first⟩ : Place).step second = within region) :
    place.Passes (.copied [first, second]) region rest := by
  have finished : place.run [first, second] = within region := by
    rw [run_cons, run_cons, stepped, marked, run_nil]
  refine ⟨?_, ?_, ?_⟩
  · show (place.run [first, second]).region = _
    rw [finished]
    rfl
  · show place.trace [first, second] = _
    rw [trace, trace, stepped]
    rfl
  · show (place.run [first, second]).Apart rest
    rw [finished]
    exact apart_within region rest

/-- In code a single minus sign or slash makes no mark. -/
theorem apart_code
    {char : Char} {rest : List Char}
    (noLine : ∀ more, char = '-' → rest ≠ '-' :: more)
    (noBlock : ∀ more, char = '/' → rest ≠ '*' :: more) :
    (plainStep .code char).Apart rest := by
  intro following first
  obtain ⟨more, rfl⟩ := List.head?_eq_some_iff.mp first
  rw [plainStep]
  split_ifs with mark quote bracket
  · unfold step
    split
    · next held =>
        rw [Option.some.injEq] at held
        exact absurd rfl (noLine more held)
    · next held =>
        rw [Option.some.injEq] at held
        exact absurd rfl (noBlock more held)
    · next region _ => cases region
    · rfl
  · exact step_within _ _
  · exact step_within _ _
  · exact step_within _ _

/-- In a comment a single star makes no mark. -/
theorem apart_blockComment
    {char : Char} {rest : List Char}
    (noEnd : ∀ more, char = '*' → rest ≠ '/' :: more) :
    (plainStep .blockComment char).Apart rest := by
  intro following first
  obtain ⟨more, rfl⟩ := List.head?_eq_some_iff.mp first
  rw [plainStep]
  split_ifs with star
  · unfold step
    split
    · next region _ => cases region
    · next region _ => cases region
    · exact absurd rfl (noEnd more star)
    · rfl
  · exact step_within _ _

theorem region_plainStep_code
    {char : Char} (noQuote : char ≠ '\'') (noDouble : char ≠ '"')
    (noBracket : char ≠ '[') :
    (plainStep .code char).region = .code := by
  rw [plainStep]
  split_ifs with mark quote
  · rfl
  · rcases quote with single | double
    · exact absurd single noQuote
    · exact absurd double noDouble
  · rfl

/-- A parameter leads from code to code. -/
theorem passes_parameter
    {held : Option Char} {rest : List Char}
    (stepped : step ⟨.code, held⟩ '@' = plainStep .code '@') :
    Passes ⟨.code, held⟩ (.parameter (rest.takeWhile isParameterChar)) .code
      (rest.dropWhile isParameterChar) := by
  have letters :
      ∀ char ∈ rest.takeWhile isParameterChar, isParameterChar char = true :=
    fun char member => List.mem_takeWhile_imp member
  have sign : step ⟨.code, held⟩ '@' = within .code := stepped
  obtain ⟨final, regions⟩ := run_of_isParameterChar letters
  refine ⟨?_, ?_, ?_⟩
  · rw [Piece.source, run_cons, sign, final]
    rfl
  · rw [Piece.source, trace, sign, regions]
    rfl
  · rw [Piece.source, run_cons, sign, final]
    exact apart_within _ _

/-- The place after the first part of a text. -/
theorem passes_next
    {region : Region} {held : Option Char} {char : Char} {rest : List Char}
    (apart : (⟨region, held⟩ : Place).Apart (char :: rest)) :
    Passes ⟨region, held⟩ (next region char rest).1
      (next region char rest).2.1 (next region char rest).2.2 := by
  have stepped : step ⟨region, held⟩ char = plainStep region char :=
    apart char rfl
  unfold next
  split
  · exact passes_of_mark stepped rfl
  · exact passes_of_mark stepped rfl
  · exact passes_of_character stepped (apart_within _ _)
  · exact passes_of_character stepped (apart_within _ _)
  · exact passes_of_character stepped (apart_within _ _)
  · exact passes_parameter stepped
  · next noQuote noDouble noBracket _ noLine noBlock =>
      have inCode := region_plainStep_code noQuote noDouble noBracket
      have passes :=
        passes_of_character stepped (apart_code noLine noBlock)
      rwa [inCode] at passes
  · exact passes_of_character stepped (apart_within _ _)
  · exact passes_of_character stepped (apart_within _ _)
  · exact passes_of_mark stepped rfl
  · next noEnd =>
      exact passes_of_character stepped (apart_blockComment noEnd)

end Place

/-- A part and what remains after it are the text that was read. -/
theorem source_next
    (region : Region) (char : Char) (rest : List Char) :
    (next region char rest).1.source ++ (next region char rest).2.2 =
      char :: rest := by
  unfold next
  split <;> try rfl
  exact congrArg _ List.takeWhile_append_dropWhile

/-- The regions of a text are those of its places. -/
theorem regions_eq_trace
    {place : Place} {text : List Char} (apart : place.Apart text) :
    regions place.region text = place.trace text ∧
      regionAfter place.region text = (place.run text).region := by
  obtain ⟨region, held⟩ := place
  show regions region text = _ ∧ regionAfter region text = _
  fun_induction pieces region text generalizing held with
  | case1 =>
      constructor
      · rw [regions]
        rfl
      · rw [regionAfter]
        rfl
  | case2 region char rest ih =>
      have passes := Place.passes_next apart
      have divided := source_next region char rest
      cases reached :
          Place.run ⟨region, held⟩ (next region char rest).1.source with
      | mk after kept =>
          obtain ⟨sameRegion, traced, apartRest⟩ := passes
          rw [reached] at sameRegion apartRest
          subst sameRegion
          obtain ⟨others, final⟩ := ih kept apartRest
          constructor
          · rw [regions, others, ← divided, Place.trace_append, traced,
              reached]
          · rw [regionAfter, final, ← divided, Place.run_append, reached]

end AmlExchange.Template.Sql
