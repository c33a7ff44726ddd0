import AmlExchange.DateRange.Dynamic

/-!
# The text that keeps a relative range

The parts of the text are names and numbers, which hold neither the mark
between two parts nor a blank.  So the text is cut where it was put together,
and the range is read back (`deserialize?_serialize`).
-/

namespace AmlExchange

namespace Text

/-- A part that does not hold the separator is cut off as a whole. -/
theorem split_append_cons
    {separator : Char} {part : List Char} (absent : separator ∉ part)
    (rest : List Char) :
    split separator (part ++ separator :: rest) =
      part :: split separator rest := by
  induction part with
  | nil =>
      rw [List.nil_append, split]
      split
      · next nothing => exact absurd nothing (split_ne_nil separator rest)
      · next first others parts => rw [parts, if_pos rfl]
  | cons char more ih =>
      rw [List.mem_cons, not_or] at absent
      rw [List.cons_append, split, ih absent.2]
      exact if_neg (Ne.symm absent.1)

theorem split_of_not_mem
    {separator : Char} {part : List Char} (absent : separator ∉ part) :
    split separator part = [part] := by
  induction part with
  | nil => rfl
  | cons char more ih =>
      rw [List.mem_cons, not_or] at absent
      rw [split, ih absent.2]
      exact if_neg (Ne.symm absent.1)

theorem dropWhile_isBlank
    {text : List Char} (visible : ∀ char ∈ text, isBlank char = false) :
    text.dropWhile isBlank = text := by
  cases text with
  | nil => rfl
  | cons char rest =>
      rw [List.dropWhile_cons, visible char List.mem_cons_self]
      rfl

/-- A text without blanks has none to lose at its ends. -/
theorem trim_of_visible
    {text : List Char} (visible : ∀ char ∈ text, isBlank char = false) :
    trim text = text := by
  have backwards : ∀ char ∈ text.reverse, isBlank char = false := by
    intro char member
    exact visible char (List.mem_reverse.mp member)
  rw [trim, trimLeft, dropWhile_isBlank visible, trimRight,
    dropWhile_isBlank backwards, List.reverse_reverse]

end Text

namespace DateRange.Dynamic

/-- A text that may be a part: it holds neither the mark between two parts nor
a blank. -/
def IsPart (text : List Char) : Prop :=
  ∀ char ∈ text, char ≠ '|' ∧ Text.isBlank char = false

instance (text : List Char) : Decidable (IsPart text) :=
  List.decidableBAll _ text

theorem IsPart.not_mem
    {text : List Char} (isPart : IsPart text) :
    '|' ∉ text :=
  fun member => (isPart _ member).1 rfl

theorem IsPart.trim
    {text : List Char} (isPart : IsPart text) :
    Text.trim text = text :=
  Text.trim_of_visible fun char member => (isPart char member).2

theorem isPart_magnitude
    (magnitude : Magnitude) :
    IsPart magnitude.name.toList := by
  cases magnitude <;> decide

theorem isPart_weekday
    (day : Calendar.Weekday) :
    IsPart day.name.toList := by
  cases day <;> decide

theorem isPart_digitChar
    {digit : Nat} (small : digit < 10) :
    Decimal.digitChar digit ≠ '|' ∧
      Text.isBlank (Decimal.digitChar digit) = false := by
  decide +revert

theorem isPart_writeInt
    (value : Int) :
    IsPart (Decimal.writeInt value) := by
  have digits : IsPart (Decimal.writeNat value.natAbs) :=
    Decimal.forall_mem_writeNat isPart_digitChar _
  rw [Decimal.writeInt]
  split
  · exact List.forall_mem_cons.mpr ⟨by decide, digits⟩
  · exact digits

theorem readInt32?_writeInt
    (value : Int32) :
    Decimal.readInt32? (Decimal.writeInt value.toInt) = some value := by
  rw [Decimal.readInt32?, Decimal.readInt?_writeInt, Option.bind_some,
    Decimal.toInt32?_toInt]

/-- The parts of the text of a range, but for the word in front. -/
def parts (range : Dynamic) : List (List Char) :=
  range.startMagnitude.name.toList ::
    Decimal.writeInt range.startOffset.toInt ::
    range.endMagnitude.name.toList ::
    Decimal.writeInt range.endOffset.toInt ::
    if range.firstDayOfWeek = .sunday then []
    else [range.firstDayOfWeek.name.toList]

theorem split_serialize
    (range : Dynamic) :
    Text.split '|' range.serialize.toList =
      "Dynamic".toList :: range.parts := by
  have word : '|' ∉ "Dynamic".toList := by decide
  have marked : "Dynamic|".toList = "Dynamic".toList ++ ['|'] := by decide
  have first := (isPart_magnitude range.startMagnitude).not_mem
  have second := (isPart_writeInt range.startOffset.toInt).not_mem
  have third := (isPart_magnitude range.endMagnitude).not_mem
  have fourth := (isPart_writeInt range.endOffset.toInt).not_mem
  have last := (isPart_weekday range.firstDayOfWeek).not_mem
  unfold serialize parts
  simp only [String.toList_ofList, marked, List.append_assoc,
    List.cons_append, List.nil_append]
  rw [Text.split_append_cons word, Text.split_append_cons first,
    Text.split_append_cons second, Text.split_append_cons third]
  split
  · rw [List.append_nil, Text.split_of_not_mem fourth]
  · rw [Text.split_append_cons fourth, Text.split_of_not_mem last]

theorem isPart_parts
    (range : Dynamic) :
    ∀ part ∈ range.parts, IsPart part := by
  have week :
      ∀ part ∈
          if range.firstDayOfWeek = .sunday then []
          else [range.firstDayOfWeek.name.toList],
        IsPart part := by
    split
    · exact List.forall_mem_nil _
    · exact List.forall_mem_singleton.mpr (isPart_weekday _)
  exact
    List.forall_mem_cons.mpr
      ⟨isPart_magnitude _,
        List.forall_mem_cons.mpr
          ⟨isPart_writeInt _,
            List.forall_mem_cons.mpr
              ⟨isPart_magnitude _,
                List.forall_mem_cons.mpr ⟨isPart_writeInt _, week⟩⟩⟩⟩

theorem ofParts?_parts
    (range : Dynamic) :
    ofParts? range.parts = some range := by
  obtain ⟨startMagnitude, startOffset, endMagnitude, endOffset, week⟩ := range
  rw [parts]
  dsimp only
  split
  · next sunday =>
      subst sunday
      simp [ofParts?, Magnitude.ofName?_name, readInt32?_writeInt]
  · simp [ofParts?, Magnitude.ofName?_name, readInt32?_writeInt,
      Calendar.Weekday.ofName?_name]

/-- The text of a range is read as that range. -/
theorem deserialize?_serialize
    (range : Dynamic) :
    deserialize? range.serialize = some range := by
  have word : IsPart "Dynamic".toList := by decide
  have trimmed :
      ("Dynamic".toList :: range.parts).map Text.trim =
        "Dynamic".toList :: range.parts := by
    refine (List.map_congr_left (g := id) ?_).trans (List.map_id _)
    intro part member
    rcases List.mem_cons.mp member with rfl | member
    · exact word.trim
    · exact (isPart_parts range part member).trim
  rw [deserialize?, split_serialize, trimmed]
  dsimp only
  rw [if_pos (by decide), ofParts?_parts]

end DateRange.Dynamic

end AmlExchange
