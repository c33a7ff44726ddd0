import AmlExchange.Proofs.DateRange.Notation
import AmlExchange.Proofs.Decimal.Numerals
import AmlExchange.Proofs.Text.Marks

/-!
# The spellings of a relative range

The text that keeps a range may be spelled in many ways: the word in front may
be missing, and so may the first day of a week that begins on Sunday; names
are read in any letter case, numbers with a sign and zeros in front, and every
part with blanks around it.  These are all the texts that are read
(`deserialize?_eq_some_iff`), and each stands for one range, which the text
written for it keeps (`deserialize?_normalizes`).
-/

namespace AmlExchange

namespace Text

/-- Whether a text is another one with blanks around it. -/
def Padded (core text : List Char) : Prop :=
  ∃ before after,
    (∀ char ∈ before, isBlank char = true) ∧
      (∀ char ∈ after, isBlank char = true) ∧ text = before ++ core ++ after

/-- Trimming takes nothing but blanks off. -/
theorem padded_trim
    (text : List Char) :
    Padded (trim text) text := by
  obtain ⟨after, whole, blank⟩ :=
    exists_append_reverse_dropWhile isBlank (trimLeft text)
  refine ⟨text.takeWhile isBlank, after, ?_, blank, ?_⟩
  · exact fun char member => List.mem_takeWhile_imp member
  · rw [trim, trimRight, List.append_assoc, ← whole]
    exact List.takeWhile_append_dropWhile.symm

/-- Blanks around a text without blanks are trimmed off. -/
theorem Padded.trim_eq
    {core text : List Char} (padded : Padded core text)
    (visible : ∀ char ∈ core, isBlank char = false) :
    trim text = core := by
  obtain ⟨before, after, blankBefore, blankAfter, rfl⟩ := padded
  have backwards : ∀ char ∈ core.reverse, isBlank char = false := by
    intro char member
    exact visible char (List.mem_reverse.mp member)
  have behind : ∀ char ∈ after.reverse, isBlank char = true := by
    intro char member
    exact blankAfter char (List.mem_reverse.mp member)
  rw [trim, trimLeft, List.append_assoc,
    List.dropWhile_append_of_pos blankBefore]
  cases core with
  | nil =>
      rw [List.nil_append, List.dropWhile_eq_nil_iff.mpr blankAfter]
      rfl
  | cons char rest =>
      rw [List.cons_append,
        List.dropWhile_cons_of_neg
          (by simp [visible char List.mem_cons_self]),
        ← List.cons_append, trimRight, List.reverse_append,
        List.dropWhile_append_of_pos behind, dropWhile_isBlank backwards,
        List.reverse_reverse]

theorem Padded.not_mem
    {core text : List Char} {char : Char} (padded : Padded core text)
    (visible : isBlank char = false) (absent : char ∉ core) :
    char ∉ text := by
  obtain ⟨before, after, blankBefore, blankAfter, rfl⟩ := padded
  simp only [List.mem_append, not_or]
  refine ⟨⟨?_, absent⟩, ?_⟩
  · intro member
    rw [blankBefore char member] at visible
    cases visible
  · intro member
    rw [blankAfter char member] at visible
    cases visible

/-- The parts between the separators make up the text. -/
theorem intercalate_split
    (separator : Char) (text : List Char) :
    [separator].intercalate (split separator text) = text := by
  have longer (char : Char) (part : List Char) (parts : List (List Char)) :
      [separator].intercalate ((char :: part) :: parts) =
        char :: [separator].intercalate (part :: parts) := by
    cases parts <;> simp
  induction text with
  | nil => simp [split]
  | cons char rest ih =>
      obtain ⟨part, parts, divided⟩ :=
        List.exists_cons_of_ne_nil (split_ne_nil separator rest)
      rw [divided] at ih
      rw [split, divided]
      dsimp only
      split
      · next same => rw [List.intercalate_cons_cons, ih, same]; rfl
      · rw [longer, ih]

theorem not_mem_of_mem_split
    {separator : Char} {text part : List Char}
    (member : part ∈ split separator text) :
    separator ∉ part := by
  induction text generalizing part with
  | nil =>
      rw [split, List.mem_singleton] at member
      simp [member]
  | cons char rest ih =>
      obtain ⟨first, parts, divided⟩ :=
        List.exists_cons_of_ne_nil (split_ne_nil separator rest)
      rw [divided] at ih
      rw [split, divided] at member
      dsimp only at member
      split at member
      · rcases List.mem_cons.mp member with rfl | member
        · exact List.not_mem_nil
        · exact ih member
      · next other =>
          rcases List.mem_cons.mp member with rfl | member
          · rw [List.mem_cons, not_or]
            exact ⟨Ne.symm other, ih List.mem_cons_self⟩
          · exact ih (List.mem_cons_of_mem _ member)

/-- A text is cut where parts without the separator were joined. -/
theorem split_eq_iff
    {separator : Char} {text : List Char} {parts : List (List Char)} :
    split separator text = parts ↔
      parts ≠ [] ∧ (∀ part ∈ parts, separator ∉ part) ∧
        text = [separator].intercalate parts := by
  constructor
  · rintro rfl
    exact
      ⟨split_ne_nil separator text, fun _ => not_mem_of_mem_split,
        (intercalate_split separator text).symm⟩
  · rintro ⟨nonempty, absent, rfl⟩
    induction parts with
    | nil => exact absurd rfl nonempty
    | cons part parts ih =>
        rw [List.forall_mem_cons] at absent
        cases parts with
        | nil => rw [List.intercalate_singleton, split_of_not_mem absent.1]
        | cons next others =>
            rw [List.intercalate_cons_cons, List.append_assoc,
              List.singleton_append, split_append_cons absent.1,
              ih (List.cons_ne_nil next others) absent.2]

end Text

namespace DateRange.Dynamic

/-! ## Letter case -/

theorem isPart_letter
    {char : Char} (low : 65 ≤ char.toNat) (high : char.toNat ≤ 122) :
    char ≠ '|' ∧ Text.isBlank char = false := by
  constructor
  · rintro rfl
    exact absurd high (by decide)
  · simp [Text.isBlank]
    omega

/-- Only a letter has another case. -/
theorem toLower_eq_or
    (char : Char) :
    char.toLower = char ∨
      65 ≤ char.toNat ∧ char.toNat ≤ 90 ∧
        char.toLower.toNat = char.toNat + 32 := by
  unfold Char.toLower
  split
  · next upper =>
      have low : 65 ≤ char.toNat := UInt32.le_iff_toNat_le.mp upper.1
      have high : char.val.toNat ≤ 90 := UInt32.le_iff_toNat_le.mp upper.2
      have apart : ('a'.val - 'A'.val).toNat = 32 := by decide
      refine .inr ⟨low, high, ?_⟩
      simp only [Char.toNat, UInt32.toNat_add, apart]
      omega
  · exact .inl rfl

/-- A letter may stand in a part in either case. -/
theorem isPart_toLower_iff
    (char : Char) :
    char.toLower ≠ '|' ∧ Text.isBlank char.toLower = false ↔
      char ≠ '|' ∧ Text.isBlank char = false := by
  rcases toLower_eq_or char with same | ⟨low, high, lowered⟩
  · rw [same]
  · exact
      iff_of_true (isPart_letter (by omega) (by omega))
        (isPart_letter low (by omega))

theorem isPart_fold_iff
    {text : List Char} :
    IsPart (Text.fold text) ↔ IsPart text := by
  simp only [IsPart, Text.fold, List.forall_mem_map, isPart_toLower_iff]

/-! ## The spellings of a part -/

/-- Whether a text is a name, in any letter case and with blanks around it. -/
def SpellsName (name : String) (text : List Char) : Prop :=
  ∃ core, Text.sameIgnoringCase core name.toList = true ∧
    Text.Padded core text

/-- Whether a text is a whole number in decimal, with blanks around it. -/
def SpellsNumber (number : Int) (text : List Char) : Prop :=
  ∃ core, Decimal.WritesInt core number ∧ Text.Padded core text

theorem IsPart.of_sameIgnoringCase
    {core name : List Char} (isPart : IsPart name)
    (same : Text.sameIgnoringCase core name = true) :
    IsPart core := by
  rw [Text.sameIgnoringCase_iff] at same
  rw [← isPart_fold_iff, same, isPart_fold_iff]
  exact isPart

theorem isPart_of_writesInt
    {text : List Char} {number : Int}
    (written : Decimal.WritesInt text number) :
    IsPart text := by
  obtain ⟨sign, zeros, rfl, signed⟩ := written
  have first : IsPart sign := by
    rcases signed with ⟨rfl, -⟩ | ⟨allowed, -⟩
    · decide
    · revert sign
      decide
  have padding : IsPart (List.replicate zeros '0') := by
    intro char member
    rw [List.eq_of_mem_replicate member]
    decide
  have digits : IsPart (Decimal.writeNat number.natAbs) :=
    Decimal.forall_mem_writeNat isPart_digitChar _
  exact
    List.forall_mem_append.mpr
      ⟨first, List.forall_mem_append.mpr ⟨padding, digits⟩⟩

theorem IsPart.trim_of_padded
    {core text : List Char} (isPart : IsPart core)
    (padded : Text.Padded core text) :
    Text.trim text = core :=
  padded.trim_eq fun char member => (isPart char member).2

theorem IsPart.not_mem_of_padded
    {core text : List Char} (isPart : IsPart core)
    (padded : Text.Padded core text) :
    '|' ∉ text :=
  padded.not_mem (by decide) isPart.not_mem

theorem sameIgnoringCase_trim_iff
    {name : String} {text : List Char} (isPart : IsPart name.toList) :
    Text.sameIgnoringCase (Text.trim text) name.toList = true ↔
      SpellsName name text := by
  constructor
  · exact fun same => ⟨_, same, Text.padded_trim text⟩
  · rintro ⟨core, same, padded⟩
    rw [(isPart.of_sameIgnoringCase same).trim_of_padded padded]
    exact same

theorem SpellsName.not_mem
    {name : String} {text : List Char} (isPart : IsPart name.toList)
    (spelled : SpellsName name text) :
    '|' ∉ text := by
  obtain ⟨core, same, padded⟩ := spelled
  exact (isPart.of_sameIgnoringCase same).not_mem_of_padded padded

theorem SpellsNumber.not_mem
    {number : Int} {text : List Char} (spelled : SpellsNumber number text) :
    '|' ∉ text := by
  obtain ⟨core, written, padded⟩ := spelled
  exact (isPart_of_writesInt written).not_mem_of_padded padded

theorem ofName?_trim_iff
    {magnitude : Magnitude} {text : List Char} :
    Magnitude.ofName? (Text.trim text) = some magnitude ↔
      SpellsName magnitude.name text := by
  rw [← sameIgnoringCase_trim_iff (isPart_magnitude magnitude)]
  constructor
  · exact List.find?_some
  · intro same
    rw [Text.sameIgnoringCase_iff] at same
    rw [← Magnitude.ofName?_name magnitude]
    simp only [Magnitude.ofName?, Text.sameIgnoringCase, same]

theorem weekdayOfName?_trim_iff
    {day : Calendar.Weekday} {text : List Char} :
    Calendar.Weekday.ofName? (Text.trim text) = some day ↔
      SpellsName day.name text := by
  rw [← sameIgnoringCase_trim_iff (isPart_weekday day)]
  constructor
  · exact List.find?_some
  · intro same
    rw [Text.sameIgnoringCase_iff] at same
    rw [← Calendar.Weekday.ofName?_name day]
    simp only [Calendar.Weekday.ofName?, Text.sameIgnoringCase, same]

theorem readInt32?_trim_iff
    {number : Int32} {text : List Char} :
    Decimal.readInt32? (Text.trim text) = some number ↔
      SpellsNumber number.toInt text := by
  rw [Decimal.readInt32?_eq_some_iff]
  constructor
  · exact fun written => ⟨_, written, Text.padded_trim text⟩
  · rintro ⟨core, written, padded⟩
    rw [(isPart_of_writesInt written).trim_of_padded padded]
    exact written

/-! ## The spellings of a range -/

/-- The part with the first day of the week, which may be left out for
Sunday. -/
inductive SpellsWeek (day : Calendar.Weekday) : List (List Char) → Prop
  | unsaid (usual : day = .sunday) : SpellsWeek day []
  | said {part : List Char} (named : SpellsName day.name part) :
      SpellsWeek day [part]

/-- The parts that give a range, after the word in front. -/
inductive SpellsParts (range : Dynamic) : List (List Char) → Prop
  | both {startMagnitude startOffset endMagnitude endOffset : List Char}
      {week : List (List Char)}
      (first : SpellsName range.startMagnitude.name startMagnitude)
      (second : SpellsNumber range.startOffset.toInt startOffset)
      (third : SpellsName range.endMagnitude.name endMagnitude)
      (fourth : SpellsNumber range.endOffset.toInt endOffset)
      (last : SpellsWeek range.firstDayOfWeek week) :
      SpellsParts range
        (startMagnitude :: startOffset :: endMagnitude :: endOffset :: week)

/-- Whether a text is a spelling of a range: its parts with a mark between any
two of them, after the word `Dynamic` or without it. -/
def Spells (range : Dynamic) (text : List Char) : Prop :=
  ∃ word parts,
    text = ['|'].intercalate (word ++ parts) ∧
      (word = [] ∨ ∃ part, word = [part] ∧ SpellsName "Dynamic" part) ∧
      SpellsParts range parts

/-- The first day of the week that the parts after the bounds give. -/
def firstDay? : List (List Char) → Option Calendar.Weekday
  | [] => some .sunday
  | [day] => Calendar.Weekday.ofName? day
  | _ => none

theorem ofParts?_cons
    (startMagnitude startOffset endMagnitude endOffset : List Char)
    (week : List (List Char)) :
    ofParts?
        (startMagnitude :: startOffset :: endMagnitude :: endOffset :: week) =
      (firstDay? week).bind fun day =>
        (Magnitude.ofName? startMagnitude).bind fun first =>
          (Decimal.readInt32? startOffset).bind fun second =>
            (Magnitude.ofName? endMagnitude).bind fun third =>
              (Decimal.readInt32? endOffset).bind fun fourth =>
                some ⟨first, second, third, fourth, day⟩ := by
  rcases week with _ | ⟨part, _ | ⟨next, others⟩⟩ <;> rfl

theorem firstDay?_trim_iff
    {day : Calendar.Weekday} {week : List (List Char)} :
    firstDay? (week.map Text.trim) = some day ↔ SpellsWeek day week := by
  rcases week with _ | ⟨part, _ | ⟨next, others⟩⟩
  · constructor
    · exact fun usual => .unsaid (Option.some_inj.mp usual).symm
    · rintro ⟨rfl⟩
      rfl
  · constructor
    · exact fun named => .said (weekdayOfName?_trim_iff.mp named)
    · rintro ⟨⟩
      next named => exact weekdayOfName?_trim_iff.mpr named
  · constructor
    · exact nofun
    · exact nofun

/-- A range is read from its parts, and from nothing else. -/
theorem ofParts?_trim_iff
    {range : Dynamic} {parts : List (List Char)} :
    ofParts? (parts.map Text.trim) = some range ↔ SpellsParts range parts := by
  constructor
  · intro read
    rcases parts with _ | ⟨a, _ | ⟨b, _ | ⟨c, _ | ⟨d, week⟩⟩⟩⟩
    case cons.cons.cons.cons =>
      simp only [List.map_cons, ofParts?_cons, Option.bind_eq_some_iff,
        Option.some_inj] at read
      obtain
        ⟨day, last, magnitude, first, offset, second, magnitude', third,
          offset', fourth, rfl⟩ := read
      exact
        .both (ofName?_trim_iff.mp first) (readInt32?_trim_iff.mp second)
          (ofName?_trim_iff.mp third) (readInt32?_trim_iff.mp fourth)
          (firstDay?_trim_iff.mp last)
    -- there are too few parts
    all_goals cases read
  · rintro ⟨first, second, third, fourth, last⟩
    simp only [List.map_cons, ofParts?_cons, firstDay?_trim_iff.mpr last,
      ofName?_trim_iff.mpr first, readInt32?_trim_iff.mpr second,
      ofName?_trim_iff.mpr third, readInt32?_trim_iff.mpr fourth,
      Option.bind_some]

theorem SpellsWeek.not_mem
    {day : Calendar.Weekday} {week : List (List Char)}
    (spelled : SpellsWeek day week) :
    ∀ part ∈ week, '|' ∉ part := by
  cases spelled with
  | unsaid => exact List.forall_mem_nil _
  | said named =>
      exact List.forall_mem_singleton.mpr (named.not_mem (isPart_weekday _))

theorem SpellsParts.not_mem
    {range : Dynamic} {parts : List (List Char)}
    (spelled : SpellsParts range parts) :
    ∀ part ∈ parts, '|' ∉ part := by
  cases spelled with
  | both first second third fourth last =>
      exact
        List.forall_mem_cons.mpr
          ⟨first.not_mem (isPart_magnitude _),
            List.forall_mem_cons.mpr
              ⟨second.not_mem,
                List.forall_mem_cons.mpr
                  ⟨third.not_mem (isPart_magnitude _),
                    List.forall_mem_cons.mpr
                      ⟨fourth.not_mem, last.not_mem⟩⟩⟩⟩

theorem isPart_word :
    IsPart "Dynamic".toList := by
  decide

theorem isWord_trim_iff
    {text : List Char} :
    Text.sameIgnoringCase (Text.trim text) "dynamic".toList = true ↔
      SpellsName "Dynamic" text := by
  have small :
      Text.fold "dynamic".toList = Text.fold "Dynamic".toList := by
    decide
  rw [← sameIgnoringCase_trim_iff isPart_word, Text.sameIgnoringCase_iff,
    Text.sameIgnoringCase_iff, small]

/-- The name of a period is not taken for the word in front. -/
theorem SpellsName.not_word
    {magnitude : Magnitude} {text : List Char}
    (spelled : SpellsName magnitude.name text) :
    Text.sameIgnoringCase (Text.trim text) "dynamic".toList = false := by
  have same :=
    (sameIgnoringCase_trim_iff (isPart_magnitude magnitude)).mpr spelled
  rw [Text.sameIgnoringCase_iff] at same
  rw [Text.sameIgnoringCase, same]
  cases magnitude <;> decide

/-- The texts that are read as a range are its spellings. -/
theorem deserialize?_eq_some_iff
    {range : Dynamic} {text : String} :
    deserialize? text = some range ↔ range.Spells text.toList := by
  constructor
  · intro read
    obtain ⟨first, rest, divided⟩ :=
      List.exists_cons_of_ne_nil (Text.split_ne_nil '|' text.toList)
    obtain ⟨-, -, whole⟩ := Text.split_eq_iff.mp divided
    rw [deserialize?, divided, List.map_cons] at read
    dsimp only at read
    split at read
    · next word =>
        exact
          ⟨[first], rest, whole, .inr ⟨first, rfl, isWord_trim_iff.mp word⟩,
            ofParts?_trim_iff.mp read⟩
    · rw [← List.map_cons] at read
      exact ⟨[], first :: rest, whole, .inl rfl, ofParts?_trim_iff.mp read⟩
  · rintro ⟨_, parts, whole, rfl | ⟨part, rfl, word⟩, spelled⟩
    · have nonempty : parts ≠ [] := by
        rintro rfl
        cases spelled
      have divided : Text.split '|' text.toList = parts :=
        Text.split_eq_iff.mpr ⟨nonempty, spelled.not_mem, whole⟩
      have read := ofParts?_trim_iff.mpr spelled
      rw [deserialize?, divided]
      cases spelled with
      | both first =>
          rw [List.map_cons] at read ⊢
          dsimp only
          rw [first.not_word]
          exact read
    · have divided : Text.split '|' text.toList = part :: parts :=
        Text.split_eq_iff.mpr
          ⟨List.cons_ne_nil part parts,
            List.forall_mem_cons.mpr
              ⟨word.not_mem isPart_word, spelled.not_mem⟩,
            whole⟩
      rw [deserialize?, divided, List.map_cons]
      dsimp only
      rw [isWord_trim_iff.mpr word]
      exact ofParts?_trim_iff.mpr spelled

theorem serialize_injective :
    Function.Injective serialize := by
  intro range other same
  have read := deserialize?_serialize range
  rw [same, deserialize?_serialize other] at read
  exact (Option.some_inj.mp read).symm

/-- What is written for a range is read as that range, and so is what is
written for the range of a text that is read.  The texts that are read as a
range are its spellings.  So texts are brought to one text exactly when they
mean the same. -/
theorem deserialize?_normalizes :
    (∀ range : Dynamic, deserialize? range.serialize = some range) ∧
      (∀ text range, deserialize? text = some range →
        deserialize? range.serialize = some range) ∧
      (∀ text range, deserialize? text = some range ↔
        range.Spells text.toList) ∧
      ∀ text other,
        (deserialize? text).map serialize =
            (deserialize? other).map serialize ↔
          deserialize? text = deserialize? other := by
  refine ⟨deserialize?_serialize, ?_, ?_, ?_⟩
  · intro text range _
    exact deserialize?_serialize range
  · intro text range
    exact deserialize?_eq_some_iff
  · intro text other
    exact (Option.map_injective serialize_injective).eq_iff

/-- A text in the older form, with blanks, signs, zeros and letters of either
case, and the text that it is brought to. -/
theorem normalizes_an_older_spelling :
    deserialize? " month | -01 |MONTH|+0| monday " =
        some ⟨.month, -1, .month, 0, .monday⟩ ∧
      deserialize? "Dynamic|Month|-1|Month|0|Monday" =
        some ⟨.month, -1, .month, 0, .monday⟩ := by
  have read :
      deserialize? " month | -01 |MONTH|+0| monday " =
        some ⟨.month, -1, .month, 0, .monday⟩ := by
    decide
  have written :
      serialize ⟨.month, -1, .month, 0, .monday⟩ =
        "Dynamic|Month|-1|Month|0|Monday" := by
    decide +kernel
  have again := deserialize?_normalizes.2.1 _ _ read
  rw [written] at again
  exact ⟨read, again⟩

end DateRange.Dynamic

end AmlExchange
