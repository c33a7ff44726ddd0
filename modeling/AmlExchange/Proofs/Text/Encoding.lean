import AmlExchange.Markup.ByteCursor
import AmlExchange.Text.Search

/-!
# Characters as bytes

A character is encoded as one byte below 128, or as a leading byte and the
bytes that continue it.  So a test of bytes that tells characters divides the
bytes of a text where the characters are divided, a mark is found among the
bytes where it is found among the characters, and the place after the bytes of
a text is the place after the text.
-/

namespace AmlExchange.Text

open Markup.ByteCursor (before? isContinuation stepPlace)

/-- The bytes of a text. -/
def encode (text : List Char) : List UInt8 :=
  text.flatMap String.utf8EncodeChar

@[simp]
theorem encode_nil : encode [] = [] :=
  rfl

@[simp]
theorem encode_cons (char : Char) (rest : List Char) :
    encode (char :: rest) = String.utf8EncodeChar char ++ encode rest :=
  rfl

@[simp]
theorem encode_append (first second : List Char) :
    encode (first ++ second) = encode first ++ encode second :=
  List.flatMap_append

theorem encode_toList (text : String) :
    encode text.toList = text.toByteArray.data.toList := by
  rw [← String.utf8Encode_toList]
  exact List.toList_data_toByteArray.symm

theorem length_encode (text : String) :
    (encode text.toList).length = text.utf8ByteSize := by
  rw [encode_toList, Array.length_toList]
  rfl

/-- The bytes of a text are read as the text. -/
theorem fromUTF8?_encode (text : List Char) :
    String.fromUTF8? (encode text).toByteArray = some (String.ofList text) := by
  have bytes :
      (encode text).toByteArray = (String.ofList text).toByteArray := by
    rw [← String.utf8Encode_toList, String.toList_ofList]
    rfl
  rw [bytes, String.fromUTF8?, dif_pos (String.ofList text).isValidUTF8]
  rfl

/-! ## One character -/

/-- A character is one byte, or a leading byte and those that continue it. -/
theorem utf8EncodeChar_cases (char : Char) :
    (char.toNat < 128 ∧
      String.utf8EncodeChar char = [UInt8.ofNat char.toNat]) ∨
      128 ≤ char.toNat ∧
        ∃ lead more, String.utf8EncodeChar char = lead :: more ∧
          0xC0 ≤ lead.toNat ∧ ∀ byte ∈ more, isContinuation byte = true := by
  have code : char.val.toNat = char.toNat := rfl
  have continues (number : Nat) :
      isContinuation (UInt8.ofNat (number % 64 + 128)) = true := by
    simp only [isContinuation, UInt8.toNat_ofNat', Bool.and_eq_true,
      decide_eq_true_eq]
    omega
  have all := List.forall_mem_nil fun byte => isContinuation byte = true
  fun_cases String.utf8EncodeChar char with
  | case1 _ small => exact .inl ⟨by omega, rfl⟩
  | case2 _ large _ =>
      refine .inr ⟨by omega, _, _, rfl, ?_, ?_⟩
      · rw [UInt8.toNat_ofNat']
        omega
      · exact List.forall_mem_cons.mpr ⟨continues _, all⟩
  | case3 _ large _ _ =>
      refine .inr ⟨by omega, _, _, rfl, ?_, ?_⟩
      · rw [UInt8.toNat_ofNat']
        omega
      · simp only [List.forall_mem_cons]
        exact ⟨continues _, continues _, all⟩
  | case4 _ large _ _ =>
      refine .inr ⟨by omega, _, _, rfl, ?_, ?_⟩
      · rw [UInt8.toNat_ofNat']
        omega
      · simp only [List.forall_mem_cons]
        exact ⟨continues _, continues _, continues _, all⟩

/-- A character has a first byte, which continues nothing, and the others
continue it. -/
theorem exists_lead (char : Char) :
    ∃ lead more, String.utf8EncodeChar char = lead :: more ∧
      isContinuation lead = false ∧
      ∀ byte ∈ more, isContinuation byte = true := by
  rcases utf8EncodeChar_cases char with
    ⟨small, bytes⟩ | ⟨-, lead, more, bytes, high, continue_⟩
  · refine ⟨_, [], bytes, ?_, List.forall_mem_nil _⟩
    rw [isContinuation, UInt8.toNat_ofNat']
    simp only [Bool.and_eq_false_iff, decide_eq_false_iff_not]
    omega
  · refine ⟨lead, more, bytes, ?_, continue_⟩
    simp only [isContinuation, Bool.and_eq_false_iff, decide_eq_false_iff_not]
    omega

/-- The one byte of a small character. -/
theorem utf8EncodeChar_of_mem {char : Char} {byte : UInt8}
    (ascii : char.toNat < 128) (member : byte ∈ String.utf8EncodeChar char) :
    String.utf8EncodeChar char = [byte] := by
  rcases utf8EncodeChar_cases char with ⟨-, bytes⟩ | ⟨beyond, -⟩
  · rw [bytes, List.mem_singleton] at member
    rw [bytes, member]
  · exact absurd ascii (Nat.not_lt.mpr beyond)

theorem encode_ne_nil {text : List Char} (some_ : text ≠ []) :
    encode text ≠ [] := by
  cases text with
  | nil => exact absurd rfl some_
  | cons char rest =>
      obtain ⟨lead, more, bytes, -⟩ := exists_lead char
      simp [bytes]

/-- Bytes that continue a character move the place on by their number. -/
theorem foldl_stepPlace_more
    {more : List UInt8} (inside : ∀ byte ∈ more, isContinuation byte = true)
    (place : Position) :
    more.foldl stepPlace place =
      { place with offset := place.offset + more.length } := by
  induction more generalizing place with
  | nil => rfl
  | cons byte rest ih =>
      rw [List.forall_mem_cons] at inside
      have noFeed : byte ≠ 10 := by
        rintro rfl
        exact absurd inside.1 (by decide)
      rw [List.foldl_cons, stepPlace, if_neg noFeed, if_pos inside.1,
        ih inside.2, List.length_cons, Nat.add_assoc, Nat.add_comm 1]

/-- The place after the bytes of a character. -/
theorem foldl_stepPlace_char (char : Char) (place : Position) :
    (String.utf8EncodeChar char).foldl stepPlace place = place.step char := by
  have width := String.length_utf8EncodeChar char
  have feed : char = '\n' ↔ char.toNat = 10 :=
    ⟨fun same => same ▸ rfl, fun same => Char.toNat_inj.mp same⟩
  rcases utf8EncodeChar_cases char with
    ⟨small, bytes⟩ | ⟨large, lead, more, bytes, high, inside⟩
  · have same : UInt8.ofNat char.toNat = 10 ↔ char = '\n' := by
      rw [feed, ← UInt8.toNat_inj, UInt8.toNat_ofNat',
        Nat.mod_eq_of_lt (by omega)]
      rfl
    have single : isContinuation (UInt8.ofNat char.toNat) = false := by
      rw [isContinuation, UInt8.toNat_ofNat', Nat.mod_eq_of_lt (by omega)]
      simp only [Bool.and_eq_false_iff, decide_eq_false_iff_not]
      omega
    rw [bytes] at width ⊢
    simp only [List.foldl_cons, List.foldl_nil, stepPlace, Position.step, same,
      single, ← width, List.length_singleton, Bool.false_eq_true, if_false]
  · have noFeed : lead ≠ 10 := by
      rintro rfl
      exact absurd high (by decide)
    have begins : isContinuation lead = false := by
      simp only [isContinuation, Bool.and_eq_false_iff,
        decide_eq_false_iff_not]
      omega
    have noFeedChar : char ≠ '\n' := by
      rw [Ne, feed]
      omega
    rw [bytes] at width ⊢
    rw [List.foldl_cons, stepPlace, if_neg noFeed, begins,
      if_neg Bool.false_ne_true, foldl_stepPlace_more inside, Position.step,
      if_neg noFeedChar, ← width, List.length_cons]
    simp only [Nat.add_assoc, Nat.add_comm 1]

/-- The place after the bytes of a text. -/
theorem foldl_stepPlace_encode (text : List Char) (place : Position) :
    (encode text).foldl stepPlace place = place.past text := by
  induction text generalizing place with
  | nil => rfl
  | cons char rest ih =>
      rw [encode_cons, List.foldl_append, foldl_stepPlace_char, ih,
        Position.past_cons]

/-! ## Stretches of a text -/

/-- A test of bytes that comes out alike on all bytes of a character. -/
def Tells (byteTest : UInt8 → Bool) (test : Char → Bool) : Prop :=
  ∀ char, ∀ byte ∈ String.utf8EncodeChar char, byteTest byte = test char

section

variable {byteTest : UInt8 → Bool} {test : Char → Bool}

/-- The test is told by the small bytes, and by what it makes of all others. -/
theorem tells_of_ascii (others : Bool)
    (small : ∀ number < 128, byteTest (UInt8.ofNat number) =
      test (Char.ofNat number))
    (large : ∀ byte : UInt8, 128 ≤ byte.toNat →
      byteTest byte = others)
    (beyond : ∀ char : Char, 128 ≤ char.toNat → test char = others) :
    Tells byteTest test := by
  intro char byte member
  rcases utf8EncodeChar_cases char with
    ⟨ascii, bytes⟩ | ⟨notAscii, lead, more, bytes, high, inside⟩
  · rw [bytes, List.mem_singleton] at member
    rw [member, small _ ascii, Char.ofNat_toNat]
  · rw [bytes] at member
    rw [beyond char notAscii]
    apply large
    rcases List.mem_cons.mp member with rfl | later
    · omega
    · have continues := inside byte later
      simp only [isContinuation, Bool.and_eq_true, decide_eq_true_eq]
        at continues
      exact continues.1

theorem takeWhile_encode
    (tells : Tells byteTest test) (text : List Char) :
    (encode text).takeWhile byteTest = encode (text.takeWhile test) := by
  induction text with
  | nil => rfl
  | cons char rest ih =>
      have alike := tells char
      rw [encode_cons]
      cases passes : test char with
      | true =>
          rw [passes] at alike
          rw [List.takeWhile_append_of_pos alike, ih,
            List.takeWhile_cons_of_pos passes, encode_cons]
      | false =>
          rw [passes] at alike
          obtain ⟨lead, more, bytes, -⟩ := exists_lead char
          have stops : byteTest lead = false :=
            alike lead (bytes ▸ List.mem_cons_self)
          rw [List.takeWhile_cons_of_neg (Bool.eq_false_iff.mp passes), bytes,
            List.cons_append,
            List.takeWhile_cons_of_neg (Bool.eq_false_iff.mp stops)]
          rfl

end

/-! ## Marks -/

/-- A mark comes next among the bytes where it comes next among the
characters. -/
theorem isPrefixOf_encode (mark text : List Char) :
    (encode mark).isPrefixOf (encode text) = mark.isPrefixOf text := by
  rw [Bool.eq_iff_iff, List.isPrefixOf_iff_prefix, List.isPrefixOf_iff_prefix]
  constructor
  · rintro ⟨rest, same⟩
    refine List.isPrefix_of_utf8Encode_append_eq_utf8Encode rest.toByteArray ?_
    show (encode mark).toByteArray ++ rest.toByteArray =
      (encode text).toByteArray
    rw [← same, List.toByteArray_append]
  · rintro ⟨rest, rfl⟩
    exact ⟨encode rest, (encode_append mark rest).symm⟩

/-- No mark begins with a byte that continues a character. -/
theorem before?_append_of_inside
    {mark more : List UInt8} {lead : UInt8} {markRest : List UInt8}
    (begins : mark = lead :: markRest) (leads : isContinuation lead = false)
    (inside : ∀ byte ∈ more, isContinuation byte = true)
    (rest : List UInt8) :
    before? mark (more ++ rest) = (before? mark rest).map (more ++ ·) := by
  induction more with
  | nil => simp
  | cons byte others ih =>
      rw [List.forall_mem_cons] at inside
      have differs : lead ≠ byte := by
        rintro rfl
        exact absurd inside.1 (Bool.eq_false_iff.mp leads)
      have absent : mark.isPrefixOf (byte :: (others ++ rest)) = false := by
        rw [begins, List.isPrefixOf_cons_cons, beq_eq_false_iff_ne.mpr differs,
          Bool.false_and]
      rw [List.cons_append, before?, absent, if_neg Bool.false_ne_true,
        ih inside.2, Option.map_map]
      rfl

/-- A mark is found first among the bytes where it is found first among the
characters. -/
theorem before?_encode {mark : List Char} (marked : mark ≠ [])
    (text : List Char) :
    before? (encode mark) (encode text) =
      (cutAt? mark text).map fun parts => encode parts.1 := by
  obtain ⟨markLead, markRest, begins, leads⟩ :
      ∃ lead rest,
        encode mark = lead :: rest ∧ isContinuation lead = false := by
    cases mark with
    | nil => exact absurd rfl marked
    | cons char others =>
        obtain ⟨lead, more, bytes, leads, -⟩ := exists_lead char
        exact ⟨lead, more ++ encode others, by simp [bytes], leads⟩
  induction text with
  | nil => simp [before?, cutAt?, marked]
  | cons char rest ih =>
      obtain ⟨lead, more, bytes, -, inside⟩ := exists_lead char
      have whole : encode (char :: rest) = lead :: (more ++ encode rest) := by
        simp [bytes]
      rw [whole, before?, ← whole, isPrefixOf_encode, cutAt?]
      split
      · rfl
      · rw [before?_append_of_inside begins leads inside, ih]
        simp [Option.map_map, Function.comp_def, bytes]

end AmlExchange.Text
