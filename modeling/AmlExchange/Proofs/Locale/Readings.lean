import AmlExchange.Proofs.Locale.Clocks

/-!
# Values sent and read back

A value is sent as a text, and a text is what comes back.  A reading that fits
the value fits its text as well and gives the same, with two exceptions
(`readings_of_sent_value`).  Every whole number but zero is true, but of their
texts only that of one is.  And a moment that a clock cannot show stays on the
clock it is on, which is the server's once the moment was sent.
-/

namespace AmlExchange

open Calendar (DateTime InUse ZonedDateTime)

/-! ## One moment on several clocks -/

namespace Calendar

theorem DateTime.truncate_eq_truncate_iff
    {moment other : DateTime} :
    moment.truncate = other.truncate ↔ moment.second = other.second :=
  ⟨congrArg DateTime.second, fun same => DateTime.ext same rfl⟩

namespace ZonedDateTime

variable {moment other : ZonedDateTime} {offset : Int}

/-- Whether the clock of a zone can show a moment: its day there is in use. -/
def ShownAt (moment : ZonedDateTime) (offset : Int) : Prop :=
  InUse ((moment.universalSecond + offset) / 86400)

instance : Decidable (moment.ShownAt offset) :=
  inferInstanceAs (Decidable (InUse _))

theorem universalSecond_add :
    moment.universalSecond + offset =
      moment.reading.second + (offset - moment.offset) := by
  rw [universalSecond]
  omega

theorem second_toZone
    (shown : moment.ShownAt offset) :
    (moment.toZone offset).second = moment.universalSecond + offset := by
  rw [ShownAt, universalSecond_add] at shown
  obtain ⟨later, shifted⟩ := DateTime.exists_shift? shown
  rw [toZone, shifted, Option.getD_some, universalSecond_add]
  exact (DateTime.shift?_eq_some.mp shifted).1

theorem toZone_of_not_shown
    (hidden : ¬ moment.ShownAt offset) :
    moment.toZone offset = moment.reading := by
  rw [ShownAt, universalSecond_add] at hidden
  rw [toZone, DateTime.shift?, DateTime.ofSecond?,
    dif_neg fun fits => hidden fits.1]
  rfl

/-- Two readings of one moment lead to the same one on a third clock, unless
that clock cannot show the moment and they are on different clocks. -/
theorem truncate_toZone_eq_iff
    (same : other.universalSecond = moment.universalSecond) :
    (other.toZone offset).truncate = (moment.toZone offset).truncate ↔
      moment.ShownAt offset ∨ moment.offset = other.offset := by
  rw [DateTime.truncate_eq_truncate_iff]
  by_cases shown : moment.ShownAt offset
  · have alike : other.ShownAt offset := by
      rw [ShownAt, same]
      exact shown
    rw [second_toZone shown, second_toZone alike, same]
    exact iff_of_true rfl (.inl shown)
  · have alike : ¬ other.ShownAt offset := by
      rw [ShownAt, same]
      exact shown
    rw [toZone_of_not_shown shown, toZone_of_not_shown alike,
      or_iff_right shown]
    rw [universalSecond, universalSecond] at same
    omega

end ZonedDateTime

end Calendar

/-! ## Written values as texts -/

namespace Decimal

theorem writeInt_ne_nil
    (number : Int) :
    writeInt number ≠ [] := by
  rw [writeInt]
  split
  · exact List.cons_ne_nil _ _
  · exact writeNat_ne_nil _

theorem writeInt_eq_iff
    {number other : Int} :
    writeInt number = writeInt other ↔ number = other := by
  refine ⟨fun same => ?_, congrArg writeInt⟩
  have read := readInt?_writeInt number
  rw [same, readInt?_writeInt] at read
  exact (Option.some.inj read).symm

theorem writeInt_zero :
    writeInt 0 = ['0'] := by
  rw [writeInt, if_neg (by decide), writeNat]
  rfl

theorem writeInt_one :
    writeInt 1 = ['1'] := by
  rw [writeInt, if_neg (by decide), writeNat]
  rfl

theorem readInt64?_writeInt
    (number : Int64) :
    readInt64? (writeInt number.toInt) = some number := by
  rw [readInt64?, readInt?_writeInt, Option.bind_some, toInt64?_toInt]

theorem toLower_digitChar_ne
    {digit : Nat} (small : digit < 10) :
    (digitChar digit).toLower ≠ 'e' := by
  decide +revert

/-- A number is written without letters. -/
theorem letter_not_mem_fold_writeInt
    (number : Int) :
    'e' ∉ Text.fold (writeInt number) := by
  have digits : ∀ char ∈ writeNat number.natAbs, char.toLower ≠ 'e' :=
    @forall_mem_writeNat (fun char => char.toLower ≠ 'e')
      toLower_digitChar_ne _
  have all : ∀ char ∈ writeInt number, char.toLower ≠ 'e' := by
    rw [writeInt]
    split
    · exact List.forall_mem_cons.mpr ⟨by decide, digits⟩
    · exact digits
  rw [Text.fold, List.mem_map]
  rintro ⟨char, member, lower⟩
  exact all char member lower

end Decimal

namespace Guid

theorem forall_mem_write
    {holds : Char → Prop}
    (digits : ∀ digit : Fin 16, holds (Decimal.digitChar digit.val).toUpper)
    (guid : Guid) :
    ∀ char ∈ guid.write, holds char :=
  List.forall_mem_map.mpr fun digit _ => digits digit

theorem write_ne_nil
    (guid : Guid) :
    guid.write ≠ [] := by
  have length : guid.write.length = 32 := by
    rw [write, List.length_map, guid.complete]
  exact List.ne_nil_of_length_pos (by omega)

theorem trim_write
    (guid : Guid) :
    Text.trim guid.write = guid.write :=
  Text.trim_of_visible <|
    @forall_mem_write (fun char => Text.isBlank char = false) (by decide)
      guid

end Guid

namespace Locale

variable {α β : Type} {locale : Locale} {value : Value}

/-- The digits of an identity do not begin as the name of a file does. -/
theorem readGuid_write
    (guid : Guid) :
    readGuid guid.write = some guid := by
  have noHead : Text.afterHead? vaultHead.toList guid.write = none := by
    rw [Text.afterHead?, if_neg]
    rw [Text.sameIgnoringCase_iff]
    intro same
    have letter : 'v' ∈ Text.fold vaultHead.toList := by decide
    rw [← same, Text.fold, List.mem_map] at letter
    obtain ⟨char, member, lower⟩ := letter
    exact
      @Guid.forall_mem_write (fun char => char.toLower ≠ 'v') (by decide)
        guid char (List.mem_of_mem_take member) lower
  rw [readGuid, noHead]
  exact guid.read?_write

/-- Of the texts of whole numbers two name a truth value. -/
theorem readBoolean_writeInt
    (number : Int) :
    readBoolean (Decimal.writeInt number) =
      if number = 1 then some true
      else if number = 0 then some false
      else none := by
  have one : Decimal.writeInt number = ['1'] ↔ number = 1 := by
    rw [← Decimal.writeInt_one, Decimal.writeInt_eq_iff]
  have zero : Decimal.writeInt number = ['0'] ↔ number = 0 := by
    rw [← Decimal.writeInt_zero, Decimal.writeInt_eq_iff]
  have noWord
      (word : List Char) (letter : 'e' ∈ Text.fold word) :
      ¬ Text.sameIgnoringCase (Decimal.writeInt number) word = true := by
    rw [Text.sameIgnoringCase_iff]
    intro same
    exact Decimal.letter_not_mem_fold_writeInt number (same ▸ letter)
  rw [readBoolean, if_neg (noWord "true".toList (by decide)),
    if_neg (noWord "false".toList (by decide))]
  simp only [one, zero]

/-! ## Readings that keep their result -/

/-- Whether what a reading gives of a value, it gives of the text that is sent
for the value. -/
def Keeps (locale : Locale) (read : Value → Except Fault (Option α))
    (value : Value) : Prop :=
  ∀ result, read value = .ok result →
    read (.text (locale.format value)) = .ok result

/-- As `Keeps`, up to what is seen of the two results. -/
def KeepsUpTo (locale : Locale) (view : α → β)
    (read : Value → Except Fault (Option α)) (value : Value) : Prop :=
  ∀ result, read value = .ok result →
    ∃ again, read (.text (locale.format value)) = .ok again ∧
      again.map view = result.map view

theorem keeps_text
    {read : Value → Except Fault (Option α)} {text : String} :
    locale.Keeps read (.text text) := by
  intro result reads
  rwa [format_text]

/-- A truth value is sent as one of the numbers one and zero. -/
theorem format_bool
    (locale : Locale) (value : Bool) :
    locale.format (.bool value) =
      locale.format (.int (if value then 1 else 0)) := by
  rw [format, format, formatChars, formatChars]
  cases value
  · exact congrArg String.ofList Decimal.writeInt_zero.symm
  · exact congrArg String.ofList Decimal.writeInt_one.symm

/-- The characters of a number are read as they are. -/
theorem readText_format_int
    {target : String} {read : List Char → Option α} {number : Int64} :
    readText target read (locale.format (.int number)) =
      match read (Decimal.writeInt number.toInt) with
      | some value => .ok (some value)
      | none => .error (refusal target) := by
  rw [format, formatChars]
  exact
    readText_ofList (DateRange.Dynamic.isPart_writeInt _).trim
      (Decimal.writeInt_ne_nil _)

theorem keeps_asLong_int
    {number : Int64} :
    locale.Keeps asLong (.int number) := by
  intro result reads
  rw [asLong, readText_format_int, Decimal.readInt64?_writeInt]
  exact reads

theorem keeps_asLong
    (whole : ∀ number, value ≠ .float number) :
    locale.Keeps asLong value := by
  cases value with
  | null => exact fun _ reads => reads
  | bool value =>
      intro result reads
      rw [format_bool]
      exact keeps_asLong_int result reads
  | int number => exact keeps_asLong_int
  | float number => exact absurd rfl (whole number)
  | text text => exact keeps_text
  | _ =>
      intro result reads
      cases reads

theorem keeps_asInt
    (whole : ∀ number, value ≠ .float number) :
    locale.Keeps asInt value := by
  intro result reads
  rw [asInt] at reads ⊢
  cases long : asLong value with
  | error fault =>
      rw [long] at reads
      cases reads
  | ok read =>
      rw [keeps_asLong whole read long]
      rwa [long] at reads

theorem keeps_asGuid :
    locale.Keeps asGuid value := by
  cases value with
  | null => exact fun _ reads => reads
  | text text => exact keeps_text
  | guid guid =>
      intro result reads
      rw [format, formatChars, asGuid,
        readText_ofList guid.trim_write guid.write_ne_nil, readGuid_write]
      exact reads
  | _ =>
      intro result reads
      cases reads

/-- As truth values, of the texts of numbers those of zero and one are read as
the numbers are, and all others are refused. -/
theorem asBoolean_format_int
    {number : Int64} :
    asBoolean (.text (locale.format (.int number))) =
      if number = 0 ∨ number = 1 then asBoolean (.int number)
      else .error (refusal "boolean") := by
  refine Eq.trans readText_format_int ?_
  rw [readBoolean_writeInt]
  by_cases one : number = 1
  · subst one
    rfl
  · by_cases zero : number = 0
    · subst zero
      rfl
    · have notOne : number.toInt ≠ 1 := mt (@Int64.toInt_inj number 1).mp one
      have notZero : number.toInt ≠ 0 :=
        mt (@Int64.toInt_inj number 0).mp zero
      rw [if_neg notOne, if_neg notZero, if_neg (not_or.mpr ⟨zero, one⟩)]

theorem keeps_asBoolean_int_iff
    {number : Int64} :
    locale.Keeps asBoolean (.int number) ↔ number = 0 ∨ number = 1 := by
  constructor
  · intro keeps
    have again := keeps _ rfl
    rw [asBoolean_format_int] at again
    split at again
    · next small => exact small
    · cases again
  · intro small result reads
    rw [asBoolean_format_int, if_pos small]
    exact reads

theorem keeps_asBoolean_iff
    (whole : ∀ number, value ≠ .float number) :
    locale.Keeps asBoolean value ↔
      ∀ number, value = .int number → number = 0 ∨ number = 1 := by
  cases value with
  | null => exact iff_of_true (fun _ reads => reads) nofun
  | bool value =>
      refine iff_of_true ?_ nofun
      intro result reads
      rw [format_bool]
      refine keeps_asBoolean_int_iff.mpr ?_ result ?_
      · cases value
        · exact .inl rfl
        · exact .inr rfl
      · cases value <;> exact reads
  | int number =>
      refine keeps_asBoolean_int_iff.trans ⟨?_, fun all => all number rfl⟩
      rintro small _ ⟨⟩
      exact small
  | float number => exact absurd rfl (whole number)
  | text text => exact iff_of_true keeps_text nofun
  | _ =>
      refine iff_of_true ?_ nofun
      intro result reads
      cases reads

/-! ## Moments that are sent -/

variable {moment : ZonedDateTime}

/-- A text is meant on the server's clock. -/
theorem offset_of_asZoned_text
    {text : String} (reads : locale.asZoned (.text text) = .ok (some moment)) :
    moment.offset = locale.serverOffset := by
  rw [asZoned, readText] at reads
  split at reads
  · cases reads
  · split at reads
    · next read =>
        cases reads
        obtain ⟨shown, -, rfl⟩ := Option.map_eq_some_iff.mp read
        rfl
    · cases reads

/-- The text of a moment is read as what the server's clock shows then. -/
theorem asZoned_formatZoned
    (shown : moment.ShownAt locale.serverOffset) :
    ∃ again,
      locale.asZoned (.text (String.ofList (locale.formatZoned moment))) =
          .ok (some again) ∧
        again.universalSecond = moment.universalSecond ∧
        again.offset = locale.serverOffset := by
  refine ⟨_, locale.asZoned_write (moment.toZone locale.serverOffset), ?_, rfl⟩
  have second := ZonedDateTime.second_toZone shown
  rw [ZonedDateTime.universalSecond, DateTime.truncate]
  dsimp only
  rw [second]
  omega

theorem exists_asZoned_sent
    (reads : locale.asZoned value = .ok (some moment))
    (shown : moment.ShownAt locale.serverOffset) :
    ∃ again,
      locale.asZoned (.text (locale.format value)) = .ok (some again) ∧
        again.universalSecond = moment.universalSecond ∧
        again.offset = locale.serverOffset := by
  cases value with
  | text text =>
      rw [format_text]
      exact ⟨moment, reads, rfl, offset_of_asZoned_text reads⟩
  | dateTime value =>
      cases reads
      exact asZoned_formatZoned shown
  | zoned value =>
      cases reads
      exact asZoned_formatZoned shown
  | null => cases reads
  | _ => exact nomatch reads

theorem asZoned_sent_of_none
    (reads : locale.asZoned value = .ok none) :
    locale.asZoned (.text (locale.format value)) = .ok none := by
  cases value with
  | null => rfl
  | text text => exact keeps_text _ reads
  | dateTime value => cases reads
  | zoned value => cases reads
  | _ => exact nomatch reads

/-- Whether the server's clock can show the moment that a value stands for, if
it stands for one. -/
def SendsMoment (locale : Locale) (value : Value) : Prop :=
  ∀ moment, locale.asZoned value = .ok (some moment) →
    moment.ShownAt locale.serverOffset

theorem keepsUpTo_asZoned
    (sends : locale.SendsMoment value) :
    locale.KeepsUpTo ZonedDateTime.universalSecond locale.asZoned value := by
  intro result reads
  cases result with
  | none => exact ⟨none, asZoned_sent_of_none reads, rfl⟩
  | some moment =>
      obtain ⟨again, sent, same, -⟩ :=
        exists_asZoned_sent reads (sends moment reads)
      exact ⟨some again, sent, congrArg some same⟩

/-- What a third clock shows of a moment is what it shows once the moment was
sent, if it can show the moment or nothing was to be converted. -/
theorem keepsUpTo_toZone_iff
    {offset : Int} {read : Value → Except Fault (Option DateTime)}
    (converts :
      ∀ value,
        read value =
          do .ok ((← locale.asZoned value).map (·.toZone offset)))
    (sends : locale.SendsMoment value) :
    locale.KeepsUpTo DateTime.truncate read value ↔
      ∀ moment, locale.asZoned value = .ok (some moment) →
        moment.ShownAt offset ∨ moment.offset = locale.serverOffset := by
  have converted
      {value : Value} {result : Option ZonedDateTime}
      (reads : locale.asZoned value = .ok result) :
      read value = .ok (result.map (·.toZone offset)) := by
    rw [converts, reads]
    rfl
  cases reads : locale.asZoned value with
  | error fault =>
      refine iff_of_true ?_ fun _ other => nomatch other
      intro result fits
      rw [converts, reads] at fits
      cases fits
  | ok result =>
      cases result with
      | none =>
          refine iff_of_true ?_ fun _ other => nomatch other
          intro result fits
          cases (converted reads).symm.trans fits
          exact ⟨none, converted (asZoned_sent_of_none reads), rfl⟩
      | some moment =>
          obtain ⟨again, sent, same, server⟩ :=
            exists_asZoned_sent reads (sends moment reads)
          have agree :
              (again.toZone offset).truncate =
                  (moment.toZone offset).truncate ↔
                moment.ShownAt offset ∨ moment.offset = again.offset :=
            ZonedDateTime.truncate_toZone_eq_iff same
          rw [server] at agree
          constructor
          · rintro keeps _ ⟨⟩
            obtain ⟨result, fits, alike⟩ := keeps _ (converted reads)
            cases (converted sent).symm.trans fits
            exact agree.mp (Option.some.inj alike)
          · intro all result fits
            cases (converted reads).symm.trans fits
            exact
              ⟨_, converted sent,
                congrArg some (agree.mpr (all moment rfl))⟩

/-- What is read of a value that is no floating-point number is read of its
text.  Of the numbers only zero and one are truth values as texts.  A moment
that the server's clock can show stays the same to the second; the client's
clock and that of universal time show it as before exactly if they can show it
or its own clock is the server's. -/
theorem readings_of_sent_value
    (locale : Locale) (value : Value)
    (whole : ∀ number, value ≠ .float number) :
    locale.Keeps asLong value ∧
      locale.Keeps asInt value ∧
      locale.Keeps asGuid value ∧
      (locale.Keeps asBoolean value ↔
        ∀ number, value = .int number → number = 0 ∨ number = 1) ∧
      (locale.SendsMoment value →
        locale.KeepsUpTo ZonedDateTime.universalSecond locale.asZoned value ∧
          (locale.KeepsUpTo DateTime.truncate locale.asDateTime value ↔
            ∀ moment, locale.asZoned value = .ok (some moment) →
              moment.ShownAt locale.clientOffset ∨
                moment.offset = locale.serverOffset) ∧
          (locale.KeepsUpTo DateTime.truncate locale.asUniversal value ↔
            ∀ moment, locale.asZoned value = .ok (some moment) →
              moment.ShownAt 0 ∨ moment.offset = locale.serverOffset)) :=
  ⟨keeps_asLong whole, keeps_asInt whole, keeps_asGuid,
    keeps_asBoolean_iff whole, fun sends =>
      ⟨keepsUpTo_asZoned sends, keepsUpTo_toZone_iff (fun _ => rfl) sends,
        keepsUpTo_toZone_iff (fun _ => rfl) sends⟩⟩

theorem inUse_lateEvening :
    InUse (315537892200 / 86400) := by
  decide

theorem nano_lateEvening :
    0 < 1000000000 := by
  decide

/-- An hour and a half before the calendar ends, on a clock an hour behind
universal time. -/
def lateEvening : ZonedDateTime :=
  ⟨⟨315537892200, 0, inUse_lateEvening, nano_lateEvening⟩, -3600⟩

/-- The client is an hour ahead of the server, whose clock is universal. -/
def aheadOfServer : Locale :=
  ⟨"en", "en-US", 0, 3600, lateEvening.reading⟩

theorem sendsMoment_lateEvening :
    aheadOfServer.SendsMoment (.zoned lateEvening) := by
  rintro _ ⟨⟩
  decide

theorem readings_of_sent_evening :
    (∀ number, Value.zoned lateEvening ≠ .float number) ∧
      aheadOfServer.SendsMoment (.zoned lateEvening) ∧
      aheadOfServer.KeepsUpTo ZonedDateTime.universalSecond
        aheadOfServer.asZoned (.zoned lateEvening) ∧
      aheadOfServer.KeepsUpTo DateTime.truncate aheadOfServer.asUniversal
        (.zoned lateEvening) := by
  have kept :=
    (readings_of_sent_value aheadOfServer (.zoned lateEvening)
      nofun).2.2.2.2 sendsMoment_lateEvening
  refine ⟨nofun, sendsMoment_lateEvening, kept.1, kept.2.2.mpr ?_⟩
  rintro _ ⟨⟩
  exact .inl (by decide)

/-- The number five is true, but its text is no truth value.  A moment that the
client's clock cannot show is half past ten, but half past eleven once it was
sent. -/
theorem values_read_differently_when_sent :
    (¬ ∀ (locale : Locale) (value : Value),
        (∀ number, value ≠ .float number) →
          locale.Keeps asBoolean value) ∧
      ¬ ∀ (locale : Locale) (value : Value),
        (∀ number, value ≠ .float number) →
          locale.SendsMoment value →
            locale.KeepsUpTo DateTime.truncate locale.asDateTime value := by
  constructor
  · intro keeps
    have small :=
      keeps_asBoolean_int_iff.mp (keeps aheadOfServer (.int 5) nofun)
    exact absurd small (by decide)
  · intro keeps
    have shown :=
      (keepsUpTo_toZone_iff (fun _ => rfl) sendsMoment_lateEvening).mp
        (keeps aheadOfServer (.zoned lateEvening) nofun
          sendsMoment_lateEvening)
        lateEvening rfl
    exact absurd shown (by decide)

end Locale

end AmlExchange
