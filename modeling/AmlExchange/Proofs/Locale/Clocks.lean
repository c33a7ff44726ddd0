import AmlExchange.Locale.Reading
import AmlExchange.Proofs.Calendar.Readback
import AmlExchange.Proofs.DateRange.Notation

/-!
# Moments on two clocks

A moment is meant on the client's clock, written on the server's and read back
onto the client's.  Both conversions are shifts by the same number of seconds,
so nothing but the nanoseconds is lost, as long as the reading of the server's
clock is in the calendar (`readings_of_written_moment`).
-/

namespace AmlExchange

open Calendar (DateTime InUse ZonedDateTime)

namespace Calendar.DateTime

variable {moment later : DateTime} {seconds : Int}

theorem shift?_eq_some :
    moment.shift? seconds = some later ↔
      later.second = moment.second + seconds ∧ later.nano = moment.nano :=
  ofSecond?_eq_some

theorem exists_shift?
    (stays : InUse ((moment.second + seconds) / 86400)) :
    ∃ later, moment.shift? seconds = some later :=
  ⟨⟨_, _, stays, moment.nano_lt⟩, shift?_eq_some.mpr ⟨rfl, rfl⟩⟩

/-- A shift is undone by the one in the other direction. -/
theorem shift?_neg_truncate
    (shifted : moment.shift? seconds = some later) :
    later.truncate.shift? (-seconds) = some moment.truncate := by
  obtain ⟨second, -⟩ := shift?_eq_some.mp shifted
  refine shift?_eq_some.mpr ⟨?_, rfl⟩
  simp only [truncate, second]
  omega

theorem isBlank_digitChar
    {digit : Nat} (small : digit < 10) :
    Text.isBlank (Decimal.digitChar digit) = false := by
  decide +revert

/-- No character of a written moment is blank. -/
theorem trim_write
    (moment : DateTime) :
    Text.trim moment.write = moment.write :=
  Text.trim_of_visible <|
    @forall_mem_write (fun char => Text.isBlank char = false)
      isBlank_digitChar rfl rfl rfl moment

theorem write_ne_nil
    (moment : DateTime) :
    moment.write ≠ [] := by
  simp [write]

end Calendar.DateTime

namespace Locale

/-- A text without blanks at its ends is read as it is. -/
theorem readText_ofList
    {α : Type} {target : String} {read : List Char → Option α} {text : List Char}
    (trimmed : Text.trim text = text) (written : text ≠ []) :
    readText target read (String.ofList text) =
      match read text with
      | some value => .ok (some value)
      | none => .error (refusal target) := by
  have visible : ¬ text.isEmpty = true := by rwa [List.isEmpty_iff]
  rw [readText, String.toList_ofList, trimmed]
  exact if_neg visible

/-- A text is read on the server's clock. -/
theorem asZoned_write
    (locale : Locale) (moment : DateTime) :
    locale.asZoned (.text (String.ofList moment.write)) =
      .ok (some ⟨moment.truncate, locale.serverOffset⟩) := by
  rw [asZoned, readText_ofList moment.trim_write moment.write_ne_nil,
    moment.read?_write]
  rfl

/-- A moment of the client that is written for the server and read again is the
same moment, truncated to the second, on the client's clock and as a moment of
universal time. -/
theorem readings_of_written_moment
    (locale : Locale) (moment : DateTime)
    (stays :
      InUse
        ((moment.second + (locale.serverOffset - locale.clientOffset)) /
          86400)) :
    let written := Value.text (locale.format (.dateTime moment))
    locale.asDateTime written = .ok (some moment.truncate) ∧
      ∃ read : ZonedDateTime,
        locale.asZoned written = .ok (some read) ∧
          read.universalSecond =
              (locale.onClientClock moment).universalSecond ∧
            read.reading.nano = 0 := by
  intro written
  obtain ⟨server, shifted⟩ := DateTime.exists_shift? stays
  have format : locale.format (.dateTime moment) = String.ofList server.write := by
    rw [Locale.format, formatChars, formatClient, formatZoned,
      ZonedDateTime.toZone, onClientClock]
    dsimp only
    rw [shifted]
    rfl
  have read :
      locale.asZoned written =
        .ok (some ⟨server.truncate, locale.serverOffset⟩) :=
    (congrArg (fun text => locale.asZoned (.text text)) format).trans
      (locale.asZoned_write server)
  have back := DateTime.shift?_neg_truncate shifted
  rw [Int.neg_sub] at back
  refine ⟨?_, _, read, ?_, rfl⟩
  · rw [asDateTime, read]
    simp only [bind, Except.bind, Option.map_some, ZonedDateTime.toZone, back,
      Option.getD_some]
  · have second := (DateTime.shift?_eq_some.mp shifted).1
    simp only [ZonedDateTime.universalSecond, onClientClock,
      DateTime.truncate, second]
    omega

/-- Half a second and ten minutes into the year 0. -/
def yearZero : DateTime :=
  ⟨-31621800, 500000000, by decide, by decide⟩

/-- The server is a few hours behind the client, in the year before. -/
def acrossYears : Locale :=
  ⟨"en", "en-US", -19815, 7200, yearZero⟩

theorem readings_of_written_moment_across_years :
    InUse
        ((yearZero.second +
            (acrossYears.serverOffset - acrossYears.clientOffset)) / 86400) ∧
      acrossYears.format (.dateTime yearZero) = "-0001-12-31T16:39:45" ∧
      acrossYears.asDateTime (.text "-0001-12-31T16:39:45") =
        .ok (some yearZero.truncate) := by
  have stays :
      InUse
        ((yearZero.second +
            (acrossYears.serverOffset - acrossYears.clientOffset)) / 86400) := by
    decide
  have written :
      acrossYears.format (.dateTime yearZero) = "-0001-12-31T16:39:45" := by
    decide +kernel
  refine ⟨stays, written, ?_⟩
  rw [← written]
  exact (readings_of_written_moment acrossYears yearZero stays).1

end Locale

end AmlExchange
