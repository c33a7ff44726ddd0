import AmlExchange.Proofs.Locale.Clocks
import AmlExchange.Proofs.Template.EmptyTags
import AmlExchange.Proofs.Template.LateAttributes
import AmlExchange.Proofs.Template.Rooms
import Mathlib.Data.List.Nodup

/-!
# Attributes that are added twice

A start tag gets its condition from a range only if the range has a text, and
the text closes the tag, so that it is given once.  The definition of a range
that is open on both sides is added without a text: the tag stays open, and the
definition of the next range is added to it as well.  Then, and only then, the
output cannot be read (`readable_iff_uncrowded`).
-/

namespace AmlExchange

/-! ## Ranges without a text -/

namespace DateRange.Dynamic

variable {range : Dynamic} {now : Calendar.DateTime}

/-- What is counted from a day is a bound, or there is a fault. -/
theorem bind_some_ne_none
    (day : Except Fault Int) (moment : Int → Except Fault Calendar.DateTime) :
    (do let day ← day; some <$> moment day) ≠ .ok none := by
  cases day with
  | error fault => nofun
  | ok day =>
      show (moment day).map some ≠ .ok none
      cases moment day <;> nofun

theorem lowerBound_eq_none_iff :
    range.lowerBound now = .ok none ↔ range.isStartOpen = true := by
  rw [lowerBound]
  split
  · next opened => exact iff_of_true rfl opened
  · next closed => exact iff_of_false (bind_some_ne_none _ _) closed

theorem upperBound_eq_none_iff :
    range.upperBound now = .ok none ↔ range.isEndOpen = true := by
  rw [upperBound]
  split
  · next opened => exact iff_of_true rfl opened
  · next closed => exact iff_of_false (bind_some_ne_none _ _) closed

theorem evaluate_eq_none_iff :
    range.evaluate now = .ok (none, none) ↔
      range.isStartOpen = true ∧ range.isEndOpen = true := by
  rw [← lowerBound_eq_none_iff, ← upperBound_eq_none_iff, evaluate]
  simp only [bind, Except.bind]
  cases range.lowerBound now with
  | error fault => exact iff_of_false nofun nofun
  | ok lower =>
      cases range.upperBound now with
      | error fault => exact iff_of_false nofun nofun
      | ok upper => simp

theorem serialize_ne_nil
    (range : Dynamic) :
    range.serialize.toList ≠ [] := by
  unfold serialize
  rw [String.toList_ofList, List.append_assoc, List.append_assoc]
  exact List.append_ne_nil_of_left_ne_nil (by decide) _

end DateRange.Dynamic

namespace Locale

variable {locale : Locale}

theorem formatBounds_eq_nil_iff
    {lower upper : Option Calendar.DateTime} :
    locale.formatBounds lower upper = [] ↔ lower = none ∧ upper = none := by
  have bound (moment : Calendar.DateTime) :
      locale.formatClient moment ≠ [] :=
    Calendar.DateTime.write_ne_nil _
  cases lower <;> cases upper <;> simp [formatBounds, bound]

/-- A relative range has a text unless it is open on both sides. -/
theorem formatDynamic_eq_nil_iff
    {range : DateRange.Dynamic} :
    locale.formatDynamic range = [] ↔
      range.isStartOpen = true ∧ range.isEndOpen = true := by
  rw [← @DateRange.Dynamic.evaluate_eq_none_iff range locale.now,
    formatDynamic]
  cases range.evaluate locale.now with
  | error fault =>
      refine iff_of_false range.serialize_ne_nil ?_
      intro impossible
      cases impossible
  | ok bounds =>
      dsimp only
      rw [formatBounds_eq_nil_iff, Except.ok.injEq, Prod.ext_iff]

end Locale

end AmlExchange

namespace AmlExchange.Template

open Markup (Event normalForm tags)

/-- A range brings a condition along exactly if it has a text. -/
theorem isEmpty_format_iff
    {value : Value} (ranged : isRange value = true) (locale : Locale) :
    (locale.format value).isEmpty = true ↔
      AttributeName.condition ∉ (rangeOffers value).map Prod.fst := by
  have apart : AttributeName.condition ≠ AttributeName.origDateRange := by
    decide
  have listed :
      (locale.format value).isEmpty = true ↔ locale.formatChars value = [] := by
    simp [Locale.format]
  rw [listed]
  cases value with
  | dynamicRange range =>
      rw [Locale.formatChars, Locale.formatDynamic_eq_nil_iff,
        ← Bool.and_eq_true]
      refine (Document.condition_text?_eq_none_iff range).symm.trans ?_
      rw [rangeOffers, conditionFields]
      cases range.condition.text? <;> simp [apart]
  | staticRange range =>
      rw [Locale.formatChars, Locale.formatBounds_eq_nil_iff, rangeOffers,
        conditionFields, DateRange.Static.condition]
      cases range.lower <;> cases range.upper <;> simp [Condition.text?]
  | _ => cases ranged

/-- Whether a value is a relative date range. -/
def isRelative : Value → Bool
  | .dynamicRange _ => true
  | _ => false

/-- A range is inserted as its text. -/
theorem Setting.text_render_of_value
    {setting : Setting} {context : Context} {content : String} {value : Value}
    (ranged : isRange value = true)
    (given : (setting.render context content).value = some value) :
    (setting.render context content).text = setting.locale.format value := by
  have alone (raw : Bool) :
      setting.renderValue context raw value =
        setting.locale.formatChars value := by
    rw [renderValue]
    cases value <;> first | exact ite_self _ | cases ranged
  unfold render at given ⊢
  split at given
  · cases given
  · next visible =>
      rw [if_neg visible]
      split at given
      · next placeholder found =>
          split at given
          · next bound =>
              cases given
              simp only [alone]
              rfl
          · cases given
      · cases given

namespace Walk

variable {setting : Setting} {walk : Walk}

/-! ## What is added to one start tag -/

theorem count_range_lateFields
    (written : List String) (value : Value) :
    ((lateFields written value).map Prod.fst).count
        AttributeName.origDateRange =
      if written.contains AttributeName.origDateRange then 0
      else (isRelative value).toNat := by
  have apart : AttributeName.condition ≠ AttributeName.origDateRange := by
    decide
  cases value with
  | dynamicRange range =>
      cases own : range.condition.text? <;>
        cases conditioned : written.contains AttributeName.condition <;>
          cases ranged : written.contains AttributeName.origDateRange <;>
            simp_all [lateFields, rangeOffers, conditionFields, isRelative]
  | staticRange range =>
      cases own : range.condition.text? <;>
        cases conditioned : written.contains AttributeName.condition <;>
          simp_all [lateFields, rangeOffers, conditionFields, isRelative]
  | _ => exact (ite_self 0).symm

theorem count_range_late
    (setting : Setting) (walk : Walk) (events : List Event) :
    ((walk.late setting events).map Prod.fst).count
        AttributeName.origDateRange =
      if walk.written.contains AttributeName.origDateRange then 0
      else (walk.taken setting events).countP isRelative := by
  rw [late]
  induction walk.taken setting events with
  | nil => exact (ite_self 0).symm
  | cons value rest ih =>
      rw [List.flatMap_cons, List.map_append, List.count_append, ih,
        count_range_lateFields, List.countP_cons]
      split
      · rfl
      · cases isRelative value <;> simp [Nat.add_comm]

/-- A text that is empty brings no condition along. -/
theorem no_condition_of_filled_eq_nil
    {event : Event} (nothing : walk.filled setting event = []) {value : Value}
    (given : walk.given? setting event = some value) :
    AttributeName.condition ∉ (rangeOffers value).map Prod.fst := by
  cases ranged : isRange value with
  | false =>
      cases value <;> first | exact List.not_mem_nil | cases ranged
  | true =>
      cases event with
      | text content =>
          rw [filled] at nothing
          rw [given?] at given
          split at given
          · cases given
          · next visible =>
              rw [if_neg visible, shown] at nothing
              split at nothing
              · next empty =>
                  rw [← isEmpty_format_iff ranged setting.locale,
                    ← Setting.text_render_of_value ranged given]
                  exact empty
              · cases nothing
      | _ => cases given

theorem count_condition_late
    (setting : Setting) (walk : Walk) (events : List Event) :
    ((walk.late setting events).map Prod.fst).count AttributeName.condition ≤
      1 := by
  induction events with
  | nil => exact Nat.zero_le 1
  | cons event rest ih =>
      rw [late_cons, List.map_append, List.count_append]
      cases given : walk.given? setting event with
      | none =>
          split
          · simpa using ih
          · simp
      | some value =>
          have names := names_lateFields walk.written value
          rw [Option.toList_some, List.flatMap_singleton]
          split
          · next nothing =>
              -- The texts after this one may still add a condition.
              have absent :=
                no_condition_of_filled_eq_nil (List.isEmpty_iff.mp nothing) given
              rw [List.count_eq_zero_of_not_mem, Nat.zero_add]
              · exact ih
              · exact fun offered =>
                  absent ((List.filter_sublist.map Prod.fst).subset offered)
          · rw [List.map_nil, List.count_nil, Nat.add_zero]
            exact
              List.nodup_iff_count_le_one.mp (names.nodup (by decide)) _

/-- The attributes that are added to a start tag are distinct unless two of
them tell a relative range. -/
theorem nodup_late_iff
    (setting : Setting) (walk : Walk) (events : List Event) :
    ((walk.late setting events).map Prod.fst).Nodup ↔
      AttributeName.origDateRange ∈ walk.written ∨
        (walk.taken setting events).countP isRelative ≤ 1 := by
  have ranges := count_range_late setting walk events
  rw [List.nodup_iff_count_le_one]
  constructor
  · intro once
    by_cases present : AttributeName.origDateRange ∈ walk.written
    · exact .inl present
    · rw [if_neg (by simpa using present)] at ranges
      exact .inr (ranges ▸ once AttributeName.origDateRange)
  · intro few name
    by_cases added : name ∈ (walk.late setting events).map Prod.fst
    · have offered := (mem_late added).1
      simp only [List.mem_cons, List.not_mem_nil, or_false] at offered
      obtain rfl | rfl := offered
      · exact count_condition_late ..
      · rw [ranges]
        split
        · exact Nat.zero_le 1
        · next absent => exact few.resolve_left (by simpa using absent)
    · rw [List.count_eq_zero_of_not_mem added]
      exact Nat.zero_le 1

/-! ## Start tags in a whole template -/

theorem names_begun
    (setting : Setting) (attributes : List (String × String)) :
    (begun setting attributes).map Prod.fst = attributes.map Prod.fst ∨
      (begun setting attributes).map Prod.fst =
        attributes.map Prod.fst ++ [AttributeName.condition] := by
  rw [begun, retagged]
  split
  · rw [withRange]
    split
    · left
      rw [names_changeFirst, Surroundings.names_filledField]
    · right
      rw [List.map_append, Surroundings.names_filledField]
      rfl
  · left
    exact Surroundings.names_filledField setting attributes

theorem range_mem_written_after
    (setting : Setting) (walk : Walk) (name : String)
    (attributes : List (String × String)) (empty : Bool) :
    AttributeName.origDateRange ∈
        (walk.after setting (.start name attributes empty)).written ↔
      ∃ field ∈ attributes,
        Markup.localName field.1 = AttributeName.origDateRange := by
  have apart :
      Markup.localName AttributeName.condition ≠
        AttributeName.origDateRange := by
    decide
  have names :
      (walk.after setting (.start name attributes empty)).written =
        ((begun setting attributes).map Prod.fst).map Markup.localName := by
    rw [written_after, List.map_map]
    rfl
  rw [names]
  rcases names_begun setting attributes with same | more
  · simp [same]
  · simp [more, apart.symm]

/-- Whether the texts for which a start tag stays open add a relative range to
it twice. -/
def Crowds (setting : Setting) (walk : Walk) (rest : List Event) :
    Event → Prop
  | .start name attributes false =>
      (∀ field ∈ attributes,
          Markup.localName field.1 ≠ AttributeName.origDateRange) ∧
        2 ≤
          ((walk.after setting (.start name attributes false)).taken setting
            rest).countP isRelative
  | _ => False

/-- Whether some start tag has a relative range added to it twice. -/
def Crowded (setting : Setting) (walk : Walk) : List Event → Prop
  | [] => False
  | event :: rest =>
      walk.Crowds setting rest event ∨
        Crowded setting (walk.after setting event) rest

instance (setting : Setting) (walk : Walk) (rest : List Event) :
    DecidablePred (walk.Crowds setting rest)
  | .start _ _ false => inferInstanceAs (Decidable (_ ∧ _))
  | .start _ _ true | .finish _ | .text _ | .characterData _ | .comment _ =>
      inferInstanceAs (Decidable False)

instance (setting : Setting) (walk : Walk) :
    DecidablePred (walk.Crowded setting) :=
  go walk
where
  go (walk : Walk) : (events : List Event) →
      Decidable (walk.Crowded setting events)
    | [] => inferInstanceAs (Decidable False)
    | event :: rest =>
        have := go (walk.after setting event) rest
        inferInstanceAs (Decidable (_ ∨ _))

/-- Whether a start tag is written with each of its attributes once. -/
def KeepsOnce (source written : String × List (String × String)) : Prop :=
  written.1 = source.1 ∧
    ∀ field ∈ source.2, (written.2.map Prod.fst).count field.1 = 1

theorem keepsOnce_begun
    {attributes added : List (String × String)}
    (fields : Markup.Reader.AreFields attributes)
    (apart : ∀ other ∈ (begun setting attributes).map Prod.fst,
      other ∉ added.map Prod.fst)
    (name : String) :
    KeepsOnce (name, attributes) (name, begun setting attributes ++ added) := by
  refine ⟨rfl, fun field member => ?_⟩
  have given : field.1 ∈ (begun setting attributes).map Prod.fst := by
    have source : field.1 ∈ attributes.map Prod.fst :=
      List.mem_map_of_mem member
    rcases names_begun setting attributes with same | more
    · exact same ▸ source
    · exact more ▸ List.mem_append_left _ source
  have once :=
    List.count_eq_one_of_mem (areFields_begun fields setting).2 given
  rw [List.map_append, List.count_append, once,
    List.count_eq_zero_of_not_mem (apart _ given)]

/-- A start tag has distinct attributes unless a range is added to it
twice. -/
theorem nodup_start_iff
    {attributes : List (String × String)}
    (fields : Markup.Reader.AreFields attributes) (walk : Walk)
    (name : String) (rest : List Event) :
    ((begun setting attributes ++
            (walk.after setting (.start name attributes false)).late setting
              rest).map Prod.fst).Nodup ↔
      ¬ walk.Crowds setting rest (.start name attributes false) := by
  have distinct := (areFields_begun fields setting).2
  have apart :
      ∀ other ∈ (begun setting attributes).map Prod.fst,
        ∀ added ∈
          ((walk.after setting (.start name attributes false)).late setting
            rest).map Prod.fst,
          other ≠ added := by
    rintro other given _ added rfl
    exact not_mem_late given added
  rw [List.map_append, List.nodup_append, nodup_late_iff,
    range_mem_written_after, Crowds, not_and_or, Nat.not_le]
  constructor
  · rintro ⟨-, fresh, -⟩
    exact fresh.imp (by simp) Nat.lt_succ_of_le
  · intro fresh
    exact ⟨distinct, fresh.imp (by simp) Nat.le_of_lt_succ, apart⟩

theorem tags_filledAll_text
    (setting : Setting) (walk : Walk) (content : String)
    (rest : List Event) :
    tags (walk.filledAll setting (.text content :: rest)) =
      tags (walk.filledAll setting rest) := by
  rw [filledAll_text, Markup.tags_append]
  rcases filled_text setting walk content with nothing | ⟨other, something⟩
  · rw [nothing]
    rfl
  · rw [something]
    rfl

/-- Each attribute of the template is written once. -/
theorem forall₂_keepsOnce
    {events : List Event} (lawful : ∀ event ∈ events, event.Lawful)
    (setting : Setting) (walk : Walk) :
    List.Forall₂ KeepsOnce (tags events)
      (tags (walk.filledAll setting events)) := by
  induction events generalizing walk with
  | nil => exact .nil
  | cons event rest ih =>
      rw [List.forall_mem_cons] at lawful
      have others := ih lawful.2 (walk.after setting event)
      cases event with
      | start name attributes empty =>
          have once
              (added : List (String × String))
              (apart : ∀ other ∈ (begun setting attributes).map Prod.fst,
                other ∉ added.map Prod.fst) :=
            keepsOnce_begun lawful.1.2 apart name
          cases empty with
          | true =>
              have bare := once [] fun _ _ => List.not_mem_nil
              rw [List.append_nil] at bare
              exact .cons bare others
          | false => exact .cons (once _ fun _ => not_mem_late) others
      | text content =>
          rw [tags_filledAll_text]
          exact others
      | finish name | characterData content | comment content => exact others

/-- The start tags that are written have distinct attributes unless a range is
added to one of them twice. -/
theorem nodup_filledAll_iff
    {events : List Event} (lawful : ∀ event ∈ events, event.Lawful)
    (setting : Setting) (walk : Walk) :
    (∀ tag ∈ tags (walk.filledAll setting events),
        (tag.2.map Prod.fst).Nodup) ↔
      ¬ walk.Crowded setting events := by
  induction events generalizing walk with
  | nil => exact iff_of_true (List.forall_mem_nil _) not_false
  | cons event rest ih =>
      rw [List.forall_mem_cons] at lawful
      have others := ih lawful.2 (walk.after setting event)
      rw [Crowded, not_or]
      cases event with
      | start name attributes empty =>
          cases empty with
          | true =>
              have distinct := (areFields_begun lawful.1.2 setting).2
              refine Iff.trans List.forall_mem_cons ?_
              exact and_congr (iff_of_true distinct not_false) others
          | false =>
              refine Iff.trans List.forall_mem_cons ?_
              exact
                and_congr (nodup_start_iff lawful.1.2 walk name rest) others
      | text content =>
          rw [tags_filledAll_text]
          exact others.trans (and_iff_right not_false).symm
      | finish name | characterData content | comment content =>
          exact others.trans (and_iff_right not_false).symm

/-! ## When a range is added twice -/

/-- A range whose text leaves the start tag open is a parameter that is open
on both sides. -/
theorem boundless_of_filled_eq_nil
    {event : Event} (nothing : walk.filled setting event = []) {value : Value}
    (given : walk.given? setting event = some value)
    (relative : isRelative value = true) :
    ∃ name range,
      setting.parameters.get? name = some (.dynamicRange range) ∧
        Document.isBoundless (.dynamicRange range) = true := by
  have bare := no_condition_of_filled_eq_nil nothing given
  cases event with
  | text content =>
      rw [given?] at given
      split at given
      · cases given
      · obtain ⟨placeholder, -, bound⟩ := Setting.get?_of_value_render given
        cases value with
        | dynamicRange range =>
            refine ⟨placeholder.name, range, bound, ?_⟩
            rw [← Document.condition_text?_eq_none_iff]
            cases own : range.condition.text? with
            | none => rfl
            | some text => simp [rangeOffers, conditionFields, own] at bare
        | _ => cases relative
  | _ => cases given

/-- Of the ranges that are added all but the last are open on both sides. -/
theorem exists_boundless
    {events : List Event}
    (twice : 2 ≤ (walk.taken setting events).countP isRelative) :
    ∃ name range,
      setting.parameters.get? name = some (.dynamicRange range) ∧
        Document.isBoundless (.dynamicRange range) = true := by
  induction events with
  | nil => cases twice
  | cons event rest ih =>
      rw [taken, List.countP_append] at twice
      by_cases nothing : (walk.filled setting event).isEmpty = true
      · rw [if_pos nothing] at twice
        cases given : walk.given? setting event with
        | none =>
            rw [given] at twice
            exact ih (by simpa using twice)
        | some value =>
            by_cases relative : isRelative value = true
            · exact
                boundless_of_filled_eq_nil (List.isEmpty_iff.mp nothing) given
                  relative
            · rw [given] at twice
              exact ih (by simpa [relative] using twice)
      · have few :
            (walk.given? setting event).toList.countP isRelative ≤ 1 :=
          List.countP_le_length.trans Option.length_toList_le
        rw [if_neg nothing, List.countP_nil, Nat.add_zero] at twice
        exact absurd (twice.trans few) (by decide)

/-- Only texts insert values. -/
theorem exists_text_of_taken
    {events : List Event} (taken : walk.taken setting events ≠ []) :
    ∃ content rest, events = .text content :: rest := by
  cases events with
  | nil => exact absurd rfl taken
  | cons event rest =>
      cases event with
      | text content => exact ⟨content, rest, rfl⟩
      | _ => exact absurd rfl taken

/-- Two values are inserted by texts that follow one another directly. -/
theorem exists_adjacent
    {events : List Event} (twice : 2 ≤ (walk.taken setting events).length) :
    ∃ first second after,
      events = .text first :: .text second :: after := by
  obtain ⟨first, rest, rfl⟩ :=
    exists_text_of_taken (List.ne_nil_of_length_pos (Nat.lt_of_succ_lt twice))
  have more : walk.taken setting rest ≠ [] := by
    intro nothing
    have few :
        (walk.given? setting (.text first)).toList.length ≤ 1 :=
      Option.length_toList_le
    rw [taken, nothing, ite_self, List.append_nil] at twice
    exact absurd (twice.trans few) (by decide)
  obtain ⟨second, after, rfl⟩ := exists_text_of_taken more
  exact ⟨first, second, after, rfl⟩

/-- A range is added to a start tag twice only if a parameter is a relative
range that is open on both sides and two texts of the template follow one
another directly. -/
theorem exists_of_crowded
    {events : List Event} (crowded : walk.Crowded setting events) :
    (∃ name range,
        setting.parameters.get? name = some (.dynamicRange range) ∧
          Document.isBoundless (.dynamicRange range) = true) ∧
      ∃ before first second after,
        events = before ++ .text first :: .text second :: after := by
  induction events generalizing walk with
  | nil => cases crowded
  | cons event rest ih =>
      rcases crowded with here | later
      · cases event with
        | start name attributes empty =>
            cases empty with
            | true => cases here
            | false =>
                obtain ⟨-, twice⟩ := here
                obtain ⟨first, second, after, rfl⟩ :=
                  exists_adjacent (twice.trans List.countP_le_length)
                exact
                  ⟨exists_boundless twice, [_], first, second, after, rfl⟩
        | _ => cases here
      · obtain ⟨boundless, before, first, second, after, rfl⟩ := ih later
        exact ⟨boundless, event :: before, first, second, after, rfl⟩

end Walk

namespace Substitution

/-- A filled template is the markup of its events, in which each attribute of
the template is written once.  Its start tags give no attribute twice, and it
can be read, exactly if no relative range is added to a start tag twice.  That
takes a range open on both sides and two texts in a row. -/
theorem readable_iff_uncrowded
    {substitution : Substitution} {locale : Locale} {room : Option Nat}
    {template output : String}
    (aml : substitution.isAml template = true)
    (escaped : ∀ content,
      .text content ∈ (Markup.read .standard template).events.map Prod.fst →
        isRaw substitution.style content = false)
    (filled :
      (substitution.fill locale room template).2.text = .ok output) :
    let setting := substitution.setting locale
    let events := (Markup.read .standard template).events.map Prod.fst
    let written := Walk.start.filledAll setting events
    let crowded := Walk.start.Crowded setting events
    output = String.ofList (Markup.markupAll (normalForm written)) ∧
      List.Forall₂ Walk.KeepsOnce (tags events) (tags written) ∧
      ((∀ tag ∈ tags written, (tag.2.map Prod.fst).Nodup) ↔ ¬ crowded) ∧
      ((∃ place, (Markup.read .unlimited output).ending = .ok place) ↔
        ¬ crowded) ∧
      (output.utf8ByteSize ≤ Markup.Limits.standard.size →
        ((∃ place, (Markup.read .standard output).ending = .ok place) ↔
          ¬ crowded)) ∧
      (crowded →
        (∃ name range,
            substitution.parameters.get? name = some (.dynamicRange range) ∧
              range.isStartOpen = true ∧ range.isEndOpen = true) ∧
          ∃ before first second after,
            events = before ++ .text first :: .text second :: after) := by
  intro setting events written crowded
  obtain ⟨done, whole⟩ := fillAml_of_text aml (text_fill_of_room aml filled)
  obtain ⟨⟨_, ended⟩, last, walked⟩ := exists_last_of_fillAml done
  obtain ⟨nested, lawful⟩ := Markup.nested_read ended
  have fills := Walk.fills_filledAll lawful setting .start
  have nestedWritten := fills.nested nested
  have named :=
    fills.named fun event member => (lawful event member).named
  have comes : ComesTo _ _ _ := Walk.comesTo_script escaped walked
  have text : output = String.ofList (Markup.markupAll (normalForm written)) :=
    whole.symm.trans
      (fillAml_of_toText ended walked
        (comes.toText_eq.trans (Markup.toText_events nestedWritten))).2
  have distinct := Walk.nodup_filledAll_iff lawful setting .start
  have readable
      {limits : Markup.Limits}
      (shallow : Markup.Shallow limits.depth 0 written)
      (small : 0 < limits.size → output.utf8ByteSize ≤ limits.size) :
      (∃ place, (Markup.read limits output).ending = .ok place) ↔ ¬ crowded :=
    (Markup.readable_iff_nodup nestedWritten named shallow text small).trans
      distinct
  refine
    ⟨text, Walk.forall₂_keepsOnce lawful setting .start, distinct, ?_, ?_, ?_⟩
  · exact
      readable (Markup.shallow_unlimited 0 written)
        fun bounded => absurd bounded (Nat.lt_irrefl 0)
  · intro small
    have shallow := Markup.shallow_read .standard template
    exact readable (fills.shallow shallow) fun _ => small
  · intro twice
    obtain ⟨⟨name, range, bound, boundless⟩, adjacent⟩ :=
      Walk.exists_of_crowded twice
    exact ⟨⟨name, range, bound, Bool.and_eq_true_iff.mp boundless⟩, adjacent⟩

/-- Two texts in a row: between them the reader passes over an instruction. -/
def textsInARow : String :=
  "<a>@0<?x?>@0</a>"

/-- The first of two texts closes the start tag. -/
theorem readable_iff_uncrowded_of_today :
    ∃ output,
      ((ofArgument (.dynamicRange fromToday)).fill inJune (some 200)
            textsInARow).2.text = .ok output ∧
        ∃ place, (Markup.read .standard output).ending = .ok place := by
  have given :
      ∃ output,
        ((ofArgument (.dynamicRange fromToday)).fill inJune (some 200)
              textsInARow).2.text.toOption = some output ∧
          output.utf8ByteSize ≤ Markup.Limits.standard.size :=
    ⟨"<a condition=\"ge\" origDateRange=\"Dynamic|Day|0|Year|1000\">" ++
        "2016-06-20T00:00:002016-06-20T00:00:00</a>",
      by decide +kernel, by decide +kernel⟩
  obtain ⟨output, filled, small⟩ := given
  have escaped :
      ∀ content,
        .text content ∈
            (Markup.read .standard textsInARow).events.map Prod.fst →
          isRaw .named content = false := by
    have events :
        (Markup.read .standard textsInARow).events.map Prod.fst =
          [.start "a" [] false, .text "@0", .text "@0", .finish "a"] := by
      decide +kernel
    rw [events]
    intro content member
    obtain rfl : content = "@0" := by simpa using member
    decide +kernel
  have single :
      ¬ Walk.start.Crowded
        ((ofArgument (.dynamicRange fromToday)).setting inJune)
        ((Markup.read .standard textsInARow).events.map Prod.fst) := by
    decide +kernel
  obtain ⟨-, -, -, -, readable, -⟩ :=
    readable_iff_uncrowded (by decide +kernel) escaped
      (eq_ok_of_toOption filled)
  exact ⟨output, eq_ok_of_toOption filled, (readable small).mpr single⟩

/-- A range that is open on both sides is added to the start tag by each of two
texts. -/
theorem range_added_twice :
    ¬ ∀ (locale : Locale) (value : Value) (output : String),
      ((ofArgument value).fill locale none textsInARow).2.text =
          .ok output →
        ∃ place, (Markup.read .unlimited output).ending = .ok place := by
  intro readable
  have filled :
      ((ofArgument (.dynamicRange .unbounded)).fill inJune none
          textsInARow).2.text.toOption =
        some
          ("<a origDateRange=\"Dynamic|Year|-1000|Year|1000\"" ++
            " origDateRange=\"Dynamic|Year|-1000|Year|1000\" />") := by
    decide +kernel
  have refused :
      (Markup.read .unlimited
          ("<a origDateRange=\"Dynamic|Year|-1000|Year|1000\"" ++
            " origDateRange=\"Dynamic|Year|-1000|Year|1000\" />")
        ).ending.toOption = none := by
    decide +kernel
  obtain ⟨place, ended⟩ :=
    readable inJune _ _ (eq_ok_of_toOption filled)
  rw [ended] at refused
  cases refused

end Substitution

end AmlExchange.Template
