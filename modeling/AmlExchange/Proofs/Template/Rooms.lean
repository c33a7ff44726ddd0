import AmlExchange.Proofs.Template.Ranges

/-!
# Room for the output

How many bytes there is room for only decides whether a template is filled, not
what is written: a template that is filled is filled with the same output where
there is room for everything (`text_fill_of_room`).
-/

namespace AmlExchange

namespace Markup.Writer

variable {writer next : Writer}

/-- The writer that has written the same and has room for everything. -/
def unbounded (writer : Writer) : Writer :=
  { writer with room := none }

theorem put_unbounded
    {text : String} (done : writer.put text = .ok next) :
    writer.unbounded.put text = .ok next.unbounded := by
  rw [put] at done
  split at done
  · cases done
    rfl
  · cases done

theorem putContent_unbounded
    {text : String} (done : writer.putContent text = .ok next) :
    writer.unbounded.putContent text = .ok next.unbounded :=
  put_unbounded done

theorem startElement_unbounded
    {name : String} (done : writer.startElement name = .ok next) :
    writer.unbounded.startElement name = .ok next.unbounded := by
  simp only [startElement, bind, Except.bind] at done ⊢
  split at done
  · cases done
  · next put =>
      cases done
      rw [putContent_unbounded put]
      rfl

theorem setAttribute_unbounded
    {name value : String} (done : writer.setAttribute name value = .ok next) :
    writer.unbounded.setAttribute name value = .ok next.unbounded := by
  rw [setAttribute] at done
  split at done
  · next opened => exact (if_pos opened).trans (put_unbounded done)
  · cases done

theorem endElement_unbounded
    (done : writer.endElement = .ok next) :
    writer.unbounded.endElement = .ok next.unbounded := by
  rw [endElement] at done ⊢
  split at done
  · cases done
  · next name outer names =>
      rw [show writer.unbounded.openNames = name :: outer from names]
      split at done
      · next opened => exact (if_pos opened).trans (put_unbounded done)
      · next closed => exact (if_neg closed).trans (put_unbounded done)

/-- What is written within some room is written where there is more. -/
theorem perform_unbounded
    {instruction : Instruction} (done : writer.perform instruction = .ok next) :
    writer.unbounded.perform instruction = .ok next.unbounded := by
  cases instruction with
  | startElement name => exact startElement_unbounded done
  | setAttribute name value => exact setAttribute_unbounded done
  | offerAttribute name value =>
      rw [perform] at done
      split at done
      · next opened => exact (if_pos opened).trans (setAttribute_unbounded done)
      · next closed =>
          cases done
          exact if_neg closed
  | text content =>
      rw [perform, text] at done
      split at done
      · next empty =>
          cases done
          exact if_pos empty
      · next written =>
          exact (if_neg written).trans (putContent_unbounded done)
  | raw content =>
      rw [perform, raw] at done
      split at done
      · next empty =>
          cases done
          exact if_pos empty
      · next written =>
          exact (if_neg written).trans (putContent_unbounded done)
  | characterData content => exact putContent_unbounded done
  | comment content => exact putContent_unbounded done
  | endElement => exact endElement_unbounded done

theorem endElements_unbounded
    {names : List String} (done : writer.endElements names = .ok next) :
    writer.unbounded.endElements names = .ok next.unbounded := by
  induction names generalizing writer with
  | nil =>
      cases done
      rfl
  | cons name outer ih =>
      simp only [endElements, bind, Except.bind] at done ⊢
      split at done
      · cases done
      · next ended =>
          rw [endElement_unbounded ended]
          exact ih done

theorem finish_unbounded
    (done : writer.finish = .ok next) :
    writer.unbounded.finish = .ok next.unbounded :=
  endElements_unbounded done

end Markup.Writer

namespace Template

/-- The progress that has come to the same with room for everything. -/
def Progress.unbounded (progress : Progress) : Progress :=
  { progress with writer := progress.writer.unbounded }

theorem Progress.unbounded_writer
    (progress : Progress) :
    progress.unbounded.writer = progress.writer.unbounded :=
  rfl

theorem Progress.performAll_unbounded
    {progress final : Progress} {acts : List Act}
    (done : progress.performAll acts = (final, .ok ())) :
    progress.unbounded.performAll acts = (final.unbounded, .ok ()) := by
  induction acts generalizing progress with
  | nil =>
      cases done
      rfl
  | cons act rest ih =>
      rw [performAll] at done ⊢
      cases act with
      | write instruction =>
          rw [perform] at done
          cases performed : progress.writer.perform instruction with
          | error fault =>
              rw [performed] at done
              cases done
          | ok writer =>
              rw [performed] at done
              rw [perform, unbounded_writer,
                Markup.Writer.perform_unbounded performed]
              exact ih done
      | lookUp name => exact ih done
      | countItem => exact ih done

namespace Substitution

theorem fillAml_of_room
    {setting : Setting} {room : Option Nat} {template : String}
    (filled : (fillAml setting room template).2 = .ok ()) :
    fillAml setting none template =
      ((fillAml setting room template).1.unbounded, .ok ()) := by
  have beginning :
      (⟨.new none, [], 0⟩ : Progress) =
        Progress.unbounded ⟨.new room, [], 0⟩ :=
    rfl
  simp only [fillAml] at filled ⊢
  split at filled
  · cases filled
  · next performed =>
      rw [beginning, Progress.performAll_unbounded performed]
      split at filled
      · cases filled
      · cases filled
      · split at filled
        · cases filled
        · next finished =>
            dsimp only
            rw [Progress.unbounded_writer,
              Markup.Writer.finish_unbounded finished]
            rfl

/-- A template that is filled within some room is filled in the same way where
there is room for everything. -/
theorem text_fill_of_room
    {substitution : Substitution} {locale : Locale} {room : Option Nat}
    {template output : String} (aml : substitution.isAml template = true)
    (filled :
      (substitution.fill locale room template).2.text = .ok output) :
    (substitution.fill locale none template).2.text = .ok output := by
  obtain ⟨result, text⟩ := fill_of_isAml aml locale room
  obtain ⟨unlimited, whole⟩ := fill_of_isAml aml locale none
  rw [Filled.text, result, text] at filled
  cases done : (fillAml (substitution.setting locale) room template).2 with
  | error fault =>
      rw [done] at filled
      cases filled
  | ok nothing =>
      rw [done] at filled
      rw [Filled.text, unlimited, whole, fillAml_of_room done]
      exact filled

end Substitution

end Template

end AmlExchange
