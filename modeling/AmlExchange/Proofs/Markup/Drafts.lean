import AmlExchange.Markup.Instruction

/-!
# Drafts without a fault

A draft is written to its end only if it has no fault.  Then it is written as
its instructions are.  Empty text among them makes no difference
(`Draft.toText_of_effective`), nor do the ends of the elements that are open at
last (`Draft.toText_of_ended`).
-/

namespace AmlExchange.Markup

/-- Whether an instruction writes nothing. -/
def Instruction.isBlank : Instruction → Bool
  | .text content => content.isEmpty
  | _ => false

/-- Instructions without those that write nothing. -/
def effective (instructions : List Instruction) : List Instruction :=
  instructions.filter fun instruction => !instruction.isBlank

@[simp]
theorem effective_append
    (first second : List Instruction) :
    effective (first ++ second) = effective first ++ effective second :=
  List.filter_append ..

theorem performAll_effective
    (writer : Writer) (instructions : List Instruction) :
    writer.performAll (effective instructions) =
      writer.performAll instructions := by
  induction instructions generalizing writer with
  | nil => rfl
  | cons instruction rest ih =>
      by_cases blank : instruction.isBlank = true
      · have unchanged : writer.perform instruction = .ok writer := by
          cases instruction with
          | text content =>
              have nothing : content.isEmpty = true := blank
              rw [Writer.perform, Writer.text, if_pos nothing]
          | _ => cases blank
        rw [Writer.performAll, unchanged, effective,
          List.filter_cons_of_neg (by simp [blank])]
        exact ih writer
      · rw [effective, List.filter_cons_of_pos (by simpa using blank)]
        simp only [Writer.performAll]
        cases writer.perform instruction with
        | error fault => rfl
        | ok next => exact ih next

namespace Draft

theorem toText_of_effective
    {first second : List Instruction}
    (same : effective first = effective second) :
    (of first).toText = (of second).toText := by
  have performed :
      (Writer.new none).performAll first =
        (Writer.new none).performAll second := by
    rw [← performAll_effective, same, performAll_effective]
  simp only [toText, writeTo, of, performed]

theorem fault_append
    (first second : Draft) :
    (first ++ second).fault = none ↔
      first.fault = none ∧ second.fault = none := by
  obtain ⟨instructions, fault⟩ := first
  cases fault with
  | none => exact (and_iff_right rfl).symm
  | some fault => exact ⟨nofun, fun both => both.1⟩

theorem instructions_append
    {first : Draft} (complete : first.fault = none) (second : Draft) :
    (first ++ second).instructions =
      first.instructions ++ second.instructions := by
  obtain ⟨instructions, fault⟩ := first
  cases complete
  rfl

@[simp]
theorem instructions_of_append
    (instructions : List Instruction) (second : Draft) :
    (of instructions ++ second).instructions =
      instructions ++ second.instructions :=
  rfl

theorem fault_concat
    (drafts : List Draft) :
    (concat drafts).fault = none ↔ ∀ draft ∈ drafts, draft.fault = none := by
  induction drafts with
  | nil => exact ⟨fun _ => nofun, fun _ => rfl⟩
  | cons draft rest ih =>
      rw [concat, fault_append, ih, List.forall_mem_cons]

theorem instructions_concat
    {drafts : List Draft} (complete : ∀ draft ∈ drafts, draft.fault = none) :
    (concat drafts).instructions = drafts.flatMap instructions := by
  induction drafts with
  | nil => rfl
  | cons draft rest ih =>
      rw [List.forall_mem_cons] at complete
      rw [concat, instructions_append complete.1, ih complete.2,
        List.flatMap_cons]

/-- A draft that is written has no fault. -/
theorem fault_of_toText
    {draft : Draft} {text : String} (written : draft.toText = .ok text) :
    draft.fault = none := by
  cases ends : draft.fault with
  | none => rfl
  | some fault =>
      rw [toText, writeTo, ends] at written
      split at written
      · cases written
      · next performed =>
          split at performed
          · cases performed
          · cases performed

theorem toText_of_fault
    {draft : Draft} (complete : draft.fault = none) :
    draft.toText = (of draft.instructions).toText := by
  obtain ⟨instructions, fault⟩ := draft
  cases complete
  rfl

end Draft

namespace Writer

/-- Ending an element leaves the elements around it open. -/
theorem openNames_of_endElement
    {writer next : Writer} (ended : writer.endElement = .ok next) :
    ∃ name, writer.openNames = name :: next.openNames := by
  rw [endElement] at ended
  split at ended
  · cases ended
  · next name outer opened =>
      refine ⟨name, ?_⟩
      rw [opened]
      congr 1
      split at ended
      · rw [put] at ended
        split at ended
        · cases ended
          rfl
        · cases ended
      · rw [put] at ended
        split at ended
        · cases ended
          rfl
        · cases ended

/-- The whole text of some instructions, after what is written already. -/
def complete (writer : Writer) (instructions : List Instruction) :
    Except Fault String :=
  match writer.performAll instructions with
  | (_, .error fault) => .error fault
  | (written, .ok ()) => written.finish.map output

theorem complete_of_ended
    {writer : Writer} {instructions : List Instruction} {text : String}
    (written :
      writer.complete (instructions ++ [.endElement]) = .ok text) :
    writer.complete instructions = .ok text := by
  induction instructions generalizing writer with
  | nil =>
      rw [complete, List.nil_append, performAll, perform] at written
      cases ended : writer.endElement with
      | error fault =>
          rw [ended] at written
          cases written
      | ok next =>
          rw [ended] at written
          obtain ⟨name, opened⟩ := openNames_of_endElement ended
          rw [complete, performAll]
          dsimp only
          rw [finish, opened, endElements, ended]
          exact written
  | cons instruction rest ih =>
      rw [complete, List.cons_append, performAll] at written
      rw [complete, performAll]
      cases performed : writer.perform instruction with
      | error fault =>
          rw [performed] at written
          cases written
      | ok next =>
          rw [performed] at written
          exact ih written

end Writer

namespace Draft

theorem toText_of_instructions
    (instructions : List Instruction) :
    (of instructions).toText = (Writer.new none).complete instructions := by
  rw [toText, writeTo, of, Writer.complete]
  generalize (Writer.new none).performAll instructions = performed
  obtain ⟨writer, outcome⟩ := performed
  cases outcome <;> rfl

/-- An element that is left open is ended. -/
theorem toText_of_ended
    {instructions : List Instruction} {text : String}
    (written : (of (instructions ++ [.endElement])).toText = .ok text) :
    (of instructions).toText = .ok text := by
  rw [toText_of_instructions] at written ⊢
  exact Writer.complete_of_ended written

end Draft

end AmlExchange.Markup
