import AmlExchange.Proofs.Response.ReadOnly

/-!
# Faults among other parts

The parts of an envelope are read one after the other, and each part that
answers takes the place of what was answered before it.  So a response reports
a fault if and only if the last of its parts that answers is one
(`fault_of_last_answer`); a result or an item behind a fault hides it.
-/

namespace AmlExchange.Response

open Document (NodeId)

/-- The fault that a payload is. -/
def Payload.fault? : Payload → Option Fault
  | .fault held => some held
  | _ => none

/-- Whether a part of an envelope answers: with a fault, with an item, or with
a result that has items or a text. -/
def answers (document : Document) (part : NodeId) : Bool :=
  match Markup.localName (document.name part) with
  | "Fault" | "Item" => true
  | "Result" =>
      !(document.items part).isEmpty || (document.value? part).isSome
  | _ => false

/-- The fault that a part of an envelope reports. -/
def faultIn? (document : Document) (part : NodeId) : Option Fault :=
  if Markup.localName (document.name part) = "Fault" then
    some (readFault document part)
  else none

/-- Whether a response has no fault but that of its payload, and reports it
without details. -/
structure Plain (response : Response) : Prop where
  flaws : response.flaws = []
  database : response.database = none
  query : response.query = none

theorem Plain.fault?_eq
    {response : Response} (plain : response.Plain) :
    response.fault? = response.payload.fault? := by
  have same (fault : Fault) : response.detailed fault = fault := by
    rw [detailed, plain.database, plain.query]
    split <;> rfl
  rw [fault?, plain.flaws, List.isEmpty_nil, if_pos rfl]
  cases response.payload with
  | fault held => exact congrArg some (same held)
  | empty | items _ | value _ => rfl

theorem Plain.readPart
    {response : Response} (plain : response.Plain) (part : NodeId) :
    (readPart response part).Plain := by
  rw [Response.readPart]
  split
  · split
    · split
      · exact ⟨plain.flaws, plain.database, plain.query⟩
      · exact plain
    · exact ⟨plain.flaws, plain.database, plain.query⟩
  all_goals exact ⟨plain.flaws, plain.database, plain.query⟩

theorem Plain.foldl_readPart
    {response : Response} (plain : response.Plain) (nodes : List NodeId) :
    (nodes.foldl Response.readPart response).Plain := by
  induction nodes generalizing response with
  | nil => exact plain
  | cons part rest ih => exact ih (plain.readPart part)

/-- A part that answers takes the place of what was answered before, and any
other part leaves it. -/
theorem fault?_readPart
    (response : Response) (part : NodeId) :
    (readPart response part).payload.fault? =
      if answers response.document part then faultIn? response.document part
      else response.payload.fault? := by
  rw [readPart, answers, faultIn?]
  split
  · next isResult =>
      simp only [isResult]
      cases held : response.document.items part with
      | nil =>
          cases text : response.document.value? part <;>
            simp [setValue, Payload.fault?]
      | cons id rest => simp [Payload.fault?]
  · next isItem =>
      simp only [isItem]
      cases held : response.payload <;>
        simp [add, Payload.addItem, Payload.fault?, held]
  · next isMessage => simp [isMessage]
  · next isFault => simp [isFault, setFault, Payload.fault?]
  · next noResult noItem noMessage noFault =>
      simp

/-- The last part that answers is what the payload comes of. -/
theorem fault?_foldl_readPart
    (nodes : List NodeId) (response : Response) :
    (nodes.foldl readPart response).payload.fault? =
      match nodes.reverse.find? (answers response.document) with
      | some part => faultIn? response.document part
      | none => response.payload.fault? := by
  induction nodes generalizing response with
  | nil => rfl
  | cons part rest ih =>
      rw [List.foldl_cons, ih, document_readPart, fault?_readPart,
        List.reverse_cons, List.find?_append]
      cases rest.reverse.find? (answers response.document) with
      | some last => rfl
      | none =>
          cases replaces : answers response.document part <;>
            simp [replaces]

/-- What is read of an envelope is gathered part by part. -/
theorem exists_gathered_of_read
    {locale : Locale} {text : String} {response : Response}
    (done : read locale text = .ok response) :
    ∃ document root,
      Document.parse .standard locale true text = .ok document ∧
        document.root? = some root ∧ response.Plain ∧
        response.payload =
          ((parts document root).foldl readPart
            (ofDocument document)).payload := by
  rw [read] at done
  cases parsed : Document.parse .standard locale true text with
  | error fault =>
      rw [parsed] at done
      cases done
  | ok document =>
      simp only [parsed, bind, Except.bind] at done
      split at done
      · cases done
      · next root found =>
          have unflawed : (ofDocument document).Plain := ⟨rfl, rfl, rfl⟩
          have plain := unflawed.foldl_readPart (parts document root)
          rw [edit] at done
          split at done
          · cases done
            exact
              ⟨document, root, rfl, found,
                ⟨plain.flaws, plain.database, plain.query⟩, rfl⟩
          · cases done

/-- A fault that is reported is raised wherever an answer is asked for.  Items
that may be missing are put up with if the fault says that there are none. -/
theorem raised_of_fault?
    {response : Response} {fault : Fault}
    (reported : response.fault? = some fault) :
    (∀ typeName, response.assertItem typeName = .error fault) ∧
      response.assertItems = .error fault ∧
      response.assertNoFault false = .error fault ∧
      response.items = if fault.isNoItems then .ok [] else .error fault := by
  have items : response.assertItems = .error fault := by
    rw [assertItems, reported]
  refine ⟨fun typeName => ?_, items, ?_, ?_⟩
  · rw [assertItem, items]
    rfl
  · rw [assertNoFault, reported]
    rfl
  · rw [Response.items, reported]

/-- A response that is read reports a fault if and only if some part of its
envelope is one and no later part answers, with a fault, an item, or a result
that has items or a text.  The fault is then raised wherever an answer is asked
for, and only if it says that there are no items is it taken for none. -/
theorem fault_of_last_answer
    {locale : Locale} {text : String} {response : Response}
    (done : read locale text = .ok response) :
    ∃ document root,
      Document.parse .standard locale true text = .ok document ∧
        document.root? = some root ∧
        (∀ fault, response.fault? = some fault ↔
          ∃ before part after, parts document root = before ++ part :: after ∧
            Markup.localName (document.name part) = "Fault" ∧
            (∀ later ∈ after, answers document later = false) ∧
            fault = readFault document part) ∧
        (∀ fault, response.fault? = some fault →
          (∀ typeName, response.assertItem typeName = .error fault) ∧
            response.assertItems = .error fault ∧
            response.assertNoFault false = .error fault ∧
            response.items =
              if fault.isNoItems then .ok [] else .error fault) := by
  obtain ⟨document, root, parsed, found, plain, payload⟩ :=
    exists_gathered_of_read done
  refine
    ⟨document, root, parsed, found, fun fault => ?_,
      fun fault => raised_of_fault?⟩
  have reported :
      response.fault? =
        ((parts document root).reverse.find? (answers document)).bind
          (faultIn? document) := by
    rw [plain.fault?_eq, payload, fault?_foldl_readPart, ofDocument]
    cases (parts document root).reverse.find? (answers document) <;> rfl
  rw [reported, Option.bind_eq_some_iff]
  constructor
  · rintro ⟨part, last, isFault⟩
    obtain ⟨-, after, before, split_, silent⟩ :=
      List.find?_eq_some_iff_append.mp last
    rw [faultIn?] at isFault
    split at isFault
    · next named =>
        cases isFault
        refine
          ⟨before.reverse, part, after.reverse, ?_, named,
            fun later member => ?_, rfl⟩
        · simpa using congrArg List.reverse split_
        · simpa using silent later (List.mem_reverse.mp member)
    · cases isFault
  · rintro ⟨before, part, after, split_, named, silent, rfl⟩
    refine ⟨part, ?_, if_pos named⟩
    refine List.find?_eq_some_iff_append.mpr
      ⟨by simp [answers, named], after.reverse, before.reverse, ?_, ?_⟩
    · simp [split_]
    · intro later member
      simpa using silent later (List.mem_reverse.mp member)

/-- A result, a fault that says that there are no items, and a result and a
message that answer nothing. -/
def lateFault : String :=
  "<Result><Item/></Result><Fault><faultcode>0</faultcode></Fault>" ++
    "<Result/><Message>done</Message>"

/-- The fault before them is raised, and taken for no items. -/
theorem fault_of_last_answer_of_lateFault :
    ∃ response fault,
      read Document.english lateFault = .ok response ∧
        response.fault? = some fault ∧
        response.assertItems = .error fault ∧ response.items = .ok [] := by
  have seen :
      (read Document.english lateFault).toOption.map fault? =
        some (some (.worded (.noItems "?") .nowhere "")) := by
    decide +kernel
  obtain ⟨response, done, reported⟩ := Option.map_eq_some_iff.mp seen
  have done := eq_ok_of_toOption done
  obtain ⟨-, -, -, -, -, raised⟩ := fault_of_last_answer done
  obtain ⟨-, items, -, none⟩ := raised _ reported
  exact ⟨response, _, done, reported, items, none⟩

/-- A fault, and a result with an item behind it. -/
def maskedFault : String :=
  "<Envelope><Body><Fault><faultcode>1</faultcode></Fault>" ++
    "<Result><Item/></Result></Body></Envelope>"

/-- The fault is not reported, and the item is given. -/
theorem fault_hidden_by_result :
    ∃ response document root part item,
      read Document.english maskedFault = .ok response ∧
        Document.parse .standard Document.english true maskedFault =
          .ok document ∧
        document.root? = some root ∧ part ∈ parts document root ∧
        Markup.localName (document.name part) = "Fault" ∧
        response.fault? = none ∧ response.assertNoFault false = .ok () ∧
        response.assertItem none = .ok item ∧
        response.items = .ok [item] := by
  have seen :
      (read Document.english maskedFault).toOption.map
          (fun response =>
            (response.fault?, (response.assertNoFault false).toOption,
              (response.assertItem none).toOption,
              response.items.toOption)) =
        some (none, some (), some 5, some [5]) := by
    decide +kernel
  have parsed :
      (Document.parse .standard Document.english true
          maskedFault).toOption.map
          (fun document =>
            (document.root?, parts document 0,
              Markup.localName (document.name 2))) =
        some (some 0, [2, 4], "Fault") := by
    decide +kernel
  obtain ⟨response, done, same⟩ := Option.map_eq_some_iff.mp seen
  obtain ⟨document, read, known⟩ := Option.map_eq_some_iff.mp parsed
  simp only [Prod.mk.injEq] at same known
  obtain ⟨noFault, nothing, item, items⟩ := same
  obtain ⟨root, partsAre, named⟩ := known
  exact
    ⟨response, document, 0, 2, 5, eq_ok_of_toOption done,
      eq_ok_of_toOption read, root, partsAre ▸ List.mem_cons_self, named,
      noFault, eq_ok_of_toOption nothing, eq_ok_of_toOption item,
      eq_ok_of_toOption items⟩

end AmlExchange.Response
