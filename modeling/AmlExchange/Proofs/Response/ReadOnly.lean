import AmlExchange.Proofs.Document.FreezeWalk
import AmlExchange.Proofs.Document.Refusals
import AmlExchange.Proofs.Response.Reachable

/-!
# Responses that may not be changed

A response is frozen from the roots of its document on.  Every element that is
read hangs from some root, so that all of them are frozen, the items and the
message among them, and every change of one of them is refused
(`readOnly_throughout`).
-/

namespace AmlExchange

namespace Document

variable {document : Document} {id : NodeId} {node : Node}

/-! ## Changes that are refused -/

/-- The changes of one element. -/
def changes (id : NodeId) (content : Content) (name value : String) :
    List (Edit Unit) :=
  [add id content, set id content, setAttribute id name value,
    removeAttribute id name, removeAttributes id, remove id, removeNodes id]

theorem run_bind_of_readOnly
    {α : Type} (known : document.node? id = some node)
    (locked : node.readOnly = true) (second : Unit → Edit α) :
    (assertModifiable id >>= second).run document =
      .error (Refusal.readOnly node.label.name).fault document := by
  rw [assertModifiable, bind_assoc, run_get_bind, known]
  dsimp only
  rw [locked]
  rfl

/-- All changes of a read-only element are refused and change nothing. -/
theorem run_change_of_readOnly
    (known : document.node? id = some node) (locked : node.readOnly = true)
    (content : Content) (name value : String) :
    ∀ change ∈ changes id content name value,
      change.run document =
        .error (Refusal.readOnly node.label.name).fault document := by
  have refused {α : Type} (second : Unit → Edit α) :=
    run_bind_of_readOnly known locked second
  simp only [changes, List.forall_mem_cons]
  refine ⟨?_, ?_, ?_, ?_, ?_, ?_, ?_, List.forall_mem_nil _⟩
  · cases content <;> exact refused _
  all_goals exact refused _

end Document

namespace Response

open Document (NodeId)

/-! ## Items and messages -/

/-- Whether a response has elements of its document for its items and for its
message. -/
structure Inside (response : Response) : Prop where
  items : ∀ ids, response.payload = .items ids →
    ∀ id ∈ ids, id < response.document.nodes.size
  message : ∀ message, response.message = some message →
    message < response.document.nodes.size

theorem inside_ofDocument
    (document : Document) :
    (ofDocument document).Inside :=
  ⟨nofun, nofun⟩

theorem Inside.change
    {response : Response} (inside : response.Inside) {next : Document}
    (size : next.nodes.size = response.document.nodes.size) :
    Inside { response with document := next } := by
  refine ⟨?_, ?_⟩
  · intro ids held id member
    rw [size]
    exact inside.items ids held id member
  · intro message given
    rw [size]
    exact inside.message message given

theorem inside_readPart
    {response : Response} (linked : response.document.Linked)
    (inside : response.Inside) {node : NodeId}
    (known : node < response.document.nodes.size) :
    (readPart response node).Inside := by
  have plain (payload : Payload) (none : ∀ ids, payload ≠ .items ids) :
      Inside { response with payload } :=
    ⟨fun ids held => absurd held (none ids), inside.message⟩
  rw [readPart]
  split
  · split
    · split
      · exact plain _ (by rintro ids ⟨⟩)
      · exact inside
    · refine ⟨?_, inside.message⟩
      rintro _ ⟨rfl⟩ id member
      exact linked.lt_of_mem_children (List.mem_filter.mp member).1
  · refine ⟨?_, inside.message⟩
    intro ids held
    have alone : ∀ id ∈ [node], id < response.document.nodes.size :=
      List.forall_mem_singleton.mpr known
    have extended : response.payload.addItem node = .items ids := held
    cases payload : response.payload with
    | items before =>
        rw [payload] at extended
        cases extended
        exact List.forall_mem_append.mpr ⟨inside.items before payload, alone⟩
    | empty | value _ | fault _ =>
        rw [payload] at extended
        cases extended
        exact alone
  · refine ⟨inside.items, ?_⟩
    rintro _ ⟨rfl⟩
    exact known
  · exact plain _ (by rintro ids ⟨⟩)
  · exact inside

theorem inside_foldl_readPart
    {response : Response} (linked : response.document.Linked)
    (inside : response.Inside) {nodes : List NodeId}
    (known : ∀ node ∈ nodes, node < response.document.nodes.size) :
    (nodes.foldl readPart response).Inside := by
  induction nodes generalizing response with
  | nil => exact inside
  | cons node rest ih =>
      rw [List.forall_mem_cons] at known
      have next := inside_readPart linked inside known.1
      have same := document_readPart response node
      exact ih (same ▸ linked) next (same ▸ known.2)

theorem known_parts
    {document : Document} (linked : document.Linked) (root : NodeId) :
    ∀ part ∈ parts document root, part < document.nodes.size := by
  intro part member
  rw [parts] at member
  split at member
  · split at member
    · exact linked.lt_of_mem_children member
    · cases member
  · obtain ⟨node, known, -⟩ := Document.mem_roots_iff.mp member
    exact Document.lt_of_node? known

theorem mem_items
    {response : Response} {ids : List NodeId} (held : response.items = .ok ids)
    (inside : response.Inside) :
    ∀ id ∈ ids, id < response.document.nodes.size := by
  rw [items] at held
  split at held
  · split at held
    · cases held
      exact List.forall_mem_nil _
    · cases held
  · split at held
    · next listed =>
        cases held
        exact inside.items _ listed
    · cases held
      exact List.forall_mem_nil _

/-! ## Responses that are read -/

/-- What is read of an envelope is frozen from its roots on. -/
theorem exists_parsed_of_read
    {locale : Locale} {text : String} {response : Response}
    (done : read locale text = .ok response) :
    ∃ parsed,
      Document.parse .standard locale true text = .ok parsed ∧
        response.document = parsed.lock (parsed.hanging parsed.roots) ∧
        response.Inside := by
  rw [read] at done
  cases parsed : Document.parse .standard locale true text with
  | error fault =>
      rw [parsed] at done
      cases done
  | ok document =>
      have linked := Document.linked_parse parsed
      simp only [parsed, bind, Except.bind] at done
      split at done
      · cases done
      · next root _ =>
          have held :
              ((parts document root).foldl readPart
                (ofDocument document)).document =
                document :=
            document_foldl_readPart ..
          have inside :=
            inside_foldl_readPart linked (inside_ofDocument document)
              (known_parts linked root)
          have frozen := linked.run_freeze_roots.1
          generalize (parts document root).foldl readPart _ = gathered
            at done held inside
          rw [edit_of_ok held frozen] at done
          obtain ⟨_, -, rfl⟩ := map_eq_ok_iff.mp done
          refine ⟨document, rfl, rfl, inside.change ?_⟩
          rw [held, Document.size_lock]

/-- A response that is read may not be changed.  All its elements were sent by
the server and are read-only, for they hang from the roots, from which the
response is frozen, and every change of one of them is refused.  Its items and
its message are among them. -/
theorem readOnly_throughout
    {locale : Locale} {text : String} {response : Response}
    (done : read locale text = .ok response) :
    let document := response.document
    (∃ parsed,
      Document.parse .standard locale true text = .ok parsed ∧
        (parsed.roots.forM Document.freezeByWalk).run parsed =
          .ok () document) ∧
      (∀ id < document.nodes.size,
        document.isReadOnly id = true ∧ document.isStored id = true ∧
          ∃ root ∈ document.roots, document.Below root id) ∧
      (∀ ids, response.items = .ok ids →
        ∀ id ∈ ids, id < document.nodes.size) ∧
      (∀ message, response.message = some message →
        message < document.nodes.size) ∧
      ∀ id < document.nodes.size,
        let fault := (Document.Refusal.readOnly (document.name id)).fault
        fault.kind = .invalidOperation ∧
          ∀ content name value,
            ∀ change ∈ Document.changes id content name value,
              change.run document = .error fault document := by
  intro document
  obtain ⟨parsed, read, frozen, inside⟩ := exists_parsed_of_read done
  have same :
      document = parsed.lock (parsed.hanging parsed.roots) :=
    frozen
  have origin := Document.linked_parse read
  have linked : document.Linked := same ▸ origin.lock _
  have marks (id : NodeId) (node : Document.Node)
      (known : document.node? id = some node) :
      node.readOnly = true ∧ node.stored = true ∧
        node.parent ≠ .detached := by
    rw [same] at known
    obtain ⟨before, found, stored, place⟩ := Document.marks_of_lock known
    rw [stored, place]
    refine ⟨?_, Document.marks_parse read found⟩
    apply origin.readOnly_of_lock_roots _ known
    exact fun _ _ found => (Document.marks_parse read found).2
  refine ⟨⟨parsed, read, ?_⟩, ?_, ?_, inside.message, ?_⟩
  · rw [same]
    exact origin.run_freeze_roots.2
  · intro id before
    obtain ⟨node, known⟩ := Document.exists_node?_iff.mpr before
    obtain ⟨readOnly, stored, -⟩ := marks id node known
    refine ⟨?_, ?_, ?_⟩
    · rw [Document.isReadOnly_of_node? known, readOnly]
    · rw [Document.isStored, known]
      exact stored
    · apply linked.exists_root _ known
      exact fun id node known => (marks id node known).2.2
  · exact fun ids held => mem_items held inside
  · intro id before
    obtain ⟨node, known⟩ := Document.exists_node?_iff.mpr before
    refine ⟨rfl, fun content name value => ?_⟩
    rw [Document.name, Document.label_of_node? known]
    exact
      Document.run_change_of_readOnly known (marks id node known).1 content
        name value

/-- An item and a message below two roots. -/
def resultAndMessage : String :=
  "<Result><Item type='Part'/></Result><Message>done</Message>"

theorem exists_read_resultAndMessage :
    ∃ response,
      read Document.english resultAndMessage = .ok response ∧
        response.document.roots = [0, 2] ∧
        response.document.nodes.size = 3 ∧
        response.document.name 1 = "Item" := by
  have seen :
      (read Document.english resultAndMessage).toOption.map
          (fun response =>
            (response.document.roots, response.document.nodes.size,
              response.document.name 1)) =
        some ([0, 2], 3, "Item") := by
    decide +kernel
  obtain ⟨response, done, same⟩ := Option.map_eq_some_iff.mp seen
  simp only [Prod.mk.injEq] at same
  exact ⟨response, eq_ok_of_toOption done, same⟩

/-- The item below the first root may not be removed. -/
theorem item_of_read_is_readOnly :
    ∃ response,
      read Document.english resultAndMessage = .ok response ∧
        response.document.isReadOnly 1 = true ∧
        (Document.remove 1).run response.document =
          .error (Document.Refusal.readOnly "Item").fault
            response.document := by
  obtain ⟨response, done, -, size, name⟩ := exists_read_resultAndMessage
  obtain ⟨-, marks, -, -, refused⟩ := readOnly_throughout done
  have known : 1 < response.document.nodes.size := by
    rw [size]
    decide
  have removed :=
    (refused 1 known).2 (.value .null) "" "" (Document.remove 1)
      (by simp [Document.changes])
  rw [name] at removed
  exact ⟨response, done, (marks 1 known).1, removed⟩

end Response

end AmlExchange
