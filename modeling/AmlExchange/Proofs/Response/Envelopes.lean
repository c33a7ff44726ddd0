import AmlExchange.Response.Envelope
import AmlExchange.Proofs.Document.Depths
import AmlExchange.Proofs.Document.Lookups
import AmlExchange.Proofs.Document.Sparing

/-!
# Envelopes

What is written in the body of an envelope makes up pages, and what is read of
an envelope is read of these, one after the other (`exists_read_envelope`).
-/

namespace AmlExchange.Response

open Document (NodeId Tag Element nodeOf nodesOf reread rereadAll)
open Markup (Instruction effective effective_append)

/-! ## Pages -/

/-- An envelope with some parts. -/
def envelopeOf (parts : List (Document.Tree Tag)) : Document.Tree Tag :=
  .node
    ⟨Space.envelope.qualify "Envelope",
      [(Space.envelope.binding, Space.envelope.uri)], ""⟩
    [.node ⟨Space.envelope.qualify "Body", [], ""⟩ parts]

theorem localName_envelope :
    Markup.localName (Space.envelope.qualify "Envelope") = "Envelope" ∧
      Markup.localName (Space.envelope.qualify "Body") = "Body" ∧
      Markup.localName (Space.envelope.qualify "Fault") = "Fault" := by
  decide

/-- A page is written as an element that holds its text and the pages
below it. -/
theorem instructions_node
    (tag : Tag) (children : List (Document.Tree Tag)) :
    (nodeOf (.node tag children)).instructions =
      element tag.name
        (tag.attributes.map (fun field => .setAttribute field.1 field.2) ++
          .text tag.text ::
            Markup.Node.instructionsAll (nodesOf children)) := by
  simp [nodeOf, Markup.Node.instructions, Markup.Node.instructionsAll,
    element]

theorem effective_element
    {content other : List Instruction}
    (same : effective content = effective other) (name : String) :
    effective (element name content) = effective (element name other) := by
  have alike (first last : List Instruction) :
      effective (first ++ content ++ last) =
        effective (first ++ other ++ last) := by
    simp only [effective_append, same]
  exact alike [.startElement name] [.endElement]

theorem lawful_nodesOf
    {trees : List (Document.Tree Tag)}
    (lawful : ∀ tree ∈ trees, (nodeOf tree).Lawful) :
    Markup.Node.LawfulAll (nodesOf trees) := by
  induction trees with
  | nil => trivial
  | cons tree rest ih =>
      rw [List.forall_mem_cons] at lawful
      exact ⟨lawful.1, ih lawful.2⟩

/-- An envelope is lawful where its parts are. -/
theorem lawful_envelopeOf
    {parts : List (Document.Tree Tag)}
    (lawful : Markup.Node.LawfulAll (nodesOf parts)) :
    (nodeOf (envelopeOf parts)).Lawful := by
  have body :
      (nodeOf
        (.node ⟨Space.envelope.qualify "Body", [], ""⟩ parts)).Lawful := by
    rw [nodeOf, Markup.Node.Lawful]
    exact ⟨by decide, nofun, List.nodup_nil, trivial, lawful⟩
  rw [envelopeOf, nodeOf, Markup.Node.Lawful]
  exact
    ⟨by decide, List.forall_mem_singleton.mpr (by decide), by decide, trivial,
      body, trivial⟩

/-! ## The way back -/

/-- An element that is read of a page has the name of the page. -/
theorem name_of_page
    {document : Document} (linked : document.Linked) {node : NodeId}
    {parent : Option Document.Kind} {page : Document.Tree Tag}
    (written : document.tree node = reread parent page) :
    document.name node = page.label.name := by
  rw [Document.name, ← linked.label_tree, written, Document.name_reread]

/-- The elements below one that is read of a page are read of the pages below
that page. -/
theorem exists_only_child
    {document : Document} (linked : document.Linked) {node : NodeId}
    {parent : Option Document.Kind} {tag : Tag} {page : Document.Tree Tag}
    (written : document.tree node = reread parent (.node tag [page])) :
    ∃ child kind, document.children node = [child] ∧
      document.tree child = reread kind page := by
  have below := linked.children_tree node
  rw [written, Document.children_reread, rereadAll, rereadAll] at below
  obtain ⟨child, only, read⟩ := List.map_eq_singleton_iff.mp below.symm
  exact ⟨child, _, only, read⟩

/-- The elements in the body of an envelope are read of the pages there. -/
theorem exists_parts
    {document : Document} (linked : document.Linked) {root : NodeId}
    {pages : List (Document.Tree Tag)}
    (written : document.tree root = reread none (envelopeOf pages)) :
    ∃ kind, (parts document root).map document.tree =
      pages.map (reread kind) := by
  have isEnvelope :
      Markup.localName (document.name root) = "Envelope" := by
    rw [name_of_page linked written]
    exact localName_envelope.1
  obtain ⟨body, kind, onlyBody, bodyTree⟩ :=
    exists_only_child linked written
  have isBody : Markup.localName (document.name body) = "Body" := by
    rw [name_of_page linked bodyTree]
    exact localName_envelope.2.1
  have found : childNamed? document root "Body" = some body := by
    rw [childNamed?, onlyBody]
    exact List.find?_cons_of_pos (beq_iff_eq.mpr isBody)
  refine ⟨some (.classify (Space.envelope.qualify "Body") kind), ?_⟩
  rw [parts, if_pos isEnvelope, found, ← linked.children_tree, bodyTree,
    Document.children_reread]
  exact Document.rereadAll_eq_map ..

/-- The marking of elements as read-only is not seen in their trees. -/
theorem exists_run_freeze
    {document : Document} (linked : document.Linked) {root : NodeId}
    {node : Document.Node} (known : document.node? root = some node) :
    ∃ next,
      ([root].forM Document.freeze).run document = .ok () next ∧
        next.Linked ∧ next.tree = document.tree := by
  have alike :=
    @Document.tree_update (fun node => { node with readOnly := true })
      (fun _ => rfl) fun _ => rfl
  show
    ∃ next, (Document.freeze root >>= pure).run document = .ok () next ∧ _
  rw [bind_pure, Document.freeze, Document.assertKnown, bind_assoc,
    Document.run_get_bind, known]
  dsimp only
  rw [pure_bind, Document.run_get_bind, Document.run_forM_change]
  exact
    ⟨_, rfl, linked.relabelAll (Document.relabels_readOnly true) _,
      Document.read_updateAll alike _ _⟩

theorem edit_of_ok
    {response : Response} {document : Document}
    (held : response.document = document) {change : Document.Edit α}
    {result : α} {next : Document}
    (reached : change.run document = .ok result next) :
    response.edit change =
      (.ok result, { response with document := next }) := by
  rw [edit, held, reached]

theorem document_readPart
    (response : Response) (node : NodeId) :
    (readPart response node).document = response.document := by
  rw [readPart]
  split
  · split
    · split <;> rfl
    · rfl
  all_goals rfl

theorem document_foldl_readPart
    (nodes : List NodeId) (response : Response) :
    (nodes.foldl readPart response).document = response.document := by
  induction nodes generalizing response with
  | nil => rfl
  | cons node rest ih => rw [List.foldl_cons, ih, document_readPart]

/-- An envelope is read part by part.  Marking its elements read-only changes
nothing that is seen of them. -/
theorem exists_read_envelope
    {locale : Locale} {text : String} {pages : List (Document.Tree Tag)}
    (parsed :
      Document.parse .standard locale true text =
        .ok (Document.ofTrees locale true
          [reread none (envelopeOf pages)])) :
    ∃ (document next : Document) (nodes : List NodeId)
      (kind : Option Document.Kind),
      read locale text =
          .ok
            { nodes.foldl readPart (ofDocument document) with
              document := next } ∧
        document.Linked ∧
        nodes.map document.tree = pages.map (reread kind) ∧
        next.Linked ∧ next.tree = document.tree := by
  have valid := Document.valid_reread none (envelopeOf pages)
  have linked := Document.linked_ofTrees locale true valid
  have roots := Document.roots_ofTrees locale true valid
  have written := Document.tree_ofTrees locale true valid
  generalize Document.ofTrees locale true _ = document
    at parsed linked roots written
  obtain ⟨kind, partsRead⟩ := exists_parts linked written
  obtain ⟨body, -, below, -⟩ := exists_only_child linked written
  obtain ⟨node, known⟩ :=
    Document.exists_of_children (below ▸ List.cons_ne_nil body [])
  have root : document.root? = some 0 := by
    rw [Document.root?, roots]
    rfl
  obtain ⟨next, frozen, nextLinked, sameTrees⟩ :=
    exists_run_freeze linked known
  have ended :=
    edit_of_ok
      (document_foldl_readPart (parts document 0) (ofDocument document))
      frozen
  refine
    ⟨document, next, parts document 0, kind, ?_, linked, partsRead,
      nextLinked, sameTrees⟩
  rw [read, parsed]
  simp only [bind, Except.bind, root, roots, ended]
  rfl

end AmlExchange.Response
