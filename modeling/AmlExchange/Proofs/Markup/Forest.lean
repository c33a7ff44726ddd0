import AmlExchange.Proofs.Markup.Reading

/-!
# The reader undoes the writer

A forest of nodes is written by a walk over it: the start tag of an element,
its attributes, its children, its end.  The text is read back as the events of
the forest in normal form (`read_written_forest`).
-/

namespace AmlExchange.Markup

/-- A node of a forest. -/
inductive Node where
  | element (name : String) (attributes : List (String × String))
      (children : List Node)
  | text (content : String)
  | characterData (content : String)
  | comment (content : String)

namespace Node

/-! ## Walks over a forest -/

mutual

/-- The instructions that write a node. -/
def instructions : Node → List Instruction
  | .element name attributes children =>
      .startElement name ::
        attributes.map (fun field => .setAttribute field.1 field.2) ++
        instructionsAll children ++ [.endElement]
  | .text content => [.text content]
  | .characterData content => [.characterData content]
  | .comment content => [.comment content]

/-- The instructions that write some nodes. -/
def instructionsAll : List Node → List Instruction
  | [] => []
  | node :: rest => node.instructions ++ instructionsAll rest

end

mutual

/-- The events of a node, each element with a start tag and an end tag. -/
def events : Node → List Event
  | .element name attributes children =>
      .start name attributes false :: eventsAll children ++ [.finish name]
  | .text content => [.text content]
  | .characterData content => [.characterData content]
  | .comment content => [.comment content]

/-- The events of some nodes. -/
def eventsAll : List Node → List Event
  | [] => []
  | node :: rest => node.events ++ eventsAll rest

end

mutual

/-- Whether the names in a node are names, no element has two attributes of
one name, and no comment holds the mark that ends it. -/
def Lawful : Node → Prop
  | .element name attributes children =>
      isName name.toList = true ∧
        (∀ field ∈ attributes, isName field.1.toList = true) ∧
        (attributes.map Prod.fst).Nodup ∧ LawfulAll children
  | .comment content => ¬ "-->".toList <:+: content.toList
  | .text _ | .characterData _ => True

/-- Whether all nodes are lawful. -/
def LawfulAll : List Node → Prop
  | [] => True
  | node :: rest => node.Lawful ∧ LawfulAll rest

end

/-- Whether a node may stand outside of all elements. -/
def Outermost : Node → Prop
  | .element _ _ _ | .comment _ => True
  | .text _ | .characterData _ => False

/-! ## Their events -/

mutual

theorem instructions_eq_flatMap
    (node : Node) :
    node.instructions = node.events.flatMap Event.instructions := by
  cases node with
  | element name attributes children =>
      simp [instructions, events, Event.instructions,
        instructionsAll_eq_flatMap children]
  | text content | characterData content | comment content => rfl

/-- Writing a forest is writing its events. -/
theorem instructionsAll_eq_flatMap
    (nodes : List Node) :
    instructionsAll nodes =
      (eventsAll nodes).flatMap Event.instructions := by
  cases nodes with
  | nil => rfl
  | cons node rest =>
      rw [instructionsAll, eventsAll, List.flatMap_append,
        instructions_eq_flatMap node, instructionsAll_eq_flatMap rest]

end

mutual

theorem nested_events
    (node : Node) {names : List String}
    (placed : names = [] → node.Outermost)
    {following : List Event} (nested : Nested names following) :
    Nested names (node.events ++ following) := by
  cases node with
  | element name attributes children =>
      rw [events, List.cons_append, List.cons_append, List.append_assoc]
      refine nested_cons.mpr ⟨name :: names, rfl, ?_⟩
      apply nested_eventsAll children (by simp)
      exact nested_cons.mpr ⟨names, nest?_finish.mpr rfl, nested⟩
  | text content =>
      exact nested_cons.mpr ⟨names, nest?_text.mpr ⟨placed, rfl⟩, nested⟩
  | characterData content | comment content =>
      exact nested_cons.mpr ⟨names, rfl, nested⟩

/-- The events of a forest end every element that they start. -/
theorem nested_eventsAll
    (nodes : List Node) {names : List String}
    (placed : names = [] → ∀ node ∈ nodes, node.Outermost)
    {following : List Event} (nested : Nested names following) :
    Nested names (eventsAll nodes ++ following) := by
  cases nodes with
  | nil => exact nested
  | cons node rest =>
      rw [eventsAll, List.append_assoc]
      apply nested_events node (fun outside => placed outside node (by simp))
      apply nested_eventsAll rest _ nested
      intro outside other member
      exact placed outside other (List.mem_cons_of_mem node member)

end

mutual

theorem lawful_events
    (node : Node) (lawful : node.Lawful) :
    ∀ event ∈ node.events, event.Lawful := by
  cases node with
  | element name attributes children =>
      rw [Lawful] at lawful
      obtain ⟨isName, areNames, distinct, lawfulChildren⟩ := lawful
      simp only [events, List.forall_mem_append, List.forall_mem_cons]
      exact
        ⟨⟨⟨isName, areNames, distinct⟩,
          lawful_eventsAll children lawfulChildren⟩, trivial, nofun⟩
  | comment content =>
      rw [Lawful] at lawful
      exact List.forall_mem_singleton.mpr lawful
  | text content | characterData content =>
      exact List.forall_mem_singleton.mpr trivial

theorem lawful_eventsAll
    (nodes : List Node) (lawful : LawfulAll nodes) :
    ∀ event ∈ eventsAll nodes, event.Lawful := by
  cases nodes with
  | nil => exact nofun
  | cons node rest =>
      rw [LawfulAll] at lawful
      rw [eventsAll, List.forall_mem_append]
      exact ⟨lawful_events node lawful.1, lawful_eventsAll rest lawful.2⟩

end

/-! ## The way back -/

/-- Every lawful forest is written, and read back as its events, except that an
element without content is empty, that text which is empty leaves nothing and
adjacent texts are one, and that unescaped text comes as sections, which one
after the other are that text. -/
theorem read_written_forest
    (forest : List Node)
    (outermost : ∀ node ∈ forest, node.Outermost)
    (lawful : LawfulAll forest) :
    ∃ text place,
      (Draft.of (instructionsAll forest)).toText = .ok text ∧
        (read .unlimited text).ending = .ok place ∧
        (read .unlimited text).events.map Prod.fst =
          normalForm (eventsAll forest) ∧
        ∀ content, (sections content).flatten = content := by
  have nested : Nested [] (eventsAll forest ++ []) :=
    nested_eventsAll forest (fun _ => outermost) (nested_nil.mpr rfl)
  rw [List.append_nil] at nested
  obtain ⟨text, written, ⟨place, ended⟩, delivered⟩ :=
    delivered_toText nested (lawful_eventsAll forest lawful)
  rw [← instructionsAll_eq_flatMap] at written
  exact ⟨text, place, written, ended, delivered, flatten_sections⟩

/-- A root of empty text, two adjacent texts and an overlapping end mark. -/
theorem read_written_forest_of_marks :
    ∃ text place,
      (Draft.of
          (instructionsAll
            [.comment "a", .element "r" [("k", "<\"&")]
              [.text "x<", .text "", .text "]]>", .element "e" [] [.text ""],
                .characterData "]]]>>"]])).toText = .ok text ∧
        (read .unlimited text).ending = .ok place ∧
        (read .unlimited text).events.map Prod.fst =
          normalForm
            (eventsAll
              [.comment "a", .element "r" [("k", "<\"&")]
                [.text "x<", .text "", .text "]]>",
                  .element "e" [] [.text ""],
                  .characterData "]]]>>"]]) ∧
        ∀ content, (sections content).flatten = content :=
  read_written_forest _ (by simp [Outermost])
    (by simp [LawfulAll, Lawful]; decide)

end Node

end AmlExchange.Markup
