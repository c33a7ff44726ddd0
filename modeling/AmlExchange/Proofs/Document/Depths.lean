import AmlExchange.Proofs.Document.Rereading

/-!
# How deep elements are nested

The markup of a page whose elements are nested no deeper than the reader allows
keeps the bounds of the reader (`within_nodeOf`), and within these a page is
read back (`parse_of_within`).
-/

namespace AmlExchange.Document

open Markup (Event Limits Shallow)

namespace Tree

variable {α : Type}

mutual

/-- The greatest number of labels of a tree that lie one below the other. -/
def depth : Tree α → Nat
  | node _ children => depthAll children + 1

/-- The greatest depth of some trees. -/
def depthAll : List (Tree α) → Nat
  | [] => 0
  | tree :: rest => max (depth tree) (depthAll rest)

end

/-- No tree is deeper than a bound for all of them. -/
theorem depthAll_le_iff
    {trees : List (Tree α)} {bound : Nat} :
    depthAll trees ≤ bound ↔ ∀ tree ∈ trees, tree.depth ≤ bound := by
  induction trees with
  | nil => simp [depthAll]
  | cons tree rest ih =>
      rw [depthAll, Nat.max_le, ih, List.forall_mem_cons]

end Tree

mutual

theorem shallow_nodeOf
    (tree : Tree Tag) {bound level : Nat} (room : level + tree.depth ≤ bound)
    {following : List Event} (shallow : Shallow bound level following) :
    Shallow bound level ((nodeOf tree).events ++ following) := by
  cases tree with
  | node tag children =>
      rw [Tree.depth] at room
      have inside :
          Shallow bound (level + 1)
            (Markup.Node.eventsAll (nodesOf children) ++
              (.finish tag.name :: following)) :=
        shallow_nodesOf children (by omega) ⟨nofun, shallow⟩
      rw [events_nodeOf, List.cons_append, List.cons_append,
        List.append_assoc]
      exact ⟨fun _ _ => by omega, nofun, inside⟩

/-- The elements of some pages fit within a bound for their depths. -/
theorem shallow_nodesOf
    (trees : List (Tree Tag)) {bound level : Nat}
    (room : level + Tree.depthAll trees ≤ bound) {following : List Event}
    (shallow : Shallow bound level following) :
    Shallow bound level
      (Markup.Node.eventsAll (nodesOf trees) ++ following) := by
  cases trees with
  | nil => exact shallow
  | cons tree rest =>
      rw [Tree.depthAll] at room
      rw [nodesOf, Markup.Node.eventsAll, List.append_assoc]
      apply shallow_nodeOf tree (by omega)
      exact shallow_nodesOf rest (by omega) shallow

end

section

variable {tree : Tree Tag} (lawful : (nodeOf tree).Lawful) {text : String}
  (written :
    (Markup.Draft.of (nodeOf tree).instructions).toText = .ok text)
  {limits : Limits}

include lawful written

/-- The markup of a page that is not too deep keeps the bounds. -/
theorem within_nodeOf
    (room : tree.depth ≤ limits.depth)
    (small : text.utf8ByteSize ≤ limits.size) :
    Markup.Within limits text := by
  have nested := nested_nodeOf tree
  have shallow : Shallow limits.depth 0 (nodeOf tree).events := by
    rw [← List.append_nil (nodeOf tree).events]
    exact shallow_nodeOf tree (by omega) trivial
  rw [Markup.Node.instructions_eq_flatMap, Markup.toText_events nested]
    at written
  cases written
  refine ⟨fun _ => small, ?_⟩
  rw [(Markup.delivered_unlimited nested
    (Markup.Node.lawful_events _ lawful) rfl).2]
  exact Markup.shallow_normalForm shallow

/-- A page is read back within bounds that its markup keeps. -/
theorem parse_of_within
    (within : Markup.Within limits text) (locale : Locale)
    (stored : Bool) :
    parse limits locale stored text =
      .ok (ofTrees locale stored [reread none tree]) := by
  have nested := nested_nodeOf tree
  have lawfulEvents := Markup.Node.lawful_events _ lawful
  rw [Markup.Node.instructions_eq_flatMap, Markup.toText_events nested]
    at written
  cases written
  have shallow := within.shallow
  rw [(Markup.delivered_unlimited nested lawfulEvents rfl).2] at shallow
  obtain ⟨⟨place, ended⟩, delivered⟩ :=
    Markup.delivered_of_markup nested lawfulEvents shallow rfl within.small
  rw [parse, ended, delivered, treesOf_normalForm, treesOf_nodeOf]

end

/-- A page is read back within bounds that it keeps. -/
theorem parse_nodeOf
    {tree : Tree Tag} (lawful : (nodeOf tree).Lawful) {limits : Limits}
    (room : tree.depth ≤ limits.depth) {text : String}
    (written :
      (Markup.Draft.of (nodeOf tree).instructions).toText = .ok text)
    (small : text.utf8ByteSize ≤ limits.size) (locale : Locale)
    (stored : Bool) :
    parse limits locale stored text =
      .ok (ofTrees locale stored [reread none tree]) :=
  parse_of_within lawful written (within_nodeOf lawful written room small)
    locale stored

end AmlExchange.Document
