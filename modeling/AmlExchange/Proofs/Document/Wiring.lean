import Mathlib.Logic.Function.Basic
import Mathlib.Logic.Relation
import Mathlib.Order.WellFounded

/-!
# Children and parents

A tree is kept twice: each element knows its children and each knows its
parent.  The two belong together, and no element lies below itself.  Hanging an
element, releasing one and shedding all children of one keep it so.
-/

namespace AmlExchange.Document

variable
  {children : Nat → List Nat} {parent? : Nat → Option Nat}

/-- Whether one element is the parent of another. -/
def IsParent (parent? : Nat → Option Nat) (parent child : Nat) : Prop :=
  parent? child = some parent

/-- Children and parents that belong together. -/
structure Wiring
    (children : Nat → List Nat) (parent? : Nat → Option Nat) : Prop where
  links : ∀ parent child,
    child ∈ children parent ↔ IsParent parent? parent child
  once : ∀ id, (children id).Nodup
  grounded : WellFounded (IsParent parent?)

namespace Wiring

theorem not_mem_of_free
    (wiring : Wiring children parent?) {child : Nat}
    (free : parent? child = none) (id : Nat) :
    child ∉ children id := by
  rw [wiring.links, IsParent, free]
  nofun

/-- An element has no parent above which it lies itself. -/
theorem grounded_hang
    (wiring : Wiring children parent?) {id child : Nat}
    (apart : ¬ Relation.ReflTransGen (IsParent parent?) child id) :
    WellFounded (IsParent (Function.update parent? child (some id))) := by
  have other {parent below : Nat} (differs : below ≠ child)
      (above : IsParent (Function.update parent? child (some id))
        parent below) :
      IsParent parent? parent below := by
    rwa [IsParent, Function.update_of_ne differs] at above
  -- What does not lie below the child has the parents that it had.
  have outside (start : Nat) :
      ¬ Relation.ReflTransGen (IsParent parent?) child start →
        Acc (IsParent (Function.update parent? child (some id))) start := by
    induction start using wiring.grounded.induction with
    | _ start ih =>
        intro away
        apply Acc.intro
        intro parent above
        have differs : start ≠ child := by
          rintro rfl
          exact away .refl
        have before := other differs above
        apply ih parent before
        intro below
        exact away (below.tail before)
  constructor
  intro start
  induction start using wiring.grounded.induction with
  | _ start ih =>
      apply Acc.intro
      intro parent above
      by_cases same : start = child
      · rw [IsParent, same, Function.update_self, Option.some_inj] at above
        rw [← above]
        exact outside id apart
      · exact ih parent (other same above)

/-- An element without a parent hung below one that does not lie below it. -/
theorem hang
    (wiring : Wiring children parent?) {id child : Nat}
    (free : parent? child = none)
    (apart : ¬ Relation.ReflTransGen (IsParent parent?) child id) :
    Wiring (Function.update children id (children id ++ [child]))
      (Function.update parent? child (some id)) := by
  refine ⟨?_, ?_, wiring.grounded_hang apart⟩
  · intro parent other
    rw [IsParent]
    by_cases hung : other = child
    · subst hung
      rw [Function.update_self, Option.some_inj]
      by_cases same : parent = id
      · subst same
        rw [Function.update_self]
        simp
      · rw [Function.update_of_ne same]
        have absent := wiring.not_mem_of_free free parent
        simp [absent, Ne.symm same]
    · rw [Function.update_of_ne hung]
      by_cases same : parent = id
      · subst same
        rw [Function.update_self, List.mem_append, List.mem_singleton,
          wiring.links]
        simp [IsParent, hung]
      · rw [Function.update_of_ne same]
        exact wiring.links parent other
  · intro parent
    by_cases same : parent = id
    · subst same
      rw [Function.update_self, List.nodup_append]
      refine ⟨wiring.once parent, by simp, ?_⟩
      rintro other before _ last rfl
      rw [List.mem_singleton.mp last] at before
      exact wiring.not_mem_of_free free parent before
    · rw [Function.update_of_ne same]
      exact wiring.once parent

/-- A child taken away from its parent. -/
theorem release
    (wiring : Wiring children parent?) {id child : Nat}
    (above : IsParent parent? id child) :
    Wiring (Function.update children id ((children id).filter (· ≠ child)))
      (Function.update parent? child none) := by
  have fewer {parent other : Nat}
      (still : IsParent (Function.update parent? child none) parent other) :
      other ≠ child ∧ IsParent parent? parent other := by
    rw [IsParent] at still
    by_cases same : other = child
    · rw [same, Function.update_self] at still
      cases still
    · rw [Function.update_of_ne same] at still
      exact ⟨same, still⟩
  refine ⟨?_, ?_, ?_⟩
  · intro parent other
    constructor
    · intro member
      have kept : other ∈ children parent ∧ other ≠ child := by
        by_cases same : parent = id
        · subst same
          rw [Function.update_self] at member
          simpa using member
        · rw [Function.update_of_ne same] at member
          refine ⟨member, ?_⟩
          rintro rfl
          have both := ((wiring.links parent other).mp member).symm.trans above
          exact same (Option.some_inj.mp both)
      rw [IsParent, Function.update_of_ne kept.2]
      exact (wiring.links parent other).mp kept.1
    · intro still
      obtain ⟨differs, before⟩ := fewer still
      have member := (wiring.links parent other).mpr before
      by_cases same : parent = id
      · subst same
        rw [Function.update_self]
        simpa using ⟨member, differs⟩
      · rw [Function.update_of_ne same]
        exact member
  · intro parent
    by_cases same : parent = id
    · subst same
      rw [Function.update_self]
      exact (wiring.once parent).filter _
    · rw [Function.update_of_ne same]
      exact wiring.once parent
  · exact Subrelation.wf (fun still => (fewer still).2) wiring.grounded

/-- All children taken away from an element. -/
theorem shed
    (wiring : Wiring children parent?) (id : Nat) :
    Wiring (Function.update children id [])
      (fun child => if child ∈ children id then none else parent? child) := by
  have fewer {parent other : Nat} :
      IsParent
          (fun child => if child ∈ children id then none else parent? child)
          parent other ↔
        other ∉ children id ∧ IsParent parent? parent other := by
    simp only [IsParent]
    split <;> simp_all
  refine ⟨?_, ?_, ?_⟩
  · intro parent other
    rw [fewer, ← wiring.links]
    by_cases same : parent = id
    · subst same
      rw [Function.update_self]
      simp
    · rw [Function.update_of_ne same]
      constructor
      · intro member
        refine ⟨?_, member⟩
        intro within
        have first := (wiring.links parent other).mp member
        have second := (wiring.links id other).mp within
        exact same (Option.some_inj.mp (first.symm.trans second))
      · exact fun both => both.2
  · intro parent
    by_cases same : parent = id
    · subst same
      rw [Function.update_self]
      exact List.nodup_nil
    · rw [Function.update_of_ne same]
      exact wiring.once parent
  · exact Subrelation.wf (fun still => (fewer.mp still).2) wiring.grounded

end Wiring

end AmlExchange.Document
