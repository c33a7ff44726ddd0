/-!
# Named fields in order of arrival

A table of fields keeps one value under each name.  A new name takes the last
place; a name that is written again keeps its place; a name that is erased
leaves the order of the others as it is.
-/

namespace AmlExchange

/-- Values under distinct names, in the order in which the names arrived. -/
@[ext]
structure Fields (α : Type) where
  entries : List (String × α)
  distinct : (entries.map Prod.fst).Nodup
deriving DecidableEq

namespace Fields

variable {α : Type}

/-- The table without fields. -/
def empty : Fields α :=
  ⟨[], List.nodup_nil⟩

instance : Inhabited (Fields α) :=
  ⟨empty⟩

/-- The names in order of arrival. -/
def names (fields : Fields α) : List String :=
  fields.entries.map Prod.fst

/-- The first value under a name in a list of named values. -/
def find? (name : String) : List (String × α) → Option α
  | [] => none
  | (other, value) :: rest =>
      if other = name then some value else find? name rest

/-- A list of named values with one of them written: in place where the name
occurs, at the end where it does not. -/
def write (name : String) (value : α) :
    List (String × α) → List (String × α)
  | [] => [(name, value)]
  | (other, old) :: rest =>
      if other = name then (name, value) :: rest
      else (other, old) :: write name value rest

/-- The value under a name. -/
def get? (fields : Fields α) (name : String) : Option α :=
  find? name fields.entries

/-- Whether a name has a value. -/
def contains (fields : Fields α) (name : String) : Bool :=
  (fields.get? name).isSome

theorem names_write (name : String) (value : α)
    (entries : List (String × α)) :
    (write name value entries).map Prod.fst =
      if name ∈ entries.map Prod.fst then entries.map Prod.fst
      else entries.map Prod.fst ++ [name] := by
  induction entries with
  | nil => simp [write]
  | cons entry rest ih =>
      obtain ⟨other, old⟩ := entry
      simp only [write]
      split
      · next same => simp [same]
      · next differ =>
          simp only [List.map_cons, ih, List.mem_cons]
          split <;> simp_all [Ne.symm differ]

/-- A table with one value written. -/
def insert (fields : Fields α) (name : String) (value : α) : Fields α where
  entries := write name value fields.entries
  distinct := by
    rw [names_write]
    split
    · exact fields.distinct
    · next absent =>
        rw [List.nodup_append]
        exact ⟨fields.distinct, by simp,
          fun other member last single => by
            simp only [List.mem_singleton] at single
            rintro rfl
            exact absent (single ▸ member)⟩

/-- A table without one of its names. -/
def erase (fields : Fields α) (name : String) : Fields α where
  entries := fields.entries.filter fun entry => entry.1 ≠ name
  distinct :=
    (List.filter_sublist.map Prod.fst).nodup fields.distinct

/-- A table written from a list, a later value under a name replacing an
earlier one. -/
def ofList (entries : List (String × α)) : Fields α :=
  entries.foldl (fun fields entry => fields.insert entry.1 entry.2) empty

/-- The number of fields. -/
def size (fields : Fields α) : Nat :=
  fields.entries.length

/-- Whether the table has no field. -/
def isEmpty (fields : Fields α) : Bool :=
  fields.entries.isEmpty

theorem find?_write (name other : String) (value : α)
    (entries : List (String × α)) :
    find? other (write name value entries) =
      if name = other then some value else find? other entries := by
  induction entries with
  | nil => simp [write, find?]
  | cons entry rest ih =>
      obtain ⟨first, old⟩ := entry
      simp only [write]
      split
      · next same =>
          subst same
          simp only [find?]
          split <;> rfl
      · next differ =>
          simp only [find?, ih]
          split
          · next found =>
              subst found
              simp [Ne.symm differ]
          · rfl

/-- The name written reads as the value; every other name reads as before. -/
theorem get?_insert (fields : Fields α) (name other : String) (value : α) :
    (fields.insert name value).get? other =
      if name = other then some value else fields.get? other :=
  find?_write name other value fields.entries

theorem find?_filter (name other : String) (entries : List (String × α)) :
    find? other (entries.filter fun entry => entry.1 ≠ name) =
      if name = other then none else find? other entries := by
  induction entries with
  | nil => simp [find?]
  | cons entry rest ih =>
      obtain ⟨first, value⟩ := entry
      by_cases same : first = name
      · subst same
        simp only [ne_eq, not_true_eq_false, decide_false, Bool.false_eq_true,
          not_false_eq_true, List.filter_cons_of_neg] at ih ⊢
        rw [ih]
        simp only [find?]
        split <;> simp_all
      · rw [List.filter_cons_of_pos (by simpa using same)]
        simp only [find?, ih]
        split
        · next found =>
            subst found
            simp [Ne.symm same]
        · rfl

/-- The name erased has no value; every other name reads as before. -/
theorem get?_erase (fields : Fields α) (name other : String) :
    (fields.erase name).get? other =
      if name = other then none else fields.get? other :=
  find?_filter name other fields.entries

theorem find?_of_mem
    {entries : List (String × α)} {entry : String × α}
    (distinct : (entries.map Prod.fst).Nodup) (member : entry ∈ entries) :
    find? entry.1 entries = some entry.2 := by
  induction entries with
  | nil => cases member
  | cons first rest ih =>
      rw [List.map_cons, List.nodup_cons] at distinct
      rw [find?]
      rcases List.mem_cons.mp member with rfl | member
      · rw [if_pos rfl]
      · rw [if_neg, ih distinct.2 member]
        rintro same
        exact distinct.1 (same ▸ List.mem_map_of_mem member)

theorem mem_of_find?
    {entries : List (String × α)} {name : String} {value : α}
    (found : find? name entries = some value) :
    (name, value) ∈ entries := by
  induction entries with
  | nil => cases found
  | cons first rest ih =>
      rw [find?] at found
      split at found
      · next same =>
          cases found
          subst same
          exact List.mem_cons_self
      · exact List.mem_cons_of_mem _ (ih found)

theorem find?_eq_none_iff
    {entries : List (String × α)} {name : String} :
    find? name entries = none ↔ name ∉ entries.map Prod.fst := by
  induction entries with
  | nil => simp [find?]
  | cons first rest ih =>
      rw [find?, List.map_cons, List.mem_cons, not_or]
      split
      · next same => simp [same]
      · next differs =>
          rw [ih]
          exact ⟨fun absent => ⟨Ne.symm differs, absent⟩, And.right⟩

/-- A table written over by two others is written over by the second alone if
and only if it has the rest of the first already. -/
theorem find?_or_find?_iff
    {first second : List (String × α)} {old : String → Option α}
    (distinct : (first.map Prod.fst).Nodup) :
    (∀ name, (find? name second).or
        ((find? name first).or (old name)) =
      (find? name second).or (old name)) ↔
      ∀ mark ∈ first, mark.1 ∉ second.map Prod.fst →
        old mark.1 = some mark.2 := by
  constructor
  · intro same mark member absent
    have written := same mark.1
    rw [find?_eq_none_iff.mpr absent, find?_of_mem distinct member] at written
    exact written.symm
  · intro present name
    cases later : find? name second with
    | some text => rfl
    | none =>
        cases earlier : find? name first with
        | none => rfl
        | some text =>
            have still :=
              present _ (mem_of_find? earlier) (find?_eq_none_iff.mp later)
            rw [Option.none_or, Option.none_or, Option.some_or, still]

theorem write_of_not_mem
    {name : String} {entries : List (String × α)}
    (fresh : name ∉ entries.map Prod.fst) (value : α) :
    write name value entries = entries ++ [(name, value)] := by
  induction entries with
  | nil => rfl
  | cons entry rest ih =>
      rw [List.map_cons, List.mem_cons, not_or] at fresh
      rw [write, if_neg (Ne.symm fresh.1), ih fresh.2, List.cons_append]

theorem entries_foldl_insert
    (entries : List (String × α)) (fields : Fields α)
    (distinct : ((fields.entries ++ entries).map Prod.fst).Nodup) :
    (entries.foldl (fun fields entry => fields.insert entry.1 entry.2)
      fields).entries = fields.entries ++ entries := by
  induction entries generalizing fields with
  | nil => exact (List.append_nil _).symm
  | cons entry rest ih =>
      have fresh : entry.1 ∉ fields.entries.map Prod.fst := by
        rw [List.map_append, List.nodup_append] at distinct
        exact fun member => distinct.2.2 _ member _ List.mem_cons_self rfl
      have written :
          (fields.insert entry.1 entry.2).entries =
            fields.entries ++ [entry] :=
        write_of_not_mem fresh entry.2
      rw [List.foldl_cons, ih, written, List.append_assoc,
        List.singleton_append]
      rw [written, List.append_assoc, List.singleton_append]
      exact distinct

/-- A list of fields under distinct names is a table as it is. -/
theorem entries_ofList
    {entries : List (String × α)}
    (distinct : (entries.map Prod.fst).Nodup) :
    (ofList entries).entries = entries :=
  entries_foldl_insert entries empty distinct

theorem find?_append
    (name : String) (first second : List (String × α)) :
    find? name (first ++ second) =
      (find? name first).or (find? name second) := by
  induction first with
  | nil => rfl
  | cons entry rest ih =>
      rw [List.cons_append, find?, find?, ih]
      split <;> rfl

@[simp]
theorem get?_empty (name : String) : (empty : Fields α).get? name = none :=
  rfl

end Fields

end AmlExchange
