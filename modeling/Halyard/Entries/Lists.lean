import Mathlib

/-!
# Lists of named entries

An entry that is put into a list keeps its place if it was there, and comes last if not.
-/

namespace Halyard.Entries

variable {Name Value : Type} [DecidableEq Name]

/-- An entry that is there keeps its place; a new one comes last. -/
def put (name : Name) (value : Value) : List (Name × Value) → List (Name × Value)
  | [] => [(name, value)]
  | entry :: rest => if entry.1 = name then (name, value) :: rest else entry :: put name value rest

def take (name : Name) (entries : List (Name × Value)) : List (Name × Value) :=
  entries.filter fun entry => entry.1 ≠ name

def names (entries : List (Name × Value)) : List Name :=
  entries.map Prod.fst

theorem names_put (name : Name) (value : Value) (entries : List (Name × Value)) :
    names (put name value entries) =
      if name ∈ names entries then names entries else names entries ++ [name] := by
  induction entries with
  | nil => rfl
  | cons entry rest ih =>
    by_cases same : entry.1 = name
    · simp [put, names, same]
    · have later : name ∈ names (entry :: rest) ↔ name ∈ names rest := by
        simp [names, Ne.symm same]
      rw [put, if_neg same]
      change entry.1 :: names (put name value rest) = _
      rw [ih]
      simp only [later]
      split <;> rfl

theorem mem_names_put {name other : Name} {value : Value} {entries : List (Name × Value)} :
    other ∈ names (put name value entries) ↔ other = name ∨ other ∈ names entries := by
  rw [names_put]
  split
  next present =>
    constructor
    · exact Or.inr
    · rintro (rfl | there)
      · exact present
      · exact there
  next => simp [or_comm]

theorem nodup_put {name : Name} {value : Value} {entries : List (Name × Value)}
    (nodup : (names entries).Nodup) : (names (put name value entries)).Nodup := by
  rw [names_put]
  split
  next => exact nodup
  next absent => exact List.nodup_append.mpr ⟨nodup, List.nodup_singleton name,
    fun other there _ same => by
      rintro rfl
      exact absent (List.mem_singleton.mp same ▸ there)⟩

theorem mem_put {name : Name} {value : Value} {entry : Name × Value} {entries : List (Name × Value)}
    (there : entry ∈ put name value entries) : entry = (name, value) ∨ entry ∈ entries := by
  induction entries with
  | nil => exact Or.inl (List.mem_singleton.mp there)
  | cons first rest ih =>
    rw [put] at there
    split at there
    next =>
      rcases List.mem_cons.mp there with rfl | later
      · exact Or.inl rfl
      · exact Or.inr (List.mem_cons_of_mem _ later)
    next =>
      rcases List.mem_cons.mp there with rfl | later
      · exact Or.inr List.mem_cons_self
      · exact (ih later).imp_right (List.mem_cons_of_mem _)

theorem put_put (name : Name) (value value' : Value) (entries : List (Name × Value)) :
    put name value' (put name value entries) = put name value' entries := by
  induction entries with
  | nil => simp [put]
  | cons entry rest ih =>
    by_cases same : entry.1 = name
    · simp [put, same]
    · simp [put, same, ih]

/-- A change in place does not depend on what is put elsewhere. -/
theorem put_comm {name other : Name} {value value' : Value} {entries : List (Name × Value)}
    (present : name ∈ names entries) (differ : name ≠ other) :
    put name value (put other value' entries) = put other value' (put name value entries) := by
  induction entries with
  | nil => cases present
  | cons entry rest ih =>
    by_cases first : entry.1 = name
    · have apart : entry.1 ≠ other := fun same => differ (first.symm.trans same)
      simp [put, first, differ]
    · have later : name ∈ names rest := by
        rcases List.mem_cons.mp present with same | later
        · exact absurd same.symm first
        · exact later
      by_cases second : entry.1 = other
      · simp [put, second, Ne.symm differ]
      · simp [put, first, second, ih later]

theorem take_eq_self {name : Name} {entries : List (Name × Value)} (absent : name ∉ names entries) :
    take name entries = entries := by
  refine List.filter_eq_self.mpr fun entry there => ?_
  rw [decide_eq_true_eq]
  rintro rfl
  exact absent (List.mem_map_of_mem there)

theorem mem_names_take {name other : Name} {entries : List (Name × Value)} :
    other ∈ names (take name entries) ↔ other ∈ names entries ∧ other ≠ name := by
  simp only [names, take, List.mem_map, List.mem_filter, decide_eq_true_eq]
  constructor
  · rintro ⟨entry, ⟨there, differ⟩, rfl⟩
    exact ⟨⟨entry, there, rfl⟩, differ⟩
  · rintro ⟨⟨entry, there, rfl⟩, differ⟩
    exact ⟨entry, ⟨there, differ⟩, rfl⟩

theorem nodup_take {name : Name} {entries : List (Name × Value)} (nodup : (names entries).Nodup) :
    (names (take name entries)).Nodup :=
  nodup.sublist (List.filter_sublist.map Prod.fst)

/-- The entries whose names are not among the given ones. -/
def without (gone : List Name) (entries : List (Name × Value)) : List (Name × Value) :=
  entries.filter fun entry => entry.1 ∉ gone

variable {gone : List Name}

theorem without_eq_self {entries : List (Name × Value)}
    (apart : ∀ name ∈ gone, name ∉ names entries) : without gone entries = entries := by
  refine List.filter_eq_self.mpr fun entry there => ?_
  rw [decide_eq_true_eq]
  exact fun taken => apart entry.1 taken (List.mem_map_of_mem there)

theorem without_take {name : Name} (taken : name ∈ gone) (entries : List (Name × Value)) :
    without gone (take name entries) = without gone entries := by
  rw [without, take, List.filter_filter]
  refine List.filter_congr fun entry _ => ?_
  by_cases same : entry.1 = name
  · simp [same, taken]
  · simp [same]

theorem without_cons (entry : Name × Value) (rest : List (Name × Value)) :
    without gone (entry :: rest) =
      if entry.1 ∈ gone then without gone rest else entry :: without gone rest := by
  by_cases taken : entry.1 ∈ gone <;> simp [without, taken]

theorem without_put_of_mem {name : Name} {value : Value} (taken : name ∈ gone)
    (entries : List (Name × Value)) :
    without gone (put name value entries) = without gone entries := by
  induction entries with
  | nil => simp [put, without, taken]
  | cons entry rest ih =>
    by_cases same : entry.1 = name
    · simp [put, without_cons, same, taken]
    · rw [put, if_neg same, without_cons, without_cons, ih]

theorem without_put {name : Name} {value : Value} (kept : name ∉ gone)
    (entries : List (Name × Value)) :
    without gone (put name value entries) = put name value (without gone entries) := by
  induction entries with
  | nil => simp [put, without, kept]
  | cons entry rest ih =>
    by_cases same : entry.1 = name
    · simp [put, without_cons, same, kept]
    · rw [put, if_neg same, without_cons, without_cons, ih]
      split
      next => rfl
      next => rw [put, if_neg same]

end Halyard.Entries
