import Halyard.Entries.Lists

/-!
# Maps of params

`ParamsMap` of `router/params.rs`, with the keys in the order of their first values.  `unescape` is
`Url::unescape`, which each insertion calls.

* `getAll_fromIter`: the values of a key in a map that is collected, each unescaped once.
* `fromIter_intoIter`: a map that is collected again, each value unescaped once more.
-/

namespace Halyard.Router

open Entries

variable {Key : Type} [DecidableEq Key]

/-- The entries with one more value for a key. -/
def addValue (key : Key) (value : List Char) :
    List (Key × List (List Char)) → List (Key × List (List Char))
  | [] => [(key, [value])]
  | entry :: rest =>
      if entry.1 = key then (entry.1, entry.2 ++ [value]) :: rest else entry :: addValue key value rest

theorem names_addValue (key : Key) (value : List Char) (entries : List (Key × List (List Char))) :
    names (addValue key value entries) =
      if key ∈ names entries then names entries else names entries ++ [key] := by
  induction entries with
  | nil => rfl
  | cons entry rest ih =>
    by_cases same : entry.1 = key
    · have there : key ∈ names (entry :: rest) := same ▸ List.mem_cons_self
      rw [addValue, if_pos same, if_pos there]
      rfl
    · have later : key ∈ names (entry :: rest) ↔ key ∈ names rest := by
        simp [names, Ne.symm same]
      rw [addValue, if_neg same]
      change entry.1 :: names (addValue key value rest) = _
      rw [ih]
      simp only [later]
      split <;> rfl

theorem nodup_addValue {key : Key} {value : List Char} {entries : List (Key × List (List Char))}
    (nodup : (names entries).Nodup) : (names (addValue key value entries)).Nodup := by
  rw [names_addValue]
  split
  next => exact nodup
  next absent => exact List.concat_eq_append ▸ nodup.concat absent

def allOf (key : Key) : List (Key × List (List Char)) → Option (List (List Char))
  | [] => none
  | entry :: rest => if entry.1 = key then some entry.2 else allOf key rest

@[ext]
structure ParamsMap (Key : Type) where
  entries : List (Key × List (List Char))
  nodup : (names entries).Nodup

namespace ParamsMap

def new : ParamsMap Key := ⟨[], List.nodup_nil⟩

def insert (unescape : List Char → List Char) (map : ParamsMap Key) (key : Key) (value : List Char) :
    ParamsMap Key :=
  ⟨addValue key (unescape value) map.entries, nodup_addValue map.nodup⟩

def getAll (map : ParamsMap Key) (key : Key) : Option (List (List Char)) :=
  allOf key map.entries

def fromIter (unescape : List Char → List Char) (pairs : List (Key × List Char)) : ParamsMap Key :=
  pairs.foldl (fun map pair => map.insert unescape pair.1 pair.2) new

def intoIter (map : ParamsMap Key) : List (Key × List Char) :=
  map.entries.flatMap fun entry => entry.2.map fun value => (entry.1, value)

/-- `?`, and `key=value` for each value with `&` between. -/
def toQueryString (escape : List Char → List Char) (map : ParamsMap (List Char)) : List Char :=
  if map.entries = [] then []
  else
    let buf := '?' :: map.entries.flatMap fun entry =>
      entry.2.flatMap fun value => escape entry.1 ++ '=' :: escape value ++ ['&']
    if 1 < buf.length then buf.dropLast else buf

/-! ## The values of a key -/

/-- The values that pairs have for a key. -/
def valuesOf (key : Key) (pairs : List (Key × List Char)) : List (List Char) :=
  (pairs.filter fun pair => pair.1 = key).map Prod.snd

theorem valuesOf_append (key : Key) (pairs more : List (Key × List Char)) :
    valuesOf key (pairs ++ more) = valuesOf key pairs ++ valuesOf key more := by
  rw [valuesOf, List.filter_append, List.map_append]
  rfl

theorem valuesOf_cons (key : Key) (pair : Key × List Char) (pairs : List (Key × List Char)) :
    valuesOf key (pair :: pairs) = (if pair.1 = key then [pair.2] else []) ++ valuesOf key pairs := by
  by_cases same : pair.1 = key
  · simp [valuesOf, same]
  · simp [valuesOf, same]

theorem allOf_addValue (key other : Key) (value : List Char) (entries : List (Key × List (List Char))) :
    allOf key (addValue other value entries) =
      if other = key then some ((allOf key entries).getD [] ++ [value]) else allOf key entries := by
  induction entries with
  | nil => rfl
  | cons entry rest ih =>
    by_cases there : entry.1 = other
    · subst there
      by_cases same : entry.1 = key
      · simp only [addValue, allOf, if_true, if_pos same, Option.getD_some]
      · simp only [addValue, allOf, if_true, if_neg same]
    · rw [addValue, if_neg there, allOf, allOf, ih]
      by_cases same : entry.1 = key
      · rw [if_pos same, if_pos same, if_neg fun other => there (same.trans other.symm)]
      · rw [if_neg same, if_neg same]

/-- The values after a collection, as pairs are added. -/
theorem allOf_foldl (unescape : List Char → List Char) (key : Key) (pairs : List (Key × List Char))
    (map : ParamsMap Key) :
    allOf key (pairs.foldl (fun map pair => map.insert unescape pair.1 pair.2) map).entries =
      if valuesOf key pairs = [] then map.getAll key
      else some ((map.getAll key).getD [] ++ (valuesOf key pairs).map unescape) := by
  induction pairs generalizing map with
  | nil => rfl
  | cons pair pairs ih =>
    rw [List.foldl_cons, ih, valuesOf_cons, getAll, insert, allOf_addValue]
    by_cases same : pair.1 = key
    · by_cases last : valuesOf key pairs = []
      · simp [same, last, getAll]
      · simp [same, last, getAll]
    · simp [same, getAll]

/-- A key without values is not there. -/
def present (values : List (List Char)) : Option (List (List Char)) :=
  if values = [] then none else some values

theorem present_getD (values : List (List Char)) : (present values).getD [] = values := by
  unfold present
  split
  next empty => exact empty.symm
  next => rfl

theorem present_of_ne {values : List (List Char)} (some_ : values ≠ []) : present values = some values :=
  if_neg some_

/-- The values of a key in a map that is collected. -/
theorem getAll_fromIter (unescape : List Char → List Char) (key : Key)
    (pairs : List (Key × List Char)) :
    (fromIter unescape pairs).getAll key = present ((valuesOf key pairs).map unescape) := by
  have collected : (fromIter unescape pairs).getAll key =
      if valuesOf key pairs = [] then none else some ((valuesOf key pairs).map unescape) :=
    allOf_foldl unescape key pairs new
  rw [collected, present]
  simp only [List.map_eq_nil_iff]

theorem valuesOf_entry (key : Key) (entry : Key × List (List Char)) :
    valuesOf key (entry.2.map fun value => (entry.1, value)) = if entry.1 = key then entry.2 else [] := by
  by_cases same : entry.1 = key
  · simp [valuesOf, same, List.filter_map, Function.comp_def]
  · simp [valuesOf, same, List.filter_map, Function.comp_def]

theorem allOf_none {key : Key} {entries : List (Key × List (List Char))} (absent : key ∉ names entries) :
    allOf key entries = none := by
  induction entries with
  | nil => rfl
  | cons entry rest ih =>
    obtain ⟨first, later⟩ := not_or.mp (mt List.mem_cons.mpr absent)
    rw [allOf, if_neg (Ne.symm first), ih later]

theorem valuesOf_intoIter (key : Key) (map : ParamsMap Key) :
    valuesOf key map.intoIter = (map.getAll key).getD [] := by
  obtain ⟨entries, nodup⟩ := map
  unfold intoIter getAll
  dsimp only
  induction entries with
  | nil => rfl
  | cons entry rest ih =>
    obtain ⟨absent, nodup⟩ := List.nodup_cons.mp nodup
    rw [List.flatMap_cons, valuesOf_append, valuesOf_entry, ih nodup, allOf]
    by_cases same : entry.1 = key
    · subst same
      rw [if_pos rfl, if_pos rfl, allOf_none absent]
      exact List.append_nil _
    · rw [if_neg same, if_neg same]
      rfl

theorem valuesOf_fromIter (unescape : List Char → List Char) (key : Key)
    (pairs : List (Key × List Char)) :
    valuesOf key (fromIter unescape pairs).intoIter = (valuesOf key pairs).map unescape := by
  rw [valuesOf_intoIter, getAll_fromIter, present_getD]

theorem valuesOf_flatMap {α : Type} (key : Key) (list : List α) (pairs : α → List (Key × List Char)) :
    valuesOf key (list.flatMap pairs) = list.flatMap fun a => valuesOf key (pairs a) := by
  induction list with
  | nil => rfl
  | cons a list ih => rw [List.flatMap_cons, valuesOf_append, ih, List.flatMap_cons]

/-! ## A map that is collected again -/

theorem addValue_new {key : Key} {entries : List (Key × List (List Char))} (absent : key ∉ names entries)
    (value : List Char) : addValue key value entries = entries ++ [(key, [value])] := by
  induction entries with
  | nil => rfl
  | cons entry rest ih =>
    obtain ⟨first, later⟩ := not_or.mp (mt List.mem_cons.mpr absent)
    rw [addValue, if_neg (Ne.symm first), ih later]
    rfl

theorem addValue_last {key : Key} {entries : List (Key × List (List Char))} (absent : key ∉ names entries)
    (values : List (List Char)) (value : List Char) :
    addValue key value (entries ++ [(key, values)]) = entries ++ [(key, values ++ [value])] := by
  induction entries with
  | nil => exact if_pos rfl
  | cons entry rest ih =>
    obtain ⟨first, later⟩ := not_or.mp (mt List.mem_cons.mpr absent)
    rw [List.cons_append, addValue, if_neg (Ne.symm first), ih later]
    rfl

variable (unescape : List Char → List Char)

def addAll (entries : List (Key × List (List Char))) (pairs : List (Key × List Char)) :
    List (Key × List (List Char)) :=
  pairs.foldl (fun entries pair => addValue pair.1 (unescape pair.2) entries) entries

theorem entries_foldl (pairs : List (Key × List Char)) (map : ParamsMap Key) :
    (pairs.foldl (fun map pair => map.insert unescape pair.1 pair.2) map).entries =
      addAll unescape map.entries pairs := by
  induction pairs generalizing map with
  | nil => rfl
  | cons pair pairs ih => exact ih _

theorem addAll_last {key : Key} {entries : List (Key × List (List Char))} (absent : key ∉ names entries)
    (values more : List (List Char)) :
    addAll unescape (entries ++ [(key, values)]) (more.map fun value => (key, value)) =
      entries ++ [(key, values ++ more.map unescape)] := by
  induction more generalizing values with
  | nil => exact congrArg (fun vs => entries ++ [(key, vs)]) (List.append_nil values).symm
  | cons value more ih =>
    change addAll unescape (addValue key (unescape value) _) _ = _
    rw [addValue_last absent, ih, List.append_assoc]
    rfl

theorem addAll_entry {entry : Key × List (List Char)} {entries : List (Key × List (List Char))}
    (absent : entry.1 ∉ names entries) (filled : entry.2 ≠ []) :
    addAll unescape entries (entry.2.map fun value => (entry.1, value)) =
      entries ++ [(entry.1, entry.2.map unescape)] := by
  obtain ⟨key, values⟩ := entry
  cases values with
  | nil => exact absurd rfl filled
  | cons value more =>
    change addAll unescape (addValue key (unescape value) entries) _ = _
    rw [addValue_new absent, addAll_last unescape absent]
    rfl

theorem addAll_entries {entries more : List (Key × List (List Char))}
    (nodup : (names (entries ++ more)).Nodup) (filled : ∀ entry ∈ more, entry.2 ≠ []) :
    addAll unescape entries (more.flatMap fun entry => entry.2.map fun value => (entry.1, value)) =
      entries ++ more.map fun entry => (entry.1, entry.2.map unescape) := by
  induction more generalizing entries with
  | nil => exact (List.append_nil entries).symm
  | cons entry more ih =>
    obtain ⟨first, later⟩ := List.forall_mem_cons.mp filled
    have absent : entry.1 ∉ names entries := by
      intro there
      rw [names, List.map_append] at nodup
      exact (List.nodup_append.mp nodup).2.2 _ there _ List.mem_cons_self rfl
    have again : (names ((entries ++ [(entry.1, entry.2.map unescape)]) ++ more)).Nodup := by
      rw [names, List.map_append, List.map_append, List.append_assoc]
      rwa [names, List.map_append] at nodup
    have step : addAll unescape entries (entry.2.map fun value => (entry.1, value)) = _ :=
      addAll_entry unescape absent first
    rw [addAll] at step
    rw [List.flatMap_cons, addAll, List.foldl_append, step, ← addAll, ih again later, List.append_assoc]
    rfl

/-- Collecting a map again unescapes its values once more. -/
theorem fromIter_intoIter {map : ParamsMap Key} (filled : ∀ entry ∈ map.entries, entry.2 ≠ []) :
    (fromIter unescape map.intoIter).entries =
      map.entries.map fun entry => (entry.1, entry.2.map unescape) := by
  rw [fromIter, entries_foldl]
  exact @addAll_entries Key _ unescape [] map.entries map.nodup filled

end ParamsMap

end Halyard.Router
