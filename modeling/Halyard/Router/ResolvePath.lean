import Halyard.Text
import Mathlib.Data.List.Infix
import Mathlib.Data.List.DropRight

/-!
# Resolving paths under a base

`resolve_path` joins a relative path to the base path, or to the route that it is resolved from.

* `resolvePath_iff`: the resolved path is under the base unless the route it is resolved from begins
  with the text of the base and goes on in the same segment.
-/

namespace Halyard.Router

open String Text

/-! ## The source's functions -/

/-- `str::find` of a text. -/
def findText (pattern : List Char) : List Char → Option ℕ
  | [] => if pattern = [] then some 0 else none
  | c :: text =>
      if pattern.isPrefixOf (c :: text) then some 0
      else (findText pattern text).map (· + c.utf8Size)

/-- The text before the first occurrence of another one. -/
def splitOnce (pattern : List Char) : List Char → Option (List Char)
  | [] => if pattern = [] then some [] else none
  | c :: text =>
      if pattern.isPrefixOf (c :: text) then some []
      else (splitOnce pattern text).map (c :: ·)

def isSchemeChar (c : Char) : Bool :=
  ('a' ≤ c && c ≤ 'z') || ('A' ≤ c && c ≤ 'Z') || ('0' ≤ c && c ≤ '9')

def hasScheme (path : List Char) : Bool :=
  "//".toList.isPrefixOf path || "tel:".toList.isPrefixOf path || "mailto:".toList.isPrefixOf path ||
    match splitOnce "://".toList path with
    | some scheme => scheme.all isSchemeChar
    | none => false

def beginsWithQueryOrHash (text : List Char) : Bool :=
  text.head? = some '#' || text.head? = some '?'

/-- One of any trailing slashes is kept. -/
def normalize (path : List Char) (omitSlash : Bool) : List Char :=
  let trimmed := path.dropWhile (· = '/')
  let s := ((splitAtChecked trimmed (utf8Len (trimmed.rdropWhile (· = '/')) + 1)).map Prod.fst).getD trimmed
  if s = [] ∨ omitSlash = true ∨ beginsWithQueryOrHash s = true then s else '/' :: s

def concat (left right : List Char) : List Char :=
  if left = [] then right else if right = [] then left else left ++ right

/-- The end of `resolve_path`: the path after what it is resolved to. -/
def joinPath (result path : List Char) : List Char :=
  concat (if result = [] then ['/'] else result) (normalize path (result = []))

def resolvePath (base path : List Char) (fromRoute : Option (List Char)) : List Char :=
  if hasScheme path then path
  else
    let basePath := normalize base false
    let result :=
      match fromRoute with
      | none => basePath
      | some route =>
          let fromPath := normalize route false
          if path.head? = some '/' then basePath
          else if findText basePath fromPath ≠ some 0 then concat basePath fromPath
          else fromPath
    joinPath result path

/-! ## Paths under the base -/

/-- A segment ends here. -/
def IsEnd (c : Char) : Prop :=
  c = '/' ∨ c = '?' ∨ c = '#'

instance (c : Char) : Decidable (IsEnd c) := inferInstanceAs (Decidable (_ ∨ _))

/-- The base itself, or the base followed by a `/`, `?` or `#` and the rest. -/
def Under (base path : List Char) : Prop :=
  path = base ∨ ∃ c rest, IsEnd c ∧ path = base ++ c :: rest

/-- Exactly one `/` at the start, followed by a character of a segment, and none at the end. -/
structure IsBase (base : List Char) : Prop where
  starts : ∃ c rest, base = '/' :: c :: rest ∧ ¬IsEnd c
  ends : base.getLast? ≠ some '/'

/-- A route that begins with the text of the base but is not under it. -/
def LookAlike (base route : List Char) : Prop :=
  base <+: normalize route false ∧ ¬Under base (normalize route false)

theorem concat_eq (left right : List Char) : concat left right = left ++ right := by
  unfold concat
  split
  next empty => rw [empty, List.nil_append]
  next =>
    split
    next empty => rw [empty, List.append_nil]
    next => rfl

theorem findText_eq_zero {pattern text : List Char} : findText pattern text = some 0 ↔ pattern <+: text := by
  cases text with
  | nil => simp [findText]
  | cons c text =>
    rw [findText]
    split
    next starts => simpa using starts
    next differs =>
      constructor
      · intro found
        obtain ⟨index, _, zero⟩ := Option.map_eq_some_iff.mp found
        have size := c.utf8Size_pos
        omega
      · intro starts
        exact absurd (List.isPrefixOf_iff_prefix.mpr starts) differs

theorem splitAtChecked_past {text : List Char} : splitAtChecked text (utf8Len text + 1) = none := by
  cases cut : splitAtChecked text (utf8Len text + 1) with
  | none => rfl
  | some parts =>
    obtain ⟨whole, size⟩ := splitAtChecked_eq_some cut
    have total := congrArg utf8Len whole
    rw [utf8Len_append] at total
    omega

/-- What is not empty begins with the end of a segment. -/
theorem normalize_starts (path : List Char) :
    normalize path false = [] ∨ ∃ c rest, IsEnd c ∧ normalize path false = c :: rest := by
  unfold normalize
  dsimp only
  generalize ((splitAtChecked (path.dropWhile (· = '/')) _).map Prod.fst).getD _ = s
  split
  next kept =>
    rcases kept with empty | omitted | query
    · exact Or.inl empty
    · cases omitted
    · cases s with
      | nil => exact Or.inl rfl
      | cons c rest =>
        refine Or.inr ⟨c, rest, ?_, rfl⟩
        rcases (by simpa [beginsWithQueryOrHash] using query : c = '#' ∨ c = '?') with rfl | rfl
        · exact Or.inr (Or.inr rfl)
        · exact Or.inr (Or.inl rfl)
  next => exact Or.inr ⟨'/', s, Or.inl rfl, rfl⟩

theorem normalize_base {base : List Char} (isBase : IsBase base) : normalize base false = base := by
  obtain ⟨⟨c, rest, rfl, segment⟩, ends⟩ := isBase
  have noSlash : c ≠ '/' := fun same => segment (Or.inl same)
  have trimmed : ('/' :: c :: rest).dropWhile (· = '/') = c :: rest := by
    simp [List.dropWhile, noSlash]
  have whole : (c :: rest).rdropWhile (· = '/') = c :: rest := by
    rw [List.rdropWhile_eq_self_iff]
    intro nonempty last
    refine ends ?_
    rw [List.getLast?_cons_cons, List.getLast?_eq_some_getLast nonempty]
    simpa using last
  have noQuery : beginsWithQueryOrHash (c :: rest) = false := by
    have hash : c ≠ '#' := fun same => segment (Or.inr (Or.inr same))
    have question : c ≠ '?' := fun same => segment (Or.inr (Or.inl same))
    simp [beginsWithQueryOrHash, hash, question]
  rw [normalize, trimmed, whole, splitAtChecked_past]
  simp [noQuery]

theorem Under.append {base path : List Char} (under : Under base path) {more : List Char}
    (starts : more = [] ∨ ∃ c rest, IsEnd c ∧ more = c :: rest) : Under base (path ++ more) := by
  rcases starts with rfl | ⟨c, rest, isEnd, rfl⟩
  · rwa [List.append_nil]
  · rcases under with rfl | ⟨d, middle, isEnd', rfl⟩
    · exact Or.inr ⟨c, rest, isEnd, rfl⟩
    · exact Or.inr ⟨d, middle ++ c :: rest, isEnd', by rw [List.append_assoc]; rfl⟩

/-- The resolved path is under the base, and a route that is not under the base is placed there. -/
structure Resolves (base path : List Char) (fromRoute : Option (List Char)) : Prop where
  under : Under base (resolvePath base path fromRoute)
  placed : ∀ route, fromRoute = some route → path.head? ≠ some '/' →
    ¬Under base (normalize route false) →
      resolvePath base path fromRoute = base ++ (normalize route false ++ normalize path false)

theorem IsBase.ne_nil {base : List Char} (isBase : IsBase base) : base ≠ [] := by
  obtain ⟨c, rest, rfl, _⟩ := isBase.starts
  exact List.cons_ne_nil _ _

theorem joinPath_eq {result : List Char} (some : result ≠ []) (path : List Char) :
    joinPath result path = result ++ normalize path false := by
  rw [joinPath, if_neg some, concat_eq, decide_eq_false some]

section Resolve

variable {base path : List Char} (isBase : IsBase base) (relative : hasScheme path = false)

include isBase relative

theorem resolvePath_none : resolvePath base path none = base ++ normalize path false := by
  unfold resolvePath
  rw [relative, if_neg Bool.false_ne_true, normalize_base isBase]
  exact joinPath_eq isBase.ne_nil path

theorem resolvePath_some (route : List Char) :
    resolvePath base path (some route) =
      if path.head? = some '/' then base ++ normalize path false
      else if base <+: normalize route false then normalize route false ++ normalize path false
      else base ++ (normalize route false ++ normalize path false) := by
  unfold resolvePath
  rw [relative, if_neg Bool.false_ne_true, normalize_base isBase]
  dsimp only
  by_cases absolute : path.head? = some '/'
  · rw [if_pos absolute, if_pos absolute]
    exact joinPath_eq isBase.ne_nil path
  · rw [if_neg absolute, if_neg absolute]
    by_cases inside : base <+: normalize route false
    · have found := findText_eq_zero.mpr inside
      have notEmpty : normalize route false ≠ [] := fun empty =>
        isBase.ne_nil (List.prefix_nil.mp (empty ▸ inside))
      rw [if_neg fun other => other found, if_pos inside]
      exact joinPath_eq notEmpty path
    · rw [if_pos fun found => inside (findText_eq_zero.mp found), if_neg inside, concat_eq,
        ← List.append_assoc]
      exact joinPath_eq (List.append_ne_nil_of_left_ne_nil isBase.ne_nil _) path

end Resolve

/-- A path is resolved under the base, unless it is relative to a route that looks like the base. -/
theorem resolvePath_iff (base path : List Char) (fromRoute : Option (List Char)) (isBase : IsBase base)
    (relative : hasScheme path = false) :
    Resolves base path fromRoute ↔
      path.head? = some '/' ∨ ∀ route, fromRoute = some route → ¬LookAlike base route := by
  have itself : Under base base := Or.inl rfl
  constructor
  · rintro ⟨under, placed⟩
    by_contra! bad
    obtain ⟨notAbsolute, route, rfl, inside, outside⟩ := bad
    have whole := placed route rfl notAbsolute outside
    rw [resolvePath_some isBase relative, if_neg notAbsolute, if_pos inside] at whole
    have lengths := congrArg List.length whole
    have nonempty := List.length_pos_of_ne_nil isBase.ne_nil
    simp only [List.length_append] at lengths
    omega
  · intro apart
    have fromUnder : ∀ route, fromRoute = some route → path.head? ≠ some '/' →
        base <+: normalize route false → Under base (normalize route false) := by
      intro route is notAbsolute inside
      by_contra outside
      exact (apart.resolve_left notAbsolute) route is ⟨inside, outside⟩
    constructor
    · cases fromRoute with
      | none =>
        rw [resolvePath_none isBase relative]
        exact itself.append (normalize_starts path)
      | some route =>
        rw [resolvePath_some isBase relative]
        split
        next => exact itself.append (normalize_starts path)
        next notAbsolute =>
          split
          next inside => exact (fromUnder route rfl notAbsolute inside).append (normalize_starts path)
          next =>
            rw [← List.append_assoc]
            exact (itself.append (normalize_starts route)).append (normalize_starts path)
    · rintro route rfl notAbsolute outside
      rw [resolvePath_some isBase relative, if_neg notAbsolute, if_neg fun inside => outside (fromUnder route rfl notAbsolute inside)]

theorem isBase_base : IsBase "/base".toList where
  starts := ⟨'b', "ase".toList, rfl, by decide⟩
  ends := by decide

/-- `x` from `/base/y` is under `/base`. -/
theorem resolvePath_iff_base : Resolves "/base".toList "x".toList (some "/base/y".toList) ↔
    "x".toList.head? = some '/' ∨
      ∀ route, some "/base/y".toList = some route → ¬LookAlike "/base".toList route :=
  resolvePath_iff _ _ _ isBase_base (by decide)

/-- `x` from `/basement` leaves `/base`. -/
theorem basement_leaves_base : ¬∀ (base path : List Char) (fromRoute : Option (List Char)),
    IsBase base → hasScheme path = false → Resolves base path fromRoute := by
  intro all
  have under := (all "/base".toList "x".toList (some "/basement".toList) isBase_base (by decide)).under
  have left : resolvePath "/base".toList "x".toList (some "/basement".toList) =
      "/base".toList ++ "ment/x".toList := by decide
  rw [left] at under
  rcases under with same | ⟨c, rest, isEnd, whole⟩
  · cases List.append_right_eq_self.mp same
  · have first : c = 'm' := by
      simpa using (congrArg List.head? (List.append_cancel_left whole)).symm
    rw [first] at isEnd
    exact absurd isEnd (by decide)

end Halyard.Router
