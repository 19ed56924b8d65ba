import Halyard.PercentEncoding
import Halyard.Router.Accounts
import Halyard.Router.ParamsMap

/-!
# The params of nested routes

`build_nested_route` of `router/nested_router.rs` gives each route of a chain a map of its own params,
which `match_nested` ends with its child's, and provides a memo that collects the maps of its parents and
its own again.  `unescape` is `Url::unescape`, which each collection calls.

* `getAll_provided`: the values that a route reads for a key.
* `readsOnce_iff`: they are its own and its parents' values, each once, just if only the first route has
  params, whose names no route has again and whose values stay as they are when they are unescaped again.
* `nested_params_copied`: a param of a nested route has its value twice.
-/

namespace Halyard.Router

open Entries ParamsMap

variable (unescape : List Char → List Char)

/-- `params_including_parents`. -/
def paramsIncludingParents (parents : List (ParamsMap String)) (params : ParamsMap String) :
    ParamsMap String :=
  fromIter unescape (parents.flatMap intoIter ++ params.intoIter)

/-- `build_nested_route`: what it provides to the match's route and to those nested in it, by the params
of the outlets above. -/
def buildNestedRoute (outlets : List (ParamsMap String)) : Match → List (ParamsMap String)
  | .unit => [paramsIncludingParents unescape outlets (fromIter unescape [])]
  | .leaf _ _ params => [paramsIncludingParents unescape outlets (fromIter unescape params)]
  | .parent _ _ params child =>
      paramsIncludingParents unescape outlets (fromIter unescape params) ::
        buildNestedRoute (outlets ++ [fromIter unescape params]) child

def providedParams (found : Match) : List (ParamsMap String) :=
  buildNestedRoute unescape [] found

/-- What the flat router provides. -/
def flatParams (found : Match) : ParamsMap String :=
  fromIter unescape found.toParams

/-! ## The params of a chain -/

/-- The params of each route of a chain, with its children's. -/
def Match.chainParams : Match → List Params
  | .unit => [[]]
  | .leaf _ _ params => [params]
  | .parent _ _ params child => params :: child.chainParams

/-- The params of each route's own segments. -/
def Match.ownParams : Match → List Params
  | .unit => [[]]
  | .leaf _ _ params => [params]
  | .parent _ _ params child => params.take (params.length - child.toParams.length) :: child.ownParams

/-- Each part with those after it. -/
def withLater : List Params → List Params
  | [] => []
  | own :: later => (own ++ later.flatten) :: withLater later

/-- A parent's params end with its child's. -/
def Match.Chained : Match → Prop
  | .unit => True
  | .leaf _ _ _ => True
  | .parent _ _ params child => (∃ own, params = own ++ child.toParams) ∧ child.Chained

mutual

theorem matchNested_chained (tree : RouteTree) {path rest : Path} {found : Match}
    (matched : tree.matchNested path = (some found, rest)) : found.Chained := by
  cases tree with
  | unit =>
    cases matched
    trivial
  | leaf id segments =>
    obtain ⟨partialMatch, -, -, rfl⟩ := matched_leaf matched
    trivial
  | parent id segments children =>
    obtain ⟨partialMatch, child, params, -, rfl, within⟩ := matched_parent matched
    rcases within with ⟨found, rfl⟩ | ⟨-, found, newPartial, -, rfl⟩
    · exact ⟨⟨_, rfl⟩, matchNested_chained children found⟩
    · exact ⟨⟨_, rfl⟩, matchNested_chained children found⟩
  | tuple routes => exact matchFirst_chained routes matched

theorem matchFirst_chained (routes : List RouteTree) {path rest : Path} {found : Match}
    (matched : RouteTree.matchFirst routes path = (some found, rest)) : found.Chained := by
  cases routes with
  | nil => cases matched
  | cons route routes =>
    simp only [RouteTree.matchFirst] at matched
    split at matched
    next found' remaining first =>
      cases matched
      exact matchNested_chained route first
    next => exact matchFirst_chained routes matched

end

theorem matchRoute_chained {defs : RouteDefs} {path : Path} {found : Match}
    (matched : defs.matchRoute path = some found) : found.Chained := by
  obtain ⟨below, within, matched⟩ := Option.bind_eq_some_iff.mp matched
  split at matched
  next found' rest nested =>
    split at matched
    next complete =>
      cases matched
      exact matchNested_chained defs.children nested
    next => cases matched
  next => cases matched

theorem Match.Chained.toParams_eq {found : Match} (chained : found.Chained) :
    found.toParams = found.ownParams.flatten := by
  induction found with
  | unit => rfl
  | leaf id matched params => exact (List.append_nil params).symm
  | parent id matched params child ih =>
    obtain ⟨⟨own, rfl⟩, below⟩ := chained
    have whole := ih below
    rw [ownParams, List.flatten_cons, ← whole, List.length_append, Nat.add_sub_cancel,
      List.take_left' rfl]
    rfl

theorem Match.Chained.chainParams_eq {found : Match} (chained : found.Chained) :
    found.chainParams = withLater found.ownParams := by
  induction found with
  | unit => rfl
  | leaf id matched params => exact congrArg (fun own => [own]) (List.append_nil params).symm
  | parent id matched params child ih =>
    obtain ⟨⟨own, rfl⟩, below⟩ := chained
    rw [ownParams, withLater, chainParams, ih below, ← below.toParams_eq, List.length_append,
      Nat.add_sub_cancel, List.take_left' rfl]

theorem Match.ownParams_ne_nil (found : Match) : found.ownParams ≠ [] := by
  cases found
  all_goals exact List.cons_ne_nil _ _

/-! ## What a route reads -/

theorem getAll_paramsIncludingParents (parents : List (ParamsMap String)) (params : Params)
    (key : String) :
    (paramsIncludingParents unescape parents (fromIter unescape params)).getAll key =
      present (((parents.flatMap fun parent => valuesOf key parent.intoIter) ++
        (valuesOf key params).map unescape).map unescape) := by
  rw [paramsIncludingParents, getAll_fromIter, valuesOf_append, valuesOf_flatMap, valuesOf_fromIter]

theorem getAll_first {outlets : List (ParamsMap String)} {params : Params} (key : String) :
    (paramsIncludingParents unescape outlets (fromIter unescape params)).getAll key =
      present (((outlets.flatMap fun outlet => valuesOf key outlet.intoIter) ++
        ([params].flatMap (valuesOf key)).map unescape).map unescape) := by
  rw [getAll_paramsIncludingParents, List.flatMap_singleton]

/-- A route reads the values of the chain's params down to its own, each unescaped twice. -/
theorem getAll_buildNestedRoute {found : Match} {outlets : List (ParamsMap String)} {depth : ℕ}
    {provided : ParamsMap String} (there : (buildNestedRoute unescape outlets found)[depth]? = some provided)
    (key : String) :
    provided.getAll key =
      present (((outlets.flatMap fun outlet => valuesOf key outlet.intoIter) ++
        ((found.chainParams.take (depth + 1)).flatMap (valuesOf key)).map unescape).map unescape) := by
  induction found generalizing outlets depth with
  | unit =>
    cases depth with
    | zero =>
      cases there
      exact getAll_first unescape key
    | succ depth => cases there
  | leaf id matched params =>
    cases depth with
    | zero =>
      cases there
      exact getAll_first unescape key
    | succ depth => cases there
  | parent id matched params child ih =>
    cases depth with
    | zero =>
      cases there
      exact getAll_first unescape key
    | succ depth =>
      have below := @ih (outlets ++ [fromIter unescape params]) depth there
      rw [List.flatMap_append, List.flatMap_singleton, valuesOf_fromIter, List.append_assoc,
        ← List.map_append] at below
      rw [below, Match.chainParams, List.take_succ_cons, List.flatMap_cons]

theorem getAll_provided {found : Match} {depth : ℕ} {provided : ParamsMap String}
    (there : (providedParams unescape found)[depth]? = some provided) (key : String) :
    provided.getAll key =
      present ((((found.chainParams.take (depth + 1)).flatMap (valuesOf key)).map unescape).map unescape) :=
  getAll_buildNestedRoute unescape there key

/-! ## Reading each value once -/

/-- The params of the segments of a route and of those above. -/
def Match.paramsDownTo (found : Match) (depth : ℕ) : Params :=
  (found.ownParams.take (depth + 1)).flatten

/-- The route reads the value of each segment, unescaped once, as the flat router's view does. -/
def ReadsOnce (found : Match) (depth : ℕ) (provided : ParamsMap String) : Prop :=
  ∀ key ∈ names (found.paramsDownTo depth),
    provided.getAll key = some ((valuesOf key (found.paramsDownTo depth)).map unescape) ∧
      (flatParams unescape found).getAll key = provided.getAll key

/-- Only the first route has params, and their values can be unescaped again. -/
structure OnlyFirst (levels : List Params) (depth : ℕ) : Prop where
  others : ∀ params ∈ levels.tail.take depth, params = []
  apart : ∀ key ∈ names (levels.headD []), key ∉ names levels.tail.flatten
  values : ∀ pair ∈ levels.headD [], unescape (unescape pair.2) = unescape pair.2

theorem valuesOf_eq_nil {key : String} {pairs : Params} : valuesOf key pairs = [] ↔ key ∉ names pairs := by
  rw [valuesOf, List.map_eq_nil_iff, List.filter_eq_nil_iff, names, List.mem_map]
  constructor
  · rintro none ⟨pair, mem, same⟩
    exact none pair mem (decide_eq_true same)
  · intro absent pair mem same
    exact absent ⟨pair, mem, of_decide_eq_true same⟩

theorem mem_withLater {later : List Params} {depth : ℕ} {own : Params} {pair : String × List Char}
    (there : own ∈ later.take depth) (mem : pair ∈ own) : pair ∈ ((withLater later).take depth).flatten := by
  induction later generalizing depth with
  | nil =>
    rw [List.take_nil] at there
    cases there
  | cons first later ih =>
    cases depth with
    | zero => cases there
    | succ depth =>
      rw [withLater, List.take_succ_cons, List.flatten_cons]
      rw [List.take_succ_cons] at there
      rcases List.mem_cons.mp there with rfl | there
      · exact List.mem_append_left _ (List.mem_append_left _ mem)
      · exact List.mem_append_right _ (ih there)

theorem mem_names {key : String} {pairs : Params} : key ∈ names pairs ↔ valuesOf key pairs ≠ [] :=
  not_iff_not.mp (by rw [not_not, valuesOf_eq_nil])

theorem names_append (pairs more : Params) : names (pairs ++ more) = names pairs ++ names more :=
  List.map_append

/-- The values that are read, from the first route's params on. -/
theorem read_cons (own : Params) (later : List Params) (depth : ℕ) (key : String) :
    ((withLater (own :: later)).take (depth + 1)).flatMap (valuesOf key) =
      valuesOf key own ++ (valuesOf key (later.take depth).flatten ++
        (valuesOf key (later.drop depth).flatten ++
          valuesOf key ((withLater later).take depth).flatten)) := by
  have parts : later.flatten = (later.take depth).flatten ++ (later.drop depth).flatten := by
    rw [← List.flatten_append, List.take_append_drop]
  have below : valuesOf key ((withLater later).take depth).flatten =
      ((withLater later).take depth).flatMap (valuesOf key) := by
    rw [← List.flatMap_id, valuesOf_flatMap]
    rfl
  rw [withLater, List.take_succ_cons, List.flatMap_cons, valuesOf_append, parts, valuesOf_append, below,
    List.append_assoc, List.append_assoc]

theorem wanted_cons (own : Params) (later : List Params) (depth : ℕ) (key : String) :
    valuesOf key (((own :: later).take (depth + 1)).flatten) =
      valuesOf key own ++ valuesOf key (later.take depth).flatten := by
  rw [List.take_succ_cons, List.flatten_cons, valuesOf_append]

/-- A key that is read as often as it is wanted is in no other params. -/
theorem nothing_else {own : Params} {later : List Params} {depth : ℕ} {key : String}
    (lengths : (((withLater (own :: later)).take (depth + 1)).flatMap (valuesOf key)).length =
      (valuesOf key (((own :: later).take (depth + 1)).flatten)).length) :
    valuesOf key (later.drop depth).flatten = [] ∧
      valuesOf key ((withLater later).take depth).flatten = [] := by
  rw [read_cons, wanted_cons] at lengths
  simp only [List.length_append] at lengths
  constructor
  · exact List.eq_nil_of_length_eq_zero (by omega)
  · exact List.eq_nil_of_length_eq_zero (by omega)

theorem others_nil {own : Params} {later : List Params} {depth : ℕ}
    (unread : ∀ key ∈ names (((own :: later).take (depth + 1)).flatten),
      valuesOf key ((withLater later).take depth).flatten = []) :
    ∀ params ∈ later.take depth, params = [] := by
  intro params there
  by_contra some_
  obtain ⟨pair, rest, whole⟩ := List.exists_cons_of_ne_nil some_
  have mem : pair ∈ params := whole ▸ List.mem_cons_self
  have wanted : pair.1 ∈ names (((own :: later).take (depth + 1)).flatten) := by
    rw [List.take_succ_cons, List.flatten_cons]
    exact List.mem_map_of_mem (List.mem_append_right _ (List.mem_flatten_of_mem there mem))
  exact valuesOf_eq_nil.mp (unread _ wanted) (List.mem_map_of_mem (mem_withLater there mem))

theorem withLater_flatten_nil {later : List Params} {depth : ℕ} {key : String}
    (absent : key ∉ names later.flatten) : key ∉ names ((withLater later).take depth).flatten := by
  induction later generalizing depth with
  | nil =>
    rw [withLater, List.take_nil]
    exact List.not_mem_nil
  | cons own later ih =>
    cases depth with
    | zero => exact List.not_mem_nil
    | succ depth =>
      rw [List.flatten_cons, names_append, List.mem_append, not_or] at absent
      rw [withLater, List.take_succ_cons, List.flatten_cons, names_append, names_append, List.mem_append,
        List.mem_append, not_or, not_or]
      exact ⟨⟨absent.1, absent.2⟩, ih absent.2⟩

theorem eq_of_present {values wanted : List (List Char)} (given : present values = some wanted) :
    values = wanted := by
  unfold present at given
  split at given
  next => cases given
  next => exact Option.some.inj given

theorem mem_valuesOf {pair : String × List Char} {pairs : Params} (mem : pair ∈ pairs) :
    pair.2 ∈ valuesOf pair.1 pairs :=
  List.mem_map_of_mem (List.mem_filter.mpr ⟨mem, decide_eq_true rfl⟩)

theorem of_mem_valuesOf {key : String} {value : List Char} {pairs : Params}
    (mem : value ∈ valuesOf key pairs) : (key, value) ∈ pairs := by
  obtain ⟨pair, there, rfl⟩ := List.mem_map.mp mem
  obtain ⟨there, same⟩ := List.mem_filter.mp there
  rwa [← of_decide_eq_true same]

variable {unescape}

/-- What is read and what is wanted, if only the first route has params. -/
theorem OnlyFirst.read_eq {own : Params} {later : List Params} {depth : ℕ}
    (only : OnlyFirst unescape (own :: later) depth) {key : String} (first : key ∈ names own) :
    ((withLater (own :: later)).take (depth + 1)).flatMap (valuesOf key) = valuesOf key own ∧
      valuesOf key (own ++ later.flatten) = valuesOf key own := by
  have nowhere : key ∉ names later.flatten := only.apart key first
  have absent := nowhere
  have parts : names later.flatten =
      names (later.take depth).flatten ++ names (later.drop depth).flatten := by
    rw [← names_append, ← List.flatten_append, List.take_append_drop]
  rw [parts, List.mem_append, not_or] at absent
  constructor
  · rw [read_cons, valuesOf_eq_nil.mpr absent.1, valuesOf_eq_nil.mpr absent.2,
      valuesOf_eq_nil.mpr (withLater_flatten_nil nowhere)]
    exact List.append_nil _
  · rw [valuesOf_append, valuesOf_eq_nil.mpr nowhere, List.append_nil]

theorem OnlyFirst.wanted_eq {own : Params} {later : List Params} {depth : ℕ}
    (only : OnlyFirst unescape (own :: later) depth) :
    ((own :: later).take (depth + 1)).flatten = own := by
  have others : (later.take depth).flatten = [] := List.flatten_eq_nil_iff.mpr only.others
  rw [List.take_succ_cons, List.flatten_cons, others, List.append_nil]

theorem OnlyFirst.unescaped {own : Params} {later : List Params} {depth : ℕ}
    (only : OnlyFirst unescape (own :: later) depth) (key : String) :
    ((valuesOf key own).map unescape).map unescape = (valuesOf key own).map unescape := by
  rw [List.map_map]
  exact List.map_congr_left fun value mem => only.values _ (of_mem_valuesOf mem)

/-- A chain reads each value once just if only its first route has params. -/
theorem readsOnce_iff {defs : RouteDefs} {path : Path} {found : Match}
    (matched : defs.matchRoute path = some found) {depth : ℕ} {provided : ParamsMap String}
    (there : (providedParams unescape found)[depth]? = some provided) :
    ReadsOnce unescape found depth provided ↔ OnlyFirst unescape found.ownParams depth := by
  have chained := matchRoute_chained matched
  have read := getAll_provided unescape there
  have flat : ∀ key, (flatParams unescape found).getAll key =
      present ((valuesOf key found.ownParams.flatten).map unescape) := by
    intro key
    rw [flatParams, getAll_fromIter, chained.toParams_eq]
  obtain ⟨own, later, levels⟩ := List.exists_cons_of_ne_nil found.ownParams_ne_nil
  rw [chained.chainParams_eq] at read
  unfold ReadsOnce Match.paramsDownTo
  rw [levels] at read flat ⊢
  constructor
  · intro once
    have values : ∀ key ∈ names (((own :: later).take (depth + 1)).flatten),
        ((((withLater (own :: later)).take (depth + 1)).flatMap (valuesOf key)).map unescape).map unescape =
          (valuesOf key (((own :: later).take (depth + 1)).flatten)).map unescape :=
      fun key mem => eq_of_present ((read key).symm.trans (once key mem).1)
    have nothing := fun key mem => @nothing_else own later depth key
      (by simpa only [List.length_map] using congrArg List.length (values key mem))
    have others := others_nil fun key mem => (nothing key mem).2
    have wanted : ((own :: later).take (depth + 1)).flatten = own := by
      rw [List.take_succ_cons, List.flatten_cons, List.flatten_eq_nil_iff.mpr others, List.append_nil]
    rw [wanted] at values nothing
    have absent : ∀ key ∈ names own, key ∉ names later.flatten := by
      intro key mem
      have parts : later.flatten = (later.take depth).flatten ++ (later.drop depth).flatten := by
        rw [← List.flatten_append, List.take_append_drop]
      rw [parts, List.flatten_eq_nil_iff.mpr others]
      exact valuesOf_eq_nil.mp (nothing key mem).1
    refine ⟨others, absent, fun pair mem => ?_⟩
    have key : pair.1 ∈ names own := List.mem_map_of_mem mem
    have same := values _ key
    rw [read_cons, List.flatten_eq_nil_iff.mpr others, (nothing _ key).1, (nothing _ key).2,
      List.map_map] at same
    rw [show valuesOf pair.1 ([] : Params) = [] from rfl, List.append_nil, List.append_nil,
      List.append_nil] at same
    exact List.map_inj_left.mp same _ (mem_valuesOf mem)
  · intro only key mem
    rw [only.wanted_eq] at mem ⊢
    obtain ⟨readEq, flatEq⟩ := only.read_eq mem
    have some_ : (valuesOf key own).map unescape ≠ [] :=
      fun none => mem_names.mp mem (List.map_eq_nil_iff.mp none)
    rw [read, flat, readEq, only.unescaped, List.flatten_cons, flatEq, present_of_ne some_]
    exact ⟨rfl, rfl⟩

/-! ## A nested route with a param -/

open PercentEncoding

/-- `/:a` with `/:b` in it. -/
def twoParams : RouteDefs where
  base := none
  children := .parent 1 (.paramSegment "a") (.leaf 2 (.paramSegment "b"))

def twoMatched : Match :=
  .parent 1 "/x".toList [("a", "x".toList), ("b", "y".toList)] (.leaf 2 "/y".toList [("b", "y".toList)])

theorem twoParams_matched : twoParams.matchRoute "/x/y".toList = some twoMatched := rfl

/-- The second route of the chain. -/
theorem readsOnce_iff_second :
    ∃ provided, ReadsOnce (decodeText replaceInvalid) twoMatched 1 provided ↔
      OnlyFirst (decodeText replaceInvalid) twoMatched.ownParams 1 :=
  ⟨_, readsOnce_iff twoParams_matched rfl⟩

/-- The second route reads the value of its own param twice. -/
theorem nested_params_copied : ¬∀ (defs : RouteDefs) (path : Path) (found : Match) (depth : ℕ)
    (provided : ParamsMap String), defs.matchRoute path = some found →
      (providedParams (decodeText replaceInvalid) found)[depth]? = some provided →
        ReadsOnce (decodeText replaceInvalid) found depth provided := by
  intro all
  have there : (providedParams (decodeText replaceInvalid) twoMatched)[1]? = some _ := rfl
  have once := (all twoParams _ twoMatched 1 _ twoParams_matched there "b" (by decide)).1
  rw [getAll_provided _ there] at once
  have lengths := congrArg List.length (eq_of_present once)
  simp only [List.length_map] at lengths
  exact absurd lengths (by decide)

end Halyard.Router
