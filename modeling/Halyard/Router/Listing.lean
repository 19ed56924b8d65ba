import Halyard.Router.Grouping
import Halyard.Router.StaticRoutes

/-!
# The routes that are listed

`generate_routes` (`halyard/src/router/matching/nested`) lists a tree of nested routes for the server: one
route for each that has no children, with the segments from the root on and the most restrictive of the
modes on the way.

* `matchRoute_listed`: the router finds what the first listed route that matches as one flat tuple gives,
  if only routes without children have optional segments.
* `listed_unmatched`: otherwise it may find nothing where a listed route matches.
-/

namespace Halyard.Router

variable {M : Type*} [LinearOrder M] [Inhabited M]

/-! ## The program -/

mutual

def Segments.generatePath : Segments → List PathSegment
  | .staticSegment segment => [.static segment]
  | .paramSegment name => [.param name]
  | .optionalParamSegment name => [.optionalParam name]
  | .wildcardSegment name => [.splat name]
  | .tuple fields => Segments.generatePaths fields

def Segments.generatePaths : List Segments → List PathSegment
  | [] => []
  | field :: fields => field.generatePath ++ Segments.generatePaths fields

end

structure GeneratedRouteData (M : Type*) where
  segments : List PathSegment
  ssrMode : M

mutual

/-- `mode` are the modes of the routes. -/
def RouteTree.generateRoutes (mode : ℕ → M) : RouteTree → List (GeneratedRouteData M)
  | .unit => [⟨[.unit], default⟩]
  | .leaf id segments => [⟨segments.generatePath, mode id⟩]
  | .parent id segments children =>
      (children.generateRoutes mode).map fun child =>
        ⟨segments.generatePath ++ child.segments, if mode id < child.ssrMode then child.ssrMode else mode id⟩
  | .tuple routes => RouteTree.generateEach mode routes

def RouteTree.generateEach (mode : ℕ → M) : List RouteTree → List (GeneratedRouteData M)
  | [] => []
  | route :: routes => route.generateRoutes mode ++ RouteTree.generateEach mode routes

end

/-! ## A listed route as a flat tuple -/

/-- The segment that is listed so. -/
def PathSegment.segment : PathSegment → Segments
  | .unit => .tuple []
  | .static segment => .staticSegment segment
  | .param name => .paramSegment name
  | .optionalParam name => .optionalParamSegment name
  | .splat name => .wildcardSegment name

/-- The params of a path that the tuple of the segments matches whole. -/
def matchesWhole (segments : List Segments) (path : Path) : Option Params :=
  ((Segments.tuple segments).test path).bind fun part =>
    if isComplete part.remaining then some part.params else none

def GeneratedRouteData.matchPath (route : GeneratedRouteData M) (path : Path) : Option (Params × M) :=
  (matchesWhole (route.segments.map PathSegment.segment) path).map fun params => (params, route.ssrMode)

/-- The most restrictive mode of the matched routes. -/
def Match.ssrMode (mode : ℕ → M) : Match → M
  | .unit => default
  | .leaf id _ _ => mode id
  | .parent id _ _ child => max (mode id) (child.ssrMode mode)

mutual

/-- Only routes without children have optional segments, and these are plain; `()` is no route. -/
def RouteTree.plain : RouteTree → Bool
  | .unit => false
  | .leaf _ segments => segments.plain
  | .parent _ segments children => !segments.optional && children.plain
  | .tuple routes => RouteTree.allPlain routes

def RouteTree.allPlain : List RouteTree → Bool
  | [] => true
  | route :: routes => route.plain && RouteTree.allPlain routes

end

mutual

theorem generatePath_segment (segments : Segments) :
    segments.generatePath.map PathSegment.segment = segments.leaves := by
  cases segments with
  | staticSegment segment => rfl
  | paramSegment name => rfl
  | optionalParamSegment name => rfl
  | wildcardSegment name => rfl
  | tuple fields => exact generatePaths_segment fields

theorem generatePaths_segment (fields : List Segments) :
    (Segments.generatePaths fields).map PathSegment.segment = Segments.allLeaves fields := by
  cases fields with
  | nil => rfl
  | cons field fields =>
    rw [Segments.generatePaths, List.map_append, generatePath_segment field, generatePaths_segment fields]
    rfl

end

theorem segment_single (segment : PathSegment) : segment.segment.single = true := by
  cases segment <;> rfl

theorem leaf_single (segments : Segments) : ∀ leaf ∈ segments.leaves, leaf.single = true := by
  intro leaf member
  simp [Segments.single, leaves_self (leaves_ne_tuple segments leaf member)]

/-! ## Required segments before others -/

/-- What is left of a path, and the params. -/
def PartialPathMatch.left (part : PartialPathMatch) : Path × Params := (part.remaining, part.params)

theorem firstOf_map {α β : Type} (f : α → β) (tries : ℕ → Option α) (n : ℕ) :
    (firstOf tries n).map f = firstOf (fun k => (tries k).map f) n := by
  induction n with
  | zero => rfl
  | succ fewer ih => rw [firstOf, firstOf, Option.map_or, ih]

theorem attempt_under {segments : Segments} (always : segments.optional = false) (others : List Segments)
    (path : Path) :
    (attempt (segments.leaves ++ others) path).map PartialPathMatch.left =
      (segments.test path).bind fun part =>
        (attempt others part.remaining).map fun own => (own.remaining, part.params ++ own.params) := by
  have start := stands_start path
  rw [attempt, steps_append, ← step_of_not_optional always start, start.step_eq]
  cases tested : segments.test path with
  | none =>
    rw [show segments.test (Reading.start path).r = none from tested]
    rfl
  | some part =>
    rw [show segments.test (Reading.start path).r = some part from tested]
    obtain ⟨taken, stands⟩ : ∃ taken, ((Reading.start path).after part).Stands ([] ++ taken) := by
      refine start.step (?_ : (Reading.start path).step segments = _)
      rw [start.step_eq, show segments.test (Reading.start path).r = some part from tested]
      rfl
    have shifted := stands.shift.steps others (stands_start _) stands
    change (((Reading.start path).after part).steps others |>.bind Reading.finish).map PartialPathMatch.left =
      (attempt others part.remaining).map fun own => (own.remaining, part.params ++ own.params)
    rw [attempt]
    change Option.Rel _ ((Reading.start part.remaining).steps others) _ at shifted
    cases inside : (Reading.start part.remaining).steps others with
    | none =>
      rw [inside] at shifted
      cases outside : ((Reading.start path).after part).steps others with
      | none => rfl
      | some whole =>
        rw [outside] at shifted
        cases shifted
    | some own =>
      rw [inside] at shifted
      cases outside : ((Reading.start path).after part).steps others with
      | none =>
        rw [outside] at shifted
        cases shifted
      | some whole =>
        rw [outside] at shifted
        obtain ⟨-, -, r, p⟩ : Shift _ _ _ own whole := by
          cases shifted with
          | some shift => exact shift
        obtain ⟨_, stands'⟩ := (stands_start part.remaining).steps inside
        obtain ⟨_, finished, -⟩ := stands'.finish
        obtain ⟨_, stands''⟩ := stands.steps outside
        obtain ⟨_, finished', -⟩ := stands''.finish
        rw [Option.bind_some, Option.bind_some, finished, finished', Option.map_some, Option.map_some,
          PartialPathMatch.left, r, p]
        rfl

theorem tuple_under {segments : Segments} (always : segments.optional = false) {others : List Segments}
    (single : ∀ other ∈ others, other.single = true) (path : Path) :
    ((Segments.tuple (segments.leaves ++ others)).test path).map PartialPathMatch.left =
      (segments.test path).bind fun part =>
        ((Segments.tuple others).test part.remaining).map fun own => (own.remaining, part.params ++ own.params) := by
  have all : ∀ field ∈ segments.leaves ++ others, field.single = true := by
    intro field member
    rcases List.mem_append.mp member with leaf | other
    · exact leaf_single segments field leaf
    · exact single field other
  have required := always_leaves always
  have count : (segments.leaves ++ others).countP Segments.optional = others.countP Segments.optional := by
    rw [List.countP_append, List.countP_eq_zero.mpr fun leaf member => by simp [required leaf member], Nat.zero_add]
  simp only [single_firstOf all, single_firstOf single, count, included_required required, firstOf_map,
    attempt_under always]
  cases segments.test path with
  | none => exact firstOf_none (fun _ => rfl) _
  | some part => rfl

theorem matchesWhole_under {segments : Segments} (always : segments.optional = false) {others : List Segments}
    (single : ∀ other ∈ others, other.single = true) (path : Path) :
    matchesWhole (segments.leaves ++ others) path =
      (segments.test path).bind fun part =>
        (matchesWhole others part.remaining).map fun params => part.params ++ params := by
  have whole : ∀ {tested : Option PartialPathMatch}, (tested.bind fun part =>
      if isComplete part.remaining then some part.params else none) =
      (tested.map PartialPathMatch.left).bind fun left => if isComplete left.1 then some left.2 else none := by
    intro tested
    cases tested <;> rfl
  rw [matchesWhole, whole, tuple_under always single]
  cases segments.test path with
  | none => rfl
  | some part =>
    rw [Option.bind_some, Option.bind_some, matchesWhole]
    cases (Segments.tuple others).test part.remaining with
    | none => rfl
    | some own =>
      simp only [Option.map_some, Option.bind_some]
      split <;> rfl

omit [Inhabited M] in
theorem matchPath_under {segments : Segments} (always : segments.optional = false) (mode : M)
    (route : GeneratedRouteData M) (path : Path) :
    GeneratedRouteData.matchPath
        ⟨segments.generatePath ++ route.segments, if mode < route.ssrMode then route.ssrMode else mode⟩ path =
      (segments.test path).bind fun part => (route.matchPath part.remaining).map fun found =>
        (part.params ++ found.1, max mode found.2) := by
  have single : ∀ other ∈ route.segments.map PathSegment.segment, other.single = true := by
    intro other member
    obtain ⟨segment, -, rfl⟩ := List.mem_map.mp member
    exact segment_single segment
  rw [GeneratedRouteData.matchPath, List.map_append, generatePath_segment, matchesWhole_under always single, ← max_def_lt]
  cases segments.test path with
  | none => rfl
  | some part =>
    rw [Option.bind_some, Option.bind_some, GeneratedRouteData.matchPath, Option.map_map, Option.map_map]
    rfl

/-- A route's own segments, which may be tuples, match as they are listed. -/
theorem matchesWhole_plain {segments : Segments} (plain : segments.plain = true) (path : Path) :
    matchesWhole segments.leaves path =
      (segments.test path).bind fun part => if isComplete part.remaining then some part.params else none := by
  rw [matchesWhole, single_firstOf (leaf_single segments), ← plain_eq segments plain]

/-! ## The tree -/

mutual

theorem matchNested_complete {tree : RouteTree} (plain : tree.plain = true) {path remaining : Path} {found : Match}
    (matched : tree.matchNested path = (some found, remaining)) : isComplete remaining = true := by
  cases tree with
  | unit => cases plain
  | leaf id segments =>
    rw [RouteTree.matchNested] at matched
    split at matched
    next part tested =>
      split at matched
      next complete =>
        cases matched
        exact complete
      next => cases matched
    next => cases matched
  | parent id segments children =>
    rw [RouteTree.plain, Bool.and_eq_true, Bool.not_eq_true'] at plain
    rw [RouteTree.matchNested] at matched
    split at matched
    next part tested =>
      rw [plain.1, inner] at matched
      cases nested : children.matchNested part.remaining with
      | mk child rest =>
        cases child with
        | none =>
          rw [nested] at matched
          cases matched
        | some child =>
          have complete := matchNested_complete plain.2 nested
          simp only [nested, complete, if_true, Prod.mk.injEq] at matched
          rw [← matched.2]
          exact complete
    next => cases matched
  | tuple routes => exact matchFirst_complete plain matched

theorem matchFirst_complete {routes : List RouteTree} (plain : RouteTree.allPlain routes = true)
    {path remaining : Path} {found : Match} (matched : RouteTree.matchFirst routes path = (some found, remaining)) :
    isComplete remaining = true := by
  cases routes with
  | nil => cases matched
  | cons route routes =>
    rw [RouteTree.allPlain, Bool.and_eq_true] at plain
    rw [RouteTree.matchFirst] at matched
    split at matched
    next here =>
      cases matched
      exact matchNested_complete plain.1 here
    next => exact matchFirst_complete plain.2 matched

end

/-- A parent without optional segments matches what its children match of the rest. -/
theorem parent_match {id : ℕ} {segments : Segments} (always : segments.optional = false) {children : RouteTree}
    (plain : children.plain = true) (path : Path) :
    ((RouteTree.parent id segments children).matchNested path).1 =
      (segments.test path).bind fun part =>
        (children.matchNested part.remaining).1.map fun child =>
          .parent id part.matched (part.params ++ child.toParams) child := by
  rw [RouteTree.matchNested]
  cases segments.test path with
  | none => rfl
  | some part =>
    cases nested : children.matchNested part.remaining with
    | mk child rest =>
      cases child with
      | none => simp [inner, nested, always]
      | some child => simp [inner, nested, matchNested_complete plain nested]

/-- What is kept of a match. -/
def Match.listed (mode : ℕ → M) (found : Match) : Params × M := (found.toParams, found.ssrMode mode)

mutual

theorem matchNested_eq (mode : ℕ → M) {tree : RouteTree} (plain : tree.plain = true) (path : Path) :
    (tree.matchNested path).1.map (Match.listed mode) =
      (tree.generateRoutes mode).findSome? fun route => route.matchPath path := by
  cases tree with
  | unit => cases plain
  | leaf id segments =>
    rw [RouteTree.generateRoutes, List.findSome?_singleton, GeneratedRouteData.matchPath, generatePath_segment,
      matchesWhole_plain plain, RouteTree.matchNested]
    cases segments.test path with
    | none => rfl
    | some part =>
      rw [Option.bind_some]
      dsimp only
      split <;> rfl
  | parent id segments children =>
    rw [RouteTree.plain, Bool.and_eq_true, Bool.not_eq_true'] at plain
    have each : (fun route : GeneratedRouteData M => route.matchPath path) ∘ (fun child : GeneratedRouteData M =>
        ⟨segments.generatePath ++ child.segments, if mode id < child.ssrMode then child.ssrMode else mode id⟩) =
        fun route => (segments.test path).bind fun part => (route.matchPath part.remaining).map fun found =>
          (part.params ++ found.1, max (mode id) found.2) := by
      funext route
      exact matchPath_under plain.1 (mode id) route path
    rw [parent_match plain.1 plain.2, RouteTree.generateRoutes, List.findSome?_map, each]
    cases segments.test path with
    | none => exact (List.findSome?_eq_none_iff.mpr fun _ _ => rfl).symm
    | some part =>
      have ih := matchNested_eq mode plain.2 part.remaining
      simp only [Option.bind_some, Option.map_map]
      calc (children.matchNested part.remaining).1.map (Match.listed mode ∘ fun child =>
            .parent id part.matched (part.params ++ child.toParams) child)
          = ((children.matchNested part.remaining).1.map (Match.listed mode)).map fun found =>
              (part.params ++ found.1, max (mode id) found.2) := by rw [Option.map_map]; rfl
        _ = _ := by rw [ih, List.map_findSome?]; rfl
  | tuple routes => exact matchFirst_eq mode plain path

theorem matchFirst_eq (mode : ℕ → M) {routes : List RouteTree} (plain : RouteTree.allPlain routes = true) (path : Path) :
    (RouteTree.matchFirst routes path).1.map (Match.listed mode) =
      (RouteTree.generateEach mode routes).findSome? fun route => route.matchPath path := by
  cases routes with
  | nil => rfl
  | cons route routes =>
    rw [RouteTree.allPlain, Bool.and_eq_true] at plain
    rw [RouteTree.generateEach, List.findSome?_append, ← matchNested_eq mode plain.1, ← matchFirst_eq mode plain.2,
      RouteTree.matchFirst]
    cases route.matchNested path with
    | mk found rest => cases found <;> rfl

end

/-- The router finds a route if one of the listed routes matches as one tuple: the first of them, with its
params and its mode. -/
theorem matchRoute_listed (mode : ℕ → M) (defs : RouteDefs) (plain : defs.children.plain = true) (path : Path) :
    (defs.matchRoute path).map (Match.listed mode) =
      (defs.below path).bind fun path =>
        (defs.children.generateRoutes mode).findSome? fun route => route.matchPath path := by
  rw [RouteDefs.matchRoute]
  cases defs.below path with
  | none => rfl
  | some path =>
    have same := matchNested_eq mode plain path
    rw [Option.bind_some, ← same]
    simp only [Option.bind_eq_bind, Option.bind_some]
    cases nested : defs.children.matchNested path with
    | mk found remaining =>
      cases found with
      | none => rfl
      | some found => simp only [matchNested_complete plain nested, if_true]

/-- A page below a layout, with an optional param. -/
theorem matchRoute_listed_tab :
    (RouteDefs.matchRoute ⟨some ['/', 'a'], .parent 1 (.staticSegment ['u']) (.tuple
        [.leaf 2 (.staticSegment ['n']),
          .leaf 3 (.tuple [.paramSegment "id", .optionalParamSegment "tab"])])⟩
      ['/', 'a', '/', 'u', '/', '7', '/', 'p']).map (Match.listed (fun id => if id = 3 then 4 else 0)) =
      some ([("id", ['7']), ("tab", ['p'])], 4) :=
  (matchRoute_listed _ _ (by decide) _).trans (by decide)

/-- A layout with a static segment and an optional param: the server lists the page below it without the
param, and the router does not find it. -/
theorem listed_unmatched :
    let tree : RouteTree := .parent 1 (.tuple [.staticSegment ['x'], .optionalParamSegment "a"])
      (.leaf 2 (.staticSegment ['b']))
    (tree.matchNested ['/', 'x', '/', 'b']).1 = none ∧
      (tree.generateRoutes fun _ => 0).findSome? (fun route => route.matchPath ['/', 'x', '/', 'b']) = some ([], 0) := by
  decide

end Halyard.Router
