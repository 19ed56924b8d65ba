import Halyard.Text
import Mathlib.Data.List.Basic
import Mathlib.Tactic.Common

/-!
# Matching a path against nested routes

A path is the list of its characters, and lengths count its bytes.  `Segments.test` is what a route's own segments match at the
beginning of a path: static segments, params, optional params, wildcards and tuples of them, which try
again with fewer optional fields.  `RouteTree.matchNested` goes through the tree of nested routes, and
`inner` gives an optional parent's path back to its children when they cannot match what is left.
-/

namespace Halyard.Router

open String Text

abbrev Path := List Char

abbrev Params := List (String × List Char)

structure PartialPathMatch where
  /-- The part of the path that is not matched yet. -/
  remaining : Path
  params : Params
  /-- The part of the path that was matched. -/
  matched : Path
  deriving DecidableEq

/-- What `PossibleRouteMatch` is implemented for.  `()` and `(A,)` are the tuples without a field and
with one. -/
inductive Segments
  | staticSegment (segment : List Char)
  | paramSegment (name : String)
  | optionalParamSegment (name : String)
  | wildcardSegment (name : String)
  | tuple (fields : List Segments)

/-! ## One segment -/

def stripPrefix : List Char → Path → Option Path
  | [], path => some path
  | _ :: _, [] => none
  | c :: pre, d :: path => if c = d then stripPrefix pre path else none

/-- The path is at the end of a segment. -/
def atBoundary : Path → Bool
  | [] => true
  | c :: _ => c == '/'

/-- A static segment's name, without the leading `/` that it may be written with. -/
def staticName : List Char → List Char
  | '/' :: name => name
  | segment => segment

def staticTest (segment : List Char) (path : Path) : Option PartialPathMatch :=
  if segment = [] then
    if atBoundary path then some ⟨path, [], []⟩ else none
  else if segment = ['/'] then
    if path.head? = some '/' then some ⟨path, [], ['/']⟩ else none
  else do
    let rest ← stripPrefix ['/'] path
    if '/' ∈ staticName segment then none
    else
      let remaining ← stripPrefix (staticName segment) rest
      if atBoundary remaining then
        some ⟨remaining, [], path.take (path.length - remaining.length)⟩
      else none

/-- `value` and `remaining`, of a path after its slash. -/
def splitValue (rest : Path) : Option (List Char × Path) :=
  match find '/' rest with
  | some mid => splitAtChecked rest mid
  | none => some (rest, [])

/-- `matched`, `value` and `remaining`. -/
def firstSegment (path : Path) : Option (Path × List Char × Path) := do
  let rest ← stripPrefix ['/'] path
  let (value, remaining) ← splitValue rest
  some (path.take (path.length - remaining.length), value, remaining)

def paramTest (name : String) (path : Path) : Option PartialPathMatch := do
  let (matched, value, remaining) ← firstSegment path
  if value = [] then none else some ⟨remaining, [(name, value)], matched⟩

def wildcardTest (name : String) (path : Path) : Option PartialPathMatch :=
  (if path = [] then some path else stripPrefix ['/'] path).map fun value =>
    ⟨[], [(name, value)], path⟩

def optionalParamTest (name : String) (path : Path) : Option PartialPathMatch :=
  match firstSegment path with
  | some (matched, value, remaining) =>
      if value = [] then some ⟨path, [], []⟩ else some ⟨remaining, [(name, value)], matched⟩
  | none => some ⟨path, [], []⟩

/-! ## Tuples of segments -/

/-- The part of `path` that the segments of a tuple have matched so far. -/
structure MatchedPrefix where
  path : Path
  «end» : ℕ

/-- `none` if what it is given are not parts of `path`. -/
def MatchedPrefix.record (pre : MatchedPrefix) (input matched remaining : Path) :
    Option MatchedPrefix :=
  if utf8Len pre.path < utf8Len input ∨ utf8Len pre.path < utf8Len remaining then none
  else
    let start := utf8Len pre.path - utf8Len input
    let reportedEnd := start + utf8Len matched
    let consumedEnd := utf8Len pre.path - utf8Len remaining
    some { pre with «end» := max (max pre.end reportedEnd) consumedEnd }

def MatchedPrefix.matched (pre : MatchedPrefix) : Option Path :=
  (splitAtChecked pre.path pre.end).map Prod.fst

/-- A tuple's field, as the tuple uses it. -/
structure Field where
  optional : Bool
  test : Path → Option PartialPathMatch

/-- How one turn of a tuple's loop ends. -/
inductive Turn
  | matched (partialMatch : PartialPathMatch)
  | failed
  /-- Try again with one optional field fewer. -/
  | again

/-- One turn of the loop, from a field on: `nth` optional fields have been passed, and the first
`includeOptionals` are included. -/
def turn (includeOptionals : ℕ) :
    List Field → Bool → ℕ → MatchedPrefix → Path → Params → Turn
  | [], _, _, pre, r, p =>
      match pre.matched with
      | some matched => .matched ⟨r, p, matched⟩
      | none => .failed
  | field :: fields, first, nth, pre, r, p =>
      let nth' := if field.optional then nth + 1 else nth
      if field.optional = false ∨ nth' ≤ includeOptionals then
        match field.test r with
        | none => if first ∨ field.optional then .failed else .again
        | some part =>
            match pre.record r part.matched part.remaining with
            | none => .failed
            | some pre' => turn includeOptionals fields false nth' pre' part.remaining (p ++ part.params)
      else turn includeOptionals fields false nth' pre r p

def tupleTestFrom (fields : List Field) (path : Path) : ℕ → Option PartialPathMatch
  | 0 =>
      match turn 0 fields true 0 ⟨path, 0⟩ path [] with
      | .matched partialMatch => some partialMatch
      | _ => none
  | fewer + 1 =>
      match turn (fewer + 1) fields true 0 ⟨path, 0⟩ path [] with
      | .matched partialMatch => some partialMatch
      | .failed => none
      | .again => tupleTestFrom fields path fewer

def tupleTest (fields : List Field) (path : Path) : Option PartialPathMatch :=
  tupleTestFrom fields path (fields.countP (·.optional))

mutual

def Segments.optional : Segments → Bool
  | .staticSegment _ => false
  | .paramSegment _ => false
  | .optionalParamSegment _ => true
  | .wildcardSegment _ => false
  | .tuple fields => Segments.anyOptional fields

def Segments.anyOptional : List Segments → Bool
  | [] => false
  | field :: fields => field.optional || Segments.anyOptional fields

end

mutual

def Segments.test : Segments → Path → Option PartialPathMatch
  | .staticSegment segment => staticTest segment
  | .paramSegment name => paramTest name
  | .optionalParamSegment name => optionalParamTest name
  | .wildcardSegment name => wildcardTest name
  | .tuple fields => tupleTest (Segments.fields fields)

def Segments.fields : List Segments → List Field
  | [] => []
  | field :: fields => ⟨field.optional, field.test⟩ :: Segments.fields fields

end

mutual

/-- The segments of nested tuples, in order. -/
def Segments.leaves : Segments → List Segments
  | .tuple fields => Segments.allLeaves fields
  | segment => [segment]

def Segments.allLeaves : List Segments → List Segments
  | [] => []
  | field :: fields => field.leaves ++ Segments.allLeaves fields

end

/-! ## Nested routes -/

/-- The routes that are matched: `()`, a `NestedRoute` without children or with, and a tuple or a
`StaticVec` of alternatives. -/
inductive RouteTree
  | unit
  | leaf (id : ℕ) (segments : Segments)
  | parent (id : ℕ) (segments : Segments) (children : RouteTree)
  | tuple (routes : List RouteTree)

/-- `()` and `NestedMatch`, with no `child` or with one.  An `Either` around a match says which of the
alternatives it is of, and answers with the match inside. -/
inductive Match
  | unit
  | leaf (id : ℕ) (matched : Path) (params : Params)
  | parent (id : ℕ) (matched : Path) (params : Params) (child : Match)
  deriving DecidableEq

def Match.asMatched : Match → Path
  | .unit => []
  | .leaf _ matched _ => matched
  | .parent _ matched _ _ => matched

def Match.toParams : Match → Params
  | .unit => []
  | .leaf _ _ params => params
  | .parent _ _ params _ => params

/-- Takes `pattern` off the end of `path` as often as it is there. -/
def trimEndMatches (pattern path : Path) : Path :=
  go path.length path
where
  go : ℕ → Path → Path
    | 0, path => path
    | fuel + 1, path =>
        if pattern ≠ [] ∧ pattern.isSuffixOf path then
          go fuel (path.take (path.length - pattern.length))
        else path

/-- `remaining.is_empty() || remaining == "/"`. -/
def isComplete (remaining : Path) : Bool :=
  remaining == [] || remaining == ['/']

/-- What a parent makes of its children: the child's match, what remains, and its params.  `children` is
their `match_nested`. -/
def inner (thisWasOptional : Bool) (path remaining : Path) (segments : Segments)
    (children : Path → Option Match × Path) (params : Params) : Option (Match × Path × Params) :=
  match children remaining with
  | (some child, remaining) =>
      if isComplete remaining then some (child, remaining, params ++ child.toParams) else none
  | (none, _) =>
      if thisWasOptional then
        -- the children are matched again against the full path
        match children path with
        | (some child, remaining) =>
            if isComplete remaining then do
              let rematch := trimEndMatches (child.asMatched ++ remaining) path
              let newPartial ← segments.test rematch
              some (child, remaining, newPartial.params ++ child.toParams)
            else none
        | (none, _) => none
      else none

mutual

def RouteTree.matchNested : RouteTree → Path → Option Match × Path
  | .unit, path => (some .unit, path)
  | .leaf id segments, path =>
      match segments.test path with
      | some partialMatch =>
          if isComplete partialMatch.remaining then
            (some (.leaf id partialMatch.matched partialMatch.params), partialMatch.remaining)
          else (none, path)
      | none => (none, path)
  | .parent id segments children, path =>
      match segments.test path with
      | some partialMatch =>
          match inner segments.optional path partialMatch.remaining segments children.matchNested
            partialMatch.params with
          | some (child, remaining, params) =>
              (some (.parent id partialMatch.matched params child), remaining)
          | none => (none, path)
      | none => (none, path)
  | .tuple routes, path => RouteTree.matchFirst routes path

def RouteTree.matchFirst : List RouteTree → Path → Option Match × Path
  | [], path => (none, path)
  | route :: routes, path =>
      match route.matchNested path with
      | (some matched, remaining) => (some matched, remaining)
      | (none, _) => RouteTree.matchFirst routes path

end

structure RouteDefs where
  base : Option Path
  children : RouteTree

/-- The path within the base. -/
def RouteDefs.below (defs : RouteDefs) (path : Path) : Option Path :=
  match defs.base with
  | none => some path
  | some base =>
      if base.head? = some '/' then
        stripPrefix (base.dropWhile (· = '/')) (path.dropWhile (· = '/'))
      else stripPrefix base path

def RouteDefs.matchRoute (defs : RouteDefs) (path : Path) : Option Match := do
  let path ← defs.below path
  match defs.children.matchNested path with
  | (some matched, remaining) => if isComplete remaining then some matched else none
  | (none, _) => none

end Halyard.Router
