import Mathlib

/-!
# Paths that axum can route

`RoutePath::parse` reads a path as axum and matchit do.  A path is the list of the bytes of its text.
-/

namespace Halyard.Axum

/-- Why axum cannot route a path. -/
inductive PathError
  | noLeadingSlash
  | colonSegment
  | starSegment
  | invalidParam
  | invalidParamSegment
  | catchAllNotLast
  | tooManyParams
  deriving DecidableEq

/-- The most parameters that matchit can hold in one route. -/
def maxParams : ℕ := 25

/-- One element of a route path.  Parameters are the same whatever their names. -/
inductive Token
  | literal (byte : UInt8)
  | param
  | catchAll (name : List UInt8)
  deriving DecidableEq

def Token.isWildcard : Token → Bool
  | .literal _ => false
  | .param => true
  | .catchAll _ => true

abbrev RoutePath := List Token

/-! ## The bytes of the syntax -/

/-- `/` -/
def slash : UInt8 := 47

/-- `{` -/
def openBrace : UInt8 := 123

/-- `}` -/
def closeBrace : UInt8 := 125

/-- `*` -/
def star : UInt8 := 42

/-- `:` -/
def colon : UInt8 := 58

def isBrace (byte : UInt8) : Bool :=
  byte = openBrace || byte = closeBrace

/-- A doubled brace is one literal brace, and is marked as escaped. -/
def unescape : List UInt8 → List (UInt8 × Bool)
  | [] => []
  | [byte] => [(byte, false)]
  | byte :: next :: rest =>
      if isBrace byte ∧ next = byte then (byte, true) :: unescape rest
      else (byte, false) :: unescape (next :: rest)

/-! ## Wildcards -/

/-- The index at which the wildcard closes, from its second byte on. -/
def closing (index : ℕ) : List (UInt8 × Bool) → Except PathError ℕ
  | [] => .error .invalidParam
  | (byte, escaped) :: rest =>
      if byte = closeBrace ∧ escaped = false then .ok index
      else if byte = star ∨ byte = slash then .error .invalidParam
      else closing (index + 1) rest

def wildcardToken (name : List (UInt8 × Bool)) : Token :=
  match name with
  | [] => .param
  | (byte, _) :: catchAll => if byte = star then .catchAll (catchAll.map Prod.fst) else .param

/-- The wildcard after an opening brace, and what follows its closing one. -/
def wildcard (afterBrace : List (UInt8 × Bool)) : Except PathError (Token × List (UInt8 × Bool)) :=
  match afterBrace with
  | [] => .error .invalidParam
  | (first, _) :: more =>
      if first = closeBrace then .error .invalidParam
      else
        match closing 1 more with
        | .error error => .error error
        | .ok close =>
            let name := afterBrace.take close
            let rest := afterBrace.drop (close + 1)
            if (name.getLast?.map Prod.fst) = some star then .error .invalidParam
            else
              match rest with
              | [] => .ok (wildcardToken name, rest)
              | (next, _) :: _ =>
                  if next = slash then .ok (wildcardToken name, rest) else .error .invalidParamSegment

theorem length_wildcard {afterBrace rest : List (UInt8 × Bool)} {token : Token}
    (read : wildcard afterBrace = .ok (token, rest)) : rest.length ≤ afterBrace.length := by
  unfold wildcard at read
  split at read
  next => cases read
  next first flag more =>
    split at read
    next => cases read
    next =>
      split at read
      next => cases read
      next close _ =>
        dsimp only at read
        split at read
        next => cases read
        next =>
          split at read
          next =>
            cases read
            rw [List.length_drop]
            exact Nat.sub_le _ _
          next following =>
            split at read
            next =>
              cases read
              rw [List.length_drop]
              exact Nat.sub_le _ _
            next => cases read

/-! ## Parsing -/

/-- The tokens of the remaining bytes, after `params` parameters. -/
def parseTokens (params : ℕ) (rest : List (UInt8 × Bool)) : Except PathError (List Token) :=
  match rest with
  | [] => .ok []
  | (byte, escaped) :: after =>
      if escaped = true ∨ isBrace byte = false then
        (parseTokens params after).map (.literal byte :: ·)
      else if byte = closeBrace then .error .invalidParam
      else
        match read : wildcard after with
        | .error error => .error error
        | .ok (.catchAll name, next) =>
            if next ≠ [] then .error .catchAllNotLast
            else (parseTokens params next).map (.catchAll name :: ·)
        | .ok (.param, next) =>
            if maxParams < params + 1 then .error .tooManyParams
            else (parseTokens (params + 1) next).map (.param :: ·)
        | .ok (.literal other, next) => (parseTokens params next).map (.literal other :: ·)
termination_by rest.length
decreasing_by
  all_goals
    first
    | exact Nat.lt_succ_self _
    | exact Nat.lt_succ_of_le (length_wildcard read)

/-- axum's checks for its older syntax. -/
def segmentError (segment : List UInt8) : Option PathError :=
  if segment.head? = some colon then some .colonSegment
  else if segment.head? = some star then some .starSegment
  else none

def parse (path : List UInt8) : Except PathError RoutePath :=
  if path.head? ≠ some slash then .error .noLeadingSlash
  else
    match (path.splitOn slash).findSome? segmentError with
    | some error => .error error
    | none => parseTokens 0 (unescape path)

/-- Whether matchit refuses to hold both paths in one router. -/
def conflictsWith : RoutePath → RoutePath → Bool
  | [], [] => true
  | ours :: rest, theirs :: others =>
      if ours = theirs then conflictsWith rest others else ours.isWildcard && theirs.isWildcard
  | [], _ :: _ => false
  | _ :: _, [] => false

theorem conflictsWith_comm (ours theirs : RoutePath) :
    conflictsWith ours theirs = conflictsWith theirs ours := by
  induction ours generalizing theirs with
  | nil => cases theirs <;> rfl
  | cons token rest ih =>
    cases theirs with
    | nil => rfl
    | cons other others =>
      by_cases same : token = other
      · simp [conflictsWith, same, ih]
      · simp [conflictsWith, same, Ne.symm same, Bool.and_comm]

end Halyard.Axum
