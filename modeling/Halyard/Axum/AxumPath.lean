import Halyard.Axum.RoutePath

/-!
# Route listings as axum paths

`to_axum_path` writes expanded segments in axum's syntax, with the braces of static names doubled.

* `parse_toAxumPath`: what it writes is read back segment by segment.
-/

namespace Halyard.Axum

inductive PathSegment
  | unit
  | static (name : List UInt8)
  | param (name : List UInt8)
  | optionalParam (name : List UInt8)
  | splat (name : List UInt8)
  deriving DecidableEq

def PathSegment.asRawStr : PathSegment → List UInt8
  | .unit => []
  | .static name => name
  | .param name => name
  | .optionalParam name => name
  | .splat name => name

/-- `str::replace` of one byte. -/
def replace (byte : UInt8) (text : List UInt8) (s : List UInt8) : List UInt8 :=
  s.flatMap fun other => if other = byte then text else [other]

def PathSegment.pushed : PathSegment → List UInt8
  | .static s =>
      replace closeBrace [closeBrace, closeBrace] (replace openBrace [openBrace, openBrace] s)
  | .param s => openBrace :: (s ++ [closeBrace])
  | .splat s => openBrace :: star :: (s ++ [closeBrace])
  | .unit => []
  | .optionalParam _ => []

def pushSegment (path : List UInt8) (segment : PathSegment) : List UInt8 :=
  let raw := segment.asRawStr
  let path := if raw ≠ [] ∧ raw.head? ≠ some slash then path ++ [slash] else path
  path ++ segment.pushed

def toAxumPath (segments : List PathSegment) : List UInt8 :=
  segments.foldl pushSegment []

/-! ## Bytes that are no braces -/

theorem isBrace_eq_false {byte : UInt8} : isBrace byte = false ↔ byte ≠ openBrace ∧ byte ≠ closeBrace := by
  simp [isBrace]

theorem unescape_cons {byte : UInt8} (plain : isBrace byte = false) (rest : List UInt8) :
    unescape (byte :: rest) = (byte, false) :: unescape rest := by
  cases rest with
  | nil => rfl
  | cons next rest =>
    rw [unescape, if_neg]
    rintro ⟨brace, _⟩
    rw [plain] at brace
    cases brace

/-- A brace is not doubled by a byte that is none. -/
theorem unescape_brace {byte next : UInt8} (plain : isBrace next = false) (rest : List UInt8)
    (brace : isBrace byte = true) :
    unescape (byte :: next :: rest) = (byte, false) :: unescape (next :: rest) := by
  rw [unescape, if_neg]
  rintro ⟨_, rfl⟩
  rw [brace] at plain
  cases plain

theorem unescape_plain {name : List UInt8} (plain : ∀ byte ∈ name, isBrace byte = false)
    (rest : List UInt8) :
    unescape (name ++ rest) = name.map (fun byte => (byte, false)) ++ unescape rest := by
  induction name with
  | nil => rfl
  | cons byte name ih =>
    rw [List.cons_append, unescape_cons (plain byte List.mem_cons_self),
      ih fun other mem => plain other (List.mem_cons_of_mem _ mem)]
    rfl

/-! ## Static names -/

/-- A name with its braces doubled. -/
def doubled (name : List UInt8) : List UInt8 :=
  name.flatMap fun byte => if isBrace byte then [byte, byte] else [byte]

theorem pushed_static (name : List UInt8) : (PathSegment.static name).pushed = doubled name := by
  rw [PathSegment.pushed, replace, replace, List.flatMap_assoc, doubled]
  refine congrArg (name.flatMap ·) (funext fun byte => ?_)
  by_cases isOpen : byte = openBrace
  · subst isOpen
    decide
  · by_cases isClose : byte = closeBrace
    · subst isClose
      decide
    · simp [isOpen, isClose, isBrace]

theorem unescape_doubled (name rest : List UInt8) :
    unescape (doubled name ++ rest) =
      name.map (fun byte => (byte, isBrace byte)) ++ unescape rest := by
  induction name with
  | nil => rfl
  | cons byte name ih =>
    rw [doubled, List.flatMap_cons, List.append_assoc]
    change unescape ((if isBrace byte then [byte, byte] else [byte]) ++ (doubled name ++ rest)) = _
    cases brace : isBrace byte with
    | true =>
      change unescape (byte :: byte :: (doubled name ++ rest)) = _
      rw [unescape, if_pos ⟨brace, rfl⟩, ih, List.map_cons, brace]
      rfl
    | false =>
      change unescape (byte :: (doubled name ++ rest)) = _
      rw [unescape_cons brace, ih, List.map_cons, brace]
      rfl

theorem doubled_head? (name : List UInt8) : (doubled name).head? = name.head? := by
  cases name with
  | nil => rfl
  | cons byte name =>
    rw [doubled, List.flatMap_cons]
    split <;> rfl

theorem mem_doubled {byte : UInt8} {name : List UInt8} : byte ∈ doubled name ↔ byte ∈ name := by
  rw [doubled, List.mem_flatMap]
  constructor
  · rintro ⟨other, there, mem⟩
    split at mem
    next =>
      have same : byte = other := by simpa using mem
      rwa [same]
    next => rwa [List.mem_singleton.mp mem]
  · intro there
    refine ⟨byte, there, ?_⟩
    split <;> exact List.mem_cons_self

/-! ## Names of parameters -/

/-- A name of a parameter: not empty, and without braces, `/` and `*`. -/
def Named (name : List UInt8) : Prop :=
  name ≠ [] ∧ ∀ byte ∈ name, isBrace byte = false ∧ byte ≠ slash ∧ byte ≠ star

theorem closing_name {name : List UInt8}
    (plain : ∀ byte ∈ name, isBrace byte = false ∧ byte ≠ slash ∧ byte ≠ star) (index : ℕ)
    (rest : List (UInt8 × Bool)) :
    closing index (name.map (fun byte => (byte, false)) ++ (closeBrace, false) :: rest) =
      .ok (index + name.length) := by
  induction name generalizing index with
  | nil => rfl
  | cons byte name ih =>
    obtain ⟨noBrace, noSlash, noStar⟩ := plain byte List.mem_cons_self
    have noClose := (isBrace_eq_false.mp noBrace).2
    rw [List.map_cons, List.cons_append, closing, if_neg fun close => noClose close.1,
      if_neg (not_or.mpr ⟨noStar, noSlash⟩), ih fun other mem => plain other (List.mem_cons_of_mem _ mem),
      List.length_cons, Nat.add_assoc, Nat.add_comm 1]

/-- What follows a wildcard: nothing, or a `/`. -/
def AtSegment (rest : List (UInt8 × Bool)) : Prop :=
  ∀ entry, rest.head? = some entry → entry.1 = slash

theorem wildcard_name {first : UInt8} {more : List UInt8} (noClose : first ≠ closeBrace)
    (plain : ∀ byte ∈ more, isBrace byte = false ∧ byte ≠ slash ∧ byte ≠ star)
    (last : (first :: more).getLast? ≠ some star) {rest : List (UInt8 × Bool)}
    (segment : AtSegment rest) :
    wildcard ((first :: more).map (fun byte => (byte, false)) ++ (closeBrace, false) :: rest) =
      .ok (wildcardToken ((first :: more).map fun byte => (byte, false)), rest) := by
  have close := closing_name plain 1 rest
  let tail := more.map fun byte => (byte, false)
  have length : tail.length = more.length := List.length_map _
  have took : ((first, false) :: (tail ++ (closeBrace, false) :: rest)).take (1 + more.length) =
      (first, false) :: tail := by
    rw [Nat.add_comm, List.take_succ_cons, List.take_left' length]
  have left : ((first, false) :: (tail ++ (closeBrace, false) :: rest)).drop (1 + more.length + 1) =
      rest := by
    rw [Nat.add_comm 1, List.drop_succ_cons, ← List.drop_drop, List.drop_left' length]
    rfl
  have notStar : ((first, false) :: tail).getLast?.map Prod.fst ≠ some star := by
    have whole : ((first, false) :: tail : List (UInt8 × Bool)) =
        (first :: more).map fun byte => (byte, false) := rfl
    rw [whole, ← List.getLast?_map, List.map_map]
    simpa [Function.comp_def] using last
  rw [List.map_cons, List.cons_append, wildcard, if_neg noClose, close]
  dsimp only
  rw [took, left, if_neg notStar]
  cases rest with
  | nil => rfl
  | cons entry rest => exact if_pos (segment entry rfl)

/-! ## Expanded segments -/

def StaticName (name : List UInt8) : Prop :=
  slash ∉ name ∧ name.head? ≠ some colon ∧ name.head? ≠ some star

/-- Static names and parameters, and at most a splat at the end. -/
def Expanded : List PathSegment → Prop
  | [] => True
  | .static name :: rest => StaticName name ∧ Expanded rest
  | .param name :: rest => Named name ∧ Expanded rest
  | .splat name :: rest => Named name ∧ rest = []
  | .unit :: _ => False
  | .optionalParam _ :: _ => False

def countParams : List PathSegment → ℕ
  | [] => 0
  | .param _ :: rest => countParams rest + 1
  | _ :: rest => countParams rest

/-- What a segment is to be read as. -/
def PathSegment.tokens : PathSegment → List Token
  | .static name => if name = [] then [] else .literal slash :: name.map .literal
  | .param _ => [.literal slash, .param]
  | .splat name => [.literal slash, .catchAll name]
  | .unit => []
  | .optionalParam _ => []

/-- What a segment adds to the path. -/
def PathSegment.piece (segment : PathSegment) : List UInt8 :=
  if segment.asRawStr = [] then [] else slash :: segment.pushed

theorem piece_of_ne (segment : PathSegment) (nonempty : segment.asRawStr ≠ []) :
    segment.piece = slash :: segment.pushed :=
  if_neg nonempty

theorem pushSegment_piece (segment : PathSegment) (noSlash : segment.asRawStr.head? ≠ some slash)
    (empty : segment.asRawStr = [] → segment.pushed = []) (path : List UInt8) :
    pushSegment path segment = path ++ segment.piece := by
  rw [pushSegment, PathSegment.piece]
  by_cases raw : segment.asRawStr = []
  · simp [raw, empty raw]
  · simp [raw, noSlash]

theorem Named.head_ne_slash {name : List UInt8} (named : Named name) : name.head? ≠ some slash := by
  intro first
  exact (named.2 slash (List.mem_of_head? first)).2.1 rfl

theorem StaticName.head_ne_slash {name : List UInt8} (static : StaticName name) :
    name.head? ≠ some slash :=
  fun first => static.1 (List.mem_of_head? first)

theorem foldl_pushSegment {segments : List PathSegment} (expanded : Expanded segments)
    (path : List UInt8) :
    segments.foldl pushSegment path = path ++ segments.flatMap PathSegment.piece := by
  induction segments generalizing path with
  | nil => exact (List.append_nil path).symm
  | cons segment rest ih =>
    rw [List.foldl_cons, List.flatMap_cons, ← List.append_assoc]
    cases segment with
    | unit => cases expanded
    | optionalParam name => cases expanded
    | static name =>
      have empty : (PathSegment.static name).asRawStr = [] → (PathSegment.static name).pushed = [] := by
        rintro ⟨⟩
        rfl
      rw [pushSegment_piece (.static name) expanded.1.head_ne_slash empty, ih expanded.2]
    | param name =>
      have empty : (PathSegment.param name).asRawStr = [] → (PathSegment.param name).pushed = [] :=
        fun none => absurd none expanded.1.1
      rw [pushSegment_piece (.param name) expanded.1.head_ne_slash empty, ih expanded.2]
    | splat name =>
      obtain ⟨named, rfl⟩ := expanded
      have empty : (PathSegment.splat name).asRawStr = [] → (PathSegment.splat name).pushed = [] :=
        fun none => absurd none named.1
      rw [pushSegment_piece (.splat name) named.head_ne_slash empty, List.flatMap_nil, List.append_nil]
      rfl

/-! ## Reading the segments back -/

theorem parseTokens_literals (params : ℕ) (name : List UInt8) (rest : List (UInt8 × Bool)) :
    parseTokens params (name.map (fun byte => (byte, isBrace byte)) ++ rest) =
      (parseTokens params rest).map (name.map Token.literal ++ ·) := by
  induction name with
  | nil => cases h : parseTokens params rest <;> simp [h, Except.map]
  | cons byte name ih =>
    have literal : isBrace byte = true ∨ isBrace byte = false := by
      cases isBrace byte
      · exact Or.inr rfl
      · exact Or.inl rfl
    rw [List.map_cons, List.cons_append, parseTokens, if_pos literal, ih]
    cases parseTokens params rest <;> rfl

theorem parseTokens_slash (params : ℕ) (rest : List (UInt8 × Bool)) :
    parseTokens params ((slash, false) :: rest) =
      (parseTokens params rest).map (.literal slash :: ·) := by
  rw [parseTokens, if_pos (Or.inr (by decide))]

theorem parseTokens_param {params : ℕ} (few : params + 1 ≤ maxParams) {after next : List (UInt8 × Bool)}
    (read : wildcard after = .ok (.param, next)) :
    parseTokens params ((openBrace, false) :: after) = (parseTokens (params + 1) next).map (.param :: ·) := by
  rw [parseTokens, if_neg (by decide), if_neg (by decide)]
  split
  next error failed => cases failed.symm.trans read
  next name next' caught => cases caught.symm.trans read
  next next' found =>
    cases found.symm.trans read
    rw [if_neg (Nat.not_lt.mpr few)]
  next other next' found => cases found.symm.trans read

theorem parseTokens_catchAll {params : ℕ} {after : List (UInt8 × Bool)} {name : List UInt8}
    (read : wildcard after = .ok (.catchAll name, [])) :
    parseTokens params ((openBrace, false) :: after) = .ok [.catchAll name] := by
  rw [parseTokens, if_neg (by decide), if_neg (by decide)]
  split
  next error failed => cases failed.symm.trans read
  next name' next' caught =>
    cases caught.symm.trans read
    rw [if_neg (fun some => some rfl), parseTokens]
    rfl
  next next' found => cases found.symm.trans read
  next other next' found => cases found.symm.trans read

/-- What follows a piece: nothing, or a `/`. -/
def Follows (rest : List UInt8) : Prop :=
  rest = [] ∨ ∃ more, rest = slash :: more

theorem slash_plain : isBrace slash = false := by decide

theorem follows_pieces (segments : List PathSegment) : Follows (segments.flatMap PathSegment.piece) := by
  induction segments with
  | nil => exact Or.inl rfl
  | cons segment rest ih =>
    rw [List.flatMap_cons, PathSegment.piece]
    split
    next => exact ih
    next => exact Or.inr ⟨_, rfl⟩

theorem Follows.atSegment {rest : List UInt8} (follows : Follows rest) : AtSegment (unescape rest) := by
  rcases follows with rfl | ⟨more, rfl⟩
  · rintro entry ⟨⟩
  · rw [unescape_cons slash_plain]
    rintro entry ⟨⟩
    rfl

theorem unescape_close {rest : List UInt8} (follows : Follows rest) :
    unescape (closeBrace :: rest) = (closeBrace, false) :: unescape rest := by
  rcases follows with rfl | ⟨more, rfl⟩
  · rfl
  · exact unescape_brace slash_plain more (by decide)

theorem unescape_open {first : UInt8} (plain : isBrace first = false) (more rest : List UInt8) :
    unescape (openBrace :: (first :: more ++ rest)) =
      (openBrace, false) :: unescape (first :: more ++ rest) :=
  unescape_brace plain (more ++ rest) (by decide)

theorem unescape_name {name rest : List UInt8} (plain : ∀ byte ∈ name, isBrace byte = false)
    (follows : Follows rest) :
    unescape (name ++ closeBrace :: rest) =
      name.map (fun byte => (byte, false)) ++ (closeBrace, false) :: unescape rest := by
  rw [unescape_plain plain, unescape_close follows]

theorem Named.getLast_ne_star {name : List UInt8} (named : Named name) : name.getLast? ≠ some star := by
  intro last
  exact (named.2 star (List.mem_of_getLast? last)).2.2 rfl

theorem wildcard_param {name : List UInt8} (named : Named name) {rest : List (UInt8 × Bool)}
    (segment : AtSegment rest) :
    wildcard (name.map (fun byte => (byte, false)) ++ (closeBrace, false) :: rest) =
      .ok (.param, rest) := by
  have last := named.getLast_ne_star
  obtain ⟨nonempty, plain⟩ := named
  obtain ⟨first, more, rfl⟩ := List.exists_cons_of_ne_nil nonempty
  obtain ⟨noBrace, _, noStar⟩ := plain first List.mem_cons_self
  rw [wildcard_name (isBrace_eq_false.mp noBrace).2
    (fun byte mem => plain byte (List.mem_cons_of_mem _ mem)) last segment]
  simp [wildcardToken, noStar]

theorem wildcard_splat {name : List UInt8} (named : Named name) {rest : List (UInt8 × Bool)}
    (segment : AtSegment rest) :
    wildcard ((star :: name).map (fun byte => (byte, false)) ++ (closeBrace, false) :: rest) =
      .ok (.catchAll name, rest) := by
  have last : (star :: name).getLast? ≠ some star := by
    rw [List.getLast?_cons_of_ne_nil named.1]
    exact named.getLast_ne_star
  rw [wildcard_name (by decide) named.2 last segment]
  simp [wildcardToken, Function.comp_def]

/-- The pieces of expanded segments are read as the segments' tokens. -/
theorem parseTokens_pieces {segments : List PathSegment} (expanded : Expanded segments) {params : ℕ}
    (few : params + countParams segments ≤ maxParams) :
    parseTokens params (unescape (segments.flatMap PathSegment.piece)) =
      .ok (segments.flatMap PathSegment.tokens) := by
  induction segments generalizing params with
  | nil =>
    rw [List.flatMap_nil, unescape, parseTokens]
    rfl
  | cons segment rest ih =>
    rw [List.flatMap_cons, List.flatMap_cons]
    have follows := follows_pieces rest
    cases segment with
    | unit => cases expanded
    | optionalParam name => cases expanded
    | static name =>
      have later := ih expanded.2 few
      by_cases empty : name = []
      · subst empty
        exact later
      · have piece : (PathSegment.static name).piece = slash :: doubled name := by
          rw [piece_of_ne (.static name) empty, pushed_static]
        rw [piece, List.cons_append, unescape_cons slash_plain, unescape_doubled, parseTokens_slash,
          parseTokens_literals, later, PathSegment.tokens, if_neg empty]
        rfl
    | param name =>
      obtain ⟨named, expanded⟩ := expanded
      have few' : params + 1 + countParams rest ≤ maxParams := by
        rw [countParams] at few
        omega
      have later := ih expanded few'
      obtain ⟨first, more, rfl⟩ := List.exists_cons_of_ne_nil named.1
      have piece : (PathSegment.param (first :: more)).piece ++ rest.flatMap PathSegment.piece =
          slash :: openBrace :: (first :: more ++ closeBrace :: rest.flatMap PathSegment.piece) := by
        rw [piece_of_ne (.param (first :: more)) named.1]
        simp [PathSegment.pushed]
      rw [piece, unescape_cons slash_plain, unescape_open (named.2 first List.mem_cons_self).1,
        unescape_name (fun byte mem => (named.2 byte mem).1) follows, parseTokens_slash,
        parseTokens_param (le_of_add_le_left few') (wildcard_param named follows.atSegment), later]
      rfl
    | splat name =>
      obtain ⟨named, rfl⟩ := expanded
      have piece : (PathSegment.splat name).piece ++ ([] : List PathSegment).flatMap PathSegment.piece =
          slash :: openBrace :: (star :: name ++ [closeBrace]) := by
        rw [piece_of_ne (.splat name) named.1]
        simp [PathSegment.pushed]
      have plain : ∀ byte ∈ star :: name, isBrace byte = false := by
        intro byte mem
        rcases List.mem_cons.mp mem with rfl | mem
        · decide
        · exact (named.2 byte mem).1
      have none : AtSegment [] := by
        rintro entry ⟨⟩
      rw [piece, unescape_cons slash_plain, unescape_open (by decide), unescape_name plain (Or.inl rfl),
        show unescape [] = [] from rfl, parseTokens_slash, parseTokens_catchAll (wildcard_splat named none)]
      rfl

/-! ## The older syntax -/

theorem segmentError_of_head {segment : List UInt8} (noColon : segment.head? ≠ some colon)
    (noStar : segment.head? ≠ some star) : segmentError segment = none := by
  rw [segmentError, if_neg noColon, if_neg noStar]

theorem Named.pushed {name : List UInt8} (named : Named name) :
    (slash ∉ (PathSegment.param name).pushed ∧ segmentError (PathSegment.param name).pushed = none) ∧
      slash ∉ (PathSegment.splat name).pushed ∧ segmentError (PathSegment.splat name).pushed = none := by
  have noSlash : slash ∉ name := fun there => (named.2 slash there).2.1 rfl
  have heads : some openBrace ≠ some colon ∧ some openBrace ≠ some star := by decide
  have apart : slash ≠ openBrace ∧ slash ≠ closeBrace ∧ slash ≠ star := by decide
  refine ⟨⟨?_, segmentError_of_head heads.1 heads.2⟩, ?_, segmentError_of_head heads.1 heads.2⟩
  · simp [PathSegment.pushed, noSlash, apart]
  · simp [PathSegment.pushed, noSlash, apart]

theorem StaticName.pushed {name : List UInt8} (static : StaticName name) :
    slash ∉ (PathSegment.static name).pushed ∧ segmentError (PathSegment.static name).pushed = none := by
  rw [pushed_static]
  refine ⟨fun there => static.1 (mem_doubled.mp there), segmentError_of_head ?_ ?_⟩
  · rw [doubled_head?]
    exact static.2.1
  · rw [doubled_head?]
    exact static.2.2

theorem Expanded.pushed {segments : List PathSegment} (expanded : Expanded segments) :
    ∀ segment ∈ segments, slash ∉ segment.pushed ∧ segmentError segment.pushed = none := by
  induction segments with
  | nil => exact fun _ mem => absurd mem List.not_mem_nil
  | cons first rest ih =>
    refine List.forall_mem_cons.mpr ?_
    cases first with
    | unit => cases expanded
    | optionalParam name => cases expanded
    | static name => exact ⟨expanded.1.pushed, ih expanded.2⟩
    | param name => exact ⟨expanded.1.pushed.1, ih expanded.2⟩
    | splat name =>
      obtain ⟨named, rfl⟩ := expanded
      exact ⟨named.pushed.2, fun _ mem => absurd mem List.not_mem_nil⟩

theorem segments_accepted {segments : List PathSegment}
    (pushed : ∀ segment ∈ segments, slash ∉ segment.pushed ∧ segmentError segment.pushed = none)
    {text : List UInt8} (noSlash : slash ∉ text) (accepted : segmentError text = none) :
    ((text ++ segments.flatMap PathSegment.piece).splitOn slash).findSome? segmentError = none := by
  induction segments generalizing text with
  | nil =>
    rw [List.flatMap_nil, List.append_nil, List.splitOn_eq_singleton noSlash, List.findSome?_cons,
      accepted]
    rfl
  | cons segment rest ih =>
    obtain ⟨first, later⟩ := List.forall_mem_cons.mp pushed
    rw [List.flatMap_cons, PathSegment.piece]
    split
    next => exact ih later noSlash accepted
    next =>
      rw [List.cons_append, List.splitOn_append_cons_self_of_not_mem noSlash, List.findSome?_cons,
        accepted]
      exact ih later first.1 first.2

/-- What `to_axum_path` writes of expanded segments is read back segment by segment, unless all of
them are static and empty. -/
theorem parse_toAxumPath (segments : List PathSegment) (expanded : Expanded segments)
    (nonempty : ∃ segment ∈ segments, segment.asRawStr ≠ []) (few : countParams segments ≤ maxParams) :
    parse (toAxumPath segments) = .ok (segments.flatMap PathSegment.tokens) := by
  have path : toAxumPath segments = segments.flatMap PathSegment.piece := foldl_pushSegment expanded []
  have starts : (segments.flatMap PathSegment.piece).head? = some slash := by
    rcases follows_pieces segments with none | ⟨more, some⟩
    · obtain ⟨segment, there, raw⟩ := nonempty
      have empty := List.flatMap_eq_nil_iff.mp none segment there
      rw [piece_of_ne segment raw] at empty
      cases empty
    · rw [some]
      rfl
  have accepted := segments_accepted expanded.pushed List.not_mem_nil
    (show segmentError [] = none from rfl)
  rw [List.nil_append] at accepted
  rw [path, parse, if_neg fun other => other starts, accepted]
  exact parseTokens_pieces expanded (by rwa [Nat.zero_add])

/-- `/a{{/{b}/{*c}` -/
theorem parse_toAxumPath_splat :
    parse (toAxumPath [.static [97, openBrace], .param [98], .splat [99]]) =
      .ok [.literal slash, .literal 97, .literal openBrace, .literal slash, .param, .literal slash,
        .catchAll [99]] := by
  refine parse_toAxumPath _ ⟨⟨by decide, by decide, by decide⟩, ⟨by decide, ?_⟩, ⟨by decide, ?_⟩, rfl⟩
    ⟨.static [97, openBrace], List.mem_cons_self, by decide⟩ (by decide)
  · intro byte mem
    rw [List.mem_singleton.mp mem]
    decide
  · intro byte mem
    rw [List.mem_singleton.mp mem]
    decide

/-- Empty names: a static one adds no `/`, and a parameter is refused. -/
theorem empty_names :
    parse (toAxumPath [.static []]) = .error .noLeadingSlash ∧
      parse (toAxumPath [.static [97], .static []]) = .ok [.literal slash, .literal 97] ∧
      parse (toAxumPath [.static [97], .param []]) = .error .invalidParam := by
  refine ⟨rfl, ?_, ?_⟩
  · have path : toAxumPath [.static [97], .static []] = [slash, 97] := by decide
    have accepted : ([slash, 97].splitOn slash).findSome? segmentError = none := by decide
    rw [path, parse, if_neg (by decide), accepted]
    simp [unescape, parseTokens, isBrace, slash, openBrace, closeBrace, Except.map]
  · have path : toAxumPath [.static [97], .param []] = [slash, 97, openBrace, closeBrace] := by decide
    have accepted : ([slash, 97, openBrace, closeBrace].splitOn slash).findSome? segmentError = none := by
      decide
    rw [path, parse, if_neg (by decide), accepted]
    simp [unescape, parseTokens, wildcard, isBrace, slash, openBrace, closeBrace, Except.map]

end Halyard.Axum
