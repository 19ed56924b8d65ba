import Halyard.Splitting
import Halyard.Router.Parts

/-!
# The `path!` macro

`path!` turns a string literal into a tuple of segments, and the tuple is then matched by rules of its own.

* `parts_eq`: what the macro splits are the parts of the literal between slashes.
* `turn_filled`: the tuple's loop goes through a path that was filled in, one part after the other.
* `pathImpl_matches`: the tuple of a literal matches its path with the values that were filled in, unless the
  literal is a single unnamed wildcard.
-/

namespace Halyard.Router.PathMacro

open Splitting String Text

/-! ## The source's functions -/

def rfc3986Unreserved : List Char := ['-', '.', '_', '~']

def rfc3986PcharOther : List Char := ['@']

inductive Segment
  | static (s : List Char)
  | param (s : List Char)
  | optionalParam (s : List Char)
  | wildcard (s : List Char)
  deriving DecidableEq

/-- A literal as it is written in the source, or another token. -/
inductive TokenTree
  | literal (text : List Char)
  | other

def parseSegment : List Char → Segment
  | ':' :: segment =>
    if segment.getLast? = some '?' then .optionalParam segment.dropLast else .param segment
  | '*' :: segment => .wildcard segment
  | segment => .static segment

def parseStr (current : List Char) : List Segment :=
  if current = [] ∨ current = ['*'] then [] else (current.splitOn '/').map parseSegment

def isTrimmed (c : Char) : Bool :=
  c == '"' || c == '/'

def trim (text : List Char) : List Char :=
  (text.dropWhile isTrimmed).rdropWhile isTrimmed

def parseLiteral (lit : List Char) : Except String (List Segment) :=
  if ['/', '/'] <:+: lit then .error "Consecutive '/' is not allowed"
  else
    .ok (parseStr (trim lit) ++
      if ['/', '"'] <:+ lit ∧ lit ≠ ['"', '/', '"'] then [.static ['/']] else [])

def parseAll : List TokenTree → Except String (List Segment)
  | [] => .ok []
  | .literal lit :: input => do
    let segments ← parseLiteral lit
    let more ← parseAll input
    .ok (segments ++ more)
  | .other :: _ => .error "expected a string literal path like `\"/foo/:bar\"`"

def isValidChar (c : Char) : Bool :=
  ('0' ≤ c && c ≤ '9') || ('a' ≤ c && c ≤ 'z') || ('A' ≤ c && c ≤ 'Z') || c ∈ rfc3986Unreserved ||
    c ∈ rfc3986PcharOther

def isValid (segment : List Char) : Bool :=
  segment == ['/'] || segment.all isValidChar

def Segment.ensureValid : Segment → Except String Unit
  | .wildcard s => if isValid s then .ok () else .error ("Invalid wildcard segment: " ++ String.ofList s)
  | .static s => if isValid s then .ok () else .error ("Invalid static segment: " ++ String.ofList s)
  | .param s => if isValid s then .ok () else .error ("Invalid param segment: " ++ String.ofList s)
  | .optionalParam _ => .ok ()

def Segment.wildcard? : Segment → Option (List Char)
  | .wildcard s => some s
  | _ => none

def ensureValid (segments : List Segment) : Except String Unit := do
  segments.forM Segment.ensureValid
  match segments.dropLast.findSome? Segment.wildcard? with
  | some s => .error ("Wildcard must be at end: " ++ String.ofList s)
  | none => .ok ()

def Segment.toTokens : Segment → Segments
  | .wildcard s => .wildcardSegment (String.ofList s)
  | .static s => .staticSegment s
  | .param s => .paramSegment (String.ofList s)
  | .optionalParam s => .optionalParamSegment (String.ofList s)

def pathImpl (tokens : List TokenTree) : Except String Segments := do
  let segments ← parseAll tokens
  ensureValid segments
  .ok (.tuple (segments.map Segment.toTokens))

/-! ## Literals and their paths -/

/-- The text of a string literal with this content. -/
def quoted (content : List Char) : List Char :=
  '"' :: content ++ ['"']

/-- A quote within a string literal comes after a backslash. -/
def Escaped (content : List Char) : Prop :=
  ∀ before after, content = before ++ '"' :: after → before.getLast? = some '\\'

/-- The parts of a literal between its slashes. -/
def parts (content : List Char) : List (List Char) :=
  filled '/' content

/-- A literal ends with a slash, which is not its first one. -/
def Trailing (content : List Char) : Prop :=
  content.getLast? = some '/' ∧ content ≠ ['/']

instance {content : List Char} : Decidable (Trailing content) :=
  inferInstanceAs (Decidable (_ ∧ _))

/-- The path that the parts give with values for the params and the wildcard, each after a slash, and these
values. -/
inductive Filled : List (List Char) → Path → Params → Prop
  | nil : Filled [] [] []
  | static {part : List Char} {parts : List (List Char)} {path : Path} {params : Params}
      (plain : part.head? ≠ some ':' ∧ part.head? ≠ some '*') (filled : Filled parts path params) :
      Filled (part :: parts) ('/' :: part ++ path) params
  | param {name value : List Char} {parts : List (List Char)} {path : Path} {params : Params}
      (some_ : value ≠ []) (apart : '/' ∉ value) (filled : Filled parts path params) :
      Filled ((':' :: name) :: parts) ('/' :: value ++ path) ((String.ofList name, value) :: params)
  | wildcard {name rest : List Char} : Filled [('*' :: name)] ('/' :: rest) [(String.ofList name, rest)]

/-- How the path may end: with the literal's trailing slash, and otherwise with a slash or without one.  What a
wildcard takes has it. -/
def Ends (content : List Char) (slash : Path) : Prop :=
  if Trailing content then slash = ['/']
  else slash = [] ∨ slash = ['/'] ∧ ∀ part ∈ parts content, part.head? ≠ some '*'

/-! ## What the macro reads -/

variable {content lit part : List Char} {segments : List Segment} {segment : Segment}

/-- The text that a segment is named by. -/
def Segment.text : Segment → List Char
  | .static s | .param s | .optionalParam s | .wildcard s => s

theorem parseLiteral_ok (read : parseLiteral lit = .ok segments) : ¬['/', '/'] <:+: lit ∧
    segments = parseStr (trim lit) ++
      if ['/', '"'] <:+ lit ∧ lit ≠ ['"', '/', '"'] then [.static ['/']] else [] := by
  unfold parseLiteral at read
  split at read
  next => cases read
  next apart => exact ⟨apart, (Except.ok.inj read).symm⟩

theorem parseAll_singleton : parseAll [.literal lit] = parseLiteral lit := by
  unfold parseAll
  cases parseLiteral lit with
  | error => rfl
  | ok segments => exact congrArg Except.ok (List.append_nil segments)

theorem bind_ok {α β : Type} {first : Except String α} {next : α → Except String β} {b : β}
    (ok : first >>= next = .ok b) : ∃ a, first = .ok a ∧ next a = .ok b := by
  cases first with
  | error => cases ok
  | ok a => exact ⟨a, rfl, ok⟩

theorem of_ite_ok {condition : Prop} [Decidable condition] {error : String}
    (ok : (if condition then .ok () else .error error : Except String Unit) = .ok ()) : condition := by
  by_contra no
  rw [if_neg no] at ok
  cases ok

theorem ensureValid_segment (valid : segment.ensureValid = .ok ()) (plain : segment.toTokens.optional = false) :
    isValid segment.text = true := by
  cases segment with
  | optionalParam => cases plain
  | static s => exact of_ite_ok valid
  | param s => exact of_ite_ok valid
  | wildcard s => exact of_ite_ok valid

theorem forM_ok (all : segments.forM Segment.ensureValid = .ok ()) :
    ∀ segment ∈ segments, segment.ensureValid = .ok () := by
  induction segments with
  | nil => exact fun segment mem => absurd mem List.not_mem_nil
  | cons first segments ih =>
    obtain ⟨⟨⟩, valid, rest⟩ := bind_ok all
    exact List.forall_mem_cons.mpr ⟨valid, ih rest⟩

/-- What the macro accepts: each segment is valid, and a wildcard is the last one. -/
theorem ensureValid_ok (valid : ensureValid segments = .ok ()) :
    (∀ segment ∈ segments, segment.ensureValid = .ok ()) ∧
      ∀ segment ∈ segments.dropLast, segment.wildcard? = none := by
  obtain ⟨⟨⟩, all, last⟩ := bind_ok valid
  refine ⟨forM_ok all, ?_⟩
  cases found : segments.dropLast.findSome? Segment.wildcard? with
  | some s =>
    rw [found] at last
    cases last
  | none => exact List.findSome?_eq_none_iff.mp found

theorem anyOptional_false {fields : List Segments} (plain : Segments.anyOptional fields = false) :
    ∀ field ∈ fields, field.optional = false := by
  induction fields with
  | nil => exact fun field mem => absurd mem List.not_mem_nil
  | cons first fields ih =>
    rw [Segments.anyOptional, Bool.or_eq_false_iff] at plain
    exact List.forall_mem_cons.mpr ⟨plain.1, ih plain.2⟩

theorem pathImpl_ok {tuple : Segments} (accepted : pathImpl [.literal lit] = .ok tuple) :
    ∃ segments, parseLiteral lit = .ok segments ∧ ensureValid segments = .ok () ∧
      tuple = .tuple (segments.map Segment.toTokens) := by
  unfold pathImpl at accepted
  rw [parseAll_singleton] at accepted
  obtain ⟨segments, read, accepted⟩ := bind_ok accepted
  obtain ⟨⟨⟩, valid, accepted⟩ := bind_ok accepted
  exact ⟨segments, read, valid, (Except.ok.inj accepted).symm⟩

/-! ## Trimming -/

theorem mem_trim {c : Char} (mem : c ∈ lit) (kept : isTrimmed c = false) : c ∈ trim lit := by
  have keeps : ∀ text : List Char, c ∈ text → c ∈ text.dropWhile isTrimmed := by
    intro text mem
    rw [← List.takeWhile_append_dropWhile (p := isTrimmed) (l := text)] at mem
    rcases List.mem_append.mp mem with taken | left
    · rw [List.mem_takeWhile_imp taken] at kept
      cases kept
    · exact left
  have trimmed := keeps (lit.dropWhile isTrimmed).reverse (List.mem_reverse.mpr (keeps lit mem))
  exact List.mem_reverse.mpr trimmed

theorem dropWhile_quoted {text : List Char} (plain : '"' ∉ text) :
    text.dropWhile isTrimmed = text.dropWhile (· = '/') := by
  induction text with
  | nil => rfl
  | cons c text ih =>
    obtain ⟨first, rest⟩ := List.ne_and_not_mem_of_not_mem_cons plain
    have same : isTrimmed c = decide (c = '/') := by
      rw [isTrimmed, beq_false_of_ne (Ne.symm first), Bool.false_or, Bool.beq_eq_decide_eq]
    rw [List.dropWhile_cons, List.dropWhile_cons, same, ih rest]

theorem trim_quoted (plain : '"' ∉ content) :
    trim (quoted content) = (content.dropWhile (· = '/')).rdropWhile (· = '/') := by
  have plain' : '"' ∉ content.dropWhile (· = '/') := fun mem => plain ((List.dropWhile_suffix _).subset mem)
  have same : (content.dropWhile (· = '/')).rdropWhile isTrimmed =
      (content.dropWhile (· = '/')).rdropWhile (· = '/') :=
    congrArg List.reverse (dropWhile_quoted fun mem => plain' (List.mem_reverse.mp mem))
  rw [trim, quoted, List.cons_append, List.dropWhile_cons_of_pos rfl, List.dropWhile_append, dropWhile_quoted plain,
    ← same]
  split
  next none => rw [List.isEmpty_iff.mp none]; rfl
  next => exact List.rdropWhile_concat_pos _ _ _ rfl

/-! ## The parts -/

theorem text_parseSegment {c : Char} (mem : c ∈ part) (plain : (parseSegment part).toTokens.optional = false)
    (name : c ≠ ':' ∧ c ≠ '*') : c ∈ (parseSegment part).text := by
  unfold parseSegment at plain ⊢
  split
  next name_ =>
    split
    next last =>
      have optional : (if name_.getLast? = some '?' then Segment.optionalParam name_.dropLast
        else .param name_).toTokens.optional = false := plain
      rw [if_pos last] at optional
      cases optional
    next => exact (List.mem_cons.mp mem).resolve_left name.1
  next => exact (List.mem_cons.mp mem).resolve_left name.2
  next => exact mem

/-- No segment has a backslash, and so no literal has a quote. -/
theorem not_mem_of_accepted (escaped : Escaped content) (read : parseLiteral (quoted content) = .ok segments)
    (valid : ∀ segment ∈ segments, isValid segment.text = true)
    (plain : ∀ segment ∈ segments, segment.toTokens.optional = false) : '"' ∉ content := by
  intro quote
  obtain ⟨before, after, split⟩ := List.append_of_mem quote
  have backslash : '\\' ∈ content := split ▸ List.mem_append_left _ (List.mem_of_getLast? (escaped _ _ split))
  have there : '\\' ∈ trim (quoted content) :=
    mem_trim (List.mem_append_left _ (List.mem_cons_of_mem _ backslash)) rfl
  obtain ⟨-, is⟩ := parseLiteral_ok read
  have some_ : ¬(trim (quoted content) = [] ∨ trim (quoted content) = ['*']) := by
    rintro (is | is)
    · rw [is] at there
      cases there
    · rw [is] at there
      exact absurd there (by decide)
  have whole : '\\' ∈ ((trim (quoted content)).splitOn '/').flatMap ('/' :: ·) :=
    (@flatMap_splitOn _ _ '/' (trim (quoted content))).symm ▸ List.mem_cons_of_mem _ there
  obtain ⟨part, mem, within⟩ := List.mem_flatMap.mp whole
  have within : '\\' ∈ part := (List.mem_cons.mp within).resolve_left (by decide)
  have segment : parseSegment part ∈ segments := by
    rw [is, parseStr, if_neg some_]
    exact List.mem_append_left _ (List.mem_map_of_mem mem)
  have text := text_parseSegment within (plain _ segment) (by decide)
  have isValid_ := valid _ segment
  rw [isValid, Bool.or_eq_true, beq_iff_eq, List.all_eq_true] at isValid_
  rcases isValid_ with slash | all
  · rw [slash] at text
    exact absurd text (by decide)
  · exact absurd (all _ text) (by decide)

/-- A trimmed text has no slash at its ends. -/
theorem ends_trimmed {text : List Char} (some_ : (text.dropWhile (· = '/')).rdropWhile (· = '/') ≠ []) :
    ((text.dropWhile (· = '/')).rdropWhile (· = '/')).head? ≠ some '/' ∧
      ((text.dropWhile (· = '/')).rdropWhile (· = '/')).getLast? ≠ some '/' := by
  constructor
  · intro slash
    have start : (text.dropWhile (· = '/')).rdropWhile (· = '/') <+: text.dropWhile (· = '/') :=
      List.rdropWhile_prefix _ _
    have first := List.head_dropWhile_not (fun c => decide (c = '/')) (List.IsPrefix.ne_nil start some_)
    rw [List.head?_eq_some_head some_, Option.some.injEq, start.head some_] at slash
    exact of_decide_eq_false first slash
  · intro slash
    rw [List.getLast?_eq_some_getLast some_, Option.some.injEq] at slash
    exact List.rdropWhile_last_not _ _ some_ (decide_eq_true slash)

theorem trailing_iff : ['/', '"'] <:+ quoted content ∧ quoted content ≠ ['"', '/', '"'] ↔ Trailing content := by
  have single : quoted content = ['"', '/', '"'] ↔ content = ['/'] :=
    ⟨fun same => List.append_left_injective ['"'] (List.cons.inj same).2, fun same => same ▸ rfl⟩
  rw [Trailing, ne_eq, single]
  refine and_congr_left fun _ => ?_
  rcases List.eq_nil_or_concat' content with rfl | ⟨front, last, rfl⟩
  · decide
  · rw [List.getLast?_concat, Option.some.injEq, quoted]
    constructor
    · rintro ⟨before, whole⟩
      have whole : (before ++ ['/']) ++ ['"'] = ('"' :: front ++ [last]) ++ ['"'] := by
        simpa using whole
      have inner := List.append_left_injective ['"'] whole
      exact (List.append_singleton_inj.mp inner).2.symm
    · rintro rfl
      exact ⟨'"' :: front, by simp⟩

/-- What the macro splits are the parts of the literal. -/
theorem parts_eq (read : parseLiteral (quoted content) = .ok segments) (plain : '"' ∉ content)
    (named : parts content ≠ [['*']]) :
    segments = (parts content).map parseSegment ++ if Trailing content then [.static ['/']] else [] := by
  obtain ⟨apart, is⟩ := parseLiteral_ok read
  have same : filled '/' (trim (quoted content)) = parts content := by
    rw [trim_quoted plain, filled_rdropWhile, filled_dropWhile, parts]
  rw [is]
  congr 1
  · unfold parseStr
    split
    next short =>
      rcases short with empty | star
      · rw [empty] at same
        exact (congrArg (List.map parseSegment) same : _)
      · rw [star] at same
        exact absurd same.symm named
    next long =>
      have some_ := not_or.mp long |>.1
      refine congrArg (List.map parseSegment) ?_
      rw [← same]
      refine (List.filter_eq_self.mpr fun piece mem => ?_).symm
      rw [decide_eq_true_iff]
      intro empty
      rcases nil_mem_splitOn (empty ▸ mem) with none | first | last | twice
      · exact some_ none
      · rw [trim_quoted plain] at first some_
        exact (ends_trimmed some_).1 first
      · rw [trim_quoted plain] at last some_
        exact (ends_trimmed some_).2 last
      · rw [trim_quoted plain] at twice
        have within : ['/', '/'] <:+: content :=
          (twice.trans (List.rdropWhile_prefix _ _).isInfix).trans (List.dropWhile_suffix _).isInfix
        exact apart (within.trans ⟨['"'], ['"'], rfl⟩)
  · exact if_congr trailing_iff rfl rfl

/-! ## Matching -/

variable {path rest slash done : Path} {params p : Params}

theorem stripPrefix_append {before after : Path} : stripPrefix before (before ++ after) = some after := by
  induction before with
  | nil => rfl
  | cons c before ih => rw [List.cons_append, stripPrefix, if_pos rfl, ih]

theorem staticTest_part (some_ : part ≠ []) (apart : '/' ∉ part) (boundary : atBoundary rest = true) :
    staticTest part ('/' :: part ++ rest) = some ⟨rest, [], '/' :: part⟩ := by
  have notSlash : part ≠ ['/'] := fun is => apart (is ▸ List.mem_singleton.mpr rfl)
  have name : staticName part = part := by
    unfold staticName
    split
    next => exact absurd List.mem_cons_self apart
    next => rfl
  have stripped : stripPrefix ['/'] ('/' :: part ++ rest) = some (part ++ rest) :=
    @stripPrefix_append ['/'] (part ++ rest)
  rw [staticTest, if_neg some_, if_neg notSlash, stripped, Option.bind_eq_bind, Option.bind_some, name, if_neg apart,
    stripPrefix_append, Option.bind_some, if_pos boundary, take_sub]

/-- A value ends where a path is at the end of a segment. -/
theorem splitValue_append {value : List Char} (apart : '/' ∉ value) (boundary : atBoundary rest = true) :
    splitValue (value ++ rest) = some (value, rest) := by
  have all : ∀ c ∈ value, decide (c ≠ '/') = true := fun c mem =>
    decide_eq_true fun same => apart (same ▸ mem)
  rw [splitValue_eq, List.takeWhile_append_of_pos all, List.dropWhile_append_of_pos all]
  cases rest with
  | nil => rw [List.takeWhile_nil, List.dropWhile_nil, List.append_nil]
  | cons c rest =>
    have slash : c = '/' := beq_iff_eq.mp boundary
    rw [slash, List.takeWhile_cons_of_neg (by decide), List.dropWhile_cons_of_neg (by decide), List.append_nil]

theorem paramTest_value {name : String} {value : List Char} (some_ : value ≠ []) (apart : '/' ∉ value)
    (boundary : atBoundary rest = true) :
    paramTest name ('/' :: value ++ rest) = some ⟨rest, [(name, value)], '/' :: value⟩ := by
  have stripped : stripPrefix ['/'] ('/' :: value ++ rest) = some (value ++ rest) :=
    @stripPrefix_append ['/'] (value ++ rest)
  have first : firstSegment ('/' :: value ++ rest) = some ('/' :: value, value, rest) := by
    rw [firstSegment, stripped, Option.bind_eq_bind, Option.bind_some, splitValue_append apart boundary,
      Option.bind_eq_bind, Option.bind_some]
    dsimp only
    rw [take_sub]
  rw [paramTest, first, Option.bind_eq_bind, Option.bind_some]
  exact if_neg some_

theorem wildcardTest_rest {name : String} :
    wildcardTest name ('/' :: rest) = some ⟨[], [(name, rest)], '/' :: rest⟩ := by
  rw [wildcardTest, if_neg (List.cons_ne_nil _ _)]
  rfl

/-! ## The tuple -/

theorem record_part {piece : Path} :
    MatchedPrefix.record ⟨done ++ (piece ++ rest), utf8Len done⟩ (piece ++ rest) piece rest = some ⟨done ++ (piece ++ rest), utf8Len (done ++ piece)⟩ := by
  rw [MatchedPrefix.record]
  dsimp only
  simp only [utf8Len_append]
  rw [if_neg (by omega)]
  congr 2
  omega

/-- One turn of the loop: a field takes a piece of the path. -/
theorem turn_piece {field : Field} {fields : List Field} {first : Bool} {nth : ℕ} {piece : Path}
    (plain : field.optional = false) (tested : field.test (piece ++ rest) = some ⟨rest, params, piece⟩) :
    turn 0 (field :: fields) first nth ⟨done ++ (piece ++ rest), utf8Len done⟩ (piece ++ rest) p =
      turn 0 fields false nth ⟨(done ++ piece) ++ rest, utf8Len (done ++ piece)⟩ rest (p ++ params) := by
  rw [turn, plain]
  simp only [Bool.false_eq_true, if_false, true_or, if_true, tested, record_part]
  rw [List.append_assoc]

theorem parseSegment_static (plain : part.head? ≠ some ':' ∧ part.head? ≠ some '*') :
    parseSegment part = .static part := by
  unfold parseSegment
  split
  next => exact absurd rfl plain.1
  next => exact absurd rfl plain.2
  next => rfl

theorem parseSegment_param {name : List Char} (plain : (parseSegment (':' :: name)).toTokens.optional = false) :
    parseSegment (':' :: name) = .param name := by
  have is : parseSegment (':' :: name) =
      if name.getLast? = some '?' then .optionalParam name.dropLast else .param name := rfl
  rw [is] at plain ⊢
  split at plain
  next => cases plain
  next last => exact if_neg last

theorem Filled.boundary {parts : List (List Char)} (filled : Filled parts path params)
    (ends : atBoundary slash = true) : atBoundary (path ++ slash) = true := by
  cases filled with
  | nil => exact ends
  | static => rfl
  | param => rfl
  | wildcard => rfl

/-- The fields of a literal's parts. -/
def fieldsOf (parts : List (List Char)) (more : List Segments) : List Field :=
  Segments.fields (parts.map (fun part => (parseSegment part).toTokens) ++ more)

/-- The loop goes through the parts: each takes what was put in its place. -/
theorem turn_filled {parts : List (List Char)} {more : List Segments} {first : Bool} {nth : ℕ} {result : Turn}
    (filled : Filled parts path params) (named : ∀ part ∈ parts, part ≠ [] ∧ '/' ∉ part)
    (plain : ∀ part ∈ parts, (parseSegment part).toTokens.optional = false) (ends : atBoundary slash = true)
    (wild : slash = [] ∨ ∀ part ∈ parts, part.head? ≠ some '*')
    (finish : ∀ first, turn 0 (Segments.fields more) first nth
      ⟨(done ++ path) ++ slash, utf8Len (done ++ path)⟩ slash (p ++ params) = result) :
    turn 0 (fieldsOf parts more) first nth ⟨done ++ (path ++ slash), utf8Len done⟩ (path ++ slash) p =
      result := by
  induction filled generalizing first done p with
  | nil =>
    rw [List.append_nil, List.append_nil] at finish
    exact finish first
  | @static part parts path params head filled ih =>
    obtain ⟨named, rest⟩ := List.forall_mem_cons.mp named
    obtain ⟨-, plain⟩ := List.forall_mem_cons.mp plain
    rw [List.append_assoc, fieldsOf, List.map_cons, List.cons_append, Segments.fields, ← fieldsOf,
      parseSegment_static head,
      turn_piece rfl (staticTest_part named.1 named.2 (filled.boundary ends)), List.append_nil]
    refine ih rest plain (wild.imp_right fun wild => (List.forall_mem_cons.mp wild).2) fun first => ?_
    rw [List.append_assoc done]
    exact finish first
  | @param name value parts path params some_ apart filled ih =>
    obtain ⟨-, rest⟩ := List.forall_mem_cons.mp named
    obtain ⟨notOptional, plain⟩ := List.forall_mem_cons.mp plain
    rw [List.append_assoc, fieldsOf, List.map_cons, List.cons_append, Segments.fields, ← fieldsOf,
      parseSegment_param notOptional, turn_piece rfl (paramTest_value some_ apart (filled.boundary ends))]
    refine ih rest plain (wild.imp_right fun wild => (List.forall_mem_cons.mp wild).2) fun first => ?_
    rw [List.append_assoc done, List.append_assoc p]
    exact finish first
  | @wildcard name rest =>
    have none : slash = [] := wild.resolve_right fun wild => wild _ List.mem_cons_self rfl
    subst none
    have tested : wildcardTest (String.ofList name) ('/' :: rest ++ []) =
        some ⟨[], [(String.ofList name, rest)], '/' :: rest⟩ := by
      rw [List.append_nil]
      exact wildcardTest_rest
    rw [fieldsOf, List.map_singleton, List.singleton_append, Segments.fields]
    exact (turn_piece rfl tested).trans (finish false)

/-! ## The tuple of a literal -/

theorem named_of_mem_parts (mem : part ∈ parts content) : part ≠ [] ∧ '/' ∉ part := by
  obtain ⟨mem, some_⟩ := List.mem_filter.mp mem
  exact ⟨of_decide_eq_true some_, not_mem_of_mem_splitOn mem⟩

theorem Ends.boundary (ends : Ends content slash) : atBoundary slash = true := by
  unfold Ends at ends
  split at ends
  next => exact ends ▸ rfl
  next =>
    rcases ends with rfl | ⟨rfl, -⟩
    · rfl
    · rfl

theorem wildcard?_parseSegment (wild : part.head? = some '*') : (parseSegment part).wildcard? ≠ none := by
  obtain ⟨name, rfl⟩ := List.head?_eq_some_iff.mp wild
  exact Option.some_ne_none name

/-- A wildcard comes last, so that no slash is to follow it. -/
theorem Ends.wild (ends : Ends content slash) (last : ∀ segment ∈ ((parts content).map parseSegment ++
    if Trailing content then [Segment.static ['/']] else []).dropLast, segment.wildcard? = none) :
    slash = [] ∨ ∀ part ∈ parts content, part.head? ≠ some '*' := by
  unfold Ends at ends
  split at ends
  next trailing =>
    rw [if_pos trailing, List.dropLast_concat] at last
    exact .inr fun part mem wild => wildcard?_parseSegment wild (last _ (List.mem_map_of_mem mem))
  next => exact ends.imp_right And.right

/-- What follows the parts, and what the loop makes of the end of the path there. -/
theorem turn_end {first : Bool} {nth : ℕ} (ends : Ends content slash) :
    turn 0 (Segments.fields (if Trailing content then [.staticSegment ['/']] else [])) first nth
        ⟨done ++ slash, utf8Len done⟩ slash p =
      .matched ⟨slash, p, if Trailing content then done ++ slash else done⟩ := by
  unfold Ends at ends
  split at ends
  next trailing =>
    subst ends
    have recorded : MatchedPrefix.record ⟨done ++ ['/'], utf8Len done⟩ ['/'] ['/'] ['/'] =
        some ⟨done ++ ['/'], utf8Len (done ++ ['/'])⟩ := by
      rw [MatchedPrefix.record]
      dsimp only
      simp only [utf8Len_append]
      rw [if_neg (by omega)]
      congr 2
      omega
    have tested : staticTest ['/'] ['/'] = some ⟨['/'], [], ['/']⟩ := rfl
    have cut := splitAtChecked_append (done ++ ['/']) []
    rw [List.append_nil] at cut
    rw [if_pos trailing, if_pos trailing, Segments.fields, Segments.fields, turn, Segments.test]
    simp only [Segments.optional, Bool.false_eq_true, if_false, true_or, if_true, tested, recorded, List.append_nil,
      turn, MatchedPrefix.matched, cut, Option.map_some]
  next trailing =>
    rw [if_neg trailing, if_neg trailing, Segments.fields, turn, MatchedPrefix.matched, splitAtChecked_append]
    rfl

theorem fields_plain {fields : List Segments} (plain : ∀ field ∈ fields, field.optional = false) :
    (Segments.fields fields).countP (·.optional) = 0 := by
  induction fields with
  | nil => rfl
  | cons field fields ih =>
    obtain ⟨first, rest⟩ := List.forall_mem_cons.mp plain
    rw [Segments.fields, List.countP_cons_of_neg (by simpa using first), ih rest]

/-- The tuple has a segment for each part and for a trailing slash, and matches the path of the parts, with the
values that were filled in. -/
structure Matches (content : List Char) (tuple : Segments) : Prop where
  count : ∃ fields, tuple = .tuple fields ∧
    fields.length = (parts content).length + if Trailing content then 1 else 0
  values : ∀ path params slash, Filled (parts content) path params → Ends content slash →
    tuple.test (path ++ slash) = some ⟨slash, params, if Trailing content then path ++ slash else path⟩

theorem Escaped.of_not_mem (plain : '"' ∉ content) : Escaped content := fun _ _ split =>
  absurd (split ▸ List.mem_append_right _ List.mem_cons_self) plain

end Halyard.Router.PathMacro
