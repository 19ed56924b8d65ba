import Halyard.Splitting

/-!
# Normalized paths

`normalize_path` resolves the `.` and `..` segments of a path from the last segment to the first, with a count
of the segments that are still to be dropped.

* `kept_reverse`: what that keeps, by what removing them from left to right leaves.
* `normalizePath_eq`: the segments of the result.
* `normalizes_iff`: the two give the same unless the path ends in `.` after a segment that stays, or climbs above
  the root and goes on with an empty segment.
-/

namespace Halyard.Router

open Splitting

def dot : List Char := ['.']

def dotdot : List Char := ['.', '.']

/-! ## The source's function -/

/-- What the filter keeps, in the order it is asked: `del` segments are still to be dropped. -/
def kept : ℕ → List (List Char) → List (List Char)
  | _, [] => []
  | del, v :: it =>
    if v = dotdot then kept (del + 1) it
    else if v = dot then kept del it
    else match del with
      | 0 => v :: kept 0 it
      | fewer + 1 => kept fewer it

/-- The part of a path before its query and its fragment. -/
def pathPart (path : List Char) : List Char :=
  path.takeWhile fun c => c ≠ '?' ∧ c ≠ '#'

/-- `p.insert(0, '/')` and `p.insert_str(0, v)`. -/
def insertSegment (p v : List Char) : List Char :=
  v ++ '/' :: p

/-- The leading slash is put back where it is missing. -/
def withSlash (path : List Char) : List Char :=
  if path.head? = some '/' then path else '/' :: path

/-- What is folded is empty or ends with a slash, so that `truncate` takes one character. -/
def normalizePath (path : List Char) : List Char :=
  if path = [] then []
  else
    let it := ((pathPart path).splitOn '/').reverse
    let init := if it.head? = some dotdot then ['/'] else []
    withSlash ((kept 0 it).foldl insertSegment init).dropLast

/-! ## From left to right -/

/-- The segments that stay, the last one first, and how many `..` had none before them to drop. -/
structure Walk where
  stack : List (List Char)
  climbed : ℕ

def Walk.visit (walk : Walk) (segment : List Char) : Walk :=
  if segment = dot then walk
  else if segment = dotdot then ⟨walk.stack.tail, if walk.stack = [] then walk.climbed + 1 else walk.climbed⟩
  else ⟨segment :: walk.stack, walk.climbed⟩

def walk (segments : List (List Char)) : Walk :=
  segments.foldl Walk.visit ⟨[], 0⟩

/-- The segments of a rooted path: what comes after each slash. -/
def segments (path : List Char) : List (List Char) :=
  ((pathPart path).splitOn '/').tail

/-- A final `.` or `..` leaves an empty segment, which is a trailing slash. -/
def removeDots (segments : List (List Char)) : List (List Char) :=
  (walk segments).stack.reverse ++
    if segments.getLast? = some dot ∨ segments.getLast? = some dotdot then [[]] else []

/-- The text of a path with these segments. -/
def rooted (segments : List (List Char)) : List Char :=
  segments.flatMap ('/' :: ·)

/-! ## What the filter keeps -/

variable {segs rest : List (List Char)} {segment path : List Char} {del : ℕ}

theorem walk_concat : walk (segs ++ [segment]) = (walk segs).visit segment :=
  List.foldl_concat _ _ _ _

theorem kept_up (up : segment = dotdot) : kept del (segment :: rest) = kept (del + 1) rest := by
  cases del <;> exact if_pos up

theorem kept_here (here : segment = dot) : kept del (segment :: rest) = kept del rest := by
  subst here
  cases del <;> rfl

theorem kept_stays (notUp : segment ≠ dotdot) (notHere : segment ≠ dot) :
    kept 0 (segment :: rest) = segment :: kept 0 rest := by
  rw [kept, if_neg notUp, if_neg notHere]

theorem kept_drops (notUp : segment ≠ dotdot) (notHere : segment ≠ dot) :
    kept (del + 1) (segment :: rest) = kept del rest := by
  rw [kept, if_neg notUp, if_neg notHere]

theorem kept_reverse : kept del (segs.reverse ++ rest) = (walk segs).stack.drop del ++
    kept ((walk segs).climbed + (del - (walk segs).stack.length)) rest := by
  induction segs using List.reverseRecOn generalizing del with
  | nil =>
    change kept del rest = List.drop del [] ++ kept (0 + (del - 0)) rest
    rw [List.drop_nil, List.nil_append, Nat.zero_add, Nat.sub_zero]
  | append_singleton segs segment ih =>
    rw [List.reverse_concat, List.cons_append, walk_concat, Walk.visit]
    by_cases up : segment = dotdot
    · have apart : segment ≠ dot := up ▸ by decide
      rw [kept_up up, if_neg apart, if_pos up, ih]
      cases stack : (walk segs).stack with
      | nil => simp [Nat.add_assoc, Nat.add_comm 1]
      | cons top stack => simp [Nat.add_sub_add_right]
    · by_cases here : segment = dot
      · rw [kept_here here, if_pos here, ih]
      · rw [if_neg here, if_neg up]
        cases del with
        | zero => simp [kept_stays up here, ih]
        | succ fewer => simp [kept_drops up here, ih, Nat.add_sub_add_right]

/-- The segments that stay are ones of the path, and not dots. -/
theorem mem_walk (mem : segment ∈ (walk segs).stack) : segment ∈ segs ∧ segment ≠ dot ∧ segment ≠ dotdot := by
  induction segs using List.reverseRecOn with
  | nil => exact absurd mem List.not_mem_nil
  | append_singleton segs last ih =>
    rw [walk_concat, Walk.visit] at mem
    split at mem
    next => exact (ih mem).imp_left (List.mem_append_left _)
    next notHere =>
      split at mem
      next => exact (ih (List.mem_of_mem_tail mem)).imp_left (List.mem_append_left _)
      next notUp =>
        rcases List.mem_cons.mp mem with rfl | mem
        · exact ⟨List.mem_append_right _ (List.mem_singleton.mpr rfl), notHere, notUp⟩
        · exact (ih mem).imp_left (List.mem_append_left _)

theorem walk_dotless (dotless : ∀ segment ∈ segs, segment ≠ dot ∧ segment ≠ dotdot) :
    walk segs = ⟨segs.reverse, 0⟩ := by
  induction segs using List.reverseRecOn with
  | nil => rfl
  | append_singleton segs last ih =>
    obtain ⟨before, final⟩ := List.forall_mem_append.mp dotless
    obtain ⟨notHere, notUp⟩ := final last (List.mem_singleton.mpr rfl)
    rw [walk_concat, ih before, Walk.visit, if_neg notHere, if_neg notUp, List.reverse_concat]

/-! ## The result -/

/-- The segments that are joined: a final `..` leaves a trailing slash. -/
def joined (segs : List (List Char)) : List (List Char) :=
  (walk segs).stack.reverse ++ if segs.getLast? = some dotdot then [[]] else []

def orRoot (segs : List (List Char)) : List (List Char) :=
  if segs = [] then [[]] else segs

/-- The segments of the result.  Above the root, a first segment that is empty is taken for the leading slash. -/
def normalSegments (segs : List (List Char)) : List (List Char) :=
  orRoot (if 0 < (walk segs).climbed ∧ (joined segs).head? = some [] then (joined segs).tail else joined segs)

theorem foldl_insertSegment {init : List Char} : segs.reverse.foldl insertSegment init =
    segs.flatMap (· ++ ['/']) ++ init := by
  rw [List.foldl_reverse]
  induction segs with
  | nil => rfl
  | cons segment segs ih =>
    rw [List.foldr_cons, ih, insertSegment, List.flatMap_cons, List.append_assoc, List.append_assoc,
      List.singleton_append]

theorem cons_flatMap : '/' :: segs.flatMap (· ++ ['/']) = rooted segs ++ ['/'] := by
  induction segs with
  | nil => rfl
  | cons segment segs ih =>
    rw [List.flatMap_cons, rooted, List.flatMap_cons, List.append_assoc, List.singleton_append, ih, ← rooted,
      List.append_assoc, List.cons_append]

theorem dropLast_of_cons {text whole : List Char} (same : '/' :: text = whole ++ ['/']) :
    text.dropLast = whole.tail := by
  cases whole with
  | nil =>
    have none : text = [] := (List.cons.inj same).2
    rw [none]
    rfl
  | cons first whole =>
    have split : text = whole ++ ['/'] := (List.cons.inj same).2
    rw [split, List.dropLast_concat, List.tail_cons]

/-- What is folded, without its last slash. -/
theorem dropLast_flatMap {up : Prop} [Decidable up] :
    (segs.flatMap (· ++ ['/']) ++ if up then ['/'] else []).dropLast =
      (rooted (segs ++ if up then [[]] else [])).tail := by
  by_cases isUp : up
  · rw [if_pos isUp, if_pos isUp, List.dropLast_concat, rooted, List.flatMap_append, ← rooted]
    change _ = (rooted segs ++ ['/']).tail
    rw [← cons_flatMap, List.tail_cons]
  · rw [if_neg isUp, if_neg isUp, List.append_nil, List.append_nil]
    exact dropLast_of_cons cons_flatMap

theorem withSlash_rooted : withSlash (rooted segs) = rooted (orRoot segs) := by
  cases segs with
  | nil => rfl
  | cons segment segs => rfl

theorem withSlash_tail (apart : ∀ segment ∈ segs, '/' ∉ segment) :
    withSlash (rooted segs).tail = rooted (orRoot (if segs.head? = some [] then segs.tail else segs)) := by
  cases segs with
  | nil => rfl
  | cons segment segs =>
    cases segment with
    | nil => exact withSlash_rooted
    | cons c text =>
      have other : c ≠ '/' := fun same => apart _ List.mem_cons_self (same ▸ List.mem_cons_self)
      rw [if_neg (by simp)]
      exact if_neg fun slash => other (Option.some.inj slash)

/-- A segment before the empty one of a trailing slash. -/
theorem mem_trailing {trailing : Prop} [Decidable trailing]
    (mem : segment ∈ rest.reverse ++ if trailing then [[]] else []) : segment = [] ∨ segment ∈ rest := by
  rcases List.mem_append.mp mem with stays | last
  · exact .inr (List.mem_reverse.mp stays)
  · split at last
    next => exact .inl (List.mem_singleton.mp last)
    next => exact absurd last List.not_mem_nil

theorem joined_apart (apart : ∀ segment ∈ segs, '/' ∉ segment) : ∀ segment ∈ joined segs, '/' ∉ segment := by
  intro segment mem
  rcases mem_trailing mem with rfl | stays
  · exact List.not_mem_nil
  · exact apart segment (mem_walk stays).1

theorem normalizePath_eq (some_ : path ≠ []) (split : (pathPart path).splitOn '/' = [] :: segs)
    (notEmpty : segs ≠ []) : normalizePath path = rooted (normalSegments segs) := by
  have apart : ∀ segment ∈ segs, '/' ∉ segment := fun segment mem =>
    not_mem_of_mem_splitOn (split ▸ List.mem_cons_of_mem _ mem)
  have last : ([] :: segs).reverse.head? = segs.getLast? := by
    rw [List.head?_reverse, List.getLast?_cons_of_ne_nil notEmpty]
  have keeps : kept 0 ([] :: segs).reverse = ((if (walk segs).climbed = 0 then [[]] else []) ++
      (walk segs).stack.reverse).reverse := by
    rw [List.reverse_cons, kept_reverse, List.drop_zero, Nat.zero_sub, Nat.add_zero, List.reverse_append,
      List.reverse_reverse]
    refine congrArg _ ?_
    cases (walk segs).climbed with
    | zero => rfl
    | succ => rfl
  rw [normalizePath, if_neg some_]
  dsimp only
  rw [split, last, keeps, foldl_insertSegment, dropLast_flatMap, List.append_assoc, ← joined, normalSegments]
  by_cases climbs : 0 < (walk segs).climbed
  · rw [if_neg climbs.ne', List.nil_append, withSlash_tail (joined_apart apart)]
    simp only [climbs, true_and]
  · rw [if_pos (Nat.eq_zero_of_not_pos climbs), if_neg fun both => climbs both.1]
    exact withSlash_rooted

theorem pathPart_cons : pathPart ('/' :: path) = '/' :: pathPart path := by
  rw [pathPart, List.takeWhile_cons_of_pos (by decide)]
  rfl

theorem normalizePath_rooted : normalizePath ('/' :: path) = rooted (normalSegments (segments ('/' :: path))) := by
  refine normalizePath_eq (List.cons_ne_nil _ _) ?_ ?_
  · rw [segments, pathPart_cons, splitOn_cons_self, List.tail_cons]
  · rw [segments, pathPart_cons, splitOn_cons_self, List.tail_cons]
    exact List.splitOn_ne_nil _ _

/-! ## The two compared -/

/-- The path ends in `.`, and a segment before it stays. -/
def EndsInDot (segs : List (List Char)) : Prop :=
  segs.getLast? = some dot ∧ (walk segs).stack ≠ []

/-- The path climbs above the root, and what it goes on with begins with an empty segment and has another one. -/
def ClimbsToEmpty (segs : List (List Char)) : Prop :=
  0 < (walk segs).climbed ∧ (removeDots segs).head? = some [] ∧ 1 < (removeDots segs).length

theorem orRoot_of_ne (some_ : segs ≠ []) : orRoot segs = segs :=
  if_neg some_

theorem orRoot_ne_nil : orRoot segs ≠ [] := by
  unfold orRoot
  split
  next => exact List.cons_ne_nil _ _
  next some_ => exact some_

theorem mem_orRoot (mem : segment ∈ orRoot segs) : segment = [] ∨ segment ∈ segs := by
  unfold orRoot at mem
  split at mem
  next => exact .inl (List.mem_singleton.mp mem)
  next => exact .inr mem

theorem length_orRoot : (orRoot segs).length ≤ max 1 segs.length := by
  unfold orRoot
  split
  next => exact le_max_left _ _
  next => exact le_max_right _ _

/-- A final `.` adds no segment. -/
theorem normalSegments_dot (final : segs.getLast? = some dot) :
    normalSegments segs = removeDots segs ↔ (walk segs).stack = [] := by
  have join : joined segs = (walk segs).stack.reverse := by
    rw [joined, if_neg, List.append_nil]
    rw [final]
    decide
  have removed : removeDots segs = (walk segs).stack.reverse ++ [[]] := by
    rw [removeDots, if_pos (.inl final)]
  constructor
  · intro same
    by_contra some_
    have length := congrArg List.length same
    have atMost : (normalSegments segs).length ≤ max 1 (walk segs).stack.length := by
      refine length_orRoot.trans (max_le_max_left _ ?_)
      rw [join]
      split
      next => rw [List.length_tail, List.length_reverse]; exact Nat.sub_le _ _
      next => rw [List.length_reverse]
    rw [removed, List.length_append, List.length_reverse, List.length_singleton] at length
    have pos := List.length_pos_iff.mpr some_
    omega
  · intro none
    rw [normalSegments, join, removed, none]
    simp [orRoot]

theorem joined_ne_nil (some_ : segs ≠ []) (other : segs.getLast? ≠ some dot) : joined segs ≠ [] := by
  obtain ⟨front, last, rfl⟩ := (List.eq_nil_or_concat' segs).resolve_left some_
  rw [List.getLast?_concat] at other
  rw [joined, List.getLast?_concat, walk_concat, Walk.visit, if_neg fun same => other (congrArg some same)]
  by_cases up : last = dotdot
  · rw [up]
    simp
  · rw [if_neg up]
    simp

/-- Elsewhere the two differ where a first empty segment is taken for the leading slash. -/
theorem normalSegments_other (some_ : segs ≠ []) (other : segs.getLast? ≠ some dot) :
    normalSegments segs = removeDots segs ↔ ¬ClimbsToEmpty segs := by
  have join : joined segs = removeDots segs := by
    rw [joined, removeDots]
    simp only [other, false_or]
  have notEmpty := joined_ne_nil some_ other
  rw [normalSegments, join]
  rw [join] at notEmpty
  unfold ClimbsToEmpty
  by_cases above : 0 < (walk segs).climbed ∧ (removeDots segs).head? = some []
  · rw [if_pos above, and_iff_right above.1, and_iff_right above.2]
    obtain ⟨first, rest, stays⟩ := List.exists_cons_of_ne_nil notEmpty
    have empty : first = [] := by
      have head := above.2
      rw [stays, List.head?_cons] at head
      exact Option.some.inj head
    rw [stays, empty, List.tail_cons]
    cases rest with
    | nil => simp [orRoot]
    | cons next rest =>
      rw [orRoot_of_ne (List.cons_ne_nil _ _)]
      refine iff_of_false (fun same => ?_) (by simp)
      exact absurd (congrArg List.length same) (Nat.ne_of_lt (Nat.lt_succ_self _))
  · rw [if_neg above, orRoot_of_ne notEmpty]
    exact iff_of_true rfl fun both => above ⟨both.1, both.2.1⟩

theorem rooted_inj {other : List (List Char)} (apart : ∀ segment ∈ segs, '/' ∉ segment)
    (apart' : ∀ segment ∈ other, '/' ∉ segment) : rooted segs = rooted other ↔ segs = other := by
  refine ⟨fun same => ?_, fun same => same ▸ rfl⟩
  have split := congrArg (List.splitOn '/') same
  rw [rooted, rooted, splitOn_flatMap apart, splitOn_flatMap apart'] at split
  exact (List.cons.inj split).2

/-! ## The segments of the result -/

/-- The segments of the result are segments of the path, without dots, or empty. -/
theorem mem_normalSegments (mem : segment ∈ normalSegments segs) :
    segment = [] ∨ segment ∈ segs ∧ segment ≠ dot ∧ segment ≠ dotdot := by
  rcases mem_orRoot mem with empty | mem
  · exact .inl empty
  · split at mem
    next => exact (mem_trailing (List.mem_of_mem_tail mem)).imp_right mem_walk
    next => exact (mem_trailing mem).imp_right mem_walk

theorem removeDots_apart (apart : ∀ segment ∈ segs, '/' ∉ segment) :
    ∀ segment ∈ removeDots segs, '/' ∉ segment := by
  intro segment mem
  rcases mem_trailing mem with rfl | stays
  · exact List.not_mem_nil
  · exact apart segment (mem_walk stays).1

theorem segments_apart : ∀ segment ∈ segments path, '/' ∉ segment := fun _ mem =>
  not_mem_of_mem_splitOn (List.mem_of_mem_tail mem)

theorem normalSegments_apart (apart : ∀ segment ∈ segs, '/' ∉ segment) :
    ∀ segment ∈ normalSegments segs, '/' ∉ segment := by
  intro segment mem
  rcases mem_normalSegments mem with rfl | ⟨there, -⟩
  · exact List.not_mem_nil
  · exact apart segment there

/-- The result has no query and no fragment. -/
theorem pathPart_rooted (within : ∀ segment ∈ segs, ∀ c ∈ segment, c ∈ pathPart path) :
    pathPart (rooted segs) = rooted segs := by
  refine List.takeWhile_eq_self_iff.mpr fun c mem => ?_
  obtain ⟨segment, there, mem⟩ := List.mem_flatMap.mp mem
  rcases List.mem_cons.mp mem with rfl | mem
  · decide
  · have kept := within segment there c mem
    unfold pathPart at kept
    have holds := List.mem_takeWhile_imp kept
    exact holds

theorem normalSegments_dotless (dotless : ∀ segment ∈ segs, segment ≠ dot ∧ segment ≠ dotdot) (some_ : segs ≠ []) :
    normalSegments segs = segs := by
  have last : segs.getLast? ≠ some dotdot := fun last => (dotless dotdot (List.mem_of_getLast? last)).2 rfl
  have join : joined segs = segs := by
    rw [joined, walk_dotless dotless, if_neg last, List.append_nil, List.reverse_reverse]
  rw [normalSegments, join, walk_dotless dotless, if_neg fun both => Nat.lt_irrefl 0 both.1, orRoot_of_ne some_]

/-! ## The claim -/

/-- The dot segments are removed as from left to right; what is left begins with a slash, has no dot segment, and
stays as it is. -/
structure Normalizes (path : List Char) : Prop where
  removes : normalizePath path = rooted (removeDots (segments path))
  slash : (normalizePath path).head? = some '/'
  dotless : ∀ segment ∈ (normalizePath path).splitOn '/', segment ≠ dot ∧ segment ≠ dotdot
  again : normalizePath (normalizePath path) = normalizePath path

theorem normalSegments_iff (some_ : segs ≠ []) :
    normalSegments segs = removeDots segs ↔ ¬EndsInDot segs ∧ ¬ClimbsToEmpty segs := by
  by_cases final : segs.getLast? = some dot
  · rw [normalSegments_dot final, EndsInDot, and_iff_right final, not_not]
    refine ⟨fun none => ⟨none, fun climbs => ?_⟩, And.left⟩
    have length := climbs.2.2
    rw [removeDots, none, if_pos (.inl final)] at length
    exact absurd length (Nat.lt_irrefl 1)
  · rw [normalSegments_other some_ final, EndsInDot]
    exact (and_iff_right fun both => final both.1).symm

theorem normalizes_iff (isRooted : path.head? = some '/') :
    Normalizes path ↔ ¬EndsInDot (segments path) ∧ ¬ClimbsToEmpty (segments path) := by
  obtain ⟨path, rfl⟩ := List.head?_eq_some_iff.mp isRooted
  have some_ : segments ('/' :: path) ≠ [] := by
    rw [segments, pathPart_cons, splitOn_cons_self, List.tail_cons]
    exact List.splitOn_ne_nil _ _
  have apart := normalSegments_apart (@segments_apart ('/' :: path))
  have split : (rooted (normalSegments (segments ('/' :: path)))).splitOn '/' = [] :: _ := splitOn_flatMap apart
  have dotless : ∀ segment ∈ normalSegments (segments ('/' :: path)), segment ≠ dot ∧ segment ≠ dotdot := by
    intro segment mem
    rcases mem_normalSegments mem with rfl | ⟨-, dotless⟩
    · decide
    · exact dotless
  have some_' : normalSegments (segments ('/' :: path)) ≠ [] := orRoot_ne_nil
  have within : pathPart (rooted (normalSegments (segments ('/' :: path)))) =
      rooted (normalSegments (segments ('/' :: path))) := by
    refine @pathPart_rooted _ ('/' :: path) fun segment mem c there => ?_
    rcases mem_normalSegments mem with rfl | ⟨mem, -⟩
    · exact absurd there List.not_mem_nil
    · exact mem_of_mem_piece (List.mem_of_mem_tail mem) there
  rw [← normalSegments_iff some_, ← rooted_inj apart (removeDots_apart segments_apart), ← normalizePath_rooted]
  refine ⟨Normalizes.removes, fun removes => ⟨removes, ?_, ?_, ?_⟩⟩
  · rw [normalizePath_rooted]
    obtain ⟨first, rest, is⟩ := List.exists_cons_of_ne_nil some_'
    rw [is]
    rfl
  · rw [normalizePath_rooted, split]
    exact List.forall_mem_cons.mpr ⟨by decide, dotless⟩
  · rw [normalizePath_rooted]
    refine (normalizePath_eq ?_ (within.symm ▸ split) some_').trans ?_
    · obtain ⟨first, rest, is⟩ := List.exists_cons_of_ne_nil some_'
      rw [is]
      exact List.cons_ne_nil _ _
    · rw [normalSegments_dotless dotless some_']

/-- `/a/../b/..?c` -/
theorem normalizes_up : Normalizes ['/', 'a', '/', '.', '.', '/', 'b', '/', '.', '.', '?', 'c'] :=
  (normalizes_iff rfl).mpr ⟨fun ends => absurd ends.1 (by decide), fun climbs => absurd climbs.1 (by decide)⟩

/-- `/a/.` loses its trailing slash. -/
theorem normalizes_not : ¬∀ path : List Char, path.head? = some '/' → Normalizes path := fun always =>
  absurd (always ['/', 'a', '/', '.'] rfl).removes (by decide)

end Halyard.Router
