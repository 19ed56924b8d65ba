import Halyard.Splitting

/-!
# Active links

`is_active_for` compares the segments of a link's target with those of the location.

* `activeFor_segments`: from the second segment on, what the comparison says.
* `isActiveFor_iff`: it holds for the target and what is below it, but for the root also where the location
  starts with two slashes.
-/

namespace Halyard.Router

open Splitting

/-! ## The source's function -/

/-- The comparison of the segments, of which the first has the number `c`: `location` is taken first, so that
the target keeps what it has more. -/
def activeFrom (strict : Bool) (c : ℕ) (location href : List (List Char)) : Bool :=
  ((location.zip href).zipIdx c).all (fun part => part.1.1 == part.1.2 || part.1.2.isEmpty && decide (1 < part.2)) &&
    match href.drop location.length with
    | [] => true
    | [] :: _ => !strict
    | _ => false

def isActiveFor (href location : List Char) (strictTrailingSlash : Bool) : Bool :=
  activeFrom strictTrailingSlash 0 (location.splitOn '/') (href.splitOn '/')

/-! ## What it is for -/

/-- The text of a target without its trailing slash. -/
def withoutSlash (href : List Char) : List Char :=
  if href.getLast? = some '/' then href.dropLast else href

/-- The location is the target or below it.  The root is active at the root only, and a target with a trailing
slash is active without it unless slashes are strict. -/
def Active (href location : List Char) (strictTrailingSlash : Bool) : Prop :=
  if href = ['/'] then location = ['/']
  else if href.getLast? = some '/' ∧ location = withoutSlash href then strictTrailingSlash = false
  else location = withoutSlash href ∨ withoutSlash href ++ ['/'] <+: location

/-! ## The segments -/

variable {strict : Bool} {c : ℕ} {l x : List Char} {location href inner : List (List Char)}

theorem activeFrom_cons : activeFrom strict c (l :: location) (x :: href) =
    ((l == x || x.isEmpty && decide (1 < c)) && activeFrom strict (c + 1) location href) := by
  simp only [activeFrom, List.zip_cons_cons, List.zipIdx_cons, List.all_cons, List.length_cons, List.drop_succ_cons,
    Bool.and_assoc]

theorem activeFrom_nil_right : activeFrom strict c location [] = true := by
  rw [activeFrom, List.zip_nil_right, List.drop_nil]
  rfl

theorem activeFrom_nil_left (some_ : x ≠ []) : activeFrom strict c [] (x :: href) = false := by
  cases x with
  | nil => exact absurd rfl some_
  | cons => rfl

theorem activeFrom_cons_of_ne (some_ : x ≠ []) : activeFrom strict c (l :: location) (x :: href) = true ↔
    x = l ∧ activeFrom strict (c + 1) location href = true := by
  rw [activeFrom_cons, Bool.and_eq_true, List.isEmpty_eq_false_iff.mpr some_, Bool.false_and, Bool.or_false, beq_iff_eq,
    eq_comm]

theorem activeFrom_iff (some_ : ∀ segment ∈ inner, segment ≠ []) :
    activeFrom strict c location inner = true ↔ inner <+: location := by
  induction inner generalizing c location with
  | nil => exact iff_of_true activeFrom_nil_right List.nil_prefix
  | cons x inner ih =>
    obtain ⟨first, rest⟩ := List.forall_mem_cons.mp some_
    cases location with
    | nil =>
      rw [activeFrom_nil_left first]
      exact iff_of_false Bool.false_ne_true fun all => List.cons_ne_nil _ _ (List.prefix_nil.mp all)
    | cons l location => rw [activeFrom_cons_of_ne first, ih rest, List.cons_prefix_cons]

/-- After a trailing slash: it stands for any segment but the first two, and for none unless it is strict. -/
theorem activeFrom_slash_iff (some_ : ∀ segment ∈ inner, segment ≠ []) (late : 1 < c + inner.length) :
    activeFrom strict c location (inner ++ [[]]) = true ↔
      inner <+: location ∧ (location = inner → strict = false) := by
  induction inner generalizing c location with
  | nil =>
    cases location with
    | nil => simp [activeFrom]
    | cons l location =>
      have late : 1 < c := late
      rw [List.nil_append, activeFrom_cons, activeFrom_nil_right, decide_eq_true late]
      simp
  | cons x inner ih =>
    obtain ⟨first, rest⟩ := List.forall_mem_cons.mp some_
    cases location with
    | nil =>
      rw [List.cons_append, activeFrom_nil_left first]
      exact iff_of_false Bool.false_ne_true fun all => List.cons_ne_nil _ _ (List.prefix_nil.mp all.1)
    | cons l location =>
      rw [List.length_cons, Nat.add_left_comm, Nat.add_comm] at late
      rw [List.cons_append, activeFrom_cons_of_ne first, ih rest (by omega), List.cons_prefix_cons, and_assoc,
        List.cons.injEq, and_imp]
      refine and_congr_right fun same => and_congr_right fun _ => ?_
      exact ⟨fun allowed _ => allowed, fun allowed => allowed same.symm⟩

/-! ## The texts -/

theorem isActiveFor_rooted {href location : List Char} :
    isActiveFor ('/' :: href) ('/' :: location) strict =
      activeFrom strict 1 (location.splitOn '/') (href.splitOn '/') := by
  rw [isActiveFor, splitOn_cons_self, splitOn_cons_self, activeFrom_cons, beq_self_eq_true, Bool.true_or, Bool.true_and]

theorem splitOn_prefix_rooted {href location : List Char} :
    href.splitOn '/' <+: location.splitOn '/' ↔
      '/' :: location = '/' :: href ∨ '/' :: href ++ ['/'] <+: '/' :: location := by
  rw [← splitOn_prefix_iff, splitOn_cons_self, splitOn_cons_self, List.cons_prefix_cons, and_iff_right rfl]

/-- The root is active also where the location starts with two slashes. -/
theorem isActiveFor_root {location : List Char} :
    isActiveFor ['/'] ('/' :: location) strict = true ↔
      '/' :: location = ['/'] ∨ ['/', '/'] <+: '/' :: location := by
  change _ ↔ '/' :: location = '/' :: [] ∨ '/' :: [] ++ ['/'] <+: '/' :: location
  rw [isActiveFor_rooted, ← splitOn_prefix_rooted, List.splitOn_nil]
  cases split : location.splitOn '/' with
  | nil => exact absurd split (List.splitOn_ne_nil '/' location)
  | cons l rest =>
    rw [activeFrom_cons, activeFrom_nil_right, List.cons_prefix_cons, and_iff_left List.nil_prefix]
    simp only [lt_irrefl, decide_false, Bool.and_false, Bool.or_false, Bool.and_true, beq_iff_eq]
    exact eq_comm

theorem isActiveFor_slash {base location : List Char} (some_ : ∀ segment ∈ base.splitOn '/', segment ≠ []) :
    isActiveFor ('/' :: base ++ ['/']) ('/' :: location) strict = true ↔
      Active ('/' :: base ++ ['/']) ('/' :: location) strict := by
  have late : 1 < 1 + (base.splitOn '/').length :=
    Nat.lt_add_of_pos_right (List.length_pos_iff.mpr (List.splitOn_ne_nil '/' base))
  have split : (base ++ ['/']).splitOn '/' = base.splitOn '/' ++ [[]] := List.splitOn_append_cons_self base []
  have notRoot : '/' :: base ++ ['/'] ≠ ['/'] := by simp
  have last : ('/' :: base ++ ['/']).getLast? = some '/' := List.getLast?_concat
  have without : withoutSlash ('/' :: base ++ ['/']) = '/' :: base := by
    rw [withoutSlash, if_pos last, List.dropLast_concat]
  rw [List.cons_append, isActiveFor_rooted, split, activeFrom_slash_iff some_ late, splitOn_prefix_rooted,
    ← List.cons_append, Active, if_neg notRoot, without]
  have same : location.splitOn '/' = base.splitOn '/' ↔ '/' :: location = '/' :: base := by
    rw [List.cons.injEq, and_iff_right rfl]
    exact ⟨fun same => splitOn_injective same, fun same => same ▸ rfl⟩
  rw [same]
  by_cases here : '/' :: location = '/' :: base
  · rw [if_pos ⟨last, here⟩, and_iff_right (.inl here)]
    exact ⟨fun allowed => allowed here, fun allowed _ => allowed⟩
  · rw [if_neg fun both => here both.2]
    exact and_iff_left fun is => absurd is here

theorem isActiveFor_plain {href location : List Char} (some_ : ∀ segment ∈ href.splitOn '/', segment ≠ [])
    (last : ('/' :: href).getLast? ≠ some '/') :
    isActiveFor ('/' :: href) ('/' :: location) strict = true ↔ Active ('/' :: href) ('/' :: location) strict := by
  have notRoot : '/' :: href ≠ ['/'] := fun root => last (root ▸ rfl)
  rw [isActiveFor_rooted, activeFrom_iff some_, splitOn_prefix_rooted, Active, if_neg notRoot,
    if_neg fun both => last both.1, withoutSlash, if_neg last]

/-- The segments of the target between its first slash and its last one are not empty. -/
def NoEmptyInner (href : List Char) : Prop :=
  ∀ segment ∈ (href.splitOn '/').tail.dropLast, segment ≠ []

instance {href : List Char} : Decidable (NoEmptyInner href) :=
  inferInstanceAs (Decidable (∀ segment ∈ (href.splitOn '/').tail.dropLast, segment ≠ []))

theorem isActiveFor_iff {href location : List Char} (rooted : href.head? = some '/')
    (inner : NoEmptyInner href) (located : location.head? = some '/') (strictTrailingSlash : Bool) :
    (isActiveFor href location strictTrailingSlash = true ↔ Active href location strictTrailingSlash) ↔
      ¬(href = ['/'] ∧ ['/', '/'] <+: location) := by
  obtain ⟨href, rfl⟩ := List.head?_eq_some_iff.mp rooted
  obtain ⟨location, rfl⟩ := List.head?_eq_some_iff.mp located
  unfold NoEmptyInner at inner
  rw [splitOn_cons_self, List.tail_cons] at inner
  rcases List.eq_nil_or_concat' href with rfl | ⟨base, last, rfl⟩
  · rw [isActiveFor_root, Active, if_pos rfl]
    have apart : ['/', '/'] <+: '/' :: location → '/' :: location ≠ ['/'] := fun two same =>
      absurd (same ▸ two : ['/', '/'] <+: ['/']) (by decide)
    constructor
    · exact fun same both => apart both.2 (same.mp (.inr both.2))
    · exact fun only => or_iff_left fun two => only ⟨rfl, two⟩
  · refine iff_of_true ?_ fun both => absurd both.1 (by simp)
    by_cases slash : last = '/'
    · subst slash
      rw [List.splitOn_append_cons_self base [], List.splitOn_nil, List.dropLast_concat] at inner
      exact isActiveFor_slash inner
    · have plain : ('/' :: (base ++ [last])).getLast? ≠ some '/' := by
        rw [← List.cons_append, List.getLast?_concat]
        exact fun same => slash (Option.some.inj same)
      refine isActiveFor_plain (fun segment mem empty => ?_) plain
      -- it is not the last one, which is empty after a slash only
      rcases List.eq_nil_or_concat' ((base ++ [last]).splitOn '/') with none | ⟨front, final, split⟩
      · exact List.splitOn_ne_nil _ _ none
      · rw [split, List.dropLast_concat] at inner
        rw [split] at mem
        rcases List.mem_append.mp mem with before | final_
        · exact inner segment before empty
        · rw [← List.mem_singleton.mp final_, empty] at split
          exact plain (getLast?_of_splitOn split)

theorem isActiveFor_item : isActiveFor ['/', 'a', '/'] ['/', 'a'] false = true ↔
    Active ['/', 'a', '/'] ['/', 'a'] false :=
  (isActiveFor_iff rfl (by decide) rfl false).mpr (by decide)

/-- The root is active at `//a`. -/
theorem isActiveFor_slashes : ¬∀ href location strictTrailingSlash, href.head? = some '/' → NoEmptyInner href →
    location.head? = some '/' →
    (isActiveFor href location strictTrailingSlash = true ↔ Active href location strictTrailingSlash) := by
  intro always
  have active := (always ['/'] ['/', '/', 'a'] false rfl (by decide) rfl).mp (by decide)
  rw [Active, if_pos rfl] at active
  exact absurd active (by decide)

end Halyard.Router
