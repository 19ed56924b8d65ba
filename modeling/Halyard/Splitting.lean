import Mathlib

/-!
# Lists split at a separator

* `splitOn_flatMap`: each piece written after a separator.
* `splitOn_prefix_iff`: the pieces of one list come first in another one exactly where the other one is the
  first, or goes on after it with a separator.
-/

namespace Halyard.Splitting

variable {α : Type*} [DecidableEq α] {sep : α} {xs ys : List α} {pieces : List (List α)}

theorem splitOn_cons_self : (sep :: xs).splitOn sep = [] :: xs.splitOn sep :=
  List.splitOn_append_cons_self [] xs

theorem splitOn_injective : Function.Injective fun xs : List α => xs.splitOn sep := by
  intro xs ys same
  calc
    xs = [sep].intercalate (xs.splitOn sep) := (List.intercalate_splitOn sep).symm
    _ = [sep].intercalate (ys.splitOn sep) := congrArg _ same
    _ = ys := List.intercalate_splitOn sep

/-- No piece has the separator in it. -/
theorem not_mem_of_mem_splitOn {piece : List α} (mem : piece ∈ xs.splitOn sep) : sep ∉ piece := by
  induction xs generalizing piece with
  | nil =>
    rw [List.splitOn_nil, List.mem_singleton] at mem
    exact mem ▸ List.not_mem_nil
  | cons x xs ih =>
    rw [List.splitOn_cons_eq_if_modifyHead] at mem
    split at mem
    next =>
      rcases List.mem_cons.mp mem with rfl | mem
      · exact List.not_mem_nil
      · exact ih mem
    next other =>
      cases split : xs.splitOn sep with
      | nil => exact absurd split (List.splitOn_ne_nil sep xs)
      | cons first rest =>
        rw [split, List.modifyHead_cons] at mem
        rcases List.mem_cons.mp mem with rfl | mem
        · have apart := ih (split ▸ List.mem_cons_self)
          exact fun mem => (List.mem_cons.mp mem).elim (fun same => other (beq_iff_eq.mpr same.symm)) apart
        · exact ih (split ▸ List.mem_cons_of_mem _ mem)

theorem splitOn_append_piece {piece : List α} (apart : sep ∉ piece) :
    (piece ++ sep :: xs).splitOn sep = piece :: xs.splitOn sep :=
  List.splitOn_append_cons_self_of_not_mem apart xs

theorem splitOn_flatMap (apart : ∀ piece ∈ pieces, sep ∉ piece) :
    (pieces.flatMap (sep :: ·)).splitOn sep = [] :: pieces := by
  induction pieces with
  | nil => exact List.splitOn_nil sep
  | cons piece pieces ih =>
    obtain ⟨first, rest⟩ := List.forall_mem_cons.mp apart
    rw [List.flatMap_cons, List.cons_append, splitOn_cons_self]
    refine congrArg _ ?_
    cases pieces with
    | nil =>
      rw [List.flatMap_nil, List.append_nil]
      exact List.splitOn_eq_singleton first
    | cons next pieces =>
      have split := ih rest
      rw [List.flatMap_cons, List.cons_append, splitOn_cons_self] at split
      rw [List.flatMap_cons, List.cons_append, splitOn_append_piece first]
      exact congrArg _ (List.cons.inj split).2

/-- A list that starts with the separator is the pieces of what follows, each after a separator. -/
theorem flatMap_splitOn : (xs.splitOn sep).flatMap (sep :: ·) = sep :: xs := by
  refine @splitOn_injective _ _ sep _ _ ?_
  change List.splitOn sep _ = List.splitOn sep _
  rw [splitOn_flatMap fun piece mem => not_mem_of_mem_splitOn mem, splitOn_cons_self]

theorem mem_of_mem_piece {piece : List α} {x : α} (mem : piece ∈ xs.splitOn sep) (within : x ∈ piece) :
    x ∈ xs := by
  have there : x ∈ sep :: xs :=
    @flatMap_splitOn _ _ sep xs ▸ List.mem_flatMap.mpr ⟨piece, mem, List.mem_cons_of_mem _ within⟩
  exact (List.mem_cons.mp there).resolve_left fun same => not_mem_of_mem_splitOn mem (same ▸ within)

/-- The last piece is empty after a separator only. -/
theorem getLast?_of_splitOn {front : List (List α)} (split : xs.splitOn sep = front ++ [[]]) :
    (sep :: xs).getLast? = some sep := by
  rw [← flatMap_splitOn, split, List.flatMap_append, List.flatMap_singleton, List.getLast?_concat]

/-- An empty piece is at an end, or between two separators. -/
theorem nil_mem_splitOn (mem : [] ∈ xs.splitOn sep) :
    xs = [] ∨ xs.head? = some sep ∨ xs.getLast? = some sep ∨ [sep, sep] <:+: xs := by
  obtain ⟨front, back, split⟩ := List.append_of_mem mem
  have whole : sep :: xs = front.flatMap (sep :: ·) ++ sep :: back.flatMap (sep :: ·) := by
    rw [← flatMap_splitOn, split, List.flatMap_append, List.flatMap_cons]
    rfl
  cases back with
  | nil =>
    have last := getLast?_of_splitOn split
    cases xs with
    | nil => exact .inl rfl
    | cons x xs => exact .inr (.inr (.inl (by rwa [List.getLast?_cons_cons] at last)))
  | cons next back =>
    cases front with
    | nil =>
      have rest : xs = sep :: (next ++ back.flatMap (sep :: ·)) := (List.cons.inj whole).2
      exact .inr (.inl (rest ▸ rfl))
    | cons first front =>
      refine .inr (.inr (.inr ⟨first ++ front.flatMap (sep :: ·), next ++ back.flatMap (sep :: ·), ?_⟩))
      rw [List.flatMap_cons, List.flatMap_cons, List.cons_append, List.cons_append] at whole
      rw [(List.cons.inj whole).2]
      simp only [List.append_assoc, List.cons_append, List.nil_append]

/-! ## The pieces that are not empty -/

/-- The pieces that are not empty. -/
def filled (sep : α) (xs : List α) : List (List α) :=
  (xs.splitOn sep).filter (· ≠ [])

theorem filled_cons : filled sep (sep :: xs) = filled sep xs := by
  rw [filled, splitOn_cons_self, List.filter_cons_of_neg (by simp), ← filled]

theorem filled_concat : filled sep (xs ++ [sep]) = filled sep xs := by
  rw [filled, List.splitOn_append_cons_self xs [], List.splitOn_nil, List.filter_append,
    List.filter_cons_of_neg (by simp), List.filter_nil, List.append_nil, ← filled]

theorem filled_dropWhile : filled sep (xs.dropWhile (· = sep)) = filled sep xs := by
  induction xs with
  | nil => rfl
  | cons x xs ih =>
    by_cases same : x = sep
    · rw [List.dropWhile_cons_of_pos (by simpa using same), ih, same, filled_cons]
    · rw [List.dropWhile_cons_of_neg (by simpa using same)]

theorem filled_rdropWhile : filled sep (xs.rdropWhile (· = sep)) = filled sep xs := by
  induction xs using List.reverseRecOn with
  | nil => rfl
  | append_singleton xs x ih =>
    by_cases same : x = sep
    · rw [List.rdropWhile_concat_pos _ _ _ (by simpa using same), ih, same, filled_concat]
    · rw [List.rdropWhile_concat_neg _ _ _ (by simpa using same)]

theorem splitOn_prefix_iff : xs.splitOn sep <+: ys.splitOn sep ↔ ys = xs ∨ xs ++ [sep] <+: ys := by
  constructor
  · rintro ⟨rest, whole⟩
    cases rest with
    | nil =>
      rw [List.append_nil] at whole
      exact .inl (splitOn_injective whole).symm
    | cons piece rest =>
      refine .inr ⟨(piece :: rest).flatMap (sep :: ·) |>.tail, ?_⟩
      have pieces : ∀ other ∈ piece :: rest, sep ∉ other := fun other mem =>
        not_mem_of_mem_splitOn (whole ▸ List.mem_append_right _ mem)
      refine @splitOn_injective _ _ sep _ _ ?_
      change List.splitOn sep _ = List.splitOn sep _
      have split := splitOn_flatMap pieces
      rw [List.flatMap_cons, List.cons_append, splitOn_cons_self] at split
      rw [List.append_assoc, List.singleton_append, List.splitOn_append_cons_self, ← whole, List.flatMap_cons,
        List.cons_append, List.tail_cons, (List.cons.inj split).2]
  · rintro (rfl | ⟨rest, rfl⟩)
    · exact List.prefix_refl _
    · rw [List.append_assoc, List.singleton_append, List.splitOn_append_cons_self]
      exact List.prefix_append _ _

end Halyard.Splitting
