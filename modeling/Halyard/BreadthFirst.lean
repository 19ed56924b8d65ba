import Mathlib.Data.List.Basic
import Mathlib.Tactic.Common

/-!
# Breadth-first order

A forest is gone through level by level.  A loop that takes the first tree of a queue and puts its
children at the end goes through it in the same order (`queue_breadthFirst`).
-/

namespace Halyard

inductive Tree (α : Type*)
  | node (value : α) (children : List (Tree α))

namespace Tree

variable {α β : Type*}

def value : Tree α → α
  | node value _ => value

def children : Tree α → List (Tree α)
  | node _ children => children

mutual

def count : Tree α → ℕ
  | node _ children => countAll children + 1

def countAll : List (Tree α) → ℕ
  | [] => 0
  | tree :: forest => tree.count + countAll forest

end

/-- The values of a forest's first levels. -/
def levels : ℕ → List (Tree α) → List α
  | 0, _ => []
  | n + 1, forest => forest.map value ++ levels n (forest.flatMap children)

def breadthFirst (forest : List (Tree α)) : List α :=
  levels (countAll forest) forest

theorem count_eq (tree : Tree α) : tree.count = countAll tree.children + 1 := by
  cases tree with
  | node value children => rw [count, Tree.children]

theorem countAll_append (forest others : List (Tree α)) :
    countAll (forest ++ others) = countAll forest + countAll others := by
  induction forest with
  | nil => simp [countAll]
  | cons tree forest ih => simp only [List.cons_append, countAll, ih, Nat.add_assoc]

theorem countAll_children (forest : List (Tree α)) :
    countAll (forest.flatMap children) + forest.length = countAll forest := by
  induction forest with
  | nil => rfl
  | cons tree forest ih =>
    rw [List.flatMap_cons, countAll_append, countAll, count_eq, List.length_cons]
    omega

/-- The next turn of a queue has less to come. -/
theorem countAll_next (tree : Tree α) (queue : List (Tree α)) :
    countAll (queue ++ tree.children) < countAll (tree :: queue) := by
  rw [countAll_append, countAll, count_eq]
  omega

section Queue

variable {search : List (Tree α) → Option β} {f : α → Option β}
  (nil : search [] = none)
  (cons : ∀ tree queue, search (tree :: queue) = (f tree.value).or (search (queue ++ tree.children)))

include cons in
/-- A level of the queue, with the next one behind it as far as it is there. -/
theorem queue_level (level behind : List (Tree α)) :
    search (level ++ behind) =
      ((level.map value).findSome? f).or (search (behind ++ level.flatMap children)) := by
  induction level generalizing behind with
  | nil => simp
  | cons tree level ih =>
    rw [List.cons_append, cons, List.append_assoc, ih, List.map_cons, List.findSome?_cons,
      List.flatMap_cons, List.append_assoc]
    cases f tree.value with
    | none => rfl
    | some found => rfl

include nil cons in
theorem queue_levels {n : ℕ} {forest : List (Tree α)} (enough : countAll forest ≤ n) :
    search forest = (levels n forest).findSome? f := by
  induction n generalizing forest with
  | zero =>
    have empty : forest = [] := by
      have := countAll_children forest
      exact List.length_eq_zero_iff.mp (by omega)
    rw [empty, nil, levels, List.findSome?_nil]
  | succ n ih =>
    have whole := queue_level cons forest []
    rw [List.append_nil, List.nil_append] at whole
    have below : countAll (forest.flatMap children) ≤ n := by
      have less := countAll_children forest
      cases forest with
      | nil => exact Nat.zero_le n
      | cons tree forest =>
        rw [List.length_cons] at less
        omega
    rw [whole, levels, List.findSome?_append, ih below]

include nil cons in
/-- A queue is searched in breadth-first order. -/
theorem queue_breadthFirst (forest : List (Tree α)) :
    search forest = (breadthFirst forest).findSome? f :=
  queue_levels nil cons (Nat.le_refl _)

end Queue

end Tree

end Halyard
