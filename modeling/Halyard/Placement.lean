import Mathlib

/-!
# Placing the elements of a duplicate-free list by anchors

A list is rearranged one element at a time: each element is taken out and put back immediately
before an *anchor*, or at the end.  `move` is that operation, and `Shows` relates the list being
rearranged to a row of *slots*, some filled and some free: the filled slots, in slot order, are a
sublist of the list.

* `Shows.move`: filling a free slot, and moving its element before the next filled slot (to the
  end if there is none), keeps the relation.  So slots may be filled in any order.
* `Shows.eq`: once every element of the list fills a slot, the list is the filled slots in order.
* `sublist_of_pairwise_idxOf`: a set of elements that never cross each other is a sublist, which
  is how an element that is left where it stands enters its slot.
-/

namespace Halyard.Placement

variable {α : Type*} [DecidableEq α]

/-- `x` immediately before the first `b`, or last if there is no `b`. -/
def insertBefore (x b : α) : List α → List α
  | [] => [x]
  | a :: rest => if a = b then x :: a :: rest else a :: insertBefore x b rest

/-- Take `x` out (if it is there) and put it immediately before `before`, or last. -/
def move (x : α) (before : Option α) (list : List α) : List α :=
  match before with
  | some b => insertBefore x b (list.erase x)
  | none => list.erase x ++ [x]

/-! ## What a move changes -/

theorem insertBefore_of_split {x b : α} {left right : List α} (absent : b ∉ left) :
    insertBefore x b (left ++ b :: right) = left ++ x :: b :: right := by
  induction left with
  | nil => simp [insertBefore]
  | cons a left ih =>
      have head : a ≠ b := fun same => absent (same ▸ List.mem_cons_self)
      have tail : b ∉ left := fun member => absent (List.mem_cons_of_mem _ member)
      simp [insertBefore, head, ih tail]

theorem insertBefore_perm (x b : α) (list : List α) : (insertBefore x b list).Perm (x :: list) := by
  induction list with
  | nil => exact .refl _
  | cons a rest ih =>
      unfold insertBefore
      split
      · exact .refl _
      · exact (ih.cons a).trans (.swap x a rest)

theorem move_perm (x : α) (before : Option α) (list : List α) :
    (move x before list).Perm (x :: list.erase x) := by
  cases before with
  | some b => exact insertBefore_perm x b _
  | none => exact List.perm_append_singleton x _

theorem nodup_move {x : α} {before : Option α} {list : List α} (nodup : list.Nodup) :
    (move x before list).Nodup := by
  rw [(move_perm x before list).nodup_iff, List.nodup_cons]
  exact ⟨nodup.not_mem_erase, nodup.erase x⟩

theorem mem_move {x y : α} {before : Option α} {list : List α} :
    y ∈ move x before list ↔ y = x ∨ y ∈ list := by
  rw [(move_perm x before list).mem_iff, List.mem_cons]
  by_cases same : y = x
  · simp [same]
  · simp [same, List.mem_erase_of_ne same]

/-! ## Sublists of a duplicate-free list -/

omit [DecidableEq α] in
/-- A sublist of a duplicate-free list splits at each of its elements as the list does. -/
theorem sublist_split {b : α} {A B L R : List α} (nodup : (L ++ b :: R).Nodup)
    (sub : (A ++ b :: B).Sublist (L ++ b :: R)) : A.Sublist L ∧ B.Sublist R := by
  have bL : b ∉ L := fun member =>
    (List.nodup_append.1 nodup).2.2 b member b List.mem_cons_self rfl
  have bR : b ∉ R := (List.nodup_cons.1 (List.nodup_append.1 nodup).2.1).1
  obtain ⟨left, right, split, subLeft, subRight⟩ := List.sublist_append_iff.1 sub
  rcases List.append_eq_append_iff.1 split with ⟨C, rfl, tail⟩ | ⟨C, rfl, tail⟩
  · -- the cut falls at or after `b`, so `b` would lie in `L` unless nothing follows the cut
    cases C with
    | nil =>
        simp only [List.nil_append] at tail
        subst tail
        exact ⟨by simpa using subLeft, (List.cons_sublist_cons.1 subRight)⟩
    | cons c C =>
        simp only [List.cons_append, List.cons.injEq] at tail
        obtain ⟨rfl, -⟩ := tail
        exact (bL (subLeft.subset (by simp))).elim
  · -- the cut falls before `b`: everything between the cut and `b` must skip to `b`'s right
    cases C with
    | nil =>
        simp only [List.nil_append] at tail
        subst tail
        exact ⟨by simpa using subLeft, (List.cons_sublist_cons.1 subRight)⟩
    | cons c C =>
        subst tail
        have inR : (C ++ b :: B).Sublist R := by
          rcases List.sublist_cons_iff.1 subRight with inside | ⟨rest, same, inside⟩
          · exact (List.sublist_cons_self c _).trans inside
          · simp only [List.cons_append, List.cons.injEq] at same
            rw [same.2]
            exact inside
        exact (bR (inR.subset (by simp))).elim

/-- Elements met in the order of `list` form a sublist of it. -/
theorem sublist_of_pairwise_idxOf {list xs : List α} (member : ∀ x ∈ xs, x ∈ list)
    (ordered : xs.Pairwise fun a b => list.idxOf a < list.idxOf b) : xs.Sublist list := by
  induction list generalizing xs with
  | nil =>
      cases xs with
      | nil => exact .slnil
      | cons x xs => exact absurd (member x List.mem_cons_self) List.not_mem_nil
  | cons a list ih =>
      cases xs with
      | nil => exact List.nil_sublist _
      | cons x xs =>
          obtain ⟨first, rest⟩ := List.pairwise_cons.1 ordered
          -- every later element stands after `x`, hence is not the head
          have later : ∀ y ∈ xs, y ≠ a := by
            rintro y inside rfl
            have := first y inside
            simp at this
          have restMember : ∀ y ∈ xs, y ∈ list := fun y inside =>
            (List.mem_cons.1 (member y (List.mem_cons_of_mem _ inside))).resolve_left
              (later y inside)
          have shift : ∀ y, y ≠ a → (a :: list).idxOf y = list.idxOf y + 1 := fun y ne =>
            List.idxOf_cons_ne list (Ne.symm ne)
          have restOrdered : xs.Pairwise fun y z => list.idxOf y < list.idxOf z := by
            refine rest.imp_of_mem fun {y z} inY inZ less => ?_
            rw [shift y (later y inY), shift z (later z inZ)] at less
            omega
          by_cases head : x = a
          · subst head
            exact (ih restMember restOrdered).cons_cons x
          · refine (@ih (x :: xs) ?_ (List.pairwise_cons.2 ⟨?_, restOrdered⟩)).cons a
            · intro y inside
              rcases List.mem_cons.1 inside with rfl | inside
              · exact (List.mem_cons.1 (member y List.mem_cons_self)).resolve_left head
              · exact restMember y inside
            · intro y inside
              have less := first y inside
              rw [shift x head, shift y (later y inside)] at less
              omega

theorem sublist_move {A B list : List α} {x : α} (nodup : list.Nodup)
    (sub : (A ++ B).Sublist list) (fresh : x ∉ A ++ B) :
    (A ++ x :: B).Sublist (move x B.head? list) := by
  have kept : (A ++ B).Sublist (list.erase x) := by
    simpa [List.erase_of_not_mem fresh] using sub.erase x
  cases B with
  | nil => simpa [move] using kept.append (List.Sublist.refl [x])
  | cons b B =>
      obtain ⟨left, right, split⟩ := List.append_of_mem (kept.subset (by simp : b ∈ A ++ b :: B))
      have nodup' : (left ++ b :: right).Nodup := split ▸ nodup.erase x
      obtain ⟨subLeft, subRight⟩ := sublist_split nodup' (split ▸ kept)
      have absent : b ∉ left := fun member =>
        (List.nodup_append.1 nodup').2.2 b member b List.mem_cons_self rfl
      simp only [List.head?_cons, move, split, insertBefore_of_split absent]
      exact subLeft.append ((subRight.cons_cons b).cons_cons x)

/-- Of two sublists of a duplicate-free list, the one with fewer elements is a sublist of the
other. -/
theorem sublist_of_subset {xs ys list : List α} (nodup : list.Nodup) (left : xs.Sublist list)
    (right : ys.Sublist list) (subset : ∀ x ∈ xs, x ∈ ys) : xs.Sublist ys := by
  have selected : list.filter (· ∈ ys) = ys := by
    have inside : ys.Sublist (list.filter (· ∈ ys)) := by
      have := right.filter (· ∈ ys)
      rwa [List.filter_eq_self.2 (by simp)] at this
    refine (inside.eq_of_length_le (List.Subperm.length_le ?_)).symm
    exact (nodup.filter _).subperm fun x member => by simpa using (List.mem_filter.1 member).2
  have := left.filter (· ∈ ys)
  rwa [List.filter_eq_self.2 (by simpa using subset), selected] at this

/-! ## Slots -/

/-- The filled slots, in slot order, stand in that order in `list`. -/
def Shows (list : List α) (slots : List (Option α)) : Prop :=
  slots.reduceOption.Sublist list

omit [DecidableEq α] in
theorem reduceOption_split {slots : List (Option α)} {index : ℕ} {slot : Option α}
    (here : slots[index]? = some slot) :
    slots.reduceOption =
      (slots.take index).reduceOption ++ ([slot].reduceOption ++
        (slots.drop (index + 1)).reduceOption) := by
  obtain ⟨bound, value⟩ := List.getElem?_eq_some_iff.1 here
  conv_lhs => rw [← List.take_append_drop index slots, List.drop_eq_getElem_cons bound, value]
  rw [List.reduceOption_append]
  cases slot <;> rfl

omit [DecidableEq α] in
theorem reduceOption_fill {slots : List (Option α)} {index : ℕ} {x : α}
    (bound : index < slots.length) :
    (slots.set index (some x)).reduceOption =
      (slots.take index).reduceOption ++ x :: (slots.drop (index + 1)).reduceOption := by
  have here : (slots.set index (some x))[index]? = some (some x) := by
    simp [List.getElem?_set_self bound]
  rw [reduceOption_split here]
  simp [List.take_set_of_le, List.drop_set_of_lt]

/-- Fill a free slot and move its element before the next filled slot. -/
theorem Shows.move {list : List α} {slots : List (Option α)} {index : ℕ} {x : α}
    (shows : Shows list slots) (nodup : list.Nodup) (free : slots[index]? = some none)
    (fresh : x ∉ slots.reduceOption) :
    Shows (Placement.move x (slots.drop (index + 1)).reduceOption.head? list)
      (slots.set index (some x)) := by
  have bound := (List.getElem?_eq_some_iff.1 free).1
  have split := reduceOption_split free
  simp only [List.reduceOption_cons_of_none, List.reduceOption_nil, List.nil_append] at split
  unfold Shows at shows ⊢
  rw [split] at shows fresh
  rw [reduceOption_fill bound]
  exact sublist_move nodup shows fresh

omit [DecidableEq α] in
/-- When every element of the list fills a slot, the list is the filled slots in order. -/
theorem Shows.eq {list : List α} {slots : List (Option α)} (shows : Shows list slots)
    (nodup : list.Nodup) (covered : ∀ x ∈ list, x ∈ slots.reduceOption) :
    list = slots.reduceOption :=
  (List.Sublist.eq_of_length_le shows
    (List.Subperm.length_le (nodup.subperm covered))).symm

end Halyard.Placement
