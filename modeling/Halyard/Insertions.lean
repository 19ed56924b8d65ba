import Mathlib

/-!
# Texts put into a list

`weave` puts texts into a list, each before the element at its offset, and those of one offset one after
another.

* `weave_within`: a part of the list without offsets in it stays together.
* `weave_at_end`: one more text, after such a part.
* `insertAt_inj`: where a text has been put, if nothing else is made of its elements.
-/

namespace Halyard.Insertions

variable {α β : Type}

/-- A text before the element at an offset. -/
def insertAt (offset : ℕ) (new list : List α) : List α :=
  list.take offset ++ new ++ list.drop offset

theorem length_insertAt (offset : ℕ) (new list : List α) :
    (insertAt offset new list).length = list.length + new.length := by
  rw [insertAt, List.length_append, List.length_append, Nat.add_right_comm, ← List.length_append,
    List.take_append_drop]

/-- The texts for an offset. -/
def textsAt (inserts : List (ℕ × List α)) (offset : ℕ) : List α :=
  (inserts.filter fun insert => insert.1 = offset).flatMap Prod.snd

def weaveFrom (inserts : List (ℕ × List α)) : ℕ → List α → List α
  | offset, [] => textsAt inserts offset
  | offset, a :: rest => textsAt inserts offset ++ a :: weaveFrom inserts (offset + 1) rest

def weave (inserts : List (ℕ × List α)) (list : List α) : List α :=
  weaveFrom inserts 0 list

theorem insertAt_append (new before after : List α) :
    insertAt before.length new (before ++ after) = before ++ new ++ after := by
  rw [insertAt, List.take_left, List.drop_left]

theorem textsAt_cons (insert : ℕ × List α) (inserts : List (ℕ × List α)) (offset : ℕ) :
    textsAt (insert :: inserts) offset =
      (if insert.1 = offset then insert.2 else []) ++ textsAt inserts offset := by
  by_cases same : insert.1 = offset
  · simp [textsAt, same]
  · simp [textsAt, same]

/-- Nothing is put in between two offsets. -/
def Apart (inserts : List (ℕ × List α)) (first last : ℕ) : Prop :=
  ∀ insert ∈ inserts, insert.1 ≤ first ∨ last ≤ insert.1

theorem Apart.textsAt {inserts : List (ℕ × List α)} {first last offset : ℕ}
    (apart : Apart inserts first last) (after : first < offset) (before : offset < last) :
    textsAt inserts offset = [] := by
  rw [Insertions.textsAt, List.flatMap_eq_nil_iff]
  intro insert mem
  obtain ⟨there, same⟩ := List.mem_filter.mp mem
  have at_ := of_decide_eq_true same
  rcases apart insert there with low | high
  · omega
  · omega

theorem weaveFrom_append (inserts : List (ℕ × List α)) (offset : ℕ) (list : List α) (a : α)
    (rest : List α) :
    weaveFrom inserts offset (list ++ a :: rest) =
      weaveFrom inserts offset list ++ a :: weaveFrom inserts (offset + list.length + 1) rest := by
  induction list generalizing offset with
  | nil => rfl
  | cons b list ih =>
    rw [List.cons_append, weaveFrom, ih, weaveFrom, List.append_assoc, List.length_cons]
    simp only [List.cons_append, Nat.add_assoc, Nat.add_comm 1]

/-- Elements that nothing is put between. -/
theorem weaveFrom_together {inserts : List (ℕ × List α)} {first last : ℕ} (apart : Apart inserts first last)
    {offset : ℕ} (after : first < offset) {part : List α} (ends : offset + part.length = last)
    (rest : List α) :
    weaveFrom inserts offset (part ++ rest) = part ++ weaveFrom inserts last rest := by
  induction part generalizing offset with
  | nil =>
    rw [← ends]
    rfl
  | cons a part ih =>
    rw [List.length_cons] at ends
    rw [List.cons_append, weaveFrom, apart.textsAt after (by omega),
      ih (Nat.lt_succ_of_lt after) (by omega)]
    rfl

theorem weave_within {inserts : List (ℕ × List α)} {before part : List α}
    (apart : Apart inserts before.length (before.length + part.length)) (some_ : part ≠ [])
    (after : List α) :
    weave inserts (before ++ part ++ after) =
      weave inserts before ++ part ++ weaveFrom inserts (before.length + part.length) after := by
  obtain ⟨a, rest, rfl⟩ := List.exists_cons_of_ne_nil some_
  rw [weave, List.append_assoc, List.cons_append, weaveFrom_append,
    weaveFrom_together apart (by omega) (by rw [List.length_cons]; omega), List.append_assoc]
  rfl

theorem weaveFrom_cons_of_lt {inserts : List (ℕ × List α)} {insert : ℕ × List α} {offset : ℕ}
    {list : List α} (later : offset + list.length < insert.1) :
    weaveFrom (insert :: inserts) offset list = weaveFrom inserts offset list := by
  induction list generalizing offset with
  | nil => exact (textsAt_cons insert inserts offset).trans (congrArg (· ++ _) (if_neg (Nat.ne_of_gt later)))
  | cons a list ih =>
    rw [List.length_cons] at later
    rw [weaveFrom, weaveFrom, textsAt_cons, if_neg (by omega), List.nil_append, ih (by omega)]

theorem weaveFrom_cons_of_gt {inserts : List (ℕ × List α)} {insert : ℕ × List α} {offset : ℕ}
    (earlier : insert.1 < offset) (list : List α) :
    weaveFrom (insert :: inserts) offset list = weaveFrom inserts offset list := by
  induction list generalizing offset with
  | nil => exact (textsAt_cons insert inserts offset).trans (congrArg (· ++ _) (if_neg earlier.ne))
  | cons a list ih =>
    rw [weaveFrom, weaveFrom, textsAt_cons, if_neg earlier.ne, List.nil_append,
      ih (Nat.lt_succ_of_lt earlier)]

theorem weaveFrom_cons_self (inserts : List (ℕ × List α)) (insert : ℕ × List α) (list : List α) :
    weaveFrom (insert :: inserts) insert.1 list = insert.2 ++ weaveFrom inserts insert.1 list := by
  cases list with
  | nil => exact (textsAt_cons insert inserts insert.1).trans (congrArg (· ++ _) (if_pos rfl))
  | cons a list =>
    rw [weaveFrom, weaveFrom, textsAt_cons, if_pos rfl, weaveFrom_cons_of_gt (Nat.lt_succ_self _),
      List.append_assoc]

/-- One more text, after a part that nothing is put in. -/
theorem weave_at_end {inserts : List (ℕ × List α)} {before part : List α}
    (apart : Apart inserts before.length (before.length + part.length)) (some_ : part ≠ [])
    (new after : List α) :
    weave ((before.length + part.length, new) :: inserts) (before ++ part ++ after) =
      weave inserts before ++ part ++ new ++ weaveFrom inserts (before.length + part.length) after := by
  have positive := List.length_pos_of_ne_nil some_
  have also : Apart ((before.length + part.length, new) :: inserts) before.length
      (before.length + part.length) := List.forall_mem_cons.mpr ⟨Or.inr le_rfl, apart⟩
  have here := weaveFrom_cons_self inserts (before.length + part.length, new) after
  have first : weave ((before.length + part.length, new) :: inserts) before = weave inserts before :=
    weaveFrom_cons_of_lt (by rw [Nat.zero_add]; exact Nat.lt_add_of_pos_right positive)
  rw [weave_within also some_, first, here]
  simp only [List.append_assoc]

theorem weaveFrom_nil (offset : ℕ) (list : List α) : weaveFrom [] offset list = list := by
  induction list generalizing offset with
  | nil => rfl
  | cons a list ih =>
    rw [weaveFrom, ih]
    rfl

theorem weave_single (new before after : List α) :
    weave [(before.length, new)] (before ++ after) = before ++ new ++ after := by
  by_cases none : before = []
  · rw [none]
    exact (weaveFrom_cons_self [] (0, new) after).trans (congrArg (new ++ ·) (weaveFrom_nil 0 after))
  · have apart : Apart ([] : List (ℕ × List α)) 0 (0 + before.length) := List.forall_mem_nil _
    have at_ := @weave_at_end α [] [] before apart none new after
    rw [List.nil_append, List.length_nil, Nat.zero_add, weaveFrom_nil] at at_
    exact at_

theorem weave_empty (offset : ℕ) (inserts : List (ℕ × List α)) (list : List α) :
    weave ((offset, []) :: inserts) list = weave inserts list := by
  have texts : ∀ start, textsAt ((offset, []) :: inserts) start = textsAt inserts start := by
    intro start
    rw [textsAt_cons]
    exact congrArg (· ++ textsAt inserts start) (ite_self [])
  have all : ∀ start, weaveFrom ((offset, []) :: inserts) start list = weaveFrom inserts start list := by
    induction list with
    | nil => exact texts
    | cons a list ih =>
      intro start
      rw [weaveFrom, weaveFrom, texts, ih]
  exact all 0

theorem mem_textsAt {inserts : List (ℕ × List α)} {offset : ℕ} {a : α} (mem : a ∈ textsAt inserts offset) :
    ∃ insert ∈ inserts, a ∈ insert.2 := by
  obtain ⟨insert, there, mem⟩ := List.mem_flatMap.mp mem
  exact ⟨insert, List.mem_of_mem_filter there, mem⟩

theorem mem_weave {inserts : List (ℕ × List α)} {list : List α} {a : α} (mem : a ∈ weave inserts list) :
    a ∈ list ∨ ∃ insert ∈ inserts, a ∈ insert.2 := by
  have all : ∀ offset, a ∈ weaveFrom inserts offset list → a ∈ list ∨ ∃ insert ∈ inserts, a ∈ insert.2 := by
    clear mem
    induction list with
    | nil => exact fun offset mem => Or.inr (mem_textsAt mem)
    | cons b list ih =>
      intro offset mem
      rcases List.mem_append.mp mem with mem | mem
      · exact Or.inr (mem_textsAt mem)
      · rcases List.mem_cons.mp mem with rfl | mem
        · exact Or.inl List.mem_cons_self
        · exact (ih offset.succ mem).imp_left (List.mem_cons_of_mem b)
  exact all 0 mem

def mapInserts (f : α → β) (inserts : List (ℕ × List α)) : List (ℕ × List β) :=
  inserts.map fun insert => (insert.1, insert.2.map f)

theorem map_textsAt (f : α → β) (inserts : List (ℕ × List α)) (offset : ℕ) :
    (textsAt inserts offset).map f = textsAt (mapInserts f inserts) offset := by
  induction inserts with
  | nil => rfl
  | cons insert inserts ih =>
    rw [textsAt_cons, List.map_append, ih]
    have first : mapInserts f (insert :: inserts) = (insert.1, insert.2.map f) :: mapInserts f inserts := rfl
    rw [first, textsAt_cons]
    exact congrArg (· ++ _) (apply_ite (List.map f) _ _ _)

theorem map_weave (f : α → β) (inserts : List (ℕ × List α)) (list : List α) :
    (weave inserts list).map f = weave (mapInserts f inserts) (list.map f) := by
  have all : ∀ offset, (weaveFrom inserts offset list).map f =
      weaveFrom (mapInserts f inserts) offset (list.map f) := by
    induction list with
    | nil => exact map_textsAt f inserts
    | cons a list ih =>
      intro offset
      rw [weaveFrom, List.map_append, map_textsAt, List.map_cons, ih, List.map_cons, weaveFrom]
  exact all 0

def filterInserts (mark : α → Bool) (inserts : List (ℕ × List α)) : List (ℕ × List α) :=
  inserts.map fun insert => (insert.1, insert.2.filter mark)

theorem filter_textsAt (mark : α → Bool) (inserts : List (ℕ × List α)) (offset : ℕ) :
    (textsAt inserts offset).filter mark = textsAt (filterInserts mark inserts) offset := by
  induction inserts with
  | nil => rfl
  | cons insert inserts ih =>
    rw [textsAt_cons, List.filter_append, ih]
    have first : filterInserts mark (insert :: inserts) =
      (insert.1, insert.2.filter mark) :: filterInserts mark inserts := rfl
    rw [first, textsAt_cons]
    exact congrArg (· ++ _) (apply_ite (List.filter mark) _ _ _)

/-- What is left of the texts, in a list that is kept. -/
theorem filter_weave {mark : α → Bool} (inserts : List (ℕ × List α)) {list : List α}
    (unmarked : ∀ a ∈ list, mark a = true) :
    (weave inserts list).filter mark = weave (filterInserts mark inserts) list := by
  have all : ∀ offset, (weaveFrom inserts offset list).filter mark =
      weaveFrom (filterInserts mark inserts) offset list := by
    induction list with
    | nil => exact filter_textsAt mark inserts
    | cons a list ih =>
      obtain ⟨first, later⟩ := List.forall_mem_cons.mp unmarked
      intro offset
      rw [weaveFrom, List.filter_append, filter_textsAt, List.filter_cons_of_pos first, ih later, weaveFrom]
  exact all 0

/-! ## Where a text has been put -/

theorem takeWhile_insertAt {mark : α → Bool} {new list : List α} (some_ : new ≠ [])
    (marked : ∀ a ∈ new, mark a = false) (unmarked : ∀ a ∈ list, mark a = true) (offset : ℕ) :
    (insertAt offset new list).takeWhile mark = list.take offset := by
  obtain ⟨a, rest, rfl⟩ := List.exists_cons_of_ne_nil some_
  have stop : ¬mark a = true := by
    rw [marked a List.mem_cons_self]
    exact Bool.false_ne_true
  rw [insertAt, List.append_assoc, List.takeWhile_append_of_pos, List.cons_append,
    List.takeWhile_cons_of_neg stop, List.append_nil]
  exact fun a mem => unmarked a (List.mem_of_mem_take mem)

theorem insertAt_inj {mark : α → Bool} {new list : List α} (some_ : new ≠ [])
    (marked : ∀ a ∈ new, mark a = false) (unmarked : ∀ a ∈ list, mark a = true) {offset other : ℕ}
    (within : offset ≤ list.length) (within' : other ≤ list.length)
    (same : insertAt offset new list = insertAt other new list) : offset = other := by
  have parts := congrArg (List.takeWhile mark) same
  rw [takeWhile_insertAt some_ marked unmarked, takeWhile_insertAt some_ marked unmarked] at parts
  have lengths := congrArg List.length parts
  rwa [List.length_take_of_le within, List.length_take_of_le within'] at lengths

theorem filter_insertAt {mark : α → Bool} {new : List α} (marked : ∀ a ∈ new, mark a = false)
    (offset : ℕ) (list : List α) : (insertAt offset new list).filter mark = list.filter mark := by
  have none : new.filter mark = [] := by
    rw [List.filter_eq_nil_iff]
    intro a mem
    rw [marked a mem]
    exact Bool.false_ne_true
  rw [insertAt, List.filter_append, List.filter_append, none, List.append_nil, ← List.filter_append,
    List.take_append_drop]

end Halyard.Insertions
