import Halyard.ListDiff.Model

/-!
# What `diff` plans

`accAfter` is the closed form of the first loop's variables, and `Settled` says which moves the
second loop leaves in place: each belongs to a run whose first row is shifted by exactly as many
places as it moves and passes no row that stays.

The argument of the algorithm is `Stands`: the rows left where they stand (those that stay at
their index and those that move without moving on the page) never cross each other.

* `diff_ok`: between non-empty key sets, the plan is the closed form with settled moves.
* `Stands.lt_of_lt`: rows that stand keep their order.
* `length_of_plan`: kept rows and added rows make up the new list.
-/

namespace Halyard.ListDiff

/-! ## Indices -/

theorem two_isizeMax_le [Target] : 2 * isizeMax ≤ usizeMax := by
  unfold isizeMax usizeMax
  rcases Nat.eq_zero_or_pos Target.bits with zero | positive
  · simp [zero]
  · have double : 2 ^ Target.bits = 2 * 2 ^ (Target.bits - 1) := by
      rw [← Nat.pow_succ']
      congr 1
      omega
    omega

theorem checkedAdd_eq_some [Target] {a b : ℕ} (bound : a + b ≤ usizeMax) :
    checkedAdd a b = some (a + b) := if_pos bound

theorem filter_range_succ (p : ℕ → Bool) (index : ℕ) :
    (List.range (index + 1)).filter p =
      if p index then (List.range index).filter p ++ [index]
      else (List.range index).filter p := by
  rw [List.range_succ, List.filter_append]
  cases value : p index <;> simp [value]

theorem filterMap_range_succ {α : Type*} (f : ℕ → Option α) (index : ℕ) :
    (List.range (index + 1)).filterMap f =
      (List.range index).filterMap f ++ (f index).toList := by
  rw [List.range_succ, List.filterMap_append]
  cases value : f index <;> simp [value]

/-- Counting the entries of a list by their indices. -/
theorem countP_range_getElem? {α : Type*} (p : α → Bool) (list : List α) {len : ℕ}
    (bound : list.length ≤ len) :
    (List.range len).countP (fun index => list[index]?.any p) = list.countP p := by
  induction list generalizing len with
  | nil => simp
  | cons a list ih =>
      obtain ⟨len, rfl⟩ : ∃ rest, len = rest + 1 := ⟨len - 1, by simp at bound; omega⟩
      have tail := @ih len (by simpa using bound)
      rw [List.range_succ_eq_map, List.countP_cons, List.countP_cons, List.countP_map, ← tail]
      simp [Function.comp_def]

/-! ## What each index is for -/

variable [Target] {K : Type*} [DecidableEq K]

section Indices

variable (old new : FxIndexSet K)

/-- The row at this index stays there. -/
def stays (index : ℕ) : Bool := decide (old.getIndex index = new.getIndex index)

/-- Where the row at this index of the old list goes. -/
def goesTo (index : ℕ) : Option ℕ := (old.getIndex index).bind new.getIndexOf

def removedAt (index : ℕ) : Bool := (old.getIndex index).isSome && (goesTo old new index).isNone

def addedAt (index : ℕ) : Bool := (new.getIndex index).any fun key => !old.contains key

/-- How many rows are removed before `index`. -/
def removals (index : ℕ) : ℕ := (List.range index).countP (removedAt old new)

/-- How many rows are added before `index`. -/
def additions (index : ℕ) : ℕ := (List.range index).countP (addedAt old new)

/-- How many rows before `index` stay at their index. -/
def staying (index : ℕ) : ℕ := (List.range index).countP (stays old new)

/-- The move that the first loop plans for the row at `index`. -/
def moveOf (index : ℕ) : Option DiffOpMove :=
  if stays old new index then none
  else (goesTo old new index).map fun toIndex =>
    ⟨index, toIndex, index + additions old new (index + 1) !=
      toIndex + removals old new (index + 1)⟩

/-- The variables of the first loop before index `index`. -/
def accAfter (index : ℕ) : DiffAcc where
  removed := (List.range index).filter (removedAt old new)
  moved := (List.range index).filterMap (moveOf old new)
  added := ((List.range index).filter (addedAt old new)).map (⟨·, .normal⟩)
  staysBefore := (List.range index).map (staying old new)
  stays := staying old new index

end Indices

variable {old new : FxIndexSet K}

omit [DecidableEq K] in
theorem getIndex_inj {set : FxIndexSet K} {i j : ℕ} {key : K}
    (left : set.getIndex i = some key) (right : set.getIndex j = some key) : i = j := by
  obtain ⟨boundI, valueI⟩ := List.getElem?_eq_some_iff.1 left
  obtain ⟨boundJ, valueJ⟩ := List.getElem?_eq_some_iff.1 right
  exact (List.Nodup.getElem_inj_iff set.nodup).1 (valueI.trans valueJ.symm)

theorem getIndexOf_eq_some {set : FxIndexSet K} {key : K} {index : ℕ} :
    set.getIndexOf key = some index ↔ set.getIndex index = some key := by
  unfold FxIndexSet.getIndexOf FxIndexSet.getIndex
  rw [List.idxOf?_eq_some_iff]
  constructor
  · rintro ⟨bound, value, -⟩
    simpa [List.getElem?_eq_getElem bound] using value
  · intro value
    obtain ⟨bound, value⟩ := List.getElem?_eq_some_iff.1 value
    refine ⟨bound, by simpa using value, fun j less => ?_⟩
    have : j ≠ index := by omega
    simp only [ne_eq]
    exact fun same => this
      ((List.Nodup.getElem_inj_iff set.nodup).1 (same.trans value.symm))

theorem getIndexOf_eq_none {set : FxIndexSet K} {key : K} :
    set.getIndexOf key = none ↔ key ∉ set.entries := by
  simp [FxIndexSet.getIndexOf, List.idxOf?_eq_none_iff]

theorem goesTo_eq_some {i j : ℕ} :
    goesTo old new i = some j ↔
      ∃ key, old.getIndex i = some key ∧ new.getIndex j = some key := by
  simp [goesTo, Option.bind_eq_some_iff, getIndexOf_eq_some]

theorem goesTo_inj {i i' j : ℕ} (left : goesTo old new i = some j)
    (right : goesTo old new i' = some j) : i = i' := by
  obtain ⟨key, atI, atJ⟩ := goesTo_eq_some.1 left
  obtain ⟨key', atI', atJ'⟩ := goesTo_eq_some.1 right
  cases Option.some.inj (atJ.symm.trans atJ')
  exact getIndex_inj atI atI'

theorem getIndex_of_stays {i : ℕ} (kept : stays old new i = true) :
    old.getIndex i = new.getIndex i := of_decide_eq_true kept

theorem goesTo_of_stays {i : ℕ} (kept : stays old new i = true)
    (bound : i < max old.len new.len) : goesTo old new i = some i := by
  have same := getIndex_of_stays kept
  rcases lt_max_iff.1 bound with inOld | inNew
  · have value : old.getIndex i = some old.entries[i] := List.getElem?_eq_getElem inOld
    exact goesTo_eq_some.2 ⟨_, value, same ▸ value⟩
  · have value : new.getIndex i = some new.entries[i] := List.getElem?_eq_getElem inNew
    exact goesTo_eq_some.2 ⟨_, same.trans value, value⟩

theorem stays_of_goesTo_self {i : ℕ} (goes : goesTo old new i = some i) :
    stays old new i = true := by
  obtain ⟨key, inOld, inNew⟩ := goesTo_eq_some.1 goes
  exact decide_eq_true (inOld.trans inNew.symm)

theorem not_removedAt_of_goesTo {i j : ℕ} (goes : goesTo old new i = some j) :
    removedAt old new i = false := by
  simp [removedAt, goes]

theorem not_addedAt_of_stays {i : ℕ} (kept : stays old new i = true) :
    addedAt old new i = false := by
  unfold addedAt
  rw [← getIndex_of_stays kept]
  cases value : old.getIndex i with
  | none => rfl
  | some key =>
      have member : key ∈ old.entries := List.mem_of_getElem? value
      simp [FxIndexSet.contains, member]

theorem moveOf_eq_some {i : ℕ} {op : DiffOpMove} (planned : moveOf old new i = some op) :
    op.fromIndex = i ∧ goesTo old new i = some op.toIndex ∧ stays old new i = false ∧
      (op.moveInDom = false → i + additions old new (i + 1) =
        op.toIndex + removals old new (i + 1)) := by
  unfold moveOf at planned
  split at planned
  · cases planned
  next notStays =>
    obtain ⟨toIndex, goes, rfl⟩ := Option.map_eq_some_iff.1 planned
    exact ⟨rfl, goes, by simpa using notStays, by simp⟩

/-! ## The first loop -/

theorem additions_le (old new : FxIndexSet K) (index : ℕ) : additions old new index ≤ index := by
  simpa [additions] using
    List.countP_le_length (p := addedAt old new) (l := List.range index)

theorem removals_le (old new : FxIndexSet K) (index : ℕ) : removals old new index ≤ index := by
  simpa [removals] using
    List.countP_le_length (p := removedAt old new) (l := List.range index)

theorem staying_le (old new : FxIndexSet K) (index : ℕ) : staying old new index ≤ index := by
  simpa [staying] using
    List.countP_le_length (p := stays old new) (l := List.range index)

theorem length_added (index : ℕ) :
    (accAfter old new index).added.length = additions old new index := by
  simp [accAfter, additions, List.countP_eq_length_filter]

theorem length_removed (index : ℕ) :
    (accAfter old new index).removed.length = removals old new index := by
  simp [accAfter, removals, List.countP_eq_length_filter]

theorem accAfter_succ (index : ℕ) : accAfter old new (index + 1) =
    { removed :=
        if removedAt old new index then (accAfter old new index).removed ++ [index]
        else (accAfter old new index).removed
      moved := (accAfter old new index).moved ++ (moveOf old new index).toList
      added :=
        if addedAt old new index then (accAfter old new index).added ++ [⟨index, .normal⟩]
        else (accAfter old new index).added
      staysBefore := (accAfter old new index).staysBefore ++ [staying old new index]
      stays := staying old new index + if stays old new index then 1 else 0 } := by
  simp only [accAfter, filter_range_succ, filterMap_range_succ, DiffAcc.mk.injEq, true_and]
  refine ⟨by split <;> simp, by simp [List.range_succ], ?_⟩
  simp [staying, List.range_succ, List.countP_append, List.countP_cons]

/-- One turn of the first loop, from one closed form to the next. -/
theorem diffStep_accAfter {index : ℕ} (bound : index < max old.len new.len) :
    diffStep old new (accAfter old new index) index = .ok (accAfter old new (index + 1)) := by
  have small : max old.len new.len ≤ isizeMax := max_le old.length_le new.length_le
  have room := two_isizeMax_le
  rw [accAfter_succ]
  by_cases kept : stays old new index = true
  · -- the row stays: only the running count changes
    have saturates : saturatingAdd (staying old new index) 1 = staying old new index + 1 := by
      have := staying_le old new index
      unfold saturatingAdd
      omega
    have noMove : moveOf old new index = none := if_pos kept
    simp only [diffStep, if_pos (getIndex_of_stays kept), noMove, kept,
      not_removedAt_of_goesTo (goesTo_of_stays kept bound), not_addedAt_of_stays kept,
      Bool.false_eq_true, if_false, if_true, Option.toList_none, List.append_nil]
    rw [← saturates]
    rfl
  · have differ : ¬ old.getIndex index = new.getIndex index := fun same => kept (decide_eq_true same)
    have added : (accAfter old new (index + 1)).added.length = additions old new (index + 1) :=
      length_added _
    have removed : (accAfter old new (index + 1)).removed.length = removals old new (index + 1) :=
      length_removed _
    simp only [accAfter_succ] at added removed
    have target : (old.getIndex index).bind new.getIndexOf = goesTo old new index := rfl
    have addedCond : ((new.getIndex index).any fun key => !old.contains key) =
        addedAt old new index := rfl
    have removedCond : ∀ goal, goesTo old new index = goal →
        ((old.getIndex index).isSome && goal.isNone) = removedAt old new index := by
      rintro _ rfl
      rfl
    simp only [diffStep, if_neg differ, addedCond, target]
    cases goes : goesTo old new index with
    | none =>
        have noMove : moveOf old new index = none := by simp [moveOf, kept, goes]
        simp only [removedCond _ goes, noMove, kept, Bool.false_eq_true, if_false,
          Option.toList_none, List.append_nil]
        rfl
    | some toIndex =>
        have move : moveOf old new index = some ⟨index, toIndex,
            index + additions old new (index + 1) != toIndex + removals old new (index + 1)⟩ := by
          simp [moveOf, kept, goes]
        have toBound : toIndex < isizeMax := by
          obtain ⟨key, -, inNew⟩ := goesTo_eq_some.1 goes
          exact lt_of_lt_of_le (List.getElem?_eq_some_iff.1 inNew).1 new.length_le
        have := additions_le old new (index + 1)
        have := removals_le old new (index + 1)
        simp only [removedCond _ goes, added, removed, move, kept,
          checkedAdd_eq_some (by omega : index + additions old new (index + 1) ≤ usizeMax),
          checkedAdd_eq_some (by omega : toIndex + removals old new (index + 1) ≤ usizeMax)]
        rfl

/-- The counts that the second loop is given. -/
theorem staysBefore_accAfter (index : ℕ) :
    (accAfter old new index).staysBefore ++ [(accAfter old new index).stays] =
      (List.range (index + 1)).map (staying old new) := by
  simp [accAfter, List.range_succ]

/-- The first loop, run to its end. -/
theorem foldlM_diffStep {index : ℕ} (bound : index ≤ max old.len new.len) :
    (List.range index).foldlM (diffStep old new) {} = .ok (accAfter old new index) := by
  induction index with
  | zero => rfl
  | succ index ih =>
      rw [List.range_succ, List.foldlM_append, ih (by omega)]
      have turn := diffStep_accAfter (by omega : index < max old.len new.len)
      simp [bind, Except.bind, pure, Except.pure, turn]

/-! ## The second loop -/

theorem staying_mono (old new : FxIndexSet K) {i j : ℕ} (le : i ≤ j) : staying old new i ≤ staying old new j :=
  (List.range_sublist.2 le).countP_le

/-- Two indices between which the running count does not grow have no staying row between. -/
theorem stays_eq_false_of_staying {i j x : ℕ} (flat : staying old new j ≤ staying old new i)
    (after : i ≤ x) (before : x < j) : stays old new x = false := by
  by_contra kept
  have step : staying old new (x + 1) = staying old new x + 1 := by
    have kept : stays old new x = true := by simpa using kept
    simp [staying, List.range_succ, List.countP_append, kept]
  have := staying_mono old new after
  have := staying_mono old new (by omega : x + 1 ≤ j)
  omega

/-- The row at `i` of the old list goes to `j` and may be left where it stands: it belongs to a
run whose first row is shifted by as many places as it moves and passes no row that stays. -/
inductive Settled (old new : FxIndexSet K) : ℕ → ℕ → Prop
  | first {i j : ℕ} (goes : goesTo old new i = some j)
      (shifted : i + additions old new (i + 1) = j + removals old new (i + 1))
      (clear : ∀ x, min i j < x → x < max i j → stays old new x = false) : Settled old new i j
  | next {i j : ℕ} (run : Settled old new i j) (goes : goesTo old new (i + 1) = some (j + 1)) :
      Settled old new (i + 1) (j + 1)

/-- What the first loop promises of a move. -/
structure Planned (old new : FxIndexSet K) (op : DiffOpMove) : Prop where
  goes : goesTo old new op.fromIndex = some op.toIndex
  shifted : op.moveInDom = false →
    op.fromIndex + additions old new (op.fromIndex + 1) =
      op.toIndex + removals old new (op.fromIndex + 1)

theorem Planned.bounds {op : DiffOpMove} (planned : Planned old new op) :
    op.fromIndex < old.len ∧ op.toIndex < new.len := by
  obtain ⟨key, inOld, inNew⟩ := goesTo_eq_some.1 planned.goes
  exact ⟨(List.getElem?_eq_some_iff.1 inOld).1, (List.getElem?_eq_some_iff.1 inNew).1⟩

theorem passesARowThatStays_eq {i j len : ℕ} (small : len ≤ isizeMax) (left : i < len)
    (right : j < len) :
    passesARowThatStays ((List.range (len + 1)).map (staying old new)) i j =
      .ok (decide (staying old new (max i j) > staying old new (min i j + 1))) := by
  have room := two_isizeMax_le
  have low : checkedAdd (min i j) 1 = some (min i j + 1) := checkedAdd_eq_some (by omega)
  have lowBound : min i j + 1 < len + 1 := by omega
  have highBound : max i j < len + 1 := by omega
  simp [passesARowThatStays, low, lowBound, highBound]

/-- The second loop's decision: only a settled row is left in place. -/
theorem movesOnPage_ok {len : ℕ} (small : len ≤ isizeMax) (oldBound : old.len ≤ len)
    (newBound : new.len ≤ len) {op : DiffOpMove} {previous : Option DiffOpMove}
    (planned : Planned old new op)
    (run : ∀ op ∈ previous, op.moveInDom = false → Settled old new op.fromIndex op.toIndex) :
    ∃ decision, movesOnPage ((List.range (len + 1)).map (staying old new)) previous op =
        .ok decision ∧
      (decision = false → Settled old new op.fromIndex op.toIndex) := by
  have bounds := planned.bounds
  unfold movesOnPage
  cases continued : previous.filter (continuesRun · op) with
  | some before =>
      refine ⟨_, rfl, fun inPlace => ?_⟩
      obtain ⟨member, continues⟩ := Option.filter_eq_some_iff.1 continued
      obtain ⟨nextFrom, nextTo⟩ : op.fromIndex = before.fromIndex + 1 ∧
          op.toIndex = before.toIndex + 1 := by
        simp only [continuesRun, checkedAdd, Bool.and_eq_true, beq_iff_eq,
          Option.ite_none_right_eq_some, Option.some.injEq] at continues
        omega
      have goes := planned.goes
      rw [nextFrom, nextTo] at goes ⊢
      exact .next (run before member inPlace) goes
  | none =>
      cases inDom : op.moveInDom with
      | true => exact ⟨true, rfl, by simp⟩
      | false =>
          refine ⟨_, passesARowThatStays_eq small (by omega) (by omega), fun noPass => ?_⟩
          refine .first planned.goes (planned.shifted inDom) fun x after before => ?_
          exact stays_eq_false_of_staying (by simpa using noPass) after before

/-- The second loop keeps the indices of the moves and leaves in place only settled rows. -/
theorem settleMoves_ok {len : ℕ} (small : len ≤ isizeMax) (oldBound : old.len ≤ len)
    (newBound : new.len ≤ len) {moves : List DiffOpMove} {previous : Option DiffOpMove}
    (planned : ∀ op ∈ moves, Planned old new op)
    (run : ∀ op ∈ previous, op.moveInDom = false → Settled old new op.fromIndex op.toIndex) :
    ∃ settled,
      settleMoves ((List.range (len + 1)).map (staying old new)) previous moves = .ok settled ∧
      settled.map (fun op => (op.fromIndex, op.toIndex)) =
        moves.map (fun op => (op.fromIndex, op.toIndex)) ∧
      ∀ op ∈ settled, op.moveInDom = false → Settled old new op.fromIndex op.toIndex := by
  induction moves generalizing previous with
  | nil => exact ⟨[], rfl, rfl, by simp⟩
  | cons op moves ih =>
      obtain ⟨decision, decided, inPlace⟩ :=
        movesOnPage_ok small oldBound newBound (planned op List.mem_cons_self) run
      obtain ⟨settled, settledEq, sameIndices, allSettled⟩ :=
        @ih (some { op with moveInDom := decision })
          (fun op member => planned op (List.mem_cons_of_mem _ member)) (by simpa using inPlace)
      refine ⟨{ op with moveInDom := decision } :: settled, ?_, by simp [sameIndices], ?_⟩
      · simp [settleMoves, decided, settledEq, bind, Except.bind, pure, Except.pure]
      · simpa using ⟨inPlace, allSettled⟩

/-! ## Rows that stand never cross -/

/-- The row at `i` of the old list goes to `j`, and its node is left where it stands. -/
def Stands (old new : FxIndexSet K) (i j : ℕ) : Prop :=
  goesTo old new i = some j ∧ (i = j ∨ Settled old new i j)

theorem Settled.goes {i j : ℕ} (settled : Settled old new i j) : goesTo old new i = some j := by
  cases settled with
  | first goes => exact goes
  | next _ goes => exact goes

theorem removals_succ (i : ℕ) : removals old new (i + 1) =
    removals old new i + if removedAt old new i then 1 else 0 := by
  simp [removals, List.range_succ, List.countP_append, List.countP_cons]

theorem additions_mono (old new : FxIndexSet K) {i j : ℕ} (le : i ≤ j) : additions old new i ≤ additions old new j :=
  (List.range_sublist.2 le).countP_le

/-- A kept row's index is not removed, so fewer than all indices up to it are. -/
theorem removals_gap {i i' j : ℕ} (less : i < i') (goes : goesTo old new i' = some j) :
    removals old new (i' + 1) < removals old new (i + 1) + (i' - i) := by
  have kept := not_removedAt_of_goesTo goes
  rw [removals_succ, kept]
  simp only [Bool.false_eq_true, if_false, Nat.add_zero]
  clear kept goes
  induction i', less using Nat.le_induction with
  | base => simp
  | succ i' le ih =>
      rw [removals_succ]
      split <;> omega

/-- Along a run the shift never falls short of the additions. -/
theorem Settled.shift_le {i j : ℕ} (settled : Settled old new i j) :
    j + removals old new (i + 1) ≤ i + additions old new (i + 1) := by
  induction settled with
  | first _ shifted => omega
  | @next i j run goes ih =>
      have kept := not_removedAt_of_goesTo goes
      have := additions_mono old new (by omega : i + 1 ≤ i + 1 + 1)
      rw [removals_succ, kept]
      simp only [Bool.false_eq_true, if_false]
      omega

theorem Settled.lt_of_lt {i j i' j' : ℕ} (left : Settled old new i j)
    (right : Settled old new i' j') (less : i < i') : j < j' := by
  induction right with
  | @first i' j' goes shifted _ =>
      -- a run's first row is exactly shifted, and not every index between is removed
      have := left.shift_le
      have := additions_mono old new (by omega : i + 1 ≤ i' + 1)
      have := removals_gap less goes
      omega
  | @next i' j' run _ ih =>
      rcases Nat.lt_succ_iff_lt_or_eq.1 less with earlier | rfl
      · have := ih earlier
        omega
      · have same : j = j' := Option.some.inj (left.goes.symm.trans run.goes)
        omega

/-- A settled row passes no row that stays. -/
theorem Settled.lt_iff {i j x : ℕ} (settled : Settled old new i j)
    (kept : goesTo old new x = some x) (ne : x ≠ i) : x < i ↔ x < j := by
  induction settled with
  | @first i j goes _ clear =>
      have neTo : x ≠ j := by
        rintro rfl
        exact ne (goesTo_inj kept goes)
      by_contra cross
      have : stays old new x = false := clear x (by omega) (by omega)
      simp [stays_of_goesTo_self kept] at this
  | @next i j run goes ih =>
      have neTo : x ≠ j + 1 := by
        rintro rfl
        exact ne (goesTo_inj kept goes)
      by_cases here : x = i
      · subst here
        have same : x = j := Option.some.inj (kept.symm.trans run.goes)
        omega
      · have neRun : x ≠ j := by
          rintro rfl
          exact here (goesTo_inj kept run.goes)
        have := ih here
        omega

theorem Stands.lt_of_lt {i j i' j' : ℕ} (left : Stands old new i j)
    (right : Stands old new i' j') (less : i < i') : j < j' := by
  obtain ⟨goes, standing⟩ := left
  obtain ⟨goes', standing'⟩ := right
  rcases standing with rfl | settled <;> rcases standing' with rfl | settled'
  · exact less
  · exact (settled'.lt_iff goes (by omega)).1 less
  · have ne : i' ≠ j := by
      rintro rfl
      exact absurd (goesTo_inj goes goes') (by omega)
    have := settled.lt_iff goes' (by omega)
    omega
  · exact settled.lt_of_lt settled' less

/-! ## The plan -/

/-- A plan that fits the update from `old` to `new` (without clearing). -/
structure Diff.Fits (old new : FxIndexSet K) (plan : Diff) : Prop where
  mem_removed : ∀ i, i ∈ plan.removed ↔ removedAt old new i = true
  removed_nodup : plan.removed.Nodup
  mem_moved : ∀ i j, (i, j) ∈ plan.moved.map (fun op => (op.fromIndex, op.toIndex)) ↔
    goesTo old new i = some j ∧ i ≠ j
  moved_nodup : (plan.moved.map DiffOpMove.fromIndex).Nodup
  settled : ∀ op ∈ plan.moved, op.moveInDom = false →
    Settled old new op.fromIndex op.toIndex
  mem_added : ∀ i, i ∈ plan.added.map DiffOpAdd.at_ ↔ addedAt old new i = true
  added_ascending : (plan.added.map DiffOpAdd.at_).Pairwise (· < ·)
  append : ∀ add ∈ plan.added, add.mode = .append → old.entries = []

theorem removedAt_eq (i : ℕ) :
    removedAt old new i = (old.entries[i]?).any fun key => !new.contains key := by
  unfold removedAt goesTo FxIndexSet.getIndex
  cases old.entries[i]? with
  | none => rfl
  | some key =>
      by_cases member : key ∈ new.entries
      · have : new.getIndexOf key ≠ none := fun none => getIndexOf_eq_none.1 none member
        simpa [FxIndexSet.contains, member, Option.isSome_iff_ne_none] using this
      · simp [FxIndexSet.contains, member, getIndexOf_eq_none.2 member]

theorem lt_of_removedAt {i : ℕ} (removed : removedAt old new i = true) : i < old.len := by
  by_contra past
  have : old.entries[i]? = none := List.getElem?_eq_none (by simpa [FxIndexSet.len] using past)
  simp [removedAt_eq, this] at removed

theorem lt_of_addedAt {i : ℕ} (added : addedAt old new i = true) : i < new.len := by
  by_contra past
  have : new.entries[i]? = none := List.getElem?_eq_none (by simpa [FxIndexSet.len] using past)
  simp [addedAt, FxIndexSet.getIndex, this] at added

theorem lt_of_goesTo {i j : ℕ} (goes : goesTo old new i = some j) : i < old.len ∧ j < new.len := by
  obtain ⟨key, inOld, inNew⟩ := goesTo_eq_some.1 goes
  exact ⟨(List.getElem?_eq_some_iff.1 inOld).1, (List.getElem?_eq_some_iff.1 inNew).1⟩

/-- The kept keys are as many on both sides. -/
theorem length_sub_removals (old new : FxIndexSet K) {len : ℕ} (oldBound : old.len ≤ len) (newBound : new.len ≤ len) :
    removals old new len ≤ old.len ∧
      old.len - removals old new len + additions old new len = new.len := by
  have removed : removals old new len = old.entries.countP fun key => !new.contains key := by
    rw [← countP_range_getElem? _ old.entries oldBound]
    exact congrArg (fun p => (List.range len).countP p) (funext removedAt_eq)
  have added : additions old new len = new.entries.countP fun key => !old.contains key :=
    countP_range_getElem? _ new.entries newBound
  have kept : old.entries.countP (new.contains ·) = new.entries.countP (old.contains ·) := by
    rw [List.countP_eq_length_filter, List.countP_eq_length_filter]
    refine List.Perm.length_eq ((List.perm_ext_iff_of_nodup (old.nodup.filter _)
      (new.nodup.filter _)).2 fun key => ?_)
    simp [FxIndexSet.contains, and_comm]
  have splitOld := List.length_eq_countP_add_countP (new.contains ·) (l := old.entries)
  have splitNew := List.length_eq_countP_add_countP (old.contains ·) (l := new.entries)
  simp only [FxIndexSet.len, decide_not, Bool.decide_eq_true] at *
  omega

theorem Diff.Fits.length_added {plan : Diff} (fits : plan.Fits old new) {len : ℕ}
    (bound : new.len ≤ len) : plan.added.length = additions old new len := by
  have places : (plan.added.map DiffOpAdd.at_).length = plan.added.length := List.length_map _
  rw [additions, List.countP_eq_length_filter, ← places]
  refine List.Perm.length_eq ((List.perm_ext_iff_of_nodup
    (fits.added_ascending.imp fun less => Nat.ne_of_lt less)
    (List.nodup_range.filter _)).2 fun i => ?_)
  simp only [fits.mem_added, List.mem_filter, List.mem_range]
  exact ⟨fun added => ⟨by have := lt_of_addedAt added; omega, added⟩, And.right⟩

theorem Diff.Fits.length_eq {plan : Diff} (fits : plan.Fits old new) :
    plan.removed.length ≤ old.len ∧
      old.len - plan.removed.length + plan.added.length = new.len := by
  have counts := length_sub_removals old new (le_max_left _ _) (le_max_right _ _)
  have removed : plan.removed.length = removals old new (max old.len new.len) := by
    rw [← length_removed]
    refine List.Perm.length_eq ((List.perm_ext_iff_of_nodup fits.removed_nodup
      (List.nodup_range.filter _)).2 fun i => ?_)
    simp only [fits.mem_removed, List.mem_filter, List.mem_range]
    exact ⟨fun removed => ⟨by have := lt_of_removedAt removed; omega, removed⟩, And.right⟩
  rw [removed, fits.length_added (le_max_right _ _)]
  exact counts

theorem diff_clear (empty : new.entries = []) :
    diff old new = .ok { clear := !old.isEmpty } := by
  simp [diff, FxIndexSet.isEmpty, empty]

theorem addedAt_of_oldEmpty (empty : old.entries = []) (i : ℕ) :
    addedAt old new i = decide (i < new.len) := by
  have absent : ∀ key, old.contains key = false := by simp [FxIndexSet.contains, empty]
  by_cases bound : i < new.len
  · have value : new.getIndex i = some new.entries[i] := List.getElem?_eq_getElem bound
    simp [addedAt, value, absent, bound]
  · have value : new.getIndex i = none :=
      List.getElem?_eq_none (by simpa [FxIndexSet.len] using bound)
    simp [addedAt, value, bound]

/-- The first rows of an empty list are all added at its end. -/
theorem fits_of_oldEmpty (empty : old.entries = []) :
    Diff.Fits old new { added := (List.range new.len).map fun index => ⟨index, .append⟩ } := by
  have absent : ∀ i : ℕ, old.entries[i]? = none := by simp [empty]
  have gone : ∀ i, goesTo old new i = none := by simp [goesTo, FxIndexSet.getIndex, absent]
  have places : (((List.range new.len).map fun index =>
      (⟨index, .append⟩ : DiffOpAdd)).map DiffOpAdd.at_) = List.range new.len := by
    simp [Function.comp_def]
  constructor
  case mem_removed => simp [removedAt_eq, absent]
  case removed_nodup => exact .nil
  case mem_moved => simp [gone]
  case moved_nodup => exact .nil
  case settled => simp
  case mem_added => simp [addedAt_of_oldEmpty empty]
  case added_ascending =>
    rw [places]
    exact List.pairwise_lt_range
  case append => exact fun _ _ _ => empty

theorem planned_accAfter {index : ℕ} {op : DiffOpMove}
    (member : op ∈ (accAfter old new index).moved) : Planned old new op := by
  obtain ⟨i, -, planned⟩ := List.mem_filterMap.1 member
  obtain ⟨rfl, goes, -, shifted⟩ := moveOf_eq_some planned
  exact ⟨goes, shifted⟩

theorem moved_accAfter (index : ℕ) :
    (accAfter old new index).moved.map (fun op => (op.fromIndex, op.toIndex)) =
      (List.range index).filterMap fun i =>
        if stays old new i then none else (goesTo old new i).map (i, ·) := by
  rw [accAfter, List.map_filterMap]
  refine List.filterMap_congr fun i _ => ?_
  unfold moveOf
  split
  · rfl
  · cases goesTo old new i <;> rfl

theorem nodup_moved_accAfter (index : ℕ) :
    ((accAfter old new index).moved.map DiffOpMove.fromIndex).Nodup := by
  have sources : (accAfter old new index).moved.map DiffOpMove.fromIndex =
      ((accAfter old new index).moved.map fun op => (op.fromIndex, op.toIndex)).map Prod.fst := by
    simp [Function.comp_def]
  rw [sources, moved_accAfter, List.map_filterMap]
  refine List.Nodup.filterMap (fun i i' k left right => ?_) List.nodup_range
  have source : ∀ {i}, k ∈ (if stays old new i then none
      else (goesTo old new i).map (i, ·)).map Prod.fst → i = k := by
    intro i member
    split at member
    · cases member
    · cases goes : goesTo old new i <;> simp_all
  exact (source left).trans (source right).symm

/-- Unless every row goes, the plan fits. -/
theorem diff_fits (notCleared : old.entries = [] ∨ new.entries ≠ []) :
    ∃ plan, diff old new = .ok plan ∧ plan.clear = false ∧ plan.Fits old new := by
  by_cases oldEmpty : old.entries = []
  · have oldNone : old.isEmpty = true := by simp [FxIndexSet.isEmpty, oldEmpty]
    refine ⟨_, ?_, rfl, fits_of_oldEmpty oldEmpty⟩
    by_cases newEmpty : new.entries = []
    · simp [diff_clear newEmpty, oldNone, FxIndexSet.len, newEmpty]
    · have newSome : new.isEmpty = false := by simpa [FxIndexSet.isEmpty] using newEmpty
      simp [diff, newSome, oldNone]
  · have nonempty : new.entries ≠ [] := notCleared.resolve_left oldEmpty
    have newSome : new.isEmpty = false := by simpa [FxIndexSet.isEmpty] using nonempty
    have oldSome : old.isEmpty = false := by simpa [FxIndexSet.isEmpty] using oldEmpty
    have small : max old.len new.len ≤ isizeMax := max_le old.length_le new.length_le
    obtain ⟨moved, settle, indices, settled⟩ := settleMoves_ok small (le_max_left _ _)
      (le_max_right _ _) (fun _ => @planned_accAfter _ _ _ old new (max old.len new.len) _)
      (fun op member => absurd member (Option.not_mem_none op))
    have sources : moved.map DiffOpMove.fromIndex =
        (accAfter old new (max old.len new.len)).moved.map DiffOpMove.fromIndex := by
      simpa [Function.comp_def] using congrArg (List.map Prod.fst) indices
    rw [moved_accAfter] at indices
    refine ⟨{ removed := (accAfter old new (max old.len new.len)).removed, moved,
              added := (accAfter old new (max old.len new.len)).added }, ?_, rfl, ?_⟩
    · simp only [diff, newSome, oldSome, foldlM_diffStep (le_refl _), staysBefore_accAfter, settle, bind,
        Except.bind, pure, Except.pure, Bool.false_eq_true, if_false]
    · have places : (accAfter old new (max old.len new.len)).added.map DiffOpAdd.at_ =
          (List.range (max old.len new.len)).filter (addedAt old new) := by
        simp [accAfter, Function.comp_def]
      constructor
      case mem_removed =>
        intro i
        simp only [accAfter, List.mem_filter, List.mem_range]
        exact ⟨And.right, fun removed => ⟨by have := lt_of_removedAt removed; omega, removed⟩⟩
      case removed_nodup => exact List.nodup_range.filter _
      case mem_moved =>
        intro i j
        rw [indices, List.mem_filterMap]
        constructor
        · rintro ⟨i', -, value⟩
          split at value
          · cases value
          next notStays =>
            obtain ⟨j', goes, same⟩ := Option.map_eq_some_iff.1 value
            cases same
            exact ⟨goes, fun self => notStays (stays_of_goesTo_self (self ▸ goes))⟩
        · rintro ⟨goes, ne⟩
          have notStays : ¬ stays old new i = true := fun kept => ne <| Option.some.inj <|
            (goesTo_of_stays kept (by have := lt_of_goesTo goes; omega)).symm.trans goes
          exact ⟨i, by have := lt_of_goesTo goes; simp; omega, by simp [notStays, goes]⟩
      case moved_nodup =>
        rw [sources]
        exact nodup_moved_accAfter _
      case settled => exact settled
      case mem_added =>
        intro i
        rw [places]
        simp only [List.mem_filter, List.mem_range]
        exact ⟨And.right, fun added => ⟨by have := lt_of_addedAt added; omega, added⟩⟩
      case added_ascending => exact places ▸ List.pairwise_lt_range.filter _
      case append =>
        rintro add member append
        obtain ⟨i, -, rfl⟩ := List.mem_map.1 member
        cases append

end Halyard.ListDiff
