import Halyard.ListDiff.Plan

/-!
# The previous diff

The diff as it was before the rewrite, which the tests of `view/list_diff.rs` keep in the module
`previous`: it groups adjacent moves into runs with a length, and unpacks them again while it counts
through the rows that are removed, added and moved.  It indexes without checks, so each loop is
`none` where it panics.

* `unpackMoves_group`: grouping and unpacking gives each move the flag of the first of its run, and
  loses no addition.
* `settle_or_passes`: the current diff settles the moves with the same flags, unless a row that is
  left in place passes a row that stays.
-/

namespace Halyard.ListDiff.Previous

/-! ## Plans -/

structure DiffOpMove where
  fromIndex : ℕ
  len : ℕ
  toIndex : ℕ
  moveInDom : Bool
deriving DecidableEq, Repr

/-- The previous plan; its additions are those of the current one. -/
structure Diff where
  removed : List ℕ := []
  moved : List DiffOpMove := []
  itemsToMove : ℕ := 0
  added : List DiffOpAdd := []
  clear : Bool := false
deriving DecidableEq, Repr

/-- The variables of `diff`'s loop. -/
structure DiffAcc where
  removed : List ℕ := []
  moved : List DiffOpMove := []
  added : List DiffOpAdd := []

section Diff

variable [Target] {K : Type*} [DecidableEq K]

/-- One turn of `diff`'s loop; the counts are compared as `i32`. -/
def diffStep (old new : FxIndexSet K) (acc : DiffAcc) (index : ℕ) : DiffAcc :=
  let fromItem := old.getIndex index
  let toItem := new.getIndex index
  if fromItem = toItem then acc
  else
    let removed :=
      if fromItem.any fun key => !new.contains key then acc.removed ++ [index] else acc.removed
    let added :=
      if toItem.any fun key => !old.contains key then acc.added ++ [⟨index, .normal⟩]
      else acc.added
    match fromItem.bind new.getIndexOf with
    | none => { acc with removed, added }
    | some toIndex =>
        let movesForwardBy := Int32.ofNat toIndex - Int32.ofNat index
        let moveInDom :=
          movesForwardBy != Int32.ofNat added.length - Int32.ofNat removed.length
        { removed, added, moved := acc.moved ++ [⟨index, 1, toIndex, moveInDom⟩] }

/-- The loop of `group_adjacent_moves`, after the move `prev`. -/
def groupAdjacentMoves : Option DiffOpMove → List DiffOpMove → List DiffOpMove
  | prev, [] => prev.toList
  | none, m :: rest => groupAdjacentMoves (some m) rest
  | some p, m :: rest =>
      if m.fromIndex = p.fromIndex + p.len ∧ m.toIndex = p.toIndex + p.len then
        groupAdjacentMoves (some { p with len := p.len + 1 }) rest
      else p :: groupAdjacentMoves (some m) rest

def diff (old new : FxIndexSet K) : Diff :=
  if old.isEmpty && new.isEmpty then {}
  else if new.isEmpty then { clear := true }
  else if old.isEmpty then { added := (List.range new.len).map fun index => ⟨index, .append⟩ }
  else
    let acc := (List.range (max old.len new.len)).foldl (diffStep old new) {}
    let moved := groupAdjacentMoves none acc.moved
    { removed := acc.removed, moved, itemsToMove := (moved.map DiffOpMove.len).sum,
      added := acc.added }

end Diff

/-! ## `unpack_moves` -/

/-- The first move of a run. -/
def DiffOpMove.single (move : DiffOpMove) : DiffOpMove := { move with len := 1 }

/-- The moves that are left of a run and the runs after it, once its first move is unpacked. -/
def DiffOpMove.advance (move : DiffOpMove) (rest : List DiffOpMove) : List DiffOpMove :=
  if move.len - 1 = 0 then rest
  else { move with len := move.len - 1, fromIndex := move.fromIndex + 1,
                   toIndex := move.toIndex + 1 } :: rest

/-- The loop of `unpack_moves`, with what its iterators have left. -/
def unpackLoop : List ℕ → List ℕ → List DiffOpAdd → List DiffOpMove →
    List DiffOpMove × List DiffOpAdd
  | [], _, _, _ => ([], [])
  | i :: indices, removed, added, moved =>
      if removed.head? = some i then unpackLoop indices removed.tail added moved
      else
        match added, moved with
        | add :: adds, move :: moves =>
            if add.at_ = i then
              let (moveCmds, addCmds) := unpackLoop indices removed adds (move :: moves)
              (moveCmds, add :: addCmds)
            else
              let (moveCmds, addCmds) :=
                unpackLoop indices removed (add :: adds) (move.advance moves)
              (move.single :: moveCmds, addCmds)
        | add :: adds, [] =>
            let (moveCmds, addCmds) := unpackLoop indices removed adds []
            (moveCmds, add :: addCmds)
        | [], move :: moves =>
            let (moveCmds, addCmds) := unpackLoop indices removed [] (move.advance moves)
            (move.single :: moveCmds, addCmds)
        | [], [] => ([], [])

def unpackMoves (diff : Diff) : List DiffOpMove × List DiffOpAdd :=
  unpackLoop (List.range (diff.itemsToMove + diff.added.length + diff.removed.length))
    diff.removed diff.added diff.moved

/-! ## `apply_diff` -/

section Apply

variable {Page Item Row : Type}

/-- `rows[start_at..].iter().find(|s| s.is_some())?.as_ref()`. -/
def nextRow {R : Type*} (rows : List (Option R)) (startAt : ℕ) : Option R :=
  ((rows.drop startAt).find? Option.isSome).join

/-- The loop over the rows to remove. -/
def removeRows (ops : ListOps Page Item Row) :
    List ℕ → ApplyState Page Item Row → Option (ApplyState Page Item Row)
  | [], s => some s
  | at_ :: rest, s =>
      match takeAt s.rows at_ with
      | none => none
      | some (row, rows) => removeRows ops rest { s with rows, page := ops.unmount s.page row }

/-- The rows to move, taken out of `children`; what is taken may be a free place. -/
def takeMoved : List DiffOpMove → ApplyState Page Item Row → Option (ApplyState Page Item Row)
  | [], s => some s
  | move :: rest, s =>
      match s.rows[move.fromIndex]? with
      | none => none
      | some slot =>
          takeMoved rest
            { s with rows := s.rows.set move.fromIndex none, moving := s.moving ++ [slot] }

/-- The loop over the moves whose rows are left in place, from the `i`-th on. -/
def placeMoved (ops : ListOps Page Item Row) :
    ℕ → List DiffOpMove → ApplyState Page Item Row → Option (ApplyState Page Item Row)
  | _, [], s => some s
  | i, move :: rest, s =>
      if move.moveInDom then placeMoved ops (i + 1) rest s
      else
        match s.moving[i]? with
        | none => none
        | some slot =>
            let page :=
              match slot with
              | none => s.page
              | some row => ops.setIndex s.page row move.toIndex
            if move.toIndex < s.rows.length then
              placeMoved ops (i + 1) rest
                { s with
                  moving := s.moving.set i none
                  rows := s.rows.set move.toIndex slot
                  page }
            else none

/-- The loop over the moves whose rows move on the page, from the `i`-th on. -/
def mountMoved (ops : ListOps Page Item Row) :
    ℕ → List DiffOpMove → ApplyState Page Item Row → Option (ApplyState Page Item Row)
  | _, [], s => some s
  | i, move :: rest, s =>
      if !move.moveInDom then mountMoved ops (i + 1) rest s
      else
        match takeAt s.moving i with
        | none => none
        | some (row, moving) =>
            if move.toIndex < s.rows.length then
              let page := ops.mount s.page row (nextRow s.rows move.toIndex)
              mountMoved ops (i + 1) rest
                { s with
                  moving
                  rows := s.rows.set move.toIndex (some row)
                  page := ops.setIndex page row move.toIndex }
            else none

/-- The loop that builds and mounts the new rows. -/
def addRows (ops : ListOps Page Item Row) :
    List DiffOpAdd → ApplyState Page Item Row → Option (ApplyState Page Item Row)
  | [], s => some s
  | add :: rest, s =>
      match takeAt s.items add.at_ with
      | none => none
      | some (item, items) =>
          if add.at_ < s.rows.length then
            let (row, page) := ops.build s.page add.at_ item
            let before :=
              match add.mode with
              | .normal => nextRow s.rows add.at_
              | .append => none
            addRows ops rest
              { s with
                items
                rows := s.rows.set add.at_ (some row)
                page := ops.mount page row before }
          else none

/-- Everything `apply_diff` does after the clearing of the list. -/
def applyMoves (ops : ListOps Page Item Row) (diff : Diff) (s : ApplyState Page Item Row) :
    Option (ApplyState Page Item Row) := do
  let s ← removeRows ops diff.removed s
  let (moveCmds, addCmds) := unpackMoves diff
  let s ← takeMoved moveCmds s
  let s := { s with rows := s.rows ++ List.replicate diff.added.length none }
  let s ← placeMoved ops 0 moveCmds s
  let s ← mountMoved ops 0 moveCmds s
  let s ← addRows ops addCmds s
  return { s with rows := s.rows.filter Option.isSome }

def applyDiff (ops : ListOps Page Item Row) (diff : Diff) (s : ApplyState Page Item Row) :
    Option (ApplyState Page Item Row) :=
  if diff.clear then
    let cleared := { s with rows := [], page := unmountAll ops s.page s.rows }
    if diff.added.isEmpty then some cleared else applyMoves ops diff cleared
  else applyMoves ops diff s

end Apply

/-! ## Grouping and unpacking -/

/-- The moves of a run, one by one. -/
def DiffOpMove.each (move : DiffOpMove) : List DiffOpMove :=
  (List.range move.len).map fun k =>
    ⟨move.fromIndex + k, 1, move.toIndex + k, move.moveInDom⟩

theorem each_advance (move : DiffOpMove) (rest : List DiffOpMove) (positive : 0 < move.len) :
    move.single :: (move.advance rest).flatMap DiffOpMove.each =
      (move :: rest).flatMap DiffOpMove.each := by
  obtain ⟨fromIndex, len, toIndex, moveInDom⟩ := move
  obtain ⟨len, rfl⟩ : ∃ less, len = less + 1 := ⟨len - 1, by simp only at positive; omega⟩
  have later : ∀ k, fromIndex + 1 + k = fromIndex + (k + 1) ∧ toIndex + 1 + k = toIndex + (k + 1) :=
    fun k => ⟨by omega, by omega⟩
  cases len with
  | zero => simp [DiffOpMove.advance, DiffOpMove.single, DiffOpMove.each]
  | succ len =>
    simp [DiffOpMove.advance, DiffOpMove.single, DiffOpMove.each, List.range_succ_eq_map,
      Function.comp_def, later]

theorem sum_len_advance (move : DiffOpMove) (rest : List DiffOpMove) (positive : 0 < move.len) :
    ((move.advance rest).map DiffOpMove.len).sum + 1 = ((move :: rest).map DiffOpMove.len).sum := by
  unfold DiffOpMove.advance
  split <;> simp only [List.map_cons, List.sum_cons] <;> omega

theorem advance_positive {move : DiffOpMove} {rest : List DiffOpMove}
    (positive : ∀ other ∈ rest, 0 < other.len) :
    ∀ other ∈ move.advance rest, 0 < other.len := by
  intro other among
  unfold DiffOpMove.advance at among
  split at among
  · exact positive other among
  · rcases List.mem_cons.mp among with rfl | among
    · simp only
      omega
    · exact positive other among

/-- Counting long enough unpacks every move of every run and every addition, in order. -/
theorem unpackLoop_eq (indices removed : List ℕ) (added : List DiffOpAdd)
    (moved : List DiffOpMove) (positive : ∀ move ∈ moved, 0 < move.len)
    (enough : removed.length + added.length + (moved.map DiffOpMove.len).sum ≤ indices.length) :
    unpackLoop indices removed added moved = (moved.flatMap DiffOpMove.each, added) := by
  induction indices generalizing removed added moved with
  | nil =>
    simp only [List.length_nil, Nat.le_zero, Nat.add_eq_zero_iff, List.length_eq_zero_iff] at enough
    obtain ⟨⟨rfl, rfl⟩, none⟩ := enough
    cases moved with
    | nil => rfl
    | cons move rest =>
      have := positive move List.mem_cons_self
      simp only [List.map_cons, List.sum_cons] at none
      omega
  | cons i indices ih =>
    simp only [List.length_cons] at enough
    unfold unpackLoop
    split
    next here =>
      cases removed with
      | nil => simp at here
      | cons at_ removed =>
        simp only [List.length_cons] at enough
        exact ih removed added moved positive (by omega)
    next =>
      cases moved with
      | nil =>
        cases added with
        | nil => rfl
        | cons add adds =>
          simp only [List.length_cons] at enough
          simp only [ih removed adds [] positive (by omega)]
      | cons move moves =>
        have long := positive move List.mem_cons_self
        have rest : ∀ other ∈ move.advance moves, 0 < other.len :=
          advance_positive fun other among => positive other (List.mem_cons_of_mem _ among)
        have fewer := sum_len_advance move moves long
        have first := each_advance move moves long
        cases added with
        | nil =>
          simp only [ih removed [] (move.advance moves) rest (by omega), first]
        | cons add adds =>
          simp only [List.length_cons] at enough
          have shorter : removed.length + (add :: adds).length +
              ((move.advance moves).map DiffOpMove.len).sum ≤ indices.length := by
            simp only [List.length_cons]
            omega
          by_cases reached : add.at_ = i
          · simp only [if_pos reached, ih removed adds (move :: moves) positive (by omega)]
          · simp only [if_neg reached, ih removed (add :: adds) (move.advance moves) rest shorter,
              first]

/-- Whether `m` is next to `last` in both lists. -/
def nextTo (last m : DiffOpMove) : Bool :=
  decide (m.fromIndex = last.fromIndex + 1 ∧ m.toIndex = last.toIndex + 1)

/-- The moves, each with the flag of the first move of its run; `last` is the move before them. -/
def inherit : Option DiffOpMove → List DiffOpMove → List DiffOpMove
  | _, [] => []
  | last, m :: rest =>
      let m := { m with moveInDom := ((last.filter (nextTo · m)).getD m).moveInDom }
      m :: inherit (some m) rest

/-- The last move of a run. -/
def DiffOpMove.last (move : DiffOpMove) : DiffOpMove :=
  ⟨move.fromIndex + (move.len - 1), 1, move.toIndex + (move.len - 1), move.moveInDom⟩

theorem each_longer (move : DiffOpMove) :
    ({ move with len := move.len + 1 } : DiffOpMove).each =
      move.each ++ [⟨move.fromIndex + move.len, 1, move.toIndex + move.len, move.moveInDom⟩] := by
  simp [DiffOpMove.each, List.range_succ]

theorem each_single {move : DiffOpMove} (one : move.len = 1) : move.each = [move] := by
  obtain ⟨fromIndex, len, toIndex, moveInDom⟩ := move
  cases one
  simp [DiffOpMove.each]

theorem nextTo_last {p m : DiffOpMove} (long : 0 < p.len) :
    nextTo p.last m = true ↔
      m.fromIndex = p.fromIndex + p.len ∧ m.toIndex = p.toIndex + p.len := by
  have before : ∀ start, start + (p.len - 1) + 1 = start + p.len := fun start => by omega
  simp [nextTo, DiffOpMove.last, before]

/-- The runs, unpacked, are the moves with the flag of the first of their run. -/
theorem each_groupAdjacentMoves (moves : List DiffOpMove) (single : ∀ m ∈ moves, m.len = 1) :
    (groupAdjacentMoves none moves).flatMap DiffOpMove.each = inherit none moves ∧
      ∀ p : DiffOpMove, 0 < p.len → (groupAdjacentMoves (some p) moves).flatMap DiffOpMove.each =
        p.each ++ inherit (some p.last) moves := by
  induction moves with
  | nil => simp [groupAdjacentMoves, inherit]
  | cons m rest ih =>
    have one := single m List.mem_cons_self
    obtain ⟨-, later⟩ := ih fun other among => single other (List.mem_cons_of_mem _ among)
    have alone : m.last = m := by
      obtain ⟨fromIndex, len, toIndex, moveInDom⟩ := m
      cases one
      simp [DiffOpMove.last]
    constructor
    · simp [groupAdjacentMoves, inherit, later m (by omega), each_single one, alone]
    · intro p long
      unfold groupAdjacentMoves
      split
      next next_ =>
        have adjacent : nextTo p.last m = true := (nextTo_last long).mpr next_
        have same : (⟨p.fromIndex + p.len, 1, p.toIndex + p.len, p.moveInDom⟩ : DiffOpMove) =
            { m with moveInDom := p.moveInDom } := by
          rw [DiffOpMove.mk.injEq]
          exact ⟨next_.1.symm, one.symm, next_.2.symm, rfl⟩
        have last : ({ p with len := p.len + 1 } : DiffOpMove).last =
            { m with moveInDom := p.moveInDom } := by
          rw [← same]
          simp [DiffOpMove.last]
        have flag : p.last.moveInDom = p.moveInDom := rfl
        rw [later _ (Nat.succ_pos _), each_longer, same, last]
        simp [inherit, Option.filter, adjacent, flag]
      next apart =>
        have notAdjacent : nextTo p.last m = false := by
          rw [← Bool.not_eq_true, nextTo_last long]
          exact apart
        rw [List.flatMap_cons, later m (by omega), each_single one, alone]
        simp [inherit, Option.filter, notAdjacent]

theorem groupAdjacentMoves_positive (moves : List DiffOpMove) (single : ∀ m ∈ moves, m.len = 1)
    (last : Option DiffOpMove) (positive : ∀ p ∈ last, 0 < p.len) :
    ∀ run ∈ groupAdjacentMoves last moves, 0 < run.len := by
  induction moves generalizing last with
  | nil =>
    cases last with
    | none => simp [groupAdjacentMoves]
    | some p => simpa [groupAdjacentMoves] using positive p rfl
  | cons m rest ih =>
    have one := single m List.mem_cons_self
    have tail := ih fun other among => single other (List.mem_cons_of_mem _ among)
    have next := tail (some m) (by simp [one])
    cases last with
    | none => exact next
    | some p =>
      have long := positive p rfl
      unfold groupAdjacentMoves
      split
      · exact tail _ (by simp)
      · simpa using ⟨long, next⟩

/-- What the previous diff carries out: the moves with the flag of the first of their run, and the
additions. -/
theorem unpackMoves_group (diff : Diff) {moves : List DiffOpMove}
    (single : ∀ m ∈ moves, m.len = 1) (grouped : diff.moved = groupAdjacentMoves none moves)
    (total : diff.itemsToMove = (diff.moved.map DiffOpMove.len).sum) :
    unpackMoves diff = (inherit none moves, diff.added) := by
  unfold unpackMoves
  rw [unpackLoop_eq, grouped, (each_groupAdjacentMoves moves single).1]
  · rw [grouped]
    exact groupAdjacentMoves_positive moves single none (by simp)
  · rw [List.length_range, total]
    omega

/-! ## The first loop -/

/-- Differences of small counts are compared as in `ℕ`. -/
theorem int32_sub_eq_iff {a b c d : ℕ} (smallA : a < 2 ^ 31) (smallB : b < 2 ^ 31)
    (smallC : c < 2 ^ 31) (smallD : d < 2 ^ 31) :
    Int32.ofNat a - Int32.ofNat b = Int32.ofNat c - Int32.ofNat d ↔ a + d = c + b := by
  rw [← Int32.toBitVec_inj, Int32.toBitVec_sub, Int32.toBitVec_sub]
  simp only [Int32.toBitVec_ofNat']
  constructor
  · intro same
    bv_omega
  · intro same
    bv_omega

/-- A move of the current plan, as the previous diff has it before grouping. -/
def ofMove (op : ListDiff.DiffOpMove) : DiffOpMove :=
  ⟨op.fromIndex, 1, op.toIndex, op.moveInDom⟩

/-- The variables of the current loop that the previous one has too. -/
def ofAcc (acc : ListDiff.DiffAcc) : DiffAcc where
  removed := acc.removed
  moved := acc.moved.map ofMove
  added := acc.added

section Loops

variable [Target] {K : Type*} [DecidableEq K] {old new : FxIndexSet K}

theorem diffStep_ofAcc {index : ℕ} (bound : index < max old.len new.len)
    (small : max old.len new.len < 2 ^ 31 - 1) :
    diffStep old new (ofAcc (accAfter old new index)) index =
      ofAcc (accAfter old new (index + 1)) := by
  rw [accAfter_succ]
  by_cases kept : stays old new index = true
  · have noMove : moveOf old new index = none := if_pos kept
    simp only [diffStep, if_pos (getIndex_of_stays kept), noMove,
      not_removedAt_of_goesTo (goesTo_of_stays kept bound), not_addedAt_of_stays kept]
    simp [ofAcc]
  · have differ : ¬ old.getIndex index = new.getIndex index := fun same => kept (decide_eq_true same)
    have added : (accAfter old new (index + 1)).added.length = additions old new (index + 1) :=
      length_added _
    have removed : (accAfter old new (index + 1)).removed.length = removals old new (index + 1) :=
      length_removed _
    simp only [accAfter_succ] at added removed
    have target : (old.getIndex index).bind new.getIndexOf = goesTo old new index := rfl
    have addedCond : ((new.getIndex index).any fun key => !old.contains key) =
        addedAt old new index := rfl
    have removedCond : ((old.getIndex index).any fun key => !new.contains key) =
        removedAt old new index := (removedAt_eq index).symm
    simp only [diffStep, if_neg differ, addedCond, removedCond, target]
    cases goes : goesTo old new index with
    | none =>
      have noMove : moveOf old new index = none := by simp [moveOf, kept, goes]
      simp [ofAcc, noMove]
    | some toIndex =>
      have toBound := (lt_of_goesTo goes).2
      have := additions_le old new (index + 1)
      have := removals_le old new (index + 1)
      have flag : (Int32.ofNat toIndex - Int32.ofNat index !=
          Int32.ofNat (additions old new (index + 1)) -
            Int32.ofNat (removals old new (index + 1))) =
          (index + additions old new (index + 1) != toIndex + removals old new (index + 1)) := by
        rw [Bool.eq_iff_iff, bne_iff_ne, bne_iff_ne, ne_eq, ne_eq,
          int32_sub_eq_iff (by omega) (by omega) (by omega) (by omega)]
        omega
      simp only [ofAcc, added, removed, flag]
      simp [moveOf, kept, goes, ofMove]

/-- The previous loop plans, before grouping, the moves that the current one plans before it settles
them. -/
theorem foldl_diffStep {index : ℕ} (bound : index ≤ max old.len new.len)
    (small : max old.len new.len < 2 ^ 31 - 1) :
    (List.range index).foldl (diffStep old new) {} = ofAcc (accAfter old new index) := by
  induction index with
  | zero => rfl
  | succ index ih =>
    rw [List.range_succ, List.foldl_append, ih (by omega), List.foldl_cons, List.foldl_nil,
      diffStep_ofAcc (by omega) small]

/-! ## The second loop -/

theorem continuesRun_eq {run op : ListDiff.DiffOpMove} (small : op.fromIndex ≤ usizeMax)
    (small' : op.toIndex ≤ usizeMax) : continuesRun run op = nextTo (ofMove run) (ofMove op) := by
  have next : nextTo (ofMove run) (ofMove op) = true ↔
      op.fromIndex = run.fromIndex + 1 ∧ op.toIndex = run.toIndex + 1 := decide_eq_true_iff
  rw [Bool.eq_iff_iff, next]
  simp only [continuesRun, checkedAdd, Bool.and_eq_true, beq_iff_eq,
    Option.ite_none_right_eq_some, Option.some.injEq]
  omega

/-- The row of the move passes a row that stays. -/
def Passes (old new : FxIndexSet K) (m : DiffOpMove) : Prop :=
  staying old new (min m.fromIndex m.toIndex + 1) < staying old new (max m.fromIndex m.toIndex)

/-- The current diff settles moves with the flag of the first of their run, as the previous one
does, unless a move that this leaves in place passes a row that stays. -/
theorem settle_or_passes {len : ℕ} (small : len ≤ isizeMax) (oldBound : old.len ≤ len)
    (newBound : new.len ≤ len) {moves : List ListDiff.DiffOpMove}
    (previous : Option ListDiff.DiffOpMove) (planned : ∀ op ∈ moves, Planned old new op) :
    (∃ settled,
      settleMoves ((List.range (len + 1)).map (staying old new)) previous moves = .ok settled ∧
      settled.map ofMove = inherit (previous.map ofMove) (moves.map ofMove)) ∨
    ∃ m ∈ inherit (previous.map ofMove) (moves.map ofMove),
      m.moveInDom = false ∧ Passes old new m := by
  induction moves generalizing previous with
  | nil => exact .inl ⟨[], rfl, rfl⟩
  | cons op rest ih =>
    have bounds := (planned op List.mem_cons_self).bounds
    have room := two_isizeMax_le
    have tail := fun settledOp => ih settledOp fun other among =>
      planned other (List.mem_cons_of_mem _ among)
    let flag := (((previous.map ofMove).filter (nextTo · (ofMove op))).getD (ofMove op)).moveInDom
    have unfolded : inherit (previous.map ofMove) ((op :: rest).map ofMove) =
        ofMove { op with moveInDom := flag } ::
          inherit ((some { op with moveInDom := flag }).map ofMove) (rest.map ofMove) := rfl
    rw [unfolded]
    by_cases decided : movesOnPage ((List.range (len + 1)).map (staying old new)) previous op =
        .ok flag
    · rcases tail (some { op with moveInDom := flag }) with ⟨settled, run, same⟩ | ⟨m, among, passes⟩
      · refine .inl ⟨{ op with moveInDom := flag } :: settled, ?_, by simp [same]⟩
        simp [settleMoves, decided, run, bind, Except.bind, pure, Except.pure]
      · exact .inr ⟨m, List.mem_cons_of_mem _ among, passes⟩
    · -- the first of a run, which is shifted by as many places as it moves
      have runs : previous.filter (continuesRun · op) =
          previous.filter fun run => nextTo (ofMove run) (ofMove op) := by
        congr 1
        funext run
        exact continuesRun_eq (by omega) (by omega)
      have mapped : (previous.map ofMove).filter (nextTo · (ofMove op)) =
          (previous.filter fun run => nextTo (ofMove run) (ofMove op)).map ofMove := by
        cases previous with
        | none => rfl
        | some run =>
          simp only [Option.filter, Option.map_some]
          split <;> rfl
      cases continued : previous.filter fun run => nextTo (ofMove run) (ofMove op) with
      | some run =>
        have inherited : flag = run.moveInDom := by simp only [flag, mapped, continued]; rfl
        refine absurd ?_ decided
        simp only [movesOnPage, runs, continued, inherited]
      | none =>
        have own : flag = op.moveInDom := by simp only [flag, mapped, continued]; rfl
        cases inDom : op.moveInDom with
        | true =>
          refine absurd ?_ decided
          simp [movesOnPage, runs, continued, own, inDom]
        | false =>
          refine .inr ⟨_, List.mem_cons_self, by simp [ofMove, own, inDom], ?_⟩
          have asked : movesOnPage ((List.range (len + 1)).map (staying old new)) previous op =
              .ok (decide (staying old new (max op.fromIndex op.toIndex) >
                staying old new (min op.fromIndex op.toIndex + 1))) := by
            simp only [movesOnPage, runs, continued, inDom, Bool.false_eq_true, if_false]
            exact passesARowThatStays_eq small (by omega) (by omega)
          by_contra stands
          refine decided ?_
          rw [asked, own, inDom]
          simpa [Passes, ofMove] using stands

/-! ## The plans -/

/-- The previous plan does what the current one does. -/
structure SamePlan (plan : ListDiff.Diff) (prev : Diff) : Prop where
  removed : prev.removed = plan.removed
  added : prev.added = plan.added
  unpacked : unpackMoves prev = (plan.moved.map ofMove, plan.added)
  clear : prev.clear = plan.clear

/-- The variables of the first loop, run to its end. -/
def accOf (old new : FxIndexSet K) : ListDiff.DiffAcc := accAfter old new (max old.len new.len)

theorem diff_eq (oldSome : old.entries ≠ []) (newSome : new.entries ≠ [])
    (small : max old.len new.len < 2 ^ 31 - 1) :
    (diff old new).removed = (accOf old new).removed ∧
      (diff old new).added = (accOf old new).added ∧ (diff old new).clear = false ∧
      unpackMoves (diff old new) =
        (inherit none ((accOf old new).moved.map ofMove), (accOf old new).added) := by
  have planned : diff old new =
      let moved := groupAdjacentMoves none ((accOf old new).moved.map ofMove)
      { removed := (accOf old new).removed, moved, itemsToMove := (moved.map DiffOpMove.len).sum,
        added := (accOf old new).added } := by
    have oldFull : old.isEmpty = false := by simpa [FxIndexSet.isEmpty] using oldSome
    have newFull : new.isEmpty = false := by simpa [FxIndexSet.isEmpty] using newSome
    simp only [diff, oldFull, newFull, foldl_diffStep (le_refl _) small, Bool.false_eq_true,
      if_false, Bool.and_self]
    rfl
  rw [planned]
  refine ⟨rfl, rfl, rfl, unpackMoves_group _ ?_ rfl rfl⟩
  intro m among
  obtain ⟨op, -, rfl⟩ := List.mem_map.mp among
  rfl

/-- The two plans do the same, unless the previous one leaves a row in place that passes a row that
stays. -/
theorem samePlan_or_passes (small : max old.len new.len < 2 ^ 31 - 1) :
    (∃ plan, ListDiff.diff old new = .ok plan ∧ SamePlan plan (diff old new)) ∨
      old.entries ≠ [] ∧ new.entries ≠ [] ∧
        ∃ m ∈ inherit none ((accOf old new).moved.map ofMove),
          m.moveInDom = false ∧ Passes old new m := by
  by_cases newEmpty : new.entries = []
  · have newNone : new.isEmpty = true := by simp [FxIndexSet.isEmpty, newEmpty]
    refine .inl ⟨_, diff_clear newEmpty, ?_⟩
    cases oldEmpty : old.isEmpty <;> simp only [diff, newNone, oldEmpty] <;> constructor <;> rfl
  · have newFull : new.isEmpty = false := by simpa [FxIndexSet.isEmpty] using newEmpty
    by_cases oldEmpty : old.entries = []
    · have oldNone : old.isEmpty = true := by simp [FxIndexSet.isEmpty, oldEmpty]
      refine .inl ⟨{ added := (List.range new.len).map fun index => ⟨index, .append⟩ },
        by simp [ListDiff.diff, newFull, oldNone], ?_⟩
      have planned : diff old new =
          { added := (List.range new.len).map fun index => ⟨index, .append⟩ } := by
        simp [diff, newFull, oldNone]
      rw [planned]
      exact ⟨rfl, rfl, unpackMoves_group _ (fun _ none => absurd none List.not_mem_nil) rfl rfl, rfl⟩
    · have oldFull : old.isEmpty = false := by simpa [FxIndexSet.isEmpty] using oldEmpty
      have bound : max old.len new.len ≤ isizeMax := max_le old.length_le new.length_le
      rcases settle_or_passes bound (le_max_left _ _) (le_max_right _ _) none
        (fun _ => @planned_accAfter _ _ _ old new (max old.len new.len) _) with
        ⟨settled, run, same⟩ | passes
      · obtain ⟨removed, added, clear, unpacked⟩ := diff_eq oldEmpty newEmpty small
        refine .inl ⟨{ removed := (accOf old new).removed, moved := settled,
                       added := (accOf old new).added }, ?_,
          ⟨removed, added, unpacked.trans (by rw [same]; rfl), clear⟩⟩
        simp only [ListDiff.diff, newFull, oldFull, foldlM_diffStep (le_refl _), staysBefore_accAfter, run, bind,
          Except.bind, pure, Except.pure, Bool.false_eq_true, if_false]
        rfl
      · exact .inr ⟨oldEmpty, newEmpty, passes⟩

omit [Target] [DecidableEq K] in
theorem indices_inherit (last : Option DiffOpMove) (moves : List DiffOpMove) :
    (inherit last moves).map (fun m => (m.fromIndex, m.toIndex)) =
      moves.map fun m => (m.fromIndex, m.toIndex) := by
  induction moves generalizing last with
  | nil => rfl
  | cons m rest ih => simp [inherit, ih]

end Loops

end Halyard.ListDiff.Previous
