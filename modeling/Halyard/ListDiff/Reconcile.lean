import Halyard.ListDiff.Apply

/-!
# A keyed list after an update

* `settled_shows`: once the rows that stand are in place, the page shows them in the order of
  their places, because they never cross.
* `applyMoves_ok`: a plan that fits is carried out in full.
* `reconcile_shows_new_list`: after `reconcile` the page shows the rows of the new keys, in order;
  kept keys keep their rows, and the other rows are new.
-/

namespace Halyard.ListDiff

open Placement

section Update

variable {Page Item Row : Type} [DecidableEq Row]
variable [Target] {K : Type*} [DecidableEq K] {old new : FxIndexSet K}
variable {ops : ListOps Page Item Row} {oldRows : List Row} {plan : Diff}

omit [DecidableEq Row] [Target] in
theorem getElem?_inj {i j : ℕ} {row : Row} (nodup : oldRows.Nodup)
    (left : oldRows[i]? = some row) (right : oldRows[j]? = some row) : i = j := by
  rcases List.getElem?_eq_some_iff.1 left with ⟨boundI, valueI⟩
  rcases List.getElem?_eq_some_iff.1 right with ⟨boundJ, valueJ⟩
  exact (List.Nodup.getElem_inj_iff nodup).1 (valueI.trans valueJ.symm)

/-! ## The rows after the removals -/

/-- The rows that stay at their index. -/
def Staying (old new : FxIndexSet K) (i t : ℕ) : Prop := i = t ∧ goesTo old new i = some i

theorem Diff.Fits.mem_sources (fits : plan.Fits old new) {i : ℕ} :
    i ∈ plan.moved.map DiffOpMove.fromIndex ↔ ∃ j, goesTo old new i = some j ∧ i ≠ j := by
  constructor
  · intro member
    rcases List.mem_map.1 member with ⟨op, inMoved, rfl⟩
    exact ⟨op.toIndex, (fits.mem_moved _ _).1 (List.mem_map.2 ⟨op, inMoved, rfl⟩)⟩
  · intro moved
    rcases moved with ⟨j, moves⟩
    rcases List.mem_map.1 ((fits.mem_moved i j).2 moves) with ⟨op, inMoved, same⟩
    cases same
    exact List.mem_map_of_mem inMoved

theorem Diff.Fits.goes (fits : plan.Fits old new) {op : DiffOpMove} (member : op ∈ plan.moved) :
    goesTo old new op.fromIndex = some op.toIndex ∧ op.fromIndex ≠ op.toIndex :=
  (fits.mem_moved _ _).1 (List.mem_map.2 ⟨op, member, rfl⟩)

theorem Diff.Fits.not_removed (fits : plan.Fits old new) {i j : ℕ}
    (goes : goesTo old new i = some j) : i ∉ plan.removed := by
  intro member
  rw [fits.mem_removed, not_removedAt_of_goesTo goes] at member
  cases member

omit [DecidableEq Row] in
/-- After the removals and with the moved rows taken out, the rows that stay are in place. -/
theorem occupied_staying (fits : plan.Fits old new) (sources : oldRows.length = old.len)
    (added : ℕ) :
    Occupied oldRows (Staying old new)
      (without (plan.moved.map DiffOpMove.fromIndex) (without plan.removed (oldRows.map some)) ++
        List.replicate added none) := by
  have value : ∀ t row,
      (without (plan.moved.map DiffOpMove.fromIndex) (without plan.removed (oldRows.map some)) ++
        List.replicate added none)[t]? = some (some row) ↔
      t ∉ plan.moved.map DiffOpMove.fromIndex ∧ t ∉ plan.removed ∧ oldRows[t]? = some row := by
    intro t row
    by_cases bound : t < oldRows.length
    · have inside : t < (without (plan.moved.map DiffOpMove.fromIndex)
          (without plan.removed (oldRows.map some))).length := by simpa [length_without] using bound
      rw [List.getElem?_append_left inside, getElem?_without, getElem?_without]
      split <;> split <;> simp_all
    · have absent : oldRows[t]? = none := List.getElem?_eq_none (by omega)
      rw [List.getElem?_append_right (by simpa [length_without] using bound),
        List.getElem?_replicate]
      split <;> simp [absent]
  constructor
  case sound =>
    intro t row here
    rcases (value t row).1 here with ⟨notMoved, notRemoved, found⟩
    refine ⟨t, ⟨rfl, ?_⟩, found⟩
    cases goes : goesTo old new t with
    | none =>
        have inOld : t < old.len := sources ▸ (List.getElem?_eq_some_iff.1 found).1
        have removed : removedAt old new t = true := by
          have : old.getIndex t = some old.entries[t] := List.getElem?_eq_getElem inOld
          simp [removedAt, goes, this]
        exact (notRemoved ((fits.mem_removed t).2 removed)).elim
    | some j =>
        by_contra differs
        exact notMoved (fits.mem_sources.2 ⟨j, goes, fun same => differs (same ▸ rfl)⟩)
  case complete =>
    intro i t row staying found
    rcases staying with ⟨rfl, stays⟩
    refine (value i row).2 ⟨fun moved => ?_, fits.not_removed stays, found⟩
    rcases fits.mem_sources.1 moved with ⟨j, goes, ne⟩
    exact ne (Option.some.inj (stays.symm.trans goes))

theorem Diff.Fits.not_staying (fits : plan.Fits old new) {op : DiffOpMove}
    (member : op ∈ plan.moved) (t : ℕ) : ¬ Staying old new op.fromIndex t := by
  intro staying
  rcases staying with ⟨rfl, stays⟩
  exact (fits.goes member).2 (Option.some.inj (stays.symm.trans (fits.goes member).1))

theorem placeable_staying (fits : plan.Fits old new) :
    Placeable old new (Staying old new) false plan.moved where
  staged := by
    intro i t staying
    rcases staying with ⟨rfl, stays⟩
    exact stays
  goes := fun op member => (fits.goes member).1
  nodup := fits.moved_nodup
  fresh := fun op member _ => fits.not_staying member

/-! ## The rows that stand -/

theorem Diff.Fits.stands (fits : plan.Fits old new) {i t : ℕ}
    (moved : Moved (Staying old new) false plan.moved i t) : Stands old new i t := by
  rcases moved with ⟨rfl, stays⟩ | ⟨op, member, flag, rfl, rfl⟩
  · exact ⟨stays, Or.inl rfl⟩
  · exact ⟨(fits.goes member).1, Or.inr (fits.settled op member flag)⟩

/-- The rows in place stand on the page in the order of their places. -/
theorem settled_shows (fits : plan.Fits old new) {rows : List (Option Row)} {shown : List Row}
    (nodup : oldRows.Nodup)
    (occupied : Occupied oldRows (Moved (Staying old new) false plan.moved) rows)
    (left : shown.Sublist oldRows)
    (kept : ∀ i t row, goesTo old new i = some t → oldRows[i]? = some row → row ∈ shown) :
    Shows shown rows := by
  have source : ∀ {t row}, rows[t]? = some (some row) →
      ∃ i, Stands old new i t ∧ oldRows[i]? = some row := by
    intro t row here
    rcases occupied.sound t row here with ⟨i, moved, found⟩
    exact ⟨i, fits.stands moved, found⟩
  have inOld : rows.reduceOption.Sublist oldRows := by
    apply sublist_of_pairwise_idxOf
    · intro row member
      rcases mem_reduceOption_of_getElem?.1 member with ⟨t, here⟩
      rcases source here with ⟨i, -, found⟩
      exact List.mem_of_getElem? found
    · have index : ∀ {i row}, oldRows[i]? = some row → oldRows.idxOf row = i := by
        intro i row found
        rcases List.getElem?_eq_some_iff.1 found with ⟨bound, rfl⟩
        exact nodup.idxOf_getElem i bound
      rw [List.reduceOption, List.pairwise_filterMap, List.pairwise_iff_getElem]
      intro t t' bound bound' less row here row' here'
      have here : rows[t]? = some (some row) := by simpa [List.getElem?_eq_getElem bound] using here
      have here' : rows[t']? = some (some row') := by
        simpa [List.getElem?_eq_getElem bound'] using here'
      rcases source here with ⟨i, stands, found⟩
      rcases source here' with ⟨i', stands', found'⟩
      rw [index found, index found']
      rcases Nat.lt_trichotomy i i' with before | rfl | after
      · exact before
      · have := Option.some.inj (stands.1.symm.trans stands'.1)
        omega
      · have := stands'.lt_of_lt stands after
        omega
  apply sublist_of_subset nodup inOld left
  intro row member
  rcases mem_reduceOption_of_getElem?.1 member with ⟨t, here⟩
  rcases source here with ⟨i, stands, found⟩
  exact kept i t row stands.1 found

theorem placeable_moved (fits : plan.Fits old new) :
    Placeable old new (Moved (Staying old new) false plan.moved) true plan.moved where
  staged := fun i t moved => (fits.stands moved).1
  goes := fun op member => (fits.goes member).1
  nodup := fits.moved_nodup
  fresh := by
    intro op member flag t moved
    rcases moved with staying | ⟨other, inMoved, inPlace, same, -⟩
    · exact fits.not_staying member t staying
    · have : other = op := List.inj_on_of_nodup_map fits.moved_nodup inMoved member same
      rw [this, flag] at inPlace
      cases inPlace

/-- After both loops every kept row is in its place. -/
theorem moved_moved (fits : plan.Fits old new) (i t : ℕ) :
    Moved (Moved (Staying old new) false plan.moved) true plan.moved i t ↔
      goesTo old new i = some t := by
  constructor
  · intro moved
    rcases moved with moved | ⟨op, member, -, rfl, rfl⟩
    · exact (fits.stands moved).1
    · exact (fits.goes member).1
  · intro goes
    by_cases same : i = t
    · subst same
      exact Or.inl (Or.inl ⟨rfl, goes⟩)
    · rcases List.mem_map.1 ((fits.mem_moved i t).2 ⟨goes, same⟩) with ⟨op, member, indices⟩
      cases indices
      cases flag : op.moveInDom with
      | false => exact Or.inl (Or.inr ⟨op, member, flag, rfl, rfl⟩)
      | true => exact Or.inr ⟨op, member, flag, rfl, rfl⟩

/-! ## The check before the first new row -/

omit [DecidableEq Row] in
/-- Once every kept row is in place, the free places are those of the new keys. -/
theorem free_iff (sources : oldRows.length = old.len) {rows : List (Option Row)} {t : ℕ}
    (occupied : Occupied oldRows (fun i t => goesTo old new i = some t) rows)
    (bound : t < new.len) (long : new.len ≤ rows.length) :
    rows[t]? = some none ↔ addedAt old new t = true := by
  have key : new.getIndex t = some new.entries[t] := List.getElem?_eq_getElem bound
  have here : rows[t]? = some rows[t] := List.getElem?_eq_getElem (by omega)
  by_cases kept : new.entries[t] ∈ old.entries
  · rcases List.mem_iff_getElem?.1 kept with ⟨i, found⟩
    have goes : goesTo old new i = some t := goesTo_eq_some.2 ⟨_, found, key⟩
    have inOld : i < oldRows.length := sources ▸ (List.getElem?_eq_some_iff.1 found).1
    have there := occupied.complete i t _ goes (List.getElem?_eq_getElem inOld)
    simp [addedAt, key, FxIndexSet.contains, kept, there]
  · have free : rows[t]? = some none := by
      refine occupied.free (by omega) fun i goes => ?_
      rcases goesTo_eq_some.1 goes with ⟨other, found, same⟩
      cases Option.some.inj (key.symm.trans same)
      exact kept (List.mem_of_getElem? found)
    simp [addedAt, key, FxIndexSet.contains, kept, free]

omit [Target] in
theorem newRowsFit_ok {R I : Type*} {places : List (Option R)} {items : List (Option I)}
    {previous : Option ℕ} {adds : List DiffOpAdd}
    (ascending : (adds.map DiffOpAdd.at_).Pairwise (· < ·))
    (after : ∀ p ∈ previous, ∀ add ∈ adds, p < add.at_)
    (free : ∀ add ∈ adds, places[add.at_]? = some none)
    (there : ∀ add ∈ adds, ∃ item, items[add.at_]? = some (some item)) :
    newRowsFit places items previous adds = true := by
  induction adds generalizing previous with
  | nil => rfl
  | cons add rest ih =>
      rcases List.pairwise_cons.1 ascending with ⟨later, ascending⟩
      rcases there add List.mem_cons_self with ⟨item, itemThere⟩
      have order : (previous.all fun p => decide (add.at_ > p)) = true := by
        cases previous with
        | none => rfl
        | some p => simpa using after p rfl add List.mem_cons_self
      have tail := @ih (some add.at_) ascending
        (fun p same op member => by
          cases same
          exact later _ (List.mem_map_of_mem member))
        (fun op member => free op (List.mem_cons_of_mem _ member))
        (fun op member => there op (List.mem_cons_of_mem _ member))
      simp [newRowsFit, order, free add List.mem_cons_self, itemThere, tail]

omit [DecidableEq Row] in
theorem checkNewRows_ok (fits : plan.Fits old new) (sources : oldRows.length = old.len)
    {rows : List (Option Row)} {items : List (Option Item)}
    (occupied : Occupied oldRows (fun i t => goesTo old new i = some t) rows)
    (long : new.len ≤ rows.length)
    (there : ∀ t, t < new.len → ∃ item, items[t]? = some (some item)) :
    checkNewRows plan rows items new.len = .ok () := by
  have inPlace : ∀ add ∈ plan.added, addedAt old new add.at_ = true := fun add member =>
    (fits.mem_added _).1 (List.mem_map_of_mem member)
  have pastEnd : (rows.drop new.len).any Option.isSome = false := by
    rw [List.any_eq_false]
    intro slot member filled
    rcases List.mem_iff_getElem?.1 member with ⟨t, here⟩
    rcases Option.isSome_iff_exists.1 filled with ⟨row, rfl⟩
    rw [List.getElem?_drop] at here
    rcases occupied.sound _ _ here with ⟨i, goes, -⟩
    have := (lt_of_goesTo goes).2
    omega
  have count : (rows.take new.len).countP Option.isNone = plan.added.length := by
    rw [fits.length_added (le_refl _), ← countP_range_getElem? _ (rows.take new.len)
      (by simp : (rows.take new.len).length ≤ new.len)]
    refine List.countP_congr fun t member => ?_
    have bound : t < new.len := List.mem_range.1 member
    have inside : t < rows.length := by omega
    have free := free_iff sources occupied bound long
    rw [← free, List.getElem?_take_of_lt bound, List.getElem?_eq_getElem inside]
    cases rows[t] <;> simp
  have fit : newRowsFit (rows.take new.len) items none plan.added = true := by
    apply newRowsFit_ok fits.added_ascending (by simp)
    · intro add member
      have added := inPlace add member
      rw [List.getElem?_take_of_lt (lt_of_addedAt added)]
      exact (free_iff sources occupied (lt_of_addedAt added) long).2 added
    · exact fun add member => there _ (lt_of_addedAt (inPlace add member))
  simp [checkNewRows, Nat.not_lt.2 long, pastEnd, count, fit]

/-! ## The update -/

variable (view : PageView ops)

/-- What an update of `oldRows` on `page` leaves: `newRows` are on the page and in `rows`, with
the same row for a kept key and a row built in this update for a new one. -/
structure Updated (old new : FxIndexSet K) (oldRows : List Row) (page : Page)
    (items : List (Option Item)) (rows : List (Option Row)) (after : Page)
    (newRows : List Row) : Prop where
  rows_eq : rows = newRows.map some
  shown_eq : view.shown after = newRows
  length_eq : newRows.length = new.len
  nodup : newRows.Nodup
  kept : ∀ i j key, old.getIndex i = some key → new.getIndex j = some key →
    newRows[j]? = oldRows[i]?
  added : ∀ j key, new.getIndex j = some key → key ∉ old.entries →
    ∃ row, newRows[j]? = some row ∧ row ∉ view.built page ∧ BuiltAt view page items j row

omit [Target] in
theorem BuiltAt.not_mem {page : Page} {items : List (Option Item)} {index : ℕ} {row : Row}
    (builtAt : BuiltAt view page items index row) : row ∉ view.built page := by
  rcases builtAt with ⟨page', item, sub, -, rfl⟩
  exact fun member => view.fresh page' index item (sub member)

omit [DecidableEq Row] [Target] in
theorem map_some_reduceOption {rows : List (Option Row)}
    (filled : ∀ slot ∈ rows, slot.isSome) : rows.reduceOption.map some = rows := by
  induction rows with
  | nil => rfl
  | cons slot rows ih =>
      have tail := ih fun slot member => filled slot (List.mem_cons_of_mem _ member)
      rcases Option.isSome_iff_exists.1 (filled slot List.mem_cons_self) with ⟨row, rfl⟩
      simp [tail]

omit [DecidableEq Row] in
theorem makeRoom_ok {added : ℕ} {s : ApplyState Page Item Row}
    (room : s.rows.length + added ≤ usizeMax) :
    makeRoom added s = .ok () { s with rows := s.rows ++ List.replicate added none } := by
  simp only [makeRoom, checkedAdd_eq_some room]

/-- The state once the rows to remove and to move are taken out and the list has its room. -/
structure TakenOut (old new : FxIndexSet K) (plan : Diff) (oldRows : List Row)
    (before s : ApplyState Page Item Row) : Prop where
  items : s.items = before.items
  built : view.built s.page = view.built before.page
  length : s.rows.length = old.len + plan.added.length
  occupied : Occupied oldRows (Staying old new) s.rows
  moving : s.moving = plan.moved.map fun op => oldRows[op.fromIndex]?
  left : (view.shown s.page).Sublist oldRows
  kept : ∀ row, row ∈ view.shown s.page ↔
    ∃ i t, goesTo old new i = some t ∧ oldRows[i]? = some row

theorem takeOut_ok (fits : plan.Fits old new) (sources : oldRows.length = old.len)
    (nodup : oldRows.Nodup) {s : ApplyState Page Item Row} (rows : s.rows = oldRows.map some)
    (moving : s.moving = []) (shown : view.shown s.page = oldRows) :
    ∃ s₁ s₂ s₃, removeRows ops plan.removed s = .ok () s₁ ∧
      takeMoving plan.moved s₁ = .ok () s₂ ∧ makeRoom plan.added.length s₂ = .ok () s₃ ∧
      TakenOut view old new plan oldRows s s₃ := by
  have value : ∀ (i : ℕ) row, s.rows[i]? = some (some row) ↔ oldRows[i]? = some row := by
    intro i row
    rw [rows, List.getElem?_map]
    cases oldRows[i]? <;> simp
  have inOld : ∀ i : ℕ, i < old.len → ∃ row, oldRows[i]? = some row := fun i bound =>
    ⟨_, List.getElem?_eq_getElem (by omega)⟩
  -- the rows to remove
  have removable : ∀ i ∈ plan.removed, ∃ row, s.rows[i]? = some (some row) := by
    intro i member
    rcases inOld i (lt_of_removedAt ((fits.mem_removed i).1 member)) with ⟨row, found⟩
    exact ⟨row, (value i row).2 found⟩
  rcases removeRows_ok view fits.removed_nodup removable (shown ▸ nodup) with
    ⟨page, removeRun, left, leftMember, built⟩
  -- the rows to move
  have movable : ∀ op ∈ plan.moved,
      (without plan.removed s.rows)[op.fromIndex]? = some oldRows[op.fromIndex]? := by
    intro op member
    have goes := (fits.goes member).1
    rcases inOld op.fromIndex (lt_of_goesTo goes).1 with ⟨row, found⟩
    rw [getElem?_without, if_neg (fits.not_removed goes), (value _ row).2 found, found]
  have takeRun := @takeMoving_ok _ _ _ plan.moved
    { s with rows := without plan.removed s.rows, page } fits.moved_nodup (by
      intro op member
      rcases inOld op.fromIndex (lt_of_goesTo (fits.goes member).1).1 with ⟨row, found⟩
      exact ⟨row, by rw [movable op member, found]⟩)
  -- the room for the new rows
  have room : (without (plan.moved.map DiffOpMove.fromIndex)
      (without plan.removed s.rows)).length + plan.added.length ≤ usizeMax := by
    have := fits.length_eq
    have := old.length_le
    have := new.length_le
    have := two_isizeMax_le
    simp only [length_without, rows, List.length_map, FxIndexSet.len] at *
    omega
  refine ⟨_, _, _, removeRun, takeRun, makeRoom_ok room, ?_⟩
  constructor
  case items => rfl
  case built => exact built
  case length => simp [length_without, rows, sources]
  case occupied => exact rows ▸ occupied_staying fits sources plan.added.length
  case moving =>
    simp only [moving, List.nil_append]
    refine List.map_congr_left fun op member => ?_
    rw [movable op member]
    rfl
  case left => exact shown ▸ left
  case kept =>
    intro row
    rw [leftMember row, shown]
    constructor
    · intro member
      rcases member with ⟨inRows, notRemoved⟩
      rcases List.mem_iff_getElem?.1 inRows with ⟨i, found⟩
      have bound : i < old.len := sources ▸ (List.getElem?_eq_some_iff.1 found).1
      cases goes : goesTo old new i with
      | some t => exact ⟨i, t, goes, found⟩
      | none =>
          have removed : removedAt old new i = true := by
            have : old.getIndex i = some old.entries[i] := List.getElem?_eq_getElem bound
            simp [removedAt, goes, this]
          exact (notRemoved i ((fits.mem_removed i).2 removed) ((value i row).2 found)).elim
    · intro member
      rcases member with ⟨i, t, goes, found⟩
      refine ⟨List.mem_of_getElem? found, fun j member same => ?_⟩
      have : i = j := getElem?_inj nodup found ((value j row).1 same)
      exact fits.not_removed goes (this ▸ member)

/-- The state once every kept row is in its place. -/
structure Arranged (old new : FxIndexSet K) (oldRows : List Row)
    (before s : ApplyState Page Item Row) : Prop where
  items : s.items = before.items
  built : view.built s.page = view.built before.page
  length : new.len ≤ s.rows.length
  occupied : Occupied oldRows (fun i t => goesTo old new i = some t) s.rows
  nodup : (view.shown s.page).Nodup
  shows : Shows (view.shown s.page) s.rows
  left : ∀ row ∈ view.shown s.page, row ∈ oldRows
  covered : Covered (view.shown s.page) s.rows

theorem arrange_ok (fits : plan.Fits old new) (sources : oldRows.length = old.len)
    (nodup : oldRows.Nodup) {before s : ApplyState Page Item Row}
    (taken : TakenOut view old new plan oldRows before s) :
    ∃ s₁ s₂, settleInPlace ops new.len 0 plan.moved s = .ok () s₁ ∧
      moveOnPage ops new.len 0 plan.moved s₁ = .ok () s₂ ∧
      Arranged view old new oldRows before s₂ := by
  have long : new.len ≤ s.rows.length := by
    have := fits.length_eq
    have := taken.length
    omega
  rcases settleInPlace_ok view (placeable_staying fits) sources long taken.occupied
    (by simpa using taken.moving : s.moving = [] ++ _) with
    ⟨s₁, settleRun, items₁, length₁, occupied₁, moving₁, shown₁, built₁⟩
  have pageNodup : (view.shown s₁.page).Nodup := shown₁ ▸ taken.left.nodup nodup
  have shows : Shows (view.shown s₁.page) s₁.rows :=
    settled_shows fits nodup occupied₁ (shown₁ ▸ taken.left)
      fun i t row goes found => shown₁ ▸ (taken.kept row).2 ⟨i, t, goes, found⟩
  rcases moveOnPage_ok view (placeable_moved fits) sources nodup (length₁ ▸ long) occupied₁ moving₁
    pageNodup shows
    (fun op member row found =>
      shown₁ ▸ (taken.kept row).2 ⟨_, _, (fits.goes member).1, found⟩) with
    ⟨s₂, moveRun, items₂, length₂, occupied₂, nodup₂, shows₂, members₂, built₂⟩
  refine ⟨s₁, s₂, settleRun, moveRun, ?_⟩
  have kept : ∀ row, row ∈ view.shown s₂.page ↔
      ∃ i t, goesTo old new i = some t ∧ oldRows[i]? = some row := fun row => by
    rw [members₂, shown₁, taken.kept]
  have inPlace := occupied₂.congr (moved_moved fits)
  constructor
  case items => rw [items₂, items₁, taken.items]
  case built => rw [built₂, built₁, taken.built]
  case length => rw [length₂, length₁]; exact long
  case occupied => exact inPlace
  case nodup => exact nodup₂
  case shows => exact shows₂
  case left =>
    intro row member
    rcases (kept row).1 member with ⟨i, t, -, found⟩
    exact List.mem_of_getElem? found
  case covered =>
    intro row member
    rcases (kept row).1 member with ⟨i, t, goes, found⟩
    exact mem_reduceOption_of_getElem?.2 ⟨t, inPlace.complete i t row goes found⟩

omit [DecidableEq Row] [Target] in
theorem bind_of_ok {α β : Type} {step : ApplyM Page Item Row α} {next : α → ApplyM Page Item Row β}
    {s s' : ApplyState Page Item Row} {value : α} (run : step s = .ok value s') :
    (step >>= next) s = next value s' := by
  simp [bind, EStateM.bind, run]

theorem applyMoves_ok (fits : plan.Fits old new) (sources : oldRows.length = old.len)
    (nodup : oldRows.Nodup) {s : ApplyState Page Item Row} (rows : s.rows = oldRows.map some)
    (moving : s.moving = []) (shown : view.shown s.page = oldRows)
    (known : ∀ row ∈ oldRows, row ∈ view.built s.page)
    (there : ∀ t, t < new.len → ∃ item, s.items[t]? = some (some item)) :
    ∃ s', applyMoves ops plan new.len s = .ok () s' ∧
      ∃ newRows, Updated view old new oldRows s.page s.items s'.rows s'.page newRows ∧
        ∀ row ∈ newRows, row ∈ view.built s'.page := by
  rcases takeOut_ok view fits sources nodup rows moving shown with
    ⟨s₁, s₂, s₃, removeRun, takeRun, roomRun, taken⟩
  rcases arrange_ok view fits sources nodup taken with ⟨s₄, s₅, settleRun, moveRun, arranged⟩
  have checkRun : checkPlaces plan new.len s₅ = .ok () s₅ := by
    simp only [checkPlaces, checkNewRows_ok fits sources arranged.occupied arranged.length
      (arranged.items ▸ there)]
  have isAdded : ∀ add ∈ plan.added, addedAt old new add.at_ = true := fun add member =>
    (fits.mem_added _).1 (List.mem_map_of_mem member)
  have free : ∀ add ∈ plan.added, s₅.rows[add.at_]? = some none := fun add member =>
    (free_iff sources arranged.occupied (lt_of_addedAt (isAdded add member)) arranged.length).2
      (isAdded add member)
  have append : ∀ add ∈ plan.added, add.mode = .append →
      ∀ t row, add.at_ < t → s₅.rows[t]? ≠ some (some row) := by
    intro add member mode t row _ here
    rcases arranged.occupied.sound t row here with ⟨i, goes, -⟩
    have := (lt_of_goesTo goes).1
    simp [FxIndexSet.len, fits.append add member mode] at this
  rcases addRows_ok view fits.added_ascending
    (fun add member => lt_of_addedAt (isAdded add member)) free
    (fun add member => arranged.items ▸ there _ (lt_of_addedAt (isAdded add member))) append
    arranged.nodup arranged.shows
    (fun row member => arranged.built ▸ known row (arranged.left row member)) arranged.covered with
    ⟨s₆, addRun, length, frame, placed, nodup', shows, covered, known'⟩
  have run : applyMoves ops plan new.len s = .ok () { s₆ with rows := s₆.rows.take new.len } := by
    rw [applyMoves, bind_of_ok removeRun, bind_of_ok takeRun, bind_of_ok roomRun,
      bind_of_ok settleRun, bind_of_ok moveRun, bind_of_ok checkRun, bind_of_ok addRun]
    rfl
  -- what is in each place
  have keptAt : ∀ i t row, goesTo old new i = some t → oldRows[i]? = some row →
      s₆.rows[t]? = some (some row) := by
    intro i t row goes found
    have here := arranged.occupied.complete i t row goes found
    rw [frame t, here]
    intro add member same
    rw [← same, free add member] at here
    cases here
  have addedIn : ∀ t, addedAt old new t = true → ∃ row, s₆.rows[t]? = some (some row) ∧
      BuiltAt view s.page s.items t row := by
    intro t added
    rcases List.mem_map.1 ((fits.mem_added t).2 added) with ⟨add, member, rfl⟩
    rcases placed add member with ⟨row, here, page', item, sub, found, made⟩
    exact ⟨row, here, page', item, arranged.built ▸ sub, arranged.items ▸ found, made⟩
  have filled : ∀ t, t < new.len → ∃ row, s₆.rows[t]? = some (some row) := by
    intro t bound
    have key : new.getIndex t = some new.entries[t] := List.getElem?_eq_getElem bound
    by_cases kept : new.entries[t] ∈ old.entries
    · rcases List.mem_iff_getElem?.1 kept with ⟨i, found⟩
      have inOld : i < oldRows.length := sources ▸ (List.getElem?_eq_some_iff.1 found).1
      exact ⟨_, keptAt i t _ (goesTo_eq_some.2 ⟨_, found, key⟩) (List.getElem?_eq_getElem inOld)⟩
    · rcases addedIn t (by simp [addedAt, key, FxIndexSet.contains, kept]) with ⟨row, here, -⟩
      exact ⟨row, here⟩
  have pastEnd : ∀ t row, new.len ≤ t → s₆.rows[t]? ≠ some (some row) := by
    intro t row past here
    rw [frame t fun add member => by have := lt_of_addedAt (isAdded add member); omega] at here
    rcases arranged.occupied.sound t row here with ⟨i, goes, -⟩
    have := (lt_of_goesTo goes).2
    omega
  have long : new.len ≤ s₆.rows.length := length ▸ arranged.length
  have rowsEq : ((s₆.rows.take new.len).reduceOption).map some = s₆.rows.take new.len := by
    refine map_some_reduceOption fun slot member => ?_
    rcases List.mem_iff_getElem?.1 member with ⟨t, here⟩
    have bound : t < new.len := by
      have := (List.getElem?_eq_some_iff.1 here).1
      simp only [List.length_take] at this
      omega
    rcases filled t bound with ⟨row, value⟩
    rw [List.getElem?_take_of_lt bound, value] at here
    cases here
    rfl
  have sameSlots : s₆.rows.reduceOption = (s₆.rows.take new.len).reduceOption := by
    conv_lhs => rw [← List.take_append_drop new.len s₆.rows, List.reduceOption_append]
    have none : (s₆.rows.drop new.len).reduceOption = [] := by
      rw [List.eq_nil_iff_forall_not_mem]
      intro row member
      rcases mem_reduceOption_of_getElem?.1 member with ⟨t, here⟩
      rw [List.getElem?_drop] at here
      exact pastEnd _ row (by omega) here
    rw [none, List.append_nil]
  have atPlace : ∀ t row, t < new.len → s₆.rows[t]? = some (some row) →
      ((s₆.rows.take new.len).reduceOption)[t]? = some row := by
    intro t row bound here
    have value : (((s₆.rows.take new.len).reduceOption).map some)[t]? = some (some row) := by
      rw [rowsEq, List.getElem?_take_of_lt bound, here]
    simpa using value
  have shownRows : view.shown s₆.page = (s₆.rows.take new.len).reduceOption :=
    sameSlots ▸ shows.eq nodup' covered
  refine ⟨_, run, (s₆.rows.take new.len).reduceOption, ?_, shownRows ▸ known'⟩
  constructor
  case rows_eq => exact rowsEq.symm
  case shown_eq => exact shownRows
  case nodup => exact shownRows ▸ nodup'
  case length_eq =>
    have := congrArg List.length rowsEq
    simp only [List.length_map, List.length_take] at this
    omega
  case kept =>
    intro i j key inOld inNew
    have goes := goesTo_eq_some.2 ⟨key, inOld, inNew⟩
    have bound : i < oldRows.length := sources ▸ (lt_of_goesTo goes).1
    have found : oldRows[i]? = some oldRows[i] := List.getElem?_eq_getElem bound
    rw [atPlace j _ (lt_of_goesTo goes).2 (keptAt i j _ goes found), found]
  case added =>
    intro j key inNew notOld
    have added : addedAt old new j = true := by
      simp [addedAt, inNew, FxIndexSet.contains, notOld]
    rcases addedIn j added with ⟨row, here, builtAt⟩
    exact ⟨row, atPlace j row (lt_of_addedAt added) here, builtAt.not_mem view, builtAt⟩

theorem applyPlan_ok (fits : plan.Fits old new) (notClear : plan.clear = false)
    (sources : oldRows.length = old.len) (nodup : oldRows.Nodup)
    {s : ApplyState Page Item Row} (rows : s.rows = oldRows.map some) (moving : s.moving = [])
    (shown : view.shown s.page = oldRows) (known : ∀ row ∈ oldRows, row ∈ view.built s.page)
    (items : s.items.length = new.len)
    (there : ∀ t, t < new.len → ∃ item, s.items[t]? = some (some item)) :
    ∃ s', applyPlan ops plan s = .ok () s' ∧
      ∃ newRows, Updated view old new oldRows s.page s.items s'.rows s'.page newRows ∧
        ∀ row ∈ newRows, row ∈ view.built s'.page := by
  rcases fits.length_eq with ⟨fewer, lengths⟩
  have newBound : new.len ≤ isizeMax := new.length_le
  have room := two_isizeMax_le
  have accounted : (checkedSub s.rows.length plan.removed.length).bind
      (checkedAdd · plan.added.length) = some s.items.length := by
    have rowsLength : s.rows.length = old.len := by rw [rows, List.length_map, sources]
    rw [rowsLength, checkedSub, if_pos fewer, Option.bind_some, checkedAdd_eq_some (by omega),
      lengths, items]
  rcases applyMoves_ok view fits sources nodup rows moving shown known there with
    ⟨s', run, updated⟩
  refine ⟨s', ?_, updated⟩
  simp only [applyPlan, notClear, Bool.false_eq_true, if_false, accounted, ne_eq,
    not_true_eq_false, items, run]

/-- Clearing a list leaves no row. -/
theorem applyPlan_clear {rows : List Row} {page : Page} (nodup : (view.shown page).Nodup)
    (shown : view.shown page = rows) :
    ∃ after, applyPlan ops { clear := true } { rows := rows.map some, items := [], page } =
        .ok () { rows := [], items := [], page := after } ∧ view.shown after = [] := by
  refine ⟨unmountAll ops page (rows.map some), by simp [applyPlan, checkedAdd], ?_⟩
  have member := (unmountAll_shown view (rows.map some) page nodup).2.1
  rw [List.eq_nil_iff_forall_not_mem]
  intro row inPage
  rcases (member row).1 inPage with ⟨wasShown, notUnmounted⟩
  exact notUnmounted (mem_reduceOption_of_getElem?.2 (by
    rcases List.mem_iff_getElem?.1 (shown ▸ wasShown) with ⟨t, here⟩
    exact ⟨t, by rw [List.getElem?_map, here]; rfl⟩))

/-- Between lists of distinct keys the plan is carried out in full; the rows that are left have been
built. -/
theorem applyPlan_diff (old new : FxIndexSet K) (oldRows : List Row) (items : List Item)
    (page : Page) (rowsLength : oldRows.length = old.len) (itemsLength : items.length = new.len)
    (nodup : oldRows.Nodup) (shown : view.shown page = oldRows)
    (known : ∀ row ∈ oldRows, row ∈ view.built page) :
    ∃ plan s', diff old new = .ok plan ∧
      applyPlan ops plan { rows := oldRows.map some, items := items.map some, page } = .ok () s' ∧
      ∃ newRows, Updated view old new oldRows page (items.map some) s'.rows s'.page newRows ∧
        ∀ row ∈ newRows, row ∈ view.built s'.page := by
  by_cases cleared : old.entries ≠ [] ∧ new.entries = []
  · rcases cleared with ⟨oldSome, newEmpty⟩
    have noItems : items = [] := List.eq_nil_of_length_eq_zero (by
      simpa [FxIndexSet.len, newEmpty] using itemsLength)
    subst noItems
    have oldClear : (!old.isEmpty) = true := by simpa [FxIndexSet.isEmpty] using oldSome
    rcases applyPlan_clear view (shown ▸ nodup) shown with ⟨after, run, empty⟩
    refine ⟨_, _, oldClear ▸ diff_clear newEmpty, run, [], ?_, by simp⟩
    refine ⟨rfl, empty, by simp [FxIndexSet.len, newEmpty], .nil, ?_, ?_⟩
    · intro i j key _ inNew
      simp [FxIndexSet.getIndex, newEmpty] at inNew
    · intro j key inNew
      simp [FxIndexSet.getIndex, newEmpty] at inNew
  · have notCleared : old.entries = [] ∨ new.entries ≠ [] := by
      by_cases empty : old.entries = []
      · exact Or.inl empty
      · exact Or.inr fun none => cleared ⟨empty, none⟩
    rcases diff_fits notCleared with ⟨plan, planned, notClear, fits⟩
    have there : ∀ t, t < new.len → ∃ item, (items.map some)[t]? = some (some item) := by
      intro t bound
      exact ⟨items[t], by simp [List.getElem?_eq_getElem (by omega : t < items.length)]⟩
    rcases applyPlan_ok view fits notClear rowsLength nodup
      (s := { rows := oldRows.map some, items := items.map some, page }) rfl rfl shown known
      (by simpa using itemsLength) there with ⟨s', run, newRows, updated⟩
    exact ⟨plan, s', planned, run, newRows, updated⟩

omit [DecidableEq Row] in
/-- An update whose plan is carried out in full does nothing else. -/
theorem reconcile_eq {old new : FxIndexSet K} {oldRows : List Row} {items : List Item}
    {page : Page} {s' : ApplyState Page Item Row} (rowsLength : oldRows.length = old.len)
    (itemsLength : items.length = new.len) (planned : diff old new = .ok plan)
    (run : applyPlan ops plan { rows := oldRows.map some, items := items.map some, page } =
      .ok () s') :
    reconcile ops old new (oldRows.map some) (items.map some) page =
      { rows := s'.rows, page := s'.page } := by
  have matching : ¬ ((items.map some).length ≠ new.len ∨ (oldRows.map some).length ≠ old.len) := by
    simp [itemsLength, rowsLength]
  simp only [reconcile, if_neg matching, planned, applyOrRebuild, apply, run]

/-- What `reconcile` leaves of a list of distinct keys; its rows have been built. -/
theorem reconcile_updated (old new : FxIndexSet K) (oldRows : List Row) (items : List Item)
    (page : Page) (rowsLength : oldRows.length = old.len) (itemsLength : items.length = new.len)
    (nodup : oldRows.Nodup) (shown : view.shown page = oldRows)
    (known : ∀ row ∈ oldRows, row ∈ view.built page) :
    ∃ newRows, Updated view old new oldRows page (items.map some)
      (reconcile ops old new (oldRows.map some) (items.map some) page).rows
      (reconcile ops old new (oldRows.map some) (items.map some) page).page newRows ∧
      ∀ row ∈ newRows, row ∈ view.built
        (reconcile ops old new (oldRows.map some) (items.map some) page).page := by
  rcases applyPlan_diff view old new oldRows items page rowsLength itemsLength nodup shown known with
    ⟨plan, s', planned, run, newRows, updated⟩
  rw [reconcile_eq rowsLength itemsLength planned run]
  exact ⟨newRows, updated⟩

/-- `reconcile` brings a list of distinct keys to another one: the page and `rows` show one row
per new key, in order, the row of a kept key being its row of before and the others new. -/
theorem reconcile_updates (old new : FxIndexSet K) (oldRows : List Row) (items : List Item)
    (page : Page) (rowsLength : oldRows.length = old.len) (itemsLength : items.length = new.len)
    (nodup : oldRows.Nodup) (shown : view.shown page = oldRows)
    (known : ∀ row ∈ oldRows, row ∈ view.built page) :
    ∃ newRows, Updated view old new oldRows page (items.map some)
      (reconcile ops old new (oldRows.map some) (items.map some) page).rows
      (reconcile ops old new (oldRows.map some) (items.map some) page).page newRows := by
  rcases reconcile_updated view old new oldRows items page rowsLength itemsLength nodup shown known
    with ⟨newRows, updated, -⟩
  exact ⟨newRows, updated⟩

end Update

/-! ## A page -/

/-- A model of the list's parent on the page: the rows it shows, and the name of the next row. -/
structure ModelPage where
  dom : List ℕ
  next : ℕ

/-- Rows of a model page: building takes the next name, mounting moves a row that is there. -/
def modelOps : ListOps ModelPage ℕ ℕ where
  build page _ _ := (page.next, { page with next := page.next + 1 })
  unmount page row := { page with dom := page.dom.erase row }
  mount page row before := { page with dom := move row before page.dom }
  setIndex page _ _ := page

def modelView : PageView modelOps where
  shown := ModelPage.dom
  built page := { row | row < page.next }
  shown_build _ _ _ := rfl
  fresh page _ _ := Nat.lt_irrefl page.next
  built_build page _ _ := by
    ext row
    simp only [modelOps, Set.mem_ofPred_eq, Set.mem_insert_iff]
    omega
  shown_unmount _ _ := rfl
  built_unmount _ _ := rfl
  shown_mount_before _ _ _ _ _ := rfl
  shown_mount_last _ _ := rfl
  built_mount _ _ _ := rfl
  shown_setIndex _ _ _ := rfl
  built_setIndex _ _ _ := rfl

section Browser

/-- A browser's pointer width. -/
local instance wasm32 : Target := ⟨32⟩

def keysOf (entries : List ℕ) (nodup : entries.Nodup) (short : entries.length ≤ 8) :
    FxIndexSet ℕ :=
  ⟨entries, nodup, le_trans short (by decide)⟩

/-- The keys `1, 2, 3, 4` become `4, 5, 1, 2`. -/
theorem reconcile_updates_model :
    ∃ newRows, Updated modelView (keysOf [1, 2, 3, 4] (by decide) (by decide))
      (keysOf [4, 5, 1, 2] (by decide) (by decide)) [0, 1, 2, 3] ⟨[0, 1, 2, 3], 4⟩
      ([4, 5, 1, 2].map some)
      (reconcile modelOps (keysOf [1, 2, 3, 4] (by decide) (by decide))
        (keysOf [4, 5, 1, 2] (by decide) (by decide)) ([0, 1, 2, 3].map some)
        ([4, 5, 1, 2].map some) ⟨[0, 1, 2, 3], 4⟩).rows
      (reconcile modelOps (keysOf [1, 2, 3, 4] (by decide) (by decide))
        (keysOf [4, 5, 1, 2] (by decide) (by decide)) ([0, 1, 2, 3].map some)
        ([4, 5, 1, 2].map some) ⟨[0, 1, 2, 3], 4⟩).page newRows :=
  reconcile_updates modelView _ _ [0, 1, 2, 3] [4, 5, 1, 2] ⟨[0, 1, 2, 3], 4⟩ rfl rfl (by decide)
    rfl (by simp [modelView])

end Browser

end Halyard.ListDiff
