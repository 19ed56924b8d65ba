import Halyard.ListDiff.Reconcile

/-!
# A plan that does not fit

Whatever plan `apply` is given, its loops lose no row and take no item before the last check: `Held`
says that the rows on the page are those in `rows` and those in flight.  So a refusal leaves every
row where `rebuild_from_scratch` finds it, and every item to build from.

* `rebuildFromScratch_shows`: the page and `rows` then show one new row for each item, in order.
* `applyOrRebuild_recovers`: so they do after every refusal.
-/

namespace Halyard.ListDiff

open Placement

variable {Page Item Row : Type} [DecidableEq Row] {ops : ListOps Page Item Row} (view : PageView ops)

/-! ## Building every row -/

/-- Every row is new, one for each item, in order, and the page shows these rows. -/
structure Rendered (page : Page) (items : List Item) (rows : List (Option Row)) (page' : Page)
    (newRows : List Row) : Prop where
  rows_eq : rows = newRows.map some
  shown_eq : view.shown page' = newRows
  nodup : newRows.Nodup
  length_eq : newRows.length = items.length
  made : ∀ index row, newRows[index]? = some row → BuiltAt view page (items.map some) index row
  known : ∀ row ∈ newRows, row ∈ view.built page'

/-- The loop that builds and mounts the rows of the items that are left. -/
theorem buildAll_shows (items : List Item) (index : ℕ) (before : List Row) (page : Page)
    (shown : view.shown page = before) (nodup : before.Nodup)
    (known : ∀ row ∈ before, row ∈ view.built page) :
    ∃ newRows, (buildAll ops index (items.map some) (before.map some) page).1 =
        (before ++ newRows).map some ∧
      view.shown (buildAll ops index (items.map some) (before.map some) page).2 = before ++ newRows ∧
      (before ++ newRows).Nodup ∧ newRows.length = items.length ∧
      (∀ offset row, newRows[offset]? = some row → ∃ page' item, view.built page ⊆ view.built page' ∧
        items[offset]? = some item ∧ (ops.build page' (index + offset) item).1 = row) ∧
      ∀ row ∈ before ++ newRows,
        row ∈ view.built (buildAll ops index (items.map some) (before.map some) page).2 := by
  induction items generalizing index before page with
  | nil => exact ⟨[], by simp [buildAll], by simpa [buildAll] using shown, by simpa using nodup, rfl,
      by simp, by simpa [buildAll] using known⟩
  | cons item rest ih =>
      obtain ⟨row, made⟩ : ∃ row, row = (ops.build page index item).1 := ⟨_, rfl⟩
      obtain ⟨next, mounted⟩ : ∃ next, next = ops.mount (ops.build page index item).2 row none :=
        ⟨_, rfl⟩
      have fresh : row ∉ before := fun member => by
        have absent := view.fresh page index item
        rw [← made] at absent
        exact absent (known row member)
      have shown' : view.shown next = before ++ [row] := by
        rw [mounted, view.shown_mount_last, view.shown_build, shown, move, List.erase_of_not_mem fresh]
      have built' : view.built next = insert row (view.built page) := by
        rw [mounted, view.built_mount, view.built_build, ← made]
      have nodup' : (before ++ [row]).Nodup :=
        List.nodup_append.2 ⟨nodup, List.nodup_singleton row, fun a member b single same =>
          fresh (by rw [List.mem_singleton] at single; exact single ▸ same ▸ member)⟩
      have known' : ∀ other ∈ before ++ [row], other ∈ view.built next := by
        intro other member
        rw [built']
        rcases List.mem_append.1 member with member | single
        · exact Set.mem_insert_of_mem row (known other member)
        · rw [List.mem_singleton.1 single]
          exact Set.mem_insert row _
      have step : buildAll ops index ((item :: rest).map some) (before.map some) page =
          buildAll ops (index + 1) (rest.map some) ((before ++ [row]).map some) next := by
        rw [List.map_cons, buildAll, List.map_append, mounted, made]
        rfl
      obtain ⟨newRows, rows, shown'', nodup'', length, builtRows, known''⟩ :=
        ih (index + 1) (before ++ [row]) next shown' nodup' known'
      refine ⟨row :: newRows, ?_, ?_, by simpa using nodup'', by simpa using length, ?_, ?_⟩
      · rw [step, rows]
        simp
      · rw [step, shown'']
        simp
      · intro offset other here
        cases offset with
        | zero =>
            rw [List.getElem?_cons_zero, Option.some.injEq] at here
            exact ⟨page, item, subset_rfl, rfl, made.symm.trans here⟩
        | succ offset =>
            rw [List.getElem?_cons_succ] at here
            obtain ⟨page', item', sub, found, built⟩ := builtRows offset other here
            refine ⟨page', item', ?_, found, ?_⟩
            · exact (Set.subset_insert row _).trans (built' ▸ sub)
            · rw [← built]
              congr 2
              omega
      · rw [step]
        simpa using known''

/-- The list is rendered again from scratch. -/
theorem rebuildFromScratch_shows (rows : List (Option Row)) (items : List Item) (page : Page)
    (reported : ListError) (nodup : (view.shown page).Nodup)
    (held : ∀ row ∈ view.shown page, row ∈ rows.reduceOption) :
    ∃ newRows, Rendered view page items
      (rebuildFromScratch ops rows (items.map some) page reported).rows
      (rebuildFromScratch ops rows (items.map some) page reported).page newRows := by
  obtain ⟨-, member, built⟩ := unmountAll_shown view rows page nodup
  have empty : view.shown (unmountAll ops page rows) = [] := by
    rw [List.eq_nil_iff_forall_not_mem]
    intro row inPage
    obtain ⟨wasShown, notUnmounted⟩ := (member row).1 inPage
    exact notUnmounted (held row wasShown)
  obtain ⟨newRows, rows', shown, nodup', length, made, known⟩ :=
    buildAll_shows view items 0 [] (unmountAll ops page rows) empty List.nodup_nil (by simp)
  refine ⟨newRows, rows', shown, nodup', length, ?_, known⟩
  intro index row here
  obtain ⟨page', item, sub, found, made⟩ := made index row here
  rw [built] at sub
  rw [Nat.zero_add] at made
  exact ⟨page', item, sub, by rw [List.getElem?_map, found]; rfl, made⟩

theorem Rendered.new {page page' : Page} {items : List Item} {rows : List (Option Row)}
    {newRows : List Row} (rendered : Rendered view page items rows page' newRows) :
    ∀ row ∈ newRows, row ∉ view.built page := by
  intro row member
  obtain ⟨index, here⟩ := List.mem_iff_getElem?.1 member
  exact (rendered.made index row here).not_mem view

/-! ## Rows taken out and put back -/

omit [DecidableEq Row] in
theorem reduceOption_takeAt {list list' : List (Option Row)} {index : ℕ} {row : Row}
    (taken : takeAt list index = some (row, list')) :
    list.reduceOption.Perm (row :: list'.reduceOption) := by
  unfold takeAt at taken
  split at taken
  next value here =>
      cases taken
      have bound := (List.getElem?_eq_some_iff.1 here).1
      have free : (list.set index none)[index]? = some none := List.getElem?_set_self bound
      have without := reduceOption_split free
      rw [reduceOption_split here, without]
      simp [List.take_set_of_le, List.drop_set_of_lt, List.perm_middle]
  next => cases taken

omit [DecidableEq Row] in
theorem reduceOption_place {rows : List (Option Row)} {index : ℕ} (row : Row)
    (free : rows[index]? = some none) :
    (rows.set index (some row)).reduceOption.Perm (row :: rows.reduceOption) := by
  rw [reduceOption_fill (List.getElem?_eq_some_iff.1 free).1, reduceOption_split free]
  simp [List.perm_middle]

omit [DecidableEq Row] in
theorem freePlace_free {rows after : List (Option Row)} {index newLen : ℕ}
    (found : freePlace rows index newLen = .ok after) :
    rows[index]? = some none ∧ index < newLen ∧ after = rows.drop (index + 1) := by
  unfold freePlace at found
  split at found
  next => cases found
  next inside =>
      split at found
      next place more here =>
          cases found
          have value : rows[index]? = some none := by
            rw [← List.head?_drop, here]
            rfl
          refine ⟨value, Nat.lt_of_not_le inside, ?_⟩
          rw [← List.tail_drop, here]
          rfl
      next => cases found

/-- While a plan is carried out: the rows on the page are those in `rows` and those in flight, and no
item has been taken. -/
structure Held (page : Page) (items : List (Option Item)) (s : ApplyState Page Item Row) : Prop where
  nodup : (s.rows.reduceOption ++ s.moving.reduceOption).Nodup
  shown : ∀ row, row ∈ view.shown s.page ↔ row ∈ s.rows.reduceOption ++ s.moving.reduceOption
  pageNodup : (view.shown s.page).Nodup
  built : view.built s.page = view.built page
  items : s.items = items

namespace Held

variable {page : Page} {items : List (Option Item)} {s : ApplyState Page Item Row}
  {rows moving : List (Option Row)} {row : Row}

/-- The rows change places, and the page shows the same ones. -/
theorem rearrange (held : Held view page items s) {page' : Page}
    (perm : (rows.reduceOption ++ moving.reduceOption).Perm
      (s.rows.reduceOption ++ s.moving.reduceOption))
    (shown : ∀ row, row ∈ view.shown page' ↔ row ∈ view.shown s.page)
    (pageNodup : (view.shown page').Nodup) (built : view.built page' = view.built s.page) :
    Held view page items { s with rows, moving, page := page' } where
  nodup := perm.nodup_iff.2 held.nodup
  shown := fun row => (shown row).trans ((held.shown row).trans perm.mem_iff.symm)
  pageNodup := pageNodup
  built := built.trans held.built
  items := held.items

/-- A row leaves `rows` and the page. -/
theorem remove (held : Held view page items s)
    (perm : s.rows.reduceOption.Perm (row :: rows.reduceOption)) :
    Held view page items { s with rows, page := ops.unmount s.page row } := by
  have all : (s.rows.reduceOption ++ s.moving.reduceOption).Perm
      (row :: (rows.reduceOption ++ s.moving.reduceOption)) := perm.append_right _
  have nodup := all.nodup_iff.1 held.nodup
  obtain ⟨absent, nodup⟩ := List.nodup_cons.1 nodup
  refine ⟨nodup, fun other => ?_, ?_, ?_, held.items⟩
  · rw [view.shown_unmount, held.pageNodup.mem_erase_iff, held.shown, all.mem_iff, List.mem_cons]
    constructor
    · rintro ⟨ne, same | member⟩
      · exact absurd same ne
      · exact member
    · intro member
      exact ⟨fun same => absent (same ▸ member), Or.inr member⟩
  · simpa using held.pageNodup.erase row
  · rw [view.built_unmount, held.built]

/-- Mounting a row in flight before a row that is in place, or last. -/
theorem mount (held : Held view page items s) (flies : row ∈ s.moving.reduceOption) (index : ℕ) :
    (∀ other, other ∈ view.shown
        (ops.mount s.page row (s.rows.drop (index + 1)).reduceOption.head?) ↔
      other ∈ view.shown s.page) ∧
      (view.shown (ops.mount s.page row (s.rows.drop (index + 1)).reduceOption.head?)).Nodup := by
  have onPage : row ∈ view.shown s.page := (held.shown row).2 (List.mem_append_right _ flies)
  have moved : view.shown (ops.mount s.page row (s.rows.drop (index + 1)).reduceOption.head?) =
      move row (s.rows.drop (index + 1)).reduceOption.head? (view.shown s.page) := by
    cases next : (s.rows.drop (index + 1)).reduceOption.head? with
    | none => exact view.shown_mount_last s.page row
    | some anchor =>
        have inPlace : anchor ∈ s.rows.reduceOption :=
          (List.Sublist.filterMap id (List.drop_sublist _ s.rows)).subset (List.mem_of_mem_head? next)
        refine view.shown_mount_before s.page row anchor
          ((held.shown anchor).2 (List.mem_append_left _ inPlace)) ?_
        rintro rfl
        exact (List.nodup_append.1 held.nodup).2.2 anchor inPlace anchor flies rfl
  rw [moved]
  refine ⟨fun other => ?_, nodup_move held.pageNodup⟩
  rw [mem_move]
  exact ⟨fun member => member.elim (fun same => same ▸ onPage) id, Or.inr⟩

end Held

/-! ## Steps that may refuse -/

/-- The state of the result has `P`, whether the step was carried out or refused. -/
def KeptIn (P : ApplyState Page Item Row → Prop)
    (result : EStateM.Result ListError (ApplyState Page Item Row) Unit) : Prop :=
  (∀ s', result = .ok () s' → P s') ∧ ∀ error s', result = .error error s' → P s'

def Keeps (P : ApplyState Page Item Row → Prop) (step : ApplyM Page Item Row Unit) : Prop :=
  ∀ s, P s → KeptIn P (step s)

/-- The step keeps `P` if it is refused. -/
def Refuses (P : ApplyState Page Item Row → Prop) (step : ApplyM Page Item Row Unit) : Prop :=
  ∀ s, P s → ∀ error s', step s = .error error s' → P s'

section Bind

variable {P : ApplyState Page Item Row → Prop} {first second : ApplyM Page Item Row Unit}
  {s : ApplyState Page Item Row}

omit [DecidableEq Row] in
theorem keptIn_ok (holds : P s) : KeptIn P (.ok () s) := by
  refine ⟨fun s' run => ?_, fun error s' run => ?_⟩
  · cases run
    exact holds
  · cases run

omit [DecidableEq Row] in
theorem keptIn_error (holds : P s) (error : ListError) : KeptIn P (.error error s) := by
  refine ⟨fun s' run => ?_, fun error s' run => ?_⟩
  · cases run
  · cases run
    exact holds

omit [DecidableEq Row] in
theorem bind_eq (s : ApplyState Page Item Row) : (first >>= fun _ => second) s =
    match first s with
    | .ok () s' => second s'
    | .error error s' => .error error s' := by
  simp only [bind, EStateM.bind]
  cases first s <;> rfl

omit [DecidableEq Row] in
theorem Keeps.refuses_bind (keeps : Keeps P first) (refuses : Refuses P second) :
    Refuses P (first >>= fun _ => second) := by
  intro s holds error s' refused
  obtain ⟨ok, error'⟩ := keeps s holds
  rw [bind_eq] at refused
  cases run : first s with
  | ok value next =>
      rw [run] at refused
      exact refuses next (ok next run) error s' refused
  | error reason next =>
      rw [run] at refused
      cases refused
      exact error' _ _ run

end Bind

section Loops

variable {page : Page} {items : List (Option Item)}

theorem removeRows_keeps (indices : List ℕ) : Keeps (Held view page items) (removeRows ops indices) := by
  induction indices with
  | nil =>
      intro s held
      exact keptIn_ok held
  | cons index rest ih =>
      intro s held
      rw [removeRows]
      cases taken : takeAt s.rows index with
      | none =>
          exact keptIn_error held _
      | some pair =>
          obtain ⟨row, rows⟩ := pair
          exact ih _ (held.remove view (reduceOption_takeAt taken))

omit [DecidableEq Row] in
theorem reduceOption_flying (moving : List (Option Row)) (row : Row) :
    (moving ++ [some row]).reduceOption = moving.reduceOption ++ [row] := by
  rw [List.reduceOption_append]
  rfl

theorem takeMoving_keeps (moves : List DiffOpMove) : Keeps (Held view page items) (takeMoving moves) := by
  induction moves with
  | nil =>
      intro s held
      exact keptIn_ok held
  | cons op rest ih =>
      intro s held
      rw [takeMoving]
      cases taken : takeAt s.rows op.fromIndex with
      | none =>
          exact keptIn_error held _
      | some pair =>
          obtain ⟨row, rows⟩ := pair
          refine ih _ (held.rearrange view ?_ (fun _ => Iff.rfl) held.pageNodup rfl)
          rw [reduceOption_flying, ← List.append_assoc]
          refine (List.perm_append_singleton _ _).trans ?_
          exact ((reduceOption_takeAt taken).append_right _).symm

/-- A row in flight comes to a free place, whether it moves on the page or not. -/
theorem Held.land {s : ApplyState Page Item Row} (held : Held view page items s) {place index : ℕ}
    {row : Row} {moving : List (Option Row)} (free : s.rows[place]? = some none)
    (taken : takeAt s.moving index = some (row, moving)) {page' : Page}
    (shown : ∀ row, row ∈ view.shown page' ↔ row ∈ view.shown s.page)
    (pageNodup : (view.shown page').Nodup) (built : view.built page' = view.built s.page) :
    Held view page items { s with moving, rows := s.rows.set place (some row), page := page' } := by
  refine held.rearrange view ?_ shown pageNodup built
  refine ((reduceOption_place row free).append_right _).trans ?_
  exact List.perm_middle.symm.trans ((reduceOption_takeAt taken).symm.append_left _)

theorem settleInPlace_keeps (newLen index : ℕ) (moves : List DiffOpMove) :
    Keeps (Held view page items) (settleInPlace ops newLen index moves) := by
  induction moves generalizing index with
  | nil =>
      intro s held
      exact keptIn_ok held
  | cons op rest ih =>
      intro s held
      rw [settleInPlace]
      split
      next => exact ih (index + 1) s held
      next =>
          split
          next =>
              exact keptIn_error held _
          next =>
              exact keptIn_error held _
          next after row moving found taken =>
              obtain ⟨free, -, -⟩ := freePlace_free found
              exact ih (index + 1) _ (held.land view free taken (by simp) (by simpa using held.pageNodup)
                (by simp))

theorem moveOnPage_keeps (newLen index : ℕ) (moves : List DiffOpMove) :
    Keeps (Held view page items) (moveOnPage ops newLen index moves) := by
  induction moves generalizing index with
  | nil =>
      intro s held
      exact keptIn_ok held
  | cons op rest ih =>
      intro s held
      rw [moveOnPage]
      split
      next => exact ih (index + 1) s held
      next =>
          split
          next =>
              exact keptIn_error held _
          next =>
              exact keptIn_error held _
          next after row moving found taken =>
              obtain ⟨free, -, rfl⟩ := freePlace_free found
              have flies : row ∈ s.moving.reduceOption :=
                (reduceOption_takeAt taken).mem_iff.2 List.mem_cons_self
              obtain ⟨shown, nodup⟩ := held.mount view flies op.toIndex
              exact ih (index + 1) _ (held.land view free taken (by simpa using shown)
                (by simpa using nodup) (by simp))

theorem makeRoom_keeps [Target] (added : ℕ) : Keeps (Held view page items) (makeRoom added) := by
  intro s held
  cases room : checkedAdd s.rows.length added with
  | none =>
      have run : makeRoom added s = .error (.invariant "an index overflows") s := by
        simp only [makeRoom, room]
      rw [run]
      exact keptIn_error held _
  | some length =>
      have run : makeRoom added s = .ok () { s with rows := s.rows ++ List.replicate added none } := by
        simp only [makeRoom, room]
      rw [run]
      apply keptIn_ok
      refine held.rearrange view ?_ (fun _ => Iff.rfl) held.pageNodup rfl
      rw [List.reduceOption_append, List.reduceOption_replicate_none, List.append_nil]

end Loops

/-! ## The last check -/

section Check

omit [DecidableEq Row] in
/-- New rows that pass the check are in order, in free places, and of items that are there. -/
theorem fits_of_newRowsFit {places : List (Option Row)} {items : List (Option Item)} {previous : Option ℕ}
    {adds : List DiffOpAdd} (fit : newRowsFit places items previous adds = true) :
    (adds.map DiffOpAdd.at_).Pairwise (· < ·) ∧
      (∀ add ∈ adds, ∀ earlier ∈ previous, earlier < add.at_) ∧
      ∀ add ∈ adds, places[add.at_]? = some none ∧ ∃ item, items[add.at_]? = some (some item) := by
  induction adds generalizing previous with
  | nil => exact ⟨List.Pairwise.nil, by simp, by simp⟩
  | cons add rest ih =>
      simp only [newRowsFit, Bool.and_eq_true] at fit
      obtain ⟨⟨⟨after, free⟩, there⟩, fit⟩ := fit
      obtain ⟨ascending, later, fits⟩ := ih fit
      have place : places[add.at_]? = some none := by
        cases value : places[add.at_]? with
        | none => simp [value] at free
        | some slot =>
            rw [value, Option.any_some, Option.isNone_iff_eq_none] at free
            rw [free]
      have item : ∃ item, items[add.at_]? = some (some item) := by
        cases value : items[add.at_]? with
        | none => simp [value] at there
        | some slot =>
            rw [value, Option.any_some, Option.isSome_iff_exists] at there
            obtain ⟨item, rfl⟩ := there
            exact ⟨item, rfl⟩
      have first : ∀ earlier ∈ previous, earlier < add.at_ := by
        intro earlier member
        rw [Option.mem_def] at member
        simpa [member] using after
      refine ⟨?_, ?_, ?_⟩
      · rw [List.map_cons, List.pairwise_cons]
        refine ⟨fun at_ member => ?_, ascending⟩
        obtain ⟨op, inRest, rfl⟩ := List.mem_map.1 member
        exact later op inRest add.at_ rfl
      · intro op member earlier before
        rcases List.mem_cons.1 member with rfl | member
        · exact first earlier before
        · exact (first earlier before).trans (later op member add.at_ rfl)
      · intro op member
        rcases List.mem_cons.1 member with rfl | member
        · exact ⟨place, item⟩
        · exact fits op member

omit [DecidableEq Row] in
/-- The loop over new rows that pass the check is not refused. -/
theorem addRows_total {newLen : ℕ} {adds : List DiffOpAdd} {s : ApplyState Page Item Row}
    (ascending : (adds.map DiffOpAdd.at_).Pairwise (· < ·)) (bound : ∀ add ∈ adds, add.at_ < newLen)
    (free : ∀ add ∈ adds, s.rows[add.at_]? = some none)
    (there : ∀ add ∈ adds, ∃ item, s.items[add.at_]? = some (some item)) :
    ∃ s', addRows ops newLen adds s = .ok () s' := by
  induction adds generalizing s with
  | nil => exact ⟨s, rfl⟩
  | cons add rest ih =>
      obtain ⟨later, ascending⟩ := List.pairwise_cons.1 ascending
      obtain ⟨item, here⟩ := there add List.mem_cons_self
      have other : ∀ op ∈ rest, add.at_ ≠ op.at_ := fun op member =>
        (later _ (List.mem_map_of_mem member)).ne
      simp only [addRows, takeAt_eq here,
        freePlace_ok (bound add List.mem_cons_self) (free add List.mem_cons_self)]
      refine ih ascending (fun op member => bound op (List.mem_cons_of_mem _ member)) ?_ ?_
      · intro op member
        dsimp only
        rw [List.getElem?_set_ne (other op member)]
        exact free op (List.mem_cons_of_mem _ member)
      · intro op member
        dsimp only
        rw [List.getElem?_set_ne (other op member)]
        exact there op (List.mem_cons_of_mem _ member)

omit [DecidableEq Row] in
/-- Only the check itself can refuse from there on. -/
theorem addRows_refuses (P : ApplyState Page Item Row → Prop) (plan : Diff) (newLen : ℕ) :
    Refuses P (do
      checkPlaces plan newLen
      addRows ops newLen plan.added
      truncateRows newLen) := by
  intro s holds error s' refused
  rw [bind_eq] at refused
  unfold checkPlaces at refused
  cases checked : checkNewRows plan s.rows s.items newLen with
  | error reason =>
      simp only [checked] at refused
      cases refused
      exact holds
  | ok value =>
      simp only [checked] at refused
      have fit : newRowsFit (s.rows.take newLen) s.items none plan.added = true := by
        unfold checkNewRows at checked
        split_ifs at checked
        assumption
      obtain ⟨ascending, -, fits⟩ := fits_of_newRowsFit fit
      have place : ∀ add ∈ plan.added, add.at_ < newLen ∧ s.rows[add.at_]? = some none := by
        intro add member
        have here := (fits add member).1
        rw [List.getElem?_take] at here
        split at here
        next bound => exact ⟨bound, here⟩
        next => cases here
      obtain ⟨last, run⟩ : ∃ last, addRows ops newLen plan.added s = .ok () last :=
        addRows_total ascending (fun add member => (place add member).1)
          (fun add member => (place add member).2) fun add member => (fits add member).2
      rw [bind_eq, run] at refused
      cases refused

end Check

/-! ## Every refusal -/

section Refusals

variable [Target] {page : Page} {items : List (Option Item)}

theorem applyMoves_refuses (plan : Diff) (newLen : ℕ) :
    Refuses (Held view page items) (applyMoves ops plan newLen) :=
  (removeRows_keeps view plan.removed).refuses_bind <|
    (takeMoving_keeps view plan.moved).refuses_bind <|
    (makeRoom_keeps view plan.added.length).refuses_bind <|
    (settleInPlace_keeps view newLen 0 plan.moved).refuses_bind <|
    (moveOnPage_keeps view newLen 0 plan.moved).refuses_bind <|
    addRows_refuses (Held view page items) plan newLen

omit [Target] in
/-- Once every row is unmounted, none is left on the page. -/
theorem Held.clear {s : ApplyState Page Item Row} (held : Held view page items s)
    (still : s.moving = []) :
    Held view page items { s with rows := [], page := unmountAll ops s.page s.rows } := by
  obtain ⟨sub, member, built⟩ := unmountAll_shown view s.rows s.page held.pageNodup
  have all := held.shown
  rw [still] at all
  refine ⟨?_, fun row => ?_, sub.nodup held.pageNodup, built.trans held.built, held.items⟩
  · simp [still]
  · rw [member, all]
    simp [still]

theorem applyPlan_refuses (plan : Diff) {s s' : ApplyState Page Item Row} {error : ListError}
    (held : Held view page items s) (still : s.moving = [])
    (refused : applyPlan ops plan s = .error error s') : Held view page items s' := by
  simp only [applyPlan] at refused
  split_ifs at refused
  · cases refused
    exact held
  · exact applyMoves_refuses view plan _ _ (held.clear view still) error s' refused
  · cases refused
    exact held
  · exact applyMoves_refuses view plan _ s held error s' refused

/-- A refused plan has taken no item and left the rows on the page in `rows`. -/
theorem apply_refused (plan : Diff) {s s' : ApplyState Page Item Row} {error : ListError}
    (held : Held view page items { s with moving := [] }) (refused : apply ops plan s = .error error s') :
    s'.items = items ∧ (view.shown s'.page).Nodup ∧ view.built s'.page = view.built page ∧
      ∀ row ∈ view.shown s'.page, row ∈ s'.rows.reduceOption := by
  unfold apply at refused
  cases planned : applyPlan ops plan { s with moving := [] } with
  | ok value next =>
      simp only [planned] at refused
      cases refused
  | error reason next =>
      simp only [planned] at refused
      cases refused
      have left := applyPlan_refuses view plan held rfl planned
      obtain ⟨sub, member, built⟩ := unmountAll_shown view next.moving next.page left.pageNodup
      refine ⟨left.items, sub.nodup left.pageNodup, built.trans left.built, fun row inPage => ?_⟩
      obtain ⟨wasShown, notUnmounted⟩ := (member row).1 inPage
      exact (List.mem_append.1 ((left.shown row).1 wasShown)).resolve_right notUnmounted

/-- Whatever the plan: if `apply` refuses it, no item has been taken, and the page and `rows` then hold
one new row for each item, in order, and none of the old rows. -/
theorem applyOrRebuild_recovers (plan : Diff) (oldRows : List Row) (items : List Item) (page : Page)
    (nodup : oldRows.Nodup) (shown : view.shown page = oldRows)
    (known : ∀ row ∈ oldRows, row ∈ view.built page) {error : ListError}
    {s : ApplyState Page Item Row}
    (refused : apply ops plan { rows := oldRows.map some, items := items.map some, page } =
      .error error s) :
    s.items = items.map some ∧ ∃ newRows,
      Rendered view page items
        (applyOrRebuild ops plan (oldRows.map some) (items.map some) page).rows
        (applyOrRebuild ops plan (oldRows.map some) (items.map some) page).page newRows ∧
      ∀ row ∈ oldRows, row ∉ newRows := by
  have all : (oldRows.map some).reduceOption = oldRows := by
    simp [List.reduceOption, List.filterMap_map]
  have held : Held view page (items.map some)
      { rows := oldRows.map some, items := items.map some, moving := [], page } := by
    refine ⟨?_, fun row => ?_, shown ▸ nodup, rfl, rfl⟩
    · simpa [all] using nodup
    · simp [all, shown]
  obtain ⟨untaken, nodup', built, left⟩ := apply_refused view plan held refused
  refine ⟨untaken, ?_⟩
  have rebuilt : applyOrRebuild ops plan (oldRows.map some) (items.map some) page =
      rebuildFromScratch ops s.rows (items.map some) s.page error := by
    rw [applyOrRebuild, refused, ← untaken]
  obtain ⟨newRows, rendered⟩ := rebuildFromScratch_shows view s.rows items s.page error nodup' left
  rw [rebuilt]
  refine ⟨newRows, ⟨rendered.rows_eq, rendered.shown_eq, rendered.nodup, rendered.length_eq, ?_,
    rendered.known⟩, fun row member member' => ?_⟩
  · intro index row here
    obtain ⟨page', item, sub, found, made⟩ := rendered.made index row here
    exact ⟨page', item, built ▸ sub, found, made⟩
  · exact rendered.new view row member' (built ▸ known row member)

end Refusals

section Browser

/-- A browser's pointer width. -/
local instance browserTarget : Target := ⟨32⟩

/-- A plan that removes the first row twice. -/
theorem applyOrRebuild_recovers_twice :
    ∃ newRows, Rendered modelView ⟨[0, 1], 2⟩ ([] : List ℕ)
        (applyOrRebuild modelOps { removed := [0, 0] } ([0, 1].map some) ([].map some) ⟨[0, 1], 2⟩).rows
        (applyOrRebuild modelOps { removed := [0, 0] } ([0, 1].map some) ([].map some) ⟨[0, 1], 2⟩).page
        newRows ∧ ∀ row ∈ [0, 1], row ∉ newRows :=
  have refused : apply modelOps { removed := [0, 0] }
      { rows := [0, 1].map some, items := [].map some, page := ⟨[0, 1], 2⟩ } =
      .error (.invariant "a row to remove is missing")
        { rows := [none, some 1], items := [], page := ⟨[1], 2⟩ } := rfl
  (applyOrRebuild_recovers modelView { removed := [0, 0] } [0, 1] [] ⟨[0, 1], 2⟩ (by decide) rfl
    (by simp [modelView]) refused).2

end Browser

end Halyard.ListDiff
