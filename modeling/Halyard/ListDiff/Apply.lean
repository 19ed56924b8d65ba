import Halyard.Placement
import Halyard.ListDiff.Plan

/-!
# Carrying a plan out

`PageView` is what an update relies on of the page: which rows it shows, in order, and which rows
have been built.  Each loop of `apply_plan` has one lemma saying what it leaves: `Occupied` says
which old rows are back in which places, and `Placement.Shows` that the page shows the rows in
place in the order of their places.

* `applyPlan_ok`: a plan that fits is carried out, and the page then shows the new rows.
-/

namespace Halyard.ListDiff

open Placement

variable {Page Item Row : Type} [DecidableEq Row]

/-- What the page shows, and which rows have been built, with what each operation does to them. -/
structure PageView (ops : ListOps Page Item Row) where
  shown : Page → List Row
  built : Page → Set Row
  shown_build : ∀ page index item, shown (ops.build page index item).2 = shown page
  fresh : ∀ page index item, (ops.build page index item).1 ∉ built page
  built_build : ∀ page index item, built (ops.build page index item).2 =
    insert (ops.build page index item).1 (built page)
  shown_unmount : ∀ page row, shown (ops.unmount page row) = (shown page).erase row
  built_unmount : ∀ page row, built (ops.unmount page row) = built page
  shown_mount_before : ∀ page row anchor, anchor ∈ shown page → anchor ≠ row →
    shown (ops.mount page row (some anchor)) = move row (some anchor) (shown page)
  shown_mount_last : ∀ page row, shown (ops.mount page row none) = move row none (shown page)
  built_mount : ∀ page row before, built (ops.mount page row before) = built page
  shown_setIndex : ∀ page row index, shown (ops.setIndex page row index) = shown page
  built_setIndex : ∀ page row index, built (ops.setIndex page row index) = built page

attribute [simp] PageView.shown_build PageView.built_build PageView.shown_unmount
  PageView.built_unmount PageView.shown_mount_last PageView.built_mount PageView.shown_setIndex
  PageView.built_setIndex

section Steps

variable {ops : ListOps Page Item Row} (view : PageView ops)

/-! ## Taking rows out -/

/-- The list with the entries at some indices taken out. -/
def without {α : Type*} (indices : List ℕ) (list : List (Option α)) : List (Option α) :=
  indices.foldl (fun list i => list.set i none) list

theorem getElem?_without {α : Type*} (indices : List ℕ) (list : List (Option α)) (i : ℕ) :
    (without indices list)[i]? =
      if i ∈ indices then list[i]?.map fun _ => none else list[i]? := by
  unfold without
  induction indices generalizing list with
  | nil => simp
  | cons j rest ih =>
      rw [List.foldl_cons, ih]
      by_cases same : i = j
      · subst same
        cases value : list[i]? <;> simp [List.getElem?_set_self', value]
      · simp [List.getElem?_set_ne (Ne.symm same), same]

theorem length_without {α : Type*} (indices : List ℕ) (list : List (Option α)) :
    (without indices list).length = list.length := by
  unfold without
  induction indices generalizing list with
  | nil => rfl
  | cons j rest ih => rw [List.foldl_cons, ih, List.length_set]

theorem takeAt_eq {α : Type*} {list : List (Option α)} {index : ℕ} {value : α}
    (here : list[index]? = some (some value)) :
    takeAt list index = some (value, list.set index none) := by
  simp [takeAt, here]

/-- Unmounting rows leaves the other rows, in their order. -/
theorem unmountAll_shown (rows : List (Option Row)) (page : Page)
    (nodup : (view.shown page).Nodup) :
    (view.shown (unmountAll ops page rows)).Sublist (view.shown page) ∧
      (∀ row, row ∈ view.shown (unmountAll ops page rows) ↔
        row ∈ view.shown page ∧ row ∉ rows.reduceOption) ∧
      view.built (unmountAll ops page rows) = view.built page := by
  unfold unmountAll
  induction rows.reduceOption generalizing page with
  | nil => simp
  | cons row rest ih =>
      have after : (view.shown (ops.unmount page row)).Nodup := by simpa using nodup.erase row
      obtain ⟨sub, member, same⟩ := ih (ops.unmount page row) after
      rw [view.shown_unmount] at sub
      refine ⟨sub.trans List.erase_sublist, fun other => ?_, by simpa using same⟩
      rw [List.foldl_cons, member, view.shown_unmount, nodup.mem_erase_iff]
      simp only [List.mem_cons, not_or]
      tauto

/-- The loop that removes rows, on indices that are distinct and hold a row. -/
theorem removeRows_ok {indices : List ℕ} {s : ApplyState Page Item Row} (nodup : indices.Nodup)
    (there : ∀ i ∈ indices, ∃ row, s.rows[i]? = some (some row))
    (pageNodup : (view.shown s.page).Nodup) :
    ∃ page, removeRows ops indices s = .ok () { s with
        rows := without indices s.rows, page } ∧
      (view.shown page).Sublist (view.shown s.page) ∧
      (∀ row, row ∈ view.shown page ↔
        row ∈ view.shown s.page ∧ ∀ i ∈ indices, s.rows[i]? ≠ some (some row)) ∧
      view.built page = view.built s.page := by
  induction indices generalizing s with
  | nil => exact ⟨s.page, rfl, .refl _, by simp, rfl⟩
  | cons i rest ih =>
      obtain ⟨row, here⟩ := there i List.mem_cons_self
      obtain ⟨fresh, nodup⟩ := List.nodup_cons.1 nodup
      have other : ∀ j ∈ rest, (s.rows.set i none)[j]? = s.rows[j]? := fun j member =>
        List.getElem?_set_ne (by rintro rfl; exact fresh member)
      obtain ⟨page, run, sub, member, same⟩ := ih
        (s := { s with rows := s.rows.set i none, page := ops.unmount s.page row }) nodup
        (fun j member => by
          simpa only [other j member] using there j (List.mem_cons_of_mem _ member))
        (by simpa using pageNodup.erase row)
      simp only [view.shown_unmount, view.built_unmount] at sub member same
      refine ⟨page, by simp [removeRows, takeAt_eq here, run, without], sub.trans List.erase_sublist,
        fun other' => ?_, same⟩
      rw [member, pageNodup.mem_erase_iff]
      simp only [List.mem_cons, forall_eq_or_imp, here, ne_eq, Option.some.injEq]
      constructor
      · rintro ⟨⟨ne, shown⟩, rest'⟩
        exact ⟨shown, fun same => ne same.symm, fun j inRest => other j inRest ▸ rest' j inRest⟩
      · rintro ⟨shown, ne, rest'⟩
        exact ⟨⟨fun same => ne same.symm, shown⟩,
          fun j inRest => (other j inRest).symm ▸ rest' j inRest⟩

omit [DecidableEq Row] in
/-- The loop that takes out the rows to move, from indices that are distinct and hold a row. -/
theorem takeMoving_ok {moves : List DiffOpMove} {s : ApplyState Page Item Row}
    (nodup : (moves.map DiffOpMove.fromIndex).Nodup)
    (there : ∀ op ∈ moves, ∃ row, s.rows[op.fromIndex]? = some (some row)) :
    takeMoving moves s = .ok () { s with
      rows := without (moves.map DiffOpMove.fromIndex) s.rows
      moving := s.moving ++ moves.map fun op => s.rows[op.fromIndex]?.join } := by
  induction moves generalizing s with
  | nil => simp [takeMoving, without]
  | cons op rest ih =>
      obtain ⟨row, here⟩ := there op List.mem_cons_self
      obtain ⟨fresh, nodup⟩ := List.nodup_cons.1 nodup
      have other : ∀ op' ∈ rest,
          (s.rows.set op.fromIndex none)[op'.fromIndex]? = s.rows[op'.fromIndex]? :=
        fun op' member => List.getElem?_set_ne fun same =>
          fresh (List.mem_map.2 ⟨op', member, same.symm⟩)
      have carried : (rest.map fun op' => (s.rows.set op.fromIndex none)[op'.fromIndex]?.join) =
          rest.map fun op' => s.rows[op'.fromIndex]?.join :=
        List.map_congr_left fun op' member => by rw [other op' member]
      simp only [takeMoving, takeAt_eq here]
      rw [ih nodup fun op' member => by
        simpa only [other op' member] using there op' (List.mem_cons_of_mem _ member)]
      simp [carried, here, without]

/-! ## Places -/

/-- The old rows that `stage` puts back are in their places, and no other row is in place. -/
structure Occupied (oldRows : List Row) (stage : ℕ → ℕ → Prop) (rows : List (Option Row)) :
    Prop where
  sound : ∀ t row, rows[t]? = some (some row) → ∃ i, stage i t ∧ oldRows[i]? = some row
  complete : ∀ i t row, stage i t → oldRows[i]? = some row → rows[t]? = some (some row)

omit [DecidableEq Row] in
theorem Occupied.free {oldRows : List Row} {stage : ℕ → ℕ → Prop} {rows : List (Option Row)}
    {t : ℕ} (occupied : Occupied oldRows stage rows) (bound : t < rows.length)
    (free : ∀ i, ¬ stage i t) : rows[t]? = some none := by
  cases value : rows[t] with
  | none => rw [List.getElem?_eq_getElem bound, value]
  | some row =>
      obtain ⟨i, staged, -⟩ := occupied.sound t row (by rw [List.getElem?_eq_getElem bound, value])
      exact (free i staged).elim

omit [DecidableEq Row] in
theorem Occupied.place {oldRows : List Row} {stage : ℕ → ℕ → Prop} {rows : List (Option Row)}
    {i t : ℕ} {row : Row} (occupied : Occupied oldRows stage rows) (bound : t < rows.length)
    (free : ∀ i, ¬ stage i t) (source : oldRows[i]? = some row) :
    Occupied oldRows (fun a b => stage a b ∨ a = i ∧ b = t) (rows.set t (some row)) where
  sound := by
    intro b other value
    by_cases here : b = t
    · subst here
      rw [List.getElem?_set_self bound] at value
      cases value
      exact ⟨i, Or.inr ⟨rfl, rfl⟩, source⟩
    · rw [List.getElem?_set_ne (Ne.symm here)] at value
      obtain ⟨a, staged, found⟩ := occupied.sound b other value
      exact ⟨a, Or.inl staged, found⟩
  complete := by
    rintro a b other (staged | ⟨rfl, rfl⟩) found
    · have : t ≠ b := by
        rintro rfl
        exact free a staged
      rw [List.getElem?_set_ne this]
      exact occupied.complete a b other staged found
    · rw [source] at found
      cases found
      exact List.getElem?_set_self bound

omit [DecidableEq Row] in
theorem Occupied.congr {oldRows : List Row} {stage stage' : ℕ → ℕ → Prop}
    {rows : List (Option Row)} (occupied : Occupied oldRows stage rows)
    (same : ∀ i t, stage i t ↔ stage' i t) : Occupied oldRows stage' rows := by
  have : stage = stage' := funext fun i => funext fun t => propext (same i t)
  exact this ▸ occupied

theorem freePlace_ok {α : Type*} {rows : List (Option α)} {index newLen : ℕ}
    (bound : index < newLen) (free : rows[index]? = some none) :
    freePlace rows index newLen = .ok (rows.drop (index + 1)) := by
  obtain ⟨inside, value⟩ := List.getElem?_eq_some_iff.1 free
  simp [freePlace, Nat.not_le.2 bound, List.drop_eq_getElem_cons inside, value]

theorem takeAt_append {α : Type*} (before after : List (Option α)) (value : α) :
    takeAt (before ++ some value :: after) before.length =
      some (value, before ++ none :: after) := by
  simp [takeAt]

omit [DecidableEq Row] in
theorem mem_reduceOption_of_getElem? {rows : List (Option Row)} {row : Row} :
    row ∈ rows.reduceOption ↔ ∃ t : ℕ, rows[t]? = some (some row) := by
  rw [List.reduceOption_mem_iff, List.mem_iff_getElem?]

/-- Mounting a row that is in no place before the next row in place. -/
theorem shown_mount_next {rows : List (Option Row)} {page : Page} {row : Row} (index : ℕ)
    (shows : Shows (view.shown page) rows) (fresh : row ∉ rows.reduceOption) :
    view.shown (ops.mount page row (rows.drop (index + 1)).reduceOption.head?) =
      move row (rows.drop (index + 1)).reduceOption.head? (view.shown page) := by
  cases next : (rows.drop (index + 1)).reduceOption.head? with
  | none => exact view.shown_mount_last page row
  | some anchor =>
      have inPlace : anchor ∈ rows.reduceOption := by
        have member := List.mem_of_mem_head? next
        exact (List.Sublist.filterMap id (List.drop_sublist _ rows)).subset member
      exact view.shown_mount_before page row anchor (shows.subset inPlace)
        fun same => fresh (same ▸ inPlace)

/-- Every row on the page is in place. -/
def Covered (list : List Row) (rows : List (Option Row)) : Prop :=
  ∀ row ∈ list, row ∈ rows.reduceOption

theorem Covered.move {list : List Row} {rows : List (Option Row)} {t : ℕ} {row : Row}
    {before : Option Row} (covered : Covered list rows) (free : rows[t]? = some none) :
    Covered (move row before list) (rows.set t (some row)) := by
  intro other member
  have bound := (List.getElem?_eq_some_iff.1 free).1
  rcases mem_move.1 member with rfl | member
  · exact mem_reduceOption_of_getElem?.2 ⟨t, List.getElem?_set_self bound⟩
  · obtain ⟨t', there⟩ := mem_reduceOption_of_getElem?.1 (covered other member)
    have ne : t ≠ t' := by
      rintro rfl
      rw [free] at there
      cases there
    exact mem_reduceOption_of_getElem?.2 ⟨t', by rw [List.getElem?_set_ne ne, there]⟩

/-! ## Adding rows -/

/-- The row in a place was built there in this update, after `page`. -/
def BuiltAt (page : Page) (items : List (Option Item)) (index : ℕ) (row : Row) : Prop :=
  ∃ page' item, view.built page ⊆ view.built page' ∧ items[index]? = some (some item) ∧
    (ops.build page' index item).1 = row

/-- The loop that builds and mounts the new rows. -/
theorem addRows_ok {newLen : ℕ} {adds : List DiffOpAdd} {s : ApplyState Page Item Row}
    (ascending : (adds.map DiffOpAdd.at_).Pairwise (· < ·))
    (bound : ∀ add ∈ adds, add.at_ < newLen)
    (free : ∀ add ∈ adds, s.rows[add.at_]? = some none)
    (there : ∀ add ∈ adds, ∃ item, s.items[add.at_]? = some (some item))
    (append : ∀ add ∈ adds, add.mode = .append →
      ∀ t row, add.at_ < t → s.rows[t]? ≠ some (some row))
    (pageNodup : (view.shown s.page).Nodup) (shows : Shows (view.shown s.page) s.rows)
    (known : ∀ row ∈ view.shown s.page, row ∈ view.built s.page)
    (covered : Covered (view.shown s.page) s.rows) :
    ∃ s', addRows ops newLen adds s = .ok () s' ∧ s'.rows.length = s.rows.length ∧
      (∀ t, (∀ add ∈ adds, add.at_ ≠ t) → s'.rows[t]? = s.rows[t]?) ∧
      (∀ add ∈ adds, ∃ row, s'.rows[add.at_]? = some (some row) ∧
        BuiltAt view s.page s.items add.at_ row) ∧
      (view.shown s'.page).Nodup ∧ Shows (view.shown s'.page) s'.rows ∧
      Covered (view.shown s'.page) s'.rows ∧
      ∀ row ∈ view.shown s'.page, row ∈ view.built s'.page := by
  induction adds generalizing s with
  | nil => exact ⟨s, rfl, rfl, by simp, by simp, pageNodup, shows, covered, known⟩
  | cons add rest ih =>
      obtain ⟨later, ascending⟩ := List.pairwise_cons.1 ascending
      obtain ⟨item, itemThere⟩ := there add List.mem_cons_self
      have freeHere := free add List.mem_cons_self
      have place := (List.getElem?_eq_some_iff.1 freeHere).1
      have laterThan : ∀ other ∈ rest, add.at_ < other.at_ := fun other member =>
        later _ (List.mem_map_of_mem member)
      let row := (ops.build s.page add.at_ item).1
      let page := (ops.build s.page add.at_ item).2
      have fresh : row ∉ s.rows.reduceOption := fun inPlace =>
        view.fresh s.page add.at_ item (known _ (shows.subset inPlace))
      have mounted := shown_mount_next view add.at_
        (by simpa [page] using shows : Shows (view.shown page) s.rows) fresh
      -- with `append` the later places are free, so both modes mount before the next row in place
      have anchor : add.mode.anchor (s.rows.drop (add.at_ + 1)) =
          (s.rows.drop (add.at_ + 1)).reduceOption.head? := by
        cases mode : add.mode with
        | normal => rfl
        | append =>
            cases next : (s.rows.drop (add.at_ + 1)).reduceOption.head? with
            | none => rfl
            | some inPlace =>
                obtain ⟨t, value⟩ := mem_reduceOption_of_getElem?.1 (List.mem_of_mem_head? next)
                rw [List.getElem?_drop] at value
                exact (append add List.mem_cons_self mode _ inPlace (by omega) value).elim
      let after : ApplyState Page Item Row :=
        { s with
          items := s.items.set add.at_ none
          rows := s.rows.set add.at_ (some row)
          page := ops.mount page row (s.rows.drop (add.at_ + 1)).reduceOption.head? }
      have shownAfter : view.shown after.page =
          move row (s.rows.drop (add.at_ + 1)).reduceOption.head? (view.shown s.page) := by
        simpa [after, page] using mounted
      have builtAfter : view.built after.page = insert row (view.built s.page) := by
        simp [after, page, row]
      have other : ∀ {other}, other ∈ rest → after.rows[other.at_]? = s.rows[other.at_]? :=
        fun member => List.getElem?_set_ne (by have := laterThan _ member; omega)
      have otherItem : ∀ {other}, other ∈ rest → after.items[other.at_]? = s.items[other.at_]? :=
        fun member => List.getElem?_set_ne (by have := laterThan _ member; omega)
      obtain ⟨s', run, length, frame, placed, nodup, shows', covered', known'⟩ := @ih after ascending
        (fun op member => bound op (List.mem_cons_of_mem _ member))
        (fun op member => by rw [other member]; exact free op (List.mem_cons_of_mem _ member))
        (fun op member => by rw [otherItem member]; exact there op (List.mem_cons_of_mem _ member))
        (fun op member mode t row' less => by
          have := laterThan op member
          rw [show after.rows[t]? = s.rows[t]? from List.getElem?_set_ne (by omega)]
          exact append op (List.mem_cons_of_mem _ member) mode t row' less)
        (by rw [shownAfter]; exact nodup_move pageNodup)
        (by rw [shownAfter]; exact shows.move pageNodup freeHere fresh)
        (by
          intro other member
          rw [shownAfter, mem_move] at member
          rw [builtAfter]
          exact member.elim (fun same => Or.inl same) fun member => Or.inr (known other member))
        (by rw [shownAfter]; exact covered.move freeHere)
      refine ⟨s', ?_, by simpa [after] using length, fun t ne => ?_, ?_, nodup, shows', covered',
        known'⟩
      · simp only [addRows, freePlace_ok (bound add List.mem_cons_self) freeHere,
          takeAt_eq itemThere, anchor]
        exact run
      · rw [frame t fun op member => ne op (List.mem_cons_of_mem _ member)]
        exact List.getElem?_set_ne (ne add List.mem_cons_self)
      · intro op member
        rcases List.mem_cons.1 member with rfl | member
        · refine ⟨row, ?_, s.page, item, subset_rfl, itemThere, rfl⟩
          rw [frame _ fun op member => by have := laterThan op member; omega]
          exact List.getElem?_set_self place
        · obtain ⟨row', value, page', item', sub, found, made⟩ := placed op member
          refine ⟨row', value, page', item', ?_, by rwa [← otherItem member], made⟩
          exact (Set.subset_insert row _).trans (builtAfter ▸ sub)

end Steps

section Moves

variable [Target] {K : Type*} [DecidableEq K] {old new : FxIndexSet K}
variable {ops : ListOps Page Item Row} (view : PageView ops) {oldRows : List Row}

/-- The moves whose flag is `inDom` put rows that are not in place into distinct free places. -/
structure Placeable (old new : FxIndexSet K) (stage : ℕ → ℕ → Prop) (inDom : Bool)
    (moves : List DiffOpMove) : Prop where
  staged : ∀ i t, stage i t → goesTo old new i = some t
  goes : ∀ op ∈ moves, goesTo old new op.fromIndex = some op.toIndex
  nodup : (moves.map DiffOpMove.fromIndex).Nodup
  fresh : ∀ op ∈ moves, op.moveInDom = inDom → ∀ t, ¬ stage op.fromIndex t

/-- `stage` with the moves whose flag is `inDom` carried out. -/
def Moved (stage : ℕ → ℕ → Prop) (inDom : Bool) (moves : List DiffOpMove) (i t : ℕ) : Prop :=
  stage i t ∨ ∃ op ∈ moves, op.moveInDom = inDom ∧ op.fromIndex = i ∧ op.toIndex = t

section Placeable

variable {stage : ℕ → ℕ → Prop} {inDom : Bool} {op : DiffOpMove} {rest : List DiffOpMove}

theorem Placeable.free (placeable : Placeable old new stage inDom (op :: rest))
    (flag : op.moveInDom = inDom) (i : ℕ) : ¬ stage i op.toIndex := by
  intro staged
  have same := goesTo_inj (placeable.staged i _ staged) (placeable.goes op List.mem_cons_self)
  exact placeable.fresh op List.mem_cons_self flag _ (same ▸ staged)

theorem Placeable.skip (placeable : Placeable old new stage inDom (op :: rest)) :
    Placeable old new stage inDom rest where
  staged := placeable.staged
  goes := fun op member => placeable.goes op (List.mem_cons_of_mem _ member)
  nodup := (List.nodup_cons.1 placeable.nodup).2
  fresh := fun op member => placeable.fresh op (List.mem_cons_of_mem _ member)

theorem Placeable.step (placeable : Placeable old new stage inDom (op :: rest)) :
    Placeable old new (fun a b => stage a b ∨ a = op.fromIndex ∧ b = op.toIndex) inDom rest where
  staged := by
    rintro i t (staged | ⟨rfl, rfl⟩)
    · exact placeable.staged i t staged
    · exact placeable.goes op List.mem_cons_self
  goes := placeable.skip.goes
  nodup := placeable.skip.nodup
  fresh := by
    rintro other member flag t (staged | ⟨same, -⟩)
    · exact placeable.skip.fresh other member flag t staged
    · exact (List.nodup_cons.1 placeable.nodup).1 (List.mem_map.2 ⟨other, member, same⟩)

end Placeable

omit [Target] in
theorem moved_skip {stage : ℕ → ℕ → Prop} {inDom : Bool} {op : DiffOpMove}
    {rest : List DiffOpMove} (flag : op.moveInDom ≠ inDom) (i t : ℕ) :
    Moved stage inDom rest i t ↔ Moved stage inDom (op :: rest) i t := by
  simp [Moved, flag]

omit [Target] in
theorem moved_step {stage : ℕ → ℕ → Prop} {inDom : Bool} {op : DiffOpMove}
    {rest : List DiffOpMove} (flag : op.moveInDom = inDom) (i t : ℕ) :
    Moved (fun a b => stage a b ∨ a = op.fromIndex ∧ b = op.toIndex) inDom rest i t ↔
      Moved stage inDom (op :: rest) i t := by
  simp only [Moved, List.mem_cons, exists_eq_or_imp, flag, true_and]
  constructor
  · rintro ((staged | ⟨rfl, rfl⟩) | rest)
    · exact Or.inl staged
    · exact Or.inr (Or.inl ⟨rfl, rfl⟩)
    · exact Or.inr (Or.inr rest)
  · rintro (staged | ⟨rfl, rfl⟩ | rest)
    · exact Or.inl (Or.inl staged)
    · exact Or.inl (Or.inr ⟨rfl, rfl⟩)
    · exact Or.inr rest

/-- The loop over the rows that are left where they stand. -/
theorem settleInPlace_ok {stage : ℕ → ℕ → Prop} {moves : List DiffOpMove}
    {before : List (Option Row)} {s : ApplyState Page Item Row}
    (placeable : Placeable old new stage false moves) (sources : oldRows.length = old.len)
    (long : new.len ≤ s.rows.length) (occupied : Occupied oldRows stage s.rows)
    (carried : s.moving = before ++ moves.map fun op => oldRows[op.fromIndex]?) :
    ∃ s', settleInPlace ops new.len before.length moves s = .ok () s' ∧
      s'.items = s.items ∧ s'.rows.length = s.rows.length ∧
      Occupied oldRows (Moved stage false moves) s'.rows ∧
      s'.moving = before ++ moves.map (fun op =>
        if op.moveInDom then oldRows[op.fromIndex]? else none) ∧
      view.shown s'.page = view.shown s.page ∧ view.built s'.page = view.built s.page := by
  induction moves generalizing stage before s with
  | nil => exact ⟨s, rfl, rfl, rfl, occupied.congr (by simp [Moved]), by simpa using carried, rfl, rfl⟩
  | cons op rest ih =>
      have goes := placeable.goes op List.mem_cons_self
      have bounds := lt_of_goesTo goes
      obtain ⟨row, source⟩ : ∃ row, oldRows[op.fromIndex]? = some row :=
        ⟨_, List.getElem?_eq_getElem (by omega)⟩
      rw [List.map_cons, source] at carried
      cases flag : op.moveInDom with
      | true =>
          obtain ⟨s', run, items, length, occupied', moving, shown, built⟩ :=
            @ih _ (before ++ [some row]) _ placeable.skip long occupied (by simpa using carried)
          refine ⟨s', ?_, items, length,
            occupied'.congr (moved_skip (by simp [flag])), ?_, shown, built⟩
          · simpa [settleInPlace, flag] using run
          · simpa [flag, source] using moving
      | false =>
          have place : op.toIndex < s.rows.length := by omega
          have free := occupied.free place (placeable.free flag)
          obtain ⟨s', run, items, length, occupied', moving, shown, built⟩ :=
            @ih _ (before ++ [none])
              { s with
                moving := before ++ none :: rest.map fun op => oldRows[op.fromIndex]?
                rows := s.rows.set op.toIndex (some row)
                page := ops.setIndex s.page row op.toIndex }
              placeable.step (by simpa using long) (occupied.place place (placeable.free flag) source)
              (by simp)
          refine ⟨s', ?_, items, by simpa using length, occupied'.congr (moved_step flag), ?_,
            by simpa using shown, by simpa using built⟩
          · simpa [settleInPlace, flag, freePlace_ok bounds.2 free, carried, takeAt_append]
              using run
          · simpa [flag] using moving

/-- The loop over the rows that move on the page. -/
theorem moveOnPage_ok {stage : ℕ → ℕ → Prop} {moves : List DiffOpMove}
    {before : List (Option Row)} {s : ApplyState Page Item Row}
    (placeable : Placeable old new stage true moves) (sources : oldRows.length = old.len)
    (rowsNodup : oldRows.Nodup) (long : new.len ≤ s.rows.length)
    (occupied : Occupied oldRows stage s.rows)
    (carried : s.moving = before ++ moves.map fun op =>
      if op.moveInDom then oldRows[op.fromIndex]? else none)
    (pageNodup : (view.shown s.page).Nodup) (shows : Shows (view.shown s.page) s.rows)
    (onPage : ∀ op ∈ moves, ∀ row, oldRows[op.fromIndex]? = some row → row ∈ view.shown s.page) :
    ∃ s', moveOnPage ops new.len before.length moves s = .ok () s' ∧
      s'.items = s.items ∧ s'.rows.length = s.rows.length ∧
      Occupied oldRows (Moved stage true moves) s'.rows ∧
      (view.shown s'.page).Nodup ∧ Shows (view.shown s'.page) s'.rows ∧
      (∀ row, row ∈ view.shown s'.page ↔ row ∈ view.shown s.page) ∧
      view.built s'.page = view.built s.page := by
  induction moves generalizing stage before s with
  | nil => exact ⟨s, rfl, rfl, rfl, occupied.congr (by simp [Moved]), pageNodup, shows,
      fun _ => Iff.rfl, rfl⟩
  | cons op rest ih =>
      have goes := placeable.goes op List.mem_cons_self
      have bounds := lt_of_goesTo goes
      obtain ⟨row, source⟩ : ∃ row, oldRows[op.fromIndex]? = some row :=
        ⟨_, List.getElem?_eq_getElem (by omega)⟩
      have onPageRest : ∀ op ∈ rest, ∀ row, oldRows[op.fromIndex]? = some row →
          row ∈ view.shown s.page := fun op member => onPage op (List.mem_cons_of_mem _ member)
      cases flag : op.moveInDom with
      | false =>
          obtain ⟨s', run, items, length, occupied', nodup, shows', member, built⟩ :=
            @ih _ (before ++ [none]) _ placeable.skip long occupied
              (by simpa [flag] using carried) pageNodup shows onPageRest
          refine ⟨s', by simpa [moveOnPage, flag] using run, items, length,
            occupied'.congr (moved_skip (by simp [flag])), nodup, shows', member, built⟩
      | true =>
          rw [List.map_cons, source, if_pos flag] at carried
          have place : op.toIndex < s.rows.length := by omega
          have free := occupied.free place (placeable.free flag)
          have fresh : row ∉ s.rows.reduceOption := by
            intro inPlace
            obtain ⟨t, there⟩ := mem_reduceOption_of_getElem?.1 inPlace
            obtain ⟨i, staged, found⟩ := occupied.sound t row there
            have same : i = op.fromIndex := by
              obtain ⟨boundI, valueI⟩ := List.getElem?_eq_some_iff.1 found
              obtain ⟨boundJ, valueJ⟩ := List.getElem?_eq_some_iff.1 source
              exact (List.Nodup.getElem_inj_iff rowsNodup).1 (valueI.trans valueJ.symm)
            exact placeable.fresh op List.mem_cons_self flag t (same ▸ staged)
          have mounted := shown_mount_next view op.toIndex shows fresh
          have inPage := onPage op List.mem_cons_self row source
          have sameMembers : ∀ other, other ∈ view.shown (ops.mount s.page row
              (s.rows.drop (op.toIndex + 1)).reduceOption.head?) ↔ other ∈ view.shown s.page := by
            intro other
            rw [mounted, mem_move]
            exact ⟨fun member => member.elim (fun same => same ▸ inPage) id, Or.inr⟩
          obtain ⟨s', run, items, length, occupied', nodup, shows', member, built⟩ :=
            @ih _ (before ++ [none])
              { s with
                moving := before ++ none :: rest.map fun op =>
                  if op.moveInDom then oldRows[op.fromIndex]? else none
                rows := s.rows.set op.toIndex (some row)
                page := ops.setIndex (ops.mount s.page row
                  (s.rows.drop (op.toIndex + 1)).reduceOption.head?) row op.toIndex }
              placeable.step (by simpa using long) (occupied.place place (placeable.free flag) source)
              (by simp) (by simpa [mounted] using nodup_move pageNodup)
              (by simpa [mounted] using shows.move pageNodup free fresh)
              (by simpa [sameMembers] using onPageRest)
          refine ⟨s', ?_, items, by simpa using length, occupied'.congr (moved_step flag), nodup,
            shows', ?_, by simpa using built⟩
          · simpa [moveOnPage, flag, freePlace_ok bounds.2 free, carried, takeAt_append] using run
          · simpa [sameMembers] using member

end Moves

end Halyard.ListDiff
