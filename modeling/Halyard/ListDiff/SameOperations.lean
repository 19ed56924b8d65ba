import Halyard.ListDiff.Previous
import Halyard.ListDiff.FromScratch

/-!
# The same operations as the previous diff

Where the two plans agree, `apply_diff` does what `apply` does (`applyDiff_of_applyPlan`).  Where they
do not, the previous one leaves a row in place that passes a row that stays; neither of the two is
mounted or unmounted, so the page keeps them in their old order and is wrong (`Keeps.applyDiff`).

* `same_operations`: wherever the previous diff left the page right, the current one does the same
  operations.
-/

namespace Halyard.ListDiff.Previous

open Placement

/-! ## Plans that agree -/

section Agree

variable {Page Item Row : Type} {ops : ListOps Page Item Row} {s s' : ApplyState Page Item Row}

theorem takeAt_eq_some {α : Type*} {list rest : List (Option α)} {index : ℕ} {value : α}
    (taken : takeAt list index = some (value, rest)) :
    list[index]? = some (some value) ∧ rest = list.set index none := by
  unfold takeAt at taken
  split at taken
  next there =>
    simp only [Option.some.injEq, Prod.mk.injEq] at taken
    obtain ⟨rfl, rfl⟩ := taken
    exact ⟨there, rfl⟩
  next => cases taken

theorem freePlace_eq_ok {R : Type*} {rows after : List (Option R)} {index newLen : ℕ}
    (free : freePlace rows index newLen = .ok after) :
    rows.drop index = none :: after ∧ index < rows.length := by
  unfold freePlace at free
  split at free
  next => cases free
  next =>
    split at free
    next places here =>
      cases free
      refine ⟨here, ?_⟩
      by_contra past
      simp [List.drop_eq_nil_of_le (Nat.not_lt.mp past)] at here
    next => cases free

theorem nextRow_of_free {R : Type*} {rows after : List (Option R)} {index : ℕ}
    (free : rows.drop index = none :: after) : nextRow rows index = after.reduceOption.head? := by
  have first : ∀ slots : List (Option R),
      (slots.find? Option.isSome).join = slots.reduceOption.head? := by
    intro slots
    induction slots with
    | nil => rfl
    | cons slot rest ih =>
      cases slot with
      | none => simpa using ih
      | some row => simp
  rw [nextRow, free, first]
  simp

theorem removeRows_of_ok {indices : List ℕ} (run : ListDiff.removeRows ops indices s = .ok () s') :
    removeRows ops indices s = some s' := by
  induction indices generalizing s with
  | nil =>
    cases run
    rfl
  | cons index rest ih =>
    unfold ListDiff.removeRows at run
    unfold removeRows
    cases taken : takeAt s.rows index with
    | none => simp [taken] at run
    | some found =>
      rw [taken] at run
      exact ih run

theorem takeMoved_of_ok {moves : List ListDiff.DiffOpMove}
    (run : takeMoving moves s = .ok () s') : takeMoved (moves.map ofMove) s = some s' := by
  induction moves generalizing s with
  | nil =>
    cases run
    rfl
  | cons op rest ih =>
    unfold takeMoving at run
    cases taken : takeAt s.rows op.fromIndex with
    | none => simp [taken] at run
    | some found =>
      obtain ⟨row, rows⟩ := found
      obtain ⟨there, rfl⟩ := takeAt_eq_some taken
      rw [taken] at run
      rw [List.map_cons, takeMoved]
      simp only [ofMove, there]
      exact ih run

theorem placeMoved_of_ok {newLen index : ℕ} {moves : List ListDiff.DiffOpMove}
    (run : settleInPlace ops newLen index moves s = .ok () s') :
    placeMoved ops index (moves.map ofMove) s = some s' := by
  induction moves generalizing index s with
  | nil =>
    cases run
    rfl
  | cons op rest ih =>
    unfold settleInPlace at run
    rw [List.map_cons, placeMoved]
    cases inDom : op.moveInDom with
    | true =>
      simp only [inDom, if_true] at run
      simpa [ofMove, inDom] using ih run
    | false =>
      simp only [inDom, Bool.false_eq_true, if_false] at run
      cases free : freePlace s.rows op.toIndex newLen with
      | error error => simp [free] at run
      | ok after =>
        cases taken : takeAt s.moving index with
        | none => simp [free, taken] at run
        | some found =>
          obtain ⟨row, moving⟩ := found
          obtain ⟨there, rfl⟩ := takeAt_eq_some taken
          simp only [free, taken] at run
          simp only [ofMove, inDom, there, (freePlace_eq_ok free).2, if_true, Bool.false_eq_true,
            if_false]
          exact ih run

theorem mountMoved_of_ok {newLen index : ℕ} {moves : List ListDiff.DiffOpMove}
    (run : moveOnPage ops newLen index moves s = .ok () s') :
    mountMoved ops index (moves.map ofMove) s = some s' := by
  induction moves generalizing index s with
  | nil =>
    cases run
    rfl
  | cons op rest ih =>
    unfold moveOnPage at run
    rw [List.map_cons, mountMoved]
    cases inDom : op.moveInDom with
    | false =>
      simp only [inDom, Bool.not_false, if_true] at run
      simpa [ofMove, inDom] using ih run
    | true =>
      simp only [inDom, Bool.not_true, Bool.false_eq_true, if_false] at run
      cases free : freePlace s.rows op.toIndex newLen with
      | error error => simp [free] at run
      | ok after =>
        cases taken : takeAt s.moving index with
        | none => simp [free, taken] at run
        | some found =>
          obtain ⟨row, moving⟩ := found
          obtain ⟨empty, inside⟩ := freePlace_eq_ok free
          simp only [free, taken] at run
          simp only [ofMove, inDom, inside, nextRow_of_free empty, if_true, Bool.not_true,
            Bool.false_eq_true, if_false]
          exact ih run

theorem addRows_of_ok {newLen : ℕ} {adds : List DiffOpAdd}
    (run : ListDiff.addRows ops newLen adds s = .ok () s') : addRows ops adds s = some s' := by
  induction adds generalizing s with
  | nil =>
    cases run
    rfl
  | cons add rest ih =>
    unfold ListDiff.addRows at run
    unfold addRows
    cases free : freePlace s.rows add.at_ newLen with
    | error error => simp [free] at run
    | ok after =>
      cases taken : takeAt s.items add.at_ with
      | none => simp [free, taken] at run
      | some found =>
        obtain ⟨item, items⟩ := found
        obtain ⟨empty, inside⟩ := freePlace_eq_ok free
        simp only [free, taken] at run
        simp only [inside, if_true]
        cases mode : add.mode with
        | normal =>
          simp only [mode, DiffOpAddMode.anchor] at run
          rw [nextRow_of_free empty]
          exact ih run
        | append =>
          simp only [mode, DiffOpAddMode.anchor] at run
          exact ih run

/-- A step that is followed by another has run. -/
theorem ok_of_bind {step : ApplyM Page Item Row Unit} {next : Unit → ApplyM Page Item Row Unit}
    (run : (step >>= next) s = .ok () s') :
    ∃ middle, step s = .ok () middle ∧ next () middle = .ok () s' := by
  cases result : step s with
  | ok value middle => exact ⟨middle, rfl, by simpa [bind, EStateM.bind, result] using run⟩
  | error error middle => simp [bind, EStateM.bind, result] at run

variable [Target] {plan : ListDiff.Diff} {prev : Diff}

theorem eq_of_makeRoom {added : ℕ} (room : makeRoom added s = .ok () s') :
    s' = { s with rows := s.rows ++ List.replicate added none } := by
  cases fits : checkedAdd s.rows.length added with
  | none => simp [makeRoom, fits] at room
  | some length =>
    simp only [makeRoom, fits, EStateM.Result.ok.injEq, true_and] at room
    exact room.symm

omit [Target] in
theorem eq_of_checkPlaces {newLen : ℕ} (checked : checkPlaces plan newLen s = .ok () s') :
    s' = s := by
  cases fits : checkNewRows plan s.rows s.items newLen with
  | error error => simp [checkPlaces, fits] at checked
  | ok done =>
    simp only [checkPlaces, fits, EStateM.Result.ok.injEq, true_and] at checked
    exact checked.symm

theorem applyMoves_of_ok {newLen : ℕ} (same : SamePlan plan prev)
    (run : ListDiff.applyMoves ops plan newLen s = .ok () s') :
    ∃ after, applyMoves ops prev s = some after ∧ after.page = s'.page := by
  unfold ListDiff.applyMoves at run
  obtain ⟨s₁, removed, run⟩ := ok_of_bind run
  obtain ⟨s₂, taken, run⟩ := ok_of_bind run
  obtain ⟨s₃, room, run⟩ := ok_of_bind run
  obtain ⟨s₄, placed, run⟩ := ok_of_bind run
  obtain ⟨s₅, mounted, run⟩ := ok_of_bind run
  obtain ⟨s₆, checked, run⟩ := ok_of_bind run
  obtain ⟨s₇, added, run⟩ := ok_of_bind run
  cases run
  obtain rfl := eq_of_makeRoom room
  obtain rfl := eq_of_checkPlaces checked
  refine ⟨{ s₇ with rows := s₇.rows.filter Option.isSome }, ?_, rfl⟩
  simp only [applyMoves, same.removed, same.unpacked, same.added, removeRows_of_ok removed,
    takeMoved_of_ok taken, placeMoved_of_ok placed, mountMoved_of_ok mounted, addRows_of_ok added,
    Option.bind_eq_bind, Option.bind_some]
  rfl

/-- A plan that the current diff carries out in full, the previous one carries out with the same
effect on the page. -/
theorem applyDiff_of_applyPlan (same : SamePlan plan prev)
    (run : applyPlan ops plan s = .ok () s') :
    ∃ after, applyDiff ops prev s = some after ∧ after.page = s'.page := by
  unfold applyDiff
  rw [same.clear, same.added]
  cases clear : plan.clear with
  | false =>
    simp only [applyPlan, clear, Bool.false_eq_true, if_false] at run ⊢
    split at run
    · cases run
    · exact applyMoves_of_ok same run
  | true =>
    simp only [applyPlan, clear, if_true] at run ⊢
    split at run
    · cases run
    · cases empty : plan.added.isEmpty with
      | true =>
        simp only [empty, if_true] at run ⊢
        cases run
        exact ⟨_, rfl, rfl⟩
      | false =>
        simp only [empty, Bool.false_eq_true, if_false] at run ⊢
        exact applyMoves_of_ok same run

end Agree

/-! ## The page of the tests -/

/-- What the diff asked the list to do.  A row is its id; `Model.keys` has its key. -/
inductive Op (Key : Type) where
  | build (index : ℕ) (key : Key)
  | unmount (row : ℕ)
  | mount (row : ℕ) (before : Option ℕ)
  | setIndex (row : ℕ) (index : ℕ)
deriving DecidableEq

/-- The list's parent in a model DOM: the ids of the rows it shows, in order, the key of each row
built so far (so that their number is the next id), and what it was asked to do. -/
structure Model (Key : Type) where
  dom : List ℕ := []
  keys : List Key := []
  ops : List (Op Key) := []
  nodup : dom.Nodup := by simp

section Model

variable {Key : Type}

theorem nodup_mounted {dom : List ℕ} (nodup : dom.Nodup) (row : ℕ) (place : ℕ) :
    ((dom.filter (· != row)).insertIdx place row).Nodup := by
  by_cases bound : place ≤ (dom.filter (· != row)).length
  · rw [(List.perm_insertIdx row _ bound).nodup_iff, List.nodup_cons]
    exact ⟨by simp, nodup.filter _⟩
  · rw [List.insertIdx_of_length_lt (by omega)]
    exact nodup.filter _

/-- `mount`'s place: that of the row before which it mounts, or the end. -/
def placeBefore (dom : List ℕ) (before : Option ℕ) : ℕ :=
  (before.bind dom.idxOf?).getD dom.length

/-- `impl ListOps for Model`. -/
def testOps : ListOps (Model Key) Key ℕ where
  build model index key :=
    (model.keys.length,
      { model with keys := model.keys ++ [key], ops := model.ops ++ [.build index key] })
  unmount model row :=
    { model with
      dom := model.dom.filter (· != row)
      ops := model.ops ++ [.unmount row]
      nodup := model.nodup.filter _ }
  mount model row before :=
    let dom := model.dom.filter (· != row)
    { model with
      dom := dom.insertIdx (placeBefore dom before) row
      ops := model.ops ++ [.mount row before]
      nodup := nodup_mounted model.nodup row _ }
  setIndex model row index := { model with ops := model.ops ++ [.setIndex row index] }

/-- A keyed list in the model DOM; its keys are distinct. -/
structure TestList [Target] (Key : Type) where
  keys : FxIndexSet Key
  rows : List (Option ℕ)
  model : Model Key

namespace TestList

variable [Target]

/-- `List::new`: renders and mounts every key. -/
def new (keys : FxIndexSet Key) : TestList Key :=
  let (rows, model) := buildAll testOps 0 (keys.entries.map some) [] {}
  { keys, rows, model := { model with ops := [] } }

/-- `List::update`: the current diff. -/
def update [DecidableEq Key] (list : TestList Key) (keys : FxIndexSet Key) : TestList Key :=
  let after := reconcile testOps list.keys keys list.rows (keys.entries.map some) list.model
  { keys, rows := after.rows, model := after.page }

/-- `previous::update`. -/
def previousUpdate [DecidableEq Key] (list : TestList Key) (keys : FxIndexSet Key) :
    Option (TestList Key) :=
  (applyDiff testOps (diff list.keys keys)
    { rows := list.rows, items := keys.entries.map some, page := list.model }).map fun after =>
      { keys, rows := after.rows, model := after.page }

/-- The keys the page shows, in order. -/
def shown (list : TestList Key) : List (Option Key) :=
  list.model.dom.map fun id => list.model.keys[id]?

end TestList

theorem insertBefore_eq_insertIdx (row anchor : ℕ) (dom : List ℕ) :
    insertBefore row anchor dom = dom.insertIdx (placeBefore dom (some anchor)) row := by
  induction dom with
  | nil => rfl
  | cons first rest ih =>
    by_cases same : first = anchor
    · simp [insertBefore, placeBefore, List.idxOf?_cons, same]
    · have later : placeBefore (first :: rest) (some anchor) = placeBefore rest (some anchor) + 1 := by
        have other : (first == anchor) = false := by simpa using same
        simp only [placeBefore, Option.bind_some, List.idxOf?_cons, other, Bool.false_eq_true,
          if_false, List.length_cons]
        cases rest.idxOf? anchor <;> rfl
      rw [later, List.insertIdx_succ_cons, ← ih, insertBefore, if_neg same]

theorem placed_eq_move {dom : List ℕ} (nodup : dom.Nodup) (row : ℕ) (before : Option ℕ) :
    (dom.filter (· != row)).insertIdx (placeBefore (dom.filter (· != row)) before) row =
      move row before dom := by
  rw [← nodup.erase_eq_filter row]
  cases before with
  | none => exact List.insertIdx_length_self
  | some anchor => exact (insertBefore_eq_insertIdx row anchor _).symm

theorem insert_next (known : ℕ) : {row | row < known + 1} = insert known {row | row < known} := by
  ext row
  exact Nat.lt_succ_iff_lt_or_eq.trans or_comm

/-- The page of the tests, as a page that rows are shown on. -/
def testView : PageView (@testOps Key) where
  shown := Model.dom
  built model := { row | row < model.keys.length }
  shown_build _ _ _ := rfl
  fresh model _ _ := Nat.lt_irrefl model.keys.length
  built_build model index key := by
    have longer : (testOps.build model index key).2.keys.length = model.keys.length + 1 :=
      List.length_append
    rw [longer]
    exact insert_next model.keys.length
  shown_unmount model row := (model.nodup.erase_eq_filter row).symm
  built_unmount _ _ := rfl
  shown_mount_before model row anchor _ _ := placed_eq_move model.nodup row (some anchor)
  shown_mount_last model row := placed_eq_move model.nodup row none
  built_mount _ _ _ := rfl
  shown_setIndex _ _ _ := rfl
  built_setIndex _ _ _ := rfl

/-! ## A new list -/

theorem buildAll_testOps (items : List Key) (index : ℕ) (model : Model Key)
    (dom : model.dom = List.range model.keys.length) :
    (buildAll testOps index (items.map some) ((List.range model.keys.length).map some) model).1 =
        (List.range (model.keys.length + items.length)).map some ∧
      (buildAll testOps index (items.map some) ((List.range model.keys.length).map some)
        model).2.dom = List.range (model.keys.length + items.length) ∧
      (buildAll testOps index (items.map some) ((List.range model.keys.length).map some)
        model).2.keys = model.keys ++ items := by
  induction items generalizing index model with
  | nil => exact ⟨by simp [buildAll], by simpa [buildAll] using dom, by simp [buildAll]⟩
  | cons item rest ih =>
    let row := (testOps.build model index item).1
    let next := testOps.mount (testOps.build model index item).2 row none
    have keys : next.keys = model.keys ++ [item] := rfl
    have length : next.keys.length = model.keys.length + 1 := by simp [keys]
    have dom' : next.dom = List.range next.keys.length := by
      have placed := placed_eq_move model.nodup row none
      have absent : row ∉ model.dom := by simp [dom, row, testOps]
      rw [move, List.erase_of_not_mem absent] at placed
      rw [length, List.range_succ, ← dom]
      exact placed
    obtain ⟨rows, shown, keys'⟩ := ih (index + 1) next dom'
    have rows' : (List.range next.keys.length).map some =
        (List.range model.keys.length).map some ++ [some row] := by
      rw [length, List.range_succ, List.map_append]
      rfl
    have step : buildAll testOps index ((item :: rest).map some)
        ((List.range model.keys.length).map some) model =
        buildAll testOps (index + 1) (rest.map some)
          ((List.range next.keys.length).map some) next := by
      rw [rows']
      rfl
    rw [step, rows, shown, keys', length, keys, List.length_cons, Nat.add_right_comm, Nat.add_assoc]
    simp

/-- A new list shows its rows, numbered, in the order of its keys. -/
theorem TestList.new_spec [Target] (keys : FxIndexSet Key) :
    (TestList.new keys).rows = (List.range keys.len).map some ∧
      (TestList.new keys).model.dom = List.range keys.len ∧
      (TestList.new keys).model.keys = keys.entries := by
  have built := buildAll_testOps keys.entries 0 ({} : Model Key) rfl
  simp only [List.length_nil, List.range_zero, List.map_nil, Nat.zero_add, List.nil_append] at built
  exact built

/-! ## Rows that nothing mounts -/

/-- On the page, `a` stands before `b`, two of the rows that were there at the start. -/
structure Keeps (a b : ℕ) (start model : Model Key) : Prop where
  order : [a, b].Sublist model.dom
  keys : start.keys <+: model.keys
  known : a < start.keys.length ∧ b < start.keys.length

section Keeps

variable {a b row : ℕ} {start model : Model Key}

theorem Keeps.others (keeps : Keeps a b start model) (other : row ≠ a ∧ row ≠ b) :
    [a, b].Sublist (model.dom.filter (· != row)) := by
  have same : [a, b].filter (· != row) = [a, b] := by
    simp [other.1.symm, other.2.symm]
  rw [← same]
  exact keeps.order.filter _

theorem Keeps.unmount (keeps : Keeps a b start model) (other : row ≠ a ∧ row ≠ b) :
    Keeps a b start (testOps.unmount model row) :=
  ⟨keeps.others other, keeps.keys, keeps.known⟩

theorem Keeps.mount (keeps : Keeps a b start model) (other : row ≠ a ∧ row ≠ b)
    (before : Option ℕ) : Keeps a b start (testOps.mount model row before) :=
  ⟨(keeps.others other).trans (List.sublist_insertIdx _ _ _), keeps.keys, keeps.known⟩

theorem Keeps.setIndex (keeps : Keeps a b start model) (row index : ℕ) :
    Keeps a b start (testOps.setIndex model row index) :=
  ⟨keeps.order, keeps.keys, keeps.known⟩

theorem Keeps.build (keeps : Keeps a b start model) (index : ℕ) (key : Key) :
    Keeps a b start (testOps.build model index key).2 ∧
      (testOps.build model index key).1 ≠ a ∧ (testOps.build model index key).1 ≠ b := by
  have longer := keeps.keys.length_le
  have known := keeps.known
  refine ⟨⟨keeps.order, keeps.keys.trans (List.prefix_append _ _), keeps.known⟩, ?_⟩
  have next : (testOps.build model index key).1 = model.keys.length := rfl
  rw [next]
  omega

end Keeps

/-- Each row in place is the one that was rendered there. -/
def Own (rows : List (Option ℕ)) : Prop := ∀ t row : ℕ, rows[t]? = some (some row) → row = t

theorem Own.set_none {rows : List (Option ℕ)} (own : Own rows) (index : ℕ) :
    Own (rows.set index none) := by
  intro t row here
  rw [List.getElem?_set] at here
  split at here
  · split at here <;> simp at here
  · exact own t row here

/-- The rows taken out for the moves from the `i`-th on are those of the moves. -/
def Carried (moving : List (Option ℕ)) (i : ℕ) (moves : List DiffOpMove) : Prop :=
  ∀ (k : ℕ) (m : DiffOpMove) (row : ℕ),
    moves[k]? = some m → moving[i + k]? = some (some row) → row = m.fromIndex

theorem Carried.tail {moving : List (Option ℕ)} {i : ℕ} {m : DiffOpMove}
    {rest : List DiffOpMove} (carried : Carried moving i (m :: rest)) :
    Carried moving (i + 1) rest := by
  intro k other row found here
  refine carried (k + 1) other row found ?_
  rwa [← Nat.add_assoc, Nat.add_right_comm]

theorem Carried.take {moving : List (Option ℕ)} {i : ℕ} {moves : List DiffOpMove}
    (carried : Carried moving i moves) (index : ℕ) : Carried (moving.set index none) i moves := by
  intro k other row found here
  rw [List.getElem?_set] at here
  split at here
  · split at here <;> simp at here
  · exact carried k other row found here

section Loops

variable {a b : ℕ} {start : Model Key} {s s' : ApplyState (Model Key) Key ℕ}

theorem Keeps.removeRows {indices : List ℕ} (keeps : Keeps a b start s.page) (own : Own s.rows)
    (others : ∀ i ∈ indices, i ≠ a ∧ i ≠ b) (run : removeRows testOps indices s = some s') :
    Keeps a b start s'.page ∧ Own s'.rows ∧ s'.moving = s.moving := by
  induction indices generalizing s with
  | nil =>
    cases run
    exact ⟨keeps, own, rfl⟩
  | cons index rest ih =>
    unfold Previous.removeRows at run
    cases taken : takeAt s.rows index with
    | none => simp [taken] at run
    | some found =>
      obtain ⟨row, rows⟩ := found
      obtain ⟨there, rfl⟩ := takeAt_eq_some taken
      have other := others index List.mem_cons_self
      rw [← own index row there] at other
      simp only [taken] at run
      exact @ih { s with rows := s.rows.set index none, page := testOps.unmount s.page row }
        (keeps.unmount other) (own.set_none index)
        (fun i among => others i (List.mem_cons_of_mem _ among)) run

theorem takeMoved_carried {moves : List DiffOpMove} (own : Own s.rows)
    (run : takeMoved moves s = some s') :
    s'.page = s.page ∧ Carried s'.moving s.moving.length moves ∧
      s'.moving.take s.moving.length = s.moving := by
  induction moves generalizing s with
  | nil =>
    cases run
    exact ⟨rfl, by simp [Carried], by simp⟩
  | cons m rest ih =>
    unfold takeMoved at run
    cases slot : s.rows[m.fromIndex]? with
    | none => simp [slot] at run
    | some slot' =>
      simp only [slot] at run
      obtain ⟨page, carried, kept⟩ := @ih
        { s with rows := s.rows.set m.fromIndex none, moving := s.moving ++ [slot'] }
        (own.set_none _) run
      simp only [List.length_append, List.length_singleton] at carried kept
      have first : s'.moving[s.moving.length]? = some slot' := by
        have := congrArg (·[s.moving.length]?) kept
        simpa using this
      refine ⟨page, ?_, ?_⟩
      · intro k other row found here
        cases k with
        | zero =>
          simp only [List.getElem?_cons_zero, Option.some.injEq] at found
          subst found
          rw [Nat.add_zero, first, Option.some.injEq] at here
          subst here
          exact own _ row slot
        | succ k =>
          refine carried k other row found ?_
          rwa [Nat.add_assoc, Nat.add_comm 1]
      · have shorter := congrArg (·.take s.moving.length) kept
        simpa [List.take_take] using shorter

theorem Keeps.placeMoved {moves all : List DiffOpMove} {i : ℕ} (keeps : Keeps a b start s.page)
    (carried : Carried s.moving 0 all) (run : placeMoved testOps i moves s = some s') :
    Keeps a b start s'.page ∧ Carried s'.moving 0 all := by
  induction moves generalizing i s with
  | nil =>
    cases run
    exact ⟨keeps, carried⟩
  | cons m rest ih =>
    unfold Previous.placeMoved at run
    cases inDom : m.moveInDom with
    | true =>
      simp only [inDom, if_true] at run
      exact ih keeps carried run
    | false =>
      simp only [inDom, Bool.false_eq_true, if_false] at run
      cases slot : s.moving[i]? with
      | none => simp [slot] at run
      | some slot' =>
        simp only [slot] at run
        by_cases inside : m.toIndex < s.rows.length
        · rw [if_pos inside] at run
          cases slot' with
          | none =>
            exact @ih { s with moving := s.moving.set i none, rows := s.rows.set m.toIndex none }
              (i + 1) keeps (carried.take i) run
          | some row => exact ih (keeps.setIndex row m.toIndex) (carried.take i) run
        · rw [if_neg inside] at run
          cases run

theorem Keeps.mountMoved {moves : List DiffOpMove} {i : ℕ} (keeps : Keeps a b start s.page)
    (carried : Carried s.moving i moves)
    (others : ∀ m ∈ moves, m.moveInDom = true → m.fromIndex ≠ a ∧ m.fromIndex ≠ b)
    (run : mountMoved testOps i moves s = some s') : Keeps a b start s'.page := by
  induction moves generalizing i s with
  | nil =>
    cases run
    exact keeps
  | cons m rest ih =>
    have later : ∀ m ∈ rest, m.moveInDom = true → m.fromIndex ≠ a ∧ m.fromIndex ≠ b :=
      fun m among => others m (List.mem_cons_of_mem _ among)
    unfold Previous.mountMoved at run
    cases inDom : m.moveInDom with
    | false =>
      simp only [inDom, Bool.not_false, if_true] at run
      exact ih keeps carried.tail later run
    | true =>
      simp only [inDom, Bool.not_true, Bool.false_eq_true, if_false] at run
      cases taken : takeAt s.moving i with
      | none => simp [taken] at run
      | some found =>
        obtain ⟨row, moving⟩ := found
        obtain ⟨there, rfl⟩ := takeAt_eq_some taken
        have other := others m List.mem_cons_self inDom
        rw [← carried 0 m row rfl there] at other
        simp only [taken] at run
        by_cases inside : m.toIndex < s.rows.length
        · rw [if_pos inside] at run
          exact ih ((keeps.mount other _).setIndex row m.toIndex) (carried.tail.take i) later run
        · rw [if_neg inside] at run
          cases run

theorem Keeps.addRows {adds : List DiffOpAdd} (keeps : Keeps a b start s.page)
    (run : addRows testOps adds s = some s') : Keeps a b start s'.page := by
  induction adds generalizing s with
  | nil =>
    cases run
    exact keeps
  | cons add rest ih =>
    unfold Previous.addRows at run
    cases taken : takeAt s.items add.at_ with
    | none => simp [taken] at run
    | some found =>
      obtain ⟨item, items⟩ := found
      simp only [taken] at run
      by_cases inside : add.at_ < s.rows.length
      · rw [if_pos inside] at run
        obtain ⟨built, fresh⟩ := keeps.build add.at_ item
        exact ih (built.mount fresh _) run
      · rw [if_neg inside] at run
        cases run

/-- Two rows that are not removed and do not move on the page keep their order on it. -/
theorem Keeps.applyDiff {prev : Diff} (keeps : Keeps a b start s.page) (own : Own s.rows)
    (moving : s.moving = []) (notClear : prev.clear = false)
    (stay : ∀ i ∈ prev.removed, i ≠ a ∧ i ≠ b)
    (others : ∀ m ∈ (unpackMoves prev).1, m.moveInDom = true → m.fromIndex ≠ a ∧ m.fromIndex ≠ b)
    (run : applyDiff testOps prev s = some s') : Keeps a b start s'.page := by
  simp only [Previous.applyDiff, notClear, Bool.false_eq_true, if_false, applyMoves,
    Option.bind_eq_bind, Option.bind_eq_some_iff] at run
  obtain ⟨s₁, removed, s₂, taken, s₃, placed, s₄, mounted, s₅, added, last⟩ := run
  cases last
  obtain ⟨keeps₁, own₁, moving₁⟩ := keeps.removeRows own stay removed
  obtain ⟨page₂, carried, -⟩ := takeMoved_carried own₁ taken
  rw [moving₁, moving] at carried
  rw [← page₂] at keeps₁
  obtain ⟨keeps₃, carried₃⟩ := Keeps.placeMoved
    (s := { s₂ with rows := s₂.rows ++ List.replicate prev.added.length none })
    keeps₁ carried placed
  have keeps₅ := (keeps₃.mountMoved carried₃ others mounted).addRows added
  exact keeps₅

end Loops

/-! ## Plans that differ -/

section Differ

variable [Target] [DecidableEq Key] {old new : FxIndexSet Key}

omit [Target] in
/-- Elements of a list without repetitions stand in it in the order of their places. -/
theorem lt_of_pair_sublist {list : List Key} (nodup : list.Nodup) {p q : ℕ} {u v : Key}
    (atP : list[p]? = some u) (atQ : list[q]? = some v) (sub : [u, v].Sublist list) : p < q := by
  have ordered : list.Pairwise fun left right => list.idxOf left < list.idxOf right := by
    rw [List.pairwise_iff_getElem]
    intro i j boundI boundJ less
    rwa [nodup.idxOf_getElem i boundI, nodup.idxOf_getElem j boundJ]
  have less := List.rel_of_pairwise_cons (ordered.sublist sub) List.mem_cons_self
  obtain ⟨boundP, rfl⟩ := List.getElem?_eq_some_iff.mp atP
  obtain ⟨boundQ, rfl⟩ := List.getElem?_eq_some_iff.mp atQ
  rwa [nodup.idxOf_getElem p boundP, nodup.idxOf_getElem q boundQ] at less

omit [Target] in
theorem mem_inherit {moves : List ListDiff.DiffOpMove} {m : DiffOpMove}
    (among : m ∈ inherit none (moves.map ofMove)) :
    ∃ op ∈ moves, op.fromIndex = m.fromIndex ∧ op.toIndex = m.toIndex := by
  have pair := List.mem_map_of_mem (f := fun m : DiffOpMove => (m.fromIndex, m.toIndex)) among
  rw [indices_inherit, List.map_map] at pair
  obtain ⟨op, inMoves, same⟩ := List.mem_map.mp pair
  exact ⟨op, inMoves, congrArg Prod.fst same, congrArg Prod.snd same⟩

theorem goes_of_mem_inherit {m : DiffOpMove}
    (among : m ∈ inherit none ((accOf old new).moved.map ofMove)) :
    goesTo old new m.fromIndex = some m.toIndex ∧ stays old new m.fromIndex = false := by
  obtain ⟨op, inMoves, sameFrom, sameTo⟩ := mem_inherit among
  obtain ⟨i, -, planned⟩ := List.mem_filterMap.mp inMoves
  obtain ⟨rfl, goes, notStays, -⟩ := moveOf_eq_some planned
  rw [← sameFrom, ← sameTo]
  exact ⟨goes, notStays⟩

/-- Two moves of the previous plan from one place are one. -/
theorem inherit_inj {m m' : DiffOpMove}
    (among : m ∈ inherit none ((accOf old new).moved.map ofMove))
    (among' : m' ∈ inherit none ((accOf old new).moved.map ofMove))
    (same : m.fromIndex = m'.fromIndex) : m = m' := by
  have sources : (inherit none ((accOf old new).moved.map ofMove)).map DiffOpMove.fromIndex =
      (accOf old new).moved.map ListDiff.DiffOpMove.fromIndex := by
    have pairs := congrArg (List.map Prod.fst)
      (indices_inherit none ((accOf old new).moved.map ofMove))
    simpa [Function.comp_def, ofMove] using pairs
  have nodup : ((inherit none ((accOf old new).moved.map ofMove)).map
      DiffOpMove.fromIndex).Nodup := by
    rw [sources]
    exact nodup_moved_accAfter _
  exact List.inj_on_of_nodup_map nodup among among' same

/-- A row that the move passes stays strictly between its two places. -/
theorem exists_stays_of_passes {m : DiffOpMove} (passes : Passes old new m) :
    ∃ x, min m.fromIndex m.toIndex < x ∧ x < max m.fromIndex m.toIndex ∧
      stays old new x = true := by
  by_contra none
  push Not at none
  have flat : ∀ x, min m.fromIndex m.toIndex + 1 ≤ x → x ≤ max m.fromIndex m.toIndex →
      staying old new x = staying old new (min m.fromIndex m.toIndex + 1) := by
    intro x after
    induction x, after using Nat.le_induction with
    | base => exact fun _ => rfl
    | succ x after ih =>
      intro before
      have moves := none x (by omega) (by omega)
      rw [← ih (by omega)]
      simp [staying, List.range_succ, List.countP_append, moves]
  have less : min m.fromIndex m.toIndex + 1 ≤ max m.fromIndex m.toIndex := by
    by_contra past
    have := staying_mono old new
      (by omega : max m.fromIndex m.toIndex ≤ min m.fromIndex m.toIndex + 1)
    unfold Passes at passes
    omega
  have same := flat _ less (le_refl _)
  unfold Passes at passes
  omega

/-- If a row left in place passes one that stays, the previous diff leaves the page wrong. -/
theorem not_shown_of_passes (oldSome : old.entries ≠ []) (newSome : new.entries ≠ [])
    (small : max old.len new.len < 2 ^ 31 - 1) {m : DiffOpMove}
    (among : m ∈ inherit none ((accOf old new).moved.map ofMove)) (inPlace : m.moveInDom = false)
    (passes : Passes old new m) {after : TestList Key}
    (run : (TestList.new old).previousUpdate new = some after) :
    after.shown ≠ new.entries.map some := by
  obtain ⟨rows, dom, keys⟩ := TestList.new_spec old
  obtain ⟨removed, -, clear, unpacked⟩ := diff_eq oldSome newSome small
  obtain ⟨goes, moves⟩ := goes_of_mem_inherit among
  obtain ⟨x, afterLow, beforeHigh, kept⟩ := exists_stays_of_passes passes
  have bounds := lt_of_goesTo goes
  have keptGoes := goesTo_of_stays kept (by omega)
  have keptBounds := lt_of_goesTo keptGoes
  have apart : x ≠ m.fromIndex := fun same => by simp [← same, kept] at moves
  obtain ⟨state, applied, rfl⟩ := Option.map_eq_some_iff.mp run
  -- the two rows keep their order
  have ordered : ∀ a b, a = m.fromIndex ∧ b = x ∨ a = x ∧ b = m.fromIndex → a < b →
      Keeps a b (TestList.new old).model state.page := by
    intro a b which less
    have start : Keeps a b (TestList.new old).model (TestList.new old).model := by
      refine ⟨?_, List.prefix_refl _, ?_⟩
      · rw [dom]
        have first : [a].Sublist (List.range b) :=
          List.singleton_sublist.mpr (List.mem_range.mpr less)
        have both : [a, b].Sublist (List.range (b + 1)) := by
          rw [List.range_succ]
          exact first.append (List.Sublist.refl [b])
        exact both.trans (List.range_sublist.mpr (by omega))
      · rw [keys]
        have : old.entries.length = old.len := rfl
        omega
    refine Keeps.applyDiff (s := { rows := (TestList.new old).rows, items := _, page := _ }) start ?_
      rfl clear ?_ ?_ applied
    · intro t row here
      simp only [rows, List.getElem?_map, Option.map_eq_some_iff] at here
      obtain ⟨row', found, same⟩ := here
      obtain ⟨inside, rfl⟩ := List.getElem?_eq_some_iff.mp found
      simpa using same.symm
    · intro i isRemoved
      change i ∈ (diff old new).removed at isRemoved
      rw [removed] at isRemoved
      have gone : removedAt old new i = true := (List.mem_filter.mp isRemoved).2
      have notFrom : i ≠ m.fromIndex := fun same => by
        rw [same, not_removedAt_of_goesTo goes] at gone
        cases gone
      have notKept : i ≠ x := fun same => by
        rw [same, not_removedAt_of_goesTo keptGoes] at gone
        cases gone
      omega
    · intro other isMove inDom
      change other ∈ (unpackMoves (diff old new)).1 at isMove
      rw [unpacked] at isMove
      have notFrom : other.fromIndex ≠ m.fromIndex := fun same => by
        rw [inherit_inj isMove among same, inPlace] at inDom
        cases inDom
      have notKept : other.fromIndex ≠ x := fun same => by
        have := (goes_of_mem_inherit isMove).2
        rw [same, kept] at this
        cases this
      omega
  intro right
  -- and so do their keys, which the new list has the other way round
  have places : ∀ a b p q, goesTo old new a = some p → goesTo old new b = some q →
      Keeps a b (TestList.new old).model state.page → p < q := by
    intro a b p q goesA goesB keeps
    have key : ∀ {i t}, goesTo old new i = some t →
        (new.entries.map some)[t]? = some state.page.keys[i]? := by
      intro i t goesI
      obtain ⟨key, inOld, inNew⟩ := goesTo_eq_some.mp goesI
      have known : state.page.keys[i]? = some key := by
        obtain ⟨more, extended⟩ := keeps.keys
        rw [← extended, keys, List.getElem?_append_left (lt_of_goesTo goesI).1]
        exact inOld
      rw [known, List.getElem?_map]
      exact congrArg (Option.map some) inNew
    have sub := keeps.order.map fun id => state.page.keys[id]?
    have shown : state.page.dom.map (fun id => state.page.keys[id]?) = new.entries.map some := right
    rw [shown] at sub
    exact lt_of_pair_sublist (new.nodup.map (Option.some_injective Key)) (key goesA) (key goesB) sub
  rcases Nat.lt_or_gt_of_ne apart with before | after
  · have := places x m.fromIndex x m.toIndex keptGoes goes
      (ordered x m.fromIndex (.inr ⟨rfl, rfl⟩) before)
    omega
  · have := places m.fromIndex x m.toIndex x goes keptGoes
      (ordered m.fromIndex x (.inl ⟨rfl, rfl⟩) after)
    omega

/-! ## The operations -/

/-- Wherever the previous diff leaves the page showing the new order, the current one asks for the
same operations, in the same order and with the same arguments. -/
theorem sameOperations_of_small (small : max old.len new.len < 2 ^ 31 - 1)
    (right : ((TestList.new old).previousUpdate new).map TestList.shown =
      some (new.entries.map some)) :
    ((TestList.new old).previousUpdate new).map (·.model.ops) =
      some ((TestList.new old).update new).model.ops := by
  obtain ⟨after, run, shown⟩ := Option.map_eq_some_iff.mp right
  obtain ⟨rows, dom, keys⟩ := TestList.new_spec old
  rcases samePlan_or_passes small with ⟨plan, planned, same⟩ | ⟨oldSome, newSome, m, among, wrong⟩
  · have known : ∀ row ∈ List.range old.len, row ∈ testView.built (TestList.new old).model := by
      intro row member
      have length : (TestList.new old).model.keys.length = old.len := congrArg List.length keys
      change row < (TestList.new old).model.keys.length
      rw [length]
      exact List.mem_range.mp member
    obtain ⟨plan', s', planned', applied, -⟩ := applyPlan_diff testView old new
      (List.range old.len) new.entries (TestList.new old).model List.length_range rfl
      List.nodup_range dom known
    cases planned.symm.trans planned'
    obtain ⟨state, previously, samePage⟩ := applyDiff_of_applyPlan same applied
    have current := reconcile_eq List.length_range rfl planned applied
    rw [← rows] at current previously
    have updated : ((TestList.new old).update new).model = s'.page :=
      congrArg Reconciled.page current
    have before : (TestList.new old).previousUpdate new =
        some { keys := new, rows := state.rows, model := state.page } := by
      simp only [TestList.previousUpdate]
      exact congrArg (Option.map _) previously
    rw [before, updated, ← samePage]
    rfl
  · exact absurd shown (not_shown_of_passes oldSome newSome small among wrong.1 wrong.2 run)

end Differ

end Model

/-! ## The keys of the tests -/

/-- There are no more keys than a `u16` has values. -/
theorem len_le_of_u16 [Target] (keys : FxIndexSet UInt16) : keys.len ≤ 65536 := by
  have distinct : (keys.entries.map UInt16.toFin).Nodup :=
    keys.nodup.map fun left right same => UInt16.toFin_inj.mp same
  have few := distinct.length_le_card
  simpa [FxIndexSet.len] using few

/-- For all lists of distinct keys: where `previous::update` leaves the page showing the new order,
`reconcile` performs the same builds, unmounts, mounts and index updates, in the same order and
with the same arguments. -/
theorem same_operations [Target] (old new : FxIndexSet UInt16)
    (right : ((TestList.new old).previousUpdate new).map TestList.shown =
      some (new.entries.map some)) :
    ((TestList.new old).previousUpdate new).map (·.model.ops) =
      some ((TestList.new old).update new).model.ops := by
  have fewOld := len_le_of_u16 old
  have fewNew := len_le_of_u16 new
  exact sameOperations_of_small (by omega) right

section Browser

/-- A browser's pointer width. -/
local instance browserTarget : Target := ⟨32⟩

/-- The keys `1, 2, 3, 4` become `4, 5, 1, 2`. -/
theorem same_operations_moved :
    ((TestList.new (⟨[1, 2, 3, 4], by decide, by decide⟩ : FxIndexSet UInt16)).previousUpdate
      ⟨[4, 5, 1, 2], by decide, by decide⟩).map (·.model.ops) =
      some ((TestList.new (⟨[1, 2, 3, 4], by decide, by decide⟩ : FxIndexSet UInt16)).update
        ⟨[4, 5, 1, 2], by decide, by decide⟩).model.ops :=
  same_operations ⟨[1, 2, 3, 4], by decide, by decide⟩ ⟨[4, 5, 1, 2], by decide, by decide⟩
    (by decide)

end Browser

end Halyard.ListDiff.Previous
