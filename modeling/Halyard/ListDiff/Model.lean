import Mathlib

/-!
# The keyed list diff

`view/list_diff.rs`, function by function: `diff` plans an update from two key sets, `apply`
carries a plan out on the rendered rows through `ListOps`, and `reconcile` is what `<For>` calls.
A plan that does not fit leaves the state as far as it got, so `apply` returns the state of a
refusal too (`EStateM.Result`), and the list is rendered from scratch from there.

`usize` arithmetic is the source's: `checkedAdd`, `checkedSub` and `saturatingAdd` of a `Target`.
-/

namespace Halyard.ListDiff

/-! ## Machine integers and key sets -/

/-- The target's pointer width: 32 in the browser, 64 on a server. -/
class Target where
  bits : ℕ

/-- `usize::MAX`. -/
def usizeMax [Target] : ℕ := 2 ^ Target.bits - 1

/-- `isize::MAX`, which no `Vec` or `IndexSet` outgrows. -/
def isizeMax [Target] : ℕ := 2 ^ (Target.bits - 1) - 1

def checkedAdd [Target] (a b : ℕ) : Option ℕ :=
  if a + b ≤ usizeMax then some (a + b) else none

def checkedSub (a b : ℕ) : Option ℕ :=
  if b ≤ a then some (a - b) else none

def saturatingAdd [Target] (a b : ℕ) : ℕ :=
  min (a + b) usizeMax

/-- An insertion-ordered set of keys. -/
structure FxIndexSet [Target] (K : Type*) where
  entries : List K
  nodup : entries.Nodup
  length_le : entries.length ≤ isizeMax

namespace FxIndexSet

variable [Target] {K : Type*}

def len (set : FxIndexSet K) : ℕ := set.entries.length

def isEmpty (set : FxIndexSet K) : Bool := set.entries.isEmpty

def getIndex (set : FxIndexSet K) (index : ℕ) : Option K := set.entries[index]?

def contains [DecidableEq K] (set : FxIndexSet K) (key : K) : Bool := set.entries.contains key

def getIndexOf [DecidableEq K] (set : FxIndexSet K) (key : K) : Option ℕ := set.entries.idxOf? key

end FxIndexSet

/-! ## Plans -/

/-- The errors of an update (`ListError`; the other ones are of other list views). -/
inductive ListError where
  | repeatedKeys (items keys : ℕ)
  | invariant (state : String)
deriving DecidableEq, Repr

inductive DiffOpAddMode where
  /-- Before the next row in place. -/
  | normal
  /-- At the end of the list (the old list was empty). -/
  | append
deriving DecidableEq, Repr

structure DiffOpAdd where
  at_ : ℕ
  mode : DiffOpAddMode
deriving DecidableEq, Repr

structure DiffOpMove where
  fromIndex : ℕ
  toIndex : ℕ
  moveInDom : Bool
deriving DecidableEq, Repr

structure Diff where
  removed : List ℕ := []
  moved : List DiffOpMove := []
  added : List DiffOpAdd := []
  clear : Bool := false
deriving DecidableEq, Repr

/-! ## `diff` -/

/-- The variables of `diff`'s loop. -/
structure DiffAcc where
  removed : List ℕ := []
  moved : List DiffOpMove := []
  added : List DiffOpAdd := []
  staysBefore : List ℕ := []
  stays : ℕ := 0

section Diff

variable [Target] {K : Type*} [DecidableEq K]

/-- One turn of `diff`'s loop. -/
def diffStep (old new : FxIndexSet K) (acc : DiffAcc) (index : ℕ) : Except ListError DiffAcc :=
  let staysBefore := acc.staysBefore ++ [acc.stays]
  let fromKey := old.getIndex index
  let toKey := new.getIndex index
  if fromKey = toKey then
    .ok { acc with staysBefore, stays := saturatingAdd acc.stays 1 }
  else
    let newIndex := fromKey.bind new.getIndexOf
    let removed :=
      if fromKey.isSome && newIndex.isNone then acc.removed ++ [index] else acc.removed
    let added :=
      if toKey.any fun key => !old.contains key then acc.added ++ [⟨index, .normal⟩]
      else acc.added
    match newIndex with
    | none => .ok { acc with staysBefore, removed, added }
    | some toIndex =>
        match checkedAdd index added.length, checkedAdd toIndex removed.length with
        | some shifted, some target =>
            .ok { acc with
              staysBefore, removed, added
              moved := acc.moved ++ [⟨index, toIndex, shifted != target⟩] }
        | _, _ => .error (.invariant "an index overflows")

/-- Whether a row that stays at its index lies strictly between the two indices. -/
def passesARowThatStays (staysBefore : List ℕ) (fromIndex toIndex : ℕ) :
    Except ListError Bool :=
  let low := min fromIndex toIndex
  let high := max fromIndex toIndex
  match (checkedAdd low 1).bind (staysBefore[·]?), staysBefore[high]? with
  | some afterLow, some beforeHigh => .ok (decide (beforeHigh > afterLow))
  | _, _ => .error (.invariant "an index is past the end of the list")

/-- Whether `op` is next to `run`, the move before it, in both lists. -/
def continuesRun (run op : DiffOpMove) : Bool :=
  checkedAdd run.fromIndex 1 == some op.fromIndex && checkedAdd run.toIndex 1 == some op.toIndex

/-- Whether `op`, after `previous`, moves on the page: a run of adjacent moves moves on the page
or stays as its first row does. -/
def movesOnPage (staysBefore : List ℕ) (previous : Option DiffOpMove) (op : DiffOpMove) :
    Except ListError Bool :=
  match previous.filter (continuesRun · op) with
  | some run => .ok run.moveInDom
  | none =>
      if op.moveInDom then .ok true
      else passesARowThatStays staysBefore op.fromIndex op.toIndex

/-- `diff`'s second loop. -/
def settleMoves (staysBefore : List ℕ) :
    Option DiffOpMove → List DiffOpMove → Except ListError (List DiffOpMove)
  | _, [] => .ok []
  | previous, op :: rest => do
      let moveInDom ← movesOnPage staysBefore previous op
      let op := { op with moveInDom }
      let rest ← settleMoves staysBefore (some op) rest
      return op :: rest

/-- Plans the update from the rows of `old` to the rows of `new`. -/
def diff (old new : FxIndexSet K) : Except ListError Diff :=
  if new.isEmpty then
    .ok { clear := !old.isEmpty }
  else if old.isEmpty then
    .ok { added := (List.range new.len).map fun index => ⟨index, .append⟩ }
  else do
    let len := max old.len new.len
    let acc ← (List.range len).foldlM (diffStep old new) {}
    let moved ← settleMoves (acc.staysBefore ++ [acc.stays]) none acc.moved
    return { removed := acc.removed, moved, added := acc.added }

end Diff

/-! ## `apply` -/

/-- The rendered list that the diff updates: what each operation does to the page. -/
structure ListOps (Page Item Row : Type) where
  /-- Builds the row of an item of the new list, without mounting it. -/
  build : Page → ℕ → Item → Row × Page
  /-- Takes a row off the page. -/
  unmount : Page → Row → Page
  /-- Puts a row on the page (moving it if it is there) before another, or last. -/
  mount : Page → Row → Option Row → Page
  /-- Tells a row its new index. -/
  setIndex : Page → Row → ℕ → Page

/-- What `apply` works on: the retained rows, the new items, the rows taken out to be moved, and
the page. -/
structure ApplyState (Page Item Row : Type) where
  rows : List (Option Row)
  items : List (Option Item)
  moving : List (Option Row) := []
  page : Page

section Apply

variable {Page Item Row : Type}

/-- A step of `apply`: it may refuse, and then leaves the state as far as it got. -/
abbrev ApplyM (Page Item Row : Type) :=
  EStateM ListError (ApplyState Page Item Row)

/-- `get_mut(index).and_then(Option::take)`: the entry and the list without it. -/
def takeAt {α : Type*} (list : List (Option α)) (index : ℕ) : Option (α × List (Option α)) :=
  match list[index]? with
  | some (some value) => some (value, list.set index none)
  | _ => none

/-- `rows.drain(..).flatten()`, each row unmounted. -/
def unmountAll (ops : ListOps Page Item Row) (page : Page) (rows : List (Option Row)) : Page :=
  rows.reduceOption.foldl ops.unmount page

/-- The places after the free place at `index` of the new list, or why that place is not free. -/
def freePlace {R : Type*} (rows : List (Option R)) (index newLen : ℕ) :
    Except ListError (List (Option R)) :=
  if index ≥ newLen then
    .error (.invariant "a row's new index is past the end of the list")
  else
    match rows.drop index with
    | none :: after => .ok after
    | _ => .error (.invariant "two rows are given the same index")

/-- The loop over the rows to remove. -/
def removeRows (ops : ListOps Page Item Row) : List ℕ → ApplyM Page Item Row Unit
  | [], s => .ok () s
  | at_ :: rest, s =>
      match takeAt s.rows at_ with
      | none => .error (.invariant "a row to remove is missing") s
      | some (row, rows) =>
          removeRows ops rest { s with rows, page := ops.unmount s.page row }

/-- The loop that takes the rows to move out of `rows`. -/
def takeMoving : List DiffOpMove → ApplyM Page Item Row Unit
  | [], s => .ok () s
  | op :: rest, s =>
      match takeAt s.rows op.fromIndex with
      | none => .error (.invariant "a row to move is missing") s
      | some (row, rows) => takeMoving rest { s with rows, moving := s.moving ++ [some row] }

/-- The loop over the moved rows whose place on the page is right; `index` is the position in
`moving` that the loop is at. -/
def settleInPlace (ops : ListOps Page Item Row) (newLen : ℕ) :
    ℕ → List DiffOpMove → ApplyM Page Item Row Unit
  | _, [], s => .ok () s
  | index, op :: rest, s =>
      if op.moveInDom then settleInPlace ops newLen (index + 1) rest s
      else
        match freePlace s.rows op.toIndex newLen, takeAt s.moving index with
        | .error error, _ => .error error s
        | .ok _, none => .error (.invariant "a row moves twice") s
        | .ok _, some (row, moving) =>
            settleInPlace ops newLen (index + 1) rest
              { s with
                moving
                rows := s.rows.set op.toIndex (some row)
                page := ops.setIndex s.page row op.toIndex }

/-- The loop over the rows that move on the page, each before the next row that is in place. -/
def moveOnPage (ops : ListOps Page Item Row) (newLen : ℕ) :
    ℕ → List DiffOpMove → ApplyM Page Item Row Unit
  | _, [], s => .ok () s
  | index, op :: rest, s =>
      if !op.moveInDom then moveOnPage ops newLen (index + 1) rest s
      else
        match freePlace s.rows op.toIndex newLen, takeAt s.moving index with
        | .error error, _ => .error error s
        | .ok _, none => .error (.invariant "a row moves twice") s
        | .ok after, some (row, moving) =>
            let page := ops.mount s.page row after.reduceOption.head?
            moveOnPage ops newLen (index + 1) rest
              { s with
                moving
                rows := s.rows.set op.toIndex (some row)
                page := ops.setIndex page row op.toIndex }

/-- `check_new_rows`' loop: every new row fits a free place, after the new row before it. -/
def newRowsFit {R I : Type*} (places : List (Option R)) (items : List (Option I)) :
    Option ℕ → List DiffOpAdd → Bool
  | _, [] => true
  | previous, add :: rest =>
      (previous.all fun previous => decide (add.at_ > previous)) &&
        (places[add.at_]?.any Option.isNone) && (items[add.at_]?.any Option.isSome) &&
        newRowsFit places items (some add.at_) rest

/-- Checks that the new rows fill exactly the free places of the new list, each from an item that
is there. -/
def checkNewRows {R I : Type*} (diff : Diff) (rows : List (Option R)) (items : List (Option I))
    (newLen : ℕ) : Except ListError Unit :=
  if rows.length < newLen then
    .error (.invariant "the new list has too few places")
  else if (rows.drop newLen).any Option.isSome then
    .error (.invariant "a row is left past the end of the list")
  else if (rows.take newLen).countP Option.isNone ≠ diff.added.length then
    .error (.invariant "the new rows do not fill the free places")
  else if newRowsFit (rows.take newLen) items none diff.added then
    .ok ()
  else
    .error (.invariant "a new row does not fit a free place")

/-- The row before which a new row is mounted, given the places after its own. -/
def DiffOpAddMode.anchor {R : Type*} (after : List (Option R)) : DiffOpAddMode → Option R
  | .normal => after.reduceOption.head?
  | .append => none

/-- The loop that builds and mounts the new rows. -/
def addRows (ops : ListOps Page Item Row) (newLen : ℕ) :
    List DiffOpAdd → ApplyM Page Item Row Unit
  | [], s => .ok () s
  | add :: rest, s =>
      match freePlace s.rows add.at_ newLen, takeAt s.items add.at_ with
      | .error error, _ => .error error s
      | .ok _, none => .error (.invariant "an item to add is missing") s
      | .ok after, some (item, items) =>
          let (row, page) := ops.build s.page add.at_ item
          addRows ops newLen rest
            { s with
              items
              rows := s.rows.set add.at_ (some row)
              page := ops.mount page row (add.mode.anchor after) }

/-- `rows.resize_with(rows.len() + added.len(), || None)`, refused on overflow. -/
def makeRoom [Target] (added : ℕ) : ApplyM Page Item Row Unit
  | s =>
      match checkedAdd s.rows.length added with
      | none => .error (.invariant "an index overflows") s
      | some _ => .ok () { s with rows := s.rows ++ List.replicate added none }

/-- `check_new_rows` on the rows and items as they are. -/
def checkPlaces (diff : Diff) (newLen : ℕ) : ApplyM Page Item Row Unit
  | s =>
      match checkNewRows diff s.rows s.items newLen with
      | .error error => .error error s
      | .ok () => .ok () s

/-- `rows.truncate(new_len)`. -/
def truncateRows (newLen : ℕ) : ApplyM Page Item Row Unit
  | s => .ok () { s with rows := s.rows.take newLen }

/-- Everything `apply_plan` does after its first check and the clearing of the list. -/
def applyMoves [Target] (ops : ListOps Page Item Row) (diff : Diff) (newLen : ℕ) :
    ApplyM Page Item Row Unit := do
  removeRows ops diff.removed
  takeMoving diff.moved
  makeRoom diff.added.length
  settleInPlace ops newLen 0 diff.moved
  moveOnPage ops newLen 0 diff.moved
  checkPlaces diff newLen
  addRows ops newLen diff.added
  truncateRows newLen

def applyPlan [Target] (ops : ListOps Page Item Row) (diff : Diff) :
    ApplyM Page Item Row Unit
  | s =>
      let newLen := s.items.length
      let kept := if diff.clear then some 0 else checkedSub s.rows.length diff.removed.length
      if kept.bind (checkedAdd · diff.added.length) ≠ some newLen then
        .error (.invariant "the plan does not account for every row") s
      else if diff.clear then
        let cleared := { s with rows := [], page := unmountAll ops s.page s.rows }
        if diff.added.isEmpty then .ok () cleared else applyMoves ops diff newLen cleared
      else
        applyMoves ops diff newLen s

/-- Carries out a plan; the rows still in flight when it is refused are unmounted. -/
def apply [Target] (ops : ListOps Page Item Row) (diff : Diff) : ApplyM Page Item Row Unit
  | s =>
      match applyPlan ops diff { s with moving := [] } with
      | .ok () s => .ok () s
      | .error error s =>
          .error error { s with moving := [], page := unmountAll ops s.page s.moving }

/-! ## `reconcile` -/

/-- What an update leaves: the retained rows, the page, and the error it logged. -/
structure Reconciled (Page Row : Type) where
  rows : List (Option Row)
  page : Page
  reported : Option ListError := none

/-- The loop that builds and mounts every item that is still there, from `index` on. -/
def buildAll (ops : ListOps Page Item Row) :
    ℕ → List (Option Item) → List (Option Row) → Page → List (Option Row) × Page
  | _, [], rows, page => (rows, page)
  | index, none :: items, rows, page => buildAll ops (index + 1) items rows page
  | index, some item :: items, rows, page =>
      let (row, page) := ops.build page index item
      buildAll ops (index + 1) items (rows ++ [some row]) (ops.mount page row none)

/-- Unmounts every row, then builds and mounts every item, in order. -/
def rebuildFromScratch (ops : ListOps Page Item Row) (rows : List (Option Row))
    (items : List (Option Item)) (page : Page) (reported : ListError) : Reconciled Page Row :=
  let (rows, page) := buildAll ops 0 items [] (unmountAll ops page rows)
  { rows, page, reported := some reported }

/-- Carries out a plan, or renders the list from scratch where the plan does not fit. -/
def applyOrRebuild [Target] (ops : ListOps Page Item Row) (diff : Diff)
    (rows : List (Option Row)) (items : List (Option Item)) (page : Page) : Reconciled Page Row :=
  match apply ops diff { rows, items, page } with
  | .ok () s => { rows := s.rows, page := s.page }
  | .error error s => rebuildFromScratch ops s.rows s.items s.page error

/-- Updates `rows`, rendered for `oldKeys`, to show `items`, whose keys are `newKeys`. -/
def reconcile [Target] {K : Type*} [DecidableEq K] (ops : ListOps Page Item Row)
    (oldKeys newKeys : FxIndexSet K) (rows : List (Option Row)) (items : List (Option Item))
    (page : Page) : Reconciled Page Row :=
  if items.length ≠ newKeys.len ∨ rows.length ≠ oldKeys.len then
    -- a key set has each key once: fewer keys than items or rows means repeated keys
    rebuildFromScratch ops rows items page <|
      if items.length ≠ newKeys.len then .repeatedKeys items.length newKeys.len
      else .repeatedKeys rows.length oldKeys.len
  else
    match diff oldKeys newKeys with
    | .ok diff => applyOrRebuild ops diff rows items page
    | .error error => rebuildFromScratch ops rows items page error

end Apply

end Halyard.ListDiff
