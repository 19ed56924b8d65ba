import Mathlib

/-!
# A thread's record of one signal

`reentry.rs` keeps, for each thread, an entry for every value the thread is using: how many uses are
alive, whether the thread has the value's writer turn, and the writes deferred meanwhile.  This
module is the entry of one signal and the functions that change it; `none` is a thread that does not
use the signal.
-/

namespace Halyard.Signal

variable {T : Type}

/-- `reentry::Kind`, as far as signals use it. -/
inductive Kind where
  | read
  | snapshot
  deriving DecidableEq, Repr

/-- A deferred write.  `id` says which write of its thread it is and `closure` what made `value` of
the value it is applied over; the code has neither. -/
inductive Deferred (T : Type) where
  | set (id : ℕ) (closure : T → T) (value : T) (notify : Bool)
  | notify (id : ℕ)

namespace Deferred

def id : Deferred T → ℕ
  | .set id _ _ _ => id
  | .notify id => id

def closure : Deferred T → T → T
  | .set _ closure _ _ => closure
  | .notify _ => fun v => v

def value? : Deferred T → Option T
  | .set _ _ value _ => some value
  | .notify _ => none

/-- Whether subscribers are notified once it is applied. -/
def notifies : Deferred T → Bool
  | .set _ _ _ notified => notified
  | .notify _ => true

end Deferred

structure Entry (T : Type) where
  depth : ℕ
  snapshots : ℕ
  turn : Bool
  /-- The deferred writes, the next one to apply first. -/
  pending : List (Deferred T)

/-- The entry of the signal in `ACCESSES`, if there is one. -/
abbrev Record (T : Type) := Option (Entry T)

/-- `Entry::new`. -/
def Entry.new : Entry T :=
  { depth := 0, snapshots := 0, turn := false, pending := [] }

def Entry.count (entry : Entry T) (kind : Kind) (up : Bool) : Entry T :=
  let step := fun n : ℕ => if up then n + 1 else n - 1
  { entry with
    depth := step entry.depth
    snapshots := if kind = .snapshot then step entry.snapshots else entry.snapshots }

namespace Record

/-- `state(id).depth`. -/
def depth (record : Record T) : ℕ :=
  record.elim 0 Entry.depth

/-- `State::in_use`. -/
def inUse (record : Record T) : Bool :=
  0 < record.depth

def hasTurn (record : Record T) : Bool :=
  record.elim false Entry.turn

def pending (record : Record T) : List (Deferred T) :=
  record.elim [] Entry.pending

def enter (record : Record T) (kind : Kind) : Record T :=
  some ((record.getD Entry.new).count kind true)

/-- The record after the end of an access; with its deferred writes and whether it had the turn if
that was the outermost one. -/
def exit (record : Record T) (kind : Kind) : Record T × Option (List (Deferred T) × Bool) :=
  match record with
  | none => (none, none)
  | some entry =>
      let entry := entry.count kind false
      if 0 < entry.depth then (some entry, none) else (none, some (entry.pending, entry.turn))

/-- `begin_write`, once the thread has taken the turn. -/
def beginWrite (record : Record T) (snapshot : Bool) : Record T :=
  let entry := (record.getD Entry.new).count (if snapshot then .snapshot else .read) true
  some { entry with turn := true }

/-- `resume_write`: the writes to resume come ahead of any deferred since. -/
def resumeWrite (record : Record T) (pending : List (Deferred T)) : Record T :=
  let entry := (record.getD Entry.new).count .read true
  some { entry with turn := true, pending := pending ++ entry.pending }

def takePending (record : Record T) : Record T :=
  record.map fun entry => { entry with pending := [] }

/-- `put_pending`: dropped if the thread is not using the signal. -/
def putPending (record : Record T) (pending : List (Deferred T)) : Record T :=
  record.map fun entry =>
    if 0 < entry.depth then { entry with pending := pending ++ entry.pending } else entry

/-- `ArcWriteSignal::defer`. -/
def defer (record : Record T) (write : Deferred T) (first : Bool) : Record T :=
  let writes := record.pending
  record.takePending.putPending (if first then write :: writes else writes ++ [write])

/-- `ArcWriteSignal::pending_or_committed`. -/
def pendingOrCommitted (record : Record T) (committed : T) : T :=
  (record.pending.reverse.findSome? Deferred.value?).getD committed

/-! ## What the functions do -/

@[simp] theorem depth_none : depth (none : Record T) = 0 := rfl
@[simp] theorem depth_some (entry : Entry T) : depth (some entry) = entry.depth := rfl
@[simp] theorem hasTurn_none : hasTurn (none : Record T) = false := rfl
@[simp] theorem hasTurn_some (entry : Entry T) : hasTurn (some entry) = entry.turn := rfl
@[simp] theorem pending_none : pending (none : Record T) = [] := rfl
@[simp] theorem pending_some (entry : Entry T) : pending (some entry) = entry.pending := rfl

theorem inUse_iff (record : Record T) : record.inUse = true ↔ 0 < record.depth := by
  simp [inUse]

section Enter

variable (record : Record T) (kind : Kind)

@[simp] theorem depth_enter : (record.enter kind).depth = record.depth + 1 := by
  cases record <;> simp [enter, Entry.count, Entry.new]

@[simp] theorem hasTurn_enter : (record.enter kind).hasTurn = record.hasTurn := by
  cases record <;> simp [enter, Entry.count, Entry.new]

@[simp] theorem pending_enter : (record.enter kind).pending = record.pending := by
  cases record <;> simp [enter, Entry.count, Entry.new]

end Enter

section Defer

variable (record : Record T) (write : Deferred T) (first : Bool)

@[simp] theorem depth_defer : (record.defer write first).depth = record.depth := by
  cases record with
  | none => rfl
  | some entry =>
    simp only [defer, takePending, putPending, Option.map_some, depth_some]
    split <;> rfl

@[simp] theorem hasTurn_defer : (record.defer write first).hasTurn = record.hasTurn := by
  cases record with
  | none => rfl
  | some entry =>
    simp only [defer, takePending, putPending, Option.map_some, hasTurn_some]
    split <;> rfl

@[simp] theorem isNone_defer : (record.defer write first).isNone = record.isNone := by
  cases record <;> rfl

theorem pending_defer (used : 0 < record.depth) :
    (record.defer write first).pending =
      if first then write :: record.pending else record.pending ++ [write] := by
  cases record with
  | none => simp at used
  | some entry =>
    rw [depth_some] at used
    simp [defer, takePending, putPending, used]

end Defer

section Begin

variable (record : Record T)

@[simp] theorem depth_beginWrite (snapshot : Bool) :
    (record.beginWrite snapshot).depth = record.depth + 1 := by
  cases record <;> simp [beginWrite, Entry.count, Entry.new]

@[simp] theorem hasTurn_beginWrite (snapshot : Bool) :
    (record.beginWrite snapshot).hasTurn = true := rfl

@[simp] theorem pending_beginWrite (snapshot : Bool) :
    (record.beginWrite snapshot).pending = record.pending := by
  cases record <;> simp [beginWrite, Entry.count, Entry.new]

@[simp] theorem depth_resumeWrite (writes : List (Deferred T)) :
    (record.resumeWrite writes).depth = record.depth + 1 := by
  cases record <;> simp [resumeWrite, Entry.count, Entry.new]

@[simp] theorem hasTurn_resumeWrite (writes : List (Deferred T)) :
    (record.resumeWrite writes).hasTurn = true := rfl

@[simp] theorem pending_resumeWrite (writes : List (Deferred T)) :
    (record.resumeWrite writes).pending = writes ++ record.pending := by
  cases record <;> simp [resumeWrite, Entry.count, Entry.new]

end Begin

section Replace

variable (record : Record T) (writes : List (Deferred T))

@[simp] theorem depth_replacePending :
    (record.takePending.putPending writes).depth = record.depth := by
  cases record with
  | none => rfl
  | some entry =>
    simp only [takePending, putPending, Option.map_some, depth_some]
    split <;> rfl

@[simp] theorem hasTurn_replacePending :
    (record.takePending.putPending writes).hasTurn = record.hasTurn := by
  cases record with
  | none => rfl
  | some entry =>
    simp only [takePending, putPending, Option.map_some, hasTurn_some]
    split <;> rfl

theorem isSome_replacePending :
    (record.takePending.putPending writes).isSome → record.isSome := by
  cases record <;> simp [takePending, putPending]

theorem pending_replacePending (used : 0 < record.depth) :
    (record.takePending.putPending writes).pending = writes := by
  cases record with
  | none => simp at used
  | some entry =>
    rw [depth_some] at used
    simp [takePending, putPending, used]

end Replace

end Record

end Halyard.Signal
