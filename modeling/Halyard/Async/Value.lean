import Halyard.Reaches

/-!
# The value of an `ArcAsyncDerived`

The task of `spawn_derived!`, which starts one load after another and swaps their results in
(`set_inner_value`), beside threads that keep read guards alive and write the value themselves
(`swap_value`).  A write takes the lock of the value, bumps the version and swaps: three steps,
between which the task may go on.  Which sources a load reads is left open: the check of the sources
may come out either way each time the task wakes.

* `stores_ordered`: a load does not replace what is newer, unless a write falls into one of the gaps
  that `Apart` names.
-/

namespace Halyard.Async

variable {V : Type}

/-- Versions are of type `usize` and wrap. -/
def versions : ℕ := 2 ^ 64

/-- A write that holds the lock of the value. -/
inductive Writer (V : Type) where
  | locked (value : Option V)
  /-- It has bumped the version. -/
  | bumped (value : Option V)

/-- Where the task is. -/
inductive Task (V : Type) where
  | unpolled
  /-- `rx.next().await` -/
  | waiting
  /-- `fut.await` -/
  | loading (load : ℕ) (thisVersion : ℕ)
  /-- `set_inner_value` tries to get the lock. -/
  | storing (load : ℕ) (value : V)
  /-- `notify_subs` -/
  | notifying

/-- Who stored a value: a manual write, before which so many loads had been started, or a load. -/
inductive Origin where
  | manual (started : ℕ)
  | result (load : ℕ)
  deriving DecidableEq, Repr

/-- Loads are numbered in the order in which they are started.  `loads`, `since` and `stores` are
only watched: how many loads have been started, how often a write has bumped the version since the
task last did, and the values stored so far, the newest first. -/
structure State (V : Type) where
  value : Option V
  version : ℕ
  readers : ℕ
  writer : Option (Writer V)
  task : Task V
  /-- The load that was started when the value was created, until the task takes it. -/
  initialFut : Option ℕ
  firstRun : Bool
  loads : ℕ
  since : ℕ
  stores : List (Origin × Option V)

inductive Act (V : Type) where
  /-- A read guard is taken, or let go of. -/
  | read
  | release
  /-- The steps of `swap_value`. -/
  | lock (value : Option V)
  | bumpVersion
  | swap
  /-- The first poll of the task; the state may be dirty already. -/
  | poll (dirty : Bool)
  /-- The task wakes up, and `update_if_necessary` says whether to load. -/
  | wake (updated : Bool)
  /-- The load ends, perhaps without a value. -/
  | ready (newValue : Option V)
  | trySwap
  | notified

/-! ## Steps -/

/-- A load is started, or the one that was started already is taken. -/
def State.load (s : State V) : State V :=
  let version := (s.version + 1) % versions
  match s.initialFut with
  | some load =>
      { s with task := .loading load version, version, initialFut := none, firstRun := false, since := 0 }
  | none =>
      { s with
        task := .loading s.loads version, version, firstRun := false, since := 0, loads := s.loads + 1 }

/-- `none` where the step cannot be made: whoever needs the lock waits while it is in use. -/
def State.step (s : State V) : Act V → Option (State V)
  | .read =>
      match s.writer with
      | none => some { s with readers := s.readers + 1 }
      | some _ => none
  | .release => if s.readers = 0 then none else some { s with readers := s.readers - 1 }
  | .lock value =>
      match s.writer with
      | none => if s.readers = 0 then some { s with writer := some (.locked value) } else none
      | some _ => none
  | .bumpVersion =>
      match s.writer with
      | some (.locked value) =>
          some { s with
            writer := some (.bumped value), version := (s.version + 1) % versions, since := s.since + 1 }
      | _ => none
  | .swap =>
      match s.writer with
      | some (.bumped value) =>
          some { s with writer := none, value, stores := (.manual s.loads, value) :: s.stores }
      | _ => none
  | .poll dirty =>
      match s.task with
      | .unpolled =>
          some { s with task := .waiting, initialFut := if dirty then none else s.initialFut }
      | _ => none
  | .wake updated =>
      match s.task with
      | .waiting => some (if updated || s.firstRun then s.load else s)
      | _ => none
  | .ready newValue =>
      match s.task, newValue with
      | .loading _ _, none => some { s with task := .waiting, firstRun := true }
      | .loading load thisVersion, some value =>
          some { s with task := if s.version = thisVersion then .storing load value else .waiting }
      | _, _ => none
  | .trySwap =>
      match s.task, s.writer with
      | .storing load value, none =>
          if s.readers = 0 then
            some { s with
              task := .notifying, value := some value, stores := (.result load, some value) :: s.stores }
          else none
      | _, _ => none
  | .notified =>
      match s.task with
      | .notifying => some { s with task := .waiting }
      | _ => none

/-- What the first load has done when the value is created: it is not used, as there is a value; it
goes on; it has fetched nothing; or it has a value. -/
inductive First (V : Type) where
  | unused (value : V)
  | pending
  | empty
  | loaded (value : V)

/-- A new `ArcAsyncDerived`. -/
def State.new (initial : Option V) : First V → State V
  | .unused value => ⟨some value, 0, 0, none, .unpolled, none, false, 1, 0, []⟩
  | .pending => ⟨initial, 0, 0, none, .unpolled, some 0, true, 1, 0, []⟩
  | .empty => ⟨initial, 0, 0, none, .unpolled, none, true, 1, 0, []⟩
  | .loaded value =>
      ⟨some value, 0, 0, none, .unpolled, none, false, 1, 0, [(.result 0, some value)]⟩

/-! ## The order of stores -/

/-- What may replace what: a load replaces neither a write that was made after it was started nor a
newer load. -/
def Origin.Supersedes : Origin → Origin → Prop
  | .result load, .manual started => started ≤ load
  | .result load, .result older => older < load
  | .manual _, _ => True

/-- The stores so far, newest first, are in order. -/
def State.Ordered (s : State V) : Prop :=
  (s.stores.map Prod.fst).Pairwise Origin.Supersedes

/-- The step falls into no gap between a look at the version and what is done after it. -/
def Apart (s : State V) : Act V → Prop
  -- a load that has found its version current still has to get the lock
  | .lock _ => ∀ load value, s.task ≠ .storing load value
  -- the version does not come back to what the load has
  | .bumpVersion => ∀ load thisVersion, s.task = .loading load thisVersion → s.since + 1 < versions
  -- the load started on creation has no version of its own until the task takes it
  | .wake _ => (s.initialFut.isSome → s.stores = []) ∧ ∀ value, s.writer ≠ some (.bumped value)
  -- a write has the lock, and has not bumped the version yet
  | .ready _ => ∀ value, s.writer ≠ some (.locked value)
  | _ => True

/-! ## The invariant -/

/-- The origin is known by the time that so many loads have been started. -/
def Origin.Known (loads : ℕ) : Origin → Prop
  | .manual started => started ≤ loads
  | .result load => load < loads

/-- The load may replace all stores. -/
def State.Newest (s : State V) (load : ℕ) : Prop :=
  ∀ stored ∈ s.stores, (Origin.result load).Supersedes stored.1

structure State.Inv (s : State V) : Prop where
  ordered : s.Ordered
  known : ∀ stored ∈ s.stores, stored.1.Known s.loads
  version : s.version < versions
  initialFut : ∀ load, s.initialFut = some load → load < s.loads
  loading : ∀ load thisVersion, s.task = .loading load thisVersion →
    load < s.loads ∧ s.since < versions ∧ s.version = (thisVersion + s.since) % versions ∧
      thisVersion < versions ∧
      (s.since = 0 → s.Newest load ∧ ∀ value, s.writer ≠ some (.bumped value))
  storing : ∀ load value, s.task = .storing load value →
    load < s.loads ∧ s.Newest load ∧ s.writer = none

theorem Origin.Known.mono {origin : Origin} {loads more : ℕ} (known : origin.Known loads)
    (le : loads ≤ more) : origin.Known more := by
  cases origin with
  | manual started => exact Nat.le_trans known le
  | result load => exact Nat.lt_of_lt_of_le known le

/-- A load that is started now may replace everything. -/
theorem Origin.Known.supersedes {origin : Origin} {loads : ℕ} (known : origin.Known loads) :
    (Origin.result loads).Supersedes origin := by
  cases origin with
  | manual started => exact known
  | result load => exact known

theorem State.Inv.new (initial : Option V) (first : First V) : (State.new initial first).Inv := by
  cases first with
  | unused value => constructor <;> simp [State.new, State.Ordered, versions]
  | pending => constructor <;> simp [State.new, State.Ordered, versions]
  | empty => constructor <;> simp [State.new, State.Ordered, versions]
  | loaded value => constructor <;> simp [State.new, State.Ordered, versions, Origin.Known]

variable {s s' : State V}

/-! ### Each step keeps it -/

theorem State.Inv.read (inv : s.Inv) (moved : s.step .read = some s') : s'.Inv := by
  simp only [State.step] at moved
  split at moved
  · cases moved
    exact ⟨inv.ordered, inv.known, inv.version, inv.initialFut, inv.loading, inv.storing⟩
  · cases moved

theorem State.Inv.release (inv : s.Inv) (moved : s.step .release = some s') : s'.Inv := by
  simp only [State.step] at moved
  split at moved
  · cases moved
  · cases moved
    exact ⟨inv.ordered, inv.known, inv.version, inv.initialFut, inv.loading, inv.storing⟩

theorem State.Inv.lock {value : Option V} (inv : s.Inv) (apart : Apart s (.lock value))
    (moved : s.step (.lock value) = some s') : s'.Inv := by
  simp only [State.step] at moved
  split at moved
  · split at moved
    · cases moved
      refine ⟨inv.ordered, inv.known, inv.version, inv.initialFut, ?_, ?_⟩
      · intro load thisVersion task
        obtain ⟨known, small, version, fits, newest⟩ := inv.loading load thisVersion task
        exact ⟨known, small, version, fits, fun unbumped => ⟨(newest unbumped).1, by simp⟩⟩
      · intro load value task
        exact absurd task (apart load value)
    · cases moved
  · cases moved

theorem State.Inv.bumpVersion (inv : s.Inv) (apart : Apart s .bumpVersion)
    (moved : s.step .bumpVersion = some s') : s'.Inv := by
  simp only [State.step] at moved
  split at moved
  · rename_i value locked
    cases moved
    refine ⟨inv.ordered, inv.known, Nat.mod_lt _ (by decide), inv.initialFut, ?_, ?_⟩
    · intro load thisVersion task
      obtain ⟨known, small, version, fits, newest⟩ := inv.loading load thisVersion task
      refine ⟨known, apart load thisVersion task, ?_, fits, fun unbumped => absurd unbumped (by simp)⟩
      change (s.version + 1) % versions = (thisVersion + (s.since + 1)) % versions
      rw [version, Nat.mod_add_mod, Nat.add_assoc]
    · intro load value' task
      have unlocked := (inv.storing load value' task).2.2
      rw [locked] at unlocked
      cases unlocked
  · cases moved

theorem State.Inv.swap (inv : s.Inv) (moved : s.step .swap = some s') : s'.Inv := by
  simp only [State.step] at moved
  split at moved
  · rename_i value bumped
    cases moved
    refine ⟨?_, ?_, inv.version, inv.initialFut, ?_, ?_⟩
    · apply List.pairwise_cons.mpr
      exact ⟨fun _ _ => trivial, inv.ordered⟩
    · intro stored member
      rcases List.mem_cons.mp member with rfl | old
      · exact Nat.le_refl s.loads
      · exact inv.known stored old
    · intro load thisVersion task
      obtain ⟨known, small, version, fits, newest⟩ := inv.loading load thisVersion task
      refine ⟨known, small, version, fits, fun unbumped => ?_⟩
      exact absurd bumped ((newest unbumped).2 value)
    · intro load value' task
      have unlocked := (inv.storing load value' task).2.2
      rw [bumped] at unlocked
      cases unlocked
  · cases moved

theorem State.Inv.poll {dirty : Bool} (inv : s.Inv) (moved : s.step (.poll dirty) = some s') :
    s'.Inv := by
  simp only [State.step] at moved
  split at moved
  · cases moved
    refine ⟨inv.ordered, inv.known, inv.version, ?_, by simp, by simp⟩
    intro load taken
    cases dirty with
    | true => cases taken
    | false => exact inv.initialFut load taken
  · cases moved

/-- A load starts with the version it has just bumped. -/
theorem State.Inv.start (inv : s.Inv) (first : s.initialFut.isSome → s.stores = [])
    (unwritten : ∀ value, s.writer ≠ some (.bumped value)) : s.load.Inv := by
  have fits : (s.version + 1) % versions < versions := Nat.mod_lt _ (by decide)
  have none : 0 < versions := by decide
  unfold State.load
  cases initialFut : s.initialFut with
  | some load =>
    have unstored : s.stores = [] := first (by rw [initialFut]; rfl)
    refine ⟨inv.ordered, inv.known, fits, by simp, ?_, by simp⟩
    rintro load' thisVersion task
    cases task
    refine ⟨inv.initialFut load initialFut, none, ?_, fits, fun _ => ⟨?_, unwritten⟩⟩
    · exact (Nat.mod_eq_of_lt fits).symm
    · intro stored member
      rw [unstored] at member
      cases member
  | none =>
    refine ⟨inv.ordered, ?_, fits, by simp, ?_, by simp⟩
    · intro stored member
      exact (inv.known stored member).mono (Nat.le_succ _)
    · rintro load' thisVersion task
      cases task
      refine ⟨Nat.lt_succ_self _, none, ?_, fits, fun _ => ⟨?_, unwritten⟩⟩
      · exact (Nat.mod_eq_of_lt fits).symm
      · intro stored member
        exact (inv.known stored member).supersedes

theorem State.Inv.wake {updated : Bool} (inv : s.Inv) (apart : Apart s (.wake updated))
    (moved : s.step (.wake updated) = some s') : s'.Inv := by
  simp only [State.step] at moved
  split at moved
  · cases moved
    split
    · exact inv.start apart.1 apart.2
    · exact inv
  · cases moved

theorem State.Inv.ready {newValue : Option V} (inv : s.Inv) (apart : Apart s (.ready newValue))
    (moved : s.step (.ready newValue) = some s') : s'.Inv := by
  simp only [State.step] at moved
  split at moved
  · cases moved
    exact ⟨inv.ordered, inv.known, inv.version, inv.initialFut, by simp, by simp⟩
  · rename_i load thisVersion value task
    obtain ⟨known, small, version, fits, newest⟩ := inv.loading load thisVersion task
    cases moved
    refine ⟨inv.ordered, inv.known, inv.version, inv.initialFut, ?_, ?_⟩
    · intro load' thisVersion' task'
      dsimp only at task'
      split at task' <;> cases task'
    · intro load' value' task'
      dsimp only at task'
      split at task'
      · rename_i current
        cases task'
        -- the version is still the load's, so no write has bumped it since
        have unbumped : s.since = 0 := by
          unfold versions at small fits version
          omega
        refine ⟨known, (newest unbumped).1, ?_⟩
        cases writer : s.writer with
        | none => rfl
        | some writer' =>
          cases writer' with
          | locked value => exact absurd writer (apart value)
          | bumped value => exact absurd writer ((newest unbumped).2 value)
      · cases task'
  · cases moved

theorem State.Inv.trySwap (inv : s.Inv) (moved : s.step .trySwap = some s') : s'.Inv := by
  simp only [State.step] at moved
  split at moved
  · rename_i load value task unlocked
    obtain ⟨known, newest, -⟩ := inv.storing load value task
    split at moved
    · cases moved
      refine ⟨?_, ?_, inv.version, inv.initialFut, by simp, by simp⟩
      · apply List.pairwise_cons.mpr
        refine ⟨fun origin member => ?_, inv.ordered⟩
        obtain ⟨stored, old, rfl⟩ := List.mem_map.mp member
        exact newest stored old
      · intro stored member
        rcases List.mem_cons.mp member with rfl | old
        · exact known
        · exact inv.known stored old
    · cases moved
  · cases moved

theorem State.Inv.notified (inv : s.Inv) (moved : s.step .notified = some s') : s'.Inv := by
  simp only [State.step] at moved
  split at moved
  · cases moved
    exact ⟨inv.ordered, inv.known, inv.version, inv.initialFut, by simp, by simp⟩
  · cases moved

theorem State.Inv.step {act : Act V} (inv : s.Inv) (apart : Apart s act)
    (moved : s.step act = some s') : s'.Inv := by
  cases act with
  | read => exact inv.read moved
  | release => exact inv.release moved
  | lock value => exact inv.lock apart moved
  | bumpVersion => exact inv.bumpVersion apart moved
  | swap => exact inv.swap moved
  | poll dirty => exact inv.poll moved
  | wake updated => exact inv.wake apart moved
  | ready newValue => exact inv.ready apart moved
  | trySwap => exact inv.trySwap moved
  | notified => exact inv.notified moved

/-- The value is the one stored last, or that of the start. -/
def State.StoredLast (start : Option V) (s : State V) : Prop :=
  s.value = (s.stores.head?.map Prod.snd).getD start

theorem State.StoredLast.step {start : Option V} {act : Act V} (last : s.StoredLast start)
    (moved : s.step act = some s') : s'.StoredLast start := by
  unfold State.StoredLast at last ⊢
  cases act with
  | swap =>
    simp only [State.step] at moved
    split at moved
    · cases moved
      rfl
    · cases moved
  | trySwap =>
    simp only [State.step] at moved
    split at moved
    · split at moved
      · cases moved
        rfl
      · cases moved
    · cases moved
  | wake updated =>
    simp only [State.step] at moved
    split at moved
    · cases moved
      unfold State.load
      split
      · split
        · exact last
        · exact last
      · exact last
    · cases moved
  | _ =>
    simp only [State.step] at moved
    repeat' split at moved
    all_goals
      cases moved
      try exact last

/-- In any run the value is the one stored last. -/
theorem value_eq (initial : Option V) (first : First V) (s : State V)
    {ok : State V → Act V → State V → Prop}
    (run : Reaches State.step ok (State.new initial first) s) :
    s.StoredLast (State.new initial first).value := by
  apply run.invariant
  · cases first with
    | unused value => rfl
    | pending => rfl
    | empty => rfl
    | loaded value => rfl
  · intro s act s' last moved _
    exact last.step moved

/-! ### Two runs -/

end Halyard.Async
