import Halyard.Async.Value

/-!
# Who is woken by an `ArcAsyncDerived`

The steps of its task, of writes to it and of the polls of futures that await it, as they touch the
`loading` flag, the version and the list of wakers.  A poll looks at the flag and then pushes its waker;
`notify_subs` clears the flag and then takes the wakers.  Between any two of these steps anyone else may
go on.

* `Inv.step`: what is due to be woken is in the list while the flag is set, or someone is about to take it.
* `polls_woken`: with no load in flight every poll that was pending during one has been woken, and the
  flag is clear once a value has been stored, unless a step falls into one of the gaps that `Heard` names.
* `silent_write_hangs`: a write that does not notify leaves the load it overtakes unended.
-/

namespace Halyard.Async.Waking

variable {V P : Type}

/-- `swap_value`, which notifies or not. -/
structure Write (V : Type) where
  value : Option V
  notify : Bool

/-- The write that waits for the lock of the value, or has it. -/
inductive Writer (V : Type) where
  | queued (write : Write V)
  | locked (write : Write V)
  /-- It has bumped the version. -/
  | bumped (write : Write V)

/-- Where the task is. -/
inductive Task (V : Type) where
  /-- The first load is pending, and the task has not taken it yet. -/
  | created
  /-- `rx.next().await` -/
  | waiting
  /-- It has set the flag. -/
  | swapped (wasLoading : Bool)
  /-- `fut.await` -/
  | loading (wasLoading : Bool) (thisVersion : ℕ)
  /-- `set_inner_value` tries to get the lock. -/
  | storing (value : V)
  /-- `notify_subs` -/
  | notifying
  /-- It has cleared the flag. -/
  | cleared
  deriving DecidableEq

/-- One poll of a future that awaits the value.  `during` is watched: a load was in flight when it looked
at the flag, or when it returned. -/
inductive Poll where
  | unpolled
  /-- It has looked at the flag. -/
  | tested (loading during : Bool)
  /-- It is about to push its waker, perhaps with a read guard of the value. -/
  | pushing (guard during : Bool)
  | ready
  /-- It has returned `Pending`. -/
  | waiting (during : Bool)
  /-- Its waker has been woken. -/
  | woken
  deriving DecidableEq

/-- Two kinds of futures: `ready()`, and those that give the value. -/
inductive Awaits where
  | ready
  | value

/-- `clearing` and `taking` count the writes that have yet to clear the flag and to take the wakers.
`stored` is only watched: a value has been stored. -/
structure State (V P : Type) where
  value : Option V
  flag : Bool
  version : ℕ
  wakers : List P
  readers : ℕ
  writer : Option (Writer V)
  clearing : ℕ
  taking : ℕ
  task : Task V
  polls : P → Poll
  stored : Bool

inductive Act (V P : Type) where
  /-- The task starts a load: it sets the flag, and then bumps the version. -/
  | start
  | loadVersion
  /-- The load ends, perhaps without a value. -/
  | ready (newValue : Option V)
  | trySwap
  | clear
  | take
  /-- The steps of a write. -/
  | write (write : Write V)
  | lock
  | bumpVersion
  | swap
  | writeClear
  | writeTake
  /-- The steps of a poll. -/
  | test (p : P) (awaits : Awaits)
  | look (p : P) (byRef : Bool)
  | push (p : P)
  /-- A read guard of the value is taken, or let go of. -/
  | read
  | release

/-! ## Steps -/

def State.inFlight (s : State V P) : Bool :=
  match s.task with
  | .waiting => false
  | _ => true

/-- `notify_subs` takes the wakers out of the list and wakes them, under the list's lock. -/
def State.wake [DecidableEq P] (s : State V P) : State V P :=
  { s with
    wakers := []
    polls := fun p =>
      match s.polls p with
      | .waiting during => if s.wakers.contains p then .woken else .waiting during
      | other => other }

def State.setPoll [DecidableEq P] (s : State V P) (p : P) (poll : Poll) : State V P :=
  { s with polls := Function.update s.polls p poll }

/-- `none` where the step cannot be made: whoever needs the lock waits while it is in use. -/
def State.step [DecidableEq P] (s : State V P) : Act V P → Option (State V P)
  | .start =>
      match s.task with
      | .created => some { s with task := .swapped s.flag, flag := true }
      | .waiting => some { s with task := .swapped s.flag, flag := true }
      | _ => none
  | .loadVersion =>
      match s.task with
      | .swapped wasLoading =>
          let version := (s.version + 1) % versions
          some { s with task := .loading wasLoading version, version }
      | _ => none
  | .ready newValue =>
      match s.task with
      | .loading wasLoading thisVersion =>
          match newValue with
          | none => some { s with task := .waiting, flag := wasLoading }
          | some value =>
              some { s with task := if s.version = thisVersion then .storing value else .waiting }
      | _ => none
  | .trySwap =>
      match s.task with
      | .storing value =>
          if s.writer.isNone ∧ s.readers = 0 then
            some { s with task := .notifying, value := some value, stored := true }
          else none
      | _ => none
  | .clear =>
      match s.task with
      | .notifying => some { s with task := .cleared, flag := false }
      | _ => none
  | .take =>
      match s.task with
      | .cleared => some { s.wake with task := .waiting }
      | _ => none
  | .write write =>
      match s.writer with
      | none => some { s with writer := some (.queued write) }
      | some _ => none
  | .lock =>
      match s.writer with
      | some (.queued write) =>
          if s.readers = 0 then some { s with writer := some (.locked write) } else none
      | _ => none
  | .bumpVersion =>
      match s.writer with
      | some (.locked write) =>
          some { s with writer := some (.bumped write), version := (s.version + 1) % versions }
      | _ => none
  | .swap =>
      match s.writer with
      | some (.bumped write) =>
          some { s with
            writer := none, value := write.value, stored := s.stored || write.value.isSome
            clearing := if write.notify then s.clearing + 1 else s.clearing }
      | _ => none
  | .writeClear =>
      if s.clearing = 0 then none
      else some { s with clearing := s.clearing - 1, taking := s.taking + 1, flag := false }
  | .writeTake => if s.taking = 0 then none else some { s.wake with taking := s.taking - 1 }
  | .test p awaits =>
      match s.polls p, awaits with
      | .unpolled, .ready =>
          some (s.setPoll p (if s.flag then .pushing false s.inFlight else .ready))
      | .unpolled, .value => some (s.setPoll p (.tested s.flag s.inFlight))
      | _, _ => none
  | .look p byRef =>
      match s.polls p, s.writer with
      | .tested true during, some _ => some (s.setPoll p (.pushing false during))
      | .tested true during, none =>
          some { s.setPoll p (.pushing true during) with readers := s.readers + 1 }
      -- the future that waits for the lock is dropped when the poll returns
      | .tested false during, some _ => some (s.setPoll p (.waiting (during || s.inFlight)))
      | .tested false during, none =>
          if s.value.isSome then
            some { s.setPoll p .ready with readers := if byRef then s.readers + 1 else s.readers }
          else some { s.setPoll p (.pushing true during) with readers := s.readers + 1 }
      | _, _ => none
  | .push p =>
      match s.polls p with
      | .pushing guard during =>
          some { s.setPoll p (.waiting (during || s.inFlight)) with
            wakers := s.wakers ++ [p], readers := if guard then s.readers - 1 else s.readers }
      | _ => none
  | .read =>
      match s.writer with
      | none => some { s with readers := s.readers + 1 }
      | some _ => none
  | .release => if s.readers = 0 then none else some { s with readers := s.readers - 1 }

/-- A new `ArcAsyncDerived`. -/
def State.new (initial : Option V) : First V → State V P
  | .unused value => ⟨some value, false, 0, [], 0, none, 0, 0, .waiting, fun _ => .unpolled, false⟩
  | .pending => ⟨initial, true, 0, [], 0, none, 0, 0, .created, fun _ => .unpolled, false⟩
  | .empty => ⟨initial, true, 0, [], 0, none, 0, 0, .waiting, fun _ => .unpolled, false⟩
  | .loaded value => ⟨some value, false, 0, [], 0, none, 0, 0, .waiting, fun _ => .unpolled, true⟩

/-! ## When everyone is heard -/

/-- A write has yet to clear the flag. -/
def State.Clearing (s : State V P) : Prop :=
  0 < s.clearing ∨ ∃ value, s.writer = some (.bumped ⟨value, true⟩)

/-- Someone has yet to take the wakers. -/
def State.Taking (s : State V P) : Prop :=
  s.Clearing ∨ 0 < s.taking ∨ (∃ value, s.task = .storing value) ∨ s.task = .notifying ∨
    s.task = .cleared

/-- The step falls into no gap between the flag, the version and the list of wakers. -/
def Heard (s : State V P) : Act V P → Prop
  -- a load without a value leaves the flag and the wakers as they are
  | .ready none => ∀ wasLoading thisVersion, s.task = .loading wasLoading thisVersion →
      (wasLoading = true → s.stored = true → s.Clearing) ∧
        ∀ p, s.polls p = .waiting true → s.Taking
  -- a load that has been overtaken leaves both to the write
  | .ready (some _) => ∀ wasLoading thisVersion, s.task = .loading wasLoading thisVersion →
      s.version ≠ thisVersion → s.flag = true → s.Clearing
  -- a write that does not notify leaves the flag as it is
  | .swap => ∀ value, s.writer = some (.bumped ⟨some value, false⟩) → s.task = .waiting →
      s.flag = true → 0 < s.clearing
  -- nothing wakes who finds the lock taken
  | .look p _ => ∀ during, s.polls p = .tested false during → s.writer.isSome = true →
      during = false ∧ s.inFlight = false
  -- between the look at the flag and the push the wakers have been taken
  | .push p => ∀ guard during, s.polls p = .pushing guard during →
      (during || s.inFlight) = true → s.inFlight = true ∧ s.flag = true ∨ s.Taking
  | _ => True

/-- No load is in flight, and no write is between its new version and its last step. -/
structure State.Settled (s : State V P) : Prop where
  task : s.task = .waiting
  clearing : s.clearing = 0
  taking : s.taking = 0
  writer : ∀ write, s.writer ≠ some (.bumped write)

structure Inv (s : State V P) : Prop where
  due : ∀ p, s.polls p = .waiting true → p ∈ s.wakers ∧ (s.flag = true ∨ s.Taking)
  cleared : s.task = .cleared → s.flag = false
  idle : s.task = .waiting → s.flag = true →
    (s.stored = true → s.Clearing) ∧ ∀ p, s.polls p = .waiting true → s.Taking

theorem Inv.new (initial : Option V) (first : First V) : Inv (State.new initial first : State V P) := by
  cases first with
  | unused value => constructor <;> simp [State.new]
  | pending => constructor <;> simp [State.new]
  | empty => constructor <;> simp [State.new]
  | loaded value => constructor <;> simp [State.new]

variable {s s' : State V P}

theorem State.Settled.not_taking (settled : s.Settled) : ¬s.Taking := by
  rintro ((clearing | ⟨value, writer⟩) | taking | ⟨value, task⟩ | task | task)
  · exact absurd settled.clearing (Nat.ne_of_gt clearing)
  · exact settled.writer _ writer
  · exact absurd settled.taking (Nat.ne_of_gt taking)
  · cases settled.task.symm.trans task
  · cases settled.task.symm.trans task
  · cases settled.task.symm.trans task

/-- A step that makes nothing due, and keeps who is about to take the wakers. -/
theorem Inv.frame (inv : Inv s) (flag : s'.flag = s.flag) (wakers : s'.wakers = s.wakers)
    (due : ∀ p, s'.polls p = .waiting true → s.polls p = .waiting true)
    (clearing : s.Clearing → s'.Clearing) (taking : s.Taking → s'.Taking)
    (cleared : s'.task = .cleared → s.task = .cleared) (idle : s'.task = .waiting → s.task = .waiting)
    (stored : s'.task = .waiting → s'.flag = true → s'.stored = true → s.stored = true ∨ s'.Clearing) :
    Inv s' := by
  refine ⟨fun p waiting => ?_, fun task => ?_, fun task set => ⟨fun value => ?_, fun p waiting => ?_⟩⟩
  · obtain ⟨listed, set⟩ := inv.due p (due p waiting)
    rw [wakers, flag]
    exact ⟨listed, set.imp_right taking⟩
  · rw [flag]
    exact inv.cleared (cleared task)
  · rcases stored task set value with value | coming
    · exact clearing ((inv.idle (idle task) (flag ▸ set)).1 value)
    · exact coming
  · exact taking ((inv.idle (idle task) (flag ▸ set)).2 p (due p waiting))

variable [DecidableEq P]

/-! ### The task -/

theorem Inv.start (inv : Inv s) (moved : s.step .start = some s') : Inv s' := by
  have sets (wasLoading : Bool) : Inv { s with task := .swapped wasLoading, flag := true } :=
    ⟨fun p waiting => ⟨(inv.due p waiting).1, .inl rfl⟩, by simp, by simp⟩
  simp only [State.step] at moved
  split at moved
  · cases moved
    exact sets s.flag
  · cases moved
    exact sets s.flag
  · cases moved

theorem Inv.loadVersion (inv : Inv s) (moved : s.step .loadVersion = some s') : Inv s' := by
  simp only [State.step] at moved
  split at moved
  · rename_i wasLoading task
    cases moved
    refine inv.frame rfl rfl (fun _ => id) id ?_ (by simp) (by simp) (by simp)
    rintro (clearing | taking | ⟨value, other⟩ | other | other)
    · exact .inl clearing
    · exact .inr (.inl taking)
    · cases task.symm.trans other
    · cases task.symm.trans other
    · cases task.symm.trans other
  · cases moved

theorem Inv.ready {newValue : Option V} (inv : Inv s) (heard : Heard s (.ready newValue))
    (moved : s.step (.ready newValue) = some s') : Inv s' := by
  simp only [State.step] at moved
  split at moved
  · rename_i wasLoading thisVersion task
    have kept {s' : State V P} (clearing : s.Clearing → s'.Clearing) (taking : s.taking ≤ s'.taking) :
        s.Taking → s'.Taking := by
      rintro (coming | some_ | ⟨value, other⟩ | other | other)
      · exact .inl (clearing coming)
      · exact .inr (.inl (Nat.lt_of_lt_of_le some_ taking))
      · cases task.symm.trans other
      · cases task.symm.trans other
      · cases task.symm.trans other
    split at moved
    · cases moved
      obtain ⟨stored, due⟩ := heard wasLoading thisVersion task
      exact ⟨fun p waiting => ⟨(inv.due p waiting).1, .inr (kept id le_rfl (due p waiting))⟩, by simp,
        fun _ set => ⟨stored set, fun p waiting => kept id le_rfl (due p waiting)⟩⟩
    · rename_i value
      cases moved
      by_cases current : s.version = thisVersion
      · rw [if_pos current]
        exact inv.frame rfl rfl (fun _ => id) id (kept id le_rfl) (by simp) (by simp) (by simp)
      · rw [if_neg current]
        have coming := heard wasLoading thisVersion task current
        exact ⟨fun p waiting => ⟨(inv.due p waiting).1, (inv.due p waiting).2.imp_right (kept id le_rfl)⟩,
          by simp, fun _ set => ⟨fun _ => coming set, fun p waiting => .inl (coming set)⟩⟩
  · cases moved

theorem Inv.trySwap (inv : Inv s) (moved : s.step .trySwap = some s') : Inv s' := by
  simp only [State.step] at moved
  split at moved
  · split at moved
    · cases moved
      exact inv.frame rfl rfl (fun _ => id) id (fun _ => .inr (.inr (.inr (.inl rfl)))) (by simp)
        (by simp) (by simp)
    · cases moved
  · cases moved

theorem Inv.clear (inv : Inv s) (moved : s.step .clear = some s') : Inv s' := by
  simp only [State.step] at moved
  split at moved
  · cases moved
    exact ⟨fun p waiting => ⟨(inv.due p waiting).1, .inr (.inr (.inr (.inr (.inr rfl))))⟩, fun _ => rfl,
      by simp⟩
  · cases moved

/-- Whoever takes the wakers leaves nobody that is due. -/
theorem Inv.wake (inv : Inv s) (p : P) : s.wake.polls p ≠ .waiting true := by
  intro waiting
  simp only [State.wake] at waiting
  split at waiting
  · rename_i during before
    split at waiting
    · cases waiting
    · rename_i missing
      cases waiting
      exact missing (List.contains_iff_mem.mpr (inv.due p before).1)
  · rename_i other
    exact other true waiting

theorem Inv.take (inv : Inv s) (moved : s.step .take = some s') : Inv s' := by
  simp only [State.step] at moved
  split at moved
  · rename_i task
    cases moved
    have flag : s.flag = false := inv.cleared task
    refine ⟨fun p waiting => absurd waiting (inv.wake p), by simp, fun _ set => ?_⟩
    exact absurd (flag.symm.trans set) Bool.false_ne_true
  · cases moved

/-! ### Writes -/

omit [DecidableEq P] in
/-- Who has yet to clear the flag still has to, unless it is the writer that moves. -/
theorem State.Clearing.of_quiet (clearing : s.Clearing)
    (quiet : ∀ value, s.writer ≠ some (.bumped ⟨value, true⟩)) (count : s.clearing ≤ s'.clearing) :
    s'.Clearing := by
  rcases clearing with clearing | ⟨value, writer⟩
  · exact .inl (Nat.lt_of_lt_of_le clearing count)
  · exact absurd writer (quiet value)

omit [DecidableEq P] in
/-- A writer that has not bumped the version yet changes nothing else. -/
theorem Inv.ofWriter (inv : Inv s) (quiet : ∀ value, s.writer ≠ some (.bumped ⟨value, true⟩))
    (writer : Option (Writer V)) (version : ℕ) : Inv { s with writer, version } := by
  have clearing : s.Clearing → State.Clearing { s with writer, version } :=
    fun clearing => clearing.of_quiet quiet (le_refl _)
  exact inv.frame rfl rfl (fun _ => id) clearing (fun taking => taking.imp_left clearing) id id
    (fun _ _ value => .inl value)

theorem Inv.write {write : Write V} (inv : Inv s) (moved : s.step (.write write) = some s') : Inv s' := by
  simp only [State.step] at moved
  split at moved
  · rename_i writer
    cases moved
    exact inv.ofWriter (fun value other => by cases writer.symm.trans other) _ _
  · cases moved

theorem Inv.lock (inv : Inv s) (moved : s.step .lock = some s') : Inv s' := by
  simp only [State.step] at moved
  split at moved
  · rename_i write writer
    split at moved
    · cases moved
      exact inv.ofWriter (fun value other => by cases writer.symm.trans other) _ _
    · cases moved
  · cases moved

theorem Inv.bumpVersion (inv : Inv s) (moved : s.step .bumpVersion = some s') : Inv s' := by
  simp only [State.step] at moved
  split at moved
  · rename_i write writer
    cases moved
    exact inv.ofWriter (fun value other => by cases writer.symm.trans other) _ _
  · cases moved

theorem Inv.swap (inv : Inv s) (heard : Heard s .swap) (moved : s.step .swap = some s') : Inv s' := by
  simp only [State.step] at moved
  split at moved
  · rename_i write writer
    obtain ⟨value, notify⟩ := write
    cases moved
    cases notify with
    | true =>
      have coming : State.Clearing { s with
          writer := none, value := value, stored := s.stored || value.isSome
          clearing := s.clearing + 1 } := .inl (Nat.succ_pos _)
      exact inv.frame rfl rfl (fun _ => id) (fun _ => coming) (fun _ => .inl coming) id id
        (fun _ _ _ => .inr coming)
    | false =>
      have clearing : s.Clearing → State.Clearing { s with
          writer := none, value := value, stored := s.stored || value.isSome
          clearing := s.clearing } := fun clearing =>
        clearing.of_quiet (fun value' other => by cases writer.symm.trans other) (le_refl _)
      refine inv.frame rfl rfl (fun _ => id) clearing (fun taking => taking.imp_left clearing) id id ?_
      intro task set stored
      cases value with
      | none => exact .inl (by simpa using stored)
      | some value => exact .inr (.inl (heard value writer task set))
  · cases moved

theorem Inv.writeClear (inv : Inv s) (moved : s.step .writeClear = some s') : Inv s' := by
  simp only [State.step] at moved
  split at moved
  · cases moved
  · cases moved
    exact ⟨fun p waiting => ⟨(inv.due p waiting).1, .inr (.inr (.inl (Nat.succ_pos _)))⟩, fun _ => rfl,
      fun _ set => absurd set Bool.false_ne_true⟩

theorem Inv.writeTake (inv : Inv s) (moved : s.step .writeTake = some s') : Inv s' := by
  simp only [State.step] at moved
  split at moved
  · cases moved
  · cases moved
    refine ⟨fun p waiting => absurd waiting (inv.wake p), fun task => inv.cleared task,
      fun task set => ⟨fun value => (inv.idle task set).1 value,
        fun p waiting => absurd waiting (inv.wake p)⟩⟩

/-! ### Polls -/

/-- A poll that goes on is not due for it. -/
theorem due_of_setPoll {p other : P} {poll : Poll} (poll_ : poll ≠ .waiting true)
    (waiting : (s.setPoll p poll).polls other = .waiting true) : s.polls other = .waiting true := by
  by_cases same : other = p
  · subst same
    simp only [State.setPoll, Function.update_self] at waiting
    exact absurd waiting poll_
  · simpa only [State.setPoll, Function.update_of_ne same] using waiting

/-- A poll that goes on, perhaps with a guard. -/
theorem Inv.setPoll {p : P} {poll : Poll} (inv : Inv s) (poll_ : poll ≠ .waiting true) (readers : ℕ) :
    Inv { s.setPoll p poll with readers := readers } :=
  inv.frame rfl rfl (fun _ => due_of_setPoll poll_) id id id id (fun _ _ value => .inl value)

theorem Inv.test {p : P} {awaits : Awaits} (inv : Inv s) (moved : s.step (.test p awaits) = some s') :
    Inv s' := by
  simp only [State.step] at moved
  split at moved
  · cases moved
    exact inv.setPoll (by split <;> simp) s.readers
  · cases moved
    exact inv.setPoll (by simp) s.readers
  · cases moved

theorem Inv.look {p : P} {byRef : Bool} (inv : Inv s) (heard : Heard s (.look p byRef))
    (moved : s.step (.look p byRef) = some s') : Inv s' := by
  simp only [State.step] at moved
  split at moved
  · cases moved
    exact inv.setPoll (by simp) s.readers
  · cases moved
    exact inv.setPoll (by simp) (s.readers + 1)
  · rename_i during writer tested there
    cases moved
    obtain ⟨outside, idle⟩ := heard during tested (by rw [there]; rfl)
    exact inv.setPoll (by simp [outside, idle]) s.readers
  · split at moved
    · cases moved
      exact inv.setPoll (by simp) _
    · cases moved
      exact inv.setPoll (by simp) (s.readers + 1)
  · cases moved

theorem Inv.push {p : P} (inv : Inv s) (heard : Heard s (.push p)) (moved : s.step (.push p) = some s') :
    Inv s' := by
  simp only [State.step] at moved
  split at moved
  · rename_i guard during pushing
    cases moved
    have others {other : P} (waiting : (s.setPoll p (.waiting (during || s.inFlight))).polls other =
        .waiting true) : s.polls other = .waiting true ∨ other = p ∧ (during || s.inFlight) = true := by
      by_cases same : other = p
      · subst same
        simp only [State.setPoll, Function.update_self, Poll.waiting.injEq] at waiting
        exact .inr ⟨rfl, waiting⟩
      · simp only [State.setPoll, Function.update_of_ne same] at waiting
        exact .inl waiting
    refine ⟨fun other waiting => ?_, fun task => inv.cleared task, fun task set =>
      ⟨fun value => (inv.idle task set).1 value, fun other waiting => ?_⟩⟩
    · rcases others waiting with before | ⟨rfl, due⟩
      · obtain ⟨listed, set⟩ := inv.due other before
        exact ⟨List.mem_append_left _ listed, set⟩
      · exact ⟨List.mem_append_right _ List.mem_cons_self,
          (heard guard during pushing due).imp_left And.right⟩
    · rcases others waiting with before | ⟨rfl, due⟩
      · exact (inv.idle task set).2 other before
      · rcases heard guard during pushing due with ⟨inFlight, -⟩ | taking
        · have idle : s.task = .waiting := task
          rw [State.inFlight, idle] at inFlight
          cases inFlight
        · exact taking
  · cases moved

omit [DecidableEq P] in
theorem Inv.guard (inv : Inv s) (readers : ℕ) : Inv { s with readers := readers } :=
  inv.frame rfl rfl (fun _ => id) id id id id (fun _ _ value => .inl value)

/-! ## Whole runs -/

theorem Inv.step {act : Act V P} (inv : Inv s) (heard : Heard s act) (moved : s.step act = some s') :
    Inv s' := by
  cases act with
  | start => exact inv.start moved
  | loadVersion => exact inv.loadVersion moved
  | ready newValue => exact inv.ready heard moved
  | trySwap => exact inv.trySwap moved
  | clear => exact inv.clear moved
  | take => exact inv.take moved
  | write write => exact inv.write moved
  | lock => exact inv.lock moved
  | bumpVersion => exact inv.bumpVersion moved
  | swap => exact inv.swap heard moved
  | writeClear => exact inv.writeClear moved
  | writeTake => exact inv.writeTake moved
  | test p awaits => exact inv.test moved
  | look p byRef => exact inv.look heard moved
  | push p => exact inv.push heard moved
  | read =>
    simp only [State.step] at moved
    split at moved
    · cases moved
      exact inv.guard (s.readers + 1)
    · cases moved
  | release =>
    simp only [State.step] at moved
    split at moved
    · cases moved
    · cases moved
      exact inv.guard (s.readers - 1)

/-- A poll that has returned `Pending` only ever gets woken. -/
theorem waiting_step {act : Act V P} {p : P} {during : Bool} (waiting : s.polls p = .waiting during)
    (moved : s.step act = some s') : s'.polls p = .waiting during ∨ s'.polls p = .woken := by
  have woken : s.wake.polls p = .waiting during ∨ s.wake.polls p = .woken := by
    simp only [State.wake, waiting]
    split
    · exact .inr rfl
    · exact .inl rfl
  have others {other : P} {poll : Poll} (moves : ∀ during, s.polls other ≠ .waiting during) :
      (s.setPoll other poll).polls p = .waiting during := by
    have apart : p ≠ other := by
      rintro rfl
      exact moves during waiting
    simp only [State.setPoll, Function.update_of_ne apart, waiting]
  cases act with
  | take =>
    simp only [State.step] at moved
    split at moved
    · cases moved
      exact woken
    · cases moved
  | writeTake =>
    simp only [State.step] at moved
    split at moved
    · cases moved
    · cases moved
      exact woken
  | test other awaits =>
    simp only [State.step] at moved
    split at moved
    · rename_i unpolled
      cases moved
      exact .inl (others (by simp [unpolled]))
    · rename_i unpolled
      cases moved
      exact .inl (others (by simp [unpolled]))
    · cases moved
  | look other byRef =>
    simp only [State.step] at moved
    split at moved
    · rename_i tested _
      cases moved
      exact .inl (others (by simp [tested]))
    · rename_i tested _
      cases moved
      exact .inl (others (by simp [tested]))
    · rename_i tested _
      cases moved
      exact .inl (others (by simp [tested]))
    · rename_i tested _
      split at moved
      · cases moved
        exact .inl (others (by simp [tested]))
      · cases moved
        exact .inl (others (by simp [tested]))
    · cases moved
  | push other =>
    simp only [State.step] at moved
    split at moved
    · rename_i pushing
      cases moved
      exact .inl (others (by simp [pushing]))
    · cases moved
  | _ =>
    simp only [State.step] at moved
    repeat' split at moved
    all_goals
      cases moved
      try exact .inl waiting

/-- Every poll that was pending while a load was in flight has been woken, and with a value stored the
flag is clear. -/
def State.AllWoken (s : State V P) : Prop :=
  (∀ p, s.polls p ≠ .waiting true) ∧ (s.stored = true → s.flag = false)

omit [DecidableEq P] in
theorem Inv.settled (inv : Inv s) (settled : s.Settled) : s.AllWoken := by
  have quiet := settled.not_taking
  refine ⟨fun p waiting => ?_, fun stored => ?_⟩
  · rcases (inv.due p waiting).2 with set | taking
    · exact quiet ((inv.idle settled.task set).2 p waiting)
    · exact quiet taking
  · cases set : s.flag with
    | false => rfl
    | true => exact absurd (.inl ((inv.idle settled.task set).1 stored)) quiet

/-- In a run all of whose steps are heard, whenever no load is in flight nobody is left waiting for one. -/
theorem polls_woken (initial : Option V) (first : First V) (s : State V P)
    (run : Reaches State.step (fun s act _ => Heard s act) (State.new initial first) s)
    (settled : s.Settled) : s.AllWoken := by
  have inv : Inv s := by
    apply run.invariant (Inv.new initial first)
    intro s act s' inv moved heard
    exact inv.step heard moved
  exact inv.settled settled

/-! ### Three runs -/

/-- A poll that waits for the first load is woken by a write, and again by nobody: the load that the
write has overtaken ends. -/
theorem polls_woken_write : ∃ s,
    exec State.step (State.new none .pending : State ℕ ℕ)
      [.start, .loadVersion, .test 0 .ready, .push 0, .write ⟨some 2, true⟩, .lock, .bumpVersion, .swap,
        .writeClear, .writeTake, .ready (some 1)] = some s ∧
    s.polls 0 = .woken ∧ s.AllWoken := by
  refine ⟨_, rfl, rfl, polls_woken none .pending _ ?_ ⟨rfl, rfl, rfl, nofun⟩⟩
  have created : Reaches State.step (fun s act _ => Heard s act) (State.new none .pending : State ℕ ℕ)
    (State.new none .pending) := .start
  have swapped := created.step (a := (.start : Act ℕ ℕ)) rfl trivial
  have loading := swapped.step (a := (.loadVersion : Act ℕ ℕ)) rfl trivial
  have tested := loading.step (a := (.test 0 .ready : Act ℕ ℕ)) rfl trivial
  have pushed := tested.step (a := (.push 0 : Act ℕ ℕ)) rfl fun _ _ _ _ => .inl ⟨rfl, rfl⟩
  have queued := pushed.step (a := (.write ⟨some 2, true⟩ : Act ℕ ℕ)) rfl trivial
  have locked := queued.step (a := (.lock : Act ℕ ℕ)) rfl trivial
  have bumped := locked.step (a := (.bumpVersion : Act ℕ ℕ)) rfl trivial
  have written := bumped.step (a := (.swap : Act ℕ ℕ)) rfl nofun
  have cleared := written.step (a := (.writeClear : Act ℕ ℕ)) rfl trivial
  have taken := cleared.step (a := (.writeTake : Act ℕ ℕ)) rfl trivial
  exact taken.step (a := (.ready (some 1) : Act ℕ ℕ)) rfl fun _ _ _ _ set => absurd set Bool.false_ne_true

/-- A write that does not notify is made during the first load: when the load ends, it leaves the poll
that awaits it waiting, and the flag set. -/
theorem silent_write_hangs : ∃ s,
    exec State.step (State.new none .pending : State ℕ ℕ)
      [.start, .loadVersion, .test 0 .value, .look 0 false, .push 0, .write ⟨some 2, false⟩, .lock,
        .bumpVersion, .swap, .ready (some 1)] = some s ∧
    s.Settled ∧ s.polls 0 = .waiting true ∧ s.value = some 2 ∧ s.flag = true ∧ ¬s.AllWoken := by
  refine ⟨_, rfl, ⟨rfl, rfl, rfl, nofun⟩, rfl, rfl, rfl, fun woken => ?_⟩
  exact woken.1 0 rfl

/-- A load ends between a poll's look at the flag and its push: its waker is pushed after the wakers
have been taken. -/
theorem late_push_hangs : ∃ s,
    exec State.step (State.new none .pending : State ℕ ℕ)
      [.start, .loadVersion, .test 0 .ready, .ready (some 1), .trySwap, .clear, .take, .push 0] =
        some s ∧
    s.Settled ∧ s.polls 0 = .waiting true ∧ s.flag = false ∧ ¬s.AllWoken := by
  refine ⟨_, rfl, ⟨rfl, rfl, rfl, nofun⟩, rfl, rfl, fun woken => ?_⟩
  exact woken.1 0 rfl

end Halyard.Async.Waking
