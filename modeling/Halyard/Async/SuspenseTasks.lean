import Halyard.Async.Value

/-!
# The tasks of suspense boundaries

A `SuspenseContext` has a set of tasks, and its boundary shows the fallback while there is one.  An
`ArcAsyncDerived` holds handles of such tasks while it loads, for the boundaries under which it was read before,
and a read while it loads leaves one with a task that waits for `ready()`.  All of it is on one thread; between
any two of these steps other code may go on.

* `Tasks.HeldBy`: a boundary's tasks are those whose handles are held.
* `boundaries_wait`: a boundary waits for each load of what was read under it, and for no longer.
-/

namespace Halyard.Async.Suspense

/-! ## Tasks and their handles -/

structure Handle (C : Type*) where
  context : C
  key : ℕ
  deriving DecidableEq

/-- The `tasks` of each context.  Keys have the numbers in which they were made. -/
structure Tasks (C : Type*) where
  tasks : C → List ℕ
  made : ℕ

section

variable {C : Type*} [DecidableEq C]

/-- `SuspenseContext::task_id`. -/
def Tasks.taskId (c : C) (t : Tasks C) : Handle C × Tasks C :=
  (⟨c, t.made⟩, ⟨Function.update t.tasks c (t.tasks c ++ [t.made]), t.made + 1⟩)

def Tasks.taskIds : List C → Tasks C → List (Handle C) × Tasks C
  | [], t => ([], t)
  | c :: rest, t => ((t.taskId c).1 :: ((t.taskId c).2.taskIds rest).1, ((t.taskId c).2.taskIds rest).2)

/-- `Drop` for `TaskHandle`. -/
def Tasks.drop (t : Tasks C) (h : Handle C) : Tasks C :=
  { t with tasks := Function.update t.tasks h.context ((t.tasks h.context).filter (· ≠ h.key)) }

def Tasks.dropAll (hs : List (Handle C)) (t : Tasks C) : Tasks C := hs.foldl Tasks.drop t

end

/-- The tasks that there are have one handle each, and these are held. -/
structure Tasks.HeldBy {C : Type*} (t : Tasks C) (held : List (Handle C)) : Prop where
  tasks : ∀ c key, key ∈ t.tasks c ↔ ⟨c, key⟩ ∈ held
  nodup : held.Nodup
  made : ∀ h ∈ held, h.key < t.made

namespace Tasks.HeldBy

variable {C : Type*} {t : Tasks C} {held held' hs : List (Handle C)}

theorem perm (heldBy : t.HeldBy held) (perm : held.Perm held') : t.HeldBy held' where
  tasks c key := (heldBy.tasks c key).trans perm.mem_iff
  nodup := perm.nodup_iff.mp heldBy.nodup
  made h member := heldBy.made h (perm.mem_iff.mpr member)

theorem tasks_ne_nil (heldBy : t.HeldBy held) {h : Handle C} (member : h ∈ held) : t.tasks h.context ≠ [] :=
  List.ne_nil_of_mem ((heldBy.tasks h.context h.key).mpr member)

theorem tasks_eq_nil (heldBy : t.HeldBy []) (c : C) : t.tasks c = [] :=
  List.eq_nil_iff_forall_not_mem.mpr fun key member => List.not_mem_nil ((heldBy.tasks c key).mp member)

variable [DecidableEq C]

theorem taskId (heldBy : t.HeldBy held) (c : C) : (t.taskId c).2.HeldBy ((t.taskId c).1 :: held) where
  tasks c' key := by
    have fresh : (⟨c, t.made⟩ : Handle C) ∉ held := fun member => lt_irrefl _ (heldBy.made _ member)
    by_cases same : c' = c
    · subst same
      simp [Tasks.taskId, heldBy.tasks, or_comm]
    · simp [Tasks.taskId, same, heldBy.tasks]
  nodup := by
    refine List.nodup_cons.mpr ⟨fun member => ?_, heldBy.nodup⟩
    exact lt_irrefl _ (heldBy.made _ member)
  made h member := by
    rcases List.mem_cons.mp member with rfl | member
    · exact Nat.lt_succ_self _
    · exact Nat.lt_succ_of_lt (heldBy.made h member)

theorem taskIds (heldBy : t.HeldBy held) (cs : List C) :
    (t.taskIds cs).2.HeldBy ((t.taskIds cs).1 ++ held) ∧ (t.taskIds cs).1.map Handle.context = cs := by
  induction cs generalizing t held with
  | nil => exact ⟨heldBy, rfl⟩
  | cons c rest ih =>
    obtain ⟨later, contexts⟩ := ih (heldBy.taskId c)
    refine ⟨later.perm ?_, congrArg (c :: ·) contexts⟩
    exact List.perm_middle

theorem drop {h : Handle C} (heldBy : t.HeldBy (h :: held)) : (t.drop h).HeldBy held where
  tasks c key := by
    have apart := (List.nodup_cons.mp heldBy.nodup).1
    by_cases same : c = h.context
    · subst same
      simp only [Tasks.drop, Function.update_self, List.mem_filter, heldBy.tasks, List.mem_cons,
        decide_not, Bool.not_eq_true', decide_eq_false_iff_not]
      constructor
      · rintro ⟨is | member, other⟩
        · exact absurd (congrArg Handle.key is) other
        · exact member
      · refine fun member => ⟨.inr member, ?_⟩
        rintro rfl
        exact apart member
    · have other : (⟨c, key⟩ : Handle C) ≠ h := fun is => same (congrArg Handle.context is)
      simp [Tasks.drop, Function.update_of_ne same, heldBy.tasks, other]
  nodup := (List.nodup_cons.mp heldBy.nodup).2
  made h' member := heldBy.made h' (List.mem_cons_of_mem _ member)

theorem dropAll (heldBy : t.HeldBy (hs ++ held)) : (t.dropAll hs).HeldBy held := by
  induction hs generalizing t with
  | nil => exact heldBy
  | cons h rest ih => exact ih heldBy.drop

end Tasks.HeldBy

/-! ## The value that is read -/

inductive Phase
  | idle
  /-- A load's future is awaited. -/
  | loading (wasLoading : Bool) (thisVersion : ℕ)
  /-- `set_inner_value` waits until nobody reads the value. -/
  | storing
  deriving DecidableEq

/-- `pending` is `pending_suspenses`; `waiting` and `runnable` are the handles of tasks that wait for `ready()`,
whose wakers are in the list or which will be polled.  `owed` counts the calls of `notify_subs` that have yet to
take the wakers.  The rest is only watched: the contexts under which the value was read before the load that is
due, those under which it was read since the flag was set, and whether a load has fetched nothing since the last
one that did. -/
structure State (C : Type*) extends Tasks C where
  loading : Bool
  version : ℕ
  suspenses : List C
  pending : List (Handle C)
  phase : Phase
  runnable : List (Handle C)
  waiting : List (Handle C)
  owed : ℕ
  expects : List C
  asked : List C
  dry : Bool

inductive Act (C : Type*)
  /-- `try_read_untracked`, under a context. -/
  | read (c : C)
  /-- A future of the value is polled under a context. -/
  | await_ (c : C)
  | startLoad
  /-- The load's future ends, with nothing. -/
  | fetchNothing
  | endLoad
  | store
  | wake
  /-- `swap_value`, which notifies or not. -/
  | write (notify : Bool)
  /-- A task that waits for `ready()` is polled. -/
  | poll (h : Handle C)

section

variable {C : Type*} [DecidableEq C]

/-- A value that is there or not. -/
def State.new (isReady : Bool) : State C where
  tasks _ := []
  made := 0
  loading := !isReady
  version := 0
  suspenses := []
  pending := []
  phase := .idle
  runnable := []
  waiting := []
  owed := 0
  expects := []
  asked := []
  dry := false

def State.dropPending (s : State C) : State C :=
  { s with toTasks := s.toTasks.dropAll s.pending, pending := [], expects := [] }

/-- `notify_subs`, up to the wakers. -/
def State.clear (s : State C) : State C := { s with loading := false, asked := [], owed := s.owed + 1 }

def State.step (s : State C) : Act C → Option (State C)
  | .read c =>
    let made := s.toTasks.taskId c
    if s.loading then
      some
        { s with
          toTasks := made.2
          runnable := s.runnable ++ [made.1]
          asked := s.asked ++ [c]
          suspenses := s.suspenses ++ [c] }
    else some { s with toTasks := made.2.drop made.1, suspenses := s.suspenses ++ [c] }
  | .await_ c => some { s with suspenses := s.suspenses ++ [c] }
  | .startLoad =>
    match s.phase with
    | .idle =>
      let version := (s.version + 1) % versions
      let made := s.toTasks.taskIds s.suspenses
      some
        { s with
          toTasks := made.2
          loading := true
          version
          suspenses := []
          pending := s.pending ++ made.1
          phase := .loading s.loading version
          expects := s.expects ++ s.suspenses }
    | _ => none
  | .fetchNothing =>
    match s.phase with
    | .loading wasLoading _ =>
      some
        { s with
          loading := wasLoading
          phase := .idle
          asked := if wasLoading then s.asked else []
          dry := true }
    | _ => none
  | .endLoad =>
    match s.phase with
    | .loading _ thisVersion =>
      some { s.dropPending with phase := if s.version = thisVersion then .storing else .idle, dry := false }
    | _ => none
  | .store =>
    match s.phase with
    | .storing => some { s.clear with phase := .idle }
    | _ => none
  | .wake =>
    if 0 < s.owed then
      some { s with runnable := s.runnable ++ s.waiting, waiting := [], owed := s.owed - 1 }
    else none
  | .write notify =>
    let bumped := { s.dropPending with version := (s.version + 1) % versions }
    some (if notify then bumped.clear else bumped)
  | .poll h =>
    if h ∈ s.runnable then
      let rest := s.runnable.erase h
      if s.loading then some { s with runnable := rest, waiting := s.waiting ++ [h] }
      else some { s with toTasks := s.toTasks.drop h, runnable := rest }
    else none

end

/-! ## Who waits -/

variable {C : Type*} {s s' : State C}

structure Inv (s : State C) : Prop where
  held : s.toTasks.HeldBy (s.pending ++ (s.waiting ++ s.runnable))
  expects : ∀ c ∈ s.expects, ∃ h ∈ s.pending, h.context = c
  asked : ∀ c ∈ s.asked, ∃ h ∈ s.waiting ++ s.runnable, h.context = c
  clear : s.loading = false → s.asked = []
  /-- A load clears the flag and takes the wakers, unless it fetches nothing. -/
  waiting : s.waiting ≠ [] → s.loading = true ∨ 0 < s.owed ∨ (s.phase = .idle ∧ s.dry = true)
  pending : s.pending ≠ [] → (∃ wasLoading thisVersion, s.phase = .loading wasLoading thisVersion) ∨ s.dry = true

theorem Inv.new (isReady : Bool) : Inv (State.new isReady : State C) where
  held := ⟨fun _ _ => ⟨nofun, nofun⟩, List.nodup_nil, nofun⟩
  expects := nofun
  asked := nofun
  clear _ := rfl
  waiting some_ := absurd rfl some_
  pending some_ := absurd rfl some_

variable [DecidableEq C]

theorem Inv.read {c : C} (inv : Inv s) (moved : s.step (.read c) = some s') : Inv s' := by
  rw [State.step] at moved
  dsimp only at moved
  have made := inv.held.taskId c
  split at moved
  next loads =>
    cases moved
    exact
      { inv with
        held := by
          refine made.perm ?_
          simp only [← List.append_assoc]
          exact (List.perm_append_singleton _ _).symm
        asked := by
          intro c' member
          rw [List.mem_append, List.mem_singleton] at member
          rcases member with member | rfl
          · obtain ⟨h, there, is⟩ := inv.asked c' member
            refine ⟨h, ?_, is⟩
            rw [← List.append_assoc]
            exact List.mem_append_left _ there
          · have last : (s.toTasks.taskId c').1 ∈ s.waiting ++ (s.runnable ++ [(s.toTasks.taskId c').1]) := by simp
            exact ⟨_, last, rfl⟩
        clear := fun clear => absurd (clear.symm.trans loads) Bool.false_ne_true }
  next =>
    cases moved
    exact { inv with held := made.drop }

theorem Inv.startLoad (inv : Inv s) (moved : s.step .startLoad = some s') : Inv s' := by
  rw [State.step] at moved
  split at moved
  next idle =>
    cases moved
    obtain ⟨held, contexts⟩ := inv.held.taskIds s.suspenses
    exact
      { held := by
          refine held.perm ?_
          rw [← List.append_assoc]
          exact List.perm_append_comm.append_right _
        expects := by
          intro c member
          rw [List.mem_append] at member
          rcases member with member | member
          · obtain ⟨h, there, is⟩ := inv.expects c member
            exact ⟨h, List.mem_append_left _ there, is⟩
          · rw [← contexts, List.mem_map] at member
            obtain ⟨h, there, is⟩ := member
            exact ⟨h, List.mem_append_right _ there, is⟩
        asked := inv.asked
        clear := nofun
        waiting := fun _ => .inl rfl
        pending := fun _ => .inl ⟨_, _, rfl⟩ }
  next => cases moved

theorem Inv.fetchNothing (inv : Inv s) (moved : s.step .fetchNothing = some s') : Inv s' := by
  rw [State.step] at moved
  split at moved
  next wasLoading thisVersion _ =>
    cases moved
    exact
      { held := inv.held
        expects := inv.expects
        asked := by
          cases wasLoading with
          | true => exact inv.asked
          | false => exact nofun
        clear := fun clear => by
          rw [show wasLoading = false from clear]
          rfl
        waiting := fun _ => .inr (.inr ⟨rfl, rfl⟩)
        pending := fun _ => .inr rfl }
  next => cases moved

theorem Inv.dropPending (inv : Inv s) : s.dropPending.toTasks.HeldBy (s.waiting ++ s.runnable) :=
  inv.held.dropAll

theorem Inv.endLoad (inv : Inv s) (moved : s.step .endLoad = some s') : Inv s' := by
  rw [State.step] at moved
  split at moved
  next wasLoading thisVersion loads =>
    cases moved
    exact
      { held := inv.dropPending
        expects := nofun
        asked := inv.asked
        clear := inv.clear
        waiting := fun some_ => by
          rcases inv.waiting some_ with flag | owed | ⟨idle, -⟩
          · exact .inl flag
          · exact .inr (.inl owed)
          · cases idle.symm.trans loads
        pending := fun some_ => absurd rfl some_ }
  next => cases moved

theorem Inv.store (inv : Inv s) (moved : s.step .store = some s') : Inv s' := by
  rw [State.step] at moved
  split at moved
  next storing =>
    cases moved
    exact
      { held := inv.held
        expects := inv.expects
        asked := nofun
        clear := fun _ => rfl
        waiting := fun _ => .inr (.inl (Nat.succ_pos _))
        pending := fun some_ => by
          rcases inv.pending some_ with ⟨_, _, loads⟩ | dry
          · cases storing.symm.trans loads
          · exact .inr dry }
  next => cases moved

theorem Inv.wake (inv : Inv s) (moved : s.step .wake = some s') : Inv s' := by
  rw [State.step] at moved
  split at moved
  next =>
    cases moved
    exact
      { held := inv.held.perm (List.perm_append_comm.append_left _)
        expects := inv.expects
        asked := fun c member => by
          obtain ⟨h, there, is⟩ := inv.asked c member
          have moved : h ∈ s.runnable ++ s.waiting := List.perm_append_comm.mem_iff.mp there
          exact ⟨h, moved, is⟩
        clear := inv.clear
        waiting := fun some_ => absurd rfl some_
        pending := inv.pending }
  next => cases moved

theorem Inv.write {notify : Bool} (inv : Inv s) (moved : s.step (.write notify) = some s') : Inv s' := by
  rw [State.step] at moved
  cases notify with
  | false =>
    cases moved
    exact
      { held := inv.dropPending
        expects := nofun
        asked := inv.asked
        clear := inv.clear
        waiting := inv.waiting
        pending := fun some_ => absurd rfl some_ }
  | true =>
    cases moved
    exact
      { held := inv.dropPending
        expects := nofun
        asked := nofun
        clear := fun _ => rfl
        waiting := fun _ => .inr (.inl (Nat.succ_pos _))
        pending := fun some_ => absurd rfl some_ }

theorem Inv.poll {h : Handle C} (inv : Inv s) (moved : s.step (.poll h) = some s') : Inv s' := by
  rw [State.step] at moved
  split at moved
  next there =>
    have first := List.perm_cons_erase there
    dsimp only at moved
    split at moved
    next loads =>
      cases moved
      have moves : (s.waiting ++ s.runnable).Perm (s.waiting ++ [h] ++ s.runnable.erase h) := by
        rw [List.append_assoc]
        exact first.append_left _
      exact
        { held := inv.held.perm (moves.append_left _)
          expects := inv.expects
          asked := fun c member => by
            obtain ⟨h', there', is⟩ := inv.asked c member
            exact ⟨h', moves.mem_iff.mp there', is⟩
          clear := inv.clear
          waiting := fun _ => .inl loads
          pending := inv.pending }
    next clear =>
      cases moved
      have moves : (s.pending ++ (s.waiting ++ s.runnable)).Perm
          (h :: (s.pending ++ (s.waiting ++ s.runnable.erase h))) := by
        rw [← List.append_assoc, ← List.append_assoc]
        exact (first.append_left _).trans List.perm_middle
      have none_ := inv.clear (Bool.eq_false_of_not_eq_true clear)
      exact
        { held := (inv.held.perm moves).drop
          expects := inv.expects
          asked := fun c member => by
            have member : c ∈ s.asked := member
            rw [none_] at member
            cases member
          clear := inv.clear
          waiting := inv.waiting
          pending := inv.pending }
  next => cases moved

theorem Inv.step {a : Act C} (inv : Inv s) (moved : s.step a = some s') : Inv s' := by
  cases a with
  | read c => exact inv.read moved
  | await_ c =>
    cases moved
    exact { inv with }
  | startLoad => exact inv.startLoad moved
  | fetchNothing => exact inv.fetchNothing moved
  | endLoad => exact inv.endLoad moved
  | store => exact inv.store moved
  | wake => exact inv.wake moved
  | write notify => exact inv.write moved
  | poll h => exact inv.poll moved

/-! ## Runs -/

/-- Whom a boundary waits for. -/
structure State.Waits (s : State C) : Prop where
  /-- A load is in flight that no write has overtaken, or was, and the next one is waited for. -/
  loads : ∀ c ∈ s.expects, s.tasks c ≠ []
  /-- The value was read under the boundary while it was loading, and still is. -/
  asked : ∀ c ∈ s.asked, s.tasks c ≠ []
  /-- Once nothing goes on and the flag is clear, nobody waits, unless the last load has fetched nothing. -/
  settled : s.phase = .idle → s.owed = 0 → s.runnable = [] → s.loading = false → s.dry = false →
    ∀ c, s.tasks c = []

omit [DecidableEq C] in
theorem Inv.waits (inv : Inv s) : s.Waits where
  loads c member := by
    obtain ⟨h, there, rfl⟩ := inv.expects c member
    exact inv.held.tasks_ne_nil (List.mem_append_left _ there)
  asked c member := by
    obtain ⟨h, there, rfl⟩ := inv.asked c member
    exact inv.held.tasks_ne_nil (List.mem_append_right _ there)
  settled idle owed runnable clear wet := by
    have waiting : s.waiting = [] := by
      by_contra some_
      rcases inv.waiting some_ with flag | due | ⟨-, dry⟩
      · exact Bool.false_ne_true (clear.symm.trans flag)
      · exact due.ne' owed
      · exact Bool.false_ne_true (wet.symm.trans dry)
    have pending : s.pending = [] := by
      by_contra some_
      rcases inv.pending some_ with ⟨_, _, loads⟩ | dry
      · cases idle.symm.trans loads
      · exact Bool.false_ne_true (wet.symm.trans dry)
    have held := inv.held
    rw [pending, waiting, runnable] at held
    exact held.tasks_eq_nil

end Halyard.Async.Suspense
