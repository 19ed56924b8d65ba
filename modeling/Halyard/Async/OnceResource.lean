import Halyard.Reaches
import Halyard.Rendezvous

/-!
# A resource that loads once

`ArcOnceResource` of `server/once_resource.rs`: the task that loads its value, and the polls of the futures that
await it.  A poll of `OnceResourceFuture` looks for the value, pushes its waker and looks again; one of `ready()`
looks at the `loading` flag and then pushes its waker.  Between any two of these steps anyone else may go on.

* `Inv.step`: the task and the polls for the value meet like a setter and its waiters (`Rendezvous`).
* `once_served`: every poll for the value is given the one value that was loaded, or woken once it is there.
-/

namespace Halyard.Async.Once

variable {V P : Type}

/-- The task that loads the value. -/
inductive Loader
  /-- There is none: the server has sent the value, or loads are suppressed. -/
  | absent
  | pending
  /-- It has stored the value, and has yet to clear `loading`. -/
  | stored
  /-- It has yet to take the wakers. -/
  | cleared
  | finished
  deriving DecidableEq

/-- One poll of a future. -/
inductive Poll (V : Type)
  | unpolled
  /-- It has found no value. -/
  | looked
  /-- It has pushed its waker, and has yet to look again. -/
  | pushed
  | got (value : V)
  /-- It has returned `Pending`. -/
  | waiting
  /-- A poll of `ready()` has found the flag set. -/
  | tested
  | ready
  /-- It has returned `Pending`.  `late` is watched: the wakers had been taken when it pushed its own. -/
  | waitingReady (late : Bool)
  | woken
  deriving DecidableEq

structure State (V P : Type) where
  value : Option V
  loading : Bool
  wakers : List P
  loader : Loader
  polls : P → Poll V

inductive Act (V P : Type)
  /-- The future of the task ends. -/
  | store (value : V)
  | clear
  | take
  /-- The steps of `OnceResourceFuture::poll`. -/
  | look (p : P)
  | push (p : P)
  | lookAgain (p : P)
  /-- The steps of `AsyncDerivedReadyFuture::poll`. -/
  | test (p : P)
  | pushReady (p : P)

/-- `new_with_options`: the initial value is what the server has sent. -/
def State.new (initial : Option V) (suppressed : Bool) : State V P :=
  ⟨initial, initial.isNone, [], if initial.isSome || suppressed then .absent else .pending, fun _ => .unpolled⟩

section

variable [DecidableEq P]

def State.setPoll (s : State V P) (p : P) (poll : Poll V) : State V P :=
  { s with polls := Function.update s.polls p poll }

/-- The wakers are taken and woken under the lock of their list. -/
def State.wake (s : State V P) : State V P :=
  { s with
    wakers := []
    polls := fun p =>
      match s.polls p with
      | .waiting => if s.wakers.contains p then .woken else .waiting
      | .waitingReady late => if s.wakers.contains p then .woken else .waitingReady late
      | other => other }

def State.step (s : State V P) : Act V P → Option (State V P)
  | .store value =>
    match s.loader with
    | .pending => some { s with value := some value, loader := .stored }
    | _ => none
  | .clear =>
    match s.loader with
    | .stored => some { s with loading := false, loader := .cleared }
    | _ => none
  | .take =>
    match s.loader with
    | .cleared => some { s.wake with loader := .finished }
    | _ => none
  | .look p =>
    match s.polls p with
    | .unpolled => some (s.setPoll p (s.value.elim .looked .got))
    | _ => none
  | .push p =>
    match s.polls p with
    | .looked => some { s.setPoll p .pushed with wakers := s.wakers ++ [p] }
    | _ => none
  | .lookAgain p =>
    match s.polls p with
    | .pushed => some (s.setPoll p (s.value.elim .waiting .got))
    | _ => none
  | .test p =>
    match s.polls p with
    | .unpolled => some (s.setPoll p (if s.loading then .tested else .ready))
    | _ => none
  | .pushReady p =>
    match s.polls p with
    | .tested =>
      some { s.setPoll p (.waitingReady (s.loader == .finished)) with wakers := s.wakers ++ [p] }
    | _ => none

end

/-! ## Who is woken -/

/-- The task has stored the value, and has yet to take the wakers. -/
def Loader.owed : Loader → ℕ
  | .stored => 1
  | .cleared => 1
  | _ => 0

def State.rendezvous (s : State V P) : Rendezvous P where
  set := s.value.isSome
  owed := s.loader.owed
  registered := {p | p ∈ s.wakers}
  resting := {p | s.polls p = .waiting}

structure Inv (initial : Option V) (s : State V P) : Prop where
  sound : s.rendezvous.Sound
  pushed : ∀ p, s.polls p = .pushed → p ∈ s.wakers ∨ s.value.isSome = true
  got : ∀ p value, s.polls p = .got value → s.value = some value
  /-- The task stores a value where there is none. -/
  pending : s.loader = .pending → s.value = none
  loaded : s.loader ≠ .absent → s.loader ≠ .pending → s.value.isSome = true
  initial : ∀ value ∈ initial, s.value = some value ∧ s.loader = .absent
  /-- Without a task nobody waits for the flag that the server's value has cleared. -/
  flag : s.loading = true → s.value.isSome = true → s.loader = .stored
  tested : ∀ p, s.polls p = .tested → s.loader = .absent → s.value = none
  ready : ∀ p, s.polls p = .waitingReady false →
    p ∈ s.wakers ∧ s.loader ≠ .finished ∧ (s.loader = .absent → s.value = none)

variable {initial : Option V} {suppressed : Bool} {s s' : State V P}

theorem Inv.new : Inv initial (State.new initial suppressed : State V P) where
  sound := nofun
  pushed := nofun
  got := nofun
  pending := by
    intro pending
    cases initial with
    | none => rfl
    | some value => cases pending
  loaded := by
    intro there waits
    cases initial with
    | none => cases suppressed <;> simp [State.new] at there waits
    | some value => rfl
  initial := by
    rintro value rfl
    exact ⟨rfl, rfl⟩
  flag := by
    intro set there
    cases initial with
    | none => cases there
    | some value => cases set
  tested := nofun
  ready := nofun

/-! ### The task -/

theorem Inv.store {value : V} (inv : Inv initial s) [DecidableEq P] (moved : s.step (.store value) = some s') :
    Inv initial s' := by
  simp only [State.step] at moved
  split at moved
  next pending =>
    cases moved
    have none_ := inv.pending pending
    exact
      { sound := by
          have sets := Rendezvous.Move.sets.sound inv.sound
          simp only [State.rendezvous, pending] at sets
          exact sets
        pushed := fun p pushed => .inr rfl
        got := fun p value got => absurd (none_.symm.trans (inv.got p value got)) nofun
        pending := nofun
        loaded := fun _ _ => rfl
        initial := fun value is => absurd (pending.symm.trans (inv.initial value is).2) nofun
        flag := fun _ _ => rfl
        tested := fun _ _ => nofun
        ready := fun p waiting => ⟨(inv.ready p waiting).1, nofun, nofun⟩ }
  next => cases moved

theorem Inv.clear (inv : Inv initial s) [DecidableEq P] (moved : s.step .clear = some s') : Inv initial s' := by
  simp only [State.step] at moved
  split at moved
  next stored =>
    cases moved
    have there : s.value.isSome = true := inv.loaded (by rw [stored]; nofun) (by rw [stored]; nofun)
    exact
      { inv with
        sound := by
          have sound := inv.sound
          simp only [State.rendezvous, stored] at sound
          exact sound
        pending := nofun
        loaded := fun _ _ => there
        initial := fun value is => absurd (stored.symm.trans (inv.initial value is).2) nofun
        flag := nofun
        tested := fun _ _ => nofun
        ready := fun p waiting => ⟨(inv.ready p waiting).1, nofun, nofun⟩ }
  next => cases moved

section

variable [DecidableEq P]

theorem State.polls_wake {p : P} {poll : Poll V} (is : s.wake.polls p = poll) (asleep : poll ≠ .woken) :
    s.polls p = poll ∧ (p ∈ s.wakers → poll ≠ .waiting ∧ ∀ late, poll ≠ .waitingReady late) := by
  simp only [State.wake, List.contains_iff_mem] at is
  split at is
  next waiting =>
    split at is
    next => exact absurd is.symm asleep
    next missing => exact ⟨waiting.trans is, fun mem => absurd mem missing⟩
  next late waiting =>
    split at is
    next => exact absurd is.symm asleep
    next missing => exact ⟨waiting.trans is, fun mem => absurd mem missing⟩
  next waiting ready =>
    refine ⟨is, fun _ => ⟨?_, ?_⟩⟩
    · rintro rfl
      exact waiting is
    · rintro late rfl
      exact ready late is

theorem State.rendezvous_wake {loader : Loader} : State.rendezvous { s.wake with loader } =
    ⟨s.value.isSome, loader.owed, ∅, s.rendezvous.resting \ s.rendezvous.registered⟩ := by
  unfold State.rendezvous
  congr 1
  · ext p
    simp [State.wake]
  · ext p
    constructor
    · intro waiting
      obtain ⟨before, apart⟩ := State.polls_wake waiting nofun
      exact ⟨before, fun mem => (apart mem).1 rfl⟩
    · rintro ⟨waiting, missing⟩
      change s.polls p = .waiting at waiting
      change p ∉ s.wakers at missing
      simp [State.wake, waiting, missing]

theorem Inv.take (inv : Inv initial s) (moved : s.step .take = some s') : Inv initial s' := by
  simp only [State.step] at moved
  split at moved
  next cleared =>
    cases moved
    have there : s.value.isSome = true := inv.loaded (by rw [cleared]; nofun) (by rw [cleared]; nofun)
    exact
      { sound := by
          rw [State.rendezvous_wake]
          exact Rendezvous.Move.wakes.sound inv.sound
        pushed := fun _ _ => .inr there
        got := fun p value got => inv.got p value (State.polls_wake got nofun).1
        pending := nofun
        loaded := fun _ _ => there
        initial := fun value is => absurd (cleared.symm.trans (inv.initial value is).2) nofun
        flag := fun set there => absurd (cleared.symm.trans (inv.flag set there)) nofun
        tested := fun _ _ => nofun
        ready := fun p waiting => by
          obtain ⟨before, apart⟩ := State.polls_wake waiting nofun
          exact absurd rfl ((apart (inv.ready p before).1).2 false) }
  next => cases moved

/-! ### Polls -/

/-- A poll goes on, perhaps with its waker in the list. -/
theorem Inv.setPoll (inv : Inv initial s) {p : P} {poll : Poll V} {wakers : List P} (more : s.wakers ⊆ wakers)
    (waits : poll = .waiting → p ∈ s.wakers ∧ s.value = none)
    (pushed : poll = .pushed → p ∈ wakers)
    (got : ∀ value, poll = .got value → s.value = some value)
    (tested : poll = .tested → s.loader = .absent → s.value = none)
    (ready : poll = .waitingReady false →
      p ∈ wakers ∧ s.loader ≠ .finished ∧ (s.loader = .absent → s.value = none)) :
    Inv initial { s.setPoll p poll with wakers } := by
  have cases_ {other : P} {poll' : Poll V} (is : (s.setPoll p poll).polls other = poll') :
      other = p ∧ poll = poll' ∨ other ≠ p ∧ s.polls other = poll' := by
    by_cases same : other = p
    · subst same
      exact .inl ⟨rfl, by simpa only [State.setPoll, Function.update_self] using is⟩
    · exact .inr ⟨same, by simpa only [State.setPoll, Function.update_of_ne same] using is⟩
  exact
    { inv with
      sound := by
        have listed : Rendezvous.Sound { s.rendezvous with registered := {q | q ∈ wakers} } :=
          Rendezvous.Move.sound (.registers fun _ mem => more mem) inv.sound
        by_cases rests : poll = .waiting
        · obtain ⟨mem, none_⟩ := waits rests
          refine Rendezvous.Move.sound (.rests (congrArg Option.isSome none_) fun other resting => ?_) listed
          rcases cases_ resting with ⟨rfl, -⟩ | ⟨-, before⟩
          · exact more mem
          · exact (listed other before).1
        · refine Rendezvous.Move.sound (.rises fun other resting => ?_) listed
          rcases cases_ resting with ⟨-, here⟩ | ⟨-, before⟩
          · exact absurd here rests
          · exact before
      pushed := fun other is => by
        rcases cases_ is with ⟨rfl, here⟩ | ⟨-, before⟩
        · exact .inl (pushed here)
        · exact (inv.pushed other before).imp_left fun mem => more mem
      got := fun other value is => by
        rcases cases_ is with ⟨rfl, here⟩ | ⟨-, before⟩
        · exact got value here
        · exact inv.got other value before
      tested := fun other is => by
        rcases cases_ is with ⟨rfl, here⟩ | ⟨-, before⟩
        · exact tested here
        · exact inv.tested other before
      ready := fun other is => by
        rcases cases_ is with ⟨rfl, here⟩ | ⟨-, before⟩
        · exact ready here
        · exact ⟨more (inv.ready other before).1, (inv.ready other before).2⟩ }

theorem Inv.look {p : P} (inv : Inv initial s) (moved : s.step (.look p) = some s') : Inv initial s' := by
  simp only [State.step] at moved
  split at moved
  next =>
    cases moved
    refine inv.setPoll (List.Subset.refl _) ?_ ?_ ?_ ?_ ?_ <;> cases s.value <;> simp
  next => cases moved

theorem Inv.push {p : P} (inv : Inv initial s) (moved : s.step (.push p) = some s') : Inv initial s' := by
  simp only [State.step] at moved
  split at moved
  next =>
    cases moved
    exact inv.setPoll (List.subset_append_left _ _) nofun (fun _ => by simp) nofun nofun nofun
  next => cases moved

/-- The poll pushed its waker before it looks again, so that only a value can have taken it out. -/
theorem Inv.lookAgain {p : P} (inv : Inv initial s) (moved : s.step (.lookAgain p) = some s') :
    Inv initial s' := by
  simp only [State.step] at moved
  split at moved
  next pushed =>
    cases moved
    cases value : s.value with
    | none =>
      have listed : p ∈ s.wakers := (inv.pushed p pushed).resolve_right (by rw [value]; nofun)
      exact inv.setPoll (List.Subset.refl _) (fun _ => ⟨listed, value⟩) nofun nofun nofun nofun
    | some found =>
      exact inv.setPoll (List.Subset.refl _) nofun nofun (fun _ is => value.trans (by cases is; rfl)) nofun nofun
  next => cases moved

theorem Inv.test {p : P} (inv : Inv initial s) (moved : s.step (.test p) = some s') : Inv initial s' := by
  simp only [State.step] at moved
  split at moved
  next =>
    cases moved
    refine inv.setPoll (List.Subset.refl _) ?_ ?_ ?_ ?_ ?_
    · split <;> nofun
    · split <;> nofun
    · split <;> nofun
    · intro tested absent
      split at tested
      next set =>
        by_contra there
        have stored := inv.flag set (Option.isSome_iff_ne_none.mpr there)
        cases absent.symm.trans stored
      next => cases tested
    · split <;> nofun
  next => cases moved

theorem Inv.pushReady {p : P} (inv : Inv initial s) (moved : s.step (.pushReady p) = some s') :
    Inv initial s' := by
  simp only [State.step] at moved
  split at moved
  next tested =>
    cases moved
    refine inv.setPoll (List.subset_append_left _ _) nofun nofun nofun nofun fun is => ?_
    refine ⟨by simp, fun finished => ?_, inv.tested p tested⟩
    rw [finished] at is
    cases is
  next => cases moved

theorem Inv.step {act : Act V P} (inv : Inv initial s) (moved : s.step act = some s') : Inv initial s' := by
  cases act with
  | store => exact inv.store moved
  | clear => exact inv.clear moved
  | take => exact inv.take moved
  | look => exact inv.look moved
  | push => exact inv.push moved
  | lookAgain => exact inv.lookAgain moved
  | test => exact inv.test moved
  | pushReady => exact inv.pushReady moved

end

/-! ## Whole runs -/

/-- Every poll for the value is given the value that there is, or waits while there is none, or while the task has
yet to wake it.  One of `ready()` is left only if it pushed its waker when the wakers had been taken. -/
structure State.Served (initial : Option V) (s : State V P) : Prop where
  got : ∀ p value, s.polls p = .got value → s.value = some value
  initial : ∀ value ∈ initial, s.value = some value
  woken : s.value.isSome = true → s.loader.owed = 0 → ∀ p, s.polls p ≠ .waiting
  late : s.value.isSome = true → s.loader.owed = 0 → ∀ p late, s.polls p = .waitingReady late → late = true

theorem Inv.served (inv : Inv initial s) : s.Served initial where
  got := inv.got
  initial value is := (inv.initial value is).1
  woken there paid p waiting := by
    have rests := inv.sound.none_resting there paid
    exact Set.notMem_empty p (rests ▸ waiting)
  late there paid p late waiting := by
    by_contra early
    rw [Bool.eq_false_of_not_eq_true early] at waiting
    obtain ⟨-, unfinished, absent⟩ := inv.ready p waiting
    cases is : s.loader with
    | absent =>
      rw [absent is] at there
      cases there
    | pending =>
      rw [inv.pending is] at there
      cases there
    | stored =>
      rw [is] at paid
      cases paid
    | cleared =>
      rw [is] at paid
      cases paid
    | finished => exact unfinished is

variable [DecidableEq P]

/-- At every moment of every interleaving of the task and any number of polls. -/
theorem once_served (initial : Option V) (suppressed : Bool) (acts : List (Act V P)) (s : State V P)
    (run : exec State.step (State.new initial suppressed) acts = some s) : s.Served initial := by
  have reached : Reaches State.step (fun _ _ _ => True) (State.new initial suppressed) s :=
    Reaches.start.of_exec acts run (meets_true _ _)
  exact (reached.invariant Inv.new fun _ _ _ inv moved _ => inv.step moved).served

/-- The value is loaded between a poll's first look and its push: the second look finds it.  A poll of `ready()`
that comes as late is left. -/
theorem once_served_late : ∃ s, exec State.step (State.new none false : State ℕ ℕ)
    [.look 0, .test 1, .store 7, .push 0, .clear, .take, .lookAgain 0, .pushReady 1] = some s ∧
      s.polls 0 = .got 7 ∧ s.polls 1 = .waitingReady true ∧ s.Served none :=
  ⟨_, rfl, rfl, rfl, once_served none false
    [.look 0, .test 1, .store 7, .push 0, .clear, .take, .lookAgain 0, .pushReady 1] _ rfl⟩

end Halyard.Async.Once
