import Halyard.ListDiff.Model
import Halyard.Reaches

/-!
# Actions with overlapping dispatches

Each dispatch spawns a task that waits for the action's future and for the message of its abort handle.
What `pending`, `input` and `value` should say is read from a ledger of what became of each dispatch.

* `step_inv`: a step keeps the signals in line with the ledger, if a future that completes belongs to a
  later dispatch than those that have, and was not aborted.
* `action_follows`: so they are throughout every such run.
* `late_completion`: any other completion of an earlier dispatch changes the version.
-/

namespace Halyard.Actions

open ListDiff (Target usizeMax saturatingAdd)

variable {I O : Type}

/-! ## The action -/

/-- The spawned task of a dispatch. -/
structure Task where
  currentVersion : ℕ
  /-- `abort` has been called on the dispatch's handle. -/
  aborted : Bool
  ended : Bool

structure ArcAction (I O : Type) where
  inFlight : ℕ
  input : Option I
  value : Option O
  version : ℕ
  dispatched : ℕ
  /-- The tasks of the dispatches so far. -/
  tasks : List Task

def ArcAction.newWithValue (value : Option O) : ArcAction I O where
  inFlight := 0
  input := none
  value := value
  version := 0
  dispatched := 0
  tasks := []

def ArcAction.dispatch [Target] (action : ArcAction I O) (input : I) : ArcAction I O :=
  { action with
    inFlight := saturatingAdd action.inFlight 1
    input := some input
    tasks := action.tasks ++ [⟨action.dispatched, false, false⟩] }

def Task.send (task : Task) : Task :=
  if task.ended then task else { task with aborted := true }

/-- A task's last step. -/
def ArcAction.finish (action : ArcAction I O) (k : ℕ) : ArcAction I O :=
  { action with
    input := if action.inFlight = 0 then none else action.input
    tasks := action.tasks.modify k fun task => { task with ended := true } }

/-- The task takes the abort message. -/
def ArcAction.bail (action : ArcAction I O) (k : ℕ) : ArcAction I O :=
  { action with inFlight := action.inFlight - 1 }.finish k

/-- The task takes the future's result. -/
def ArcAction.resolve [Target] (action : ArcAction I O) (k : ℕ) (task : Task) (result : O) :
    ArcAction I O :=
  let action := { action with inFlight := action.inFlight - 1 }
  let isLatest := action.dispatched ≤ task.currentVersion
  (if isLatest then
    { action with
      version := (action.version + 1) % (usizeMax + 1)
      value := some result }
  else action).finish k

/-- What happens to an action: a dispatch, an abort through the handle of the `k`-th dispatch, and the
`k`-th task being polled with its abort message sent or its future ready.  With both it takes either. -/
inductive Event (I O : Type)
  | dispatch (input : I)
  | abort (k : ℕ)
  | bail (k : ℕ)
  | complete (k : ℕ) (result : O)

def ArcAction.step [Target] (action : ArcAction I O) : Event I O → Option (ArcAction I O)
  | .dispatch input => some (action.dispatch input)
  | .abort k =>
      if k < action.tasks.length then some { action with tasks := action.tasks.modify k Task.send }
      else none
  | .bail k =>
      match action.tasks[k]? with
      | some task => if task.ended = false ∧ task.aborted then some (action.bail k) else none
      | none => none
  | .complete k result =>
      match action.tasks[k]? with
      | some task => if task.ended = false then some (action.resolve k task result) else none
      | none => none

/-! ## The ledger -/

/-- What became of a dispatch. -/
inductive Outcome (O : Type)
  | running
  | aborted
  | completed (result : O)
  deriving DecidableEq

def Outcome.abort : Outcome O → Outcome O
  | .running => .aborted
  | outcome => outcome

def Outcome.complete (result : O) : Outcome O → Outcome O
  | .running => .completed result
  | outcome => outcome

def Outcome.result : Outcome O → Option O
  | .completed result => some result
  | _ => none

abbrev Ledger (O : Type) := List (Outcome O)

def record (ledger : Ledger O) : Event I O → Ledger O
  | .dispatch _ => ledger ++ [.running]
  | .abort k => ledger.modify k Outcome.abort
  | .bail _ => ledger
  | .complete k result => ledger.modify k (Outcome.complete result)

/-- The result of the most recent dispatch that completed. -/
def latest (initial : Option O) (ledger : Ledger O) : Option O :=
  (ledger.filterMap Outcome.result).getLast?.or initial

structure State (I O : Type) where
  action : ArcAction I O
  ledger : Ledger O

def State.new (initial : Option O) : State I O := ⟨.newWithValue initial, []⟩

def State.step [Target] (state : State I O) (event : Event I O) : Option (State I O) :=
  (state.action.step event).map fun action => ⟨action, record state.ledger event⟩

/-- A later dispatch has completed. -/
def Late (ledger : Ledger O) (k : ℕ) : Prop :=
  ∃ j result, k < j ∧ ledger[j]? = some (.completed result)

/-- What the signals keep up with: no overflow, and results that arrive in the order of the dispatches
and are not of an aborted one. -/
def Orderly [Target] (state : State I O) : Event I O → Prop
  | .dispatch _ => state.action.inFlight < usizeMax
  | .complete k _ => ¬Late state.ledger k ∧ state.ledger[k]? ≠ some .aborted
  | _ => True

/-- Every task whose abort message was sent has taken it. -/
def ArcAction.quiet (action : ArcAction I O) : Prop :=
  ∀ task ∈ action.tasks, task.aborted → task.ended

def ArcAction.pending (action : ArcAction I O) : Bool := 0 < action.inFlight

/-! ## The signals follow the ledger -/

/-- A task and what became of its dispatch. -/
structure Follows (dispatched : ℕ) (task : Task) (outcome : Outcome O) : Prop where
  latest : dispatched ≤ task.currentVersion
  aborted : task.aborted = true ↔ outcome = .aborted
  ended : task.ended = true → outcome ≠ .running
  completed : outcome.result ≠ none → task.ended = true

structure Inv (initial : Option O) (state : State I O) : Prop where
  follows : List.Forall₂ (Follows state.action.dispatched) state.action.tasks state.ledger
  inFlight : state.action.inFlight = state.action.tasks.countP fun task => !task.ended
  input : state.action.input.isSome = state.action.pending
  value : state.action.value = latest initial state.ledger

/-! ### Lists with one entry changed -/

section Modify

variable {α β : Type}

theorem forall₂_modify {R : α → β → Prop} {xs : List α} {ys : List β} (all : List.Forall₂ R xs ys)
    {f : α → α} {g : β → β} {k : ℕ}
    (kept : ∀ x y, xs[k]? = some x → ys[k]? = some y → R x y → R (f x) (g y)) :
    List.Forall₂ R (xs.modify k f) (ys.modify k g) := by
  induction all generalizing k with
  | nil => cases k <;> exact .nil
  | @cons x y xs ys head tail ih =>
    cases k with
    | zero => exact .cons (kept x y rfl rfl head) tail
    | succ k => exact .cons head (ih kept)

theorem forall₂_getElem {R : α → β → Prop} {xs : List α} {ys : List β} (all : List.Forall₂ R xs ys)
    {k : ℕ} {x : α} (at_ : xs[k]? = some x) : ∃ y, ys[k]? = some y ∧ R x y := by
  induction all generalizing k with
  | nil => cases at_
  | @cons x' y xs ys head tail ih =>
    cases k with
    | zero =>
      cases at_
      exact ⟨y, rfl, head⟩
    | succ k => exact ih at_

theorem countP_forall₂ {R : α → β → Prop} {xs : List α} {ys : List β} (all : List.Forall₂ R xs ys)
    {p : α → Bool} {q : β → Bool} (same : ∀ x y, x ∈ xs → R x y → p x = q y) :
    xs.countP p = ys.countP q := by
  induction all with
  | nil => rfl
  | @cons x y xs ys head tail ih =>
    have first := same x y List.mem_cons_self head
    have rest := ih fun x y member => same x y (List.mem_cons_of_mem _ member)
    rw [List.countP_cons, List.countP_cons, rest, first]

theorem countP_modify_same {xs : List α} {p : α → Bool} {f : α → α} (same : ∀ x, p (f x) = p x) (k : ℕ) :
    (xs.modify k f).countP p = xs.countP p := by
  induction xs generalizing k with
  | nil => cases k <;> rfl
  | cons x xs ih =>
    cases k with
    | zero => simp [List.countP_cons, same]
    | succ k => simp [List.countP_cons, ih]

theorem countP_modify {xs : List α} {p : α → Bool} {f : α → α} {k : ℕ} {x : α}
    (at_ : xs[k]? = some x) (counted : p x = true) (dropped : p (f x) = false) :
    xs.countP p = (xs.modify k f).countP p + 1 := by
  induction xs generalizing k with
  | nil => cases at_
  | cons y xs ih =>
    cases k with
    | zero =>
      cases at_
      simp [counted, dropped]
    | succ k =>
      have rest := ih at_
      simp only [List.modify_succ_cons, List.countP_cons, rest]
      omega

theorem filterMap_modify {xs : List α} {p : α → Option β} {f : α → α} (same : ∀ x, p (f x) = p x)
    (k : ℕ) : (xs.modify k f).filterMap p = xs.filterMap p := by
  induction xs generalizing k with
  | nil => cases k <;> rfl
  | cons x xs ih =>
    cases k with
    | zero => simp [List.filterMap_cons, same]
    | succ k => simp [List.filterMap_cons, ih]

end Modify

/-! ### One step -/

theorem latest_complete {initial : Option O} {ledger : Ledger O} {k : ℕ} (result : O)
    (running : ledger[k]? = some .running) (newest : ¬Late ledger k) :
    latest initial (ledger.modify k (Outcome.complete result)) = some result := by
  obtain ⟨inside, this⟩ := List.getElem?_eq_some_iff.mp running
  have none_ : (ledger.drop (k + 1)).filterMap Outcome.result = [] := by
    rw [List.filterMap_eq_nil_iff]
    intro outcome member
    obtain ⟨j, at_⟩ := List.mem_iff_getElem?.mp member
    rw [List.getElem?_drop] at at_
    cases outcome with
    | completed result => exact absurd ⟨k + 1 + j, result, by omega, at_⟩ newest
    | running => rfl
    | aborted => rfl
  rw [latest, List.modify_eq_take_cons_drop inside, this, List.filterMap_append, List.filterMap_cons,
    none_]
  simp [Outcome.complete, Outcome.result]

theorem new_inv (initial : Option O) : Inv initial (State.new (I := I) initial) where
  follows := .nil
  inFlight := rfl
  input := rfl
  value := rfl

variable {initial : Option O} {state state' : State I O}

theorem Inv.dispatch [Target] (inv : Inv initial state) (input : I) (room : state.action.inFlight < usizeMax) :
    Inv initial ⟨state.action.dispatch input, record state.ledger (.dispatch (I := I) input)⟩ where
  follows := by
    refine List.rel_append inv.follows (.cons ⟨le_rfl, ?_, ?_, ?_⟩ .nil)
    · simp
    · simp
    · simp [Outcome.result]
  inFlight := by
    have fits : min (state.action.inFlight + 1) usizeMax = state.action.inFlight + 1 := by omega
    simp [ArcAction.dispatch, saturatingAdd, fits, List.countP_append, ← inv.inFlight]
  input := by
    have pos : 0 < min (state.action.inFlight + 1) usizeMax := by omega
    simp [ArcAction.dispatch, ArcAction.pending, saturatingAdd, pos]
  value := by
    have same : (state.ledger ++ [Outcome.running]).filterMap Outcome.result =
        state.ledger.filterMap Outcome.result := by
      simp [List.filterMap_append, Outcome.result]
    rw [record, latest, same]
    exact inv.value

theorem Inv.abort (inv : Inv initial state) (k : ℕ) :
    Inv initial ⟨{ state.action with tasks := state.action.tasks.modify k Task.send },
      record state.ledger (.abort (I := I) k)⟩ where
  follows := by
    refine forall₂_modify inv.follows fun task outcome _ _ follows => ?_
    cases ended : task.ended with
    | true =>
      have stays : outcome.abort = outcome := by
        cases outcome with
        | running => exact absurd rfl (follows.ended ended)
        | _ => rfl
      simpa [Task.send, ended, stays] using follows
    | false =>
      have open_ : outcome.abort = .aborted := by
        cases outcome with
        | completed result => simpa [ended, Outcome.result] using follows.completed
        | _ => rfl
      simp only [Task.send, ended, open_]
      exact ⟨follows.latest, by simp, by simp, by simp [Outcome.result]⟩
  inFlight := by
    have kept (task : Task) : (!task.send.ended) = !task.ended := by
      cases ended : task.ended <;> simp [Task.send, ended]
    rw [countP_modify_same kept]
    exact inv.inFlight
  input := inv.input
  value := by
    have kept (outcome : Outcome O) : outcome.abort.result = outcome.result := by
      cases outcome <;> rfl
    rw [record, latest, filterMap_modify kept]
    exact inv.value

/-- A task that is in flight and ends: what the ledger then says of its dispatch is up to the caller. -/
theorem Inv.finish (inv : Inv initial state) {k : ℕ} {task : Task}
    (at_ : state.action.tasks[k]? = some task) (open_ : task.ended = false) (action : ArcAction I O)
    (inFlight : action.inFlight = state.action.inFlight - 1) (input : action.input = state.action.input)
    (tasks : action.tasks = state.action.tasks) (dispatched : action.dispatched = state.action.dispatched)
    {ledger : Ledger O} (value : action.value = latest initial ledger)
    (follows : List.Forall₂ (Follows state.action.dispatched) (action.finish k).tasks ledger) :
    Inv initial ⟨action.finish k, ledger⟩ where
  follows := by
    have same : (action.finish k).dispatched = state.action.dispatched := dispatched
    rw [same]
    exact follows
  inFlight := by
    have before := inv.inFlight
    rw [← tasks] at at_ before
    have count : state.action.inFlight =
        ((action.finish k).tasks.countP fun task => !task.ended) + 1 :=
      before.trans (countP_modify at_ (by simp [open_]) rfl)
    have same : (action.finish k).inFlight = action.inFlight := rfl
    dsimp only
    rw [same, inFlight, count, Nat.add_sub_cancel]
  input := by
    have some_ : 0 < state.action.tasks.countP fun task => !task.ended :=
      List.countP_pos_iff.mpr ⟨task, List.mem_of_getElem? at_, by simp [open_]⟩
    have held : state.action.input.isSome = true := by
      rw [inv.input, ArcAction.pending, decide_eq_true_eq, inv.inFlight]
      exact some_
    by_cases none_ : action.inFlight = 0
    · simp [ArcAction.finish, ArcAction.pending, none_]
    · simp [ArcAction.finish, ArcAction.pending, none_, input, held, Nat.pos_of_ne_zero none_]
  value := value

theorem Inv.bail (inv : Inv initial state) {k : ℕ} {task : Task}
    (at_ : state.action.tasks[k]? = some task) (open_ : task.ended = false) (aborted : task.aborted = true) :
    Inv initial ⟨state.action.bail k, record state.ledger (.bail (I := I) k)⟩ := by
  refine inv.finish at_ open_ { state.action with inFlight := state.action.inFlight - 1 }
    rfl rfl rfl rfl inv.value ?_
  have all := forall₂_modify (f := fun task : Task => { task with ended := true }) (g := id) (k := k)
    inv.follows fun task' outcome at_' _ follows => ?_
  · rwa [List.modify_id] at all
  · cases at_.symm.trans at_'
    exact ⟨follows.latest, follows.aborted, fun _ => by rw [id, follows.aborted.mp aborted]; simp,
      fun _ => rfl⟩

theorem Inv.complete [Target] (inv : Inv initial state) {k : ℕ} {task : Task}
    (at_ : state.action.tasks[k]? = some task) (open_ : task.ended = false) (result : O)
    (orderly : Orderly state (.complete k result)) :
    Inv initial ⟨state.action.resolve k task result,
      record state.ledger (.complete (I := I) k result)⟩ := by
  obtain ⟨outcome, known, follows⟩ := forall₂_getElem inv.follows at_
  obtain rfl : outcome = .running := by
    cases outcome with
    | running => rfl
    | aborted => exact absurd known orderly.2
    | completed result => simpa [open_, Outcome.result] using follows.completed
  rw [ArcAction.resolve, if_pos follows.latest]
  refine inv.finish at_ open_
    { state.action with
      inFlight := state.action.inFlight - 1
      version := (state.action.version + 1) % (usizeMax + 1)
      value := some result }
    rfl rfl rfl rfl (latest_complete result known orderly.1).symm ?_
  refine forall₂_modify inv.follows fun task' outcome at_' known' follows' => ?_
  cases at_.symm.trans at_'
  cases known.symm.trans known'
  have kept : task.aborted ≠ true := fun aborted => by cases follows.aborted.mp aborted
  exact ⟨follows.latest, by simp [kept, Outcome.complete], by simp [Outcome.complete], fun _ => rfl⟩

theorem step_inv [Target] (inv : Inv initial state) {event : Event I O} (orderly : Orderly state event)
    (stepped : state.step event = some state') : Inv initial state' := by
  obtain ⟨action, moved, rfl⟩ := Option.map_eq_some_iff.mp stepped
  cases event with
  | dispatch input =>
    cases moved
    exact inv.dispatch input orderly
  | abort k =>
    simp only [ArcAction.step] at moved
    split at moved
    next =>
      cases moved
      exact inv.abort k
    next => cases moved
  | bail k =>
    simp only [ArcAction.step] at moved
    cases at_ : state.action.tasks[k]? with
    | none => simp [at_] at moved
    | some task =>
      by_cases open_ : task.ended = false ∧ task.aborted = true
      · simp only [at_, open_, and_self, if_true, Option.some.injEq] at moved
        rw [← moved]
        exact inv.bail at_ open_.1 open_.2
      · simp [at_, open_] at moved
  | complete k result =>
    simp only [ArcAction.step] at moved
    cases at_ : state.action.tasks[k]? with
    | none => simp [at_] at moved
    | some task =>
      by_cases open_ : task.ended = false
      · simp only [at_, open_, if_true, Option.some.injEq] at moved
        rw [← moved]
        exact inv.complete at_ open_ result orderly
      · simp [at_, open_] at moved

/-! ## Runs -/

theorem Inv.pending (inv : Inv initial state) (quiet : state.action.quiet) :
    state.action.pending = true ↔ .running ∈ state.ledger := by
  classical
  have count : (state.action.tasks.countP fun task => !task.ended) =
      state.ledger.countP fun outcome => decide (outcome = .running) := by
    refine countP_forall₂ inv.follows fun task outcome member follows => ?_
    cases ended : task.ended with
    | true => simp [follows.ended ended]
    | false =>
      have running : outcome = .running := by
        cases outcome with
        | running => rfl
        | aborted =>
          have taken := quiet task member (follows.aborted.mpr rfl)
          rw [ended] at taken
          cases taken
        | completed result => simpa [ended, Outcome.result] using follows.completed
      simp [running]
  rw [ArcAction.pending, decide_eq_true_eq, inv.inFlight, count, List.countP_pos_iff]
  simp

/-- Every completion changes the version, also of a dispatch that a later one has overtaken. -/
theorem completion_version [Target] (width : 0 < Target.bits) (inv : Inv initial state) {k : ℕ} {result : O}
    (stepped : state.step (.complete k result) = some state') :
    state'.action.version ≠ state.action.version := by
  obtain ⟨action, moved, rfl⟩ := Option.map_eq_some_iff.mp stepped
  simp only [ArcAction.step] at moved
  cases at_ : state.action.tasks[k]? with
  | none => simp [at_] at moved
  | some task =>
    by_cases open_ : task.ended = false
    · simp only [at_, open_, if_true, Option.some.injEq] at moved
      obtain ⟨outcome, -, follows⟩ := forall₂_getElem inv.follows at_
      rw [← moved, ArcAction.resolve, if_pos follows.latest]
      have most : 1 ≤ usizeMax := by
        have := Nat.one_lt_two_pow width.ne'
        unfold usizeMax
        omega
      change (state.action.version + 1) % (usizeMax + 1) ≠ state.action.version
      intro same
      have less : (state.action.version + 1) % (usizeMax + 1) < usizeMax + 1 := Nat.mod_lt _ (by omega)
      rcases Nat.lt_or_ge (state.action.version + 1) (usizeMax + 1) with fits | wraps
      · rw [Nat.mod_eq_of_lt fits] at same
        omega
      · have full : state.action.version + 1 = usizeMax + 1 := by omega
        rw [full, Nat.mod_self] at same
        omega
    · simp [at_, open_] at moved

/-- In a run whose results arrive in the order of the dispatches, none of them of an aborted one, the
signals are what the ledger says; and a completion out of that order is one that changes the version. -/
theorem action_follows [Target] (width : 0 < Target.bits) {events : List (Event I O)}
    (ran : exec State.step (State.new initial) events = some state)
    (orderly : Meets State.step (fun state event _ => Orderly state event) (State.new initial) events) :
    (state.action.quiet →
      (state.action.pending = true ↔ .running ∈ state.ledger) ∧
        (state.action.input.isSome = true ↔ state.action.pending = true) ∧
        state.action.value = latest initial state.ledger) ∧
      ∀ k result state', state.step (.complete k result) = some state' →
        ((Late state.ledger k → state'.action.value = state.action.value ∧
            state'.action.version = state.action.version) ↔ ¬Late state.ledger k) := by
  have inv : Inv initial state :=
    (Reaches.of_exec .start events ran orderly).invariant (new_inv initial)
      fun _ _ _ inv stepped orderly => step_inv inv orderly stepped
  refine ⟨fun quiet => ⟨inv.pending quiet, by rw [inv.input], inv.value⟩, fun k result state' stepped => ?_⟩
  refine ⟨fun kept late => completion_version width inv stepped (kept late).2, fun newest late => ?_⟩
  exact absurd late newest

section Server

local instance overlapTarget : Target := ⟨64⟩

/-- The first of two dispatches is aborted, and the second one completes. -/
def abortedRun : List (Event ℕ ℕ) :=
  [.dispatch 1, .dispatch 2, .abort 0, .bail 0, .complete 1 20]

theorem action_follows_aborted :
    ∃ state, exec State.step (State.new none) abortedRun = some state ∧
      state.ledger = [.aborted, .completed 20] ∧
      (state.action.pending = true ↔ .running ∈ state.ledger) ∧
        (state.action.input.isSome = true ↔ state.action.pending = true) ∧
        state.action.value = latest none state.ledger := by
  refine ⟨_, rfl, rfl, ?_⟩
  refine (@action_follows ℕ ℕ none _ _ (by decide) abortedRun rfl ?_).1 (by
    unfold ArcAction.quiet
    decide)
  simp only [abortedRun, Meets]
  intro s moved
  cases moved
  refine ⟨(by decide : 0 < usizeMax), fun s moved => ?_⟩
  cases moved
  refine ⟨(by decide : 1 < usizeMax), fun s moved => ?_⟩
  cases moved
  refine ⟨trivial, fun s moved => ?_⟩
  cases moved
  refine ⟨trivial, fun s moved => ?_⟩
  cases moved
  refine ⟨⟨?_, by decide⟩, trivial⟩
  rintro ⟨j, result, later, at_⟩
  have far : ([Outcome.aborted, .running] : Ledger ℕ)[j]? = none :=
    List.getElem?_eq_none later
  cases far.symm.trans at_

/-- Two dispatches overlap, and the first one completes last. -/
theorem late_completion :
    ∃ before after, exec State.step (State.new none)
        ([.dispatch 1, .dispatch 2, .complete 1 20] : List (Event ℕ ℕ)) = some before ∧
      before.step (.complete 0 10) = some after ∧ Late before.ledger 0 ∧ after.action.quiet ∧
      before.action.value = some 20 ∧ before.action.version = 1 ∧
      after.action.value = some 10 ∧ after.action.version = 2 ∧
      after.ledger = [.completed 10, .completed 20] ∧ latest none after.ledger = some 20 := by
  refine ⟨_, _, rfl, rfl, ⟨1, 20, by decide, rfl⟩, ?_, rfl, rfl, rfl, rfl, rfl, rfl⟩
  unfold ArcAction.quiet
  decide

end Server

end Halyard.Actions
