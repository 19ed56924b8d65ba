import Halyard.Reaches

/-!
# The queue of DOM updates

`queue` puts an update off to the next microtask, in which `flush` runs all that have been queued.  An update
may run application code (the `value` property of a custom element), and that code may queue more of them.

* `counted_of_turn`: a flush is scheduled or runs exactly while `PENDING` is set.
* `served_iff`: every update runs, in order and without waiting for another one, if and only if none is queued
  while a flush runs.
* `left_waiting`: one that is queued then waits for the next call of `queue`.
-/

namespace Halyard.Renderer.UpdateQueue

/-- What the browser is in the middle of: a function that may call `queue` (of the application, or an update),
or a `flush` with the rest of the tasks it took. -/
inductive Frame
  | code
  | flush (tasks : List ℕ)
  deriving DecidableEq

inductive Microtask
  | flush
  | other
  deriving DecidableEq

/-- `pending` is `PENDING`, and `queue` is `QUEUE`, in which an update is the number of those queued before.
The top of the stack comes first.  `ran` lists the updates that were called. -/
structure State where
  pending : Bool
  queue : List ℕ
  microtasks : List Microtask
  stack : List Frame
  queued : ℕ
  ran : List ℕ
  deriving DecidableEq

def State.start : State := ⟨false, [], [], [], 0, []⟩

/-- `QUEUE.take()`: what it held is run next. -/
def State.flush (s : State) : State :=
  { s with queue := [], stack := .flush s.queue :: s.stack }

/-- `try_queue_microtask(flush)`, which the browser may refuse. -/
def State.tryQueueMicrotask (accepted : Bool) (s : State) : Option State :=
  if accepted then some { s with microtasks := s.microtasks ++ [.flush] } else none

/-- `QUEUE.push(fun)` and `PENDING.replace(true)`. -/
def State.pushed (s : State) : State :=
  { s with pending := true, queue := s.queue ++ [s.queued], queued := s.queued + 1 }

def State.queueUpdate (accepted : Bool) (s : State) : State :=
  if s.pending then s.pushed else (s.pushed.tryQueueMicrotask accepted).getD s.pushed.flush

/-- What running code may do: queue an update, schedule a microtask of its own, or return.  A `turn` goes on
with a flush, or with the event loop when nothing runs. -/
inductive Call
  | queue (accepted : Bool)
  | microtask
  | done
  | turn
  deriving DecidableEq

/-- The next microtask, or the next task when there is none. -/
def State.checkpoint (s : State) : State :=
  match s.microtasks with
  | .flush :: microtasks => { s with microtasks }.flush
  | .other :: microtasks => { s with microtasks, stack := .code :: s.stack }
  | [] => { s with stack := .code :: s.stack }

def step (s : State) (call : Call) : Option State :=
  match s.stack, call with
  | .code :: _, .queue accepted => some (s.queueUpdate accepted)
  | .code :: _, .microtask => some { s with microtasks := s.microtasks ++ [.other] }
  | .code :: rest, .done => some { s with stack := rest }
  | .flush (task :: tasks) :: rest, .turn =>
    some { s with stack := .code :: .flush tasks :: rest, ran := s.ran ++ [task] }
  | .flush [] :: rest, .turn => some { s with pending := false, stack := rest }
  | [], .turn => some s.checkpoint
  | _, _ => none

/-! ## What a step does -/

/-- The step with `call` from `s` to `s'`. -/
inductive Turn (s s' : State) : Call → Prop
  | pushes {accepted : Bool} (pending : s.pending = true) (is : s' = s.pushed) : Turn s s' (.queue accepted)
  | schedules (idle : s.pending = false)
      (is : s' = { s.pushed with microtasks := s.microtasks ++ [.flush] }) : Turn s s' (.queue true)
  | flushes (idle : s.pending = false) (is : s' = s.pushed.flush) : Turn s s' (.queue false)
  | other (is : s' = { s with microtasks := s.microtasks ++ [.other] }) : Turn s s' .microtask
  | returns {rest : List Frame} (stack : s.stack = .code :: rest) (is : s' = { s with stack := rest }) :
      Turn s s' .done
  | runs {task : ℕ} {tasks : List ℕ} {rest : List Frame} (stack : s.stack = .flush (task :: tasks) :: rest)
      (is : s' = { s with stack := .code :: .flush tasks :: rest, ran := s.ran ++ [task] }) : Turn s s' .turn
  | ends {rest : List Frame} (stack : s.stack = .flush [] :: rest)
      (is : s' = { s with pending := false, stack := rest }) : Turn s s' .turn
  | takes {microtasks : List Microtask} (stack : s.stack = []) (scheduled : s.microtasks = .flush :: microtasks)
      (is : s' = { s with queue := [], microtasks, stack := [.flush s.queue] }) : Turn s s' .turn
  | begins {microtasks : List Microtask} (stack : s.stack = [])
      (flushes : microtasks.count .flush = s.microtasks.count .flush)
      (is : s' = { s with microtasks, stack := [.code] }) : Turn s s' .turn

variable {s s' : State} {call : Call}

theorem turn_of_queueUpdate {accepted : Bool} : Turn s (s.queueUpdate accepted) (.queue accepted) := by
  unfold State.queueUpdate
  cases pending : s.pending with
  | true =>
    rw [if_pos rfl]
    exact .pushes pending rfl
  | false =>
    rw [if_neg Bool.false_ne_true]
    cases accepted with
    | true => exact .schedules pending rfl
    | false => exact .flushes pending rfl

theorem turn_of_checkpoint (stack : s.stack = []) : Turn s s.checkpoint .turn := by
  unfold State.checkpoint
  split
  next microtasks scheduled =>
    refine .takes stack scheduled ?_
    rw [State.flush, stack]
  next microtasks scheduled =>
    refine .begins stack ?_ (by rw [stack])
    rw [scheduled, List.count_cons_of_ne (by decide)]
  next none => exact .begins stack rfl (by rw [stack])

theorem turn_of_step (stepped : step s call = some s') : Turn s s' call := by
  unfold step at stepped
  split at stepped
  next => exact Option.some.inj stepped ▸ turn_of_queueUpdate
  next => exact .other (Option.some.inj stepped).symm
  next rest stack => exact .returns stack (Option.some.inj stepped).symm
  next task tasks rest stack => exact .runs stack (Option.some.inj stepped).symm
  next rest stack => exact .ends stack (Option.some.inj stepped).symm
  next stack => exact Option.some.inj stepped ▸ turn_of_checkpoint stack
  next => cases stepped

/-! ## The flush -/

def Frame.flushes : Frame → Bool
  | .code => false
  | .flush _ => true

/-- What a flush has still to call. -/
def Frame.tasks : Frame → List ℕ
  | .code => []
  | .flush tasks => tasks

/-- One flush is scheduled or runs while `PENDING` is set, and none otherwise. -/
def Counted (s : State) : Prop :=
  s.stack.countP Frame.flushes + s.microtasks.count .flush = s.pending.toNat

theorem counted_of_turn (turn : Turn s s' call) (counted : Counted s) : Counted s' := by
  unfold Counted at *
  cases turn with
  | pushes pending is =>
    rw [pending] at counted
    exact is ▸ counted
  | schedules idle is =>
    rw [idle] at counted
    rw [is]
    change s.stack.countP _ + (s.microtasks ++ [Microtask.flush]).count _ = 1
    rw [List.count_append, ← Nat.add_assoc, counted]
    rfl
  | flushes idle is =>
    rw [idle] at counted
    rw [is]
    change (_ :: s.stack).countP _ + s.microtasks.count _ = 1
    rw [List.countP_cons_of_pos rfl, Nat.add_right_comm, counted]
    rfl
  | other is =>
    rw [is, List.count_append]
    exact counted
  | returns stack is =>
    rw [stack, List.countP_cons_of_neg Bool.false_ne_true] at counted
    exact is ▸ counted
  | runs stack is =>
    rw [stack, List.countP_cons_of_pos rfl] at counted
    rw [is, List.countP_cons_of_neg Bool.false_ne_true, List.countP_cons_of_pos rfl]
    exact counted
  | @ends rest stack is =>
    have atMost := counted ▸ Bool.toNat_le s.pending
    rw [stack, List.countP_cons_of_pos rfl] at atMost
    rw [is]
    change List.countP _ rest + s.microtasks.count _ = 0
    omega
  | takes stack scheduled is =>
    rw [stack, scheduled, List.count_cons_self] at counted
    rw [is, List.countP_cons_of_pos rfl, ← counted]
    exact Nat.add_right_comm _ _ _
  | begins stack flushes is =>
    rw [stack] at counted
    rw [is, List.countP_cons_of_neg Bool.false_ne_true, flushes]
    exact counted

/-- Nothing runs a batch. -/
def Calm (s : State) : Prop :=
  ∀ frame ∈ s.stack, frame.flushes = false

theorem Counted.calm (counted : Counted s) (idle : s.pending = false) : Calm s := by
  unfold Counted at counted
  rw [idle] at counted
  have none : s.stack.countP Frame.flushes = 0 := (Nat.add_eq_zero_iff.mp counted).1
  exact fun frame mem => Bool.eq_false_iff.mpr (List.countP_eq_zero.mp none frame mem)

/-- A flush that runs is the only one. -/
theorem Counted.not_scheduled (counted : Counted s) (busy : ¬Calm s) :
    s.pending = true ∧ .flush ∉ s.microtasks := by
  obtain ⟨frame, mem, flushes⟩ : ∃ frame ∈ s.stack, frame.flushes = true := by
    by_contra none
    exact busy fun frame mem => Bool.eq_false_iff.mpr fun flushes => none ⟨frame, mem, flushes⟩
  have some : 0 < s.stack.countP Frame.flushes := List.countP_pos_iff.mpr ⟨frame, mem, flushes⟩
  unfold Counted at counted
  have atMost := Bool.toNat_le s.pending
  refine ⟨?_, List.count_eq_zero.mp (by omega)⟩
  by_contra idle
  rw [Bool.eq_false_iff.mpr idle] at counted
  exact absurd (Nat.add_eq_zero_iff.mp counted).1 some.ne'

theorem Counted.scheduled (counted : Counted s) (pending : s.pending = true) (calm : Calm s) :
    .flush ∈ s.microtasks := by
  have none : s.stack.countP Frame.flushes = 0 :=
    List.countP_eq_zero.mpr fun frame mem => Bool.eq_false_iff.mp (calm frame mem)
  unfold Counted at counted
  rw [pending, none, Nat.zero_add] at counted
  exact List.count_pos_iff.mp (counted ▸ Nat.one_pos)

theorem Calm.tasks (calm : Calm s) : s.stack.flatMap Frame.tasks = [] := by
  refine List.flatMap_eq_nil_iff.mpr fun frame mem => ?_
  cases frame with
  | code => rfl
  | flush tasks => exact absurd (calm _ mem) (Bool.noConfusion ·)

/-! ## The order -/

/-- What was called, then the batch that runs, then what waits: all that was queued, in the order it was. -/
def InOrder (s : State) : Prop :=
  s.ran ++ (s.stack.flatMap Frame.tasks ++ s.queue) = List.range s.queued

theorem inOrder_of_turn (turn : Turn s s' call) (counted : Counted s) (order : InOrder s) : InOrder s' := by
  unfold InOrder at *
  have pushed : s.ran ++ (s.stack.flatMap Frame.tasks ++ (s.queue ++ [s.queued])) = List.range (s.queued + 1) := by
    rw [List.range_succ, ← order, List.append_assoc, List.append_assoc]
  cases turn with
  | pushes _ is => exact is ▸ pushed
  | schedules _ is => exact is ▸ pushed
  | flushes idle is =>
    -- it runs at once, and no other flush does
    rw [(counted.calm idle).tasks] at pushed
    rw [is]
    change s.ran ++ ((_ :: s.stack).flatMap Frame.tasks ++ []) = _
    rw [List.flatMap_cons, (counted.calm idle).tasks, List.append_nil, List.append_nil]
    exact pushed
  | other is => exact is ▸ order
  | returns stack is =>
    rw [stack, List.flatMap_cons] at order
    exact is ▸ order
  | runs stack is =>
    rw [stack, List.flatMap_cons] at order
    rw [is, ← order, List.flatMap_cons, List.flatMap_cons]
    simp only [Frame.tasks, List.append_assoc, List.cons_append, List.nil_append]
  | ends stack is =>
    rw [stack, List.flatMap_cons] at order
    exact is ▸ order
  | takes stack scheduled is =>
    rw [stack] at order
    rw [is, ← order, List.flatMap_cons]
    simp only [Frame.tasks, List.flatMap_nil, List.append_nil, List.nil_append]
  | begins stack flushes is =>
    rw [stack] at order
    rw [is, List.flatMap_cons]
    exact order

/-! ## Waiting -/

/-- Whatever is in `QUEUE`, a flush that will take it is scheduled. -/
def Waited (s : State) : Prop :=
  s.queue ≠ [] → .flush ∈ s.microtasks

/-- Where no update is queued while a flush runs. -/
theorem waited_of_turn (turn : Turn s s' call) (counted : Counted s)
    (calmly : ∀ accepted, call = .queue accepted → Calm s) (waited : Waited s) : Waited s' := by
  cases turn with
  | pushes pending is =>
    rw [is]
    exact fun _ => counted.scheduled pending (calmly _ rfl)
  | schedules _ is =>
    rw [is]
    exact fun _ => List.mem_append_right _ (List.mem_singleton.mpr rfl)
  | flushes _ is =>
    rw [is]
    exact fun some => absurd rfl some
  | other is =>
    rw [is]
    exact fun some => List.mem_append_left _ (waited some)
  | returns _ is => exact is ▸ waited
  | runs _ is => exact is ▸ waited
  | ends _ is => exact is ▸ waited
  | takes _ _ is =>
    rw [is]
    exact fun some => absurd rfl some
  | begins _ flushes is =>
    rw [is]
    intro some
    have scheduled := List.count_pos_iff.mpr (waited some)
    exact List.count_pos_iff.mp (flushes ▸ scheduled)

/-- An update that is queued while a flush runs is in `QUEUE`, and no flush that would take it is scheduled. -/
theorem not_waited_of_queue {accepted : Bool} (turn : Turn s s' (.queue accepted)) (counted : Counted s)
    (busy : ¬Calm s) : ¬Waited s' := by
  have alone := counted.not_scheduled busy
  cases turn with
  | pushes _ is =>
    rw [is]
    exact fun waited => alone.2 (waited (List.concat_ne_nil _ _))
  | schedules idle _ => exact absurd alone.1 (Bool.eq_false_iff.mp idle)
  | flushes idle _ => exact absurd alone.1 (Bool.eq_false_iff.mp idle)

/-- The updates that were called are the first that were queued, each once; all were when the microtask queue
is empty and nothing runs; and none waits for another one. -/
structure Served (s : State) : Prop where
  ran : s.ran <+: List.range s.queued
  all : s.stack = [] → s.microtasks = [] → s.ran = List.range s.queued
  waited : Waited s

theorem InOrder.served (order : InOrder s) (waited : Waited s) : Served s := by
  refine ⟨⟨_, order⟩, fun stack microtasks => ?_, waited⟩
  have empty : s.queue = [] := by
    by_contra some
    exact absurd (microtasks ▸ waited some) List.not_mem_nil
  unfold InOrder at order
  rwa [stack, empty, List.flatMap_nil, List.append_nil, List.append_nil] at order

/-! ## Runs -/

/-- No update is queued while a flush runs a batch. -/
def Calmly (s : State) (call : Call) (_ : State) : Prop :=
  ∀ accepted, call = .queue accepted → Calm s

theorem served_iff_of_counted {calls : List Call} (counted : Counted s) (order : InOrder s) (waited : Waited s) :
    Meets step (fun _ _ s' => Served s') s calls ↔ Meets step Calmly s calls := by
  induction calls generalizing s with
  | nil => exact Iff.rfl
  | cons call calls ih =>
    refine forall_congr' fun s' => forall_congr' fun stepped => ?_
    have turn := turn_of_step stepped
    have counted' := counted_of_turn turn counted
    have order' := inOrder_of_turn turn counted order
    constructor
    · rintro ⟨served, later⟩
      refine ⟨fun accepted is => ?_, (ih counted' order' served.waited).mp later⟩
      by_contra busy
      exact not_waited_of_queue (is ▸ turn) counted busy served.waited
    · rintro ⟨calmly, later⟩
      have waited' := waited_of_turn turn counted calmly waited
      exact ⟨order'.served waited', (ih counted' order' waited').mpr later⟩

theorem served_iff (calls : List Call) :
    Meets step (fun _ _ s' => Served s') .start calls ↔ Meets step Calmly .start calls :=
  served_iff_of_counted rfl rfl fun some => absurd rfl some

/-- An update queues another one, and its flush ends. -/
def nested : List Call :=
  [.turn, .queue true, .done, .turn, .turn, .queue true, .done, .turn]

theorem exec_nested : exec step .start nested = some ⟨false, [1], [], [], 2, [0]⟩ :=
  rfl

theorem left_waiting : ¬∀ calls s, exec step .start calls = some s → Served s := fun always =>
  absurd ((always nested _ exec_nested).all rfl rfl) (by decide)

end Halyard.Renderer.UpdateQueue
