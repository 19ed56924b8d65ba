import Halyard.Rebuild.Shown

/-!
# A place that is given one future after another

`Suspend` on the client (`halyard_tachys/src/reactive_graph/suspense.rs`): a place of the page is given one
future after another, each in a run of the effect around it, whose cleanup aborts the future before.
Each has its task on the executor, a queue; the tasks of all but the first wait for a tick after the
future, and a tick is one more task. Futures resolve in any order and tasks are woken at any time.

* `Ordered`: in the queue, no task of a later future can come past one that has a value to show.
-/

namespace Halyard.Rebuild

/-- Where the task of a `Suspend` is. -/
inductive SuspendStage where
  | waiting
  /-- In the tick, with what the future gave, `none` if it was aborted; `sent` by the tick's task. -/
  | ticking (value : Option View) (sent : Bool)
  | finished

structure SuspendTask where
  /-- What the future has resolved to. -/
  value : Option View
  aborted : Bool
  stage : SuspendStage

/-- A task in the queue of the executor. -/
inductive Job where
  | task (k : ℕ)
  /-- The task that `tick` spawns for it. -/
  | tick (k : ℕ)
  deriving DecidableEq

def Job.index : Job → ℕ
  | .task k | .tick k => k

structure SuspendPage where
  count : ℕ
  tasks : ℕ → SuspendTask
  queue : List Job
  state : State
  dom : Dom
  /-- The ones that have been shown, in this order. -/
  rendered : List ℕ

namespace SuspendPage

def stage (self : SuspendPage) (k : ℕ) : SuspendStage := (self.tasks k).stage

def setStage (k : ℕ) (stage : SuspendStage) (self : SuspendPage) : SuspendPage :=
  { self with tasks := Function.update self.tasks k { self.tasks k with stage } }

def push (job : Job) (self : SuspendPage) : SuspendPage := { self with queue := self.queue ++ [job] }

/-- A task that has not finished is put in the queue, if it is not there. -/
def wake (k : ℕ) (self : SuspendPage) : SuspendPage :=
  match self.stage k with
  | .finished => self
  | _ => if .task k ∈ self.queue then self else self.push (.task k)

/-- The state is rebuilt with `Some(value)`, if there is one. -/
def finish (k : ℕ) (value : Option View) (self : SuspendPage) : SuspendPage :=
  let page := self.setStage k .finished
  match value with
  | some view =>
      let next := (View.optionSome view).rebuild page.state page.dom
      { page with state := next.1, dom := next.2, rendered := page.rendered ++ [k] }
  | none => page

/-- What `Abortable` gives: it looks at its handle first. -/
def poll (task : SuspendTask) : Option (Option View) :=
  if task.aborted then some none else task.value.map some

/-- The task that `build` spawns does not wait for a tick. -/
def runTask (k : ℕ) (self : SuspendPage) : SuspendPage :=
  match self.stage k with
  | .waiting =>
      match poll (self.tasks k) with
      | some value =>
          if k = 0 then self.finish k value else (self.setStage k (.ticking value false)).push (.tick k)
      | none => self
  | .ticking value true => self.finish k value
  | .ticking _ false => self
  | .finished => self

def runTick (k : ℕ) (self : SuspendPage) : SuspendPage :=
  match self.stage k with
  | .ticking value false => (self.setStage k (.ticking value true)).wake k
  | _ => self

/-- The executor runs the first task of its queue. -/
def turn (self : SuspendPage) : SuspendPage :=
  match self.queue with
  | [] => self
  | .task k :: rest => { self with queue := rest }.runTask k
  | .tick k :: rest => { self with queue := rest }.runTick k

def setAborted (k : ℕ) (self : SuspendPage) : SuspendPage :=
  { self with tasks := Function.update self.tasks k { self.tasks k with aborted := true } }

def abort (k : ℕ) (self : SuspendPage) : SuspendPage := (self.setAborted k).wake k

/-- The next `Suspend` is given, after the cleanup of the owner. -/
def rebuild (self : SuspendPage) : SuspendPage :=
  let page := self.abort (self.count - 1)
  { page with count := self.count + 1 }.push (.task self.count)

def setValue (k : ℕ) (view : View) (self : SuspendPage) : SuspendPage :=
  { self with tasks := Function.update self.tasks k { self.tasks k with value := some view } }

/-- The future resolves, which wakes the task if it has been spawned. -/
def resolve (k : ℕ) (view : View) (self : SuspendPage) : SuspendPage :=
  match (self.tasks k).value with
  | some _ => self
  | none => if k < self.count then (self.setValue k view).wake k else self.setValue k view

end SuspendPage

inductive SuspendEvent where
  | rebuild
  | resolve (k : ℕ) (view : View)
  | wake (k : ℕ)
  | turn

namespace SuspendPage

def step (self : SuspendPage) : SuspendEvent → SuspendPage
  | .rebuild => self.rebuild
  | .resolve k view => self.resolve k view
  | .wake k => if k < self.count then self.wake k else self
  | .turn => self.turn

def run (events : List SuspendEvent) (self : SuspendPage) : SuspendPage := events.foldl step self

/-- The first `Suspend` is built, polled once, and mounted under `parent`, before `anchor`. -/
def build (initial : Option View) (parent : ℕ) (anchor : Option ℕ) (d : Dom) : SuspendPage :=
  let view := match initial with
    | some view => View.optionSome view
    | none => .optionNone
  let mounted := view.mounted parent anchor d
  let first : SuspendTask := ⟨initial, false, if initial.isSome then .finished else .waiting⟩
  { count := 1
    tasks := fun k => if k = 0 then first else ⟨none, false, .waiting⟩
    queue := if initial.isSome then [] else [Job.task 0]
    state := mounted.1
    dom := mounted.2
    rendered := if initial.isSome then [0] else [] }

/-- What the page is meant to show: the one that was shown last. -/
def view (self : SuspendPage) : View :=
  match self.rendered.getLast?.bind fun k => (self.tasks k).value with
  | some view => .optionSome view
  | none => .optionNone

end SuspendPage

/-! ## The order of the queue -/

namespace SuspendStage

def rank : SuspendStage → ℕ
  | .waiting => 0
  | .ticking _ false => 1
  | .ticking _ true => 2
  | .finished => 3

/-- The task has a value that it has still to show. -/
def Holds : SuspendStage → Prop
  | .ticking (some _) _ => True
  | _ => False

/-- The job that brings the task out of this stage. -/
def due (k : ℕ) : SuspendStage → Job
  | .ticking _ false => .tick k
  | _ => .task k

@[simp] theorem due_index (k : ℕ) (stage : SuspendStage) : (stage.due k).index = k := by
  unfold due
  split <;> rfl

theorem Holds.ticks {stage : SuspendStage} (holds : stage.Holds) : ∃ value sent, stage = .ticking value sent := by
  cases stage with
  | ticking value sent => exact ⟨value, sent, rfl⟩
  | waiting => exact holds.elim
  | finished => exact holds.elim

theorem Holds.rank {stage : SuspendStage} (holds : stage.Holds) : 0 < stage.rank ∧ stage.rank ≤ 2 := by
  obtain ⟨value, sent, rfl⟩ := holds.ticks
  cases sent <;> simp [SuspendStage.rank]

end SuspendStage

variable {count k : ℕ} {stage : ℕ → SuspendStage} {queue rest : List Job} {job : Job}

/-- No task of a later `Suspend` can come past one that has a value to show. -/
structure Ordered (count : ℕ) (stage : ℕ → SuspendStage) (queue : List Job) : Prop where
  nodup : queue.Nodup
  known : ∀ job ∈ queue, job.index < count
  fresh : ∀ k, count ≤ k → stage k = .waiting
  due : ∀ k value sent, stage k = .ticking value sent → (stage k).due k ∈ queue
  tick : ∀ k, .tick k ∈ queue → ∃ value, stage k = .ticking value false
  ahead : ∀ j k, j < k → (stage j).Holds → (stage k).rank < (stage j).rank
  inTurn : queue.Pairwise fun first later => ∀ j, later = (stage j).due j → (stage j).Holds → j < first.index →
    (stage first.index).rank + 1 < (stage j).rank

namespace Ordered

theorem holds_due (ordered : Ordered count stage queue) (holds : (stage k).Holds) : (stage k).due k ∈ queue := by
  obtain ⟨value, sent, is⟩ := holds.ticks
  exact ordered.due k value sent is

/-- A job that no task in a tick waits for may be done. -/
theorem drop (ordered : Ordered count stage (job :: rest))
    (idle : ∀ value sent, stage job.index = .ticking value sent → (stage job.index).due job.index ≠ job) :
    Ordered count stage rest where
  nodup := ordered.nodup.of_cons
  known := fun other member => ordered.known other (List.mem_cons_of_mem _ member)
  fresh := ordered.fresh
  due := by
    intro k value sent is
    refine (List.mem_cons.mp (ordered.due k value sent is)).resolve_left fun same => ?_
    obtain rfl : k = job.index := by rw [← same, SuspendStage.due_index]
    exact idle value sent is same
  tick := fun k member => ordered.tick k (List.mem_cons_of_mem _ member)
  ahead := ordered.ahead
  inTurn := ordered.inTurn.of_cons

/-- Whoever is woken goes to the end. -/
theorem wake (ordered : Ordered count stage queue) (known : k < count) (absent : Job.task k ∉ queue) :
    Ordered count stage (queue ++ [.task k]) where
  nodup := List.nodup_append.mpr ⟨ordered.nodup, List.nodup_singleton _, by
    intro a member b only same
    obtain rfl := List.mem_singleton.mp only
    exact absent (same ▸ member)⟩
  known := by
    intro job member
    rcases List.mem_append.mp member with member | only
    · exact ordered.known job member
    · obtain rfl := List.mem_singleton.mp only
      exact known
  fresh := ordered.fresh
  due := fun k value sent is => List.mem_append_left _ (ordered.due k value sent is)
  tick := by
    intro k member
    refine ordered.tick k ((List.mem_append.mp member).resolve_right fun only => ?_)
    cases List.mem_singleton.mp only
  ahead := ordered.ahead
  inTurn := by
    refine List.pairwise_append.mpr ⟨ordered.inTurn, List.pairwise_singleton _ _, fun first _ later only j is holds => ?_⟩
    obtain rfl := List.mem_singleton.mp only
    exact absurd (is ▸ ordered.holds_due holds) absent

theorem spawn (ordered : Ordered count stage queue) : Ordered (count + 1) stage (queue ++ [.task count]) := by
  have wider : Ordered (count + 1) stage queue := { ordered with
    known := fun job member => (ordered.known job member).trans (Nat.lt_succ_self _)
    fresh := fun k above => ordered.fresh k (by omega) }
  exact wider.wake (Nat.lt_succ_self _) fun member => (ordered.known _ member).false

/-- Whose job is run is not ahead of its time. -/
theorem behind (ordered : Ordered count stage (job :: rest)) {j : ℕ} (holds : (stage j).Holds)
    (earlier : j < job.index) : (stage job.index).rank + 1 < (stage j).rank := by
  have member : (stage j).due j ∈ rest := by
    refine (List.mem_cons.mp (ordered.holds_due holds)).resolve_left fun same => ?_
    rw [← same, SuspendStage.due_index] at earlier
    exact earlier.false
  exact (List.pairwise_cons.mp ordered.inTurn).1 _ member j rfl holds earlier

/-- Nothing earlier is still to be shown when a task comes out of its tick. -/
theorem first (ordered : Ordered count stage (job :: rest)) (out : job.index = 0 ∨ 0 < (stage job.index).rank)
    {j : ℕ} (earlier : j < job.index) : ¬ (stage j).Holds := by
  intro holds
  have behind := ordered.behind holds earlier
  have rank := holds.rank
  omega

/-- The task whose job is run comes to `next` and puts `more` jobs in the queue. -/
theorem move (ordered : Ordered count stage (job :: rest)) {next : SuspendStage} {more : List Job}
    (nodup : (rest ++ more).Nodup) (mine : ∀ other ∈ more, other.index = job.index)
    (due : ∀ value sent, next = .ticking value sent → next.due job.index ∈ rest ++ more)
    (tick : .tick job.index ∈ rest ++ more → ∃ value, next = .ticking value false)
    (ahead : ∀ j < job.index, (stage j).Holds → next.rank < (stage j).rank ∧ ∀ first ∈ rest, first.index ≠ job.index)
    (later : next.Holds → ∀ k > job.index, (stage k).rank < next.rank)
    (inTurn : next.Holds → ∀ first ∈ rest, job.index < first.index → (stage first.index).rank + 1 < next.rank) :
    Ordered count (Function.update stage job.index next) (rest ++ more) where
  nodup := nodup
  known := by
    intro other member
    rcases List.mem_append.mp member with member | more
    · exact ordered.known other (List.mem_cons_of_mem _ member)
    · rw [mine other more]
      exact ordered.known job List.mem_cons_self
  fresh := by
    intro k above
    have ne : k ≠ job.index := fun same => by
      have := ordered.known job List.mem_cons_self
      omega
    rw [Function.update_of_ne ne]
    exact ordered.fresh k above
  due := by
    intro k value sent is
    by_cases same : k = job.index
    · rw [same, Function.update_self] at is ⊢
      exact due value sent is
    · rw [Function.update_of_ne same] at is ⊢
      refine List.mem_append_left _ ((List.mem_cons.mp (ordered.due k value sent is)).resolve_left fun head => ?_)
      rw [← head, SuspendStage.due_index] at same
      exact same rfl
  tick := by
    intro k member
    by_cases same : k = job.index
    · rw [same, Function.update_self]
      exact tick (same ▸ member)
    · rw [Function.update_of_ne same]
      refine ordered.tick k (List.mem_cons_of_mem _ ((List.mem_append.mp member).resolve_right fun only => ?_))
      exact same (mine _ only)
  ahead := by
    intro j k earlier holds
    by_cases same : j = job.index
    · rw [same] at earlier holds ⊢
      rw [Function.update_self] at holds ⊢
      rw [Function.update_of_ne earlier.ne']
      exact later holds k earlier
    · rw [Function.update_of_ne same] at holds ⊢
      by_cases same' : k = job.index
      · rw [same', Function.update_self]
        exact (ahead j (same' ▸ earlier) holds).1
      · rw [Function.update_of_ne same']
        exact ordered.ahead j k earlier holds
  inTurn := by
    refine List.pairwise_append.mpr ⟨?_, ?_, ?_⟩
    · refine ordered.inTurn.of_cons.imp_of_mem fun {first other} member _ inTurn' j is holds earlier => ?_
      by_cases same : j = job.index
      · rw [same] at earlier holds ⊢
        rw [Function.update_self] at holds ⊢
        rw [Function.update_of_ne earlier.ne']
        exact inTurn holds first member earlier
      · rw [Function.update_of_ne same] at is holds ⊢
        by_cases same' : first.index = job.index
        · exact absurd same' ((ahead j (same' ▸ earlier) holds).2 first member)
        · rw [Function.update_of_ne same']
          exact inTurn' j is holds earlier
    · refine List.pairwise_of_forall_mem_list fun first member other member' j is _ earlier => ?_
      have index := mine other member'
      rw [is, SuspendStage.due_index] at index
      rw [mine first member, index] at earlier
      exact absurd earlier (lt_irrefl _)
    · intro first member other more j is holds earlier
      obtain rfl : j = job.index := by rw [← mine other more, is, SuspendStage.due_index]
      rw [Function.update_self] at holds ⊢
      rw [Function.update_of_ne earlier.ne']
      exact inTurn holds first member earlier

/-- The future has given its value, and the tick is spawned. -/
theorem tick_spawned (ordered : Ordered count stage (.task k :: rest)) (waits : stage k = .waiting) {value : Option View}
    (last : value ≠ none → k + 1 = count) :
    Ordered count (Function.update stage k (.ticking value false)) (rest ++ [.tick k]) := by
  have notick : Job.tick k ∉ Job.task k :: rest := by
    intro member
    obtain ⟨value, is⟩ := ordered.tick k member
    cases waits.symm.trans is
  have alone : ∀ first ∈ rest, first.index ≠ k := by
    intro first member same
    cases first with
    | task j => exact (List.nodup_cons.mp ordered.nodup).1 ((show j = k from same) ▸ member)
    | tick j => exact notick (List.mem_cons_of_mem _ ((show j = k from same) ▸ member))
  have isLast : (SuspendStage.ticking value false).Holds → k + 1 = count := by
    intro holds
    refine last ?_
    rintro rfl
    exact holds
  refine ordered.move ?_ ?_ ?_ ?_ ?_ ?_ ?_
  · refine List.nodup_append.mpr ⟨ordered.nodup.of_cons, List.nodup_singleton _, ?_⟩
    intro a member b only same
    obtain rfl := List.mem_singleton.mp only
    exact notick (List.mem_cons_of_mem _ (same ▸ member))
  · intro other only
    rw [List.mem_singleton.mp only]
    rfl
  · intro value sent is
    cases is
    exact List.mem_append_right _ List.mem_cons_self
  · exact fun _ => ⟨value, rfl⟩
  · intro j earlier holds
    have behind := ordered.behind holds earlier
    change (stage k).rank + 1 < _ at behind
    rw [waits] at behind
    exact ⟨behind, alone⟩
  · intro holds k' later
    change k < k' at later
    rw [ordered.fresh k' (by have := isLast holds; omega)]
    exact Nat.one_pos
  · intro holds first member later
    have known := ordered.known first (List.mem_cons_of_mem _ member)
    have := isLast holds
    change k < first.index at later
    omega

theorem finished (ordered : Ordered count stage (.task k :: rest)) (out : k = 0 ∧ stage k = .waiting ∨ (stage k).rank = 2) :
    Ordered count (Function.update stage k .finished) rest := by
  have notick : Job.tick k ∉ rest := by
    intro member
    obtain ⟨value, is⟩ := ordered.tick k (List.mem_cons_of_mem _ member)
    rw [is] at out
    simp [SuspendStage.rank] at out
  rw [← List.append_nil rest]
  refine ordered.move ?_ ?_ ?_ ?_ ?_ ?_ ?_
  · rw [List.append_nil]
    exact ordered.nodup.of_cons
  · exact fun other member => (List.not_mem_nil member).elim
  · exact fun _ _ is => nomatch is
  · intro member
    rw [List.append_nil] at member
    exact absurd member notick
  · intro j earlier holds
    exact absurd holds (ordered.first (out.imp (fun zero => zero.1) fun two => by
      change 0 < (stage k).rank
      omega) earlier)
  · exact fun holds => holds.elim
  · exact fun holds => holds.elim

/-- The tick's task has sent, and the task is woken. -/
theorem tick_sent (ordered : Ordered count stage (.tick k :: rest)) {value : Option View}
    (ticks : stage k = .ticking value false) :
    Ordered count (Function.update stage k (.ticking value true))
      (rest ++ if .task k ∈ rest then [] else [.task k]) := by
  have notick : Job.tick k ∉ rest ++ if .task k ∈ rest then [] else [.task k] := by
    intro member
    rcases List.mem_append.mp member with member | more
    · exact (List.nodup_cons.mp ordered.nodup).1 member
    · split at more
      · cases more
      · cases List.mem_singleton.mp more
  have rank : ∀ k' > k, (stage k).Holds → (stage k').rank + 1 < 2 := by
    intro k' later holds
    have ahead := ordered.ahead k k' later holds
    rw [ticks] at ahead
    exact Nat.succ_lt_succ ahead
  have keeps : (SuspendStage.ticking value true).Holds → (stage k).Holds := by
    intro holds
    rw [ticks]
    cases value with
    | none => exact holds
    | some view => trivial
  refine ordered.move ?_ ?_ ?_ ?_ ?_ ?_ ?_
  · split
    next =>
      rw [List.append_nil]
      exact ordered.nodup.of_cons
    next absent =>
      refine List.nodup_append.mpr ⟨ordered.nodup.of_cons, List.nodup_singleton _, ?_⟩
      intro a member b only same
      obtain rfl := List.mem_singleton.mp only
      exact absent (same ▸ member)
  · intro other more
    split at more
    · cases more
    · rw [List.mem_singleton.mp more]
      rfl
  · intro value sent is
    cases is
    change Job.task k ∈ _
    split
    next there => exact List.mem_append_left _ there
    next => exact List.mem_append_right _ List.mem_cons_self
  · exact fun member => absurd member notick
  · intro j earlier holds
    exact absurd holds (ordered.first (.inr (by
      change 0 < (stage k).rank
      rw [ticks]
      exact Nat.one_pos)) earlier)
  · exact fun holds k' later => (Nat.lt_succ_self _).trans (rank k' later (keeps holds))
  · exact fun holds first _ later => rank first.index later (keeps holds)

end Ordered

end Halyard.Rebuild
