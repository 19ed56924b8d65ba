import Halyard.Reactive.Memos

/-!
# An effect's task

`Effect::new` and `RenderEffect::new` spawn a task that waits for a notification, polls what the
effect read (`EffectInner::update_if_necessary`) and reruns the effect if something changed.

While its sources are polled the effect is the observer, and a memo that changes does not mark the
observer.  So a memo that changes while a source read before it is polled goes unnoticed: when its
own turn comes it is clean.  `ChangeIsHeard` excludes just that, of the state before a turn.

* `reads_current`: while every turn finds `ChangeIsHeard`, the values that the effect read in its
  last run are current whenever its channel is empty.
* `unheard_change`: a turn that does not, after which the effect keeps a value that is gone.
-/

namespace Halyard.Reactive

variable {σ μ V : Type*} [DecidableEq σ] [DecidableEq μ] [Fintype μ] [DecidableEq V]

/-! ## The task -/

/-- The graph, with the state of the effect's task: whether it never ran, and what the effect read
in its last run. -/
structure Task (σ μ V : Type*) where
  st : State σ μ V
  firstRun : Bool
  read : List (Source σ μ × V)

/-- `sources.any(|source| source.update_if_necessary())`. -/
def anySource (update : μ → State σ μ V → Option (Bool × State σ μ V)) :
    List (Source σ μ) → State σ μ V → Option (Bool × State σ μ V)
  | [], st => some (false, st)
  | source :: rest, st =>
      (updateSource update source st).bind fun updated =>
        if updated.1 then some (true, updated.2) else anySource update rest updated.2

/-- `EffectInner::update_if_necessary`. -/
def updateEffect (g : Graph σ μ V) (st : State σ μ V) : Option (Bool × State σ μ V) :=
  if st.dirty then some (true, { st with dirty := false })
  else anySource (updateIfNecessary g (Fintype.card μ)) (st.sources .effect) st

/-- One run of the effect's function. -/
def runEffect (g : Graph σ μ V) (body : Computation σ μ V) (st : State σ μ V) :
    Option (Task σ μ V) :=
  (withObserver .effect (body.run (updateIfNecessary g (Fintype.card μ))) st).map fun result =>
    ⟨result.2, false, result.1.2⟩

/-- One turn of the task's loop, `while rx.next().await.is_some()`. -/
def turn (g : Graph σ μ V) (body : Computation σ μ V) (task : Task σ μ V) :
    Option (Task σ μ V) :=
  if task.st.notified then
    (withObserver .effect (updateEffect g) { task.st with notified := false }).bind fun updated =>
      if updated.1 || task.firstRun then runEffect g body (updated.2.clearSources .effect)
      else some { task with st := updated.2 }
  else some task

/-- `Effect::new` runs on the next turn, `RenderEffect::new` at once. -/
inductive Kind where
  | effect
  | renderEffect
deriving DecidableEq

/-- The effect is created, in a graph in which nothing was computed yet. -/
def newTask (g : Graph σ μ V) (body : Computation σ μ V) (signals : σ → V) :
    Kind → Option (Task σ μ V)
  | .effect => some ⟨{ State.new signals with dirty := true, notified := true }, true, []⟩
  | .renderEffect => runEffect g body (State.new signals)

inductive TaskStep (σ μ V : Type*) where
  | set (s : σ) (value : V)
  | read (m : μ)
  | turn

def stepTask (g : Graph σ μ V) (body : Computation σ μ V) (task : Task σ μ V) :
    TaskStep σ μ V → Option (Task σ μ V)
  | .set s value => (setSignal s value task.st).map fun st => { task with st }
  | .read m => (readMemo g m task.st).map fun read => { task with st := read.2 }
  | .turn => turn g body task

def runTask (g : Graph σ μ V) (body : Computation σ μ V) :
    List (TaskStep σ μ V) → Task σ μ V → Option (Task σ μ V)
  | [], task => some task
  | step :: rest, task => (stepTask g body task step).bind (runTask g body rest)

/-! ## What is asked of it -/

/-- The value that a source has now. -/
noncomputable def State.now (g : Graph σ μ V) (st : State σ μ V) : Source σ μ → V
  | .signal s => st.signals s
  | .memo m => g.eval st.signals m

/-- Every value that the effect read in its last run is current. -/
def Current (g : Graph σ μ V) (task : Task σ μ V) : Prop :=
  ∀ read ∈ task.read, task.st.now g read.1 = read.2

/-- If a memo that the effect read has changed, so has one that no memo read before it polls. -/
def ChangeIsHeard (g : Graph σ μ V) (st : State σ μ V) : Prop :=
  st.dirty = true ∨ (∀ n, .memo n ∈ st.sources .effect → st.cached n = some (g.eval st.signals n)) ∨
    ∃ before n after, st.sources .effect = before ++ .memo n :: after ∧
      st.cached n ≠ some (g.eval st.signals n) ∧ ∀ m, .memo m ∈ before → ¬ PolledFrom g st m n

/-! ## Polling -/

variable {g : Graph σ μ V} {st : State σ μ V}

theorem anySource_ok (st : State σ μ V) (before : List (Source σ μ)) {now : State σ μ V}
    {sources : List (Source σ μ)} (inv : Inv g Idle now)
    (observes : now.observer = some .effect) (split : st.sources .effect = before ++ sources)
    (frame : Frame g Idle (fun _ => False) (fun p => ∃ m, .memo m ∈ before ∧ PolledFrom g st m p)
      (Fintype.card μ) st now) (clean : ∀ n, .memo n ∈ before → now.state n = .clean) :
    ∃ changed st' silent, anySource (updateIfNecessary g (Fintype.card μ)) sources now =
        some (changed, st') ∧ Inv g Idle st' ∧ st'.observer = some .effect ∧
      Frame g Idle (fun _ => False) silent (Fintype.card μ) st st' ∧
      (now.dirty = true → st'.dirty = true) ∧
      (changed = true →
        ∃ n, .memo n ∈ st.sources .effect ∧ st.cached n ≠ some (g.eval st.signals n)) ∧
      (changed = false → (∀ n, .memo n ∈ st.sources .effect → st'.state n = .clean) ∧
        ∀ first n after, st.sources .effect = first ++ .memo n :: after → before.length ≤ first.length →
          (∀ m, .memo m ∈ first → ¬ PolledFrom g st m n) →
          st.cached n = some (g.eval st.signals n) ∨ st'.dirty = true) := by
  induction sources generalizing now before with
  | nil =>
      refine ⟨false, now, _, rfl, inv, observes, frame, id, (Bool.noConfusion ·), fun _ =>
        ⟨by simpa [split] using clean, ?_⟩⟩
      intro first n after split' long
      have lengths := congrArg List.length (split.symm.trans split')
      simp only [List.append_nil, List.length_append, List.length_cons] at lengths
      omega
  | cons source rest ih =>
      have split' : st.sources .effect = (before ++ [source]) ++ rest := by
        rw [split]
        simp
      cases source with
      | signal s =>
          obtain ⟨changed, st', silent, run, inv', observes', frame', stays, differs, heard⟩ :=
            ih (before ++ [.signal s]) inv observes split' (frame.weaken (fun _ => id) (fun _ => id)
              (fun _ p quiet => quiet.imp fun m polled => ⟨by simp [polled.1], polled.2⟩) le_rfl)
              (by simpa using clean)
          refine ⟨changed, st', silent, ?_, inv', observes', frame', stays, differs, fun unchanged =>
            ⟨(heard unchanged).1, fun first n after here long => ?_⟩⟩
          · rw [anySource, updateSource, Option.bind_some, if_neg (by simp)]
            exact run
          · refine (heard unchanged).2 first n after here ?_
            rw [List.length_append, List.length_singleton]
            by_contra short
            have length : before.length = first.length := by omega
            have same := (List.append_inj (split.symm.trans here) length).2
            cases (List.cons.inj same).1
      | memo n =>
          obtain ⟨changed, next, update, invNext, observerNext, cleanNext, iff, frameNext⟩ :=
            update_ok (g.rank_lt_card n) Idle now inv (fun _ => False.elim) (by simp [observes])
          have frameAll : Frame g Idle (fun _ => False)
              (fun p => ∃ m, .memo m ∈ before ++ [.memo n] ∧ PolledFrom g st m p)
              (Fintype.card μ) st next := by
            refine (frame.weaken (fun _ => id) (fun _ => id)
              (fun _ p quiet => quiet.imp fun m polled => ⟨by simp [polled.1], polled.2⟩)
              le_rfl).trans (frameNext.weaken (fun _ => id) (fun _ => id) (fun _ p quiet => ?_)
                (g.rank_lt_card n))
            exact ⟨n, by simp, quiet.2.before frame inv fun _ => False.elim⟩
          cases changed with
          | true =>
              refine ⟨true, next, _, ?_, invNext, observerNext.trans observes, frameAll,
                frameNext.dirty, fun _ => ⟨n, by rw [split]; simp, fun same => ?_⟩, (Bool.noConfusion ·)⟩
              · rw [anySource, updateSource, update, Option.bind_some, if_pos rfl]
              · -- a memo that holds its value before it is updated does not change
                have differs := iff.1 rfl
                have current := (invNext.clean_eval cleanNext).1
                rw [frameNext.signals, frame.signals] at current
                by_cases early : now.cached n = st.cached n
                · exact differs (by rw [current, early, same])
                · by_cases fresh : now.state n = .clean
                  · exact differs (frameNext.clean n fresh).2.1
                  · exact early (frame.stale n fresh).1
          | false =>
              obtain ⟨changed, st', silent, run, inv', observes', frame', stays, differs, heard⟩ :=
                ih (before ++ [.memo n]) invNext (observerNext.trans observes) split' frameAll fun m member => by
                  rcases List.mem_append.1 member with old | new
                  · exact (frameNext.clean m (clean m old)).1
                  · rw [List.mem_singleton, Source.memo.injEq] at new
                    rw [new, cleanNext]
              refine ⟨changed, st', silent, ?_, inv', observes', frame',
                fun dirty => stays (frameNext.dirty dirty), differs, fun unchanged =>
                ⟨(heard unchanged).1, fun first m after here long unpolled => ?_⟩⟩
              · rw [anySource, updateSource, update, Option.bind_some, if_neg (by simp)]
                exact run
              · rcases Nat.eq_or_lt_of_le long with length | longer
                · -- the memo just polled
                  have both := List.append_inj (split.symm.trans here) length
                  have same : n = m := Source.memo.inj (List.cons.inj both.2).1
                  subst same
                  rw [← both.1] at unpolled
                  have kept : next.cached n = now.cached n := by
                    by_contra other
                    cases iff.2 other
                  have current := (invNext.clean_eval cleanNext).1
                  rw [frameNext.signals, frame.signals] at current
                  by_cases early : now.cached n = st.cached n
                  · left
                    rw [← early, ← kept, current]
                  · right
                    rcases frame.heard (by simp) n early (by rw [split]; simp) with dirty | polled
                    · exact stays (frameNext.dirty dirty)
                    · obtain ⟨p, member, polls⟩ := polled
                      exact absurd polls (unpolled p member)
                · exact (heard unchanged).2 first m after here (by simpa using longer) unpolled

/-! ## The invariant of the task -/

structure TaskInv (g : Graph σ μ V) (task : Task σ μ V) : Prop where
  inv : Inv g Idle task.st
  unobserved : task.st.observer = none
  fresh : task.firstRun = true → task.st.notified = true
  sources : task.st.sources .effect = indexSet (task.read.map Prod.fst)
  held : task.st.dirty = false → ∀ read ∈ task.read, task.st.held read.1 = some read.2
  stale : ∀ n, .memo n ∈ task.st.sources .effect → task.st.state n ≠ .clean →
    task.st.notified = true
  told : task.st.dirty = true → task.st.notified = true

omit [DecidableEq V] in
/-- Where nothing is to be done, what the effect read is current. -/
theorem TaskInv.current {task : Task σ μ V} (inv : TaskInv g task)
    (idle : task.st.notified = false) : Current g task := by
  intro read member
  have clean : task.st.dirty = false := by
    cases dirty : task.st.dirty with
    | false => rfl
    | true => rw [inv.told dirty] at idle; cases idle
  have held := inv.held clean read member
  obtain ⟨source, value⟩ := read
  cases source with
  | signal s => exact Option.some.inj held
  | memo m =>
      have source : .memo m ∈ task.st.sources .effect := by
        rw [inv.sources, mem_indexSet]
        exact List.mem_map_of_mem member
      have fresh : task.st.state m = .clean := by
        by_contra stale
        rw [inv.stale m source stale] at idle
        cases idle
      rw [State.held, (inv.inv.clean_eval fresh).1] at held
      exact Option.some.inj held

omit [DecidableEq V] in
theorem set_keeps {task : Task σ μ V} (inv : TaskInv g task) (s : σ) (value : V) :
    ∃ st', setSignal s value task.st = some st' ∧ TaskInv g { task with st := st' } := by
  obtain ⟨st', run, inv', spread, heard⟩ := setSignal_ok s value inv.inv
  refine ⟨st', run, inv', spread.marked.observer.trans inv.unobserved,
    fun first => spread.marked.notified (inv.fresh first), spread.marked.sources ▸ inv.sources,
    fun clean read member => ?_, fun n source marked => ?_, fun dirty => ?_⟩
  · have before : task.st.dirty = false := by
      cases dirty : task.st.dirty with
      | false => rfl
      | true => rw [spread.marked.dirty dirty] at clean; cases clean
    have held := inv.held before read member
    obtain ⟨source, old⟩ := read
    cases source with
    | memo m =>
        rw [State.held, spread.marked.cached]
        exact held
    | signal s' =>
        have signals : st'.signals = Function.update task.st.signals s value :=
          spread.marked.signals
        rw [State.held, signals, Function.update_of_ne]
        · exact held
        · -- the effect does not read the signal that is set, or it would be dirty
          rintro rfl
          have source : .signal s' ∈ task.st.sources .effect := by
            rw [inv.sources, mem_indexSet]
            exact List.mem_map_of_mem member
          rw [(heard ((inv.inv.subscribed _ _).2 source)).1] at clean
          cases clean
  · rw [spread.marked.sources] at source
    by_cases clean : task.st.state n = .clean
    · exact spread.spreads n clean marked .effect ((inv.inv.subscribed _ _).2 source)
    · exact spread.marked.notified (inv.stale n source clean)
  · exact (spread.marked.told dirty).elim (fun was => spread.marked.notified (inv.told was)) id

theorem read_keeps {task : Task σ μ V} (inv : TaskInv g task) (m : μ) :
    ∃ value st', readMemo g m task.st = some (value, st') ∧ TaskInv g { task with st := st' } := by
  obtain ⟨st', run, inv', observer, -, frame⟩ := readMemo_ok m inv.inv inv.unobserved
  refine ⟨_, st', run, inv', observer, fun first => frame.notified (inv.fresh first),
    (frame.effect id).trans inv.sources, fun clean read member => ?_, fun n source marked => ?_,
    fun dirty => (frame.told dirty).elim (fun was => frame.notified (inv.told was)) id⟩
  · have before : task.st.dirty = false := by
      cases dirty : task.st.dirty with
      | false => rfl
      | true => rw [frame.dirty dirty] at clean; cases clean
    have held := inv.held before read member
    obtain ⟨source, old⟩ := read
    cases source with
    | signal s =>
        rw [State.held, frame.signals]
        exact held
    | memo n =>
        have source : .memo n ∈ task.st.sources .effect := by
          rw [inv.sources, mem_indexSet]
          exact List.mem_map_of_mem member
        by_cases same : st'.cached n = task.st.cached n
        · rw [State.held, same]
          exact held
        · rcases frame.heard id n same source with dirty | quiet
          · rw [dirty] at clean
            cases clean
          · exact quiet.elim
  · have source' : .memo n ∈ task.st.sources .effect := by
      rw [← frame.effect id]
      exact source
    exact frame.notified (inv.stale n source' (frame.not_clean marked))

/-- A run of the effect's function, after which all it read is current. -/
theorem runEffect_ok {body : Computation σ μ V} (inv : Inv g Idle st) (unobserved : st.observer = none)
    (cleared : st.sources .effect = []) (told : st.dirty = true → st.notified = true) :
    ∃ task, runEffect g body st = some task ∧ TaskInv g task := by
  obtain ⟨value, log, ran, run, inv', frame, -, -, sources, clean, held⟩ :=
    run_ok (updateIfNecessary g (Fintype.card μ)) body (fun _ => False) (Fintype.card μ) [] []
      (inv.observe (some .effect)) rfl (fun m mine => by cases mine)
      (fun n _ => ⟨g.rank_lt_card n, fun _ => False.elim⟩) (fun n _ => update_ok (g.rank_lt_card n))
      cleared (by simp)
  refine ⟨⟨{ ran with observer := none }, false, log⟩, ?_, inv'.observe none, rfl, by simp,
    by simpa using sources, fun _ => held, fun n source stale => ?_, fun dirty => ?_⟩
  · rw [runEffect, withObserver, run, unobserved]
    rfl
  · have source' : .memo n ∈ ran.sources .effect := source
    rw [sources, mem_indexSet] at source'
    exact absurd (clean n source') stale
  · exact (frame.told dirty).elim (fun was => frame.notified (told was)) id

theorem turn_keeps {body : Computation σ μ V} {task : Task σ μ V} (inv : TaskInv g task)
    (heard : ChangeIsHeard g task.st) : ∃ task', turn g body task = some task' ∧ TaskInv g task' := by
  by_cases notified : task.st.notified = true
  swap
  · exact ⟨task, by rw [turn, if_neg notified], inv⟩
  -- the notification is taken, and the effect observes
  obtain ⟨polling, polling_eq⟩ : ∃ polling : State σ μ V, polling =
      { task.st with notified := false, observer := some .effect } := ⟨_, rfl⟩
  have invPolling : Inv g Idle polling := by
    rw [polling_eq]
    exact ⟨inv.inv.subscribed, inv.inv.nodup, inv.inv.mayRead, inv.inv.closed, inv.inv.marked,
      inv.inv.upToDate⟩
  -- how a rerun ends
  have rerun : ∀ st' : State σ μ V, Inv g Idle st' → (st'.dirty = true → st'.notified = true) →
      ∃ task', runEffect g body ({ st' with observer := none }.clearSources .effect) = some task' ∧
        TaskInv g task' := by
    intro st' inv' told
    obtain ⟨cleared, clears, invClear, frame, sources, -, observer⟩ :=
      clearSources_ok .effect Idle (fun _ => False) (Fintype.card μ) (inv'.observe none)
        (fun _ => id) (fun n mine => by cases mine) (fun _ => False.elim)
    rw [clears]
    exact runEffect_ok invClear observer sources fun dirty =>
      (frame.told dirty).elim (fun was => frame.notified (told was)) id
  have start : turn g body task = (updateEffect g polling).bind fun updated =>
      if updated.1 || task.firstRun then
        runEffect g body ({ updated.2 with observer := none }.clearSources .effect)
      else some { task with st := { updated.2 with observer := none } } := by
    rw [turn, if_pos notified, withObserver, Option.bind_map, polling_eq, inv.unobserved]
    rfl
  rw [start]
  cases dirty : task.st.dirty with
  | true =>
      have poll : updateEffect g polling = some (true, { polling with dirty := false }) := by
        rw [updateEffect, if_pos (by rw [polling_eq]; exact dirty)]
      rw [poll, Option.bind_some, if_pos (by simp)]
      refine rerun { polling with dirty := false } ?_ (by simp)
      exact ⟨invPolling.subscribed, invPolling.nodup, invPolling.mayRead, invPolling.closed,
        invPolling.marked, invPolling.upToDate⟩
  | false =>
      obtain ⟨changed, st', silent, poll, inv', observes, frame, -, -, unchanged⟩ :=
        anySource_ok polling [] invPolling (by rw [polling_eq]) rfl
          ((Frame.refl polling).weaken (fun _ => id) (fun _ => id) (fun _ _ => False.elim) le_rfl)
          (by simp)
      have poll' : updateEffect g polling = some (changed, st') := by
        rw [updateEffect, if_neg (by rw [polling_eq]; simp [dirty]), poll]
      have told : st'.dirty = true → st'.notified = true := fun is => by
        rcases frame.told is with was | told
        · rw [polling_eq] at was
          exact absurd was (by simp [dirty])
        · exact told
      rw [poll', Option.bind_some]
      by_cases runs : (changed || task.firstRun) = true
      · rw [if_pos runs]
        exact rerun st' inv' told
      · rw [if_neg runs]
        obtain ⟨rfl, later⟩ : changed = false ∧ task.firstRun = false := by simpa using runs
        obtain ⟨clean, hears⟩ := unchanged rfl
        have sources : polling.sources = task.st.sources := by rw [polling_eq]
        have cached : polling.cached = task.st.cached := by rw [polling_eq]
        have signals : polling.signals = task.st.signals := by rw [polling_eq]
        refine ⟨_, rfl, inv'.observe none, rfl, by simp [later],
          ((frame.effect id).trans (by rw [sources])).trans inv.sources,
          fun quiet read member => ?_, fun n source stale => ?_, told⟩
        · have held := inv.held dirty read member
          obtain ⟨source, old⟩ := read
          cases source with
          | signal s =>
              have same : st'.signals = task.st.signals := frame.signals.trans signals
              rw [State.held] at held ⊢
              rw [← held, same]
          | memo m =>
              have source : .memo m ∈ polling.sources .effect := by
                rw [sources, inv.sources, mem_indexSet]
                exact List.mem_map_of_mem member
              have current := (inv'.clean_eval (clean m source)).1
              rw [frame.signals, signals] at current
              -- no memo that the effect read has changed, or the poll would have found one
              have none : task.st.cached m = some (g.eval task.st.signals m) := by
                rcases heard with is | all | ⟨before, n, after, split, differs, unpolled⟩
                · rw [is] at dirty
                  cases dirty
                · exact all m (by rw [← sources]; exact source)
                · have polled := hears before n after (by rw [sources, split]) (Nat.zero_le _)
                    (fun p member polls => unpolled p member (by rw [polling_eq] at polls; exact polls))
                  rw [cached, signals] at polled
                  rcases polled with same | is
                  · exact absurd same differs
                  · have quiet : st'.dirty = false := quiet
                    rw [quiet] at is
                    cases is
              rw [State.held] at held ⊢
              rw [← held, none]
              exact current
        · have source' : .memo n ∈ polling.sources .effect := by
            rw [← frame.effect id]
            exact source
          exact absurd (clean n source') stale

/-! ## Runs -/

theorem newTask_ok (body : Computation σ μ V) (signals : σ → V) (kind : Kind) :
    ∃ task, newTask g body signals kind = some task ∧ TaskInv g task := by
  have new := inv_new g signals
  cases kind with
  | renderEffect => exact runEffect_ok new rfl rfl (by simp [State.new])
  | effect =>
      refine ⟨_, rfl, ⟨new.subscribed, new.nodup, new.mayRead, new.closed, new.marked,
        new.upToDate⟩, rfl, fun _ => rfl, rfl, by simp, fun n source => ?_, fun _ => rfl⟩
      cases source

/-- Every turn of the run finds the condition. -/
def Heard (g : Graph σ μ V) (body : Computation σ μ V) :
    List (TaskStep σ μ V) → Task σ μ V → Prop
  | [], _ => True
  | step :: rest, task =>
      (step = .turn → ChangeIsHeard g task.st) ∧
        ∀ next, stepTask g body task step = some next → Heard g body rest next

theorem runTask_keeps {body : Computation σ μ V} (steps : List (TaskStep σ μ V))
    {task : Task σ μ V} (inv : TaskInv g task) (heard : Heard g body steps task) :
    ∃ task', runTask g body steps task = some task' ∧ TaskInv g task' := by
  induction steps generalizing task with
  | nil => exact ⟨task, rfl, inv⟩
  | cons step rest ih =>
      obtain ⟨next, run, inv'⟩ : ∃ next, stepTask g body task step = some next ∧
          TaskInv g next := by
        cases step with
        | set s value =>
            obtain ⟨st', run, inv'⟩ := set_keeps inv s value
            exact ⟨_, by rw [stepTask, run]; rfl, inv'⟩
        | read m =>
            obtain ⟨value, st', run, inv'⟩ := read_keeps inv m
            exact ⟨_, by rw [stepTask, run]; rfl, inv'⟩
        | turn => exact turn_keeps inv (heard.1 rfl)
      obtain ⟨task', run', inv''⟩ := ih inv' (heard.2 next run)
      exact ⟨task', by rw [runTask, run, Option.bind_some, run'], inv''⟩

/-- The memo `false` is the signal; the memo `true` reads it and is always 7. -/
def constantFn : Bool → Computation Unit Bool ℕ
  | false => .readSignal () .done
  | true => .readMemo false fun _ => .done 7

theorem constantFn_reads {n m : Bool} (reads : (constantFn m).MayRead n) :
    n = false ∧ m = true := by
  cases m with
  | false => exact reads.elim fun _ => False.elim
  | true => exact ⟨reads.elim id fun later => later.elim fun _ => False.elim, rfl⟩

def constantGraph : Graph Unit Bool ℕ where
  fn := constantFn
  acyclic := by
    intro m cycle
    have ends : ∀ a b, Relation.TransGen (fun n m => (constantFn m).MayRead n) a b →
        a = false ∧ b = true := by
      intro a b path
      induction path with
      | single read => exact constantFn_reads read
      | tail _ read ih =>
          have before := (constantFn_reads read).1
          rw [ih.2] at before
          cases before
    obtain ⟨first, last⟩ := ends m m cycle
    rw [first] at last
    cases last

end Halyard.Reactive
