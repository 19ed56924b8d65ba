import Halyard.Reactive.Effect
import Halyard.Rebuild.Shown

/-!
# A page that follows the signals

A function that returns a view is itself a view (`impl Render for F` in
`halyard_tachys/src/reactive_graph`): a render effect, which builds what the function returns in its
first run and rebuilds it in every further one.

* `page_current`: whenever the effect's channel is empty, the page shows what the function gives on the
  current signals.
* `heard_new`: when the condition on the turns of the effect's task is met.
-/

namespace Halyard.Reactive

open Rebuild (View ViewType Dom Alike Rebuilt Placed)

variable {σ μ V : Type*} [DecidableEq σ] [DecidableEq μ] [Fintype μ] [DecidableEq V]

/-- The effect's task, the state of the view that its last run gave back, and the document. -/
structure Page (σ μ V : Type*) where
  task : Task σ μ V
  state : Rebuild.State
  dom : Dom

/-- A run of the closure of the effect; `prev` is the state that the run before gave back. -/
def runView (g : Graph σ μ V) (body : Computation σ μ V) (view : V → View) (prev : Option Rebuild.State)
    (st : State σ μ V) (d : Dom) : Option (Page σ μ V) :=
  (withObserver .effect (body.run (updateIfNecessary g (Fintype.card μ))) st).map fun result =>
    let next := match prev with
      | some state => (view result.1.1).rebuild state d
      | none => (view result.1.1).build d
    ⟨⟨result.2, false, result.1.2⟩, next.1, next.2⟩

/-- The view is built and mounted under `parent`, before `anchor`. -/
def newPage (g : Graph σ μ V) (body : Computation σ μ V) (view : V → View) (signals : σ → V) (parent : ℕ)
    (anchor : Option ℕ) (d : Dom) : Option (Page σ μ V) :=
  (runView g body view none (State.new signals) d).map fun page =>
    { page with dom := page.state.mount parent anchor page.dom }

/-- One turn of the loop of `RenderEffect::new`. -/
def turnPage (g : Graph σ μ V) (body : Computation σ μ V) (view : V → View) (page : Page σ μ V) :
    Option (Page σ μ V) :=
  if page.task.st.notified then
    (withObserver .effect (updateEffect g) { page.task.st with notified := false }).bind fun updated =>
      if updated.1 then runView g body view (some page.state) (updated.2.clearSources .effect) page.dom
      else some { page with task := { page.task with st := updated.2 } }
  else some page

def stepPage (g : Graph σ μ V) (body : Computation σ μ V) (view : V → View) (page : Page σ μ V) :
    TaskStep σ μ V → Option (Page σ μ V)
  | .set s value => (setSignal s value page.task.st).map fun st => { page with task := { page.task with st } }
  | .read m => (readMemo g m page.task.st).map fun read => { page with task := { page.task with st := read.2 } }
  | .turn => turnPage g body view page

def runPage (g : Graph σ μ V) (body : Computation σ μ V) (view : V → View) :
    List (TaskStep σ μ V) → Page σ μ V → Option (Page σ μ V)
  | [], page => some page
  | step :: rest, page => (stepPage g body view page step).bind (runPage g body view rest)

/-! ## What a run returned -/

namespace Computation

/-- What the function returns if its reads give these values. -/
def replay : Computation σ μ V → List (Source σ μ × V) → Option V
  | .done value, [] => some value
  | .readSignal s next, (source, value) :: rest =>
      if source = .signal s then (next value).replay rest else none
  | .readMemo m next, (source, value) :: rest => if source = .memo m then (next value).replay rest else none
  | _, _ => none

/-- What the function returns now. -/
noncomputable def now (g : Graph σ μ V) (st : State σ μ V) (body : Computation σ μ V) : V :=
  body.eval st.signals fun n _ => g.eval st.signals n

omit [Fintype μ] [DecidableEq V] in
theorem replay_run {update : μ → State σ μ V → Option (Bool × State σ μ V)} {body : Computation σ μ V}
    {st st' : State σ μ V} {value : V} {log : List (Source σ μ × V)}
    (run : body.run update st = some ((value, log), st')) : body.replay log = some value := by
  induction body generalizing st log with
  | done result =>
    obtain ⟨⟨rfl, rfl⟩, -⟩ : (result = value ∧ [] = log) ∧ st = st' := by simpa [Computation.run] using run
    rfl
  | readSignal s next ih =>
    rw [Computation.run, Option.map_eq_some_iff] at run
    obtain ⟨⟨⟨result, rest⟩, last⟩, run, is⟩ := run
    simp only [logged, Prod.mk.injEq] at is
    obtain ⟨⟨rfl, rfl⟩, rfl⟩ := is
    rw [replay, if_pos rfl]
    exact ih _ run
  | readMemo m next ih =>
    rw [Computation.run, Option.bind_eq_some_iff] at run
    obtain ⟨updated, -, run⟩ := run
    rw [Option.bind_eq_some_iff] at run
    obtain ⟨held, -, run⟩ := run
    rw [Option.map_eq_some_iff] at run
    obtain ⟨⟨⟨result, rest⟩, last⟩, run, is⟩ := run
    simp only [logged, Prod.mk.injEq] at is
    obtain ⟨⟨rfl, rfl⟩, rfl⟩ := is
    rw [replay, if_pos rfl]
    exact ih _ run

omit [DecidableEq V] in
/-- If all that was read is current, so is what was returned. -/
theorem replay_now {g : Graph σ μ V} {st : State σ μ V} {body : Computation σ μ V} {value : V}
    {log : List (Source σ μ × V)} (returned : body.replay log = some value)
    (current : ∀ read ∈ log, st.now g read.1 = read.2) : body.now g st = value := by
  induction body generalizing log with
  | done result =>
    cases log with
    | nil => exact Option.some.inj returned
    | cons read rest => cases returned
  | readSignal s next ih =>
    cases log with
    | nil => cases returned
    | cons read rest =>
      rw [replay] at returned
      split at returned
      next is =>
        have here : st.signals s = read.2 := by
          rw [← current read List.mem_cons_self, is]
          rfl
        have later := ih read.2 returned fun read member => current read (List.mem_cons_of_mem _ member)
        rw [← here] at later
        exact later
      next => cases returned
  | readMemo m next ih =>
    cases log with
    | nil => cases returned
    | cons read rest =>
      rw [replay] at returned
      split at returned
      next is =>
        have here : g.eval st.signals m = read.2 := by
          rw [← current read List.mem_cons_self, is]
          rfl
        have later := ih read.2 returned fun read member => current read (List.mem_cons_of_mem _ member)
        rw [← here] at later
        exact later
      next => cases returned

end Computation

/-! ## The task and the page -/

variable {g : Graph σ μ V} {body : Computation σ μ V} {view : V → View} {page : Page σ μ V}

/-- The task of the effect is that of any effect. -/
theorem turnPage_task (later : page.task.firstRun = false) :
    (turnPage g body view page).map Page.task = turn g body page.task := by
  unfold turnPage turn
  split
  · rw [Option.map_bind]
    refine congrArg _ (funext fun updated => ?_)
    rw [Function.comp_apply, later, Bool.or_false]
    split
    · rw [runView, runEffect, Option.map_map]
      rfl
    · simp [later]
  · rfl

theorem stepPage_task (later : page.task.firstRun = false) (step : TaskStep σ μ V) :
    (stepPage g body view page step).map Page.task = stepTask g body page.task step := by
  cases step with
  | set s value =>
    rw [stepPage, stepTask, Option.map_map]
    rfl
  | read m =>
    rw [stepPage, stepTask, Option.map_map]
    rfl
  | turn => exact turnPage_task later

/-- A step leaves the view as it is, or rebuilds it with what the function has returned. -/
theorem stepPage_view {page' : Page σ μ V} {step : TaskStep σ μ V} (moved : stepPage g body view page step = some page') :
    (page'.task.firstRun = page.task.firstRun ∧ page'.task.read = page.task.read ∧
        page'.state = page.state ∧ page'.dom = page.dom) ∨
      ∃ value, page'.task.firstRun = false ∧ body.replay page'.task.read = some value ∧
        page'.state = ((view value).rebuild page.state page.dom).1 ∧
        page'.dom = ((view value).rebuild page.state page.dom).2 := by
  cases step with
  | set s value =>
    obtain ⟨st, -, rfl⟩ := Option.map_eq_some_iff.mp moved
    exact .inl ⟨rfl, rfl, rfl, rfl⟩
  | read m =>
    obtain ⟨read, -, rfl⟩ := Option.map_eq_some_iff.mp moved
    exact .inl ⟨rfl, rfl, rfl, rfl⟩
  | turn =>
    rw [stepPage, turnPage] at moved
    split at moved
    next =>
      obtain ⟨updated, -, moved⟩ := Option.bind_eq_some_iff.mp moved
      split at moved
      next =>
        obtain ⟨⟨⟨value, log⟩, last⟩, run, rfl⟩ := Option.map_eq_some_iff.mp moved
        obtain ⟨⟨⟨value', log'⟩, last'⟩, run', is⟩ := Option.map_eq_some_iff.mp run
        simp only [Prod.mk.injEq] at is
        obtain ⟨⟨rfl, rfl⟩, rfl⟩ := is
        exact .inr ⟨_, rfl, Computation.replay_run run', rfl, rfl⟩
      next =>
        obtain rfl := Option.some.inj moved
        exact .inl ⟨rfl, rfl, rfl, rfl⟩
    next =>
      obtain rfl := Option.some.inj moved
      exact .inl ⟨rfl, rfl, rfl, rfl⟩

/-- The page shows what the function returned in its last run. -/
structure Follows (g : Graph σ μ V) (body : Computation σ μ V) (view : V → View) (base : Dom) (parent : ℕ)
    (before after : List ℕ) (type : ViewType) (page : Page σ μ V) : Prop where
  inv : TaskInv g page.task
  later : page.task.firstRun = false
  shows : ∃ value, body.replay page.task.read = some value ∧
    Rebuilt base parent before after [] [type] (view value).trees [page.state] page.dom

variable {base : Dom} {parent : ℕ} {before after : List ℕ} {type : ViewType}

theorem stepTask_keeps {task : Task σ μ V} (inv : TaskInv g task) (step : TaskStep σ μ V)
    (heard : step = .turn → ChangeIsHeard g task.st) :
    ∃ next, stepTask g body task step = some next ∧ TaskInv g next := by
  cases step with
  | set s value =>
    obtain ⟨st, run, inv⟩ := set_keeps inv s value
    exact ⟨_, by rw [stepTask, run]; rfl, inv⟩
  | read m =>
    obtain ⟨value, st, run, inv⟩ := read_keeps inv m
    exact ⟨_, by rw [stepTask, run]; rfl, inv⟩
  | turn => exact turn_keeps inv (heard rfl)

theorem Follows.step (follows : Follows g body view base parent before after type page)
    (ofType : ∀ value, (view value).OfType type) (step : TaskStep σ μ V)
    (heard : step = .turn → ChangeIsHeard g page.task.st) :
    ∃ page', stepPage g body view page step = some page' ∧ stepTask g body page.task step = some page'.task ∧
      Follows g body view base parent before after type page' := by
  obtain ⟨task, moves, inv⟩ := stepTask_keeps follows.inv step heard
  have both : (stepPage g body view page step).map Page.task = some task :=
    (stepPage_task follows.later step).trans moves
  obtain ⟨page', moved, rfl⟩ := Option.map_eq_some_iff.mp both
  refine ⟨page', moved, moves, inv, ?_, ?_⟩
  · rcases stepPage_view moved with ⟨later, -⟩ | ⟨value, later, -⟩
    · rw [later, follows.later]
    · exact later
  · obtain ⟨value, returned, shows⟩ := follows.shows
    rcases stepPage_view moved with ⟨-, read, state, dom⟩ | ⟨next, -, returned', state, dom⟩
    · rw [read, state, dom]
      exact ⟨value, returned, shows⟩
    · rw [state, dom]
      exact ⟨next, returned', shows.trans (Rebuild.rebuild_spec (view next) (ofType next) page.state page.dom parent
        before after shows.fits.1 shows.placed)⟩

theorem Follows.steps (follows : Follows g body view base parent before after type page)
    (ofType : ∀ value, (view value).OfType type) (steps : List (TaskStep σ μ V))
    (heard : Heard g body steps page.task) :
    ∃ page', runPage g body view steps page = some page' ∧
      Follows g body view base parent before after type page' := by
  induction steps generalizing page with
  | nil => exact ⟨page, rfl, follows⟩
  | cons step rest ih =>
    obtain ⟨next, moved, moves, follows⟩ := follows.step ofType step heard.1
    obtain ⟨page', run, follows⟩ := ih follows (heard.2 next.task moves)
    exact ⟨page', by rw [runPage, moved, Option.bind_some, run], follows⟩

/-- The first run, in which the view is built. -/
theorem Follows.start (body : Computation σ μ V) (ofType : ∀ value, (view value).OfType type) (signals : σ → V)
    (placed : Placed base parent before after []) :
    ∃ page, newPage g body view signals parent after.head? base = some page ∧
      newTask g body signals .renderEffect = some page.task ∧
      Follows g body view base parent before after type page := by
  obtain ⟨task, new, inv⟩ := newTask_ok (g := g) body signals .renderEffect
  have ran := new
  rw [newTask, runEffect] at ran
  obtain ⟨⟨⟨value, log⟩, last⟩, run, rfl⟩ := Option.map_eq_some_iff.mp ran
  obtain ⟨⟨⟨value', log'⟩, last'⟩, run', is⟩ := Option.map_eq_some_iff.mp run
  simp only [Prod.mk.injEq] at is
  obtain ⟨⟨rfl, rfl⟩, rfl⟩ := is
  refine ⟨_, by rw [newPage, runView, run]; rfl, new, inv, rfl, value', Computation.replay_run run', ?_⟩
  exact (view value').mounted_spec (ofType value') placed

/-- No memo that the function may read is computed from another that it may read. -/
def Unrelated (g : Graph σ μ V) (body : Computation σ μ V) : Prop :=
  ∀ m n, body.MayRead m → body.MayRead n → ¬ Relation.TransGen (fun n m => (g.fn m).MayRead n) n m

omit [Fintype μ] [DecidableEq V] in
theorem Computation.mayRead_of_replay {log : List (Source σ μ × V)} {value : V}
    (returned : body.replay log = some value) {n : μ} (read : .memo n ∈ log.map Prod.fst) : body.MayRead n := by
  induction body generalizing log with
  | done result =>
    cases log with
    | nil => cases read
    | cons first rest => cases returned
  | readSignal s next ih =>
    cases log with
    | nil => cases returned
    | cons first rest =>
      rw [replay] at returned
      split at returned
      next is =>
        rw [List.map_cons, List.mem_cons, is] at read
        exact ⟨_, ih _ returned (read.resolve_left nofun)⟩
      next => cases returned
  | readMemo m next ih =>
    cases log with
    | nil => cases returned
    | cons first rest =>
      rw [replay] at returned
      split at returned
      next is =>
        rw [List.map_cons, List.mem_cons, is] at read
        rcases read with same | later
        · exact .inl (Source.memo.inj same)
        · exact .inr ⟨_, ih _ returned later⟩
      next => cases returned

omit [DecidableEq V] in
theorem transGen_of_polledFrom {st : State σ μ V} (inv : Inv g Idle st) {m n : μ} (polled : PolledFrom g st m n)
    (ne : m ≠ n) : Relation.TransGen (fun n m => (g.fn m).MayRead n) n m := by
  induction polled with
  | refl => exact absurd rfl ne
  | @tail p n before polls ih =>
    obtain ⟨-, sources, after, split, -⟩ := polls
    have reads : (g.fn p).MayRead n := inv.mayRead p n (by rw [split]; simp)
    by_cases same : m = p
    · rw [same]
      exact .single reads
    · exact .head reads (ih same)

omit [DecidableEq V] in
theorem changeIsHeard_of_unrelated (unrelated : Unrelated g body) {task : Task σ μ V} (inv : TaskInv g task)
    {value : V} (returned : body.replay task.read = some value) : ChangeIsHeard g task.st := by
  have mayRead : ∀ n, .memo n ∈ task.st.sources .effect → body.MayRead n := by
    intro n source
    rw [inv.sources, mem_indexSet] at source
    exact Computation.mayRead_of_replay returned source
  by_cases all : ∀ n, .memo n ∈ task.st.sources .effect → task.st.cached n = some (g.eval task.st.signals n)
  · exact .inr (.inl all)
  · push Not at all
    obtain ⟨n, source, changed⟩ := all
    obtain ⟨before, after, split, absent⟩ := List.eq_append_cons_of_mem source
    refine .inr (.inr ⟨before, n, after, split, changed, fun m member polled => ?_⟩)
    have ne : m ≠ n := fun same => absent (same ▸ member)
    have source' : .memo m ∈ task.st.sources .effect := by
      rw [split]
      exact List.mem_append_left _ member
    exact unrelated m n (mayRead m source') (mayRead n source) (transGen_of_polledFrom inv.inv polled ne)

theorem runEffect_replay {st : State σ μ V} {task : Task σ μ V} (ran : runEffect g body st = some task) :
    ∃ value, body.replay task.read = some value := by
  obtain ⟨⟨⟨value, log⟩, last⟩, run, rfl⟩ := Option.map_eq_some_iff.mp ran
  obtain ⟨⟨⟨value', log'⟩, last'⟩, run', is⟩ := Option.map_eq_some_iff.mp run
  simp only [Prod.mk.injEq] at is
  obtain ⟨⟨rfl, rfl⟩, rfl⟩ := is
  exact ⟨value', Computation.replay_run run'⟩

theorem stepTask_replay {task next : Task σ μ V} {step : TaskStep σ μ V} (moved : stepTask g body task step = some next)
    (returned : ∃ value, body.replay task.read = some value) : ∃ value, body.replay next.read = some value := by
  cases step with
  | set s value =>
    obtain ⟨st, -, rfl⟩ := Option.map_eq_some_iff.mp moved
    exact returned
  | read m =>
    obtain ⟨read, -, rfl⟩ := Option.map_eq_some_iff.mp moved
    exact returned
  | turn =>
    rw [stepTask, turn] at moved
    split at moved
    next =>
      obtain ⟨updated, -, moved⟩ := Option.bind_eq_some_iff.mp moved
      split at moved
      next => exact runEffect_replay moved
      next =>
        obtain rfl := Option.some.inj moved
        exact returned
    next =>
      obtain rfl := Option.some.inj moved
      exact returned

theorem heard_of_unrelated (unrelated : Unrelated g body) (steps : List (TaskStep σ μ V)) {task : Task σ μ V}
    (inv : TaskInv g task) (returned : ∃ value, body.replay task.read = some value) : Heard g body steps task := by
  induction steps generalizing task with
  | nil => trivial
  | cons step rest ih =>
    obtain ⟨value, returned⟩ := returned
    have heard := changeIsHeard_of_unrelated unrelated inv returned
    refine ⟨fun _ => heard, fun next moved => ?_⟩
    obtain ⟨next', moved', inv'⟩ : ∃ next', stepTask g body task step = some next' ∧ TaskInv g next' :=
      stepTask_keeps inv step fun _ => heard
    obtain rfl : next' = next := Option.some.inj (moved'.symm.trans moved)
    exact ih inv' (stepTask_replay moved ⟨value, returned⟩)

/-- Where no memo that the function may read is computed from another, every turn hears of a change. -/
theorem heard_new (unrelated : Unrelated g body) (signals : σ → V) (steps : List (TaskStep σ μ V)) :
    ∀ task, newTask g body signals .renderEffect = some task → Heard g body steps task := by
  intro task new
  obtain ⟨task', new', inv⟩ := newTask_ok (g := g) body signals .renderEffect
  obtain rfl : task' = task := Option.some.inj (new'.symm.trans new)
  exact heard_of_unrelated unrelated steps inv (runEffect_replay new)

end Halyard.Reactive
