import Halyard.Router.Flat
import Halyard.Router.Indicator

/-!
# Navigations of the flat router

The location of `router/location/history.rs`, and the tasks that `FlatRoutesView::rebuild` spawns with
`set_is_routing`: each turns the indicator on when it is first polled, and off when its view has loaded.

* `FlatRouting.step_move`: what a step does with the navigations.
-/

namespace Halyard.Router

/-! ## The location -/

/-- `BrowserUrl`: a navigation to another path leaves a sender in `pending_navigation`, and its task waits for
it with the URL that it is to set.  `released` are those that were sent to and have yet to go on, and
`completed` the URLs that the browser was given, the last one first. -/
structure BrowserUrl where
  pendingNavigation : Option Url
  released : List Url
  completed : List Url
  told : ℕ
  deriving DecidableEq

def BrowserUrl.new : BrowserUrl := ⟨none, [], [], 0⟩

/-- `navigate`, from the URL `curr`. -/
def BrowserUrl.navigate (curr newUrl : Url) (location : BrowserUrl) : BrowserUrl :=
  if curr.origin = newUrl.origin ∧ curr.path = newUrl.path then
    { location with completed := newUrl :: location.completed }
  else { location with pendingNavigation := some newUrl }

def BrowserUrl.readyToComplete (location : BrowserUrl) : BrowserUrl :=
  { location with
    pendingNavigation := none
    released := location.released ++ location.pendingNavigation.toList
    told := location.told + 1 }

/-- A navigation that was released goes on, if its URL is still the current one. -/
def BrowserUrl.resume (curr : Url) (location : BrowserUrl) : Option BrowserUrl :=
  match location.released with
  | [] => none
  | newUrl :: released =>
    some
      { location with
        released
        completed := if curr = newUrl then newUrl :: location.completed else location.completed }

/-! ## The flat router -/

/-- The task of a navigation, by the entry of its view. -/
structure FlatTask where
  entry : ℕ
  started : Bool
  ended : Bool
  deriving DecidableEq

structure FlatRouting (ParamsMap : Type*) where
  router : FlatRouter ParamsMap
  location : BrowserUrl
  isRouting : Bool
  /-- All that have been spawned. -/
  tasks : List FlatTask
  /-- The last navigation that the router ran for has completed without a task. -/
  atOnce : Bool

inductive FlatAction
  /-- A link is followed. -/
  | click (url : Url)
  /-- The browser goes back or forward. -/
  | popstate (url : Url)
  | resume
  | rerun
  /-- A task is polled for the first time. -/
  | start (entry : ℕ)
  /-- A load ends, or its wait for the view transition. -/
  | finish (index : ℕ)

section

variable {ParamsMap : Type*} [Inhabited ParamsMap] (routes : String → Option (RouteMatch ParamsMap))
  (transition : Bool)

def FlatRouting.build (ready : Bool) (url : Url) : FlatRouting ParamsMap :=
  ⟨Router.build routes ready url, .new, false, [], true⟩

/-- Every branch of `rebuild` calls `ready_to_complete`, but for the one that spawns a task. -/
def FlatRouting.rebuild (s : FlatRouting ParamsMap) : FlatRouting ParamsMap :=
  let router := Router.rebuild routes s.router
  if router.loads.length = s.router.loads.length then
    { s with router, atOnce := true, location := s.location.readyToComplete }
  else { s with router, atOnce := false, tasks := s.tasks ++ [⟨router.entry, false, false⟩] }

/-- The end of this load is that of a task which has set the indicator. -/
def Load.ofTask (load : Load) : Bool :=
  load.spawnedPath.isSome && !load.inTransition

/-- The task whose load it is has started, and ends. -/
def FlatRouting.endTask (entry : ℕ) (s : FlatRouting ParamsMap) : Option (FlatRouting ParamsMap) :=
  if s.tasks.any fun task => task.entry = entry && task.started && !task.ended then
    some
      { s with
        isRouting := false
        location := s.location.readyToComplete
        tasks := s.tasks.map fun task => if task.entry = entry then { task with ended := true } else task }
  else none

def FlatRouting.finish (index : ℕ) (s : FlatRouting ParamsMap) : Option (FlatRouting ParamsMap) :=
  (s.router.loads[index]?).bind fun load =>
    (Router.finish transition index s.router).bind fun router =>
      if load.ofTask then { s with router }.endTask load.view.entry else some { s with router }

def FlatRouting.step (s : FlatRouting ParamsMap) : FlatAction → Option (FlatRouting ParamsMap)
  | .click url =>
    some
      { s with
        location := s.location.navigate s.router.currentUrl url
        router := { s.router with currentUrl := url, rerun := true } }
  | .popstate url => some { s with router := { s.router with currentUrl := url, rerun := true } }
  | .resume => (s.location.resume s.router.currentUrl).map fun location => { s with location }
  | .rerun => if s.router.rerun then some (s.rebuild routes) else none
  | .start entry =>
    if s.tasks.any fun task => task.entry = entry && !task.started && !task.ended then
      some
        { s with
          isRouting := true
          tasks := s.tasks.map fun task => if task.entry = entry then { task with started := true } else task }
    else none
  | .finish index => s.finish transition index

/-- The task that ends with the step. -/
def FlatRouting.endsTask (s : FlatRouting ParamsMap) : FlatAction → Option ℕ
  | .finish index => ((s.router.loads[index]?).filter Load.ofTask).map fun load => load.view.entry
  | _ => none

end

/-! ## Its navigations -/

def FlatTask.navigation (task : FlatTask) : Navigation :=
  ⟨task.entry, true, task.started, task.ended, false⟩

/-- A task ends with the only load that it waits for. -/
def FlatRouting.routing {ParamsMap : Type*} (s : FlatRouting ParamsMap) : Routing :=
  ⟨s.isRouting, s.location.told, s.router.rerun, s.atOnce, s.tasks.map FlatTask.navigation⟩

variable {ParamsMap : Type*} [Inhabited ParamsMap] {routes : String → Option (RouteMatch ParamsMap)}
  {transition : Bool} {s s' : FlatRouting ParamsMap}

theorem BrowserUrl.told_navigate {curr newUrl : Url} {location : BrowserUrl} :
    (location.navigate curr newUrl).told = location.told := by
  unfold BrowserUrl.navigate
  split
  next => rfl
  next => rfl

theorem BrowserUrl.told_resume {curr : Url} {location location' : BrowserUrl}
    (resumed : location.resume curr = some location') : location'.told = location.told := by
  unfold BrowserUrl.resume at resumed
  split at resumed
  next => cases resumed
  next => exact Option.some.inj resumed ▸ rfl

theorem rerun_rebuild {state : FlatRouter ParamsMap} : (rebuild routes state).rerun = false := by
  unfold rebuild
  dsimp only
  split
  next => rfl
  next =>
    split
    next => rfl
    next =>
      split
      next => rfl
      next => rfl

omit [Inhabited ParamsMap] in
theorem rerun_finish {state state' : FlatRouter ParamsMap} {index : ℕ}
    (finished : finish transition index state = some state') : state'.rerun = state.rerun := by
  obtain ⟨load, -, ⟨-, -, rfl⟩ | ⟨-, -, rfl⟩ | ⟨-, rfl⟩⟩ := finish_cases finished
  · rfl
  · rfl
  · rfl

theorem FlatRouting.rebuild_move : Move s.routing none (s.rebuild routes).routing := by
  unfold FlatRouting.rebuild
  dsimp only
  split
  next =>
    have is : FlatRouting.routing
        { s with
          router := Router.rebuild routes s.router
          atOnce := true
          location := s.location.readyToComplete } =
        { s.routing with told := s.location.told + 1, unrouted := false, atOnce := true } := by
      rw [FlatRouting.routing, rerun_rebuild]
      rfl
    exact is ▸ .passes (s.location.told + 1)
  next =>
    have is : FlatRouting.routing
        { s with
          router := Router.rebuild routes s.router
          atOnce := false
          tasks := s.tasks ++ [⟨(Router.rebuild routes s.router).entry, false, false⟩] } =
        ⟨s.isRouting || false, s.location.told, false, false, s.routing.navigations ++
          [⟨(Router.rebuild routes s.router).entry, true, false, false, false⟩]⟩ := by
      rw [FlatRouting.routing, rerun_rebuild, List.map_append, Bool.or_false]
      rfl
    exact is ▸ .spawns ⟨_, true, false, false, false⟩ rfl

theorem navigations_ended {entry : ℕ} {tasks : List FlatTask} :
    (tasks.map fun task => if task.entry = entry then { task with ended := true } else task).map
        FlatTask.navigation =
      (tasks.map FlatTask.navigation).map (.endTask entry) :=
  map_update FlatTask.navigation (fun navigation => { navigation with ended := true }) (fun _ => rfl) entry tasks

theorem navigations_started {entry : ℕ} {tasks : List FlatTask} :
    (tasks.map fun task => if task.entry = entry then { task with started := true } else task).map
        FlatTask.navigation =
      (tasks.map FlatTask.navigation).map fun navigation =>
        if navigation.number = entry then { navigation with started := true } else navigation :=
  map_update FlatTask.navigation (fun navigation => { navigation with started := true }) (fun _ => rfl) entry tasks

omit [Inhabited ParamsMap] in
theorem FlatRouting.endTask_move {entry : ℕ} (ended : s.endTask entry = some s') :
    Move s.routing (some entry) s'.routing := by
  unfold FlatRouting.endTask at ended
  split at ended
  next =>
    rw [← Option.some.inj ended]
    unfold FlatRouting.routing
    dsimp only
    rw [navigations_ended]
    exact .ends entry
  next => cases ended

omit [Inhabited ParamsMap] in
theorem FlatRouting.finish_move {index : ℕ} (finished : s.finish transition index = some s') :
    Move s.routing (s.endsTask (.finish index)) s'.routing := by
  obtain ⟨load, there, finished⟩ := Option.bind_eq_some_iff.mp finished
  obtain ⟨router, routed, finished⟩ := Option.bind_eq_some_iff.mp finished
  have same : FlatRouting.routing { s with router } = s.routing := by
    rw [FlatRouting.routing, rerun_finish routed]
    rfl
  rw [FlatRouting.endsTask, there]
  split at finished
  next task =>
    rw [Option.filter_some_pos task, Option.map_some, ← same]
    exact FlatRouting.endTask_move finished
  next task =>
    rw [Option.filter_some_neg (Bool.eq_false_iff.mpr task), Option.map_none, ← Option.some.inj finished, same]
    exact .progresses (List.forall₂_same.mpr fun _ _ => ⟨rfl, rfl, rfl, id⟩)

theorem FlatRouting.step_move {action : FlatAction} (moved : s.step routes transition action = some s') :
    Move s.routing (s.endsTask action) s'.routing := by
  cases action with
  | click url =>
    rw [← Option.some.inj moved]
    unfold FlatRouting.routing
    dsimp only
    rw [BrowserUrl.told_navigate]
    exact .announces
  | popstate url =>
    cases moved
    exact .announces
  | resume =>
    obtain ⟨location, resumed, rfl⟩ := Option.map_eq_some_iff.mp moved
    unfold FlatRouting.routing
    dsimp only
    rw [BrowserUrl.told_resume resumed]
    exact .progresses (List.forall₂_same.mpr fun _ _ => ⟨rfl, rfl, rfl, id⟩)
  | rerun =>
    rw [FlatRouting.step] at moved
    split at moved
    next =>
      cases moved
      exact FlatRouting.rebuild_move
    next => cases moved
  | start entry =>
    rw [FlatRouting.step] at moved
    split at moved
    next there =>
      obtain ⟨task, mem, is⟩ := List.any_eq_true.mp there
      rw [Bool.and_eq_true, Bool.and_eq_true, decide_eq_true_eq, Bool.not_eq_true', Bool.not_eq_true'] at is
      rw [← Option.some.inj moved]
      unfold FlatRouting.routing
      dsimp only
      rw [navigations_started]
      exact .starts entry ⟨task.navigation, List.mem_map_of_mem mem, is.1.1, is.2⟩
    next => cases moved
  | finish index => exact FlatRouting.finish_move moved

end Halyard.Router
