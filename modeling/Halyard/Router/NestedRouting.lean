import Halyard.Router.FlatRouting

/-!
# Navigations of the nested router

`NestedRoutesView::rebuild` with `set_is_routing`, of a path that a route matches: the outlet from which on the
routes differ is replaced, those below it are built anew, and two tasks are spawned.  The first runs the
preloaders, until the next navigation aborts it.  The second waits for the channel of the replaced outlet, whose
sender goes from the preloader to the view function, and from there to the view that an outlet loads; it is also
over when the sender is dropped on the way.

* `NestedRouting.step_move`: what a step does with the navigations.
* `isRouting_iff`: both routers keep what the indicator is for exactly in the runs in which a task ends only while
  no later navigation is pending.
* `indicator_off_early`: a task that ends earlier turns the indicator off, and releases the URL of the next navigation.
-/

namespace Halyard.Router

/-- How far the view of an outlet has come: its preloader runs; its view function is set; an outlet has called
it; and the view is there, or has been dropped. -/
inductive Stage
  | preloading
  | ready
  | choosing
  | done
  deriving DecidableEq

/-- A navigation that a route matched, with the outlets that it has replaced and built: if one was `replaced`, it
comes first, and the second task waits for it alone. -/
structure NestedNavigation where
  number : ℕ
  replaced : Bool
  views : List Stage
  aborted : Bool
  ended : Bool
  deriving DecidableEq

structure NestedRouting where
  currentUrl : Url
  rerun : Bool
  path : String
  outlets : List RouteMatchId
  abortNavigation : Option ℕ
  location : BrowserUrl
  isRouting : Bool
  /-- All that have been started. -/
  navigations : List NestedNavigation
  /-- The last navigation that the router ran for has completed without a task. -/
  atOnce : Bool
  deriving DecidableEq

/-- What `rebuild_nested_route` leaves: the outlets, whether one of them was replaced, and how many loaders there
are for those that were replaced or built. -/
structure Rebuilt where
  outlets : List RouteMatchId
  replaced : Bool
  views : ℕ

/-- `rebuild_nested_route`, from the outlets at one depth on.  Those below the last matched route stay. -/
def rebuildNestedRoute : List RouteMatchId → List RouteMatchId → Rebuilt
  | outlets, [] => ⟨outlets, false, 0⟩
  | [], route => ⟨route, false, route.length⟩
  | current :: outlets, id :: route =>
    if id = current then
      let below := rebuildNestedRoute outlets route
      { below with outlets := current :: below.outlets }
    else ⟨id :: route, true, route.length + 1⟩

inductive NestedAction
  /-- A link is followed. -/
  | click (url : Url)
  /-- The browser goes back or forward. -/
  | popstate (url : Url)
  | resume
  | rerun
  /-- A view comes to its next stage. -/
  | advance (number index : ℕ) (stage : Stage)
  /-- The first task of an aborted navigation drops its preloaders. -/
  | abort (number : ℕ)
  /-- The second task goes on after its channel. -/
  | finish (number : ℕ)

/-- An aborted preloader is not polled again.  A view function may be replaced, and a view that loads may be
dropped. -/
def Stage.mayBecome (aborted : Bool) : Stage → Stage → Bool
  | .preloading, .ready => !aborted
  | .ready, .choosing => true
  | .ready, .done => true
  | .choosing, .done => true
  | _, _ => false

def NestedNavigation.advance (index : ℕ) (stage : Stage) (navigation : NestedNavigation) : NestedNavigation :=
  if (navigation.views[index]?).any fun before => before.mayBecome navigation.aborted stage then
    { navigation with views := navigation.views.set index stage }
  else navigation

def NestedNavigation.drop (navigation : NestedNavigation) : NestedNavigation :=
  if navigation.aborted then
    { navigation with
      views := navigation.views.map fun stage => if stage = .preloading then .done else stage }
  else navigation

/-- The channel of the replaced outlet, if there is one, has been sent to or its sender is gone. -/
def NestedNavigation.mayEnd (navigation : NestedNavigation) : Bool :=
  !navigation.ended && (!navigation.replaced || navigation.views.head? == some .done)

def NestedRouting.update (number : ℕ) (f : NestedNavigation → NestedNavigation) (s : NestedRouting) :
    List NestedNavigation :=
  s.navigations.map fun navigation => if navigation.number = number then f navigation else navigation

section

variable (matchRoute : String → Option (List RouteMatchId))

/-- The state that `build` leaves. -/
def NestedRouting.build (url : Url) : NestedRouting :=
  ⟨url, false, url.path, (matchRoute url.path).getD [], none, .new, false, [], true⟩

/-- `prev_handle.abort()`. -/
def NestedRouting.abortPrevious (s : NestedRouting) : List NestedNavigation :=
  match s.abortNavigation with
  | some number => s.update number fun navigation => { navigation with aborted := true }
  | none => s.navigations

def NestedRouting.rebuild (s : NestedRouting) : NestedRouting :=
  if s.currentUrl.path = s.path then { s with rerun := false, atOnce := true }
  else
    match matchRoute s.currentUrl.path with
    | none =>
      { s with
        rerun := false
        path := s.currentUrl.path
        outlets := []
        atOnce := true
        location := s.location.readyToComplete }
    | some route =>
      let rebuilt := rebuildNestedRoute s.outlets route
      let number := s.navigations.length
      { s with
        rerun := false
        path := s.currentUrl.path
        isRouting := true
        outlets := rebuilt.outlets
        abortNavigation := some number
        atOnce := false
        navigations := s.abortPrevious ++
          [⟨number, rebuilt.replaced, List.replicate rebuilt.views .preloading, false, false⟩] }

/-- The end of the second task takes the abort handle, whose ever it is. -/
def NestedRouting.finish (number : ℕ) (s : NestedRouting) : Option NestedRouting :=
  if s.navigations.any fun navigation => navigation.number = number && navigation.mayEnd then
    some
      { s with
        abortNavigation := none
        isRouting := false
        location := s.location.readyToComplete
        navigations := s.update number fun navigation => { navigation with ended := true } }
  else none

def NestedRouting.step (s : NestedRouting) : NestedAction → Option NestedRouting
  | .click url =>
    some { s with currentUrl := url, rerun := true, location := s.location.navigate s.currentUrl url }
  | .popstate url => some { s with currentUrl := url, rerun := true }
  | .resume => (s.location.resume s.currentUrl).map fun location => { s with location }
  | .rerun => if s.rerun then some (s.rebuild matchRoute) else none
  | .advance number index stage => some { s with navigations := s.update number (.advance index stage) }
  | .abort number => some { s with navigations := s.update number .drop }
  | .finish number => s.finish number

end

/-- The navigation whose second task ends with the step. -/
def NestedAction.endsTask : NestedAction → Option ℕ
  | .finish number => some number
  | _ => none

/-! ## Its navigations -/

/-- A view is outstanding until it is there or has been dropped. -/
def NestedNavigation.navigation (navigation : NestedNavigation) : Navigation :=
  ⟨navigation.number, !navigation.views.isEmpty, true, navigation.ended, navigation.views.any (· ≠ .done)⟩

def NestedRouting.routing (s : NestedRouting) : Routing :=
  ⟨s.isRouting, s.location.told, s.rerun, s.atOnce, s.navigations.map NestedNavigation.navigation⟩

variable {matchRoute : String → Option (List RouteMatchId)} {s s' : NestedRouting} {number index : ℕ}
  {stage : Stage} {navigation : NestedNavigation}

theorem Stage.mayBecome_ne {aborted : Bool} {before : Stage} (may : before.mayBecome aborted stage = true) :
    before ≠ .done := by
  rintro rfl
  cases stage <;> cases may

theorem isEmpty_set {views : List Stage} : (views.set index stage).isEmpty = views.isEmpty := by
  cases views with
  | nil => rfl
  | cons => cases index <;> rfl

theorem NestedNavigation.advance_progress :
    Progress navigation.navigation (navigation.advance index stage).navigation := by
  unfold NestedNavigation.advance
  split
  next may =>
    obtain ⟨before, there, may⟩ := (Option.any_eq_true _ _).mp may
    refine ⟨?_, rfl, rfl, fun _ => ?_⟩
    · change (!(navigation.views.set index stage).isEmpty) = !navigation.views.isEmpty
      rw [isEmpty_set]
    · exact List.any_eq_true.mpr ⟨before, List.mem_of_getElem? there, decide_eq_true (Stage.mayBecome_ne may)⟩
  next => exact ⟨rfl, rfl, rfl, id⟩

theorem NestedNavigation.drop_progress : Progress navigation.navigation navigation.drop.navigation := by
  unfold NestedNavigation.drop
  split
  next =>
    refine ⟨?_, rfl, rfl, fun still => ?_⟩
    · change (!(navigation.views.map _).isEmpty) = !navigation.views.isEmpty
      rw [List.isEmpty_map]
    · obtain ⟨stage, mem, loading⟩ := List.any_eq_true.mp still
      obtain ⟨before, before_mem, rfl⟩ := List.mem_map.mp mem
      refine List.any_eq_true.mpr ⟨before, before_mem, decide_eq_true ?_⟩
      rintro rfl
      exact of_decide_eq_true loading rfl
  next => exact ⟨rfl, rfl, rfl, id⟩

theorem NestedRouting.progress_update {f : NestedNavigation → NestedNavigation}
    (each : ∀ navigation, Progress navigation.navigation (f navigation).navigation) :
    List.Forall₂ Progress (s.navigations.map NestedNavigation.navigation)
      ((s.update number f).map NestedNavigation.navigation) := by
  rw [NestedRouting.update, List.map_map, List.forall₂_map_left_iff, List.forall₂_map_right_iff]
  refine List.forall₂_same.mpr fun navigation _ => ?_
  rw [Function.comp_apply]
  split
  next => exact each navigation
  next => exact ⟨rfl, rfl, rfl, id⟩

theorem NestedRouting.navigations_abortPrevious :
    s.abortPrevious.map NestedNavigation.navigation = s.navigations.map NestedNavigation.navigation := by
  unfold NestedRouting.abortPrevious
  split
  next previous _ =>
    have same := map_update NestedNavigation.navigation (f := fun n => { n with aborted := true }) id (fun _ => rfl)
      previous s.navigations
    refine same.trans ?_
    simp only [id_eq, ite_self, List.map_id']
  next => rfl

theorem NestedRouting.navigations_ended :
    (s.update number fun navigation => { navigation with ended := true }).map NestedNavigation.navigation =
      (s.navigations.map NestedNavigation.navigation).map (.endTask number) :=
  map_update NestedNavigation.navigation (fun navigation => { navigation with ended := true }) (fun _ => rfl) number
    s.navigations

theorem NestedRouting.rebuild_move : Move s.routing none (s.rebuild matchRoute).routing := by
  unfold NestedRouting.rebuild
  split
  next => exact .passes s.location.told
  next =>
    split
    next => exact .passes (s.location.told + 1)
    next route _ =>
      unfold NestedRouting.routing
      dsimp only
      rw [List.map_append, NestedRouting.navigations_abortPrevious]
      exact @Move.spawnsStarted s.routing _ rfl rfl

theorem NestedRouting.finish_move (finished : s.finish number = some s') :
    Move s.routing (some number) s'.routing := by
  unfold NestedRouting.finish at finished
  split at finished
  next =>
    rw [← Option.some.inj finished]
    unfold NestedRouting.routing
    dsimp only
    rw [NestedRouting.navigations_ended]
    exact .ends number
  next => cases finished

theorem NestedRouting.step_move {action : NestedAction} (moved : s.step matchRoute action = some s') :
    Move s.routing action.endsTask s'.routing := by
  cases action with
  | click url =>
    rw [← Option.some.inj moved]
    unfold NestedRouting.routing
    dsimp only
    rw [BrowserUrl.told_navigate]
    exact .announces
  | popstate url =>
    cases moved
    exact .announces
  | resume =>
    obtain ⟨location, resumed, rfl⟩ := Option.map_eq_some_iff.mp moved
    unfold NestedRouting.routing
    dsimp only
    rw [BrowserUrl.told_resume resumed]
    exact .progresses (List.forall₂_same.mpr fun _ _ => ⟨rfl, rfl, rfl, id⟩)
  | rerun =>
    rw [NestedRouting.step] at moved
    split at moved
    next =>
      cases moved
      exact NestedRouting.rebuild_move
    next => cases moved
  | advance number index stage =>
    cases moved
    exact .progresses (NestedRouting.progress_update fun _ => NestedNavigation.advance_progress)
  | abort number =>
    cases moved
    exact .progresses (NestedRouting.progress_update fun _ => NestedNavigation.drop_progress)
  | finish number => exact NestedRouting.finish_move moved

/-! ## Both routers -/

/-- A run keeps what the indicator is for. -/
def FlatRouting.Kept {ParamsMap : Type*} [Inhabited ParamsMap]
    (routes : String → Option (RouteMatch ParamsMap)) (transition : Bool) (s : FlatRouting ParamsMap)
    (actions : List FlatAction) : Prop :=
  Meets (FlatRouting.step routes transition) (fun s _ s' => Indicates s.routing s'.routing) s actions

def NestedRouting.Kept (matchRoute : String → Option (List RouteMatchId)) (s : NestedRouting)
    (actions : List NestedAction) : Prop :=
  Meets (NestedRouting.step matchRoute) (fun s _ s' => Indicates s.routing s'.routing) s actions

/-- A task ends only while no later navigation is pending, and no view of the most recent one is loading. -/
def FlatRouting.EndsLast {ParamsMap : Type*} [Inhabited ParamsMap]
    (routes : String → Option (RouteMatch ParamsMap)) (transition : Bool) (s : FlatRouting ParamsMap)
    (actions : List FlatAction) : Prop :=
  Meets (FlatRouting.step routes transition)
    (fun s action _ => ∀ entry ∈ s.endsTask action, s.routing.Last entry) s actions

def NestedRouting.EndsLast (matchRoute : String → Option (List RouteMatchId)) (s : NestedRouting)
    (actions : List NestedAction) : Prop :=
  Meets (NestedRouting.step matchRoute)
    (fun s action _ => ∀ number ∈ action.endsTask, s.routing.Last number) s actions

theorem isRouting_iff {ParamsMap : Type*} [Inhabited ParamsMap]
    (routes : String → Option (RouteMatch ParamsMap)) (transition ready : Bool) (flat : List FlatAction)
    (matchRoute : String → Option (List RouteMatchId)) (nested : List NestedAction) (url : Url) :
    (FlatRouting.Kept routes transition (.build routes ready url) flat ↔
        FlatRouting.EndsLast routes transition (.build routes ready url) flat) ∧
      (NestedRouting.Kept matchRoute (.build matchRoute url) nested ↔
        NestedRouting.EndsLast matchRoute (.build matchRoute url) nested) := by
  constructor
  · refine indicates_iff (fun _ _ _ => FlatRouting.step_move) (fun on => ?_) (fun _ last => ?_) flat
    · cases on
    · cases last
  · refine indicates_iff (fun _ _ _ => NestedRouting.step_move) (fun on => ?_) (fun _ last => ?_) nested
    · cases on
    · cases last

/-- Three routes, each with one outlet. -/
def threeRoutes (path : String) : Option (List RouteMatchId) :=
  if path = "/a" then some [1] else if path = "/b" then some [2] else if path = "/c" then some [3] else none

/-- The load of `/b` is aborted by the navigation to `/c`. -/
def aborting : List NestedAction :=
  [.click (urlAt "/b"), .rerun, .click (urlAt "/c"), .rerun, .abort 0, .finish 0]

/-- The load of `/a` ends while that of `/b` is pending. -/
def endingEarly : List FlatAction :=
  [.click (urlAt "/a"), .rerun, .start 1, .click (urlAt "/b"), .rerun, .start 2, .finish 0]

theorem not_kept_aborting : ¬NestedRouting.Kept threeRoutes (.build threeRoutes (urlAt "/a")) aborting := by
  intro kept
  obtain ⟨-, kept⟩ := kept _ rfl
  obtain ⟨-, kept⟩ := kept _ rfl
  obtain ⟨-, kept⟩ := kept _ rfl
  obtain ⟨-, kept⟩ := kept _ rfl
  obtain ⟨-, kept⟩ := kept _ rfl
  obtain ⟨last, -⟩ := kept _ rfl
  exact Bool.false_ne_true (last.shown _ rfl rfl rfl)

theorem not_kept_endingEarly :
    ¬FlatRouting.Kept twoRoutes false (.build twoRoutes true (urlAt "/")) endingEarly := by
  intro kept
  obtain ⟨-, kept⟩ := kept _ rfl
  obtain ⟨-, kept⟩ := kept _ rfl
  obtain ⟨-, kept⟩ := kept _ rfl
  obtain ⟨-, kept⟩ := kept _ rfl
  obtain ⟨-, kept⟩ := kept _ rfl
  obtain ⟨-, kept⟩ := kept _ rfl
  obtain ⟨last, -⟩ := kept _ rfl
  exact Bool.false_ne_true (last.shown _ rfl rfl rfl)

theorem indicator_off_early :
    (¬∀ (matchRoute : String → Option (List RouteMatchId)) url actions,
      NestedRouting.Kept matchRoute (.build matchRoute url) actions) ∧
    ¬∀ (routes : String → Option (RouteMatch Unit)) transition ready url actions,
      FlatRouting.Kept routes transition (.build routes ready url) actions :=
  ⟨fun always => not_kept_aborting (always threeRoutes (urlAt "/a") aborting),
    fun always => not_kept_endingEarly (always twoRoutes false true (urlAt "/") endingEarly)⟩

end Halyard.Router
