import Halyard.Reaches

/-!
# The flat router

`FlatRoutesView::build` and `rebuild` of `router/flat_router.rs`.  A navigation sets the URL, and the
router's effect runs `rebuild` later; the views of routes load in tasks of their own, and end in any
order.  Each build, and each `rebuild` that enters another route, makes signals of its own for the view
that it provides them to: `entry` counts these.

* `flat_router_settles`: while every step finds `Keeps`, the router shows the view of the last URL's route
  once nothing is pending, and that view has the last URL just if the last change of path entered a route.
* `initial_load_unchecked`: the initial load ends after a navigation, and shows its view.
-/

namespace Halyard.Router

structure Url where
  origin : String
  path : String
  search : String
  hash : String
  deriving DecidableEq

/-- `RouteMatchId`. -/
abbrev RouteMatchId := UInt16

/-- What `RouteDefs::match_route` finds. -/
structure RouteMatch (ParamsMap : Type*) where
  id : RouteMatchId
  matched : String
  params : ParamsMap

/-- The signals that a view is provided with. -/
structure Signals (ParamsMap : Type*) where
  params : ParamsMap
  matched : String
  url : Url

/-- The view of a route, or the fallback, with the signals it was built over. -/
structure View where
  route : Option RouteMatchId
  entry : ℕ
  /-- Whether the signals were provided to it. -/
  provided : Bool
  deriving DecidableEq

/-- A view that is loading. -/
structure Load where
  view : View
  /-- The path that must still be the current one; the initial load checks nothing. -/
  spawnedPath : Option String
  /-- The view has loaded and passed its check, and the view transition has yet to call back. -/
  inTransition : Bool := false

/-- `FlatRoutesViewState`, with the URL signal, the tasks that load views, and the page. -/
structure FlatRouter (ParamsMap : Type*) where
  currentUrl : Url
  /-- The URL has been set, and the router has yet to run. -/
  rerun : Bool := false
  /-- What is on the page: nothing, before the initial view has loaded. -/
  view : Option View
  id : Option RouteMatchId
  entry : ℕ := 0
  signals : ℕ → Signals ParamsMap
  path : String
  loads : List Load := []
  /-- The URLs that the router was built and has run with, the last one first. -/
  seen : List Url

section Flat

variable {ParamsMap : Type*} [Inhabited ParamsMap] (routes : String → Option (RouteMatch ParamsMap))

/-! ## The program -/

/-- The route that matches a URL. -/
def routeAt (url : Url) : Option RouteMatchId := (routes url.path).map RouteMatch.id

/-- What the signals of a view hold for a URL. -/
def signalsFor (url : Url) : Signals ParamsMap where
  params := ((routes url.path).map RouteMatch.params).getD default
  matched := ((routes url.path).map RouteMatch.matched).getD ""
  url := url

/-- `FlatRoutesView::build`: the view may be ready at once. -/
def build (ready : Bool) (url : Url) : FlatRouter ParamsMap :=
  let state : FlatRouter ParamsMap :=
    { currentUrl := url
      view := none
      id := routeAt routes url
      signals := fun _ => signalsFor routes url
      path := url.path
      seen := [url] }
  match routes url.path with
  -- the fallback is built without the signals
  | none => { state with view := some { route := none, entry := 0, provided := false } }
  | some found =>
      let view : View := { route := some found.id, entry := 0, provided := true }
      if ready then { state with view := some view }
      else { state with loads := [{ view, spawnedPath := none }] }

/-- `FlatRoutesView::rebuild`. -/
def rebuild (state : FlatRouter ParamsMap) : FlatRouter ParamsMap :=
  let url := state.currentUrl
  let state : FlatRouter ParamsMap := { state with rerun := false, seen := url :: state.seen }
  if url.path = state.path then
    let signals := { state.signals state.entry with url }
    { state with signals := Function.update state.signals state.entry signals }
  else
    let state : FlatRouter ParamsMap := { state with path := url.path }
    let newId := routeAt routes url
    if newId = state.id then
      -- the URL signal is left as it is
      let signals := { signalsFor routes url with url := (state.signals state.entry).url }
      { state with signals := Function.update state.signals state.entry signals }
    else
      let entry : ℕ := state.entry + 1
      let signals : ℕ → Signals ParamsMap := Function.update state.signals entry (signalsFor routes url)
      let state : FlatRouter ParamsMap := { state with id := newId, entry, signals }
      let view : View := { route := newId, entry, provided := true }
      match newId with
      | none => { state with view := some view }
      | some _ => { state with loads := state.loads ++ [{ view, spawnedPath := some url.path }] }

/-- Whether the view of a load goes to the page when the load ends. -/
def FlatRouter.accepts (state : FlatRouter ParamsMap) (load : Load) : Bool :=
  load.inTransition || load.spawnedPath.all (· = state.currentUrl.path)

/-- Whether the view then waits for a view transition: `transition` says that the router asks for these,
and that the browser has them. -/
def Load.waits (transition : Bool) (load : Load) : Bool :=
  transition && !load.inTransition && load.spawnedPath.isSome

/-- The end of a load, or of its wait for the view transition. -/
def finish (transition : Bool) (index : ℕ) (state : FlatRouter ParamsMap) :
    Option (FlatRouter ParamsMap) :=
  (state.loads[index]?).map fun load =>
    if state.accepts load then
      if load.waits transition then
        { state with loads := state.loads.set index { load with inTransition := true } }
      else { state with view := some load.view, loads := state.loads.eraseIdx index }
    else { state with loads := state.loads.eraseIdx index }

inductive Action where
  /-- The URL signal is set. -/
  | navigate (url : Url)
  /-- The router's effect runs. -/
  | rerun
  /-- A load ends. -/
  | finish (index : ℕ)

def step (transition : Bool) (state : FlatRouter ParamsMap) : Action → Option (FlatRouter ParamsMap)
  | .navigate url => some { state with currentUrl := url, rerun := true }
  | .rerun => if state.rerun then some (rebuild routes state) else none
  | .finish index => finish transition index state

/-! ## What is to be shown -/

/-- How often the URLs have entered another route; the last URL comes first. -/
def entries : List Url → ℕ
  | url :: before :: rest =>
      entries (before :: rest) + if routeAt routes url = routeAt routes before then 0 else 1
  | _ => 0

/-- The last of the URLs that has the path of the URL before it, or another route. -/
def lastFollowed : List Url → Option Url
  | url :: before :: rest =>
      if url.path = before.path ∨ routeAt routes url ≠ routeAt routes before then some url
      else lastFollowed (before :: rest)
  | urls => urls.head?

/-- Nothing is pending any more. -/
structure FlatRouter.Settled (state : FlatRouter ParamsMap) : Prop where
  loads : state.loads = []
  rerun : state.rerun = false

/-- The router shows the view of the current URL's route, built when that route was entered last; if
signals were provided to it, they hold what the current URL says. -/
def FlatRouter.ShowsLast (state : FlatRouter ParamsMap) : Prop :=
  ∃ view, state.view = some view ∧ view.route = routeAt routes state.currentUrl ∧
    view.entry = entries routes state.seen ∧
    (view.provided = true → state.signals view.entry = signalsFor routes state.currentUrl)

/-! ## When it is shown -/

/-- The view of the last entry is on the page, or loading. -/
def FlatRouter.Held (state : FlatRouter ParamsMap) : Prop :=
  (∃ view, state.view = some view ∧ view.entry = state.entry) ∨
    ∃ load ∈ state.loads, load.view.entry = state.entry

/-- Once the router has run for the URL, a load of an earlier entry goes to the page only while the last
entry's is pending, and a load of the last entry is accepted; and the router does not stay in a route
whose view has been lost. -/
def Keeps (transition : Bool) (state : FlatRouter ParamsMap) : Action → FlatRouter ParamsMap → Prop
  | .navigate _, _ => True
  | .rerun, _ => routeAt routes state.currentUrl = state.id → state.Held
  | .finish index, _ => ∀ load, state.loads[index]? = some load → state.rerun = false →
      if state.accepts load then
        load.waits transition = true ∨ load.view.entry = state.entry ∨
          ∃ other ∈ state.loads, other.view.entry = state.entry
      else load.view.entry ≠ state.entry

/-! ## Runs -/

/-- The view is of an entry so far, and a view of the last one is that of its route. -/
def FlatRouter.Knows (state : FlatRouter ParamsMap) (view : View) : Prop :=
  view.entry ≤ state.entry ∧ (view.entry = state.entry →
    view.route = state.id ∧ (view.provided = false ↔ state.entry = 0 ∧ state.id = none))

/-- The entries of the views that are on the page or loading. -/
def FlatRouter.live (state : FlatRouter ParamsMap) : List ℕ :=
  state.view.toList.map View.entry ++ state.loads.map fun load => load.view.entry

/-- The router has run with `last`. -/
structure FlatRouter.RanWith (state : FlatRouter ParamsMap) (last : Url) : Prop where
  seen : state.seen.head? = some last
  current : state.rerun = false → state.currentUrl = last
  path : state.path = last.path
  id : state.id = routeAt routes last
  entry : state.entry = entries routes state.seen
  params : (state.signals state.entry).params = (signalsFor routes last).params
  matched : (state.signals state.entry).matched = (signalsFor routes last).matched
  url : lastFollowed routes state.seen = some (state.signals state.entry).url
  view : ∀ view, state.view = some view → state.Knows view
  loads : ∀ load ∈ state.loads, state.Knows load.view
  once : state.live.Nodup

variable {routes} {state state' : FlatRouter ParamsMap} {last : Url}

omit [Inhabited ParamsMap] in
theorem routeAt_congr {url : Url} (same : url.path = last.path) :
    routeAt routes url = routeAt routes last := by
  rw [routeAt, same, routeAt]

theorem signalsFor_congr {url : Url} (same : url.path = last.path) :
    (signalsFor routes url).params = (signalsFor routes last).params ∧
      (signalsFor routes url).matched = (signalsFor routes last).matched := by
  simp [signalsFor, same]

theorem build_ranWith (ready : Bool) (url : Url) : (build routes ready url).RanWith routes url := by
  unfold build
  cases found : routes url.path with
  | none => exact ⟨rfl, fun _ => rfl, rfl, rfl, rfl, rfl, rfl, by simp [lastFollowed, signalsFor],
      by simp [FlatRouter.Knows, routeAt, found], by simp, by simp [FlatRouter.live]⟩
  | some found =>
      cases ready <;>
        exact ⟨rfl, fun _ => rfl, rfl, rfl, rfl, rfl, rfl, by simp [lastFollowed, signalsFor],
          by simp_all [FlatRouter.Knows, routeAt], by simp_all [FlatRouter.Knows, routeAt],
          by simp [FlatRouter.live]⟩

theorem build_held (ready : Bool) (url : Url) : (build routes ready url).Held := by
  unfold build
  cases routes url.path with
  | none => exact Or.inl ⟨_, rfl, rfl⟩
  | some found =>
      cases ready with
      | true => exact Or.inl ⟨_, rfl, rfl⟩
      | false => exact Or.inr ⟨_, List.mem_singleton_self _, rfl⟩

/-- Views and loads come and go, and the rest stays. -/
theorem FlatRouter.RanWith.swap (ran : state.RanWith routes last) {view : Option View}
    {loads : List Load} (viewOf : ∀ v, view = some v → state.Knows v)
    (loadsOf : ∀ load ∈ loads, state.Knows load.view)
    (once : FlatRouter.live { state with view, loads } |>.Nodup) :
    FlatRouter.RanWith routes { state with view, loads } last where
  seen := ran.seen
  current := ran.current
  path := ran.path
  id := ran.id
  entry := ran.entry
  params := ran.params
  matched := ran.matched
  url := ran.url
  view := viewOf
  loads := loadsOf
  once := once

/-! ### Running again -/

theorem FlatRouter.RanWith.seen_eq (ran : state.RanWith routes last) :
    ∃ before, state.seen = last :: before := by
  have head := ran.seen
  cases seen : state.seen with
  | nil => simp [seen] at head
  | cons url before =>
      rw [seen, List.head?_cons, Option.some.injEq] at head
      exact ⟨before, by rw [head]⟩

omit [Inhabited ParamsMap] in
/-- After another entry a view from before is still known. -/
theorem older_knows {view : View} (knows : state.Knows view) (entry : state'.entry = state.entry + 1) :
    state'.Knows view := by
  have bound := knows.1
  refine ⟨by omega, fun same => ?_⟩
  omega

theorem FlatRouter.RanWith.live_le (ran : state.RanWith routes last) :
    ∀ entry ∈ state.live, entry ≤ state.entry := by
  intro entry member
  rcases List.mem_append.1 member with shown | loading
  · rcases List.mem_map.1 shown with ⟨view, here, rfl⟩
    exact (ran.view view (Option.mem_toList.1 here)).1
  · rcases List.mem_map.1 loading with ⟨load, here, rfl⟩
    exact (ran.loads load here).1

/-- The router runs with the URL it is at, and knows the views it knew. -/
theorem rebuild_ranWith (ran : state.RanWith routes last) :
    (rebuild routes state).RanWith routes state.currentUrl := by
  rcases ran.seen_eq with ⟨before, seen⟩
  have counted : ∀ {n : ℕ}, (if routeAt routes state.currentUrl = routeAt routes last then 0 else 1) = n →
      state.entry + n = entries routes (state.currentUrl :: state.seen) := by
    intro n step
    rw [seen, entries, step, ran.entry, seen]
  unfold rebuild
  by_cases samePath : state.currentUrl.path = state.path
  · have sameRoute : routeAt routes state.currentUrl = routeAt routes last :=
      routeAt_congr (samePath.trans ran.path)
    have same : (signalsFor routes state.currentUrl).params = (signalsFor routes last).params ∧
        (signalsFor routes state.currentUrl).matched = (signalsFor routes last).matched :=
      signalsFor_congr (samePath.trans ran.path)
    simp only [if_pos samePath]
    refine ⟨rfl, fun _ => rfl, samePath.symm, ran.id.trans sameRoute.symm, ?_, ?_, ?_, ?_, ran.view,
      ran.loads, ran.once⟩
    · exact counted (by rw [if_pos sameRoute])
    · simpa using ran.params.trans same.1.symm
    · simpa using ran.matched.trans same.2.symm
    · simp [seen, lastFollowed, samePath.trans ran.path]
  · have otherPath : state.currentUrl.path ≠ last.path := fun same => samePath (same.trans ran.path.symm)
    simp only [if_neg samePath]
    by_cases sameRoute : routeAt routes state.currentUrl = state.id
    · have stays := sameRoute.trans ran.id
      simp only [if_pos sameRoute]
      refine ⟨rfl, fun _ => rfl, rfl, sameRoute.symm, ?_, by simp, by simp, ?_, ran.view,
        ran.loads, ran.once⟩
      · exact counted (by rw [if_pos stays])
      · -- the URL signal is left as it is
        rw [seen, lastFollowed, if_neg (by simp [otherPath, stays]), ← seen, ran.url]
        simp
    · have enters : routeAt routes state.currentUrl ≠ routeAt routes last := fun same =>
        sameRoute (same.trans ran.id.symm)
      simp only [if_neg sameRoute]
      have entry := counted (if_neg enters)
      have new : state.entry + 1 ∉ state.live := fun member => by
        have := ran.live_le _ member
        omega
      have url : lastFollowed routes (state.currentUrl :: state.seen) = some state.currentUrl := by
        rw [seen, lastFollowed, if_pos (Or.inr enters)]
      cases found : routeAt routes state.currentUrl with
      | none =>
          refine ⟨rfl, fun _ => rfl, rfl, found.symm, entry, ?_, ?_, ?_, ?_, fun load member => ?_, ?_⟩
          · simp
          · simp
          · simpa [signalsFor] using url
          · simp [FlatRouter.Knows]
          · exact older_knows (ran.loads load member) rfl
          · have later := List.Nodup.sublist (List.sublist_append_right _ _) ran.once
            exact List.nodup_cons.2 ⟨fun member => new (List.mem_append_right _ member), later⟩
      | some id =>
          refine ⟨rfl, fun _ => rfl, rfl, found.symm, entry, ?_, ?_, ?_, fun view shown => ?_,
            fun load member => ?_, ?_⟩
          · simp
          · simp
          · simpa [signalsFor] using url
          · exact older_knows (ran.view view shown) rfl
          · rcases List.mem_append.1 member with old | new
            · exact older_knows (ran.loads load old) rfl
            · rw [List.mem_singleton.1 new]
              simp [FlatRouter.Knows]
          · rw [FlatRouter.live, List.map_append, ← List.append_assoc]
            refine List.nodup_append.2 ⟨ran.once, List.nodup_singleton _, fun a member b single same => ?_⟩
            have last : b = state.entry + 1 := List.mem_singleton.1 single
            exact new (last ▸ same ▸ member)

/-- After the router has run, the view of the last entry is held, unless it stays in a route whose view
is lost. -/
theorem rebuild_held (held : routeAt routes state.currentUrl = state.id → state.Held)
    (ran : state.RanWith routes last) : (rebuild routes state).Held := by
  unfold rebuild
  by_cases samePath : state.currentUrl.path = state.path
  · simp only [if_pos samePath]
    exact held ((routeAt_congr (samePath.trans ran.path)).trans ran.id.symm)
  · simp only [if_neg samePath]
    by_cases sameRoute : routeAt routes state.currentUrl = state.id
    · simp only [if_pos sameRoute]
      exact held sameRoute
    · simp only [if_neg sameRoute]
      cases routeAt routes state.currentUrl with
      | none => exact Or.inl ⟨_, rfl, rfl⟩
      | some id => exact Or.inr ⟨_, List.mem_append_right _ (List.mem_singleton_self _), rfl⟩

/-! ### The end of a load -/

omit [Inhabited ParamsMap] in
/-- A view that is accepted goes to the page, or waits for its transition; another is dropped. -/
theorem finish_cases {transition : Bool} {index : ℕ}
    (moved : finish transition index state = some state') :
    ∃ load, state.loads[index]? = some load ∧
      (state.accepts load = true ∧ load.waits transition = false ∧
          state' = { state with view := some load.view, loads := state.loads.eraseIdx index } ∨
        state.accepts load = true ∧ load.waits transition = true ∧
          state' = { state with loads := state.loads.set index { load with inTransition := true } } ∨
        state.accepts load = false ∧ state' = { state with loads := state.loads.eraseIdx index }) := by
  rcases Option.map_eq_some_iff.1 moved with ⟨load, here, after⟩
  refine ⟨load, here, ?_⟩
  cases accepted : state.accepts load with
  | false =>
      rw [accepted, if_neg Bool.false_ne_true] at after
      exact Or.inr (Or.inr ⟨rfl, after.symm⟩)
  | true =>
      rw [accepted, if_pos rfl] at after
      cases waits : load.waits transition with
      | true =>
          rw [waits, if_pos rfl] at after
          exact Or.inr (Or.inl ⟨rfl, rfl, after.symm⟩)
      | false =>
          rw [waits, if_neg Bool.false_ne_true] at after
          exact Or.inl ⟨rfl, rfl, after.symm⟩

omit [Inhabited ParamsMap] in
theorem entries_perm {index : ℕ} {load : Load} (here : state.loads[index]? = some load) :
    (load.view.entry :: (state.loads.eraseIdx index).map fun load => load.view.entry).Perm
      (state.loads.map fun load => load.view.entry) := by
  rcases List.getElem?_eq_some_iff.1 here with ⟨bound, rfl⟩
  exact (List.getElem_cons_eraseIdx_perm bound).map fun load => load.view.entry

theorem finish_ranWith {transition : Bool} {index : ℕ} (ran : state.RanWith routes last)
    (moved : finish transition index state = some state') : state'.RanWith routes last := by
  rcases finish_cases moved with ⟨load, here, cases⟩
  have known := ran.loads load (List.mem_of_getElem? here)
  have others : ∀ other ∈ state.loads.eraseIdx index, state.Knows other.view := fun other member =>
    ran.loads other (List.mem_of_mem_eraseIdx member)
  have loading : (state.loads.map fun load => load.view.entry).Nodup :=
    ran.once.sublist (List.sublist_append_right _ _)
  rcases cases with ⟨-, -, rfl⟩ | ⟨-, -, rfl⟩ | ⟨-, rfl⟩
  · refine ran.swap (fun view shown => ?_) others ((entries_perm here).nodup_iff.2 loading)
    rwa [← Option.some.inj shown]
  · refine ran.swap ran.view (fun other member => ?_) ?_
    · rcases List.mem_or_eq_of_mem_set member with old | rfl
      · exact ran.loads other old
      · exact known
    · have same : ((state.loads.set index { load with inTransition := true }).map
          fun load => load.view.entry) = state.loads.map fun load => load.view.entry := by
        rcases List.getElem?_eq_some_iff.1 here with ⟨bound, rfl⟩
        rw [List.map_set, ← List.getElem_map fun load : Load => load.view.entry]
        exact List.set_getElem_self (by simpa using bound)
      rw [FlatRouter.live, same]
      exact ran.once
  · have fewer : ((state.loads.eraseIdx index).map fun load => load.view.entry).Sublist
        (state.loads.map fun load => load.view.entry) := (List.eraseIdx_sublist _ _).map _
    exact ran.swap ran.view others (ran.once.sublist (fewer.append_left _))

theorem step_ranWith {transition : Bool} {action : Action} (ran : state.RanWith routes last)
    (moved : step routes transition state action = some state') : ∃ last', state'.RanWith routes last' := by
  cases action with
  | navigate url =>
      cases moved
      exact ⟨last, ran.seen, fun ran => Bool.noConfusion ran, ran.path, ran.id, ran.entry, ran.params,
        ran.matched, ran.url, ran.view, ran.loads, ran.once⟩
  | rerun =>
      rw [step] at moved
      split at moved
      next =>
          cases moved
          exact ⟨_, rebuild_ranWith ran⟩
      next => cases moved
  | finish index => exact ⟨last, finish_ranWith ran moved⟩

omit [Inhabited ParamsMap] in
/-- A load of the last entry other than the one that ends is still there. -/
theorem erase_held {index : ℕ} {load : Load} (here : state.loads[index]? = some load)
    (stale : load.view.entry ≠ state.entry) {other : Load} (member : other ∈ state.loads)
    (last : other.view.entry = state.entry) : other ∈ state.loads.eraseIdx index := by
  rcases List.mem_iff_getElem?.1 member with ⟨i, there⟩
  refine List.mem_eraseIdx_iff_getElem?.2 ⟨i, fun same => stale ?_, there⟩
  rw [same, here, Option.some.injEq] at there
  rw [there, last]

omit [Inhabited ParamsMap] in
theorem finish_held {transition : Bool} {index : ℕ} (held : state.Held) (ran : state.rerun = false)
    (keeps : Keeps routes transition state (.finish index) state')
    (moved : finish transition index state = some state') : state'.Held := by
  rcases finish_cases moved with ⟨load, here, cases⟩
  have ends := keeps load here ran
  rcases cases with ⟨accepted, goes, rfl⟩ | ⟨-, -, rfl⟩ | ⟨refused, rfl⟩
  · rw [if_pos accepted] at ends
    by_cases current : load.view.entry = state.entry
    · exact Or.inl ⟨_, rfl, current⟩
    · have ends := ends.resolve_left (by rw [goes]; exact Bool.false_ne_true)
      rcases ends.resolve_left current with ⟨other, member, last⟩
      exact Or.inr ⟨other, erase_held here current member last, last⟩
  · rcases held with shown | ⟨other, member, last⟩
    · exact Or.inl shown
    · rcases List.mem_iff_getElem?.1 member with ⟨i, there⟩
      by_cases same : i = index
      · rw [same, here, Option.some.injEq] at there
        have bound := (List.getElem?_eq_some_iff.1 here).1
        exact Or.inr ⟨_, List.mem_set bound _, by rw [there]; exact last⟩
      · refine Or.inr ⟨other, List.mem_of_getElem? (i := i) ?_, last⟩
        rw [List.getElem?_set_ne (Ne.symm same), there]
  · rw [if_neg (by rw [refused]; exact Bool.false_ne_true)] at ends
    rcases held with shown | ⟨other, member, last⟩
    · exact Or.inl shown
    · exact Or.inr ⟨other, erase_held here ends member last, last⟩

/-- One step that `Keeps` allows. -/
theorem step_settles {transition : Bool} {action : Action}
    (inv : (∃ last, state.RanWith routes last) ∧ (state.rerun = false → state.Held))
    (moved : step routes transition state action = some state') (keeps : Keeps routes transition state action state') :
    (∃ last, state'.RanWith routes last) ∧ (state'.rerun = false → state'.Held) := by
  rcases inv with ⟨⟨last, ran⟩, held⟩
  refine ⟨step_ranWith ran moved, ?_⟩
  cases action with
  | navigate url =>
      cases moved
      exact fun ran => Bool.noConfusion ran
  | rerun =>
      rw [step] at moved
      split at moved
      next =>
          cases moved
          exact fun _ => rebuild_held keeps ran
      next => cases moved
  | finish index =>
      intro ran'
      have waits : state.rerun = false := by
        rcases finish_cases moved with ⟨load, -, ⟨-, -, rfl⟩ | ⟨-, -, rfl⟩ | ⟨-, rfl⟩⟩ <;> exact ran'
      exact finish_held (held waits) waits keeps moved

variable (routes) in
/-- Whatever the routes, the initial URL, the navigations and the order in which the loads end: if every
step finds `Keeps`, then once nothing is pending the router shows the view of the current URL's route,
built when that route was entered last, with the URL's params and matched part.  Signals that were
provided to it hold the URL too just if the URL was the last one to be followed. -/
theorem flat_router_settles (transition ready : Bool) (url : Url) (actions : List Action)
    (run : exec (step routes transition) (build routes ready url) actions = some state)
    (keeps : Meets (step routes transition) (Keeps routes transition) (build routes ready url) actions)
    (settled : state.Settled) :
    (∃ view, state.view = some view ∧ view.route = routeAt routes state.currentUrl ∧
      view.entry = entries routes state.seen ∧
      (state.signals view.entry).params = (signalsFor routes state.currentUrl).params ∧
      (state.signals view.entry).matched = (signalsFor routes state.currentUrl).matched) ∧
    (state.ShowsLast routes ↔ lastFollowed routes state.seen = some state.currentUrl ∨
      entries routes state.seen = 0 ∧ routeAt routes state.currentUrl = none) := by
  have reached := Reaches.of_exec .start actions run keeps
  rcases reached.invariant (P := fun state : FlatRouter ParamsMap =>
      (∃ last, state.RanWith routes last) ∧ (state.rerun = false → state.Held))
    ⟨⟨url, build_ranWith ready url⟩, fun _ => build_held ready url⟩
    fun _ _ _ inv moved keeps => step_settles inv moved keeps with ⟨⟨last, ran⟩, held⟩
  obtain rfl := ran.current settled.rerun
  rcases held settled.rerun with ⟨view, shown, entry⟩ | ⟨load, member, -⟩
  · have route := ((ran.view view shown).2 entry)
    refine ⟨⟨view, shown, route.1.trans ran.id, entry.trans ran.entry, entry ▸ ran.params,
      entry ▸ ran.matched⟩, ?_⟩
    have provided : view.provided = false ↔
        entries routes state.seen = 0 ∧ routeAt routes state.currentUrl = none := by
      rw [← ran.entry, ← ran.id]
      exact route.2
    constructor
    · rintro ⟨other, same, -, -, holds⟩
      obtain rfl := Option.some.inj (shown.symm.trans same)
      cases given : view.provided with
      | false => exact Or.inr (provided.1 given)
      | true =>
          left
          rw [ran.url, ← entry, holds given, signalsFor]
    · intro followed
      refine ⟨view, shown, route.1.trans ran.id, entry.trans ran.entry, fun given => ?_⟩
      rcases followed with followed | initial
      · have url := Option.some.inj (ran.url.symm.trans followed)
        rw [entry]
        calc state.signals state.entry
            = ⟨(state.signals state.entry).params, (state.signals state.entry).matched,
                (state.signals state.entry).url⟩ := rfl
          _ = signalsFor routes state.currentUrl := by rw [ran.params, ran.matched, url]; rfl
      · rw [provided.2 initial] at given
        cases given
  · rw [settled.loads] at member
    cases member

/-! ## When it is lost -/

omit [Inhabited ParamsMap] in
/-- A view that is lost is not found again when loads end. -/
theorem finish_lost {transition : Bool} {index : ℕ} (lost : ¬ state.Held)
    (moved : finish transition index state = some state') : ¬ state'.Held := by
  rcases finish_cases moved with ⟨load, here, cases⟩
  have stale : load.view.entry ≠ state.entry := fun same =>
    lost (Or.inr ⟨load, List.mem_of_getElem? here, same⟩)
  rcases cases with ⟨-, -, rfl⟩ | ⟨-, -, rfl⟩ | ⟨-, rfl⟩
  · rintro (⟨view, shown, entry⟩ | ⟨other, member, entry⟩)
    · exact stale (by rw [Option.some.inj shown]; exact entry)
    · exact lost (Or.inr ⟨other, List.mem_of_mem_eraseIdx member, entry⟩)
  · rintro (shown | ⟨other, member, entry⟩)
    · exact lost (Or.inl shown)
    · rcases List.mem_or_eq_of_mem_set member with old | rfl
      · exact lost (Or.inr ⟨other, old, entry⟩)
      · exact stale entry
  · rintro (shown | ⟨other, member, entry⟩)
    · exact lost (Or.inl shown)
    · exact lost (Or.inr ⟨other, List.mem_of_mem_eraseIdx member, entry⟩)

theorem not_keeps_lost {transition : Bool} {action : Action} (ran : state.RanWith routes last)
    (moved : step routes transition state action = some state')
    (breaks : ¬ Keeps routes transition state action state') : ¬ state'.Held := by
  cases action with
  | navigate url => exact absurd trivial breaks
  | rerun =>
      rw [step] at moved
      split at moved
      next =>
          cases moved
          rw [Keeps, Classical.not_imp] at breaks
          rcases breaks with ⟨stays, lost⟩
          unfold rebuild
          by_cases samePath : state.currentUrl.path = state.path
          · simp only [if_pos samePath]
            exact lost
          · simp only [if_neg samePath, if_pos stays]
            exact lost
      next => cases moved
  | finish index =>
      rw [step] at moved
      rcases finish_cases moved with ⟨load, here, cases⟩
      have bad : ¬ if state.accepts load then
          load.waits transition = true ∨ load.view.entry = state.entry ∨
            ∃ other ∈ state.loads, other.view.entry = state.entry
          else load.view.entry ≠ state.entry := by
        intro good
        refine breaks fun other there _ => ?_
        rw [here, Option.some.injEq] at there
        rwa [← there]
      rcases cases with ⟨accepted, goes, rfl⟩ | ⟨accepted, waits, rfl⟩ | ⟨refused, rfl⟩
      · rw [if_pos accepted, goes, not_or, not_or] at bad
        rcases bad with ⟨-, stale, none⟩
        rintro (⟨view, shown, entry⟩ | ⟨other, member, entry⟩)
        · exact stale (by rw [Option.some.inj shown]; exact entry)
        · exact none ⟨other, List.mem_of_mem_eraseIdx member, entry⟩
      · rw [if_pos accepted, waits] at bad
        exact absurd (Or.inl rfl) bad
      · rw [if_neg (by rw [refused]; exact Bool.false_ne_true), not_not] at bad
        have loading : (state.loads.map fun load => load.view.entry).Nodup :=
          ran.once.sublist (List.sublist_append_right _ _)
        have rest := (List.nodup_cons.1 ((entries_perm here).nodup_iff.2 loading)).1
        rintro (⟨view, shown, entry⟩ | ⟨other, member, entry⟩)
        · refine (List.nodup_append.1 ran.once).2.2 view.entry ?_ load.view.entry ?_ (entry.trans bad.symm)
          · exact List.mem_map_of_mem (Option.mem_toList.2 shown)
          · exact List.mem_map_of_mem (f := fun load : Load => load.view.entry) (List.mem_of_getElem? here)
        · exact rest (List.mem_map.2 ⟨other, member, entry.trans bad.symm⟩)

theorem exec_lost {transition : Bool} {indices : List ℕ} (ran : state.RanWith routes last)
    (lost : ¬ state.Held) (run : exec (step routes transition) state (indices.map Action.finish) = some state') :
    state'.RanWith routes last ∧ ¬ state'.Held := by
  induction indices generalizing state with
  | nil => exact Option.some.inj run ▸ ⟨ran, lost⟩
  | cons index rest ih =>
      rcases Option.bind_eq_some_iff.1 run with ⟨next, moved, run⟩
      exact ih (finish_ranWith ran moved) (finish_lost lost moved) run

variable (routes) in
/-- A step that `Keeps` does not allow loses the view: when the loads then end, in any order, the router
does not show what it should. -/
theorem flat_router_lost (transition ready : Bool) (url : Url) (actions : List Action)
    (run : exec (step routes transition) (build routes ready url) actions = some state) (action : Action)
    (moved : step routes transition state action = some state')
    (breaks : ¬ Keeps routes transition state action state') (indices : List ℕ)
    {after : FlatRouter ParamsMap}
    (ends : exec (step routes transition) state' (indices.map Action.finish) = some after) :
    ¬ after.ShowsLast routes := by
  have reached := Reaches.of_exec .start actions run (meets_true _ actions)
  rcases reached.invariant (P := fun state : FlatRouter ParamsMap => ∃ last, state.RanWith routes last)
    ⟨url, build_ranWith ready url⟩ (fun _ _ _ ran moved _ => ran.elim fun _ ran => step_ranWith ran moved)
    with ⟨last, ran⟩
  rcases step_ranWith ran moved with ⟨last', ran'⟩
  rcases exec_lost ran' (not_keeps_lost ran moved breaks) ends with ⟨ran'', lost⟩
  rintro ⟨view, shown, -, entry, -⟩
  exact lost (Or.inl ⟨view, shown, entry.trans ran''.entry.symm⟩)

end Flat

/-! ## A page with two routes -/

/-- The routes `/a` and `/b`, with no params. -/
def twoRoutes (path : String) : Option (RouteMatch Unit) :=
  if path = "/a" then some { id := 1, matched := "/a", params := () }
  else if path = "/b" then some { id := 2, matched := "/b", params := () }
  else none

def urlAt (path : String) : Url := { origin := "", path, search := "", hash := "" }

/-- The page is loaded at `/a`; then the user goes to `/b`, whose view loads first. -/
def leavesEarly : List Action := [.navigate (urlAt "/b"), .rerun, .finish 1, .finish 0]

/-- The initial load ends last, and puts the view of `/a` on the page. -/
theorem initial_load_unchecked :
    ∃ state, exec (step twoRoutes false) (build twoRoutes false (urlAt "/a")) leavesEarly = some state ∧
      state.Settled ∧ ¬ state.ShowsLast twoRoutes := by
  refine ⟨_, rfl, ⟨rfl, rfl⟩, ?_⟩
  rintro ⟨view, shown, route, -⟩
  cases shown
  exact absurd route (by decide)

/-- `/b` loads after `/a` has. -/
theorem flat_router_settles_twoRoutes :
    ∃ state, exec (step twoRoutes false) (build twoRoutes true (urlAt "/a"))
        [.navigate (urlAt "/b"), .rerun, .finish 0] = some state ∧ state.ShowsLast twoRoutes := by
  refine ⟨_, rfl, ?_⟩
  refine (flat_router_settles twoRoutes false true (urlAt "/a")
    [.navigate (urlAt "/b"), .rerun, .finish 0] rfl ?_ ⟨rfl, rfl⟩).2.2 (Or.inl (by decide))
  refine fun _ moved => ⟨trivial, ?_⟩
  cases moved
  refine fun _ moved => ⟨fun same => absurd same (by decide), ?_⟩
  cases moved
  refine fun _ moved => ⟨?_, trivial⟩
  intro load here _
  cases here
  exact Or.inr (Or.inl rfl)

end Halyard.Router
