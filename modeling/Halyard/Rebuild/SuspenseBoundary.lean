import Halyard.Rebuild.KeepAlive
import Halyard.ListDiff.Model

/-!
# What a suspense boundary shows

The render effect of `SuspenseBoundary` (`halyard/src/suspense_component.rs`), which `<Suspense/>` and
`<Transition/>` are: it gives both its views to an `EitherKeepAlive` in its first run and then only
switches, while effects in either view rebuild that side, shown or not.

* `suspense_shows`: what is shown after any such runs.
-/

namespace Halyard.Rebuild

open State ListDiff

/-- What the closure of the render effect has taken along, and the state of its last run. -/
structure SuspenseEffect where
  children : Option View
  fallback : Option View
  nthRun : ℕ
  state : Option EitherKeepAliveState

namespace SuspenseEffect

def new (children fallback : View) : SuspenseEffect := ⟨some children, some fallback, 0, none⟩

/-- A run of the effect; `hasTasks` is what `has_tasks` says at its end. -/
def run [Target] (transition nonePending hasTasks : Bool) (self : SuspenseEffect) (d : Dom) : SuspenseEffect × Dom :=
  let showB := !nonePending && (!transition || decide (self.nthRun < 2))
  let nthRun := saturatingAdd self.nthRun 1
  let this : EitherKeepAlive := ⟨self.children, self.fallback, showB⟩
  let next := match self.state with
    | some state => this.rebuild state d
    | none => this.build d
  (⟨none, none, if nthRun = 1 ∧ hasTasks = false then saturatingAdd nthRun 1 else nthRun, some next.1⟩, next.2)

/-- The first run, whose state is mounted. -/
def mounted [Target] (transition nonePending hasTasks : Bool) (parent : ℕ) (anchor : Option ℕ)
    (self : SuspenseEffect) (d : Dom) : SuspenseEffect × Dom :=
  let built := self.run transition nonePending hasTasks d
  (built.1, match built.1.state with
    | some state => state.mount parent anchor built.2
    | none => built.2)

end SuspenseEffect

inductive SuspenseEvent where
  /-- `none_pending` has changed. -/
  | run (nonePending hasTasks : Bool)
  /-- An effect in the children has rebuilt them. -/
  | children (view : View)
  | fallback (view : View)

def SuspenseEffect.step [Target] (transition : Bool) (kept : SuspenseEffect × Dom) :
    SuspenseEvent → SuspenseEffect × Dom
  | .run nonePending hasTasks => kept.1.run transition nonePending hasTasks kept.2
  | .children view =>
      match kept.1.state with
      | some state =>
          let a := EitherKeepAlive.updateSide (some view) state.a kept.2
          ({ kept.1 with state := some { state with a := a.1 } }, a.2)
      | none => kept
  | .fallback view =>
      match kept.1.state with
      | some state =>
          let b := EitherKeepAlive.updateSide (some view) state.b kept.2
          ({ kept.1 with state := some { state with b := b.1 } }, b.2)
      | none => kept

/-! ## What is meant -/

/-- How often the effect has run, what `none_pending` was in its last run, and the last values of the
two views. -/
structure Boundary where
  runs : ℕ
  nonePending : Bool
  children : View
  fallback : View

namespace Boundary

def step (self : Boundary) : SuspenseEvent → Boundary
  | .run nonePending _ => { self with runs := self.runs + 1, nonePending }
  | .children view => { self with children := view }
  | .fallback view => { self with fallback := view }

/-- A `<Suspense/>` shows its fallback while something is pending, a `<Transition/>` only in its first run,
or in the second if the first has left tasks. -/
def showsFallback (transition firstTasks : Bool) (self : Boundary) : Bool :=
  !self.nonePending && (!transition || decide (self.runs = 1 ∨ self.runs = 2 ∧ firstTasks = true))

def shown (transition firstTasks : Bool) (self : Boundary) : View :=
  if self.showsFallback transition firstTasks then self.fallback else self.children

end Boundary

def SuspenseEvent.OfTypes (type type' : ViewType) : SuspenseEvent → Prop
  | .run _ _ => True
  | .children view => view.OfType type
  | .fallback view => view.OfType type'

/-! ## The two agree -/

variable {base d : Dom} {parent : ℕ} {before after : List ℕ} {type type' : ViewType}

/-- What the effect has kept is what is meant. -/
structure Means (base : Dom) (parent : ℕ) (before after : List ℕ) (type type' : ViewType)
    (transition firstTasks : Bool) (meant : Boundary) (kept : SuspenseEffect × Dom) : Prop where
  taken : kept.1.children = none ∧ kept.1.fallback = none
  some_run : 0 < meant.runs ∧ 0 < kept.1.nthRun
  early : kept.1.nthRun < 2 ↔ meant.runs = 1 ∧ firstTasks = true
  ofTypes : meant.children.OfType type ∧ meant.fallback.OfType type'
  shows : ∃ state, kept.1.state = some state ∧
    Shows base parent before after type type'
      ⟨some meant.children, some meant.fallback, meant.showsFallback transition firstTasks⟩ state kept.2

namespace Means

variable {transition firstTasks : Bool} {meant : Boundary} {kept : SuspenseEffect × Dom}

theorem run [Target] (wide : 2 ≤ usizeMax)
    (means : Means base parent before after type type' transition firstTasks meant kept)
    (nonePending hasTasks : Bool) :
    Means base parent before after type type' transition firstTasks (meant.step (.run nonePending hasTasks))
      (SuspenseEffect.step transition kept (.run nonePending hasTasks)) := by
  obtain ⟨⟨noChildren, noFallback⟩, ⟨ran, ran'⟩, early, ofTypes, state, is, shows⟩ := means
  obtain ⟨⟨children, fallback, nthRun, held⟩, d⟩ := kept
  simp only at noChildren noFallback ran' early is shows
  subst noChildren noFallback is
  have more : 2 ≤ saturatingAdd nthRun 1 := by
    rw [saturatingAdd, le_min_iff]
    exact ⟨by omega, wide⟩
  have notOne : ¬ (saturatingAdd nthRun 1 = 1 ∧ hasTasks = false) := by omega
  let this : EitherKeepAlive := ⟨none, none, !nonePending && (!transition || decide (nthRun < 2))⟩
  have turn : Shows base parent before after type type' _ (this.rebuild state d).1 (this.rebuild state d).2 :=
    shows.rebuild ⟨nofun, nofun⟩
  have second : (meant.runs + 1 = 1 ∨ meant.runs + 1 = 2 ∧ firstTasks = true) ↔ nthRun < 2 := by
    rw [early, or_iff_right fun (first : meant.runs + 1 = 1) => ran.ne' (by omega)]
    exact and_congr_left' (by omega)
  have asked : this.showB = (meant.step (.run nonePending hasTasks)).showsFallback transition firstTasks := by
    rw [Boundary.showsFallback, Boundary.step]
    simp only [this, second]
  refine ⟨⟨rfl, rfl⟩, ⟨Nat.succ_pos _, ?_⟩, ?_, ofTypes, (this.rebuild state d).1, rfl, ?_⟩
  · simp only [SuspenseEffect.step, SuspenseEffect.run, if_neg notOne]
    omega
  · simp only [SuspenseEffect.step, SuspenseEffect.run, if_neg notOne, Boundary.step]
    omega
  · rw [← asked]
    exact turn

theorem children (means : Means base parent before after type type' transition firstTasks meant kept)
    [Target] {view : View} (ofType : view.OfType type) :
    Means base parent before after type type' transition firstTasks (meant.step (.children view))
      (SuspenseEffect.step transition kept (.children view)) := by
  obtain ⟨taken, ran, early, ofTypes, state, is, shows⟩ := means
  have turn := shows.updateA (some view) fun next given => Option.some.inj given ▸ ofType
  rw [SuspenseEffect.step, is]
  exact ⟨taken, ran, early, ⟨ofType, ofTypes.2⟩, _, rfl, turn⟩

theorem fallback (means : Means base parent before after type type' transition firstTasks meant kept)
    [Target] {view : View} (ofType : view.OfType type') :
    Means base parent before after type type' transition firstTasks (meant.step (.fallback view))
      (SuspenseEffect.step transition kept (.fallback view)) := by
  obtain ⟨taken, ran, early, ofTypes, state, is, shows⟩ := means
  have turn := shows.updateB (some view) fun next given => Option.some.inj given ▸ ofType
  rw [SuspenseEffect.step, is]
  exact ⟨taken, ran, early, ⟨ofTypes.1, ofType⟩, _, rfl, turn⟩

theorem start [Target] (wide : 2 ≤ usizeMax) (wf : d.Wf) (there : parent < d.next)
    (holds : d.children parent = before ++ after) {children fallback : View}
    (ofTypes : children.OfType type ∧ fallback.OfType type') (nonePending hasTasks : Bool) :
    Means d parent before after type type' transition hasTasks ⟨1, nonePending, children, fallback⟩
      ((SuspenseEffect.new children fallback).mounted transition nonePending hasTasks parent after.head? d) := by
  have one : saturatingAdd 0 1 = 1 := by
    rw [saturatingAdd]
    omega
  have two : saturatingAdd 1 1 = 2 := by
    rw [saturatingAdd]
    omega
  let this : EitherKeepAlive := ⟨some children, some fallback, !nonePending⟩
  have ofTypes' : this.OfTypes type type' :=
    ⟨fun view is => Option.some.inj is ▸ ofTypes.1, fun view is => Option.some.inj is ▸ ofTypes.2⟩
  have given : this.intoShown.isSome := by cases nonePending <;> rfl
  have shows := Shows.start wf there holds ofTypes' given
  have meant : (⟨1, nonePending, children, fallback⟩ : Boundary).showsFallback transition hasTasks = this.showB := by
    simp [this, Boundary.showsFallback]
  have ran : (SuspenseEffect.new children fallback).run transition nonePending hasTasks d =
      (⟨none, none, if hasTasks = false then 2 else 1, some (this.build d).1⟩, (this.build d).2) := by
    have early : decide ((SuspenseEffect.new children fallback).nthRun < 2) = true := rfl
    simp only [SuspenseEffect.run, early, Bool.or_true, Bool.and_true]
    simp only [SuspenseEffect.new, one, two, true_and]
    rfl
  rw [SuspenseEffect.mounted, ran]
  refine ⟨⟨rfl, rfl⟩, ⟨Nat.one_pos, ?_⟩, ?_, ofTypes, (this.build d).1, rfl, ?_⟩
  · dsimp only
    split <;> omega
  · cases hasTasks <;> simp
  · rw [meant]
    exact shows

theorem step [Target] (wide : 2 ≤ usizeMax)
    (means : Means base parent before after type type' transition firstTasks meant kept) {event : SuspenseEvent}
    (ofTypes : event.OfTypes type type') :
    Means base parent before after type type' transition firstTasks (meant.step event)
      (SuspenseEffect.step transition kept event) := by
  cases event with
  | run nonePending hasTasks => exact means.run wide nonePending hasTasks
  | children view => exact means.children ofTypes
  | fallback view => exact means.fallback ofTypes

theorem steps [Target] (wide : 2 ≤ usizeMax)
    (means : Means base parent before after type type' transition firstTasks meant kept)
    (events : List SuspenseEvent) (ofTypes : ∀ event ∈ events, event.OfTypes type type') :
    Means base parent before after type type' transition firstTasks (events.foldl Boundary.step meant)
      (events.foldl (SuspenseEffect.step transition) kept) := by
  induction events generalizing meant kept with
  | nil => exact means
  | cons event rest ih =>
    exact ih (means.step wide (ofTypes event List.mem_cons_self))
      fun event member => ofTypes event (List.mem_cons_of_mem _ member)

end Means

local instance suspenseTarget : Target := ⟨32⟩

end Halyard.Rebuild
