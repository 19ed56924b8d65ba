import Halyard.Reaches

/-!
# Error boundaries and the views that report to them

A `Result` view registers its error with the hook that is current when it is built, and clears it when it
is rebuilt or dropped.  The views nested in one another are built, rebuilt and dropped one after another,
each with the hook that is current at the time.

* `Inv.step`: a view that clears its error through the hook that it has registered it with keeps the
  boundaries' maps right.
* `boundaries_right`: so they are throughout a run of such steps.
* `stale_entry`: a view that is dropped under another hook leaves its entry behind.
-/

namespace Halyard.Errors

abbrev ErrorId := ℕ

abbrev BoundaryId := ℕ

abbrev ViewId := ℕ

variable {E : Type}

/-- A view's state: the error that it shows, if it is not its view, the error's id, and the hook that was
current when the state was built. -/
structure ResultState (E : Type) where
  shown : Option E
  error : Option ErrorId
  hook : Option BoundaryId

structure State (E : Type) where
  /-- The error maps of the boundaries. -/
  errors : BoundaryId → ErrorId → Option E
  /-- The shared context's counter. -/
  nextId : ErrorId
  /-- The live views. -/
  views : ViewId → Option (ResultState E)

def State.empty : State E where
  errors _ _ := none
  nextId := 0
  views _ := none

/-- What is done to a view; the result is the error, or `none` for `Ok`. -/
inductive Action (E : Type)
  | build (view : ViewId) (result : Option E)
  | rebuild (view : ViewId) (result : Option E)
  | drop (view : ViewId)

structure Event (E : Type) where
  /-- The hook that is current. -/
  current : Option BoundaryId
  /-- The current owner has a shared context. -/
  shared : Bool
  action : Action E

/-! ## The hook -/

def State.setErrors (s : State E) (b : BoundaryId) (id : ErrorId) (entry : Option E) : State E :=
  { s with errors := Function.update s.errors b (Function.update (s.errors b) id entry) }

/-- A boundary's hook takes the next id of the shared context, and the default one without. -/
def State.throwTo (s : State E) (shared : Bool) (b : BoundaryId) (error : E) : State E × ErrorId :=
  let key := if shared then s.nextId else 0
  ({ s with nextId := if shared then s.nextId + 1 else s.nextId }.setErrors b key (some error), key)

def State.throw (s : State E) (hook : Option BoundaryId) (shared : Bool) (error : E) :
    State E × ErrorId :=
  match hook with
  | some b => s.throwTo shared b error
  | none => (s, 0)

def State.clear (s : State E) (hook : Option BoundaryId) (id : ErrorId) : State E :=
  match hook with
  | some b => s.setErrors b id none
  | none => s

/-! ## The views -/

def State.setView (s : State E) (v : ViewId) (state : Option (ResultState E)) : State E :=
  { s with views := Function.update s.views v state }

def State.build (s : State E) (current : Option BoundaryId) (shared : Bool) (v : ViewId)
    (result : Option E) : State E :=
  match result with
  | none => s.setView v (some ⟨none, none, current⟩)
  | some error =>
      let (s, id) := s.throw current shared error
      s.setView v (some ⟨some error, some id, current⟩)

/-- A rebuild sets the hook that the state was built under, if there was one. -/
def State.rebuild (s : State E) (current : Option BoundaryId) (shared : Bool) (v : ViewId)
    (state : ResultState E) (result : Option E) : State E :=
  let current := state.hook.or current
  match state.shown, result with
  | some _, some new =>
      let s := match state.error with
        | some old => s.clear current old
        | none => s
      let (s, id) := s.throw current shared new
      s.setView v (some { state with shown := some new, error := some id })
  | none, none => s
  | none, some error =>
      let (s, id) := s.throw current shared error
      s.setView v (some { state with shown := some error, error := some id })
  | some _, none =>
      let s := match state.error with
        | some error => s.clear current error
        | none => s
      s.setView v (some { state with shown := none, error := none })

/-- Dropping a state clears its error from the hook that is current. -/
def State.drop (s : State E) (current : Option BoundaryId) (v : ViewId) (state : ResultState E) :
    State E :=
  let s := match state.error with
    | some error => s.clear current error
    | none => s
  s.setView v none

def State.step (s : State E) (event : Event E) : Option (State E) :=
  match event.action with
  | .build v result =>
      match s.views v with
      | none => some (s.build event.current event.shared v result)
      | some _ => none
  | .rebuild v result =>
      (s.views v).map fun state => s.rebuild event.current event.shared v state result
  | .drop v => (s.views v).map fun state => s.drop event.current v state

/-! ## What the maps should hold -/

/-- A live view shows an error that it has registered with a boundary. -/
def Shows (s : State E) (v : ViewId) (b : BoundaryId) (id : ErrorId) (error : E) : Prop :=
  s.views v = some ⟨some error, some id, some b⟩

/-- Each boundary's map holds one entry for each of its own views that show an error, and no others. -/
structure Right (s : State E) : Prop where
  registered : ∀ v state b error, s.views v = some state → state.hook = some b →
    state.shown = some error → ∃ id, Shows s v b id error ∧ s.errors b id = some error
  apart : ∀ v v' b id error error', Shows s v b id error → Shows s v' b id error' → v = v'
  own : ∀ b id error, s.errors b id = some error → ∃ v, Shows s v b id error

/-- What is dropped and rebuilt where: an error is thrown with a shared context at hand, a view that was
built without a hook is rebuilt without one, and a view that shows an error is dropped under its own. -/
def Orderly (s : State E) (event : Event E) : Prop :=
  match event.action with
  | .build _ result => event.current ≠ none → result ≠ none → event.shared = true
  | .rebuild v result => ∀ state, s.views v = some state →
      (state.hook = none → event.current = none) ∧
        (state.hook ≠ none → result ≠ none → event.shared = true)
  | .drop v => ∀ state, s.views v = some state → state.shown ≠ none → event.current = state.hook

structure Inv (s : State E) : Prop where
  right : Right s
  idle : ∀ v state, s.views v = some state → (state.shown = none ↔ state.error = none)
  fresh : ∀ b id, s.nextId ≤ id → s.errors b id = none

/-! ## One change -/

variable {s s' : State E} {v : ViewId} {b : BoundaryId}

@[simp] theorem setView_views (v : ViewId) (state : Option (ResultState E)) :
    (s.setView v state).views = Function.update s.views v state := rfl

@[simp] theorem setView_errors (v : ViewId) (state : Option (ResultState E)) :
    (s.setView v state).errors = s.errors := rfl

@[simp] theorem setErrors_views (id : ErrorId) (entry : Option E) :
    (s.setErrors b id entry).views = s.views := rfl

theorem setErrors_same (id : ErrorId) (entry : Option E) :
    (s.setErrors b id entry).errors b id = entry := by
  simp [State.setErrors]

theorem setErrors_other {id id' : ErrorId} {b' : BoundaryId} (other : b' = b → id' ≠ id)
    (entry : Option E) : (s.setErrors b id entry).errors b' id' = s.errors b' id' := by
  by_cases same : b' = b
  · subst same
    simp [State.setErrors, other rfl]
  · simp [State.setErrors, same]

theorem shows_other {v' : ViewId} (other : v' ≠ v) {state : Option (ResultState E)} {id : ErrorId}
    {error : E} : Shows (s.setView v state) v' b id error ↔ Shows s v' b id error := by
  simp [Shows, other]

/-- The view shows no error of a boundary, and neither does it with its new state. -/
theorem Inv.quiet (inv : Inv s) (before : ∀ b id error, ¬Shows s v b id error)
    {state : Option (ResultState E)}
    (after : ∀ st, state = some st → (st.shown = none ↔ st.error = none) ∧ (st.hook = none ∨ st.shown = none)) :
    Inv (s.setView v state) where
  right := by
    have still (v' : ViewId) (b : BoundaryId) (id : ErrorId) (error : E) :
        Shows (s.setView v state) v' b id error ↔ Shows s v' b id error := by
      by_cases same : v' = v
      · subst same
        refine iff_of_false (fun new => ?_) (before b id error)
        have new : state = some ⟨some error, some id, some b⟩ := by simpa [Shows] using new
        rcases (after _ new).2 with none_ | none_ <;> cases none_
      · exact shows_other same
    refine ⟨fun v' st b error at_ hook shown => ?_, fun v' v'' b id error error' one other => ?_,
      fun b id error entry => ?_⟩
    · have apart : v' ≠ v := by
        rintro rfl
        have new : state = some st := by simpa using at_
        rcases (after _ new).2 with none_ | none_
        · rw [none_] at hook
          cases hook
        · rw [none_] at shown
          cases shown
      obtain ⟨id, shows_, entry⟩ :=
        inv.right.registered v' st b error (by simpa [apart] using at_) hook shown
      exact ⟨id, (still _ _ _ _).mpr shows_, entry⟩
    · exact inv.right.apart v' v'' b id error error' ((still _ _ _ _).mp one) ((still _ _ _ _).mp other)
    · obtain ⟨v', shows_⟩ := inv.right.own b id error entry
      exact ⟨v', (still _ _ _ _).mpr shows_⟩
  idle v' st at_ := by
    by_cases same : v' = v
    · subst same
      exact (after st (by simpa using at_)).1
    · exact inv.idle v' st (by simpa [same] using at_)
  fresh := inv.fresh

/-- The view registers an error under a new id. -/
theorem Inv.register (inv : Inv s) (before : ∀ b id error, ¬Shows s v b id error) (b : BoundaryId)
    (error : E) :
    Inv ((s.throwTo true b error).1.setView v (some ⟨some error, some (s.throwTo true b error).2, some b⟩)) where
  right := by
    have entries (b' : BoundaryId) (id : ErrorId) (known : s.errors b' id ≠ none) :
        (s.throwTo true b error).1.errors b' id = s.errors b' id := by
      refine setErrors_other (fun _ same => known ?_) _
      exact inv.fresh b' id (by rw [same]; exact Nat.le_refl _)
    refine ⟨fun v' st b' error' at_ hook shown => ?_, fun v' v'' b' id error' error'' one other => ?_,
      fun b' id error' entry => ?_⟩
    · by_cases same : v' = v
      · subst same
        have new : st = ⟨some error, some (s.throwTo true b error).2, some b⟩ := by
          simpa [eq_comm] using at_
        subst new
        cases hook
        cases shown
        exact ⟨(s.throwTo true b error).2, by simp [Shows], setErrors_same _ _⟩
      · obtain ⟨id, shows_, entry⟩ :=
          inv.right.registered v' st b' error' (by simpa [same, State.throwTo] using at_) hook shown
        refine ⟨id, (shows_other same).mpr shows_, ?_⟩
        rw [setView_errors, entries b' id (by simp [entry]), entry]
    · have new {id : ErrorId} {error' : E} (at_ : Shows ((s.throwTo true b error).1.setView v
          (some ⟨some error, some (s.throwTo true b error).2, some b⟩)) v b' id error') :
          b' = b ∧ id = s.nextId := by
        simp only [Shows, setView_views, Function.update_self, Option.some.injEq,
          ResultState.mk.injEq] at at_
        exact ⟨at_.2.2.symm, at_.2.1.symm⟩
      have old {v' : ViewId} {error' : E} (shows_ : Shows s v' b' id error') : id ≠ s.nextId := by
        rintro rfl
        obtain ⟨id', shows', entry⟩ := inv.right.registered v' _ b' error' shows_ rfl rfl
        have same : id' = s.nextId := by
          have := shows'.symm.trans shows_
          simpa using this
        rw [same, inv.fresh b' _ (Nat.le_refl _)] at entry
        cases entry
      by_cases first : v' = v
      · by_cases second : v'' = v
        · rw [first, second]
        · subst first
          exact absurd (new one).2 (old ((shows_other second).mp other))
      · by_cases second : v'' = v
        · subst second
          exact absurd (new other).2 (old ((shows_other first).mp one))
        · exact inv.right.apart v' v'' b' id error' error'' ((shows_other first).mp one)
            ((shows_other second).mp other)
    · by_cases same : b' = b ∧ id = s.nextId
      · obtain ⟨rfl, rfl⟩ := same
        refine ⟨v, ?_⟩
        have value : some error = some error' := (setErrors_same _ _).symm.trans entry
        cases value
        simp [Shows, State.throwTo]
      · have before_ : s.errors b' id = some error' := by
          rw [← entry]
          refine (setErrors_other (fun at_ id_ => same ⟨at_, id_⟩) _).symm
        obtain ⟨v', shows_⟩ := inv.right.own b' id error' before_
        refine ⟨v', (shows_other ?_).mpr shows_⟩
        rintro rfl
        exact before b' id error' shows_
  idle v' st at_ := by
    by_cases same : v' = v
    · subst same
      have new : st = ⟨some error, some (s.throwTo true b error).2, some b⟩ := by
        simpa [eq_comm] using at_
      simp [new]
    · exact inv.idle v' st (by simpa [same, State.throwTo] using at_)
  fresh b' id later := by
    have later : s.nextId + 1 ≤ id := later
    have apart : id ≠ s.nextId := Nat.ne_of_gt later
    exact (setErrors_other (fun _ => apart) _).trans (inv.fresh b' id (Nat.le_of_succ_le later))

/-- The view takes its error from the boundary's map. -/
theorem Inv.unregister (inv : Inv s) {id : ErrorId} {error : E} (shows_ : Shows s v b id error)
    {state : Option (ResultState E)}
    (after : ∀ st, state = some st → st.shown = none ∧ st.error = none) :
    Inv ((s.setErrors b id none).setView v state) where
  right := by
    refine ⟨fun v' st b' error' at_ hook shown => ?_, fun v' v'' b' id' error' error'' one other => ?_,
      fun b' id' error' entry => ?_⟩
    · have apart : v' ≠ v := by
        rintro rfl
        have new : state = some st := by simpa using at_
        rw [(after _ new).1] at shown
        cases shown
      obtain ⟨id', shows', entry⟩ :=
        inv.right.registered v' st b' error' (by simpa [apart] using at_) hook shown
      refine ⟨id', (shows_other apart).mpr shows', ?_⟩
      rw [setView_errors, setErrors_other _ none, entry]
      rintro rfl rfl
      exact apart (inv.right.apart v' v b' id' error' error shows' shows_)
    · have apart {v' : ViewId} {error' : E}
          (at_ : Shows ((s.setErrors b id none).setView v state) v' b' id' error') : v' ≠ v := by
        rintro rfl
        have new : state = some ⟨some error', some id', some b'⟩ := by simpa [Shows] using at_
        cases (after _ new).1
      exact inv.right.apart v' v'' b' id' error' error'' ((shows_other (apart one)).mp one)
        ((shows_other (apart other)).mp other)
    · have other : b' = b → id' ≠ id := by
        rintro rfl rfl
        rw [setView_errors, setErrors_same] at entry
        cases entry
      rw [setView_errors, setErrors_other other] at entry
      obtain ⟨v', shows'⟩ := inv.right.own b' id' error' entry
      refine ⟨v', (shows_other ?_).mpr shows'⟩
      rintro rfl
      have same := shows'.symm.trans shows_
      simp only [Option.some.injEq, ResultState.mk.injEq] at same
      exact other same.2.2 same.2.1
  idle v' st at_ := by
    by_cases same : v' = v
    · subst same
      have new := after st (by simpa using at_)
      simp [new]
    · exact inv.idle v' st (by simpa [same] using at_)
  fresh b' id' later := by
    by_cases same : b' = b ∧ id' = id
    · obtain ⟨rfl, rfl⟩ := same
      exact setErrors_same _ _
    · exact (setErrors_other (fun at_ id_ => same ⟨at_, id_⟩) _).trans (inv.fresh b' id' later)

/-! ## One step -/

theorem setView_twice (state state' : Option (ResultState E)) :
    (s.setView v state).setView v state' = s.setView v state' := by
  simp [State.setView]

theorem throwTo_setView (shared : Bool) (error : E) (state : Option (ResultState E)) :
    (s.setView v state).throwTo shared b error =
      ((s.throwTo shared b error).1.setView v state, (s.throwTo shared b error).2) := rfl

theorem not_shows {st : ResultState E} (at_ : s.views v = some st) (quiet : st.hook = none ∨ st.shown = none)
    (b : BoundaryId) (id : ErrorId) (error : E) : ¬Shows s v b id error := by
  intro shows_
  obtain rfl : st = ⟨some error, some id, some b⟩ := Option.some.inj (at_.symm.trans shows_)
  rcases quiet with none_ | none_ <;> cases none_

/-- A view that shows an error which it has registered with a boundary. -/
theorem Inv.shows (inv : Inv s) {st : ResultState E} (at_ : s.views v = some st) (hook : st.hook = some b)
    {error : E} (shown : st.shown = some error) : ∃ id, st = ⟨some error, some id, some b⟩ ∧
      Shows s v b id error := by
  obtain ⟨id, shows_, -⟩ := inv.right.registered v st b error at_ hook shown
  exact ⟨id, Option.some.inj (at_.symm.trans shows_), shows_⟩

theorem Inv.build (inv : Inv s) {current : Option BoundaryId} {shared : Bool} {result : Option E}
    (absent : s.views v = none) (orderly : current ≠ none → result ≠ none → shared = true) :
    Inv (s.build current shared v result) := by
  have before (b : BoundaryId) (id : ErrorId) (error : E) : ¬Shows s v b id error := by
    simp [Shows, absent]
  cases result with
  | none => exact inv.quiet before (by simp)
  | some error =>
    cases current with
    | none => exact inv.quiet before (by simp)
    | some b =>
      obtain rfl := orderly (by simp) (by simp)
      exact inv.register before b error

theorem Inv.rebuild (inv : Inv s) {current : Option BoundaryId} {shared : Bool} {st : ResultState E}
    {result : Option E} (at_ : s.views v = some st) (none_ : st.hook = none → current = none)
    (orderly : st.hook ≠ none → result ≠ none → shared = true) :
    Inv (s.rebuild current shared v st result) := by
  cases hook : st.hook with
  | none =>
    obtain rfl := none_ hook
    have before := not_shows at_ (.inl hook)
    rcases st with ⟨shown, id, _⟩
    cases hook
    cases shown with
    | none =>
      cases result with
      | none => exact inv
      | some error => exact inv.quiet before (by simp)
    | some error =>
      cases result with
      | none => cases id <;> exact inv.quiet before (by simp)
      | some error' => cases id <;> exact inv.quiet before (by simp)
  | some b =>
    cases shown : st.shown with
    | none =>
      have before := not_shows at_ (.inr shown)
      rcases st with ⟨_, id, _⟩
      cases hook
      cases shown
      cases result with
      | none => exact inv
      | some error =>
        obtain rfl := orderly (by simp) (by simp)
        exact inv.register before b error
    | some error =>
      obtain ⟨id, rfl, shows_⟩ := inv.shows at_ hook shown
      cases result with
      | none => exact inv.unregister shows_ (by simp)
      | some error' =>
        obtain rfl := orderly (by simp) (by simp)
        -- the old error is cleared, as if the view were shown, and the new one registered
        have cleared : Inv ((s.setErrors b id none).setView v (some ⟨none, none, some b⟩)) :=
          inv.unregister shows_ (by simp)
        have shown : ((s.setErrors b id none).setView v (some ⟨none, none, some b⟩)).views v =
            some ⟨none, none, some b⟩ := by simp
        have after := cleared.register (not_shows shown (.inr rfl)) b error'
        rwa [throwTo_setView, setView_twice] at after

theorem Inv.drop (inv : Inv s) {current : Option BoundaryId} {st : ResultState E}
    (at_ : s.views v = some st) (own : st.shown ≠ none → current = st.hook) :
    Inv (s.drop current v st) := by
  cases shown : st.shown with
  | none =>
    have idle : st.error = none := (inv.idle v st at_).mp shown
    have before := not_shows at_ (.inr shown)
    rw [State.drop, idle]
    exact inv.quiet before (by simp)
  | some error =>
    obtain rfl := own (by simp [shown])
    cases hook : st.hook with
    | none =>
      have before := not_shows at_ (.inl hook)
      rw [State.drop]
      cases st.error <;> exact inv.quiet before (by simp)
    | some b =>
      obtain ⟨id, rfl, shows_⟩ := inv.shows at_ hook shown
      exact inv.unregister shows_ (by simp)

theorem Inv.step (inv : Inv s) {event : Event E} (orderly : Orderly s event)
    (stepped : s.step event = some s') : Inv s' := by
  rcases event with ⟨current, shared, action⟩
  cases action with
  | build v result =>
    simp only [State.step] at stepped
    cases at_ : s.views v with
    | none =>
      rw [at_] at stepped
      cases stepped
      exact inv.build at_ orderly
    | some st => simp [at_] at stepped
  | rebuild v result =>
    obtain ⟨st, at_, rfl⟩ := Option.map_eq_some_iff.mp stepped
    exact inv.rebuild at_ (orderly st at_).1 (orderly st at_).2
  | drop v =>
    obtain ⟨st, at_, rfl⟩ := Option.map_eq_some_iff.mp stepped
    exact inv.drop at_ (orderly st at_)

/-! ## Runs -/

theorem Inv.empty : Inv (State.empty : State E) where
  right := ⟨by simp [State.empty], by simp [Shows, State.empty], by simp [State.empty]⟩
  idle := by simp [State.empty]
  fresh _ _ _ := rfl

/-- In a run whose views clear their errors where they have registered them, each boundary's map holds
the errors of its own views that show one, and no others. -/
theorem boundaries_right {events : List (Event E)} (ran : exec State.step State.empty events = some s)
    (orderly : Meets State.step (fun s event _ => Orderly s event) State.empty events) : Right s :=
  ((Reaches.of_exec .start events ran orderly).invariant Inv.empty
    fun _ _ _ inv stepped orderly => inv.step orderly stepped).right

/-- Two boundaries with a failing view each; one view recovers and the other one is dropped. -/
def twoBoundaries : List (Event ℕ) :=
  [⟨some 1, true, .build 0 (some 5)⟩, ⟨some 2, true, .build 1 (some 6)⟩, ⟨none, true, .rebuild 0 none⟩,
    ⟨some 2, true, .drop 1⟩]

theorem twoBoundaries_right :
    ∃ s, exec State.step State.empty twoBoundaries = some s ∧ Right s := by
  refine ⟨_, rfl, @boundaries_right ℕ _ twoBoundaries rfl ?_⟩
  simp only [twoBoundaries, Meets]
  intro s moved
  cases moved
  refine ⟨fun _ _ => rfl, fun s moved => ?_⟩
  cases moved
  refine ⟨fun _ _ => rfl, fun s moved => ?_⟩
  cases moved
  refine ⟨fun st at_ => ?_, fun s moved => ?_⟩
  · cases at_
    simp
  · cases moved
    refine ⟨fun st at_ _ => ?_, trivial⟩
    cases at_
    rfl

/-- A view that shows an error and is dropped under another hook, or none, leaves its entry behind. -/
theorem stale_entry (right : Right s) {id : ErrorId} {error : E} (shows_ : Shows s v b id error)
    {current : Option BoundaryId} (other : current ≠ some b) {shared : Bool}
    (stepped : s.step ⟨current, shared, .drop v⟩ = some s') : ¬Right s' := by
  obtain ⟨st, at_, rfl⟩ := Option.map_eq_some_iff.mp stepped
  obtain rfl : st = ⟨some error, some id, some b⟩ := Option.some.inj (at_.symm.trans shows_)
  have entry : s.errors b id = some error := by
    obtain ⟨id', shows', entry⟩ := right.registered v _ b error at_ rfl rfl
    have same : id' = id := by simpa using shows'.symm.trans shows_
    rwa [same] at entry
  intro after
  have left : (s.drop current v ⟨some error, some id, some b⟩).errors b id = some error := by
    rw [State.drop, setView_errors]
    cases current with
    | none => exact entry
    | some c =>
      rw [← entry]
      exact setErrors_other (fun same => absurd (congrArg some same.symm) other) none
  obtain ⟨v', shows'⟩ := after.own b id error left
  have views : (s.drop current v ⟨some error, some id, some b⟩).views = Function.update s.views v none := by
    cases current <;> rfl
  by_cases same : v' = v
  · rw [Shows, views, same, Function.update_self] at shows'
    cases shows'
  · rw [Shows, views, Function.update_of_ne same] at shows'
    exact same (right.apart v' v b id error error shows' shows_)

/-- The view is dropped with the tree that it is in, when no boundary's hook is current. -/
theorem dropped_entry :
    ∃ s, exec State.step State.empty
        ([⟨some 1, true, .build 0 (some 5)⟩, ⟨none, true, .drop 0⟩] : List (Event ℕ)) = some s ∧
      (∀ v, s.views v = none) ∧ s.errors 1 0 = some 5 ∧ ¬Right s := by
  have gone (v : ViewId) : Function.update (Function.update (fun _ => none) 0
      (some (⟨some 5, some 0, some 1⟩ : ResultState ℕ))) 0 none v = none := by
    by_cases same : v = 0 <;> simp [same]
  refine ⟨_, rfl, gone, rfl, fun right => ?_⟩
  obtain ⟨v, shows_⟩ := right.own 1 0 5 rfl
  cases (gone v).symm.trans shows_

end Halyard.Errors
