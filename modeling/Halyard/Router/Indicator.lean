import Halyard.Reaches

/-!
# The progress of navigations

What an indicator of routing is for: it is on from the start of a navigation that loads a view until the most
recent one has completed, and a location is told to complete when the most recent navigation has.

* `Move.shown`: what a step keeps that ends a task only when no later navigation is pending.
* `indicates_iff`: a run keeps what the indicator is for if and only if no task ends while a later navigation is
  pending.
-/

namespace Halyard.Router

/-- A navigation with a task of its own.  `outstanding` says that a view of it is still loading. -/
structure Navigation where
  number : ℕ
  loads : Bool
  started : Bool
  ended : Bool
  outstanding : Bool

def Navigation.pending (navigation : Navigation) : Bool :=
  !navigation.ended || navigation.outstanding

/-- The oldest navigation comes first.  The most recent one may have completed `atOnce`, without a task, or be
`unrouted`: the router has not run since.  `told` counts the calls of `ready_to_complete`. -/
structure Routing where
  isRouting : Bool
  told : ℕ
  unrouted : Bool
  atOnce : Bool
  navigations : List Navigation

/-- The most recent navigation that loads a view. -/
def Routing.loading (r : Routing) : Option Navigation :=
  (r.navigations.filter Navigation.loads).getLast?

/-- The indicator is on from the start of a navigation that loads a view until the most recent one has
completed. -/
def Routing.Shown (r : Routing) : Prop :=
  ∀ navigation ∈ r.loading, navigation.started = true → navigation.pending = true → r.isRouting = true

/-- It is off once none is pending. -/
def Routing.Hidden (r : Routing) : Prop :=
  (∀ navigation ∈ r.navigations, navigation.pending = false) → r.isRouting = false

/-- The most recent navigation has completed. -/
def Routing.Completed (r : Routing) : Prop :=
  r.unrouted = false ∧
    (r.atOnce = true ∨ ∀ navigation ∈ r.navigations.getLast?, navigation.pending = false)

/-- What a step from `r` to `r'` is to keep. -/
structure Indicates (r r' : Routing) : Prop where
  shown : r'.Shown
  hidden : r'.Hidden
  told : r'.told ≠ r.told → r'.Completed

/-- No view of it is loading, and it has ended or is the one with this number. -/
def Navigation.EndsWith (number : ℕ) (navigation : Navigation) : Prop :=
  (navigation.number = number ∨ navigation.ended = true) ∧ navigation.outstanding = false

/-- What is to hold before the task of a navigation ends: no later navigation is pending, and no view of the most
recent one is loading. -/
structure Routing.Last (number : ℕ) (r : Routing) : Prop where
  routed : r.unrouted = false
  recent : r.atOnce = true ∨ ∀ navigation ∈ r.navigations.getLast?, navigation.EndsWith number
  loading : ∀ navigation ∈ r.loading, navigation.started = true → navigation.EndsWith number

/-! ## Steps -/

/-- A view may have loaded, and nothing else changes. -/
structure Progress (before after : Navigation) : Prop where
  loads : after.loads = before.loads
  started : after.started = before.started
  ended : after.ended = before.ended
  outstanding : after.outstanding = true → before.outstanding = true

def Navigation.endTask (number : ℕ) (navigation : Navigation) : Navigation :=
  if navigation.number = number then { navigation with ended := true } else navigation

/-- The end of a task turns the indicator off, and tells the location. -/
def Routing.endTask (number : ℕ) (r : Routing) : Routing :=
  { r with
    isRouting := false
    told := r.told + 1
    navigations := r.navigations.map (.endTask number) }

/-- What a router does with its navigations, and the number of the one whose task ends. -/
inductive Move (r : Routing) : Option ℕ → Routing → Prop
  /-- The URL is set. -/
  | announces : Move r none { r with unrouted := true }
  /-- The router runs, and there is nothing to load. -/
  | passes (told : ℕ) : Move r none { r with told, unrouted := false, atOnce := true }
  /-- The router runs, and spawns the task of a navigation. -/
  | spawns (navigation : Navigation) (new : navigation.ended = false) :
      Move r none
        ⟨r.isRouting || navigation.started, r.told, false, false, r.navigations ++ [navigation]⟩
  | starts (number : ℕ)
      (there : ∃ navigation ∈ r.navigations, navigation.number = number ∧ navigation.ended = false) :
      Move r none
        { r with
          isRouting := true
          navigations := r.navigations.map fun navigation =>
            if navigation.number = number then { navigation with started := true } else navigation }
  | progresses {navigations : List Navigation} (each : List.Forall₂ Progress r.navigations navigations) :
      Move r none { r with navigations }
  | ends (number : ℕ) : Move r (some number) (r.endTask number)

variable {r r' : Routing} {number : ℕ} {ends : Option ℕ}

/-- A task that has started when it is spawned. -/
theorem Move.spawnsStarted (navigation : Navigation) (new : navigation.ended = false)
    (started : navigation.started = true) :
    Move r none ⟨true, r.told, false, false, r.navigations ++ [navigation]⟩ := by
  have move := Move.spawns (r := r) navigation new
  rwa [started, Bool.or_true] at move

/-- While the indicator is on, there is a task that has not ended. -/
def Routing.Lit (r : Routing) : Prop :=
  r.isRouting = true → ∃ navigation ∈ r.navigations, navigation.ended = false

theorem Routing.Lit.hidden (lit : r.Lit) : r.Hidden := by
  intro complete
  by_contra on
  obtain ⟨navigation, mem, going⟩ := lit (Bool.eq_true_of_not_eq_false on)
  have pending := complete navigation mem
  rw [Navigation.pending, going] at pending
  cases pending

theorem forall₂_getLast? {α : Type*} {R : α → α → Prop} {before after : List α} {b : α}
    (each : List.Forall₂ R before after) (last : b ∈ after.getLast?) : ∃ a ∈ before.getLast?, R a b := by
  obtain ⟨front, rfl⟩ := List.getLast?_eq_some_iff.mp last
  have reversed := List.rel_reverse each
  rw [List.reverse_concat] at reversed
  obtain ⟨a, rest, related, -, is⟩ := List.forall₂_cons_right_iff.mp reversed
  refine ⟨a, ?_, related⟩
  rw [← List.head?_reverse, is]
  rfl

theorem forall₂_of_mem {α : Type*} {R : α → α → Prop} {before after : List α} {a : α}
    (each : List.Forall₂ R before after) (mem : a ∈ before) : ∃ b ∈ after, R a b := by
  induction each with
  | nil => cases mem
  | cons related _ ih =>
    rcases List.mem_cons.mp mem with rfl | mem
    · exact ⟨_, List.mem_cons_self, related⟩
    · obtain ⟨b, mem, related⟩ := ih mem
      exact ⟨b, List.mem_cons_of_mem _ mem, related⟩

theorem Move.lit (move : Move r ends r') (lit : r.Lit) : r'.Lit := by
  intro on
  cases move with
  | announces => exact lit on
  | passes => exact lit on
  | spawns navigation new => exact ⟨navigation, List.mem_append_right _ (List.mem_singleton.mpr rfl), new⟩
  | starts number there =>
    obtain ⟨navigation, mem, is, going⟩ := there
    refine ⟨_, List.mem_map_of_mem mem, ?_⟩
    rw [if_pos is]
    exact going
  | progresses each =>
    obtain ⟨navigation, mem, going⟩ := lit on
    obtain ⟨after, mem, progress⟩ := forall₂_of_mem each mem
    exact ⟨after, mem, progress.ended.trans going⟩
  | ends => cases on

/-- The most recent navigation that loads a view, after each has progressed. -/
theorem Routing.loading_progress {navigations : List Navigation}
    (each : List.Forall₂ Progress r.navigations navigations) {navigation : Navigation}
    (last : navigation ∈ { r with navigations }.loading) :
    ∃ before ∈ r.loading, Progress before navigation := by
  refine forall₂_getLast? (List.rel_filter ?_ each) last
  intro before after progress
  exact iff_of_eq (congrArg (· = true) progress.loads.symm)

theorem Navigation.endTask_completes {navigation : Navigation} :
    (navigation.endTask number).pending = false ↔ navigation.EndsWith number := by
  unfold Navigation.endTask Navigation.EndsWith Navigation.pending
  split
  next is => simp [is]
  next other => simp [other]

theorem Navigation.started_endTask {navigation : Navigation} :
    (navigation.endTask number).started = navigation.started := by
  unfold Navigation.endTask
  split
  next => rfl
  next => rfl

theorem Navigation.loads_endTask : Navigation.loads ∘ Navigation.endTask number = Navigation.loads := by
  funext navigation
  rw [Function.comp_apply, Navigation.endTask]
  split
  next => rfl
  next => rfl

theorem Routing.loading_endTask : (r.endTask number).loading = r.loading.map (.endTask number) := by
  rw [Routing.loading, Routing.endTask, List.filter_map, Navigation.loads_endTask, List.getLast?_map, Routing.loading]

theorem Routing.completed_endTask : (r.endTask number).Completed ↔
    r.unrouted = false ∧
      (r.atOnce = true ∨ ∀ navigation ∈ r.navigations.getLast?, navigation.EndsWith number) := by
  unfold Routing.Completed Routing.endTask
  simp only [List.getLast?_map, Option.mem_map, forall_exists_index, and_imp, forall_apply_eq_imp_iff₂,
    Navigation.endTask_completes]

theorem Move.shown (move : Move r ends r') (last : ∀ number ∈ ends, r.Last number) (shown : r.Shown) :
    r'.Shown := by
  cases move with
  | announces => exact shown
  | passes => exact shown
  | spawns navigation new =>
    intro recent mem started pending
    change (r.isRouting || navigation.started) = true
    rw [Routing.loading, List.filter_append] at mem
    cases loads : navigation.loads with
    | true =>
      rw [List.filter_cons_of_pos loads, List.filter_nil, List.getLast?_concat] at mem
      rw [Option.some.inj mem, started, Bool.or_true]
    | false =>
      rw [List.filter_cons_of_neg (by simp [loads]), List.filter_nil, List.append_nil] at mem
      rw [shown recent mem started pending, Bool.true_or]
  | starts => exact fun _ _ _ _ => rfl
  | progresses each =>
    intro recent mem started pending
    obtain ⟨before, mem, progress⟩ := Routing.loading_progress each mem
    refine shown before mem (progress.started ▸ started) ?_
    rw [Navigation.pending, Bool.or_eq_true] at pending ⊢
    exact pending.imp (fun going => progress.ended ▸ going) progress.outstanding
  | ends number =>
    intro recent mem started pending
    rw [Routing.loading_endTask] at mem
    obtain ⟨navigation, before, rfl⟩ := Option.mem_map.mp mem
    rw [Navigation.started_endTask] at started
    rw [Navigation.endTask_completes.mpr ((last number rfl).loading navigation before started)] at pending
    cases pending

/-- A location is told by a navigation that completes at once, or at the end of a task. -/
theorem Move.told (move : Move r ends r') (last : ∀ number ∈ ends, r.Last number) (told : r'.told ≠ r.told) :
    r'.Completed := by
  cases move with
  | announces => exact absurd rfl told
  | passes => exact ⟨rfl, .inl rfl⟩
  | spawns => exact absurd rfl told
  | starts => exact absurd rfl told
  | progresses => exact absurd rfl told
  | ends number => exact Routing.completed_endTask.mpr ⟨(last number rfl).routed, (last number rfl).recent⟩

/-- The end of a task turns the indicator off and tells the location, so that nothing later may be pending. -/
theorem Move.last (move : Move r (some number) r') (indicates : Indicates r r') : r.Last number := by
  cases move with
  | ends number =>
    obtain ⟨routed, recent⟩ := Routing.completed_endTask.mp (indicates.told (Nat.succ_ne_self _))
    refine ⟨routed, recent, fun navigation mem started => ?_⟩
    rw [← Navigation.endTask_completes]
    by_contra pending
    have mem : navigation.endTask number ∈ (r.endTask number).loading := by
      rw [Routing.loading_endTask]
      exact Option.mem_map_of_mem _ mem
    have on := indicates.shown _ mem (Navigation.started_endTask.trans started) (Bool.eq_true_of_not_eq_false pending)
    exact Bool.false_ne_true on

/-- Records of navigations, of which those with one number change. -/
theorem map_update {β : Type*} (navigation : β → Navigation) {f : β → β} (g : Navigation → Navigation)
    (same : ∀ b, navigation (f b) = g (navigation b)) (number : ℕ) (records : List β) :
    (records.map fun b => if (navigation b).number = number then f b else b).map navigation =
      (records.map navigation).map fun n => if n.number = number then g n else n := by
  rw [List.map_map, List.map_map]
  refine List.map_congr_left fun b _ => ?_
  rw [Function.comp_apply, Function.comp_apply, apply_ite navigation, same]

/-! ## Runs -/

theorem indicates_iff {σ α : Type*} {step : σ → α → Option σ} {routing : σ → Routing} {ends : σ → α → Option ℕ}
    (moves : ∀ s a s', step s a = some s' → Move (routing s) (ends s a) (routing s')) {s : σ}
    (lit : (routing s).Lit) (shown : (routing s).Shown) (actions : List α) :
    Meets step (fun s _ s' => Indicates (routing s) (routing s')) s actions ↔
      Meets step (fun s a _ => ∀ number ∈ ends s a, (routing s).Last number) s actions := by
  induction actions generalizing s with
  | nil => exact Iff.rfl
  | cons a actions ih =>
    refine forall_congr' fun s' => forall_congr' fun moved => ?_
    have move := moves s a s' moved
    constructor
    · rintro ⟨indicates, later⟩
      exact ⟨fun _ is => (is ▸ move).last indicates, (ih (move.lit lit) indicates.shown).mp later⟩
    · rintro ⟨last, later⟩
      have shown' := move.shown last shown
      exact ⟨⟨shown', (move.lit lit).hidden, move.told last⟩, (ih (move.lit lit) shown').mpr later⟩

end Halyard.Router
