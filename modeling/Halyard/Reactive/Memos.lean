import Halyard.Reactive.Update

/-!
# Programs that write signals and read memos

`reads_eval`: in every program of writes and reads, from a graph in which no memo was computed yet,
each read of a memo gives its function evaluated on the signals' values at that moment.
-/

namespace Halyard.Reactive

variable {σ μ V : Type*} [DecidableEq σ] [DecidableEq μ] [Fintype μ] {g : Graph σ μ V}
variable {st : State σ μ V}

/-! ## Writes -/

/-- Nothing runs between the steps of a program. -/
abbrev Idle : μ → Prop := fun _ => False

theorem setSignal_ok (s : σ) (value : V) (inv : Inv g Idle st) :
    ∃ st', setSignal s value st = some st' ∧ Inv g Idle st' ∧
      Spread { st with signals := Function.update st.signals s value } st' ∧
      (.effect ∈ st.subscribers (.signal s) → st'.dirty = true ∧ st'.notified = true) := by
  obtain ⟨written, written_eq⟩ : ∃ written : State σ μ V,
      written = { st with signals := Function.update st.signals s value } := ⟨_, rfl⟩
  have ranked : Ranked g written := by
    rw [written_eq]
    exact inv.ranked
  obtain ⟨st', run, spread, told⟩ := forEach_ok Spread (Ranked g)
    (fun (sub : Subscriber μ) now => (∀ n, sub = .memo n → now.state n = .dirty) ∧
      (sub = .effect → now.dirty = true ∧ now.notified = true))
    .refl (fun left right => left.trans right) (fun step ranked => ranked.of_marked step.marked)
    (fun step done => ⟨fun n is => step.marked.stays n (done.1 n is),
      fun is => ⟨step.marked.dirty (done.2 is).1, step.marked.notified (done.2 is).2⟩⟩)
    (fun sub (_ : sub ∈ st.subscribers (.signal s)) now ranked => by
      obtain ⟨next, run, spread, -, memo, effect⟩ := markDirty_ok sub ranked
      exact ⟨next, run, spread, memo, effect⟩) ranked
  have closed : MarkedUp st' := by
    refine MarkedUp.of_spread ?_ spread
    rw [written_eq]
    exact inv.markedUp
  have signals : st'.signals = Function.update st.signals s value := by
    rw [spread.marked.signals, written_eq]
  have cached : st'.cached = st.cached := by rw [spread.marked.cached, written_eq]
  have sources : st'.sources = st.sources := by rw [spread.marked.sources, written_eq]
  have subscribers : st'.subscribers = st.subscribers := by
    rw [spread.marked.subscribers, written_eq]
  refine ⟨st', by rw [setSignal, ← written_eq, run], ⟨fun sub source => ?_, fun source => ?_,
    fun a b member => ?_, fun a b member clean => ?_, fun n => False.elim, fun n _ stale => ?_⟩,
    written_eq ▸ spread, fun member => (told _ member).2 rfl⟩
  · rw [subscribers, sources]
    exact inv.subscribed sub source
  · rw [subscribers]
    exact inv.nodup source
  · rw [sources] at member
    exact inv.mayRead a b member
  · rw [sources] at member
    by_contra marked
    refine closed b a ?_ marked clean
    rw [subscribers]
    exact (inv.subscribed _ _).2 member
  · have unread : .signal s ∉ st.sources (.memo n) := fun source =>
      stale ((told _ ((inv.subscribed _ _).2 source)).1 n rfl)
    have before : st.state n ≠ .dirty := fun is => stale (spread.marked.stays n (by rwa [written_eq]))
    obtain ⟨result, reads, trace, value', sources'⟩ := inv.upToDate n id before
    refine ⟨result, reads, ?_, by rw [cached, value'], by rw [sources, sources']⟩
    refine Computation.trace_congr trace (fun other read => ?_) (fun p _ => by rw [cached])
    rw [signals, Function.update_of_ne]
    intro same
    rw [same, ← mem_indexSet, ← sources'] at read
    exact unread read

/-! ## Reads -/

variable [DecidableEq V]

/-- A read outside of any observer. -/
theorem readMemo_ok (m : μ) (inv : Inv g Idle st) (unobserved : st.observer = none) :
    ∃ st', readMemo g m st = some (g.eval st.signals m, st') ∧ Inv g Idle st' ∧
      st'.observer = none ∧ st'.state m = .clean ∧
      Frame g Idle (fun _ => False) (fun _ => False) (g.rank m + 1) st st' := by
  have track : st.track (.memo m) = st := by rw [State.track, unobserved]
  obtain ⟨changed, st', run, inv', observer, clean, -, frame⟩ :=
    update_ok (g.rank_lt_card m) Idle st inv (fun _ => False.elim) (by simp [unobserved])
  have value := (inv'.clean_eval clean).1
  rw [frame.signals] at value
  refine ⟨st', ?_, inv', observer.trans unobserved, clean,
    frame.weaken (fun _ => id) (fun _ => id) (fun _ p quiet => ?_) le_rfl⟩
  · rw [readMemo, track, run, Option.bind_some, value]
    rfl
  · rw [unobserved] at quiet
    cases quiet.1

/-! ## Programs -/

/-- A step of a program, outside of any observer. -/
inductive Step (σ μ V : Type*) where
  | set (s : σ) (value : V)
  | read (m : μ)

/-- A program, and the values that it read. -/
def runSteps (g : Graph σ μ V) : List (Step σ μ V) → State σ μ V → Option (List V × State σ μ V)
  | [], st => some ([], st)
  | .set s value :: rest, st => (setSignal s value st).bind (runSteps g rest)
  | .read m :: rest, st =>
      (readMemo g m st).bind fun read =>
        (runSteps g rest read.2).map fun result => (read.1 :: result.1, result.2)

/-- The values that the memos read in a program have when they are read. -/
noncomputable def evalSteps (g : Graph σ μ V) : List (Step σ μ V) → (σ → V) → List V
  | [], _ => []
  | .set s value :: rest, signals => evalSteps g rest (Function.update signals s value)
  | .read m :: rest, signals => g.eval signals m :: evalSteps g rest signals

/-- Signals with their values, memos that were never computed, and no subscriptions. -/
def State.new (signals : σ → V) : State σ μ V where
  signals := signals
  cached := fun _ => none
  state := fun _ => .dirty
  sources := fun _ => []
  subscribers := fun _ => []
  dirty := false
  notified := false
  observer := none

omit [Fintype μ] [DecidableEq V] in
theorem inv_new (g : Graph σ μ V) (signals : σ → V) : Inv g Idle (State.new signals) where
  subscribed := by simp [State.new]
  nodup := by simp [State.new]
  mayRead := by simp [State.new]
  closed := by simp [State.new]
  marked := fun _ => False.elim
  upToDate := by simp [State.new]

theorem runSteps_ok (steps : List (Step σ μ V)) (inv : Inv g Idle st)
    (unobserved : st.observer = none) :
    ∃ st', runSteps g steps st = some (evalSteps g steps st.signals, st') ∧ Inv g Idle st' := by
  induction steps generalizing st with
  | nil => exact ⟨st, rfl, inv⟩
  | cons step rest ih =>
      cases step with
      | set s value =>
          obtain ⟨next, set, invNext, spread, -⟩ := setSignal_ok s value inv
          obtain ⟨st', run, inv'⟩ := ih invNext (spread.marked.observer.trans unobserved)
          refine ⟨st', ?_, inv'⟩
          rw [runSteps, set, Option.bind_some, run, spread.marked.signals, evalSteps]
      | read m =>
          obtain ⟨next, read, invNext, observer, -, frame⟩ := readMemo_ok m inv unobserved
          obtain ⟨st', run, inv'⟩ := ih invNext observer
          refine ⟨st', ?_, inv'⟩
          rw [runSteps, read, Option.bind_some, run, frame.signals, evalSteps]
          rfl

end Halyard.Reactive
