import Halyard.Reactive.Frame

/-!
# Running a function

A memo's or the effect's function reads its sources one after another: each read subscribes, and
updates what it reads.  Given what an update of a memo does (`UpdateOk`), `run_ok` says that the
function gives its value on the cached values that it leaves, that all memos it read are clean and
hold what it read, and that its reads are its sources.
-/

namespace Halyard.Reactive

variable {σ μ V : Type*} [DecidableEq σ] [DecidableEq μ] [Fintype μ] {g : Graph σ μ V}
variable {busy : μ → Prop} {st : State σ μ V}

/-- What `update_if_necessary` of a memo does, while the memos of `busy` run. -/
def UpdateOk (g : Graph σ μ V) (update : μ → State σ μ V → Option (Bool × State σ μ V)) (m : μ) :
    Prop :=
  ∀ (busy : μ → Prop) (st : State σ μ V), Inv g busy st →
    (∀ p, busy p → g.rank m < g.rank p) → (∀ p, st.observer = some (.memo p) → busy p) →
    ∃ changed st', update m st = some (changed, st') ∧ Inv g busy st' ∧
      st'.observer = st.observer ∧ st'.state m = .clean ∧
      (changed = true ↔ st'.cached m ≠ st.cached m) ∧
      Frame g busy (fun _ => False) (fun p => st.observer = some .effect ∧ PolledFrom g st m p)
        (g.rank m + 1) st st'

/-! ## Subscribing -/

omit [Fintype μ] in
theorem track_eq {source : Source σ μ} {sub : Subscriber μ} (observed : st.observer = some sub)
    (other : source.isSelf sub = false) :
    st.track source =
      { st with
        sources := Function.update st.sources sub (insertLast (st.sources sub) source)
        subscribers :=
          Function.update st.subscribers source (insertLast (st.subscribers source) sub) } := by
  simp [State.track, observed, State.addSource, State.addSubscriber, other]

/-- A read is tracked by whatever runs. -/
theorem track_ok (source : Source σ μ) (silent : μ → Prop) (bound : ℕ) {sub : Subscriber μ} (inv : Inv g busy st)
    (observed : st.observer = some sub)
    (may : ∀ m, sub = .memo m → busy m ∧ ∀ n, source = .memo n → (g.fn m).MayRead n) :
    ∃ st', st.track source = st' ∧ Inv g busy st' ∧
      Frame g busy (· = sub) silent bound st st' ∧ st'.observer = some sub ∧
      st'.signals = st.signals ∧ st'.cached = st.cached ∧ st'.state = st.state ∧
      st'.sources sub = insertLast (st.sources sub) source := by
  have other : source.isSelf sub = false := by
    cases source with
    | signal s => rfl
    | memo n =>
        cases sub with
        | effect => rfl
        | memo m =>
            have lower := g.rank_lt ((may m rfl).2 n rfl)
            have different : n ≠ m := fun same => by
              rw [same] at lower
              exact lt_irrefl _ lower
            simp [Source.isSelf, different]
  refine ⟨_, rfl, ?_, ?_, ?_⟩
  · rw [track_eq observed other]
    refine ⟨fun sub' source' => ?_, fun source' => ?_, fun m n member => ?_, fun m n member => ?_,
      inv.marked, fun m idle stale => ?_⟩
    · have before := inv.subscribed sub' source'
      by_cases here : source' = source <;> by_cases mine : sub' = sub <;>
        simp [here, mine, mem_insertLast] <;> simp_all
    · simp only [Function.update_apply]
      split
      · exact nodup_insertLast (inv.nodup source)
      · exact inv.nodup source'
    · simp only [Function.update_apply] at member
      split at member
      next mine =>
        rcases mem_insertLast.1 member with old | new
        · exact inv.mayRead m n (by rw [mine]; exact old)
        · exact (may m mine.symm).2 n new.symm
      · exact inv.mayRead m n member
    · simp only [Function.update_apply] at member
      split at member
      next mine => exact fun clean => absurd clean (inv.marked m (may m mine.symm).1)
      · exact inv.closed m n member
    · have apart : Subscriber.memo m ≠ sub := fun same => idle (may m same.symm).1
      rcases inv.upToDate m idle stale with ⟨value, reads, trace, cached, sources⟩
      exact ⟨value, reads, trace, cached, by rw [← sources]; simp [apart]⟩
  · rw [track_eq observed other]
    refine .of_same rfl rfl rfl rfl rfl (fun sub' apart => ?_) fun n mine =>
      inv.marked n (may n mine.symm).1
    simp [apart]
  · rw [track_eq observed other]
    exact ⟨observed, rfl, rfl, rfl, by simp⟩

/-! ## The function -/

theorem run_ok (update : μ → State σ μ V → Option (Bool × State σ μ V))
    (body : Computation σ μ V) (silent : μ → Prop) (bound : ℕ) {sub : Subscriber μ}
    (before known : List (Source σ μ)) (inv : Inv g busy st)
    (observed : st.observer = some sub)
    (may : ∀ m, sub = .memo m → busy m ∧ ∀ n, body.MayRead n → (g.fn m).MayRead n)
    (low : ∀ n, body.MayRead n → g.rank n < bound ∧ ∀ p, busy p → g.rank n < g.rank p)
    (updates : ∀ n, body.MayRead n → UpdateOk g update n)
    (sources : st.sources sub = indexSet before)
    (clean : ∀ n, .memo n ∈ known → st.state n = .clean) :
    ∃ value log st', body.run update st = some ((value, log), st') ∧ Inv g busy st' ∧
      Frame g busy (· = sub) silent bound st st' ∧ st'.observer = some sub ∧
      body.trace st'.signals st'.cached = some (value, log.map Prod.fst) ∧
      st'.sources sub = indexSet (before ++ log.map Prod.fst) ∧
      (∀ n, .memo n ∈ known ++ log.map Prod.fst → st'.state n = .clean) ∧
      ∀ read ∈ log, st'.held read.1 = some read.2 := by
  induction body generalizing st before known with
  | done value =>
      have same : Frame g busy (· = sub) silent bound st st :=
        (Frame.refl st).weaken (fun _ => id) (fun _ => False.elim) (fun _ _ => id) le_rfl
      exact ⟨value, [], st, rfl, inv, same, observed, rfl, by simpa using sources,
        by simpa using clean, by simp⟩
  | readSignal s next ih =>
      rcases track_ok (.signal s) silent bound inv observed
        (fun m mine => ⟨(may m mine).1, fun n same => by cases same⟩) with
        ⟨tracked, value, inv', frame, observed', signals, -, state, sources'⟩
      rcases ih (st.signals s) (before ++ [.signal s]) (known ++ [.signal s]) inv' observed'
        (fun m mine => ⟨(may m mine).1, fun n reads => (may m mine).2 n ⟨_, reads⟩⟩)
        (fun n reads => low n ⟨_, reads⟩) (fun n reads => updates n ⟨_, reads⟩)
        (by rw [sources', sources, indexSet_concat])
        (fun n member => by
          rw [state]
          exact clean n (by simpa using member)) with
        ⟨result, log, last, run, invLast, frameLast, observedLast, trace, sourcesLast, cleanLast,
          held⟩
      refine ⟨result, (.signal s, st.signals s) :: log, last, ?_, invLast, frame.trans frameLast,
        observedLast, ?_, by simpa using sourcesLast, by simpa using cleanLast, fun read member => ?_⟩
      · rw [Computation.run, value, run]
        rfl
      · rw [Computation.trace, frameLast.signals, signals]
        rw [frameLast.signals, signals] at trace
        rw [trace]
        rfl
      · rcases List.mem_cons.1 member with rfl | later
        · rw [State.held, frameLast.signals, signals]
        · exact held read later
  | readMemo n next ih =>
      rcases track_ok (.memo n) silent bound inv observed
        (fun m mine => ⟨(may m mine).1, fun n' same => (may m mine).2 n'
          (Or.inl (Source.memo.inj same).symm)⟩) with
        ⟨tracked, value, inv', frame, observed', -, -, state, sources'⟩
      rcases updates n (Or.inl rfl) busy tracked inv' (low n (Or.inl rfl)).2 (fun p is => by
          rw [observed'] at is
          exact (may p (Option.some.inj is)).1) with
        ⟨changed, updated, update', invUp, observedUp, cleanUp, -, frameUp⟩
      have stale : ∀ m, sub = .memo m → updated.state m ≠ .clean := fun m mine =>
        invUp.marked m (may m mine).1
      have sourcesUp : updated.sources sub = indexSet (before ++ [.memo n]) := by
        rw [frameUp.sources_of stale (by simp), sources', sources, indexSet_concat]
      have cached := (invUp.clean_eval cleanUp).1
      rcases ih (g.eval updated.signals n) (before ++ [.memo n]) (known ++ [.memo n]) invUp (observedUp.trans observed')
        (fun m mine => ⟨(may m mine).1, fun n reads => (may m mine).2 n (Or.inr ⟨_, reads⟩)⟩)
        (fun n reads => low n (Or.inr ⟨_, reads⟩)) (fun n reads => updates n (Or.inr ⟨_, reads⟩))
        sourcesUp
        (fun n' member => by
          rcases List.mem_append.1 member with old | new
          · exact (frameUp.clean n' (by rw [state]; exact clean n' old)).1
          · rw [List.mem_singleton, Source.memo.injEq] at new
            rw [new, cleanUp]) with
        ⟨result, log, last, run, invLast, frameLast, observedLast, trace, sourcesLast, cleanLast,
          held⟩
      have frameUp' : Frame g busy (· = sub) silent bound tracked updated := by
        refine frameUp.weaken (fun _ => id) (fun _ => False.elim) (fun other p quiet => ?_)
          (low n (Or.inl rfl)).1
        rw [observed'] at quiet
        exact absurd (Option.some.inj quiet.1).symm other
      have cachedLast : last.cached n = some (g.eval updated.signals n) := by
        rw [(frameLast.clean n cleanUp).2.1, cached]
      refine ⟨result, (.memo n, g.eval updated.signals n) :: log, last, ?_, invLast,
        frame.trans (frameUp'.trans frameLast), observedLast, ?_, by simpa using sourcesLast,
        by simpa using cleanLast, fun read member => ?_⟩
      · rw [Computation.run, value, update', Option.bind_some, cached, Option.bind_some, run]
        rfl
      · rw [List.map_cons, Computation.trace, cachedLast, Option.bind_some, trace]
        rfl
      · rcases List.mem_cons.1 member with rfl | later
        · exact cachedLast
        · exact held read later

end Halyard.Reactive
