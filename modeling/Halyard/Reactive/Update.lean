import Halyard.Reactive.Run

/-!
# What `update_if_necessary` does

`update_ok`: an update of a memo leaves it clean, keeps the invariant and stays in its frame.  The
induction is on the depth of the recursion; the memo's rank bounds it.
-/

namespace Halyard.Reactive

variable {σ μ V : Type*} [DecidableEq σ] [DecidableEq μ] {g : Graph σ μ V}
variable {busy busy' : μ → Prop} {st : State σ μ V} {m : μ}

/-! ## Clearing the sources -/

theorem removeSubscribers_eq (st : State σ μ V) (sub : Subscriber μ) (sources : List (Source σ μ))
    (nodup : ∀ source, (st.subscribers source).Nodup) :
    ∃ subscribers, sources.foldl (fun st source => st.removeSubscriber sub source) st =
        { st with subscribers } ∧ (∀ source, (subscribers source).Nodup) ∧
      ∀ other source, other ∈ subscribers source ↔
        other ∈ st.subscribers source ∧ ¬ (other = sub ∧ source ∈ sources) := by
  induction sources generalizing st with
  | nil => exact ⟨st.subscribers, rfl, nodup, by simp⟩
  | cons first rest ih =>
      have removed : ∀ source, ((st.removeSubscriber sub first).subscribers source).Nodup := by
        intro source
        simp only [State.removeSubscriber, Function.update_apply]
        split
        · exact (nodup first).erase sub
        · exact nodup source
      rcases ih _ removed with ⟨subscribers, value, nodup', mem⟩
      refine ⟨subscribers, by rw [List.foldl_cons, value]; rfl, nodup', fun other source => ?_⟩
      rw [mem, State.removeSubscriber]
      by_cases here : source = first
      · rw [here]
        simp only [Function.update_self, (nodup first).mem_erase_iff]
        by_cases mine : other = sub <;> simp [mine]
      · simp [here]

/-- A subscriber without sources, ready to run its function. -/
theorem clearSources_ok [Fintype μ] (sub : Subscriber μ) (busy' silent : μ → Prop) (bound : ℕ)
    (inv : Inv g busy st) (busier : ∀ n, busy n → busy' n) (mine : ∀ n, sub = .memo n → busy' n)
    (marked : ∀ n, busy' n → st.state n ≠ .clean) :
    ∃ st', st.clearSources sub = st' ∧ Inv g busy' st' ∧
      Frame g busy' (· = sub) silent bound st st' ∧ st'.sources sub = [] ∧
      st'.cached = st.cached ∧ st'.observer = st.observer := by
  rcases removeSubscribers_eq { st with sources := Function.update st.sources sub [] } sub
    (st.sources sub) inv.nodup with ⟨subscribers, value, nodup, mem⟩
  refine ⟨_, value, ⟨fun other source => ?_, nodup, fun a b member => ?_, fun a b member => ?_,
    marked, fun n idle stale => ?_⟩, ?_, by simp, rfl, rfl⟩
  · rw [mem, inv.subscribed]
    by_cases own : other = sub
    · simp [own]
    · simp [own]
  · simp only [Function.update_apply] at member
    split at member
    · cases member
    · exact inv.mayRead a b member
  · simp only [Function.update_apply] at member
    split at member
    · cases member
    · exact inv.closed a b member
  · have apart : Subscriber.memo n ≠ sub := fun same => idle (mine n same.symm)
    rcases inv.upToDate n (fun runs => idle (busier n runs)) stale with
      ⟨value, reads, trace, cached, sources⟩
    exact ⟨value, reads, trace, cached, by rw [← sources]; simp [apart]⟩
  · refine .of_same rfl rfl rfl rfl rfl (fun other apart => ?_) fun n own =>
      marked n (mine n own.symm)
    simp [apart]

/-! ## Storing a new value -/

/-- A memo whose function has run is stored; `busy'` are the memos that do not know of it yet. -/
theorem store_inv [Fintype μ] {value : V} {reads : List (Source σ μ)}
    (inv : Inv g (fun n => busy n ∨ n = m) st)
    (trace : (g.fn m).trace st.signals st.cached = some (value, reads))
    (sources : st.sources (.memo m) = indexSet reads)
    (clean : ∀ n, .memo n ∈ reads → st.state n = .clean)
    (marked : ∀ n, busy' n → n ≠ m ∧ st.state n ≠ .clean)
    (fresh : ∀ n, ¬ busy' n → n ≠ m →
      ¬ busy n ∧ (.memo m ∈ st.sources (.memo n) → st.cached m = some value)) :
    Inv g busy'
      (State.mark { st with cached := Function.update st.cached m (some value) } m .clean) := by
  have apart : ∀ n, .memo n ∈ reads → n ≠ m := by
    intro n read same
    have lower := g.rank_lt (Computation.mayRead_of_trace trace read)
    rw [same] at lower
    exact lt_irrefl _ lower
  refine ⟨inv.subscribed, inv.nodup, inv.mayRead, fun a b member now => ?_, fun n busy => ?_,
    fun n idle stale => ?_⟩
  · rw [mark_state] at now ⊢
    split
    · rfl
    · split at now
      next same =>
        subst same
        have source : .memo b ∈ st.sources (.memo a) := member
        rw [sources, mem_indexSet] at source
        exact clean b source
      · exact inv.closed a b member now
  · rw [mark_state, if_neg (marked n busy).1]
    exact (marked n busy).2
  · by_cases same : n = m
    · subst same
      refine ⟨value, reads, ?_, by simp [State.mark], sources⟩
      exact Computation.trace_congr trace (fun _ _ => rfl) fun p read => by
        simp [State.mark, apart p read]
    · rw [mark_state, if_neg same] at stale
      rcases fresh n idle same with ⟨idle', known⟩
      rcases inv.upToDate n (by simp [idle', same]) stale with
        ⟨value', reads', trace', cached', sources'⟩
      refine ⟨value', reads', ?_, ?_, sources'⟩
      · refine Computation.trace_congr trace' (fun _ _ => rfl) fun p read => ?_
        simp only [State.mark, Function.update_apply]
        split
        next is =>
          subst is
          exact (known (by rw [sources', mem_indexSet]; exact read)).symm
        · rfl
      · simpa [State.mark, Function.update_apply, same] using cached'

/-- The end of a recomputation. -/
theorem store_ok [Fintype μ] (changed : Bool) {value : V} {reads : List (Source σ μ)}
    (inv : Inv g (fun n => busy n ∨ n = m) st) (idle : ¬ busy m)
    (observers : ∀ p, st.observer = some (.memo p) → busy p)
    (trace : (g.fn m).trace st.signals st.cached = some (value, reads))
    (sources : st.sources (.memo m) = indexSet reads)
    (clean : ∀ n, .memo n ∈ reads → st.state n = .clean)
    (unchanged : changed = false → st.cached m = some value) :
    ∃ st', store (Fintype.card μ) m value changed st = some (changed, st') ∧ Inv g busy st' ∧
      st'.observer = st.observer ∧ st'.state m = .clean ∧ st'.cached m = some value ∧
      Frame g busy (fun _ => False) (fun p => st.observer = some .effect ∧ p = m) (g.rank m + 1)
        st st' := by
  have stale : st.state m ≠ .clean := inv.marked m (Or.inr rfl)
  -- the value is stored
  obtain ⟨stored, value_eq⟩ : ∃ stored : State σ μ V, stored =
      State.mark { st with cached := Function.update st.cached m (some value) } m .clean := ⟨_, rfl⟩
  have cached : ∀ n, n ≠ m → stored.cached n = st.cached n := fun n other => by
    simp [value_eq, State.mark, other]
  have state : ∀ n, stored.state n = if n = m then .clean else st.state n := fun n => by
    rw [value_eq, mark_state]
  have stored_m : stored.cached m = some value := by simp [value_eq, State.mark]
  have same_sources : stored.sources = st.sources := by rw [value_eq]; rfl
  have same_subscribers : stored.subscribers = st.subscribers := by rw [value_eq]; rfl
  -- the frame of what comes after, once the subscribers know
  have framed : ∀ st', Dirtied stored st' →
      (changed = true → ∀ sub ∈ st.subscribers (.memo m), st.observer ≠ some sub →
        (∀ n, sub = .memo n → st'.state n = .dirty) ∧ (sub = .effect → st'.dirty = true)) →
      Frame g busy (fun _ => False) (fun p => st.observer = some .effect ∧ p = m) (g.rank m + 1)
        st st' := by
    intro st' dirtied told
    have clean_m : st'.state m = .clean := dirtied.clean (by simp [state])
    have kept : ∀ n, n ≠ m → st'.cached n = st.cached n := fun n other => by
      rw [dirtied.marked.cached, cached n other]
    have sources' : st'.sources = st.sources := dirtied.marked.sources.trans same_sources
    have only : ∀ p, st'.cached p ≠ st.cached p → p = m ∧ changed = true := by
      intro p differs
      have same : p = m := by
        by_contra other
        exact differs (kept p other)
      refine ⟨same, ?_⟩
      by_contra equal
      apply differs
      rw [same, dirtied.marked.cached, stored_m, unchanged (by simpa using equal)]
    exact {
      signals := dirtied.marked.signals.trans (by rw [value_eq]; rfl)
      dirty := fun was => dirtied.marked.dirty (by rw [value_eq]; exact was)
      notified := fun was => dirtied.marked.notified (by rw [value_eq]; exact was)
      told := fun is => (dirtied.marked.told is).imp (fun was => by rwa [value_eq] at was) id
      clean := fun n was => by
        have other : n ≠ m := fun same => stale (same ▸ was)
        exact ⟨dirtied.clean (by rw [state, if_neg other, was]), kept n other, by rw [sources']⟩
      stale := fun n is => by
        have other : n ≠ m := fun same => is (same ▸ clean_m)
        exact ⟨kept n other, fun was =>
          dirtied.marked.stays n (by rw [state, if_neg other, was])⟩
      sources := fun n _ _ => by rw [sources']
      effect := fun _ => by rw [sources']
      above := fun n high was => by
        have other : n ≠ m := fun same => by rw [same] at high; omega
        exact dirtied.marked.raised n (by rw [state, if_neg other]; exact was)
      noticed := fun p n differs source idle' _ => by
        rcases only p differs with ⟨rfl, now⟩
        have subscribes := (inv.subscribed (.memo n) (.memo p)).2 source
        have unobserved : st.observer ≠ some (.memo n) := fun is => idle' (observers n is)
        rw [(told now _ subscribes unobserved).1 n rfl]
        simp
      heard := fun _ p differs source => by
        rcases only p differs with ⟨rfl, now⟩
        have subscribes := (inv.subscribed .effect (.memo p)).2 source
        by_cases observes : st.observer = some .effect
        · exact Or.inr ⟨observes, rfl⟩
        · exact Or.inl ((told now _ subscribes observes).2 rfl) }
  cases changed with
  | false =>
      refine ⟨stored, by rw [value_eq]; rfl, ?_, by rw [value_eq]; rfl, by simp [state], stored_m,
        framed stored (.refl stored) (by simp)⟩
      rw [value_eq]
      refine store_inv inv trace sources clean (fun n runs => ⟨fun same => idle (same ▸ runs),
        inv.marked n (Or.inl runs)⟩) fun n runs _ => ⟨runs, fun _ => unchanged rfl⟩
  | true =>
      -- until they are marked, the memo's subscribers count as busy
      have inv' : Inv g (fun n => busy n ∨ .memo m ∈ st.sources (.memo n)) stored := by
        rw [value_eq]
        refine store_inv inv trace sources clean (fun n runs => ?_) fun n runs other =>
          ⟨fun is => runs (Or.inl is), fun source => absurd (Or.inr source) runs⟩
        rcases runs with runs | source
        · exact ⟨fun same => idle (same ▸ runs), inv.marked n (Or.inl runs)⟩
        · refine ⟨fun same => ?_, fun is => stale (inv.closed n m source is)⟩
          have lower := g.rank_lt (inv.mayRead n m source)
          rw [same] at lower
          exact lt_irrefl _ lower
      rcases markChanged_ok inv'.ranked inv'.markedUp
        (fun n (member : .memo n ∈ stored.subscribers (.memo m)) => inv'.marked n (Or.inr (by
          rw [← same_sources]
          exact (inv'.subscribed _ _).1 member))) with ⟨last, run, dirtied, told⟩
      have observer : stored.observer = st.observer := by rw [value_eq]; rfl
      rw [same_subscribers, observer] at told
      refine ⟨last, ?_, ?_, dirtied.marked.observer.trans observer, dirtied.clean (by simp [state]),
        by rw [dirtied.marked.cached, stored_m], framed last dirtied fun _ => told⟩
      · rw [store, ← value_eq, if_pos rfl, run]
        rfl
      · refine ⟨fun sub source => ?_, fun source => ?_, fun a b member => ?_,
          fun a b member now => ?_, fun n runs => ?_, fun n runs stale' => ?_⟩
        · rw [dirtied.marked.subscribers, dirtied.marked.sources]
          exact inv'.subscribed sub source
        · rw [dirtied.marked.subscribers]
          exact inv'.nodup source
        · rw [dirtied.marked.sources] at member
          exact inv'.mayRead a b member
        · rw [dirtied.marked.sources] at member
          have before : stored.state a = .clean := by
            by_contra is
            exact dirtied.marked.raised a is now
          exact dirtied.clean (inv'.closed a b member before)
        · exact dirtied.marked.raised n (inv'.marked n (Or.inl runs))
        · have before : stored.state n ≠ .dirty := fun is => stale' (dirtied.marked.stays n is)
          have unread : .memo m ∉ st.sources (.memo n) := by
            intro source
            have subscribes := (inv.subscribed (.memo n) (.memo m)).2 source
            exact stale' ((told _ subscribes fun is => runs (observers n is)).1 n rfl)
          rcases inv'.upToDate n (by simp [runs, unread]) before with
            ⟨value', reads', trace', cached', sources'⟩
          exact ⟨value', reads', by rw [dirtied.marked.signals, dirtied.marked.cached, trace'],
            by rw [dirtied.marked.cached, cached'], by rw [dirtied.marked.sources, sources']⟩

/-! ## Recomputing -/

variable [Fintype μ]

theorem recompute_ok [DecidableEq V] {update : μ → State σ μ V → Option (Bool × State σ μ V)}
    (inv : Inv g busy st) (stale : st.state m ≠ .clean)
    (low : ∀ p, busy p → g.rank m < g.rank p)
    (observers : ∀ p, st.observer = some (.memo p) → busy p)
    (updates : ∀ n, (g.fn m).MayRead n → UpdateOk g update n) :
    ∃ changed st', recompute update (Fintype.card μ) g.fn m st = some (changed, st') ∧
      Inv g busy st' ∧ st'.observer = st.observer ∧ st'.state m = .clean ∧
      (changed = true ↔ st'.cached m ≠ st.cached m) ∧
      Frame g busy (fun _ => False) (fun p => st.observer = some .effect ∧ p = m) (g.rank m + 1)
        st st' := by
  have idle : ¬ busy m := fun runs => lt_irrefl _ (low m runs)
  -- the old sources are cleared, and the memo's function runs
  rcases clearSources_ok (.memo m) (fun n => busy n ∨ n = m)
    (fun p => st.observer = some .effect ∧ p = m) (g.rank m + 1) inv (fun n => Or.inl)
    (fun n mine => Or.inr (Subscriber.memo.inj mine).symm) (fun n runs => by
      rcases runs with runs | same
      · exact inv.marked n runs
      · exact same ▸ stale) with
    ⟨cleared, clears, invClear, frameClear, sourcesClear, cachedClear, observerClear⟩
  rcases run_ok update (g.fn m) (fun p => st.observer = some .effect ∧ p = m) (g.rank m + 1) [] []
    (invClear.observe (some (.memo m))) rfl
    (fun n mine => by
      cases mine
      exact ⟨Or.inr rfl, fun _ => id⟩)
    (fun n reads => by
      have lower := g.rank_lt reads
      refine ⟨by omega, fun p runs => ?_⟩
      rcases runs with runs | same
      · exact lower.trans (low p runs)
      · exact same ▸ lower) updates sourcesClear (by simp) with
    ⟨value, log, ran, run, invRun, frameRun, -, trace, sources, clean, -⟩
  -- the observer is restored, and the value is stored
  have frameRun' := (frameRun.observe cleared.observer st.observer)
  have unwritten : ran.cached m = st.cached m := by
    rw [(frameRun.stale m (invRun.marked m (Or.inr rfl))).1]
    exact congrFun cachedClear m
  rcases store_ok (decide (st.cached m ≠ some value)) (invRun.observe st.observer) idle
    observers trace (by simpa using sources) (by simpa using clean)
    (fun same => by simpa [unwritten] using same) with
    ⟨st', stored, invStore, observerStore, cleanStore, cachedStore, frameStore⟩
  refine ⟨decide (st.cached m ≠ some value), st', ?_, invStore, observerStore, cleanStore, ?_, ?_⟩
  · rw [recompute, withObserver, clears, run, observerClear]
    exact stored
  · rw [cachedStore, decide_eq_true_iff]
    exact ne_comm
  · refine ((frameClear.trans frameRun').trans (frameStore.weaken (fun n => Or.inl)
      (fun _ => False.elim) (fun _ _ => id) le_rfl)).settle cleanStore

/-! ## Polling the sources -/

/-- While the memo is marked `Check`, what is left of its sources is polled. -/
theorem anyUpdated_ok {update : μ → State σ μ V → Option (Bool × State σ μ V)}
    {now : State σ μ V} {before sources : List (Source σ μ)} (inv : Inv g busy now)
    (low : ∀ p, busy p → g.rank m < g.rank p)
    (observers : ∀ p, now.observer = some (.memo p) → busy p)
    (updates : ∀ n, .memo n ∈ st.sources (.memo m) → UpdateOk g update n)
    (split : st.sources (.memo m) = before ++ sources)
    (frame : Frame g busy (fun _ => False)
      (fun p => now.observer = some .effect ∧ PolledFrom g st m p) (g.rank m) st now)
    (check : now.state m = .check) (clean : ∀ n, .memo n ∈ before → now.state n = .clean) :
    ∃ needs st', anyUpdated update m sources now = some (needs, st') ∧ Inv g busy st' ∧
      st'.observer = now.observer ∧ st'.state m ≠ .clean ∧
      (needs = false → st'.state m = .check ∧
        ∀ n, .memo n ∈ st.sources (.memo m) → st'.state n = .clean) ∧
      Frame g busy (fun _ => False)
        (fun p => now.observer = some .effect ∧ PolledFrom g st m p) (g.rank m) st st' := by
  induction sources generalizing now before with
  | nil =>
      rw [List.append_nil] at split
      exact ⟨false, now, rfl, inv, rfl, by simp [check], fun _ => ⟨check, by rwa [split]⟩, frame⟩
  | cons source rest ih =>
      have split' : st.sources (.memo m) = (before ++ [source]) ++ rest := by
        rw [split]
        simp
      cases source with
      | signal s =>
          rcases ih inv observers split' frame check (by simpa using clean) with
            ⟨needs, st', run, result⟩
          refine ⟨needs, st', ?_, result⟩
          rw [anyUpdated, updateSource, Option.bind_some, check]
          simpa using run
      | memo n =>
          have source : .memo n ∈ st.sources (.memo m) := by
            rw [split]
            simp
          have same : now.sources (.memo m) = st.sources (.memo m) :=
            frame.sources m (by simp [check]) (by simp)
          have lower := g.rank_lt (inv.mayRead m n (by rw [same]; exact source))
          rcases updates n source busy now inv (fun p runs => lower.trans (low p runs)) observers
            with ⟨changed, next, update', invNext, observerNext, cleanNext, -, frameNext⟩
          have idle : ¬ busy m := fun runs => lt_irrefl _ (low m runs)
          have polls : Polls g st m n := by
            refine Polls.before frame idle ⟨check, before, rest, by rw [same, split], ?_⟩
            exact fun p member => (inv.clean_eval (clean p member)).1
          have frameAll : Frame g busy (fun _ => False)
              (fun p => now.observer = some .effect ∧ PolledFrom g st m p) (g.rank m) st next := by
            refine frame.trans (frameNext.weaken (fun _ => id) (fun _ => id)
              (fun _ p quiet => ⟨quiet.1, ?_⟩) lower)
            exact .head polls (quiet.2.before frame inv fun p runs => lower.trans (low p runs))
          have stale : next.state m ≠ .clean := frameNext.above m lower (by simp [check])
          by_cases stop : changed = true ∨ next.state m = .dirty
          · refine ⟨true, next, ?_, invNext, observerNext, stale, by simp, frameAll⟩
            rw [anyUpdated, updateSource, update', Option.bind_some, if_pos (by simpa using stop)]
          · rcases not_or.1 stop with ⟨_, notDirty⟩
            have check' : next.state m = .check := by
              cases value : next.state m <;> simp_all
            rw [← observerNext] at frameAll
            rcases ih invNext (by rw [observerNext]; exact observers) split' frameAll check'
              (fun p member => by
                rcases List.mem_append.1 member with old | new
                · exact (frameNext.clean p (clean p old)).1
                · rw [List.mem_singleton, Source.memo.injEq] at new
                  rw [new, cleanNext]) with
              ⟨needs, st', run, inv', observer', result⟩
            rw [observerNext] at result
            refine ⟨needs, st', ?_, inv', observer'.trans observerNext, result⟩
            rw [anyUpdated, updateSource, update', Option.bind_some,
              if_neg (by simpa using stop)]
            exact run

/-! ## The update -/

/-- A polled memo none of whose sources changed is clean. -/
theorem markClean_ok (inv : Inv g busy st) (idle : ¬ busy m) (check : st.state m = .check)
    (clean : ∀ n, .memo n ∈ st.sources (.memo m) → st.state n = .clean) :
    Inv g busy (st.mark m .clean) ∧
      Frame g busy (fun _ => False) (fun _ => False) (g.rank m + 1) st (st.mark m .clean) := by
  have raised : ∀ n, n ≠ m → (st.mark m .clean).state n = st.state n := fun n other => by
    rw [mark_state, if_neg other]
  have here : (st.mark m .clean).state m = .clean := by rw [mark_state, if_pos rfl]
  refine ⟨⟨inv.subscribed, inv.nodup, inv.mayRead, fun a b member now => ?_, fun n runs => ?_,
    fun n runs stale => ?_⟩, ?_⟩
  · by_cases last : b = m
    · rw [last, here]
    · rw [raised b last]
      by_cases first : a = m
      · exact clean b (first ▸ member)
      · exact inv.closed a b member (by rwa [raised a first] at now)
  · rw [raised n fun same => idle (same ▸ runs)]
    exact inv.marked n runs
  · refine inv.upToDate n runs fun is => stale ?_
    by_cases same : n = m
    · rw [same, check] at is
      cases is
    · rw [raised n same, is]
  · exact {
      signals := rfl
      dirty := id
      notified := id
      told := Or.inl
      clean := fun n was => ⟨by rw [raised n fun same => by simp [same, check] at was, was], rfl,
        rfl⟩
      stale := fun n is => ⟨rfl, fun was => by
        rw [raised n fun same => is (same ▸ here), was]⟩
      sources := fun _ _ _ => rfl
      effect := fun _ => rfl
      above := fun n high was => by
        rw [raised n fun same => by rw [same] at high; omega]
        exact was
      noticed := fun _ _ changed => absurd rfl changed
      heard := fun _ _ changed => absurd rfl changed }

variable [DecidableEq V]

theorem update_ok {depth : ℕ} {m : μ} (deep : g.rank m < depth) :
    UpdateOk g (updateIfNecessary g depth) m := by
  induction depth generalizing m with
  | zero => omega
  | succ depth ih =>
      intro busy st inv low observers
      have updates : ∀ n, (g.fn m).MayRead n → UpdateOk g (updateIfNecessary g depth) n := by
        intro n reads
        have lower := g.rank_lt reads
        exact ih (by omega)
      cases state : st.state m with
      | clean =>
          have same : st.mark m .clean = st := by
            rw [State.mark, ← state, Function.update_eq_self]
          refine ⟨false, st, ?_, inv, rfl, state, by simp, (Frame.refl st)⟩
          rw [updateIfNecessary, needsUpdate, state, Option.bind_some, if_neg (by simp), same]
      | dirty =>
          obtain ⟨changed, st', run, inv', observer, clean, iff, frame⟩ :=
            recompute_ok inv (by simp [state]) low observers updates
          refine ⟨changed, st', ?_, inv', observer, clean, iff,
            frame.weaken (fun _ => id) (fun _ => id) (fun _ p quiet => ?_) le_rfl⟩
          · rw [updateIfNecessary, needsUpdate, state, Option.bind_some, if_pos rfl, run]
          · exact ⟨quiet.1, quiet.2 ▸ .refl⟩
      | check =>
          have idle : ¬ busy m := fun runs => lt_irrefl _ (low m runs)
          obtain ⟨needs, polled, poll, invPoll, observerPoll, stale, unchanged, framePoll⟩ :=
            anyUpdated_ok inv low observers (fun n source => updates n (inv.mayRead m n source))
              (List.nil_append _).symm (Frame.refl st) state (by simp)
          have framePoll' : Frame g busy (fun _ => False)
              (fun p => st.observer = some .effect ∧ PolledFrom g st m p) (g.rank m + 1) st
              polled := framePoll.weaken (fun _ => id) (fun _ => id) (fun _ _ => id) (Nat.le_succ _)
          have cached := (framePoll.stale m stale).1
          cases needs with
          | true =>
              obtain ⟨changed, st', run, inv', observer, clean, iff, frame⟩ :=
                recompute_ok invPoll stale low (by rwa [observerPoll]) updates
              refine ⟨changed, st', ?_, inv', observer.trans observerPoll, clean,
                by rw [iff, cached], framePoll'.trans (frame.weaken (fun _ => id) (fun _ => id)
                  (fun _ p quiet => ?_) le_rfl)⟩
              · rw [updateIfNecessary, needsUpdate, state]
                simp only
                rw [poll, Option.bind_some, if_pos rfl, run]
              · exact ⟨observerPoll ▸ quiet.1, quiet.2 ▸ .refl⟩
          | false =>
              obtain ⟨check, clean⟩ := unchanged rfl
              have sources := framePoll.sources m stale (by simp)
              obtain ⟨inv', frame⟩ := markClean_ok invPoll idle check (by rwa [sources])
              refine ⟨false, polled.mark m .clean, ?_, inv', observerPoll, by simp, ?_,
                framePoll'.trans (frame.weaken (fun _ => id) (fun _ => id) (fun _ _ => False.elim)
                  le_rfl)⟩
              · rw [updateIfNecessary, needsUpdate, state]
                simp only
                rw [poll, Option.bind_some, if_neg (by simp)]
              · simpa [State.mark] using cached

end Halyard.Reactive
