import Halyard.Reactive.Invariant

/-!
# What an update leaves alone

`Frame` relates the states before and after part of an update.  Clean memos stay as they were,
memos that are not clean afterwards were not touched (but for marks), and whoever subscribes to a
memo whose value changed has noticed.  The effect may fail to notice while it is the observer:
`silent` are the memos whose change it can miss, and `PolledFrom` says which those are.
-/

namespace Halyard.Reactive

variable {σ μ V : Type*} {g : Graph σ μ V}

/-- Of a memo marked `Check`, the sources before the first that has changed are polled, and that
one. -/
def Polls [Fintype μ] (g : Graph σ μ V) (st : State σ μ V) (m n : μ) : Prop :=
  st.state m = .check ∧ ∃ before after, st.sources (.memo m) = before ++ .memo n :: after ∧
    ∀ p, .memo p ∈ before → st.cached p = some (g.eval st.signals p)

/-- An update of the first memo polls its way to the second. -/
def PolledFrom [Fintype μ] (g : Graph σ μ V) (st : State σ μ V) : μ → μ → Prop :=
  Relation.ReflTransGen (Polls g st)

/-- From `st` to `st'`, part of an update: `busy` are the memos whose functions are running,
`writes` the subscriber whose function runs in this part, and no memo of rank `bound` or above is
made clean. -/
structure Frame [Fintype μ] (g : Graph σ μ V) (busy : μ → Prop) (writes : Subscriber μ → Prop)
    (silent : μ → Prop) (bound : ℕ) (st st' : State σ μ V) : Prop where
  signals : st'.signals = st.signals
  dirty : st.dirty = true → st'.dirty = true
  notified : st.notified = true → st'.notified = true
  told : st'.dirty = true → st.dirty = true ∨ st'.notified = true
  clean : ∀ n, st.state n = .clean → st'.state n = .clean ∧ st'.cached n = st.cached n ∧
    st'.sources (.memo n) = st.sources (.memo n)
  stale : ∀ n, st'.state n ≠ .clean → st'.cached n = st.cached n ∧
    (st.state n = .dirty → st'.state n = .dirty)
  sources : ∀ n, st'.state n ≠ .clean → ¬ writes (.memo n) →
    st'.sources (.memo n) = st.sources (.memo n)
  effect : ¬ writes .effect → st'.sources .effect = st.sources .effect
  above : ∀ n, bound ≤ g.rank n → st.state n ≠ .clean → st'.state n ≠ .clean
  noticed : ∀ p n, st'.cached p ≠ st.cached p → .memo p ∈ st.sources (.memo n) → ¬ busy n →
    ¬ writes (.memo n) → st'.state n ≠ .check
  heard : ¬ writes .effect → ∀ p, st'.cached p ≠ st.cached p → .memo p ∈ st.sources .effect →
    st'.dirty = true ∨ silent p

section Frames

variable [Fintype μ] {busy busy' : μ → Prop} {writes writes' : Subscriber μ → Prop}
variable {silent silent' : μ → Prop} {bound bound' : ℕ} {st st' st'' : State σ μ V}

/-- What is not clean afterwards was not clean before. -/
theorem Frame.not_clean (frame : Frame g busy writes silent bound st st') {n : μ}
    (stale : st'.state n ≠ .clean) : st.state n ≠ .clean :=
  fun clean => stale (frame.clean n clean).1

/-- A frame in which nothing happens but that subscriptions of `writes` change. -/
theorem Frame.of_same (signals : st'.signals = st.signals) (cached : st'.cached = st.cached)
    (state : st'.state = st.state) (dirty : st'.dirty = st.dirty)
    (notified : st'.notified = st.notified)
    (sources : ∀ sub, ¬ writes sub → st'.sources sub = st.sources sub)
    (marked : ∀ n, writes (.memo n) → st.state n ≠ .clean) :
    Frame g busy writes silent bound st st' where
  signals := signals
  dirty := fun was => dirty.trans was
  notified := fun was => notified.trans was
  told := fun is => Or.inl (dirty.symm.trans is)
  clean := fun n clean => ⟨by rw [state, clean], by rw [cached],
    sources _ fun writes => marked n writes clean⟩
  stale := fun n _ => ⟨by rw [cached], fun dirty => by rw [state, dirty]⟩
  sources := fun n _ other => sources _ other
  effect := sources .effect
  above := fun n _ stale => by rwa [state]
  noticed := fun p n changed => absurd (by rw [cached]) changed
  heard := fun _ p changed => absurd (by rw [cached]) changed

theorem Frame.refl (st : State σ μ V) : Frame g busy (fun _ => False) silent bound st st :=
  .of_same rfl rfl rfl rfl rfl (fun _ _ => rfl) (fun _ => False.elim)

theorem Frame.trans (left : Frame g busy writes silent bound st st')
    (right : Frame g busy writes silent bound st' st'') :
    Frame g busy writes silent bound st st'' where
  signals := right.signals.trans left.signals
  dirty := fun was => right.dirty (left.dirty was)
  notified := fun was => right.notified (left.notified was)
  told := fun dirty => (right.told dirty).elim
    (fun before => (left.told before).imp id right.notified) Or.inr
  clean := fun n clean => by
    rcases left.clean n clean with ⟨clean', cached, sources⟩
    rcases right.clean n clean' with ⟨clean'', cached', sources'⟩
    exact ⟨clean'', cached'.trans cached, sources'.trans sources⟩
  stale := fun n stale => by
    rcases right.stale n stale with ⟨cached', dirty'⟩
    rcases left.stale n (right.not_clean stale) with ⟨cached, dirty⟩
    exact ⟨cached'.trans cached, fun was => dirty' (dirty was)⟩
  sources := fun n stale other =>
    (right.sources n stale other).trans (left.sources n (right.not_clean stale) other)
  effect := fun other => (right.effect other).trans (left.effect other)
  above := fun n high stale => right.above n high (left.above n high stale)
  noticed := fun p n changed source idle other check => by
    have stale' : st'.state n ≠ .clean := right.not_clean (by simp [check])
    by_cases early : st'.cached p = st.cached p
    · have source' : .memo p ∈ st'.sources (.memo n) := by
        rw [left.sources n stale' other]
        exact source
      exact right.noticed p n (early ▸ changed) source' idle other check
    · have dirty : st'.state n = .dirty := by
        have := left.noticed p n early source idle other
        cases value : st'.state n <;> simp_all
      have := (right.stale n (by simp [check])).2 dirty
      rw [check] at this
      cases this
  heard := fun other p changed source => by
    by_cases early : st'.cached p = st.cached p
    · exact right.heard other p (early ▸ changed) (by rw [left.effect other]; exact source)
    · exact (left.heard other p early source).imp right.dirty id

/-- A frame says less of more memos. -/
theorem Frame.weaken (frame : Frame g busy writes silent bound st st')
    (busier : ∀ n, busy n → busy' n) (writesMore : ∀ sub, writes sub → writes' sub)
    (quieter : ¬ writes' .effect → ∀ p, silent p → silent' p) (higher : bound ≤ bound') :
    Frame g busy' writes' silent' bound' st st' where
  signals := frame.signals
  dirty := frame.dirty
  notified := frame.notified
  told := frame.told
  clean := frame.clean
  stale := frame.stale
  sources := fun n stale other => frame.sources n stale fun writes => other (writesMore _ writes)
  effect := fun other => frame.effect fun writes => other (writesMore _ writes)
  above := fun n high => frame.above n (higher.trans high)
  noticed := fun p n changed source idle other => frame.noticed p n changed source
    (fun runs => idle (busier n runs)) fun writes => other (writesMore _ writes)
  heard := fun other p changed source =>
    (frame.heard (fun writes => other (writesMore _ writes)) p changed source).imp id
      (quieter other p)

/-- The sources of a subscriber that does not run its function. -/
theorem Frame.sources_of (frame : Frame g busy writes silent bound st st') {sub : Subscriber μ}
    (stale : ∀ m, sub = .memo m → st'.state m ≠ .clean) (other : ¬ writes sub) :
    st'.sources sub = st.sources sub := by
  cases sub with
  | memo m => exact frame.sources m (stale m rfl) other
  | effect => exact frame.effect other

/-- A frame does not depend on the observers. -/
theorem Frame.observe (frame : Frame g busy writes silent bound st st')
    (before after : Option (Subscriber μ)) :
    Frame g busy writes silent bound { st with observer := before }
      { st' with observer := after } :=
  ⟨frame.signals, frame.dirty, frame.notified, frame.told, frame.clean, frame.stale, frame.sources,
    frame.effect, frame.above, frame.noticed, frame.heard⟩

/-- Once a memo's function has run and the memo is clean, what it wrote no longer matters. -/
theorem Frame.settle {m : μ}
    (frame : Frame g (fun n => busy n ∨ n = m) (· = .memo m) silent bound st st')
    (clean : st'.state m = .clean) : Frame g busy (fun _ => False) silent bound st st' where
  signals := frame.signals
  dirty := frame.dirty
  notified := frame.notified
  told := frame.told
  clean := frame.clean
  stale := frame.stale
  sources := fun n stale _ => frame.sources n stale fun same => by
    rw [Subscriber.memo.inj same] at stale
    exact stale clean
  effect := fun _ => frame.effect (by simp)
  above := frame.above
  noticed := fun p n changed source idle _ => by
    by_cases same : n = m
    · rw [same, clean]
      simp
    · exact frame.noticed p n changed source (by simp [idle, same]) (by simp [same])
  heard := fun _ => frame.heard (by simp)

/-- What is polled after an update was polled before. -/
theorem Polls.before (frame : Frame g busy (fun _ => False) silent bound st st') {m n : μ}
    (idle : ¬ busy m) (polls : Polls g st' m n) : Polls g st m n := by
  rcases polls with ⟨check, before, after, split, same⟩
  have stale : st'.state m ≠ .clean := by simp [check]
  have sources := frame.sources m stale (by simp)
  refine ⟨?_, before, after, by rw [← sources, split], fun p member => ?_⟩
  · cases value : st.state m with
    | check => rfl
    | clean => exact absurd value (frame.not_clean stale)
    | dirty =>
        have := (frame.stale m stale).2 value
        rw [check] at this
        cases this
  · have source : .memo p ∈ st.sources (.memo m) := by
      rw [← sources, split]
      exact List.mem_append_left _ member
    by_cases changed : st'.cached p = st.cached p
    · rw [← changed, ← frame.signals]
      exact same p member
    · exact absurd check (frame.noticed p m changed source idle (by simp))

theorem PolledFrom.before [DecidableEq σ] [DecidableEq μ]
    (frame : Frame g busy (fun _ => False) silent bound st st')
    (inv : Inv g busy st') {m n : μ} (low : ∀ p, busy p → g.rank m < g.rank p)
    (polled : PolledFrom g st' m n) : PolledFrom g st m n := by
  induction polled using Relation.ReflTransGen.head_induction_on with
  | refl => exact .refl
  | @head a b polls _ ih =>
      have idle : ¬ busy a := fun runs => lt_irrefl _ (low a runs)
      refine .head (polls.before frame idle) (ih fun p runs => ?_)
      rcases polls with ⟨-, first, rest, split, -⟩
      have lower := g.rank_lt (inv.mayRead a b (by rw [split]; simp))
      exact lower.trans (low p runs)

end Frames

end Halyard.Reactive
