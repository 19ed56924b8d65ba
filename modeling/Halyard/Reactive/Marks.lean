import Halyard.Reactive.State

/-!
# What marking does

`mark_check` and `mark_dirty` raise marks along subscribers and touch nothing else (`Marked`), and
whatever they mark, they mark its subscribers too (`Spread`).  Where everything downstream of a
marked node is marked already, nothing spreads (`markCheck_quiet`).
-/

namespace Halyard.Reactive

variable {σ μ V : Type*}

/-- From one state to another only marks and the effect's flags are raised. -/
structure Marked (st st' : State σ μ V) : Prop where
  signals : st'.signals = st.signals
  cached : st'.cached = st.cached
  sources : st'.sources = st.sources
  subscribers : st'.subscribers = st.subscribers
  observer : st'.observer = st.observer
  raised : ∀ m, st.state m ≠ .clean → st'.state m ≠ .clean
  stays : ∀ m, st.state m = .dirty → st'.state m = .dirty
  dirty : st.dirty = true → st'.dirty = true
  notified : st.notified = true → st'.notified = true
  told : st'.dirty = true → st.dirty = true ∨ st'.notified = true

theorem Marked.refl (st : State σ μ V) : Marked st st :=
  ⟨rfl, rfl, rfl, rfl, rfl, fun _ => id, fun _ => id, id, id, Or.inl⟩

theorem Marked.trans {first second third : State σ μ V} (left : Marked first second)
    (right : Marked second third) : Marked first third where
  signals := right.signals.trans left.signals
  cached := right.cached.trans left.cached
  sources := right.sources.trans left.sources
  subscribers := right.subscribers.trans left.subscribers
  observer := right.observer.trans left.observer
  raised := fun m marked => right.raised m (left.raised m marked)
  stays := fun m marked => right.stays m (left.stays m marked)
  dirty := fun marked => right.dirty (left.dirty marked)
  notified := fun marked => right.notified (left.notified marked)
  told := fun dirty => (right.told dirty).elim
    (fun before => (left.told before).imp id right.notified) Or.inr

/-- The subscriber knows that something may have changed. -/
def Subscriber.MarkedIn (sub : Subscriber μ) (st : State σ μ V) : Prop :=
  match sub with
  | .memo m => st.state m ≠ .clean
  | .effect => st.notified = true

theorem Subscriber.MarkedIn.mono {sub : Subscriber μ} {st st' : State σ μ V}
    (marked : sub.MarkedIn st) (raise : Marked st st') : sub.MarkedIn st' := by
  cases sub with
  | memo m => exact raise.raised m marked
  | effect => exact raise.notified marked

/-- Marks are raised, and those of the subscribers of whatever is newly marked. -/
structure Spread (st st' : State σ μ V) : Prop where
  marked : Marked st st'
  spreads : ∀ m, st.state m = .clean → st'.state m ≠ .clean →
    ∀ sub ∈ st.subscribers (.memo m), sub.MarkedIn st'

theorem Spread.refl (st : State σ μ V) : Spread st st :=
  ⟨.refl st, fun _ clean marked => absurd clean marked⟩

theorem Spread.trans {first second third : State σ μ V} (left : Spread first second)
    (right : Spread second third) : Spread first third := by
  refine ⟨left.marked.trans right.marked, fun m clean marked sub member => ?_⟩
  by_cases before : second.state m = .clean
  · exact right.spreads m before marked sub (by rw [left.marked.subscribers]; exact member)
  · exact (left.spreads m clean before sub member).mono right.marked

/-- No memo is dirty that was not, and neither is the effect. -/
structure NoneDirtied (st st' : State σ μ V) : Prop where
  memos : ∀ m, st'.state m = .dirty → st.state m = .dirty
  effect : st'.dirty = st.dirty

theorem NoneDirtied.refl (st : State σ μ V) : NoneDirtied st st := ⟨fun _ => id, rfl⟩

theorem NoneDirtied.trans {first second third : State σ μ V} (left : NoneDirtied first second)
    (right : NoneDirtied second third) : NoneDirtied first third :=
  ⟨fun m dirty => left.memos m (right.memos m dirty), right.effect.trans left.effect⟩

/-- A loop whose steps stay in a preorder, each leaving something that lasts. -/
theorem forEach_ok {α : Type*} {act : α → State σ μ V → Option (State σ μ V)}
    (rel : State σ μ V → State σ μ V → Prop) (good : State σ μ V → Prop)
    (done : α → State σ μ V → Prop) (refl : ∀ st, rel st st)
    (trans : ∀ {a b c}, rel a b → rel b c → rel a c) (goodStays : ∀ {a b}, rel a b → good a → good b)
    (doneStays : ∀ {item a b}, rel a b → done item a → done item b) {items : List α}
    (step : ∀ item ∈ items, ∀ st, good st → ∃ st', act item st = some st' ∧ rel st st' ∧ done item st')
    {st : State σ μ V} (start : good st) :
    ∃ st', forEach act items st = some st' ∧ rel st st' ∧ ∀ item ∈ items, done item st' := by
  induction items generalizing st with
  | nil => exact ⟨st, rfl, refl st, by simp⟩
  | cons item rest ih =>
      rcases step item List.mem_cons_self st start with ⟨next, act', toNext, here⟩
      rcases ih (fun item member => step item (List.mem_cons_of_mem _ member))
        (goodStays toNext start) with ⟨last, loop, toLast, later⟩
      refine ⟨last, by simp [forEach, act', loop], trans toNext toLast, ?_⟩
      intro other member
      rcases List.mem_cons.1 member with rfl | member
      · exact doneStays toLast here
      · exact later other member

/-- What every step of a loop keeps, the loop keeps. -/
theorem forEach_keeps (keeps : State σ μ V → Prop) {α : Type*}
    {act : α → State σ μ V → Option (State σ μ V)} {items : List α}
    (step : ∀ item ∈ items, ∀ st st', keeps st → act item st = some st' → keeps st')
    {st st' : State σ μ V} (start : keeps st) (loop : forEach act items st = some st') :
    keeps st' := by
  induction items generalizing st with
  | nil =>
      rw [forEach, Option.some.injEq] at loop
      exact loop ▸ start
  | cons item rest ih =>
      rw [forEach, Option.bind_eq_some_iff] at loop
      rcases loop with ⟨next, act', loop⟩
      exact ih (fun item member => step item (List.mem_cons_of_mem _ member))
        (step item List.mem_cons_self st next start act') loop

/-- Subscribers are higher in the graph. -/
def Ranked [Fintype μ] (g : Graph σ μ V) (st : State σ μ V) : Prop :=
  ∀ m n, .memo n ∈ st.subscribers (.memo m) → g.rank m < g.rank n

theorem Ranked.of_marked [Fintype μ] {g : Graph σ μ V} {st st' : State σ μ V} (ranked : Ranked g st) (marked : Marked st st') :
    Ranked g st' := by
  intro m n member
  exact ranked m n (by rw [← marked.subscribers]; exact member)

/-- The subscribers of a marked memo are marked. -/
def MarkedUp (st : State σ μ V) : Prop :=
  ∀ m n, .memo n ∈ st.subscribers (.memo m) → st.state m ≠ .clean → st.state n ≠ .clean

theorem MarkedUp.of_spread {st st' : State σ μ V} (closed : MarkedUp st) (spread : Spread st st') :
    MarkedUp st' := by
  intro m n member marked
  rw [spread.marked.subscribers] at member
  by_cases clean : st.state m = .clean
  · exact spread.spreads m clean marked _ member
  · exact spread.marked.raised n (closed m n member clean)

/-- Nothing clean is marked, and what is newly marked is dirty. -/
structure Dirtied (st st' : State σ μ V) : Prop where
  marked : Marked st st'
  dirtied : ∀ n, st'.state n = st.state n ∨ st.state n ≠ .clean ∧ st'.state n = .dirty

theorem Dirtied.refl (st : State σ μ V) : Dirtied st st := ⟨.refl st, fun _ => Or.inl rfl⟩

theorem Dirtied.trans {first second third : State σ μ V} (left : Dirtied first second)
    (right : Dirtied second third) : Dirtied first third := by
  refine ⟨left.marked.trans right.marked, fun n => ?_⟩
  rcases right.dirtied n with same | ⟨stale, dirty⟩
  · rw [same]
    exact left.dirtied n
  · refine Or.inr ⟨fun clean => ?_, dirty⟩
    rcases left.dirtied n with same | ⟨stale', -⟩
    · exact stale (same.trans clean)
    · exact stale' clean

theorem Dirtied.clean {st st' : State σ μ V} (dirtied : Dirtied st st') {n : μ}
    (clean : st.state n = .clean) : st'.state n = .clean := by
  rcases dirtied.dirtied n with same | ⟨stale, -⟩
  · rw [same, clean]
  · exact absurd clean stale

theorem MarkedUp.dirtied {st st' : State σ μ V} (closed : MarkedUp st) (dirtied : Dirtied st st') :
    MarkedUp st' := by
  intro a b member stale
  rw [dirtied.marked.subscribers] at member
  exact dirtied.marked.raised b (closed a b member fun clean => stale (dirtied.clean clean))

variable [DecidableEq μ]

@[simp] theorem mark_state (st : State σ μ V) (m n : μ) (state : NodeState) :
    (st.mark m state).state n = if n = m then state else st.state n := by
  simp [State.mark, Function.update_apply]

/-- A memo that is raised to a mark. -/
theorem marked_mark {st : State σ μ V} {m : μ} {state : NodeState} (up : state ≠ .clean)
    (stays : st.state m = .dirty → state = .dirty) : Marked st (st.mark m state) := by
  refine ⟨rfl, rfl, rfl, rfl, rfl, fun n marked => ?_, fun n dirty => ?_, id, id,
    Or.inl⟩
  · rw [mark_state]
    split
    · exact up
    · exact marked
  · rw [mark_state]
    split
    next same => exact stays (same ▸ dirty)
    · exact dirty

/-- A mark on a memo, followed by marks on all of its subscribers, spreads. -/
theorem spread_mark {st marked last : State σ μ V} {m : μ} (first : Marked st marked)
    (others : ∀ n, n ≠ m → marked.state n = st.state n) (then_ : Spread marked last)
    (subs : ∀ sub ∈ st.subscribers (.memo m), sub.MarkedIn last) : Spread st last := by
  refine ⟨first.trans then_.marked, fun n clean now sub member => ?_⟩
  by_cases same : n = m
  · exact subs sub (same ▸ member)
  · exact then_.spreads n (by rw [others n same]; exact clean) now sub
      (by rw [first.subscribers]; exact member)

variable [Fintype μ] {g : Graph σ μ V}

/-- What `mark_check` does. -/
theorem markCheck_ok {depth : ℕ} {sub : Subscriber μ} {st : State σ μ V} (ranked : Ranked g st)
    (enough : ∀ m, sub = .memo m → Fintype.card μ ≤ depth + g.rank m) :
    ∃ st', markCheck depth sub st = some st' ∧ (Spread st st' ∧ NoneDirtied st st') ∧
      sub.MarkedIn st' := by
  induction depth generalizing sub st with
  | zero =>
      cases sub with
      | effect =>
          exact ⟨_, rfl, ⟨⟨⟨rfl, rfl, rfl, rfl, rfl, fun _ => id, fun _ => id, id, fun _ => rfl,
            Or.inl⟩, fun m clean marked => absurd clean marked⟩, fun _ => id, rfl⟩, rfl⟩
      | memo m =>
          have low := g.rank_lt_card m
          have := enough m rfl
          omega
  | succ depth ih =>
      cases sub with
      | effect =>
          exact ⟨_, rfl, ⟨⟨⟨rfl, rfl, rfl, rfl, rfl, fun _ => id, fun _ => id, id, fun _ => rfl,
            Or.inl⟩, fun m clean marked => absurd clean marked⟩, fun _ => id, rfl⟩, rfl⟩
      | memo m =>
          -- the memo's own mark
          obtain ⟨start, value, first, noneDirtied, others, here⟩ : ∃ start : State σ μ V,
              start = (if st.state m = .dirty then st else st.mark m .check) ∧ Marked st start ∧
              NoneDirtied st start ∧ (∀ n, n ≠ m → start.state n = st.state n) ∧
              start.state m ≠ .clean := by
            refine ⟨_, rfl, ?_⟩
            by_cases dirty : st.state m = .dirty
            · rw [if_pos dirty]
              exact ⟨.refl st, .refl st, fun _ _ => rfl, by simp [dirty]⟩
            · rw [if_neg dirty]
              refine ⟨marked_mark (by simp) (fun is => absurd is dirty), ⟨fun n now => ?_, rfl⟩,
                fun n other => by simp [other], by simp⟩
              rw [mark_state] at now
              split at now
              · cases now
              · exact now
          -- the marks of its subscribers
          have step : ∀ sub ∈ st.subscribers (.memo m), ∀ st', Ranked g st' →
              ∃ st'', markCheck depth sub st' = some st'' ∧
                (Spread st' st'' ∧ NoneDirtied st' st'') ∧ sub.MarkedIn st'' := by
            intro sub member st' ranked'
            apply ih ranked'
            intro n same
            have higher := ranked m n (same ▸ member)
            have := enough m rfl
            omega
          rcases forEach_ok (fun a b => Spread a b ∧ NoneDirtied a b) (Ranked g)
            Subscriber.MarkedIn
            (fun st => ⟨.refl st, .refl st⟩)
            (fun left right => ⟨left.1.trans right.1, left.2.trans right.2⟩)
            (fun left ranked => ranked.of_marked left.1.marked)
            (fun left marked => marked.mono left.1.marked) step
            (ranked.of_marked first) with ⟨last, loop, ⟨spread, dirtied⟩, subs⟩
          refine ⟨last, ?_, ⟨spread_mark first others spread subs, noneDirtied.trans dirtied⟩,
            spread.marked.raised m here⟩
          simp only [markCheck]
          rw [← value, first.subscribers]
          exact loop

/-- What `mark_dirty` does. -/
theorem markDirty_ok (sub : Subscriber μ) {st : State σ μ V} (ranked : Ranked g st) :
    ∃ st', markDirty (Fintype.card μ) sub st = some st' ∧ Spread st st' ∧
      (∀ m, st'.state m = .dirty → st.state m = .dirty ∨ sub = .memo m) ∧
      (∀ m, sub = .memo m → st'.state m = .dirty) ∧
      (sub = .effect → st'.dirty = true ∧ st'.notified = true) := by
  cases sub with
  | effect =>
      refine ⟨_, rfl, ⟨⟨rfl, rfl, rfl, rfl, rfl, fun _ => id, fun _ => id, fun _ => rfl,
        fun _ => rfl, fun _ => Or.inr rfl⟩, fun m clean marked => absurd clean marked⟩, fun _ => Or.inl, ?_, ?_⟩
      · intro m same
        cases same
      · exact fun _ => ⟨rfl, rfl⟩
  | memo m =>
      have first : Marked st (st.mark m .dirty) := marked_mark (by simp) (fun _ => rfl)
      have step : ∀ sub ∈ st.subscribers (.memo m), ∀ st', Ranked g st' →
          ∃ st'', markCheck (Fintype.card μ) sub st' = some st'' ∧
            (Spread st' st'' ∧ NoneDirtied st' st'') ∧ sub.MarkedIn st'' :=
        fun sub _ st' ranked' => markCheck_ok ranked' (fun _ _ => Nat.le_add_right _ _)
      rcases forEach_ok (fun a b => Spread a b ∧ NoneDirtied a b) (Ranked g)
            Subscriber.MarkedIn
        (fun st => ⟨.refl st, .refl st⟩)
        (fun left right => ⟨left.1.trans right.1, left.2.trans right.2⟩)
        (fun left ranked => ranked.of_marked left.1.marked)
        (fun left marked => marked.mono left.1.marked) step
        (ranked.of_marked first) with ⟨last, loop, ⟨spread, dirtied⟩, subs⟩
      refine ⟨last, loop, spread_mark first (fun n other => by simp [other]) spread subs,
        fun n dirty => ?_, fun n same => ?_, by simp⟩
      · have before := dirtied.memos n dirty
        rw [mark_state] at before
        split at before
        next same => exact Or.inr (by rw [same])
        · exact Or.inl before
      · cases same
        exact spread.marked.stays m (by simp)

/-! ## Quiet marks -/

omit [Fintype μ] in
/-- Where everything downstream is marked, `mark_check` of a marked memo changes no mark. -/
theorem markCheck_quiet {depth : ℕ} {sub : Subscriber μ} {st st' : State σ μ V}
    (closed : MarkedUp st) (marked : ∀ m, sub = .memo m → st.state m ≠ .clean)
    (run : markCheck depth sub st = some st') :
    st'.state = st.state ∧ st'.subscribers = st.subscribers := by
  induction depth generalizing sub st st' with
  | zero =>
      cases sub with
      | effect =>
          rw [markCheck, Option.some.injEq] at run
          exact run ▸ ⟨rfl, rfl⟩
      | memo m => cases run
  | succ depth ih =>
      cases sub with
      | effect =>
          rw [markCheck, Option.some.injEq] at run
          exact run ▸ ⟨rfl, rfl⟩
      | memo m =>
          have same : (if st.state m = .dirty then st else st.mark m .check).state = st.state := by
            split
            · rfl
            next notDirty =>
              funext n
              rw [mark_state]
              split
              next eq =>
                have := marked m rfl
                rw [eq]
                cases value : st.state m <;> simp_all
              · rfl
          have subs : (if st.state m = .dirty then st else st.mark m .check).subscribers =
              st.subscribers := by split <;> rfl
          simp only [markCheck] at run
          rw [subs] at run
          refine forEach_keeps (fun now => now.state = st.state ∧
            now.subscribers = st.subscribers) (fun sub member now now' kept step => ?_)
            ⟨same, subs⟩ run
          have closed' : MarkedUp now := by
            intro a b
            rw [kept.1, kept.2]
            exact closed a b
          have here := ih closed' (fun n is => by
            rw [kept.1]
            exact closed m n (is ▸ member) (marked m rfl)) step
          exact ⟨here.1.trans kept.1, here.2.trans kept.2⟩

theorem markDirty_quiet (sub : Subscriber μ) {st : State σ μ V} (ranked : Ranked g st)
    (closed : MarkedUp st) (marked : ∀ n, sub = .memo n → st.state n ≠ .clean) :
    ∃ st', markDirty (Fintype.card μ) sub st = some st' ∧ Dirtied st st' ∧
      (∀ n, sub = .memo n → st'.state n = .dirty) ∧ (sub = .effect → st'.dirty = true) := by
  rcases markDirty_ok sub ranked with ⟨st', run, spread, -, memo, effect⟩
  refine ⟨st', run, ⟨spread.marked, fun n => ?_⟩, memo, fun is => (effect is).1⟩
  cases sub with
  | effect =>
      rw [markDirty, Option.some.injEq] at run
      exact Or.inl (by rw [← run])
  | memo m =>
      have stale := marked m rfl
      have quiet := forEach_keeps (fun now => now.state = (st.mark m .dirty).state ∧
        now.subscribers = st.subscribers) (fun sub member now now' kept step => by
          have closed' : MarkedUp now := by
            intro a b
            rw [kept.1, kept.2, mark_state, mark_state]
            intro source marked
            split
            · simp
            · refine closed a b source ?_
              split at marked
              next same => exact same ▸ stale
              · exact marked
          have here := markCheck_quiet closed' (fun n is => by
            rw [kept.1, mark_state]
            split
            · simp
            · exact closed m n (is ▸ member) stale) step
          exact ⟨here.1.trans kept.1, here.2.trans kept.2⟩) ⟨rfl, rfl⟩ run
      rw [quiet.1, mark_state]
      split
      next same => exact Or.inr ⟨same ▸ stale, rfl⟩
      · exact Or.inl rfl

theorem markChanged_ok {subs : List (Subscriber μ)} {st : State σ μ V} (ranked : Ranked g st)
    (closed : MarkedUp st) (marked : ∀ n, .memo n ∈ subs → st.state n ≠ .clean) :
    ∃ st', markChanged (Fintype.card μ) subs st = some st' ∧ Dirtied st st' ∧
      ∀ sub ∈ subs, st.observer ≠ some sub →
        (∀ n, sub = .memo n → st'.state n = .dirty) ∧ (sub = .effect → st'.dirty = true) := by
  refine forEach_ok Dirtied
    (fun now => Ranked g now ∧ MarkedUp now ∧ (∀ n, .memo n ∈ subs → now.state n ≠ .clean) ∧
      now.observer = st.observer)
    (fun sub now => st.observer ≠ some sub →
      (∀ n, sub = .memo n → now.state n = .dirty) ∧ (sub = .effect → now.dirty = true))
    .refl (fun left right => left.trans right)
    (fun step good => ⟨good.1.of_marked step.marked, good.2.1.dirtied step,
      fun n member => step.marked.raised n (good.2.2.1 n member),
      step.marked.observer.trans good.2.2.2⟩)
    (fun step done other => ⟨fun n is => step.marked.stays n ((done other).1 n is),
      fun is => step.marked.dirty ((done other).2 is)⟩) (fun sub member now good => ?_)
    ⟨ranked, closed, marked, rfl⟩
  by_cases observes : now.observer = some sub
  · refine ⟨now, if_pos observes, .refl now, fun other => ?_⟩
    rw [good.2.2.2] at observes
    exact absurd observes other
  · rcases markDirty_quiet sub good.1 good.2.1 (fun n is => good.2.2.1 n (is ▸ member)) with
      ⟨next, run, dirtied, memo, effect⟩
    exact ⟨next, by simp only [if_neg observes]; exact run, dirtied, fun _ => ⟨memo, effect⟩⟩

end Halyard.Reactive
