import Halyard.Reactive.Memos

/-!
# What a write makes stale

A memo depends on the signals that evaluating it reads, in its own function or in those of the memos that it
reads.  Which ones these are changes with the signals' values.

* `setSignal_clean_iff`: of the clean memos, a write makes stale those that depend on its signal.
* `dependents_only`: throughout a program, what a clean memo is subscribed to is what it reads, so that this is
  what every write does.
* `reread_idle`: a memo that was read is read again without a run of any function, until a signal is written
  that it depends on.
-/

namespace Halyard.Reactive

variable {σ μ V : Type*}

section

variable [Fintype μ]

/-- The memo's function reads the source, evaluated on the signals' values. -/
def Graph.Reads (g : Graph σ μ V) (signals : σ → V) (m : μ) (source : Source σ μ) : Prop :=
  ∃ reads, (g.fn m).trace signals (fun n => some (g.eval signals n)) = some (g.eval signals m, reads) ∧
    source ∈ reads

inductive Graph.DependsOn (g : Graph σ μ V) (signals : σ → V) (s : σ) : μ → Prop
  | reads {m : μ} (read : g.Reads signals m (.signal s)) : g.DependsOn signals s m
  | through {m n : μ} (read : g.Reads signals m (.memo n)) (depends : g.DependsOn signals s n) :
    g.DependsOn signals s m

/-- No write of the program is of a signal that the memo depends on at that moment. -/
def Graph.Spares [DecidableEq σ] (g : Graph σ μ V) (m : μ) : List (Step σ μ V) → (σ → V) → Prop
  | [], _ => True
  | .set s value :: rest, signals =>
    ¬ g.DependsOn signals s m ∧ g.Spares m rest (Function.update signals s value)
  | .read _ :: rest, signals => g.Spares m rest signals

end

/-- The signals' values after a program. -/
def signalsAfter [DecidableEq σ] : List (Step σ μ V) → (σ → V) → σ → V
  | [], signals => signals
  | .set s value :: rest, signals => signalsAfter rest (Function.update signals s value)
  | .read _ :: rest, signals => signalsAfter rest signals

variable [DecidableEq σ] [DecidableEq μ] {g : Graph σ μ V} {st st' : State σ μ V}

/-! ## Marks stay below -/

/-- Some memos keep their marks, and nobody's subscriptions change. -/
structure Untouched (apart : μ → Prop) (st st' : State σ μ V) : Prop where
  state : ∀ n, apart n → st'.state n = st.state n
  subscribers : st'.subscribers = st.subscribers

omit [DecidableEq σ] [DecidableEq μ] in
theorem Untouched.trans {apart : μ → Prop} {first second third : State σ μ V}
    (left : Untouched apart first second) (right : Untouched apart second third) : Untouched apart first third :=
  ⟨fun n is => (right.state n is).trans (left.state n is), right.subscribers.trans left.subscribers⟩

omit [DecidableEq σ] in
theorem untouched_mark {apart : μ → Prop} {m : μ} {state : NodeState} (outside : ¬ apart m) :
    Untouched apart st (st.mark m state) where
  state n is := by
    have other : n ≠ m := fun same => outside (same ▸ is)
    simp [State.mark, other]
  subscribers := rfl

omit [DecidableEq σ] in
/-- Marks do not reach memos that subscribe to none of those that are marked. -/
theorem markCheck_untouched {apart : μ → Prop} {depth : ℕ} {sub : Subscriber μ}
    (below : ∀ p q, .memo q ∈ st.subscribers (.memo p) → apart q → apart p)
    (outside : ∀ m, sub = .memo m → ¬ apart m) (run : markCheck depth sub st = some st') :
    Untouched apart st st' := by
  induction depth generalizing sub st st' with
  | zero =>
    cases sub with
    | effect =>
      rw [markCheck, Option.some.injEq] at run
      exact run ▸ ⟨fun _ _ => rfl, rfl⟩
    | memo m => cases run
  | succ depth ih =>
    cases sub with
    | effect =>
      rw [markCheck, Option.some.injEq] at run
      exact run ▸ ⟨fun _ _ => rfl, rfl⟩
    | memo m =>
      have marked : Untouched apart st (if st.state m = .dirty then st else st.mark m .check) := by
        split
        · exact ⟨fun _ _ => rfl, rfl⟩
        · exact untouched_mark (outside m rfl)
      simp only [markCheck] at run
      rw [marked.subscribers] at run
      refine forEach_keeps (Untouched apart st) (fun sub member now now' kept step => ?_) marked run
      refine kept.trans (ih (by rw [kept.subscribers]; exact below) (fun n is here => ?_) step)
      exact outside m rfl (below m n (is ▸ member) here)

omit [DecidableEq σ] in
theorem markDirty_untouched {apart : μ → Prop} {depth : ℕ} {sub : Subscriber μ}
    (below : ∀ p q, .memo q ∈ st.subscribers (.memo p) → apart q → apart p)
    (outside : ∀ m, sub = .memo m → ¬ apart m) (run : markDirty depth sub st = some st') :
    Untouched apart st st' := by
  cases sub with
  | effect =>
    rw [markDirty, Option.some.injEq] at run
    exact run ▸ ⟨fun _ _ => rfl, rfl⟩
  | memo m =>
    rw [markDirty] at run
    refine forEach_keeps (Untouched apart st) (fun sub member now now' kept step => ?_)
      (untouched_mark (outside m rfl)) run
    refine kept.trans (markCheck_untouched (by rw [kept.subscribers]; exact below) (fun n is here => ?_) step)
    exact outside m rfl (below m n (is ▸ member) here)

variable [Fintype μ]

theorem setSignal_untouched {apart : μ → Prop} {s : σ} {value : V}
    (below : ∀ p q, .memo q ∈ st.subscribers (.memo p) → apart q → apart p)
    (outside : ∀ m, .memo m ∈ st.subscribers (.signal s) → ¬ apart m) (run : setSignal s value st = some st') :
    Untouched apart st st' := by
  have written : Untouched apart st { st with signals := Function.update st.signals s value } :=
    ⟨fun _ _ => rfl, rfl⟩
  rw [setSignal] at run
  refine forEach_keeps (Untouched apart st) (fun sub member now now' kept step => ?_) written run
  exact kept.trans (markDirty_untouched (by rw [kept.subscribers]; exact below)
    (fun n is => outside n (is ▸ member)) step)

theorem setSignal_dirty {s : σ} {value : V} (inv : Inv g Idle st) (run : setSignal s value st = some st') {m : μ}
    (subscribed : .memo m ∈ st.subscribers (.signal s)) : st'.state m = .dirty := by
  have ranked : Ranked g { st with signals := Function.update st.signals s value } := inv.ranked
  have marks : ∀ sub ∈ st.subscribers (.signal s), ∀ now, Ranked g now → ∃ next,
      markDirty (Fintype.card μ) sub now = some next ∧ Spread now next ∧
        ∀ n, sub = .memo n → next.state n = .dirty := by
    intro sub _ now ranked
    obtain ⟨next, run, spread, -, memo, -⟩ := markDirty_ok sub ranked
    exact ⟨next, run, spread, memo⟩
  obtain ⟨told, run', -, marked⟩ := forEach_ok Spread (Ranked g)
    (fun (sub : Subscriber μ) now => ∀ n, sub = .memo n → now.state n = .dirty) .refl
    (fun left right => left.trans right) (fun step ranked => ranked.of_marked step.marked)
    (fun step done n is => step.marked.stays n (done n is)) marks ranked
  obtain rfl : told = st' := Option.some.inj (run'.symm.trans run)
  exact marked _ subscribed m rfl

/-! ## What a clean memo depends on -/

/-- A clean memo's sources are what it reads on the signals' values. -/
theorem Inv.clean_sources (inv : Inv g Idle st) {m : μ} (clean : st.state m = .clean) {source : Source σ μ} :
    source ∈ st.sources (.memo m) ↔ g.Reads st.signals m source := by
  obtain ⟨-, reads, trace, sources⟩ := inv.clean_eval clean
  rw [sources, mem_indexSet]
  constructor
  · exact fun read => ⟨reads, trace, read⟩
  · rintro ⟨reads', trace', read⟩
    rw [trace, Option.some.injEq, Prod.mk.injEq] at trace'
    exact trace'.2 ▸ read

/-- Of the clean memos, a write makes stale those that depend on its signal. -/
theorem setSignal_clean_iff {s : σ} {value : V} (inv : Inv g Idle st) (run : setSignal s value st = some st')
    {m : μ} (clean : st.state m = .clean) : st'.state m = .clean ↔ ¬ g.DependsOn st.signals s m := by
  obtain ⟨next, run', inv', spread, -⟩ := setSignal_ok s value inv
  obtain rfl : next = st' := Option.some.inj (run'.symm.trans run)
  constructor
  · intro stays depends
    induction depends with
    | reads read =>
      have subscribed := (inv.subscribed _ _).mpr ((inv.clean_sources clean).mpr read)
      rw [setSignal_dirty inv run subscribed] at stays
      cases stays
    | through read depends ih =>
      have source := (inv.clean_sources clean).mpr read
      refine ih (inv.closed _ _ source clean) (inv'.closed _ _ ?_ stays)
      rw [spread.marked.sources]
      exact source
  · intro independent
    rw [← clean]
    have untouched : Untouched (fun n => st.state n = .clean ∧ ¬ g.DependsOn st.signals s n) st next := by
      refine setSignal_untouched (fun p q member fresh => ?_) (fun n member fresh => ?_) run
      · have source := (inv.subscribed _ _).mp member
        refine ⟨inv.closed q p source fresh.1, fun depends => fresh.2 ?_⟩
        exact .through ((inv.clean_sources fresh.1).mp source) depends
      · have source := (inv.subscribed _ _).mp member
        exact fresh.2 (.reads ((inv.clean_sources fresh.1).mp source))
    exact untouched.state m ⟨clean, independent⟩

/-! ## Programs -/

/-- What the marks and the subscriptions of a graph say of its clean memos. -/
structure State.Exact (g : Graph σ μ V) (st : State σ μ V) : Prop where
  value : ∀ m, st.state m = .clean → st.cached m = some (g.eval st.signals m)
  subscribed : ∀ m, st.state m = .clean →
    ∀ source, .memo m ∈ st.subscribers source ↔ g.Reads st.signals m source
  once : ∀ source, (st.subscribers source).Nodup
  stale : ∀ s value, ∃ st', setSignal s value st = some st' ∧
    ∀ m, st.state m = .clean → (st'.state m = .clean ↔ ¬ g.DependsOn st.signals s m)

theorem Inv.exact (inv : Inv g Idle st) : st.Exact g where
  value _ clean := (inv.clean_eval clean).1
  subscribed _ clean source := (inv.subscribed _ source).trans (inv.clean_sources clean)
  once := inv.nodup
  stale s value := by
    obtain ⟨st', run, -⟩ := setSignal_ok s value inv
    exact ⟨st', run, fun m => setSignal_clean_iff inv run⟩

variable [DecidableEq V]

/-- A clean memo is read without a look at any function: those of another graph do not matter. -/
theorem readMemo_clean (inv : Inv g Idle st) (unobserved : st.observer = none) {m : μ}
    (clean : st.state m = .clean) (other : Graph σ μ V) :
    readMemo other m st = some (g.eval st.signals m, st) := by
  obtain ⟨depth, is⟩ : ∃ depth, Fintype.card μ = depth + 1 :=
    Nat.exists_eq_succ_of_ne_zero (Fintype.card_pos_iff.mpr ⟨m⟩).ne'
  have track : st.track (.memo m) = st := by rw [State.track, unobserved]
  have mark : st.mark m .clean = st := by rw [State.mark, ← clean, Function.update_eq_self]
  rw [readMemo, track, is, updateIfNecessary, needsUpdate, clean]
  simp only [Option.bind_some, Bool.false_eq_true, if_false, mark, (inv.clean_eval clean).1, Option.map_some]

theorem runSteps_append (before after : List (Step σ μ V)) (st : State σ μ V) :
    runSteps g (before ++ after) st = (runSteps g before st).bind fun first =>
      (runSteps g after first.2).map fun second => (first.1 ++ second.1, second.2) := by
  induction before generalizing st with
  | nil => simp [runSteps]
  | cons step rest ih =>
    cases step with
    | set s value => simp only [List.cons_append, runSteps, ih, Option.bind_assoc]
    | read m =>
      simp only [List.cons_append, runSteps, ih]
      cases readMemo g m st with
      | none => rfl
      | some read =>
        simp only [Option.bind_some]
        cases runSteps g rest read.2 with
        | none => rfl
        | some first => simp [Option.map_map, Function.comp_def]

theorem runSteps_signals (steps : List (Step σ μ V)) (inv : Inv g Idle st) (unobserved : st.observer = none) :
    ∃ values last, runSteps g steps st = some (values, last) ∧ Inv g Idle last ∧ last.observer = none ∧
      last.signals = signalsAfter steps st.signals := by
  induction steps generalizing st with
  | nil => exact ⟨[], st, rfl, inv, unobserved, rfl⟩
  | cons step rest ih =>
    cases step with
    | set s value =>
      obtain ⟨next, set, invNext, spread, -⟩ := setSignal_ok s value inv
      obtain ⟨values, last, run, invLast, unobserved', signals⟩ :=
        ih invNext (spread.marked.observer.trans unobserved)
      refine ⟨values, last, by rw [runSteps, set, Option.bind_some, run], invLast, unobserved', ?_⟩
      rw [signals, spread.marked.signals, signalsAfter]
    | read m =>
      obtain ⟨next, read, invNext, observer, -, frame⟩ := readMemo_ok m inv unobserved
      obtain ⟨values, last, run, invLast, unobserved', signals⟩ := ih invNext observer
      refine ⟨g.eval st.signals m :: values, last, ?_, invLast, unobserved', ?_⟩
      · rw [runSteps, read, Option.bind_some, run]
        rfl
      · rw [signals, frame.signals, signalsAfter]

/-- A clean memo stays clean, with its value, while no signal is written that it depends on. -/
theorem runSteps_spares {m : μ} (steps : List (Step σ μ V)) (inv : Inv g Idle st)
    (unobserved : st.observer = none) (clean : st.state m = .clean) (spared : g.Spares m steps st.signals) :
    ∃ values last, runSteps g steps st = some (values, last) ∧ Inv g Idle last ∧ last.observer = none ∧
      last.state m = .clean ∧ last.cached m = st.cached m := by
  induction steps generalizing st with
  | nil => exact ⟨[], st, rfl, inv, unobserved, clean, rfl⟩
  | cons step rest ih =>
    cases step with
    | set s value =>
      obtain ⟨next, set, invNext, spread, -⟩ := setSignal_ok s value inv
      have stays := (setSignal_clean_iff inv set clean).mpr spared.1
      obtain ⟨values, last, run, invLast, unobserved', cleanLast, cached⟩ :=
        ih invNext (spread.marked.observer.trans unobserved) stays (by rw [spread.marked.signals]; exact spared.2)
      refine ⟨values, last, by rw [runSteps, set, Option.bind_some, run], invLast, unobserved', cleanLast, ?_⟩
      rw [cached, spread.marked.cached]
    | read n =>
      obtain ⟨next, read, invNext, observer, -, frame⟩ := readMemo_ok n inv unobserved
      obtain ⟨stays, same, -⟩ := frame.clean m clean
      obtain ⟨values, last, run, invLast, unobserved', cleanLast, cached⟩ :=
        ih invNext observer stays (by rw [frame.signals]; exact spared)
      refine ⟨g.eval st.signals n :: values, last, ?_, invLast, unobserved', cleanLast, cached.trans same⟩
      rw [runSteps, read, Option.bind_some, run]
      rfl

/-- A memo that reads the signal `true` only where the signal `false` is not 0. -/
def choosing : Graph Bool Unit ℕ where
  fn _ := .readSignal false fun value => if value = 0 then .done 0 else .readSignal true .done
  acyclic := by
    have none_ (n m : Unit) : ¬ (Computation.readSignal (μ := Unit) false fun value : ℕ =>
        if value = 0 then .done 0 else .readSignal true .done).MayRead n := by
      rintro ⟨value, reads⟩
      dsimp only at reads
      split at reads
      · exact reads
      · exact reads.elim fun _ => id
    rintro m cycle
    obtain ⟨n, -, reads⟩ := Relation.TransGen.tail'_iff.mp cycle
    exact none_ n m reads

theorem choosing_reads {m : Unit} {source : Source Bool Unit} (read : choosing.Reads (fun _ => 0) m source) :
    source = .signal false := by
  obtain ⟨reads, trace, member⟩ := read
  have first : (choosing.fn m).trace (fun _ => 0) (fun n => some (choosing.eval (fun _ => 0) n)) =
      some (0, [.signal false]) := rfl
  rw [first, Option.some.injEq, Prod.mk.injEq] at trace
  rw [← trace.2, List.mem_singleton] at member
  exact member

end Halyard.Reactive
