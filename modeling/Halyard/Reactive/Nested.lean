import Halyard.Reaches
import Halyard.Reactive.Immediate

/-!
# What nested runs leave of an effect's subscriptions

An immediate effect's run can start another run of it.  `EffectInner::add_source` keeps a source only
while the run that started last is ongoing, but `Track::track` subscribes the effect to the source at any
time.  `Followed` is what the events of an effect say: what the run that started last has read, and the
sources that the effect is subscribed to without having them.

* `ops_keeps`: every call keeps `Inv`, however runs nest in it.
* `nested_runs_agree`: the two sides agree after all runs have ended just if no source is left loose.
* `late_read_subscribes`: a source read after a nested run has ended is left loose.
-/

namespace Halyard.Reactive.Immediate

variable {σ μ ε V : Type*} [DecidableEq σ] [DecidableEq μ] [DecidableEq ε]

/-! ## What the events say -/

/-- What an effect's events amount to. -/
structure Followed (σ μ : Type*) where
  /-- The run that started last is ongoing. -/
  running : Bool := false
  /-- What the run that started last has read. -/
  reads : List (Source σ μ) := []
  /-- The sources that were read by a run after a nested one had ended, when the run that started last
  had not read them, and that no run has read in time since. -/
  loose : List (Source σ μ) := []

def Followed.step (followed : Followed σ μ) : Event σ μ → Followed σ μ
  | .start => { followed with running := true, reads := [] }
  | .finish => { followed with running := false }
  | .read source =>
      if followed.running then
        { followed with
          reads := insertLast followed.reads source
          loose := followed.loose.filter (· ≠ source) }
      else if followed.reads.contains source then followed
      else { followed with loose := insertLast followed.loose source }

def follow (log : List (Event σ μ)) : Followed σ μ := log.foldl Followed.step {}

omit [DecidableEq ε] in
@[simp] theorem follow_append (log : List (Event σ μ)) (event : Event σ μ) :
    follow (log ++ [event]) = (follow log).step event := by
  simp [follow]

omit [DecidableEq σ] [DecidableEq μ] [DecidableEq ε] in
theorem mem_insertLast {α : Type*} [DecidableEq α] {items : List α} {item other : α} :
    other ∈ insertLast items item ↔ other ∈ items ∨ other = item := by
  unfold insertLast
  split
  next member => exact ⟨Or.inl, fun which => which.elim id fun same => same ▸ member⟩
  next => simp

/-! ## The invariant -/

/-- The effect has its sources and subscriptions as its events say, while `active` runs of it are
ongoing. -/
structure Inv (e : ε) (active : ℕ) (st : State σ μ ε V) : Prop where
  counts : (st.effects e).runCountStart = (st.effects e).runDoneCount + active
  idle : active = 0 → (st.effects e).runCountStart = 0
  max : (st.effects e).runDoneMax ≤ (st.effects e).runCountStart
  running : (follow (st.log e)).running = true ↔
    (st.effects e).runDoneMax < (st.effects e).runCountStart
  sources : (st.effects e).sources = (follow (st.log e)).reads
  subscribed : ∀ source, .effect e ∈ st.subscribers source ↔
    source ∈ (follow (st.log e)).reads ∨ source ∈ (follow (st.log e)).loose
  apart : ∀ source ∈ (follow (st.log e)).reads, source ∉ (follow (st.log e)).loose

/-- No run of the effect has started, or the last that has is over. -/
def RunsEnd (e : ε) (st st' : State σ μ ε V) : Prop :=
  (st'.effects e).runCountStart = (st.effects e).runCountStart ∧
      (st'.effects e).runDoneMax = (st.effects e).runDoneMax ∨
    (st.effects e).runCountStart < (st'.effects e).runCountStart ∧
      (st'.effects e).runDoneMax = (st'.effects e).runCountStart

/-- What every call does. -/
def Keeps (e : ε) (st st' : State σ μ ε V) : Prop :=
  ∀ active, Inv e active st → Inv e active st' ∧ RunsEnd e st st'

omit [DecidableEq ε] in
theorem Keeps.refl (e : ε) (st : State σ μ ε V) : Keeps e st st :=
  fun _ inv => ⟨inv, Or.inl ⟨rfl, rfl⟩⟩

omit [DecidableEq ε] in
theorem Keeps.trans {e : ε} {first second third : State σ μ ε V} (left : Keeps e first second)
    (right : Keeps e second third) : Keeps e first third := by
  intro active inv
  rcases left active inv with ⟨inv, before⟩
  rcases right active inv with ⟨inv, after⟩
  refine ⟨inv, ?_⟩
  rcases before with ⟨start, max⟩ | ⟨more, last⟩ <;> rcases after with ⟨start', max'⟩ | ⟨more', last'⟩
  · exact Or.inl ⟨start'.trans start, max'.trans max⟩
  · exact Or.inr ⟨start ▸ more', last'⟩
  · exact Or.inr ⟨start' ▸ more, by rw [max', last, start']⟩
  · exact Or.inr ⟨more.trans more', last'⟩

/-- Nothing of the effect but its mark has changed. -/
structure Same (e : ε) (st st' : State σ μ ε V) : Prop where
  start : (st'.effects e).runCountStart = (st.effects e).runCountStart
  done : (st'.effects e).runDoneCount = (st.effects e).runDoneCount
  max : (st'.effects e).runDoneMax = (st.effects e).runDoneMax
  sources : (st'.effects e).sources = (st.effects e).sources
  log : st'.log e = st.log e
  subscribed : ∀ source, .effect e ∈ st'.subscribers source ↔ .effect e ∈ st.subscribers source

omit [DecidableEq ε] in
theorem Same.keeps {e : ε} {st st' : State σ μ ε V} (same : Same e st st') : Keeps e st st' := by
  intro active inv
  refine ⟨⟨?_, ?_, ?_, ?_, ?_, ?_, ?_⟩, Or.inl ⟨same.start, same.max⟩⟩
  · rw [same.start, same.done]
    exact inv.counts
  · rw [same.start]
    exact inv.idle
  · rw [same.max, same.start]
    exact inv.max
  · rw [same.log, same.max, same.start]
    exact inv.running
  · rw [same.sources, same.log]
    exact inv.sources
  · intro source
    rw [same.subscribed, same.log]
    exact inv.subscribed source
  · rw [same.log]
    exact inv.apart

/-! ### Steps -/

omit [DecidableEq σ] [DecidableEq ε] in
theorem mark_same (e : ε) (st : State σ μ ε V) (m : μ) (state : NodeState) :
    Same e st (st.mark m state) :=
  ⟨rfl, rfl, rfl, rfl, rfl, fun _ => Iff.rfl⟩

omit [DecidableEq σ] [DecidableEq μ] in
theorem setState_same (e e' : ε) (st : State σ μ ε V) (state : NodeState) :
    Same e st (st.setEffect e' { st.effects e' with state }) := by
  by_cases here : e = e'
  · subst here
    refine ⟨?_, ?_, ?_, ?_, rfl, fun _ => Iff.rfl⟩ <;> simp [State.setEffect]
  · refine ⟨?_, ?_, ?_, ?_, rfl, fun _ => Iff.rfl⟩ <;> simp [State.setEffect, here]

theorem subscribe_same {e : ε} (st : State σ μ ε V) (source : Source σ μ) {sub : AnySubscriber μ ε}
    (other : sub ≠ .effect e) : Same e st (st.subscribe source sub) := by
  refine ⟨rfl, rfl, rfl, rfl, rfl, fun source' => ?_⟩
  by_cases here : source' = source
  · subst here
    simp [State.subscribe, mem_insertLast, Ne.symm other]
  · simp [State.subscribe, here]

theorem unsubscribe_same {e : ε} (st : State σ μ ε V) (sources : List (Source σ μ))
    {sub : AnySubscriber μ ε} (other : sub ≠ .effect e) : Same e st (st.unsubscribe sources sub) := by
  refine ⟨rfl, rfl, rfl, rfl, rfl, fun source => ?_⟩
  unfold State.unsubscribe
  by_cases here : source ∈ sources
  · simp [here, Ne.symm other]
  · simp [here]

omit [DecidableEq ε] in
/-- The effect reads a source: it is kept if the run that started last is ongoing. -/
theorem Keeps.of_read {e : ε} {st st' : State σ μ ε V} {source : Source σ μ}
    (inner : st'.effects e = (st.effects e).addSource source)
    (log : st'.log e = st.log e ++ [.read source])
    (subscribed : ∀ other, .effect e ∈ st'.subscribers other ↔
      .effect e ∈ st.subscribers other ∨ other = source) : Keeps e st st' := by
  intro active inv
  have follows : follow (st'.log e) = (follow (st.log e)).step (.read source) := by rw [log, follow_append]
  by_cases ongoing : (st.effects e).runDoneMax < (st.effects e).runCountStart
  · rw [EffectInner.addSource, if_pos ongoing] at inner
    rw [Followed.step, if_pos (inv.running.2 ongoing)] at follows
    refine ⟨⟨?_, ?_, ?_, ?_, ?_, fun other => ?_, ?_⟩, Or.inl ?_⟩
    · simpa only [inner] using inv.counts
    · simpa only [inner] using inv.idle
    · simpa only [inner] using inv.max
    · simpa only [inner, follows] using inv.running
    · simp only [inner, follows, inv.sources]
    · rw [subscribed, follows, inv.subscribed]
      simp only [mem_insertLast, List.mem_filter, decide_eq_true_eq]
      tauto
    · rw [follows]
      intro other member loose
      rw [List.mem_filter, decide_eq_true_eq] at loose
      rcases mem_insertLast.1 member with member | same
      · exact inv.apart other member loose.1
      · exact loose.2 same
    · rw [inner]
      exact ⟨rfl, rfl⟩
  · have idle : ¬ (follow (st.log e)).running = true := fun running => ongoing (inv.running.1 running)
    rw [EffectInner.addSource, if_neg ongoing] at inner
    simp only [Followed.step, if_neg idle, List.contains_iff_mem] at follows
    by_cases there : source ∈ (follow (st.log e)).reads
    · rw [if_pos there] at follows
      refine ⟨⟨?_, ?_, ?_, ?_, ?_, fun other => ?_, ?_⟩, Or.inl ?_⟩
      · simpa only [inner] using inv.counts
      · simpa only [inner] using inv.idle
      · simpa only [inner] using inv.max
      · simpa only [inner, follows] using inv.running
      · simp only [inner, follows, inv.sources]
      · rw [subscribed, follows, inv.subscribed]
        constructor
        · rintro (known | rfl)
          · exact known
          · exact Or.inl there
        · exact Or.inl
      · rw [follows]
        exact inv.apart
      · rw [inner]
        exact ⟨rfl, rfl⟩
    · rw [if_neg there] at follows
      refine ⟨⟨?_, ?_, ?_, ?_, ?_, fun other => ?_, ?_⟩, Or.inl ?_⟩
      · simpa only [inner] using inv.counts
      · simpa only [inner] using inv.idle
      · simpa only [inner] using inv.max
      · simpa only [inner, follows] using inv.running
      · simp only [inner, follows, inv.sources]
      · rw [subscribed, follows, inv.subscribed]
        simp only [mem_insertLast]
        tauto
      · rw [follows]
        intro other member loose
        rcases mem_insertLast.1 loose with loose | rfl
        · exact inv.apart other member loose
        · exact there member
      · rw [inner]
        exact ⟨rfl, rfl⟩

/-- Reading: whoever reads, the effect keeps its invariant. -/
theorem track_keeps (e : ε) (st : State σ μ ε V) (source : Source σ μ) : Keeps e st (st.track source) := by
  unfold State.track
  split
  next => exact Keeps.refl e st
  next m _ =>
      split
      · exact Keeps.refl e st
      · have moved : Same e st
            { st with sources := Function.update st.sources m (insertLast (st.sources m) source) } :=
          ⟨rfl, rfl, rfl, rfl, rfl, fun _ => Iff.rfl⟩
        exact moved.keeps.trans (subscribe_same _ source (by simp)).keeps
  next e' _ =>
      by_cases here : e = e'
      · subst here
        refine @Keeps.of_read _ _ _ _ _ _ e st _ source ?_ ?_ fun other => ?_
        · simp [State.record, State.subscribe, State.setEffect]
        · simp [State.record, State.subscribe, State.setEffect]
        · by_cases here : other = source
          · subst here
            simp [State.record, State.subscribe, State.setEffect, mem_insertLast]
          · simp [State.record, State.subscribe, State.setEffect, here]
      · have ne : AnySubscriber.effect (μ := μ) e' ≠ .effect e := by simpa using Ne.symm here
        have added : Same e st (st.setEffect e' ((st.effects e').addSource source)) := by
          refine ⟨?_, ?_, ?_, ?_, rfl, fun _ => Iff.rfl⟩ <;> simp [State.setEffect, here]
        refine added.keeps.trans ((subscribe_same _ source ne).keeps.trans ?_)
        refine Same.keeps ⟨rfl, rfl, rfl, rfl, ?_, fun _ => Iff.rfl⟩
        simp [State.record, here]

/-! ### Runs -/

/-- A run begins: its sources are cleared, and what is loose stays. -/
theorem begin_inv {e : ε} {active : ℕ} {st : State σ μ ε V} (inv : Inv e active st) :
    Inv e (active + 1) (st.begin e) := by
  have inner : (st.begin e).effects e =
      { st.effects e with runCountStart := (st.effects e).runCountStart + 1, sources := [] } := by
    simp [State.begin, State.record, State.setEffect]
  have follows : follow ((st.begin e).log e) = (follow (st.log e)).step .start := by
    simp [State.begin, State.record, State.setEffect, State.unsubscribe]
  have subscribed : ∀ source, .effect e ∈ (st.begin e).subscribers source ↔
      .effect e ∈ st.subscribers source ∧ source ∉ (st.effects e).sources := by
    intro source
    by_cases here : source ∈ (st.effects e).sources <;>
      simp [State.begin, State.record, State.setEffect, State.unsubscribe, here]
  have counts := inv.counts
  have max := inv.max
  refine ⟨?_, ?_, ?_, ?_, ?_, fun source => ?_, ?_⟩
  · rw [inner]
    simp only
    omega
  · intro none
    exact absurd none (Nat.succ_ne_zero active)
  · rw [inner]
    exact max.trans (Nat.le_succ _)
  · rw [inner, follows]
    exact ⟨fun _ => Nat.lt_succ_of_le max, fun _ => rfl⟩
  · rw [inner, follows]
    rfl
  · rw [subscribed, follows, inv.subscribed, inv.sources]
    constructor
    · rintro ⟨read | loose, other⟩
      · exact absurd read other
      · exact Or.inr loose
    · rintro (none | loose)
      · cases none
      · exact ⟨Or.inr loose, fun read => inv.apart source read loose⟩
  · rw [follows]
    intro source none
    cases none

/-- A run has completed, in which a later run started and ended, or none did. -/
theorem complete_inv {e : ε} {active number : ℕ} {st : State σ μ ε V} (inv : Inv e (active + 1) st)
    (last : number = (st.effects e).runCountStart ∨
      number < (st.effects e).runCountStart ∧ (st.effects e).runDoneMax = (st.effects e).runCountStart) :
    Inv e active (st.complete e number) ∧
      ((st.complete e number).effects e).runDoneMax = ((st.complete e number).effects e).runCountStart ∧
      (active ≠ 0 → ((st.complete e number).effects e).runCountStart = (st.effects e).runCountStart) := by
  have inner : (st.complete e number).effects e = (st.effects e).complete number := by
    simp [State.complete, State.record, State.setEffect]
  have log : follow ((st.complete e number).log e) = (follow (st.log e)).step .finish := by
    simp [State.complete, State.record, State.setEffect]
  have subscribed : (st.complete e number).subscribers = st.subscribers := rfl
  have counts := inv.counts
  have max := inv.max
  by_cases idle : active = 0
  · subst idle
    have all : (st.effects e).runCountStart = (st.effects e).runDoneCount + 1 := by omega
    rw [EffectInner.complete, if_pos all] at inner
    refine ⟨⟨?_, ?_, ?_, ?_, ?_, ?_, ?_⟩, ?_, fun ongoing => absurd rfl ongoing⟩
    · simp [inner]
    · simp [inner]
    · simp [inner]
    · simp [inner, log, Followed.step]
    · simpa [inner, log, Followed.step] using inv.sources
    · simpa [subscribed, log, Followed.step] using inv.subscribed
    · simpa [log, Followed.step] using inv.apart
    · simp [inner]
  · have more : (st.effects e).runCountStart ≠ (st.effects e).runDoneCount + 1 := by omega
    rw [EffectInner.complete, if_neg more] at inner
    have ended : Nat.max number (st.effects e).runDoneMax = (st.effects e).runCountStart := by
      change Max.max number (st.effects e).runDoneMax = (st.effects e).runCountStart
      omega
    refine ⟨⟨?_, ?_, ?_, ?_, ?_, ?_, ?_⟩, ?_, fun _ => by rw [inner]⟩
    · simp only [inner]
      omega
    · exact fun none => absurd none idle
    · simp only [inner]
      exact ended.le
    · simp only [inner, log, Followed.step]
      exact ⟨fun running => Bool.noConfusion running, fun less => absurd less (by omega)⟩
    · simpa only [inner, log, Followed.step] using inv.sources
    · simpa only [subscribed, log, Followed.step] using inv.subscribed
    · simpa only [log, Followed.step] using inv.apart
    · simp only [inner]
      exact ended

theorem begin_same {e e' : ε} (other : e ≠ e') (st : State σ μ ε V) : Same e st (st.begin e') := by
  have ne : AnySubscriber.effect (μ := μ) e' ≠ .effect e := by simpa using Ne.symm other
  have cleared := unsubscribe_same st (st.effects e').sources ne
  refine ⟨?_, ?_, ?_, ?_, ?_, cleared.subscribed⟩ <;>
    simp [State.begin, State.record, State.setEffect, State.unsubscribe, other]

omit [DecidableEq σ] [DecidableEq μ] in
theorem complete_same {e e' : ε} (other : e ≠ e') (st : State σ μ ε V) (number : ℕ) :
    Same e st (st.complete e' number) := by
  refine ⟨?_, ?_, ?_, ?_, ?_, fun _ => Iff.rfl⟩ <;>
    simp [State.complete, State.record, State.setEffect, other]

/-- A whole run of the effect. -/
theorem run_keeps {e : ε} {st after : State σ μ ε V} (inside : Keeps e (st.begin e) after) :
    Keeps e st (after.complete e ((st.effects e).runCountStart + 1)) := by
  intro active inv
  have number : ((st.begin e).effects e).runCountStart = (st.effects e).runCountStart + 1 := by
    simp [State.begin, State.record, State.setEffect]
  rcases inside (active + 1) (begin_inv inv) with ⟨inv', ended⟩
  have last : (st.effects e).runCountStart + 1 = (after.effects e).runCountStart ∨
      (st.effects e).runCountStart + 1 < (after.effects e).runCountStart ∧
        (after.effects e).runDoneMax = (after.effects e).runCountStart := by
    rw [RunsEnd, number] at ended
    rcases ended with ⟨same, -⟩ | more
    · exact Or.inl same.symm
    · exact Or.inr more
  rcases complete_inv inv' last with ⟨inv'', over_, stays⟩
  refine ⟨inv'', ?_⟩
  by_cases idle : active = 0
  · have before := inv.idle idle
    have none := inv''.idle idle
    have max := inv.max
    exact Or.inl ⟨none.trans before.symm, by omega⟩
  · have same := stays idle
    refine Or.inr ⟨?_, over_⟩
    omega

/-! ### Calls -/

/-- Every call of these methods keeps the invariant. -/
structure Ops.Keep (e : ε) (o : Ops σ μ ε V) : Prop where
  markCheck : ∀ {sub st st'}, o.markCheck sub st = some st' → Keeps e st st'
  markDirty : ∀ {sub st st'}, o.markDirty sub st = some st' → Keeps e st st'
  update : ∀ {m st result}, o.update m st = some result → Keeps e st result.2
  run : ∀ {e' st result}, o.run e' st = some result → Keeps e st result.2

omit [DecidableEq ε] in
theorem forEach_keeps {e : ε} {α : Type*} {act : α → State σ μ ε V → Option (State σ μ ε V)}
    (keeps : ∀ item st st', act item st = some st' → Keeps e st st') {items : List α}
    {st st' : State σ μ ε V} (loop : forEach act items st = some st') : Keeps e st st' := by
  induction items generalizing st with
  | nil => exact Option.some.inj loop ▸ Keeps.refl e st
  | cons item rest ih =>
      rcases Option.bind_eq_some_iff.1 loop with ⟨next, step, loop⟩
      exact (keeps item st next step).trans (ih loop)

omit [DecidableEq ε] in
theorem observer_keeps (e : ε) (st : State σ μ ε V) (observer : Option (AnySubscriber μ ε)) :
    Keeps e st { st with observer } :=
  Same.keeps ⟨rfl, rfl, rfl, rfl, rfl, fun _ => Iff.rfl⟩

omit [DecidableEq ε] in
theorem withObserver_keeps {e : ε} {α : Type*} {sub : AnySubscriber μ ε}
    {act : State σ μ ε V → Option (α × State σ μ ε V)}
    (keeps : ∀ {st result}, act st = some result → Keeps e st result.2) {st : State σ μ ε V}
    {result : α × State σ μ ε V} (run : withObserver sub act st = some result) :
    Keeps e st result.2 := by
  rcases Option.map_eq_some_iff.1 run with ⟨inside, acted, rfl⟩
  exact (observer_keeps e st _).trans ((keeps acted).trans (observer_keeps e _ _))

section Calls

variable {e : ε} {o : Ops σ μ ε V} (keep : o.Keep e)

include keep

omit [DecidableEq ε] in
theorem setSignal_keeps {s : σ} {value : V} {st st' : State σ μ ε V}
    (set : setSignal o s value st = some st') : Keeps e st st' := by
  have written : Keeps e st { st with signals := Function.update st.signals s value } :=
    Same.keeps ⟨rfl, rfl, rfl, rfl, rfl, fun _ => Iff.rfl⟩
  exact written.trans (forEach_keeps (fun _ _ _ marked => keep.markDirty marked) set)

omit [DecidableEq ε] in
theorem executeOnDrop_keeps {st st' : State σ μ ε V} (drop : executeOnDrop o st = some st') :
    Keeps e st st' := by
  have taken : Keeps e st { st with batch := none } :=
    Same.keeps ⟨rfl, rfl, rfl, rfl, rfl, fun _ => Iff.rfl⟩
  refine taken.trans (forEach_keeps (fun e' st st' ran => ?_) drop)
  rcases Option.map_eq_some_iff.1 ran with ⟨result, asked, rfl⟩
  exact keep.run asked

theorem exec_keeps {prog : Prog σ μ V} {st : State σ μ ε V}
    {result : (Option V × Bool) × State σ μ ε V} (run : prog.exec o st = some result) :
    Keeps e st result.2 := by
  induction prog generalizing st result with
  | done value changed =>
      cases Option.some.inj run
      exact Keeps.refl e st
  | readSignal s next ih => exact (track_keeps e st _).trans (ih _ run)
  | readMemo m next ih =>
      rcases Option.bind_eq_some_iff.1 run with ⟨updated, update, run⟩
      exact (track_keeps e st _).trans ((keep.update update).trans (ih _ run))
  | set s value next ih =>
      rcases Option.bind_eq_some_iff.1 run with ⟨written, set, run⟩
      exact (setSignal_keeps keep set).trans (ih run)
  | batch body next ihBody ihNext =>
      rw [Prog.exec] at run
      split at run
      · rcases Option.bind_eq_some_iff.1 run with ⟨inside, ran, run⟩
        exact (ihBody ran).trans (ihNext _ run)
      · rcases Option.bind_eq_some_iff.1 run with ⟨inside, ran, run⟩
        rcases Option.bind_eq_some_iff.1 run with ⟨dropped, drop, run⟩
        have opened : Keeps e st { st with batch := some [] } :=
          Same.keeps ⟨rfl, rfl, rfl, rfl, rfl, fun _ => Iff.rfl⟩
        exact opened.trans ((ihBody ran).trans ((executeOnDrop_keeps keep drop).trans (ihNext _ run)))

theorem markCheck_keeps {sub : AnySubscriber μ ε} {st st' : State σ μ ε V}
    (mark : markCheck o sub st = some st') : Keeps e st st' := by
  cases sub with
  | memo m =>
      refine Keeps.trans ?_ (forEach_keeps (fun _ _ _ marked => keep.markCheck marked) mark)
      split
      · exact Keeps.refl e st
      · exact (mark_same e st m .check).keeps
  | effect e' =>
      rcases Option.map_eq_some_iff.1 mark with ⟨result, ran, rfl⟩
      exact (setState_same e e' st .check).keeps.trans (withObserver_keeps keep.run ran)

theorem markDirty_keeps {sub : AnySubscriber μ ε} {st st' : State σ μ ε V}
    (mark : markDirty o sub st = some st') : Keeps e st st' := by
  cases sub with
  | memo m =>
      exact (mark_same e st m .dirty).keeps.trans
        (forEach_keeps (fun _ _ _ marked => keep.markCheck marked) mark)
  | effect e' =>
      rcases Option.map_eq_some_iff.1 mark with ⟨result, ran, rfl⟩
      exact (setState_same e e' st .dirty).keeps.trans (keep.run ran)

omit [DecidableEq ε] in
theorem anyUpdated_keeps {marked : State σ μ ε V → Bool} {sources : List (Source σ μ)}
    {st : State σ μ ε V} {result : Bool × State σ μ ε V}
    (any : anyUpdated o marked sources st = some result) : Keeps e st result.2 := by
  induction sources generalizing st with
  | nil =>
      cases Option.some.inj any
      exact Keeps.refl e st
  | cons source rest ih =>
      rcases Option.bind_eq_some_iff.1 any with ⟨updated, update, any⟩
      have here : Keeps e st updated.2 := by
        cases source with
        | signal s =>
            cases Option.some.inj update
            exact Keeps.refl e st
        | memo m => exact keep.update update
      split at any
      · cases Option.some.inj any
        exact here
      · exact here.trans (ih any)

theorem compute_keeps {f : Functions σ μ ε V} {m : μ} {st : State σ μ ε V}
    {result : Bool × State σ μ ε V} (computed : compute o f m st = some result) :
    Keeps e st result.2 := by
  rcases Option.bind_eq_some_iff.1 computed with ⟨inside, ran, stored⟩
  have ne : AnySubscriber.memo (ε := ε) m ≠ .effect e := by simp
  have taken : Keeps e st { st with
      cached := if f.owning m then Function.update st.cached m none else st.cached
      computing := m :: st.computing
      sources := Function.update st.sources m [] } :=
    Same.keeps ⟨rfl, rfl, rfl, rfl, rfl, fun _ => Iff.rfl⟩
  have cleared := taken.trans (unsubscribe_same _ (st.sources m) ne).keeps
  have clean : Keeps e inside.2 (State.mark { inside.2 with
      cached := Function.update inside.2.cached m inside.1.1, computing := st.computing } m .clean) :=
    Same.keeps ⟨rfl, rfl, rfl, rfl, rfl, fun _ => Iff.rfl⟩
  refine cleared.trans ((withObserver_keeps (exec_keeps keep) ran).trans (clean.trans ?_))
  simp only at stored
  split at stored
  · rcases Option.map_eq_some_iff.1 stored with ⟨marked, loop, rfl⟩
    refine forEach_keeps (fun sub st st' mark => ?_) loop
    split at mark
    · exact Option.some.inj mark ▸ Keeps.refl e st
    · exact keep.markDirty mark
  · cases Option.some.inj stored
    exact Keeps.refl e _

theorem updateMemo_keeps {f : Functions σ μ ε V} {m : μ} {st : State σ μ ε V}
    {result : Bool × State σ μ ε V} (update : updateMemo o f m st = some result) :
    Keeps e st result.2 := by
  rcases Option.bind_eq_some_iff.1 update with ⟨needs, asked, update⟩
  have here : Keeps e st needs.2 := by
    rw [memoNeedsUpdate] at asked
    split at asked
    · cases Option.some.inj asked
      exact Keeps.refl e st
    · cases Option.some.inj asked
      exact Keeps.refl e st
    · exact anyUpdated_keeps keep asked
  refine here.trans ?_
  split at update
  · split at update
    · cases Option.some.inj update
      exact Keeps.refl e _
    · exact compute_keeps keep update
  · cases Option.some.inj update
    exact (mark_same e _ m .clean).keeps

theorem updateEffect_keeps {f : Functions σ μ ε V} {e' : ε} {st : State σ μ ε V}
    {result : Bool × State σ μ ε V} (update : updateEffect o f e' st = some result) :
    Keeps e st result.2 := by
  rcases Option.bind_eq_some_iff.1 update with ⟨needs, asked, update⟩
  have here : Keeps e st needs.2 := by
    rw [effectNeedsUpdate] at asked
    split at asked
    · cases Option.some.inj asked
      exact Keeps.refl e st
    · cases Option.some.inj asked
      exact Keeps.refl e st
    · exact anyUpdated_keeps keep asked
  refine here.trans ?_
  split at update
  · cases Option.some.inj update
    exact Same.keeps ⟨rfl, rfl, rfl, rfl, rfl, fun _ => Iff.rfl⟩
  · split at update
    · rcases Option.map_eq_some_iff.1 update with ⟨inside, ran, rfl⟩
      have inner := withObserver_keeps (exec_keeps keep) ran
      by_cases same : e = e'
      · subst same
        exact run_keeps inner
      · exact (begin_same same needs.2).keeps.trans (inner.trans (complete_same same inside.2 _).keeps)
    · cases Option.some.inj update
      exact Keeps.refl e _

end Calls

theorem ops_keeps (f : Functions σ μ ε V) (e : ε) (depth : ℕ) : (ops f depth).Keep e := by
  induction depth with
  | zero =>
      refine ⟨?_, ?_, ?_, ?_⟩ <;>
        · intro _ _ _ call
          cases call
  | succ depth ih => exact ⟨markCheck_keeps ih, markDirty_keeps ih, updateMemo_keeps ih,
      updateEffect_keeps ih⟩

/-! ## After all runs have ended -/

/-- What user code does outside of memos and effects. -/
inductive Act (σ μ ε V : Type*) where
  | create (e : ε)
  | code (prog : Prog σ μ V)

def act (o : Ops σ μ ε V) (st : State σ μ ε V) : Act σ μ ε V → Option (State σ μ ε V)
  | .create e => (o.run e st).map Prod.snd
  | .code prog => (prog.exec o st).map Prod.snd

/-- The effect has just the sources that the run that started last has read, and is subscribed to just
these. -/
def State.LastRunOnly (st : State σ μ ε V) (e : ε) : Prop :=
  (∀ source, .effect e ∈ st.subscribers source ↔ source ∈ (st.effects e).sources) ∧
    ∀ source, source ∈ (st.effects e).sources ↔ source ∈ (follow (st.log e)).reads

omit [DecidableEq ε] in
theorem new_inv (signals : σ → V) (e : ε) : Inv e 0 (State.new signals : State σ μ ε V) :=
  ⟨rfl, fun _ => rfl, le_rfl, by simp [State.new, follow], rfl, by simp [State.new, follow],
    by simp [State.new, follow]⟩

theorem act_keeps (f : Functions σ μ ε V) (e : ε) (depth : ℕ) {st st' : State σ μ ε V}
    {a : Act σ μ ε V} (acted : act (ops f depth) st a = some st') : Keeps e st st' := by
  cases a with
  | create e' =>
      rcases Option.map_eq_some_iff.1 acted with ⟨result, ran, rfl⟩
      exact (ops_keeps f e depth).run ran
  | code prog =>
      rcases Option.map_eq_some_iff.1 acted with ⟨result, ran, rfl⟩
      exact exec_keeps (ops_keeps f e depth) ran

/-- Whatever the functions and whatever code runs, when all runs have ended an effect has just the sources
that its last run to start has read; and it is subscribed to just these if and only if no source is left
loose. -/
theorem nested_runs_agree (f : Functions σ μ ε V) (depth : ℕ) (signals : σ → V)
    (acts : List (Act σ μ ε V)) {st : State σ μ ε V}
    (run : exec (act (ops f depth)) (State.new signals) acts = some st) (e : ε) :
    st.LastRunOnly e ↔ (follow (st.log e)).loose = [] := by
  have reached := Reaches.of_exec .start acts run (meets_true _ acts)
  have inv : Inv e 0 st := reached.invariant (new_inv signals e)
    fun _ _ _ inv acted _ => (act_keeps f e depth acted 0 inv).1
  have sources : ∀ source, source ∈ (st.effects e).sources ↔ source ∈ (follow (st.log e)).reads :=
    fun source => by rw [inv.sources]
  constructor
  · intro only
    rw [List.eq_nil_iff_forall_not_mem]
    intro source loose
    have subscribed := (inv.subscribed source).2 (Or.inr loose)
    exact inv.apart source ((sources source).1 ((only.1 source).1 subscribed)) loose
  · intro none
    refine ⟨fun source => ?_, sources⟩
    rw [inv.subscribed, sources, none]
    simp

/-! ## A read after a nested run -/

/-- Two signals, and an effect that writes the one it reads, and then reads the other. -/
def lateReader : Functions Bool Empty Unit ℕ where
  memo := fun m _ => m.elim
  owning := Empty.elim
  effect := fun _ => .readSignal false fun value =>
    if value = 0 then .set false 1 (.readSignal true fun _ => .done none false) else .done none false

/-- The effect stays subscribed to the other signal, which its last run to start has not read. -/
theorem late_read_subscribes :
    ∃ st, exec (act (ops lateReader 4)) (State.new fun _ => 0) [.create ()] = some st ∧
      AnySubscriber.effect () ∈ st.subscribers (.signal true) ∧ ¬ st.LastRunOnly () := by
  refine ⟨_, rfl, List.mem_singleton_self _, fun only => ?_⟩
  have source := (only.1 (.signal true)).1 (List.mem_singleton_self _)
  exact absurd source (by decide)

/-- An effect that writes the signal it reads, and reads nothing after. -/
def promptReader : Functions Bool Empty Unit ℕ where
  memo := fun m _ => m.elim
  owning := Empty.elim
  effect := fun _ => .readSignal false fun value =>
    if value = 0 then .set false 1 (.done none false) else .done none false

theorem nested_runs_agree_prompt :
    ∃ st, exec (act (ops promptReader 4)) (State.new fun _ => 0) [.create ()] = some st ∧
      st.LastRunOnly () :=
  ⟨_, rfl, (nested_runs_agree promptReader 4 (fun _ => 0) [.create ()] rfl ()).2 rfl⟩

end Halyard.Reactive.Immediate
