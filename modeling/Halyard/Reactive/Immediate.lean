import Halyard.Reactive.State

/-!
# Immediate effects

`ImmediateEffect` of `effect/immediate.rs`, on one thread: a signal's write runs the effects that it
reaches before it returns, so that an effect whose function writes signals runs inside its own run, and
an effect can run while a memo is computed.  `batch` defers the runs to its end.

Functions of memos and effects are programs that read and write; a read gets a copy of the value.  The
calls of one node's methods from another's are bounded by a depth (`ops`), and running out of it is
`none`.  The run counters do not saturate here: the stack is exhausted long before.
-/

namespace Halyard.Reactive.Immediate

/-- What a function does.  A memo's function gives its value, which may be gone, and whether it changed;
an effect's gives nothing. -/
inductive Prog (σ μ V : Type*) where
  | done (value : Option V) (changed : Bool)
  | readSignal (s : σ) (next : V → Prog σ μ V)
  | readMemo (m : μ) (next : Option V → Prog σ μ V)
  | set (s : σ) (value : V) (next : Prog σ μ V)
  | batch (body : Prog σ μ V) (next : Option V → Prog σ μ V)

/-- The functions of the memos, which get the previous value, and of the effects. -/
structure Functions (σ μ ε V : Type*) where
  memo : μ → Option V → Prog σ μ V
  /-- `MemoFn::Owning`: the function takes the previous value out of the memo. -/
  owning : μ → Bool
  effect : ε → Prog σ μ V

/-- `AnySubscriber`. -/
inductive AnySubscriber (μ ε : Type*) where
  | memo (m : μ)
  | effect (e : ε)
  deriving DecidableEq

/-- `EffectInner`. -/
structure EffectInner (σ μ : Type*) where
  state : NodeState := .dirty
  sources : List (Source σ μ) := []
  /-- The number of runs that have started since none was ongoing. -/
  runCountStart : ℕ := 0
  /-- The number of these that have completed. -/
  runDoneCount : ℕ := 0
  /-- The highest run, numbered from 1, of those that have completed. -/
  runDoneMax : ℕ := 0

/-- What happens to an effect. -/
inductive Event (σ μ : Type*) where
  | start
  | read (source : Source σ μ)
  | finish
  deriving DecidableEq

structure State (σ μ ε V : Type*) where
  signals : σ → V
  cached : μ → Option V
  state : μ → NodeState
  sources : μ → List (Source σ μ)
  subscribers : Source σ μ → List (AnySubscriber μ ε)
  effects : ε → EffectInner σ μ
  observer : Option (AnySubscriber μ ε)
  /-- `BATCH`. -/
  batch : Option (List ε)
  /-- The memos that are being computed. -/
  computing : List μ
  /-- What has happened to each effect. -/
  log : ε → List (Event σ μ)

/-- Before any effect has run. -/
def State.new {σ μ ε V : Type*} (signals : σ → V) : State σ μ ε V where
  signals
  cached := fun _ => none
  state := fun _ => .dirty
  sources := fun _ => []
  subscribers := fun _ => []
  effects := fun _ => {}
  observer := none
  batch := none
  computing := []
  log := fun _ => []

/-- The methods of a node that others call. -/
structure Ops (σ μ ε V : Type*) where
  markCheck : AnySubscriber μ ε → State σ μ ε V → Option (State σ μ ε V)
  markDirty : AnySubscriber μ ε → State σ μ ε V → Option (State σ μ ε V)
  /-- `MemoInner::update_if_necessary`. -/
  update : μ → State σ μ ε V → Option (Bool × State σ μ ε V)
  /-- `EffectInner::update_if_necessary`. -/
  run : ε → State σ μ ε V → Option (Bool × State σ μ ε V)

section Operations

variable {σ μ ε V : Type*} [DecidableEq σ] [DecidableEq μ] [DecidableEq ε]

/-! ## Subscriptions -/

def State.setEffect (st : State σ μ ε V) (e : ε) (inner : EffectInner σ μ) : State σ μ ε V :=
  { st with effects := Function.update st.effects e inner }

def State.mark (st : State σ μ ε V) (m : μ) (state : NodeState) : State σ μ ε V :=
  { st with state := Function.update st.state m state }

def State.record (st : State σ μ ε V) (e : ε) (event : Event σ μ) : State σ μ ε V :=
  { st with log := Function.update st.log e (st.log e ++ [event]) }

def State.subscribe (st : State σ μ ε V) (source : Source σ μ) (sub : AnySubscriber μ ε) :
    State σ μ ε V :=
  { st with
    subscribers := Function.update st.subscribers source (insertLast (st.subscribers source) sub) }

/-- `SourceSet::clear_sources`, of the sources that were taken out. -/
def State.unsubscribe (st : State σ μ ε V) (sources : List (Source σ μ)) (sub : AnySubscriber μ ε) :
    State σ μ ε V :=
  { st with
    subscribers := fun source =>
      if source ∈ sources then (st.subscribers source).filter (· ≠ sub) else st.subscribers source }

/-- `EffectInner::add_source`: only while the last run is ongoing. -/
def EffectInner.addSource (inner : EffectInner σ μ) (source : Source σ μ) : EffectInner σ μ :=
  if inner.runDoneMax < inner.runCountStart then
    { inner with sources := insertLast inner.sources source }
  else inner

/-- `Track::track`; a memo does not track itself. -/
def State.track (st : State σ μ ε V) (source : Source σ μ) : State σ μ ε V :=
  match st.observer with
  | none => st
  | some (.memo m) =>
      if source = .memo m then st
      else
        let sources := Function.update st.sources m (insertLast (st.sources m) source)
        State.subscribe { st with sources } source (.memo m)
  | some (.effect e) =>
      ((st.setEffect e ((st.effects e).addSource source)).subscribe source (.effect e)).record e
        (.read source)

/-! ## Programs -/

def forEach {α : Type*} (act : α → State σ μ ε V → Option (State σ μ ε V)) :
    List α → State σ μ ε V → Option (State σ μ ε V)
  | [], st => some st
  | item :: rest, st => (act item st).bind (forEach act rest)

/-- `with_observer`. -/
def withObserver {α : Type*} (sub : AnySubscriber μ ε)
    (act : State σ μ ε V → Option (α × State σ μ ε V)) (st : State σ μ ε V) :
    Option (α × State σ μ ε V) :=
  (act { st with observer := some sub }).map fun result =>
    (result.1, { result.2 with observer := st.observer })

variable (o : Ops σ μ ε V)

/-- A write of a signal: the value is swapped in, and every subscriber is marked. -/
def setSignal (s : σ) (value : V) (st : State σ μ ε V) : Option (State σ μ ε V) :=
  forEach o.markDirty (st.subscribers (.signal s))
    { st with signals := Function.update st.signals s value }

/-- The end of the outermost batch: the batched effects are asked to update. -/
def executeOnDrop (st : State σ μ ε V) : Option (State σ μ ε V) :=
  forEach (fun e st => (o.run e st).map Prod.snd) (st.batch.getD []) { st with batch := none }

def Prog.exec : Prog σ μ V → State σ μ ε V → Option ((Option V × Bool) × State σ μ ε V)
  | .done value changed, st => some ((value, changed), st)
  | .readSignal s next, st => (next (st.signals s)).exec (st.track (.signal s))
  | .readMemo m next, st =>
      (o.update m (st.track (.memo m))).bind fun updated =>
        (next (updated.2.cached m)).exec updated.2
  | .set s value next, st => (setSignal o s value st).bind next.exec
  | .batch body next, st =>
      if st.batch.isSome then
        -- nested batching has no effect
        (body.exec st).bind fun result => (next result.1.1).exec result.2
      else
        (body.exec { st with batch := some [] }).bind fun result =>
          (executeOnDrop o result.2).bind (next result.1.1).exec

/-! ## Marks -/

/-- `mark_check`. -/
def markCheck : AnySubscriber μ ε → State σ μ ε V → Option (State σ μ ε V)
  | .memo m, st =>
      forEach o.markCheck (st.subscribers (.memo m))
        (if st.state m = .dirty then st else st.mark m .check)
  | .effect e, st =>
      (withObserver (.effect e) (o.run e)
        (st.setEffect e { st.effects e with state := .check })).map Prod.snd

/-- `mark_dirty`. -/
def markDirty : AnySubscriber μ ε → State σ μ ε V → Option (State σ μ ε V)
  | .memo m, st => forEach o.markCheck (st.subscribers (.memo m)) (st.mark m .dirty)
  | .effect e, st => (o.run e (st.setEffect e { st.effects e with state := .dirty })).map Prod.snd

/-! ## Updates -/

/-- `update_if_necessary` of a source; a signal's is `false`. -/
def updateSource : Source σ μ → State σ μ ε V → Option (Bool × State σ μ ε V)
  | .signal _, st => some (false, st)
  | .memo m, st => o.update m st

/-- `sources.any(..)`, where a source that is not updated may still have `marked` what asks. -/
def anyUpdated (marked : State σ μ ε V → Bool) :
    List (Source σ μ) → State σ μ ε V → Option (Bool × State σ μ ε V)
  | [], st => some (false, st)
  | source :: rest, st =>
      (updateSource o source st).bind fun updated =>
        if updated.1 || marked updated.2 then some (true, updated.2)
        else anyUpdated marked rest updated.2

/-- `needs_update` of a memo. -/
def memoNeedsUpdate (m : μ) (st : State σ μ ε V) : Option (Bool × State σ μ ε V) :=
  match st.state m with
  | .clean => some (false, st)
  | .dirty => some (true, st)
  | .check => anyUpdated o (fun st => st.state m = .dirty) (st.sources m) st

/-- The loop of `inner_2`: the current observer is not marked. -/
def markChanged (m : μ) (st : State σ μ ε V) : Option (State σ μ ε V) :=
  forEach (fun sub st => if st.observer = some sub then some st else o.markDirty sub st)
    (st.subscribers (.memo m)) st

/-- The part of `update_if_necessary` that computes the memo. -/
def compute (f : Functions σ μ ε V) (m : μ) (st : State σ μ ε V) : Option (Bool × State σ μ ε V) :=
  let started : State σ μ ε V := State.unsubscribe
    { st with
      cached := if f.owning m then Function.update st.cached m none else st.cached
      computing := m :: st.computing
      sources := Function.update st.sources m [] }
    (st.sources m) (.memo m)
  (withObserver (.memo m) ((f.memo m (st.cached m)).exec o) started).bind fun result =>
    let stored : State σ μ ε V :=
      State.mark { result.2 with
        cached := Function.update result.2.cached m result.1.1
        computing := st.computing } m .clean
    if result.1.2 then (markChanged o m stored).map fun st => (true, st) else some (false, stored)

/-- `MemoInner::update_if_necessary`; a memo that is being computed stays as it is. -/
def updateMemo (f : Functions σ μ ε V) (m : μ) (st : State σ μ ε V) : Option (Bool × State σ μ ε V) :=
  (memoNeedsUpdate o m st).bind fun needs =>
    if needs.1 then if m ∈ needs.2.computing then some (false, needs.2) else compute o f m needs.2
    else some (false, needs.2.mark m .clean)

/-- A run of an effect begins: its sources are cleared. -/
def State.begin (st : State σ μ ε V) (e : ε) : State σ μ ε V :=
  ((st.unsubscribe (st.effects e).sources (.effect e)).setEffect e
    { st.effects e with
      runCountStart := (st.effects e).runCountStart + 1
      sources := [] }).record e .start

/-- The run with number `recursionCount` has completed; when no run is ongoing the counters are reset. -/
def EffectInner.complete (inner : EffectInner σ μ) (recursionCount : ℕ) : EffectInner σ μ :=
  if inner.runCountStart = inner.runDoneCount + 1 then
    { inner with state := .clean, runCountStart := 0, runDoneCount := 0, runDoneMax := 0 }
  else
    { inner with
      state := .clean
      runDoneCount := inner.runDoneCount + 1
      runDoneMax := max recursionCount inner.runDoneMax }

def State.complete (st : State σ μ ε V) (e : ε) (recursionCount : ℕ) : State σ μ ε V :=
  (st.setEffect e ((st.effects e).complete recursionCount)).record e .finish

/-- `needs_update` of an effect. -/
def effectNeedsUpdate (e : ε) (st : State σ μ ε V) : Option (Bool × State σ μ ε V) :=
  match (st.effects e).state with
  | .clean => some (false, st)
  | .dirty => some (true, st)
  | .check => anyUpdated o (fun _ => false) (st.effects e).sources st

/-- `EffectInner::update_if_necessary`: a batch takes the effect, whatever it needs. -/
def updateEffect (f : Functions σ μ ε V) (e : ε) (st : State σ μ ε V) :
    Option (Bool × State σ μ ε V) :=
  (effectNeedsUpdate o e st).bind fun needs =>
    match needs.2.batch with
    | some effects => some (needs.1, { needs.2 with batch := some (insertLast effects e) })
    | none =>
        if needs.1 then
          let recursionCount := (needs.2.effects e).runCountStart + 1
          (withObserver (.effect e) ((f.effect e).exec o) (needs.2.begin e)).map fun result =>
            (true, result.2.complete e recursionCount)
        else some (false, needs.2)

/-- The methods, with calls nested up to a depth. -/
def ops (f : Functions σ μ ε V) : ℕ → Ops σ μ ε V
  | 0 =>
      { markCheck := fun _ _ => none
        markDirty := fun _ _ => none
        update := fun _ _ => none
        run := fun _ _ => none }
  | depth + 1 =>
      { markCheck := markCheck (ops f depth)
        markDirty := markDirty (ops f depth)
        update := updateMemo (ops f depth) f
        run := updateEffect (ops f depth) f }

end Operations

end Halyard.Reactive.Immediate
