import Halyard.Reactive.Graph

/-!
# The reactive graph at run time

Signals, memos (`MemoInner`, made by `ArcMemo::new`) and one effect (`EffectInner`) of one thread,
with their marks, subscriptions and cached values, and the operations on them: marking, tracking
reads, and `update_if_necessary`.

The code recurses along subscribers (`mark_check`) and along sources (`update_if_necessary`); here
both take a bound on their depth, and running out of it is `none`.

A memo's function is pure and gets each value it reads, so that no guard on a memo's value lives on,
and in an acyclic graph no memo is read while it is computed: the branches of `update_if_necessary`
for those (`held_by_this_thread`, `computing_here`) are never taken, and are left out.
-/

namespace Halyard.Reactive

/-- `ReactiveNodeState`. -/
inductive NodeState where
  | clean
  | check
  | dirty
deriving DecidableEq, Repr

/-- What can subscribe: a memo, or the effect. -/
inductive Subscriber (μ : Type*) where
  | memo (m : μ)
  | effect
deriving DecidableEq

/-- The fields of all nodes, each as a map from the nodes that have it. -/
structure State (σ μ V : Type*) where
  /-- The values of the signals. -/
  signals : σ → V
  /-- `MemoInner::value`. -/
  cached : μ → Option V
  /-- `MemoInnerReactivity::state`. -/
  state : μ → NodeState
  sources : Subscriber μ → List (Source σ μ)
  subscribers : Source σ μ → List (Subscriber μ)
  /-- `EffectInner::dirty`. -/
  dirty : Bool
  /-- The effect's channel holds a notification. -/
  notified : Bool
  /-- `Observer`. -/
  observer : Option (Subscriber μ)

/-- `IndexSet::insert`. -/
def insertLast {α : Type*} [DecidableEq α] (items : List α) (item : α) : List α :=
  if item ∈ items then items else items ++ [item]

/-- The value that a source holds. -/
def State.held {σ μ V : Type*} (st : State σ μ V) : Source σ μ → Option V
  | .signal s => some (st.signals s)
  | .memo m => st.cached m

section Operations

variable {σ μ V : Type*} [DecidableEq σ] [DecidableEq μ]

def State.mark (st : State σ μ V) (m : μ) (state : NodeState) : State σ μ V :=
  { st with state := Function.update st.state m state }

/-! ## Subscriptions -/

/-- The source is the memo that subscribes. -/
def Source.isSelf : Source σ μ → Subscriber μ → Bool
  | .memo m, .memo n => m = n
  | _, _ => false

/-- `Subscriber::add_source`. -/
def State.addSource (st : State σ μ V) (sub : Subscriber μ) (source : Source σ μ) :
    State σ μ V :=
  if source.isSelf sub then st
  else { st with sources := Function.update st.sources sub (insertLast (st.sources sub) source) }

/-- `Source::add_subscriber`. -/
def State.addSubscriber (st : State σ μ V) (source : Source σ μ) (sub : Subscriber μ) :
    State σ μ V :=
  if source.isSelf sub then st
  else { st with
    subscribers := Function.update st.subscribers source (insertLast (st.subscribers source) sub) }

/-- `Source::remove_subscriber`. -/
def State.removeSubscriber (st : State σ μ V) (sub : Subscriber μ) (source : Source σ μ) :
    State σ μ V :=
  { st with subscribers := Function.update st.subscribers source ((st.subscribers source).erase sub) }

/-- `Subscriber::clear_sources`. -/
def State.clearSources (st : State σ μ V) (sub : Subscriber μ) : State σ μ V :=
  (st.sources sub).foldl (fun st source => st.removeSubscriber sub source)
    { st with sources := Function.update st.sources sub [] }

/-- `Track::track`. -/
def State.track (st : State σ μ V) (source : Source σ μ) : State σ μ V :=
  match st.observer with
  | none => st
  | some sub => (st.addSource sub source).addSubscriber source sub

/-! ## Marks -/

/-- A loop over a cloned set. -/
def forEach {α : Type*} (act : α → State σ μ V → Option (State σ μ V)) :
    List α → State σ μ V → Option (State σ μ V)
  | [], st => some st
  | item :: rest, st => (act item st).bind (forEach act rest)

/-- `mark_check`. -/
def markCheck : ℕ → Subscriber μ → State σ μ V → Option (State σ μ V)
  | _, .effect, st => some { st with notified := true }
  | 0, .memo _, _ => none
  | depth + 1, .memo m, st =>
      let st := if st.state m = .dirty then st else st.mark m .check
      forEach (markCheck depth) (st.subscribers (.memo m)) st

/-- `mark_dirty`. -/
def markDirty (depth : ℕ) : Subscriber μ → State σ μ V → Option (State σ μ V)
  | .effect, st => some { st with dirty := true, notified := true }
  | .memo m, st => forEach (markCheck depth) (st.subscribers (.memo m)) (st.mark m .dirty)

/-! ## Updates -/

section Update

variable (update : μ → State σ μ V → Option (Bool × State σ μ V))

/-- A function's value and what it read, one read earlier. -/
def logged (source : Source σ μ) (value : V)
    (result : (V × List (Source σ μ × V)) × State σ μ V) :
    (V × List (Source σ μ × V)) × State σ μ V :=
  ((result.1.1, (source, value) :: result.1.2), result.2)

/-- Runs a memo's or the effect's function: each read is tracked, and updates what it reads.  Beside
the function's value it gives what the function read, with the values. -/
def Computation.run :
    Computation σ μ V → State σ μ V → Option ((V × List (Source σ μ × V)) × State σ μ V)
  | .done value, st => some ((value, []), st)
  | .readSignal s next, st =>
      ((next (st.signals s)).run (st.track (.signal s))).map (logged (.signal s) (st.signals s))
  | .readMemo m next, st =>
      (update m (st.track (.memo m))).bind fun updated =>
        (updated.2.cached m).bind fun value =>
          ((next value).run updated.2).map (logged (.memo m) value)

/-- `update_if_necessary` of a source; a signal's is `false`. -/
def updateSource : Source σ μ → State σ μ V → Option (Bool × State σ μ V)
  | .signal _, st => some (false, st)
  | .memo m, st => update m st

/-- `sources.any(|source| source.update_if_necessary() || state == Dirty)`. -/
def anyUpdated (m : μ) : List (Source σ μ) → State σ μ V → Option (Bool × State σ μ V)
  | [], st => some (false, st)
  | source :: rest, st =>
      (updateSource update source st).bind fun updated =>
        if updated.1 || updated.2.state m = .dirty then some (true, updated.2)
        else anyUpdated m rest updated.2

/-- `needs_update`. -/
def needsUpdate (m : μ) (st : State σ μ V) : Option (Bool × State σ μ V) :=
  match st.state m with
  | .clean => some (false, st)
  | .dirty => some (true, st)
  | .check => anyUpdated update m (st.sources (.memo m)) st

/-- `with_observer`. -/
def withObserver {α : Type*} (sub : Subscriber μ) (act : State σ μ V → Option (α × State σ μ V))
    (st : State σ μ V) : Option (α × State σ μ V) :=
  (act { st with observer := some sub }).map fun result =>
    (result.1, { result.2 with observer := st.observer })

/-- The loop of `inner_2`: the current observer is not marked. -/
def markChanged (depth : ℕ) : List (Subscriber μ) → State σ μ V → Option (State σ μ V) :=
  forEach fun sub st => if st.observer = some sub then some st else markDirty depth sub st

/-- The end of a recomputation: the new value replaces the old one, the memo is clean, and if the
value changed the subscribers are marked. -/
def store (depth : ℕ) (m : μ) (value : V) (changed : Bool) (st : State σ μ V) :
    Option (Bool × State σ μ V) :=
  let st := State.mark { st with cached := Function.update st.cached m (some value) } m .clean
  if changed then
    (markChanged depth (st.subscribers (.memo m)) st).map fun st => (true, st)
  else some (false, st)

variable [DecidableEq V]

/-- The part of `update_if_necessary` that recomputes the memo. -/
def recompute (depth : ℕ) (fn : μ → Computation σ μ V) (m : μ) (st : State σ μ V) :
    Option (Bool × State σ μ V) :=
  (withObserver (.memo m) ((fn m).run update) (st.clearSources (.memo m))).bind fun result =>
    store depth m result.1.1 (st.cached m ≠ some result.1.1) result.2

end Update

variable [DecidableEq V] [Fintype μ]

/-- `MemoInner::update_if_necessary`: whether the memo's value changed. -/
def updateIfNecessary (g : Graph σ μ V) : ℕ → μ → State σ μ V → Option (Bool × State σ μ V)
  | 0, _, _ => none
  | depth + 1, m, st =>
      (needsUpdate (updateIfNecessary g depth) m st).bind fun needs =>
        if needs.1 then recompute (updateIfNecessary g depth) (Fintype.card μ) g.fn m needs.2
        else some (false, needs.2.mark m .clean)

/-! ## What a program does -/

/-- A read of a memo: it is tracked, updated and got. -/
def readMemo (g : Graph σ μ V) (m : μ) (st : State σ μ V) : Option (V × State σ μ V) :=
  (updateIfNecessary g (Fintype.card μ) m (st.track (.memo m))).bind fun updated =>
    (updated.2.cached m).map fun value => (value, updated.2)

/-- A write of a signal: the value is swapped in, and every subscriber is marked. -/
def setSignal (s : σ) (value : V) (st : State σ μ V) : Option (State σ μ V) :=
  forEach (markDirty (Fintype.card μ)) (st.subscribers (.signal s))
    { st with signals := Function.update st.signals s value }

end Operations

end Halyard.Reactive
