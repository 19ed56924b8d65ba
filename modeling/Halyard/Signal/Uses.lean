import Halyard.Signal.Threads

/-!
# What a thread's record counts

`Balanced`: a thread's entry counts exactly the uses alive on it, its flag for the turn says whether
the thread has the turn, and the lock is held for reading once for each read alive.  A closure whose
update is to be deferred runs inside a use that outlasts it, so that its write can be deferred.

The steps of user code and of the library keep that: `step_balanced` in `Signal/Balance`.
-/

namespace Halyard.Signal

variable {ι T : Type} [DecidableEq ι]

namespace Frame

/-- How many uses the frame has recorded. -/
def recorded : Frame T → ℕ
  | .withClosure _ | .readCommitted .. | .commit .. | .exit _ | .drain _ => 1
  | .updateClosure _ _ started _ => if started then 1 else 0
  | .subscribers | .takeTurn _ | .flush .. => 0

/-- How often the frame holds the lock for reading. -/
def reading : Frame T → ℕ
  | .withClosure _ => 1
  | _ => 0

/-- Whether other frames can be above this one. -/
def resting : Frame T → Bool
  | .exit _ | .drain _ => true
  | frame => frame.user

/-- Whether the frame waits for the turn. -/
def waits : Frame T → Bool
  | .takeTurn _ | .flush .. => true
  | _ => false

/-- Whether the frame has the turn while the record has no entry. -/
def keepsTurn : Frame T → Bool
  | .flush _ turn => turn
  | _ => false

end Frame

def Guard.reading : Guard T → ℕ
  | .read => 1
  | .write .. => 0

/-- How many uses the frames of a stack have recorded. -/
def recorded (stack : List (Frame T)) : ℕ :=
  (stack.map Frame.recorded).sum

/-- The uses alive on a thread. -/
def Thread.uses (th : Thread T) : ℕ :=
  recorded th.stack + th.guards.length

/-- How often a thread holds the lock for reading. -/
def Thread.reading (th : Thread T) : ℕ :=
  (th.stack.map Frame.reading).sum + (th.guards.map Guard.reading).sum

/-- The frame on top has a property. -/
def top (p : Frame T → Bool) (stack : List (Frame T)) : Bool :=
  stack.head?.any p

/-- Closures respect the guards that were alive when they began, and one whose update is to be
deferred began inside another use. -/
def Nested : List (Frame T) → ℕ → Prop
  | [], _ => True
  | .withClosure base :: rest, alive => base ≤ alive ∧ Nested rest base
  | .updateClosure _ _ started base :: rest, alive =>
      base ≤ alive ∧ (started = false → 0 < recorded rest + base) ∧ Nested rest base
  | _ :: rest, alive => Nested rest alive

structure Balanced (me : ι) (sh : Shared ι T) (th : Thread T) : Prop where
  depth : th.record.depth = th.uses
  present : th.record.isSome → 0 < th.uses
  nested : Nested th.stack th.guards.length
  resting : ∀ frame ∈ th.stack.tail, frame.resting
  waiting : top Frame.waits th.stack → th.uses = 0
  turn : sh.turn = some me ↔ th.record.hasTurn ∨ top Frame.keepsTurn th.stack
  readers : sh.readers.count me = th.reading

/-! ## Stacks -/

section Stacks

variable (stack rest : List (Frame T)) (frame : Frame T)

@[simp] theorem recorded_nil : recorded ([] : List (Frame T)) = 0 := rfl

@[simp] theorem recorded_cons : recorded (frame :: rest) = frame.recorded + recorded rest := rfl

@[simp] theorem top_nil (p : Frame T → Bool) : top p [] = false := rfl

@[simp] theorem top_cons (p : Frame T → Bool) : top p (frame :: rest) = p frame := by
  simp [top]

@[simp] theorem recorded_notifying (write : Deferred T) :
    recorded (notifying write rest) = recorded rest := by
  unfold notifying
  split <;> simp [Frame.recorded]

end Stacks

theorem Nested.mono {stack : List (Frame T)} {alive more : ℕ} (nested : Nested stack alive)
    (le : alive ≤ more) : Nested stack more := by
  induction stack with
  | nil => trivial
  | cons frame rest ih =>
    cases frame <;> simp only [Nested] at nested ⊢ <;> first | exact ih nested | grind

/-- Guards that the running closure may drop are none of those it must leave alone. -/
theorem Nested.drop {stack : List (Frame T)} {alive fewer : ℕ} (nested : Nested stack alive)
    (le : base stack ≤ fewer) : Nested stack fewer := by
  induction stack with
  | nil => trivial
  | cons frame rest ih =>
    cases frame <;> simp only [Nested, base] at nested le ⊢ <;> first | exact ih nested le | grind

end Halyard.Signal
