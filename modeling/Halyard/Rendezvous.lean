import Mathlib.Data.Set.Basic

/-!
# Registering before looking

A waiter registers, looks for what it waits for, and rests if it is not there.  Whoever sets it wakes all that are
registered afterwards.  Nobody rests while it is there, unless a setter has yet to wake.

* `Rendezvous.Move.sound`: a move of either side keeps that.
-/

namespace Halyard

/-- `set` says that what is waited for is there, and `owed` counts the setters that have yet to wake.  A waiter
rests from its look on. -/
structure Rendezvous (W : Type*) where
  set : Bool
  owed : ℕ
  registered : Set W
  resting : Set W

namespace Rendezvous

variable {W : Type*} {r r' : Rendezvous W}

inductive Move (r : Rendezvous W) : Rendezvous W → Prop
  | sets : Move r { r with set := true, owed := r.owed + 1 }
  /-- A setter, or anyone else, wakes all that are registered. -/
  | wakes {owed : ℕ} : Move r ⟨r.set, owed, ∅, r.resting \ r.registered⟩
  /-- A waiter takes what it has found. -/
  | clears : Move r { r with set := false }
  | registers {registered : Set W} (more : r.registered ⊆ registered) : Move r { r with registered }
  | rests {resting : Set W} (unset : r.set = false) (listed : resting ⊆ r.registered) :
      Move r { r with resting }
  | rises {resting : Set W} (fewer : resting ⊆ r.resting) : Move r { r with resting }

/-- Whoever rests is registered, and will be woken if what it waits for is there. -/
def Sound (r : Rendezvous W) : Prop :=
  ∀ w ∈ r.resting, w ∈ r.registered ∧ (r.set = true → 0 < r.owed)

theorem Move.sound (move : Move r r') (sound : r.Sound) : r'.Sound := by
  intro w resting
  cases move with
  | sets => exact ⟨(sound w resting).1, fun _ => Nat.succ_pos _⟩
  | wakes => exact absurd (sound w resting.1).1 resting.2
  | clears => exact ⟨(sound w resting).1, fun set => absurd set Bool.false_ne_true⟩
  | registers more => exact ⟨more (sound w resting).1, (sound w resting).2⟩
  | rests unset listed => exact ⟨listed resting, fun set => absurd (unset.symm.trans set) Bool.false_ne_true⟩
  | rises fewer => exact sound w (fewer resting)

/-- Once nobody has yet to wake, nobody rests for what is there. -/
theorem Sound.none_resting (sound : r.Sound) (set : r.set = true) (paid : r.owed = 0) : r.resting = ∅ :=
  Set.eq_empty_of_forall_notMem fun w resting => Nat.ne_of_gt ((sound w resting).2 set) paid

end Rendezvous

end Halyard
