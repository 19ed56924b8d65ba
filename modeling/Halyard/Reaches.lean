import Mathlib

/-!
# States reached by a labelled machine

`Reaches step ok start` are the states that a machine reaches from `start` by steps that all meet
`ok`, a condition on the state before the step, its label and the state after it.
-/

namespace Halyard

variable {σ α : Type*} {step : σ → α → Option σ} {ok ok' : σ → α → σ → Prop}

inductive Reaches (step : σ → α → Option σ) (ok : σ → α → σ → Prop) (start : σ) : σ → Prop
  | start : Reaches step ok start start
  | step {s s' : σ} {a : α} :
    Reaches step ok start s → step s a = some s' → ok s a s' → Reaches step ok start s'

/-- What holds at the start and is kept by every step that meets `ok` holds throughout. -/
theorem Reaches.invariant {P : σ → Prop} {start s : σ} (reached : Reaches step ok start s)
    (first : P start)
    (kept : ∀ s a s', P s → step s a = some s' → ok s a s' → P s') : P s := by
  induction reached with
  | start => exact first
  | step _ moved meets ih => exact kept _ _ _ ih moved meets

theorem Reaches.mono {start s : σ} (weaker : ∀ s a s', ok s a s' → ok' s a s')
    (reached : Reaches step ok start s) : Reaches step ok' start s := by
  induction reached with
  | start => exact .start
  | step _ moved meets ih => exact ih.step moved (weaker _ _ _ meets)

/-- The state after a list of labels. -/
def exec (step : σ → α → Option σ) (s : σ) : List α → Option σ
  | [] => some s
  | a :: rest => (step s a).bind fun s' => exec step s' rest

/-- Whether every step of a run meets `ok`. -/
def Meets (step : σ → α → Option σ) (ok : σ → α → σ → Prop) (s : σ) : List α → Prop
  | [] => True
  | a :: rest => ∀ s', step s a = some s' → ok s a s' ∧ Meets step ok s' rest

theorem Reaches.of_exec {start s s' : σ} (reached : Reaches step ok start s) (labels : List α)
    (run : exec step s labels = some s') (meets : Meets step ok s labels) :
    Reaches step ok start s' := by
  induction labels generalizing s with
  | nil =>
    obtain rfl : s = s' := Option.some.inj run
    exact reached
  | cons a rest ih =>
    obtain ⟨next, moved, run⟩ := Option.bind_eq_some_iff.mp run
    obtain ⟨this, later⟩ := meets next moved
    exact ih (reached.step moved this) run later

theorem meets_true (s : σ) (labels : List α) : Meets step (fun _ _ _ => True) s labels := by
  induction labels generalizing s with
  | nil => trivial
  | cons a rest ih => exact fun s' _ => ⟨trivial, ih s'⟩

end Halyard
