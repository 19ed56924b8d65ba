import Mathlib

/-!
# Ranks of a finite acyclic relation

A relation without cycles on a finite type has a rank: the number of elements below one.  It grows
along the relation and stays below the size of the type, so it bounds every descent and every
ascent.
-/

namespace Halyard.Acyclic

variable {α : Type*} [Fintype α] {below : α → α → Prop}

open scoped Classical in
/-- The number of elements that lead to `a`. -/
noncomputable def rank (below : α → α → Prop) (a : α) : ℕ :=
  (Finset.univ.filter fun b => Relation.TransGen below b a).card

theorem rank_lt_rank (acyclic : ∀ a, ¬ Relation.TransGen below a a) {a b : α}
    (step : below a b) : rank below a < rank below b := by
  classical
  apply Finset.card_lt_card
  rw [Finset.ssubset_iff_of_subset]
  · refine ⟨a, by simpa using Relation.TransGen.single step, ?_⟩
    simpa using acyclic a
  · intro c leads
    simp only [Finset.mem_filter, Finset.mem_univ, true_and] at leads ⊢
    exact leads.tail step

theorem rank_lt_card (acyclic : ∀ a, ¬ Relation.TransGen below a a) (a : α) :
    rank below a < Fintype.card α := by
  classical
  apply Finset.card_lt_card
  rw [Finset.ssubset_univ_iff]
  intro all
  have self : a ∈ Finset.univ.filter fun b => Relation.TransGen below b a := by
    rw [all]
    exact Finset.mem_univ a
  exact acyclic a (by simpa using self)

end Halyard.Acyclic
