import Mathlib

/-!
# Things in the hands of owners

Things are numbered as they come up.  Each is given to one owner, and used when what that owner has is taken.
Whatever the owners are, no thing is then in two places.
-/

namespace Halyard

variable {ι : Type} [DecidableEq ι]

/-- Numbers below `n`, each of which has been used, or is in the hands of one owner, or neither. -/
structure Holdings (used : List ℕ) (things : ι → List ℕ) (n : ℕ) : Prop where
  nodup : ∀ owner, (used ++ things owner).Nodup
  apart : ∀ owner other thing, thing ∈ things owner → thing ∈ things other → owner = other
  old : ∀ owner, ∀ thing ∈ used ++ things owner, thing < n

variable {used used' : List ℕ} {things : ι → List ℕ} {n n' : ℕ} {owner : ι}

omit [DecidableEq ι] in
theorem Holdings.perm (holdings : Holdings used things n) (perm : used'.Perm used) (le : n ≤ n') :
    Holdings used' things n' where
  nodup owner := (perm.append_right _).nodup_iff.mpr (holdings.nodup owner)
  apart := holdings.apart
  old owner thing mem := (holdings.old owner thing ((perm.append_right _).mem_iff.mp mem)).trans_le le

/-- What an owner has is used. -/
theorem Holdings.take (holdings : Holdings used things n) (perm : used'.Perm (things owner ++ used))
    (le : n ≤ n') : Holdings used' (Function.update things owner []) n' where
  nodup o := by
    refine (perm.append_right _).nodup_iff.mpr ?_
    by_cases same : o = owner
    · rw [same, Function.update_self, List.append_nil]
      exact List.perm_append_comm.nodup_iff.mpr (holdings.nodup owner)
    · rw [Function.update_of_ne same, List.append_assoc, List.nodup_append]
      have taken := List.nodup_append.mp (holdings.nodup owner)
      refine ⟨taken.2.1, holdings.nodup o, fun thing mem other there equal => ?_⟩
      subst equal
      rcases List.mem_append.mp there with used | there
      · exact taken.2.2 thing used thing mem rfl
      · exact same (holdings.apart o owner thing there mem)
  apart o other thing mem there := by
    by_cases same : o = owner
    · rw [same, Function.update_self] at mem
      cases mem
    by_cases same' : other = owner
    · rw [same', Function.update_self] at there
      cases there
    rw [Function.update_of_ne same] at mem
    rw [Function.update_of_ne same'] at there
    exact holdings.apart o other thing mem there
  old o thing mem := by
    refine lt_of_lt_of_le ?_ le
    rcases List.mem_append.mp mem with mem | mem
    · rcases List.mem_append.mp (perm.mem_iff.mp mem) with mem | mem
      · exact holdings.old owner thing (List.mem_append_right _ mem)
      · exact holdings.old owner thing (List.mem_append_left _ mem)
    · by_cases same : o = owner
      · rw [same, Function.update_self] at mem
        cases mem
      · rw [Function.update_of_ne same] at mem
        exact holdings.old o thing (List.mem_append_right _ mem)

/-- An owner gets a new number. -/
theorem Holdings.give {more : List ℕ} (holdings : Holdings used things n) (perm : used'.Perm used)
    (given : more.Perm (n :: things owner)) :
    Holdings used' (Function.update things owner more) (n + 1) where
  nodup o := by
    refine (perm.append_right _).nodup_iff.mpr ?_
    by_cases same : o = owner
    · rw [same, Function.update_self]
      refine ((given.append_left used).trans List.perm_middle).nodup_iff.mpr (List.nodup_cons.mpr ⟨?_, ?_⟩)
      · exact fun mem => Nat.lt_irrefl n (holdings.old owner n mem)
      · exact holdings.nodup owner
    · rw [Function.update_of_ne same]
      exact holdings.nodup o
  apart o other thing mem there := by
    have whose : ∀ {o : ι}, thing ∈ Function.update things owner more o →
        thing ∈ things o ∨ thing = n ∧ o = owner := by
      intro o mem
      by_cases same : o = owner
      · rw [same, Function.update_self] at mem
        rcases List.mem_cons.mp (given.mem_iff.mp mem) with new | mem
        · exact .inr ⟨new, same⟩
        · exact .inl (same ▸ mem)
      · rw [Function.update_of_ne same] at mem
        exact .inl mem
    have fresh : ∀ {o : ι}, thing ∈ things o → thing ≠ n := fun {o} mem =>
      (holdings.old o thing (List.mem_append_right _ mem)).ne
    rcases whose mem with mem | ⟨new, same⟩ <;> rcases whose there with there | ⟨new', same'⟩
    · exact holdings.apart o other thing mem there
    · exact absurd new' (fresh mem)
    · exact absurd new (fresh there)
    · exact same.trans same'.symm
  old o thing mem := by
    rcases List.mem_append.mp mem with mem | mem
    · exact Nat.lt_succ_of_lt (holdings.old owner thing (List.mem_append_left _ (perm.mem_iff.mp mem)))
    · by_cases same : o = owner
      · rw [same, Function.update_self] at mem
        rcases List.mem_cons.mp (given.mem_iff.mp mem) with rfl | mem
        · exact Nat.lt_succ_self _
        · exact Nat.lt_succ_of_lt (holdings.old owner thing (List.mem_append_right _ mem))
      · rw [Function.update_of_ne same] at mem
        exact Nat.lt_succ_of_lt (holdings.old o thing (List.mem_append_right _ mem))

end Halyard
