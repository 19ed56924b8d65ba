import Halyard.Owner.Cleanup

/-!
# What keeps an owner

An owner lives as long as code has a handle of it, or a traversal that has upgraded its weak one is cleaning
it up, and is dropped when the last of these is gone.

* `kept_of_step`: what each call, and each turn of a cleaning up, leaves of that.
-/

namespace Halyard.Owner.Cleanup

open State

variable {s s' : State} {made : Call} {owner function : ℕ}

/-! ## Handles -/

/-- The number of cleanings up of an owner that are in progress, by what keeps it. -/
def State.cleanings (s : State) (holder : Holder) (owner : ℕ) : ℕ :=
  s.stack.countP (Activity.keeps holder owner)

theorem alive_iff : s.alive owner = true ↔ 0 < s.handles owner ∨ 0 < s.cleanings .traversal owner := by
  simp [alive, State.cleanings, List.countP_pos_iff]

theorem dead_iff : s.alive owner = false ↔ s.handles owner = 0 ∧ s.cleanings .traversal owner = 0 := by
  rw [← Bool.not_eq_true, alive_iff]
  omega

/-- Owners are dropped when nothing keeps them, and only then. -/
structure Kept (s : State) : Prop where
  borrowed : ∀ owner, 0 < s.cleanings .caller owner → 0 < s.handles owner
  buried : Buried s
  unmade : ∀ owner, s.count ≤ owner → s.alive owner = false ∧ s.cleanings .nobody owner = 0 ∧
    .dropped owner ∉ s.log
  living : ∀ owner, s.alive owner = true → s.cleanings .nobody owner = 0 ∧ .dropped owner ∉ s.log
  once : ∀ owner, s.cleanings .nobody owner ≤ 1

/-- A step after which the same owners are kept. -/
theorem Kept.of_alive (kept : Kept s) (alive : ∀ owner, s'.alive owner = s.alive owner)
    (borrowed : ∀ owner, 0 < s'.cleanings .caller owner → 0 < s'.handles owner)
    (nobody : ∀ owner, s'.cleanings .nobody owner ≤ s.cleanings .nobody owner) (count : s'.count = s.count)
    (owners : ∀ owner, s.alive owner = false → s.owners owner = OwnerInner.default →
      s'.owners owner = OwnerInner.default)
    (dropped : ∀ owner, .dropped owner ∈ s'.log →
      .dropped owner ∈ s.log ∨ 0 < s.cleanings .nobody owner) : Kept s' where
  borrowed := borrowed
  buried owner dead := by
    rw [alive] at dead
    exact owners owner dead (kept.buried owner dead)
  unmade owner unmade := by
    rw [count] at unmade
    obtain ⟨dead, none, still⟩ := kept.unmade owner unmade
    have := nobody owner
    refine ⟨(alive owner).trans dead, by omega, fun there => ?_⟩
    rcases dropped owner there with there | some_
    · exact still there
    · omega
  living owner lives := by
    rw [alive] at lives
    obtain ⟨none, still⟩ := kept.living owner lives
    have := nobody owner
    refine ⟨by omega, fun there => ?_⟩
    rcases dropped owner there with there | some_
    · exact still there
    · omega
  once owner := (nobody owner).trans (kept.once owner)

theorem cleanings_begin (s : State) (holder other : Holder) (owner o : ℕ) :
    (s.begin_ holder owner).cleanings other o =
      s.cleanings other o + if holder = other ∧ owner = o then 1 else 0 := by
  unfold State.cleanings
  rw [begin_, List.countP_cons]
  congr 1
  exact if_congr decide_eq_true_iff rfl rfl

/-- A step that leaves the handles as they are. -/
theorem Kept.of_cleanings (kept : Kept s) (handles : s'.handles = s.handles) (count : s'.count = s.count)
    (traversal : ∀ o, s'.cleanings .traversal o = s.cleanings .traversal o)
    (caller : ∀ o, s'.cleanings .caller o ≤ s.cleanings .caller o)
    (nobody : ∀ o, s'.cleanings .nobody o ≤ s.cleanings .nobody o)
    (owners : ∀ owner, s.alive owner = false → s.owners owner = OwnerInner.default →
      s'.owners owner = OwnerInner.default)
    (dropped : ∀ owner, .dropped owner ∈ s'.log →
      .dropped owner ∈ s.log ∨ 0 < s.cleanings .nobody owner) : Kept s' := by
  refine kept.of_alive (fun o => ?_) (fun o some_ => ?_) nobody count owners dropped
  · rw [Bool.eq_iff_iff, alive_iff, alive_iff, handles, traversal]
  · rw [handles]
    exact kept.borrowed o (some_.trans_le (caller o))

/-- An owner that something keeps is cleaned up. -/
theorem kept_begin {holder : Holder} (kept : Kept s) (lives : s.alive owner = true)
    (traversal : holder ≠ .nobody) (caller : holder = .caller → 0 < s.handles owner) :
    Kept (s.begin_ holder owner) := by
  refine kept.of_alive (fun o => ?_) (fun o some_ => ?_) (fun o => ?_) rfl (fun o dead none => ?_)
    fun o there => ?_
  · rw [Bool.eq_iff_iff, alive_iff, alive_iff, cleanings_begin]
    rw [alive_iff] at lives
    change 0 < s.handles o ∨ _ ↔ _
    split
    next same =>
      obtain ⟨-, rfl⟩ := same
      omega
    next => omega
  · rw [cleanings_begin] at some_
    change 0 < s.handles o
    split at some_
    next same => exact same.2 ▸ caller same.1
    next => exact kept.borrowed o some_
  · rw [cleanings_begin, if_neg fun same => traversal same.1]
    exact le_rfl
  · by_cases same : o = owner
    · rw [same]
      exact begin_self s holder owner
    · rw [begin_of_ne s holder same]
      exact none
  · rcases List.mem_cons.mp there with same | there
    · cases same
    · exact .inl there

/-- Something that kept an owner is gone. -/
theorem kept_release {t : State} (kept : Kept s) (lives : s.alive owner = true)
    (alive : ∀ o, o ≠ owner → t.alive o = s.alive o)
    (borrowed : ∀ o, 0 < t.cleanings .caller o → 0 < t.handles o)
    (nobody : ∀ o, t.cleanings .nobody o = s.cleanings .nobody o) (count : t.count = s.count)
    (owners : t.owners = s.owners) (log : t.log = s.log) : Kept (t.release owner) := by
  unfold release
  split
  next still =>
    refine kept.of_alive (fun o => ?_) borrowed (fun o => (nobody o).le) count
      (fun o _ none => owners ▸ none) fun o there => .inl (log ▸ there)
    by_cases same : o = owner
    · rw [same, lives, still]
    · exact alive o same
  next gone =>
    rw [Bool.not_eq_true] at gone
    have after : ∀ o, (t.begin_ .nobody owner).alive o = t.alive o := by
      intro o
      rw [Bool.eq_iff_iff, alive_iff, alive_iff, cleanings_begin, if_neg fun same => (by cases same.1)]
      rfl
    have none := (kept.living owner lives).1
    have told : ∀ o, .dropped o ∈ (t.begin_ .nobody owner).log ↔ .dropped o ∈ s.log := by
      intro o
      rw [begin_, log]
      simp
    refine ⟨fun o some_ => ?_, fun o dead => ?_, fun o unmade => ?_, fun o living => ?_, fun o => ?_⟩
    · rw [cleanings_begin, if_neg fun same => (by cases same.1)] at some_
      exact borrowed o some_
    · by_cases same : o = owner
      · rw [same]
        exact begin_self t .nobody owner
      · rw [after, alive o same] at dead
        rw [begin_of_ne t .nobody same, owners]
        exact kept.buried o dead
    · have unmade : s.count ≤ o := count ▸ unmade
      obtain ⟨dead, noone, still⟩ := kept.unmade o unmade
      have other : o ≠ owner := by
        rintro rfl
        rw [lives] at dead
        cases dead
      rw [after, alive o other, cleanings_begin, if_neg fun same => other same.2.symm, nobody, told]
      exact ⟨dead, noone, still⟩
    · rw [after] at living
      have other : o ≠ owner := by
        rintro rfl
        rw [gone] at living
        cases living
      rw [cleanings_begin, if_neg fun same => other same.2.symm, nobody, told]
      exact kept.living o (alive o other ▸ living)
    · rw [cleanings_begin, nobody]
      have once := kept.once o
      split
      next same =>
        obtain ⟨-, rfl⟩ := same
        omega
      next => omega

theorem kept_create {parent : Option ℕ} (kept : Kept s)
    (lives : ∀ owner, parent = some owner → s.alive owner = true) : Kept (s.create parent) := by
  have made : Kept { s with count := s.count + 1, handles := Function.update s.handles s.count 1 } := by
    have old : ∀ o, o ≠ s.count →
        State.alive { s with count := s.count + 1, handles := Function.update s.handles s.count 1 } o =
          s.alive o := by
      intro o other
      simp only [State.alive, Function.update_of_ne other]
    refine ⟨fun o some_ => ?_, fun o dead => ?_, fun o unmade => ?_, fun o living => ?_, kept.once⟩
    · dsimp only
      by_cases same : o = s.count
      · rw [same, Function.update_self]
        exact Nat.one_pos
      · rw [Function.update_of_ne same]
        exact kept.borrowed o some_
    · by_cases same : o = s.count
      · exact kept.buried o (kept.unmade o same.ge).1
      · exact kept.buried o (old o same ▸ dead)
    · have unmade : s.count + 1 ≤ o := unmade
      rw [old o (by omega)]
      exact kept.unmade o (by omega)
    · by_cases same : o = s.count
      · exact (kept.unmade o same.ge).2
      · exact kept.living o (old o same ▸ living)
  cases parent with
  | none => exact made
  | some owner =>
    refine made.of_alive (fun o => rfl) made.borrowed (fun o => le_rfl) rfl (fun o dead none => ?_)
      fun o there => ?_
    · have other : o ≠ owner := by
        rintro rfl
        have still := lives o rfl
        rw [alive_iff] at still
        rw [dead_iff] at dead
        have handles : Function.update s.handles s.count 1 o = 0 := dead.1
        by_cases same : o = s.count
        · rw [same, Function.update_self] at handles
          cases handles
        · rw [Function.update_of_ne same] at handles
          have held : s.cleanings .traversal o = 0 := dead.2
          omega
      exact (Function.update_of_ne other _ _).trans none
    · rcases List.mem_cons.mp there with same | there
      · cases same
      · exact .inl there

theorem alive_of_current (current : s.currentOwner = some owner) : s.alive owner = true :=
  (Option.filter_eq_some_iff.mp current).2

theorem ne_of_dead {other : ℕ} (lives : s.alive owner = true) (dead : s.alive other = false) :
    other ≠ owner := by
  rintro rfl
  rw [lives] at dead
  cases dead

/-- An owner that lives is given something. -/
theorem kept_given {inner : OwnerInner} {event : Event} (kept : Kept s) (lives : s.alive owner = true)
    (other : ∀ o, event ≠ .dropped o) : Kept { s with
      owners := Function.update s.owners owner inner
      log := event :: s.log } := by
  refine kept.of_cleanings rfl rfl (fun _ => rfl) (fun _ => le_rfl) (fun _ => le_rfl)
    (fun o dead none => ?_) fun o there => ?_
  · exact (Function.update_of_ne (ne_of_dead lives dead) _ _).trans none
  · rcases List.mem_cons.mp there with same | there
    · exact absurd same.symm (other o)
    · exact .inl there

theorem kept_onCleanup (kept : Kept s) : Kept s.onCleanup := by
  unfold onCleanup
  split
  next owner current => exact kept_given kept (alive_of_current current) fun _ same => by cases same
  next => exact kept

theorem kept_register (kept : Kept s) : Kept s.register := by
  unfold register
  split
  next owner current => exact kept_given kept (alive_of_current current) fun _ same => by cases same
  next => exact kept

theorem kept_call {running : Option ℕ} {rest : List Activity} (kept : Kept s)
    (stack : s.stack = .code running :: rest) (called : call s running rest made = some s') : Kept s' := by
  have handled : ∀ {o : ℕ}, 0 < s.handles o → s.alive o = true := fun some_ => alive_iff.mpr (.inl some_)
  cases made with
  | clone owner =>
    rw [call] at called
    split at called
    next lives =>
      cases called
      rw [alive_iff] at lives
      refine kept.of_alive (fun o => ?_) (fun o some_ => ?_) (fun _ => le_rfl) rfl (fun _ _ none => none)
        fun _ there => .inl there
      · rw [Bool.eq_iff_iff, alive_iff, alive_iff]
        dsimp only
        by_cases same : o = owner
        · rw [same, Function.update_self]
          exact iff_of_true (.inl (Nat.succ_pos _)) lives
        · rw [Function.update_of_ne same]
          exact Iff.rfl
      · dsimp only
        by_cases same : o = owner
        · rw [same, Function.update_self]
          exact Nat.succ_pos _
        · rw [Function.update_of_ne same]
          exact kept.borrowed o some_
    next => cases called
  | drop owner =>
    rw [call] at called
    by_cases more : (if s.stack.any (Activity.keeps .caller owner) then 1 else 0) < s.handles owner
    · rw [if_pos more] at called
      cases called
      refine kept_release kept (handled (Nat.zero_lt_of_lt more)) (fun o other => ?_) (fun o some_ => ?_)
        (fun _ => rfl) rfl rfl rfl
      · simp only [State.alive, Function.update_of_ne other]
      · dsimp only
        by_cases same : o = owner
        · subst same
          rw [if_pos (List.any_eq_true.mpr (List.countP_pos_iff.mp some_))] at more
          rw [Function.update_self]
          exact Nat.sub_pos_of_lt more
        · rw [Function.update_of_ne same]
          exact kept.borrowed o some_
    · rw [if_neg more] at called
      cases called
  | new =>
    cases called
    exact kept_create kept fun owner current => alive_of_current current
  | child owner =>
    rw [call] at called
    split at called
    next some_ =>
      cases called
      exact kept_create kept fun o same => Option.some.inj same ▸ handled some_
    next => cases called
  | current owner =>
    cases called
    exact kept.of_cleanings rfl rfl (fun _ => rfl) (fun _ => le_rfl) (fun _ => le_rfl) (fun _ _ none => none)
      fun _ there => .inl there
  | onCleanup =>
    cases called
    exact kept_onCleanup kept
  | register =>
    cases called
    exact kept_register kept
  | cleanup owner =>
    rw [call] at called
    split at called
    next some_ =>
      cases called
      exact kept_begin kept (handled some_) (fun same => by cases same) fun _ => some_
    next => cases called
  | return_ =>
    cases called
    have popped : ∀ holder o, State.cleanings { s with
        stack := rest, log := (running.map Event.returned).toList ++ s.log } holder o =
          s.cleanings holder o := by
      intro holder o
      unfold State.cleanings
      rw [stack, List.countP_cons_of_neg (show ¬Activity.keeps holder o (.code running) = true from
        Bool.false_ne_true)]
    refine kept.of_cleanings rfl rfl (popped _) (fun o => (popped _ o).le) (fun o => (popped _ o).le)
      (fun _ _ none => none) fun o there => .inl ?_
    cases running with
    | none => exact there
    | some f =>
      rcases List.mem_cons.mp there with same | there
      · cases same
      · exact there

theorem cleanings_cons {a : Activity} {rest : List Activity} (stack : s.stack = a :: rest) (holder : Holder)
    (o : ℕ) : s.cleanings holder o =
      rest.countP (Activity.keeps holder o) + if a.keeps holder o then 1 else 0 := by
  unfold State.cleanings
  rw [stack, List.countP_cons]

/-- A cleaning up calls code. -/
theorem kept_hand_over {c left : Cleaning} {running : Option ℕ} {event : Event} {rest : List Activity}
    (kept : Kept s) (stack : s.stack = .cleaning c :: rest) (holder : left.holder = c.holder)
    (whose : left.owner = c.owner) (other : ∀ o, event ≠ .dropped o) : Kept { s with
      stack := .code running :: .cleaning left :: rest
      log := event :: s.log } := by
  have same : ∀ h o, State.cleanings { s with
      stack := .code running :: .cleaning left :: rest
      log := event :: s.log } h o = s.cleanings h o := fun h o => by
    rw [cleanings_cons stack, Activity.keeps, ← holder, ← whose]
    exact List.countP_cons.trans (congrArg (· + _) List.countP_cons)
  refine kept.of_cleanings rfl rfl (same _) (fun o => (same _ o).le) (fun o => (same _ o).le)
    (fun _ _ none => none) fun o there => .inl ?_
  rcases List.mem_cons.mp there with same | there
  · exact absurd same.symm (other o)
  · exact there

theorem kept_resume {c : Cleaning} {rest : List Activity} (kept : Kept s)
    (stack : s.stack = .cleaning c :: rest) : Kept (s.resume c rest) := by
  obtain ⟨holder, owner, children, cleanups, nodes⟩ := c
  have counted := cleanings_cons stack
  match children, cleanups, nodes with
  | child :: children, cleanups, nodes =>
    let left : Cleaning := ⟨holder, owner, children, cleanups, nodes⟩
    let t : State := { s with stack := .cleaning left :: rest }
    have same : ∀ h o, t.cleanings h o = s.cleanings h o := fun h o => by
      rw [counted]
      exact @cleanings_cons t (.cleaning left) rest rfl h o
    have keeps : Kept t := kept.of_cleanings rfl rfl (same _) (fun o => (same _ o).le)
      (fun o => (same _ o).le) (fun _ _ none => none) fun _ there => .inl there
    change Kept (if t.alive child then t.begin_ .traversal child else t)
    split
    next lives => exact kept_begin keeps lives (fun same => by cases same) fun same => by cases same
    next => exact keeps
  | [], cleanup :: cleanups, nodes =>
    exact @kept_hand_over s _ ⟨holder, owner, [], cleanups, nodes⟩ (some cleanup) _ rest kept stack rfl rfl
      fun _ same => by cases same
  | [], [], node :: nodes =>
    exact @kept_hand_over s _ ⟨holder, owner, [], [], []⟩ none _ rest kept stack rfl rfl
      fun _ same => by cases same
  | [], [], [] =>
    have fewer : ∀ h o, rest.countP (Activity.keeps h o) ≤ s.cleanings h o := fun h o => by
      rw [counted]
      exact Nat.le_add_right _ _
    cases holder with
    | caller =>
      refine kept.of_cleanings rfl rfl (fun o => ?_) (fewer _) (fewer _) (fun _ _ none => none)
        fun _ there => .inl there
      rw [counted]
      rfl
    | nobody =>
      refine kept.of_cleanings rfl rfl (fun o => ?_) (fewer _) (fewer _) (fun _ _ none => none)
        fun o there => ?_
      · rw [counted]
        rfl
      · rcases List.mem_cons.mp there with same | there
        · cases same
          right
          have own : Activity.keeps .nobody owner (.cleaning ⟨.nobody, owner, [], [], []⟩) = true :=
            decide_eq_true ⟨rfl, rfl⟩
          rw [counted, if_pos own]
          exact Nat.succ_pos _
        · exact .inl there
    | traversal =>
      refine kept_release kept (alive_iff.mpr (.inr ?_)) (fun o other => ?_)
        (fun o some_ => kept.borrowed o (some_.trans_le (fewer _ o))) (fun o => ?_) rfl rfl rfl
      · have own : Activity.keeps .traversal owner (.cleaning ⟨.traversal, owner, [], [], []⟩) = true :=
          decide_eq_true ⟨rfl, rfl⟩
        rw [counted, if_pos own]
        exact Nat.succ_pos _
      · rw [Bool.eq_iff_iff, alive_iff, alive_iff, counted,
          if_neg fun same => other (of_decide_eq_true same).2.symm]
        exact Iff.rfl
      · rw [counted]
        rfl

/-- A step drops an owner when nothing keeps it any more, and only then. -/
theorem kept_of_step (kept : Kept s) (stepped : step s made = some s') : Kept s' := by
  unfold step at stepped
  match stack : s.stack with
  | [] =>
    rw [stack] at stepped
    cases stepped
  | .code running :: rest =>
    rw [stack] at stepped
    exact kept_call kept stack stepped
  | .cleaning c :: rest =>
    rw [stack] at stepped
    cases stepped
    exact kept_resume kept stack

theorem kept_of_reached (reached : Reached s) : Kept s := by
  induction reached with
  | start =>
    refine ⟨fun o some_ => ?_, fun o _ => rfl, fun o _ => ⟨rfl, rfl, List.not_mem_nil⟩,
      fun o lives => ⟨rfl, List.not_mem_nil⟩, fun o => Nat.zero_le _⟩
    exact absurd some_ (Nat.lt_irrefl _)
  | step _ stepped ih => exact kept_of_step ih stepped

end Halyard.Owner.Cleanup
