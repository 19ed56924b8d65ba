import Halyard.Signal.Queue

/-!
# Writes inside updates and guards

A write made inside an `update`, or while a write guard is alive, is to be committed after the update's or
guard's own value, so that an update ends with the same value whether it is made inside a read or not.

* `Sole`: the value that one write leaves when there is no other.
* `nested_after`: what holds in every run of one thread; `nested_before_set`: where it does not.
-/

namespace Halyard.Signal

variable {ι T : Type} [DecidableEq ι]
variable {me : ι} {sh sh' : Shared ι T} {th th' : Thread T}

/-! ## A write on its own -/

/-- Whether a write has a value. -/
def Deferred.valued (write : Deferred T) : Bool :=
  write.value?.isSome

theorem valueAfter_filter (v : T) (writes : List (Deferred T)) :
    valueAfter v (writes.filter Deferred.valued) = valueAfter v writes := by
  induction writes generalizing v with
  | nil => rfl
  | cons write rest ih =>
    cases some_ : write.value? with
    | none => simpa [valueAfter, Deferred.valued, some_] using ih v
    | some value => simpa [valueAfter, Deferred.valued, some_] using ih value

/-- Nothing with a value is handed in: the value is still the first one, and so is every copy.  And one
write with a value, if there is no other, has the value that its closure makes of the first one. -/
structure Sole (v : T) (s : Shared ι T × Thread T) : Prop where
  value : s.1.committed = valueAfter v (s.1.commits.map Prod.snd)
  still : s.2.made.filter Deferred.valued = [] → ∀ x ∈ s.2.copies, x = v
  sole : ∀ write, s.2.made.filter Deferred.valued = [write] → write.value? = some (write.closure v)

omit [DecidableEq ι] in
theorem Sole.start (v : T) : Sole (ι := ι) v (aloneStart v) := by
  constructor <;> simp [aloneStart, Thread.start, valueAfter, Thread.copies]

theorem valueAfter_none {v : T} {writes : List (Deferred T)} (none : writes.filter Deferred.valued = []) :
    valueAfter v writes = v := by
  rw [← valueAfter_filter, none]
  rfl

omit [DecidableEq ι] in
/-- What is applied or waits was handed in. -/
theorem Ledger.none_valued (ledger : Ledger sh th) (none : th.made.filter Deferred.valued = []) :
    (sh.commits.map Prod.snd).filter Deferred.valued = [] ∧ th.queue.filter Deferred.valued = [] := by
  have all := (((held_perm th).symm.append_left _).trans ledger).filter Deferred.valued
  rw [none, List.filter_append, List.perm_nil, List.append_eq_nil_iff] at all
  exact all

omit [DecidableEq ι] in
/-- The value is that after the writes applied, whatever the step does. -/
theorem Effect.value {act : Act T} {v : T} (effect : Effect me act sh th sh' th')
    (value : sh.committed = valueAfter v (sh.commits.map Prod.snd)) :
    sh'.committed = valueAfter v (sh'.commits.map Prod.snd) := by
  have applied (write : Deferred T) (shared : sh' = sh.apply me write) :
      sh'.committed = valueAfter v (sh'.commits.map Prod.snd) := by
    rw [shared, Shared.apply, List.map_append, valueAfter_append, ← value]
    rfl
  have same (committed : sh'.committed = sh.committed) (commits : sh'.commits = sh.commits) :
      sh'.committed = valueAfter v (sh'.commits.map Prod.snd) := by
    rw [committed, commits]
    exact value
  cases effect with
  | keeps quiet => exact same quiet.committed quiet.commits
  | drops quiet => exact same quiet.committed quiet.commits
  | begins quiet => exact same quiet.committed quiet.commits
  | makes write hands => exact same hands.committed hands.commits
  | defers write hands => exact same hands.committed hands.commits
  | ends write hands => exact same hands.committed hands.commits
  | applies write shared => exact applied write shared
  | notifies write shared => exact applied write shared

omit [DecidableEq ι] in
/-- A value handed in, when every copy is of `v`. -/
theorem HandsIn.sole {act : Act T} {write : Deferred T} {v : T} (hands : HandsIn act sh th sh' th' write)
    (still : ∀ x ∈ th.copies, x = v) (valued : write.valued = true) :
    write.value? = some (write.closure v) := by
  rcases hands.value with ⟨x, copied, is⟩ | constant
  · rwa [still x copied] at is
  · obtain ⟨value, is⟩ := Option.isSome_iff_exists.mp valued
    have made := constant v
    rw [is, Option.getD_some] at made
    rw [is, made]

omit [DecidableEq ι] in
/-- A new copy is of the committed value, or of the last value deferred. -/
theorem Effect.copied {act : Act T} (effect : Effect me act sh th sh' th') {x : T} (member : x ∈ th'.copies) :
    x ∈ th.copies ∨ x = sh.committed ∨ x = valueAfter sh.committed th.queue := by
  cases effect with
  | keeps _ _ _ _ _ copies => exact (copies x member).imp_right fun is => .inl is.1
  | drops _ _ _ _ _ copies => exact .inl (copies member)
  | begins _ _ _ _ _ copies => exact (copies x member).imp_right .inr
  | makes write hands => exact .inl (hands.copies member)
  | defers write hands => exact .inl (hands.copies member)
  | ends write hands => exact .inl (hands.copies member)
  | applies _ _ _ _ _ _ _ _ _ copies => exact .inl (copies ▸ member)
  | notifies _ _ _ _ _ _ _ _ _ _ _ copies => exact .inl (copies ▸ member)

omit [DecidableEq ι] in
/-- One write is handed in, or none; when every copy is of `v`, its value is what its closure makes of that. -/
theorem Effect.made {act : Act T} (effect : Effect me act sh th sh' th') :
    th'.made = th.made ∨ ∃ write, th'.made = write :: th.made ∧
      ∀ v, (∀ x ∈ th.copies, x = v) → write.valued = true → write.value? = some (write.closure v) := by
  cases effect with
  | keeps quiet => exact .inl quiet.made
  | drops quiet => exact .inl quiet.made
  | begins quiet => exact .inl quiet.made
  | makes write hands => exact .inr ⟨write, hands.made, fun v => hands.sole⟩
  | defers write hands => exact .inr ⟨write, hands.made, fun v => hands.sole⟩
  | ends write hands => exact .inr ⟨write, hands.made, fun v => hands.sole⟩
  | applies _ _ _ made => exact .inl made
  | notifies write _ is _ _ made =>
    refine .inr ⟨write, made, fun v _ valued => ?_⟩
    rw [is] at valued
    cases valued


theorem Sole.step {v : T} {s s' : Shared ι T × Thread T} {act : Act T} (sole : Sole v s)
    (b : Balanced me s.1 s.2) (ledger : Ledger s.1 s.2) (moved : stepAlone me s act = some s') : Sole v s' := by
  have effect := step_effect b moved
  -- until a write with a value is handed in, every copy is of the first value
  have still (none : s.2.made.filter Deferred.valued = []) (x : T) (member : x ∈ s'.2.copies) : x = v := by
    obtain ⟨applied, waiting⟩ := ledger.none_valued none
    have committed : s.1.committed = v := by
      rw [sole.value]
      exact valueAfter_none applied
    rcases effect.copied member with old | is | is
    · exact sole.still none x old
    · exact is.trans committed
    · rw [is, committed]
      exact valueAfter_none waiting
  constructor
  · exact effect.value sole.value
  · intro none
    rcases effect.made with same | ⟨write, made, -⟩
    · exact still (same ▸ none)
    · refine still ?_
      rw [made, List.filter_cons] at none
      split at none
      next => cases none
      next => exact none
  · intro write only
    rcases effect.made with same | ⟨new, made, value⟩
    · exact sole.sole write (same ▸ only)
    · rw [made, List.filter_cons] at only
      split at only
      next valued =>
        obtain ⟨rfl, none⟩ := List.cons.inj only
        exact value v (sole.still none) valued
      next => exact sole.sole write only

/-- When a use of the signal has left nothing but one write, the value is what its closure makes of the first
one: whether it was made inside a read or not. -/
theorem Sole.ended {v : T} {s : Shared ι T × Thread T} (sole : Sole v s) (inv : AloneInv me s)
    (runs : userRuns s.2.stack) (unused : s.2.uses = 0) {write : Deferred T}
    (only : s.2.made.filter Deferred.valued = [write]) : s.1.committed = write.closure v := by
  obtain ⟨-, -, applied⟩ := inv.ended runs unused
  have same := applied.filter Deferred.valued
  rw [only, List.perm_singleton] at same
  rw [sole.value, ← valueAfter_filter, same, valueAfter, List.foldl_cons, List.foldl_nil, sole.sole write only]
  rfl

/-! ## Whole runs -/

/-- In every run of one thread in which no write is handed in inside an update or guard that began while the
signal was in use, a write handed in inside an update or guard is applied after that one's own value.  And an
update with no other write ends with its closure of the value before, wherever it is made. -/
theorem nested_after (me : ι) (v : T) (s : Shared ι T × Thread T)
    (run : Reaches (stepAlone me) (fun s act _ => StartedAround s.2 act) (aloneStart v) s) :
    (∀ p ∈ s.2.inside, Before p.1 p.2 s.1.applied) ∧
      (Reaches (stepAlone me) (fun s _ _ => Few s) (aloneStart v) s → userRuns s.2.stack → s.2.uses = 0 →
        ∀ write, s.2.made.filter Deferred.valued = [write] → s.1.committed = write.closure v) := by
  have inv : Balanced me s.1 s.2 ∧ Nesting s.1 s.2 := by
    apply run.invariant ⟨(AloneInv.start v).balanced, .start v⟩
    rintro s act s' ⟨b, n⟩ moved outside
    exact ⟨step_balanced b moved, step_nesting n b outside moved⟩
  refine ⟨fun p member => inv.2.applied member, fun run runs unused write only => ?_⟩
  have inv : AloneInv me s ∧ Sole v s := by
    apply run.invariant ⟨.start v, .start v⟩
    rintro s act s' ⟨inv, sole⟩ moved few
    exact ⟨inv.step few moved, sole.step inv.balanced inv.ledger moved⟩
  exact inv.2.ended inv.1 runs unused only

/-- A `set` inside an `update`. -/
theorem nested_after_set : ∃ s : Shared Unit ℕ × Thread ℕ,
    exec (stepAlone ()) (aloneStart 0)
      [.update, .run, .run, .set 5 false, .endUpdate (fun _ => 1) false, .run, .run, .run, .run, .run, .run] =
        some s ∧
    (0, 1) ∈ s.2.inside ∧ Before 0 1 s.1.applied ∧ s.1.committed = 5 := by
  have silent {th : Thread ℕ} {act : Act ℕ} (none : th.handing act = none) : StartedAround th act := by
    intro id member
    rw [none] at member
    cases member
  have idle : Reaches (stepAlone ()) (fun s act _ => StartedAround s.2 act) (aloneStart 0) (aloneStart 0) :=
    .start
  have begun := idle.step (a := .update) rfl (silent rfl)
  have turned := begun.step (a := .run) rfl (silent rfl)
  have copied := turned.step (a := .run) rfl (silent rfl)
  have set := copied.step (a := .set 5 false) rfl fun id _ u opened _ => by
    obtain rfl := List.mem_singleton.mp opened
    rfl
  have ended := set.step (a := .endUpdate (fun _ => 1) false) rfl fun id own u opened below => by
    obtain rfl := List.mem_singleton.mp opened
    rfl
  have committed := ended.step (a := .run) rfl (silent rfl)
  have exited := committed.step (a := .run) rfl (silent rfl)
  have flushed := exited.step (a := .run) rfl (silent rfl)
  have applied := flushed.step (a := .run) rfl (silent rfl)
  have drained := applied.step (a := .run) rfl (silent rfl)
  have last := drained.step (a := .run) rfl (silent rfl)
  have first := (nested_after () 0 _ last).1 (0, 1) (List.mem_singleton_self _)
  exact ⟨_, rfl, List.mem_singleton_self _, first, rfl⟩

/-- The same `update` made inside a `with`: the `set` is applied before the update's own value, and lost. -/
theorem nested_before_set : ∃ inside outside : Shared Unit ℕ × Thread ℕ,
    exec (stepAlone ()) (aloneStart 0)
      [.enterWith, .update, .set 5 false, .endUpdate (fun _ => 1) false, .endWith, .run, .run, .run, .run, .run,
        .run] = some inside ∧
    exec (stepAlone ()) (aloneStart 0)
      [.update, .run, .run, .set 5 false, .endUpdate (fun _ => 1) false, .run, .run, .run, .run, .run, .run] =
        some outside ∧
    (0, 1) ∈ inside.2.inside ∧ ¬ Before 0 1 inside.1.applied ∧
    inside.1.committed = 1 ∧ outside.1.committed = 5 := by
  refine ⟨_, _, rfl, rfl, List.mem_singleton_self _, ?_, rfl, rfl⟩
  intro before
  exact absurd (before [] [0] rfl) List.not_mem_nil

end Halyard.Signal
