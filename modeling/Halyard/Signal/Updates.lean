import Halyard.Signal.Alone

/-!
# Threads that update one signal

An update computes its value from a copy, and its value is applied later.  No update is lost as long as nobody
else's value is applied in between: the value that it is applied over is then the one that it copied.

* `Fresh`: a thread's copies, and the writes that it holds, are still of the committed value.
* `updates_kept`: what holds in every run of any number of threads; `update_lost`: where it does not.
-/

namespace Halyard.Signal

variable {ι T : Type} [DecidableEq ι]
variable {me who : ι} {sh sh' : Shared ι T} {th th' : Thread T}

/-! ## Writes that follow one another -/

/-- The value of each write is what its closure makes of the value that it is applied over. -/
def Chained : T → List (Deferred T) → Prop
  | _, [] => True
  | v, write :: rest => write.value?.getD v = write.closure v ∧ Chained (write.closure v) rest

/-- A value after the closures of writes, one after another. -/
def closuresAfter (v : T) (writes : List (Deferred T)) : T :=
  writes.foldl (fun v write => write.closure v) v

theorem closuresAfter_append (v : T) (writes : List (Deferred T)) (write : Deferred T) :
    closuresAfter v (writes ++ [write]) = write.closure (closuresAfter v writes) := by
  rw [closuresAfter, List.foldl_append]
  rfl

theorem chained_append (v : T) (writes : List (Deferred T)) (write : Deferred T) :
    Chained v (writes ++ [write]) ↔
      Chained v writes ∧ write.value?.getD (valueAfter v writes) = write.closure (valueAfter v writes) := by
  induction writes generalizing v with
  | nil => simp [Chained, valueAfter]
  | cons first rest ih =>
    simp only [List.cons_append, Chained, ih, and_assoc]
    refine and_congr_right fun is => ?_
    have after : valueAfter v (first :: rest) = valueAfter (first.closure v) rest := by
      rw [← is]
      rfl
    rw [after]

/-! ## One thread -/

/-- A write is made, or begins, only while no update or guard of the thread is open. -/
def Apart (th : Thread T) (act : Act T) : Prop :=
  act.makes = true → th.alive = []

/-- The thread's copies, and the writes that it holds, are of the committed value. -/
structure Fresh (committed : T) (th : Thread T) : Prop where
  chained : Chained committed th.queue
  copied : ∀ x ∈ th.copies, x = valueAfter committed th.queue
  single : th.alive.length ≤ 1
  starting : ∀ id, (id, true) ∈ th.marked → th.queue = []

/-- Without an update or guard there is no copy. -/
theorem copies_nil {th : Thread T} (none : th.alive = []) : th.copies = [] := by
  rw [Thread.alive, List.append_eq_nil_iff, List.flatMap_eq_nil_iff, List.flatMap_eq_nil_iff] at none
  rw [Thread.copies, List.append_eq_nil_iff, List.flatMap_eq_nil_iff, List.flatMap_eq_nil_iff]
  refine ⟨fun frame member => ?_, fun guard member => ?_⟩
  · have quiet := none.1 frame member
    cases frame <;> simp_all [Frame.alive, Frame.copies]
  · have quiet := none.2 guard member
    cases guard <;> simp_all [Guard.alive, Guard.copies]

theorem marked_nil {th : Thread T} (none : th.alive = []) : th.marked = [] := by
  rw [List.eq_nil_iff_forall_not_mem]
  intro u member
  have alive := marked_alive member
  rw [none] at alive
  exact List.not_mem_nil alive

theorem Fresh.nothing {committed : T} {th : Thread T} (queue : th.queue = []) (copies : th.copies = [])
    (single : th.alive.length ≤ 1) : Fresh committed th where
  chained := by rw [queue]; trivial
  copied := by simp [copies]
  single := single
  starting := fun _ _ => queue

/-- With no update or guard alive, only the writes held matter. -/
theorem Fresh.of_alive {committed : T} {th : Thread T} (none : th.alive = []) (chained : Chained committed th.queue) :
    Fresh committed th where
  chained := chained
  copied := by simp [copies_nil none]
  single := by simp [none]
  starting := by simp [marked_nil none]

omit [DecidableEq ι] in
/-- A write handed in follows those before it. -/
theorem HandsIn.chained {act : Act T} {write : Deferred T} (hands : HandsIn act sh th sh' th' write)
    (fresh : Fresh sh.committed th) :
    write.value?.getD (valueAfter sh.committed th.queue) =
      write.closure (valueAfter sh.committed th.queue) := by
  rcases hands.value with ⟨x, copied, is⟩ | constant
  · rw [is, Option.getD_some, fresh.copied x copied]
  · exact constant _

omit [DecidableEq ι] in
theorem Effect.fresh {act : Act T} (effect : Effect me act sh th sh' th') (fresh : Fresh sh.committed th)
    (apart : Apart th act)
    (few : ∀ applied rest, th.stack = .drain applied :: rest → applied < maxApplied) :
    Fresh sh'.committed th' := by
  have closed {id : ℕ} (alive : th.alive.Perm (id :: th'.alive)) : th'.alive = [] := by
    have length := alive.length_eq
    have single := fresh.single
    rw [List.length_cons] at length
    exact List.length_eq_zero_iff.mp (by omega)
  cases effect with
  | keeps quiet next queue alive marked copies =>
    rw [quiet.committed]
    refine ⟨queue ▸ fresh.chained, fun x member => ?_, alive.length_eq ▸ fresh.single, fun id member => ?_⟩
    · rw [queue]
      rcases copies x member with old | ⟨is, id, starts⟩
      · exact fresh.copied x old
      · rw [is, fresh.starting id starts]
        rfl
    · rw [queue]
      exact fresh.starting id (marked member)
  | drops _ _ _ _ _ _ applied rest is most => exact absurd (few applied rest is) (Nat.not_lt.mpr most)
  | begins quiet next queue alive marked copies begun =>
    have none := apart begun
    rw [quiet.committed]
    refine ⟨queue ▸ fresh.chained, fun x member => ?_, ?_, fun id member => ?_⟩
    · rw [queue]
      rcases copies x member with old | is
      · exact fresh.copied x old
      · exact is
    · rw [alive.length_eq, none]
      exact le_rfl
    · rw [queue]
      rcases marked _ member with old | ⟨-, first⟩
      · exact fresh.starting id old
      · exact (first rfl).2
  | makes write hands _ _ queue alive made =>
    have none := apart made
    rw [hands.committed]
    refine .of_alive (alive.trans none) ?_
    rw [queue, chained_append]
    exact ⟨fresh.chained, hands.chained fresh⟩
  | defers write hands _ _ queue alive =>
    rw [hands.committed]
    refine .of_alive (closed alive) ?_
    rw [queue, chained_append]
    exact ⟨fresh.chained, hands.chained fresh⟩
  | ends write hands own _ queue alive =>
    have first := fresh.starting _ own
    have follows := hands.chained fresh
    rw [first] at follows
    rw [hands.committed]
    refine .of_alive (closed alive) ?_
    rw [queue, first]
    exact ⟨follows, trivial⟩
  | applies write shared none _ _ _ queue alive =>
    have chained := fresh.chained
    rw [queue] at chained
    rw [shared]
    refine .of_alive (alive.trans none) ?_
    rw [Shared.apply, chained.1]
    exact chained.2
  | notifies write shared _ none _ _ _ _ queue alive =>
    refine .of_alive (alive.trans none) ?_
    rw [queue]
    trivial

omit [DecidableEq ι] in
/-- Nothing is applied, or one write is: its closure is applied to the committed value. -/
theorem Effect.committed {act : Act T} (effect : Effect me act sh th sh' th') (fresh : Fresh sh.committed th) :
    (sh'.committed = sh.committed ∧ sh'.commits = sh.commits) ∨
      ∃ write, sh'.committed = write.closure sh.committed ∧ sh'.commits = sh.commits ++ [(me, write)] := by
  cases effect with
  | keeps quiet => exact .inl ⟨quiet.committed, quiet.commits⟩
  | drops quiet => exact .inl ⟨quiet.committed, quiet.commits⟩
  | begins quiet => exact .inl ⟨quiet.committed, quiet.commits⟩
  | makes write hands => exact .inl ⟨hands.committed, hands.commits⟩
  | defers write hands => exact .inl ⟨hands.committed, hands.commits⟩
  | ends write hands => exact .inl ⟨hands.committed, hands.commits⟩
  | applies write shared _ _ _ _ queue =>
    have chained := fresh.chained
    rw [queue] at chained
    refine .inr ⟨write, ?_, by rw [shared, Shared.apply]⟩
    rw [shared, ← chained.1]
    rfl
  | notifies write shared is =>
    refine .inr ⟨write, ?_, by rw [shared, Shared.apply]⟩
    rw [shared, is]
    rfl

/-! ## Other threads -/

/-- A step keeps the balance of every other thread. -/
theorem Balanced.other (b : Balanced who sh th) (shares : Shares me sh sh') (apart : who ≠ me) :
    Balanced who sh' th := by
  have turned (turn : sh'.turn = none ∨ sh'.turn = some me) (before : sh.turn = none ∨ sh.turn = some me)
      (readers : sh'.readers = sh.readers) : Balanced who sh' th := by
    have own : ¬ sh.turn = some who := by
      rcases before with is | is <;> simp [is, apart.symm]
    have after : ¬ sh'.turn = some who := by
      rcases turn with is | is <;> simp [is, apart.symm]
    refine ⟨b.depth, b.present, b.nested, b.resting, b.waiting, ?_, by rw [readers]; exact b.readers⟩
    rw [← b.turn]
    exact iff_of_false after own
  cases shares with
  | same => exact b
  | lock =>
    refine ⟨b.depth, b.present, b.nested, b.resting, b.waiting, b.turn, ?_⟩
    rw [Shared.lock, List.count_cons_of_ne apart.symm]
    exact b.readers
  | unlock =>
    refine ⟨b.depth, b.present, b.nested, b.resting, b.waiting, b.turn, ?_⟩
    rw [Shared.unlock, List.count_erase_of_ne apart]
    exact b.readers
  | apply write _ => exact ⟨b.depth, b.present, b.nested, b.resting, b.waiting, b.turn, b.readers⟩
  | take before => exact turned (.inr rfl) before rfl
  | release before => exact turned (.inl rfl) (.inr before) rfl

/-- The writes that a thread applied. -/
def Shared.appliedBy (sh : Shared ι T) (who : ι) : List (Deferred T) :=
  (sh.commits.filter fun commit => commit.1 = who).map Prod.snd

/-- What the steps of a run are to be: a thread makes or begins no write while one of its updates or guards is
open, no flush reaches the most writes that it applies, and no write is applied while another thread holds
writes or copies of the value. -/
structure Kept (s : State ι T) (label : ι × Act T) (s' : State ι T) : Prop where
  apart : Apart (s.threads label.1) label.2
  few : ∀ applied rest, (s.threads label.1).stack = .drain applied :: rest → applied < maxApplied
  others : s'.shared.commits ≠ s.shared.commits →
    ∀ other, other ≠ label.1 → (s.threads other).queue = [] ∧ (s.threads other).copies = []

structure UpdatesInv (v : T) (s : State ι T) : Prop where
  balanced : ∀ who, Balanced who s.shared (s.threads who)
  fresh : ∀ who, Fresh s.shared.committed (s.threads who)
  ledger : ∀ who, (s.shared.appliedBy who ++ (s.threads who).held).Perm (s.threads who).made
  committed : s.shared.committed = closuresAfter v (s.shared.commits.map Prod.snd)

theorem UpdatesInv.start (v : T) : UpdatesInv v (State.start (ι := ι) v) where
  balanced who := by constructor <;> simp [State.start, Thread.start, Thread.uses, Thread.reading, Nested]
  fresh who := .of_alive rfl trivial
  ledger who := List.Perm.refl _
  committed := rfl

theorem UpdatesInv.step {v : T} {s s' : State ι T} {label : ι × Act T} (inv : UpdatesInv v s)
    (moved : State.step s label = some s') (kept : Kept s label s') : UpdatesInv v s' := by
  obtain ⟨me, act⟩ := label
  obtain ⟨⟨sh', th'⟩, stepped, rfl⟩ := Option.map_eq_some_iff.mp moved
  have effect := step_effect (inv.balanced me) stepped
  have shares := shares_step (inv.balanced me) stepped
  have own : Fresh sh'.committed th' := effect.fresh (inv.fresh me) kept.apart kept.few
  have applied := effect.committed (inv.fresh me)
  have mine : Function.update s.threads me th' me = th' := Function.update_self _ _ _
  have theirs (who : ι) (other : who ≠ me) : Function.update s.threads me th' who = s.threads who :=
    Function.update_of_ne other _ _
  constructor
  · intro who
    dsimp only
    by_cases is : who = me
    · subst is
      rw [mine]
      exact step_balanced (inv.balanced who) stepped
    · rw [theirs who is]
      exact (inv.balanced who).other shares is
  · intro who
    dsimp only
    by_cases is : who = me
    · rw [is, mine]
      exact own
    · rw [theirs who is]
      rcases applied with ⟨same, -⟩ | ⟨write, -, commits⟩
      · rw [same]
        exact inv.fresh who
      · have longer : sh'.commits ≠ s.shared.commits := by simp [commits]
        obtain ⟨queue, copies⟩ := kept.others longer who is
        exact .nothing queue copies (inv.fresh who).single
  · intro who
    dsimp only
    by_cases is : who = me
    · subst is
      rw [mine]
      rcases effect.ledger (inv.ledger who) kept.few with ⟨commits, ledger⟩ | ⟨write, commits, ledger⟩
      · rw [Shared.appliedBy, commits]
        exact ledger
      · rw [Shared.appliedBy, commits, List.filter_append, List.map_append]
        simpa [Shared.appliedBy] using ledger
    · rw [theirs who is]
      rcases applied with ⟨-, commits⟩ | ⟨write, -, commits⟩
      · rw [Shared.appliedBy, commits]
        exact inv.ledger who
      · rw [Shared.appliedBy, commits, List.filter_append, List.map_append]
        simpa [Shared.appliedBy, Ne.symm is] using inv.ledger who
  · rcases applied with ⟨same, commits⟩ | ⟨write, value, commits⟩
    · dsimp only
      rw [same, commits]
      exact inv.committed
    · dsimp only
      rw [value, commits, List.map_append, List.map_singleton, closuresAfter_append, ← inv.committed]

/-- Once a thread's uses of the signal have ended, all that it handed in is applied. -/
theorem UpdatesInv.ended {v : T} {s : State ι T} (inv : UpdatesInv v s) (who : ι)
    (runs : userRuns (s.threads who).stack) (unused : (s.threads who).uses = 0) :
    (s.shared.appliedBy who).Perm (s.threads who).made := by
  have b := inv.balanced who
  have idle : (s.threads who).record.inUse = false := by
    rw [← Bool.not_eq_true, b.inUse_iff]
    omega
  have nothing : (s.threads who).held = [] := by
    rw [← List.perm_nil, ← (b.idle runs idle).1]
    exact held_perm _
  have ledger := inv.ledger who
  rwa [nothing, List.append_nil] at ledger

/-- In every run of such steps, once all uses of the signal have ended, every write that a thread handed in has
been applied, once, and the value is that of all their closures, one after another, of the first one. -/
theorem updates_kept (v : T) (s : State ι T) (run : Reaches State.step Kept (State.start v) s)
    (ended : ∀ who, userRuns (s.threads who).stack ∧ (s.threads who).uses = 0) :
    (∀ who, (s.shared.appliedBy who).Perm (s.threads who).made) ∧
      s.shared.committed = closuresAfter v (s.shared.commits.map Prod.snd) := by
  have inv : UpdatesInv v s := run.invariant (.start v) fun s label s' inv moved kept => inv.step moved kept
  exact ⟨fun who => inv.ended who (ended who).1 (ended who).2, inv.committed⟩

/-- An update inside a `with`. -/
theorem updates_kept_with : ∃ s : State Bool ℕ,
    exec State.step (State.start 0)
      [(true, .enterWith), (true, .update), (true, .endUpdate (· + 1) false), (true, .endWith), (true, .run),
        (true, .run), (true, .run), (true, .run), (true, .run)] = some s ∧
    (∀ who, (s.shared.appliedBy who).Perm (s.threads who).made) ∧ s.shared.committed = 1 := by
  have quiet {s s' : State Bool ℕ} {act : Act ℕ} (apart : Apart (s.threads true) act)
      (few : ∀ applied rest, (s.threads true).stack = .drain applied :: rest → applied < maxApplied)
      (same : s'.shared.commits = s.shared.commits) : Kept s (true, act) s' :=
    ⟨apart, few, fun longer => absurd same longer⟩
  have outside {th : Thread ℕ} {frame : Frame ℕ} {rest : List (Frame ℕ)} (is : th.stack = frame :: rest)
      (other : ∀ applied, frame ≠ .drain applied) :
      ∀ applied rest, th.stack = .drain applied :: rest → applied < maxApplied :=
    fun applied _ drains => absurd (List.cons.inj (is.symm.trans drains)).1 (other applied)
  have drains {th : Thread ℕ} {count : ℕ} {rest : List (Frame ℕ)} (is : th.stack = .drain count :: rest)
      (few : count < maxApplied) : ∀ applied rest, th.stack = .drain applied :: rest → applied < maxApplied := by
    intro applied rest' also
    have same := (List.cons.inj (is.symm.trans also)).1
    cases same
    exact few
  have none {th : Thread ℕ} {act : Act ℕ} (none : act.makes = false) : Apart th act := by
    intro makes
    rw [none] at makes
    cases makes
  have idle : Reaches State.step Kept (State.start (ι := Bool) 0) (State.start 0) := .start
  have entered := idle.step (a := (true, .enterWith)) rfl (quiet (none rfl) (fun _ _ is => by cases is) (by rfl))
  have begun := entered.step (a := (true, .update)) rfl
    (quiet (fun _ => rfl) (outside rfl fun _ is => by cases is) (by rfl))
  have deferred := begun.step (a := (true, .endUpdate (· + 1) false)) rfl
    (quiet (none rfl) (outside rfl fun _ is => by cases is) (by rfl))
  have ended := deferred.step (a := (true, .endWith)) rfl
    (quiet (none rfl) (outside rfl fun _ is => by cases is) (by rfl))
  have exited := ended.step (a := (true, .run)) rfl (quiet (none rfl) (outside rfl fun _ is => by cases is) (by rfl))
  have flushed := exited.step (a := (true, .run)) rfl
    (quiet (none rfl) (outside rfl fun _ is => by cases is) (by rfl))
  have applied := flushed.step (a := (true, .run)) rfl ⟨none rfl, drains rfl (by decide), fun _ other apart => by
    cases other
    · exact ⟨rfl, rfl⟩
    · exact absurd rfl apart⟩
  have drained := applied.step (a := (true, .run)) rfl (quiet (none rfl) (drains rfl (by decide)) (by rfl))
  have last := drained.step (a := (true, .run)) rfl
    (quiet (none rfl) (outside rfl fun _ is => by cases is) (by rfl))
  have kept := updates_kept 0 _ last fun who => by cases who <;> exact ⟨rfl, rfl⟩
  exact ⟨_, rfl, kept.1, rfl⟩

/-- Two threads: one makes an update inside a `with`, the other one with no use of the signal alive.  The first
has let go of the value's lock and not yet taken the turn for its update when the second's is applied. -/
theorem update_lost : ∃ s : State Bool ℕ,
    exec State.step (State.start 0)
      [(true, .enterWith), (true, .update), (true, .endUpdate (· + 1) true), (true, .endWith),
        (false, .update), (false, .run), (false, .run), (false, .endUpdate (· + 1) true), (false, .run),
        (false, .endNotify), (false, .run),
        (true, .run), (true, .run), (true, .run), (true, .endNotify), (true, .run), (true, .run)] = some s ∧
    (∀ who, userRuns (s.threads who).stack ∧ (s.threads who).uses = 0) ∧
    (∀ who, (s.threads who).made.map Deferred.closure = [(· + 1)]) ∧ s.shared.committed = 1 := by
  refine ⟨_, rfl, ?_, ?_, rfl⟩
  · intro who
    cases who <;> exact ⟨rfl, rfl⟩
  · intro who
    cases who <;> rfl

end Halyard.Signal
