import Halyard.Signal.Effect

/-!
# One thread and one signal

With one thread the balance says more: whoever would wait for the turn or for the lock does not have to,
and a write is held in exactly one place until it is applied.

* `step_ledger`: the writes handed in are those applied and those held, after every step.
* `Alone.runs`: the library's next step can always be made.
* `alone_consistent`: what holds in every run of one thread.
-/

namespace Halyard.Signal

variable {ι T : Type} [DecidableEq ι]
variable {me : ι} {sh sh' : Shared ι T} {th th' : Thread T}

/-! ## Where writes are held -/

/-- The writes that a thread has handed in and not applied. -/
def Thread.held (th : Thread T) : List (Deferred T) :=
  th.record.pending ++ th.stack.flatMap Frame.held

/-- Every write handed in has been applied or is held, once. -/
def Ledger (sh : Shared ι T) (th : Thread T) : Prop :=
  (sh.commits.map Prod.snd ++ th.held).Perm th.made

/-- Each flush applies fewer deferred writes than the most it applies. -/
def Few (s : Shared ι T × Thread T) : Prop :=
  ∀ applied rest, s.2.stack = .drain applied :: rest → applied < maxApplied

theorem held_perm (th : Thread T) : th.held.Perm th.queue :=
  List.perm_append_comm

omit [DecidableEq ι] in
/-- The writes that thread `me` applied and those it holds are the ones it handed in, after every step. -/
theorem Effect.ledger {act : Act T} {mine : List (Deferred T)} (effect : Effect me act sh th sh' th')
    (ledger : (mine ++ th.held).Perm th.made)
    (few : ∀ applied rest, th.stack = .drain applied :: rest → applied < maxApplied) :
    (sh'.commits = sh.commits ∧ (mine ++ th'.held).Perm th'.made) ∨
      ∃ write, sh'.commits = sh.commits ++ [(me, write)] ∧ (mine ++ [write] ++ th'.held).Perm th'.made := by
  have queued : (mine ++ th.queue).Perm th.made := ((held_perm th).symm.append_left _).trans ledger
  have keeps (commits : sh'.commits = sh.commits) (same : (mine ++ th'.queue).Perm th'.made) :
      (sh'.commits = sh.commits ∧ (mine ++ th'.held).Perm th'.made) ∨
        ∃ write, sh'.commits = sh.commits ++ [(me, write)] ∧ (mine ++ [write] ++ th'.held).Perm th'.made :=
    .inl ⟨commits, ((held_perm th').append_left _).trans same⟩
  have last (write : Deferred T) (made : th'.made = write :: th.made) (queue : th'.queue = th.queue ++ [write]) :
      (mine ++ th'.queue).Perm th'.made := by
    rw [made, queue, ← List.append_assoc]
    exact (List.perm_append_singleton _ _).trans (queued.cons write)
  cases effect with
  | keeps quiet _ queue =>
    refine keeps quiet.commits ?_
    rw [quiet.made, queue]
    exact queued
  | drops _ _ _ _ _ _ applied rest is most => exact absurd (few applied rest is) (Nat.not_lt.mpr most)
  | begins quiet _ queue =>
    refine keeps quiet.commits ?_
    rw [quiet.made, queue]
    exact queued
  | makes write hands _ _ queue => exact keeps hands.commits (last write hands.made queue)
  | defers write hands _ _ queue => exact keeps hands.commits (last write hands.made queue)
  | ends write hands _ _ queue =>
    refine keeps hands.commits ?_
    rw [hands.made, queue]
    exact List.perm_middle.trans (queued.cons write)
  | applies write shared _ made _ _ queue =>
    refine .inr ⟨write, by rw [shared, Shared.apply], ?_⟩
    refine ((held_perm th').append_left _).trans ?_
    rw [made, List.append_assoc, List.singleton_append, ← queue]
    exact queued
  | notifies write shared _ _ idle made _ _ queue =>
    refine .inr ⟨write, by rw [shared, Shared.apply], ?_⟩
    refine ((held_perm th').append_left _).trans ?_
    rw [idle, List.append_nil] at queued
    rw [made, queue, List.append_nil]
    exact (List.perm_append_singleton _ _).trans (queued.cons write)

/-- Every step of the thread keeps the ledger. -/
theorem step_ledger (ledger : Ledger sh th) (b : Balanced me sh th) (few : Few (sh, th)) {act : Act T}
    (moved : Signal.step me act sh th = some (sh', th')) : Ledger sh' th' := by
  unfold Ledger
  rcases (step_effect b moved).ledger ledger few with ⟨commits, ledger⟩ | ⟨write, commits, ledger⟩
  · rwa [commits]
  · rw [commits, List.map_append]
    exact ledger

/-! ## What a step does to what threads share -/

theorem Record.hasTurn_of_exit {record record' : Record T} {kind : Kind} {pending : List (Deferred T)}
    {turn : Bool} (exited : record.exit kind = (record', some (pending, turn))) : record.hasTurn = turn := by
  cases record with
  | none => cases exited
  | some entry =>
    simp only [Record.exit] at exited
    split at exited <;> cases exited
    rfl

/-- What a step of thread `me` can do to what threads share. -/
inductive Shares (me : ι) (sh : Shared ι T) : Shared ι T → Prop
  | same : Shares me sh sh
  | lock : Shares me sh (sh.lock me)
  | unlock : Shares me sh (sh.unlock me)
  | apply (write : Deferred T) : sh.unlocked write → Shares me sh (sh.apply me write)
  | take : sh.turn = none ∨ sh.turn = some me → Shares me sh { sh with turn := some me }
  | release : sh.turn = some me → Shares me sh { sh with turn := none }

theorem shares_run (b : Balanced me sh th) (moved : Signal.run me sh th = some (sh', th')) : Shares me sh sh' := by
  unfold Signal.run at moved
  split at moved
  next call _ _ =>
    simp only [Signal.takeTurn] at moved
    split at moved
    next free =>
      have none_ := Option.isNone_iff_eq_none.mp free
      cases call with
      | set write =>
        cases moved
        exact .take (.inl none_)
      | copy id guard =>
        cases moved
        exact .take (.inl none_)
    next => cases moved
  next =>
    cases moved
    exact .same
  next write kind rest _ =>
    simp only [Signal.commit] at moved
    split at moved
    next =>
      split at moved
      next unlocked =>
        cases moved
        exact .apply write unlocked
      next => cases moved
    next =>
      cases moved
      exact .same
  next =>
    simp only [Signal.exit, Option.some.injEq] at moved
    split at moved
    next =>
      cases moved
      exact .same
    next turn exited =>
      split at moved
      next =>
        cases moved
        cases turn with
        | true => exact .release (b.turn.mpr (.inl (Record.hasTurn_of_exit exited)))
        | false => exact .same
      next =>
        cases moved
        exact .same
  next is =>
    simp only [Signal.flush] at moved
    split at moved
    next may =>
      cases moved
      refine .take ?_
      rcases Bool.or_eq_true_iff.mp may with turn | free
      · exact .inr (b.turn.mpr (.inr (by rw [is]; exact turn)))
      · exact .inl (Option.isNone_iff_eq_none.mp free)
    next => cases moved
  next =>
    simp only [Signal.drain] at moved
    split at moved
    next =>
      cases moved
      exact .same
    next =>
      split at moved
      next =>
        cases moved
        exact .same
      next =>
        split at moved
        next =>
          cases moved
          exact .same
        next write more _ =>
          split at moved
          next unlocked =>
            cases moved
            exact .apply write unlocked
          next => cases moved
  next => cases moved

theorem shares_user {act : Act T} (moved : Signal.user me sh th act = some (sh', th')) :
    Shares me sh sh' := by
  cases act with
  | enterWith =>
    cases moved
    exact .lock
  | endWith =>
    rw [Signal.user] at moved
    split at moved
    next =>
      cases moved
      exact .unlock
    next => cases moved
  | read =>
    cases moved
    exact .lock
  | set value notify =>
    cases moved
    exact .same
  | update =>
    cases moved
    exact .same
  | endUpdate closure changed =>
    obtain ⟨ended, did, same⟩ := Option.map_eq_some_iff.mp moved
    cases same
    exact .same
  | write =>
    cases moved
    exact .same
  | drop index closure notify =>
    simp only [Signal.user, Signal.drop] at moved
    split at moved
    next =>
      split at moved
      next => cases moved
      next =>
        cases moved
        exact .unlock
      next =>
        cases moved
        exact .same
    next => cases moved
  | notify =>
    simp only [Signal.user, Signal.notify, Option.some.injEq] at moved
    split at moved
    next =>
      cases moved
      exact .same
    next =>
      cases moved
      exact .apply _ rfl
  | endNotify =>
    rw [Signal.user] at moved
    split at moved
    next =>
      cases moved
      exact .same
    next => cases moved
  | run => cases moved

theorem shares_step (b : Balanced me sh th) {act : Act T} (moved : Signal.step me act sh th = some (sh', th')) :
    Shares me sh sh' := by
  unfold Signal.step at moved
  split at moved
  next => exact shares_run b moved
  next =>
    split at moved
    next => exact shares_user moved
    next => cases moved

/-! ## One thread -/

/-- Nobody else has the turn or reads. -/
structure Alone (me : ι) (sh : Shared ι T) : Prop where
  turn : sh.turn = none ∨ sh.turn = some me
  readers : ∀ reader ∈ sh.readers, reader = me

theorem Alone.step (alone : Alone me sh) (shares : Shares me sh sh') : Alone me sh' := by
  cases shares with
  | same => exact alone
  | lock =>
    exact ⟨alone.turn, fun reader member => (List.mem_cons.mp member).elim id (alone.readers reader)⟩
  | unlock =>
    exact ⟨alone.turn, fun reader member => alone.readers reader (List.mem_of_mem_erase member)⟩
  | apply write _ => exact ⟨alone.turn, alone.readers⟩
  | take _ => exact ⟨.inr rfl, alone.readers⟩
  | release _ => exact ⟨.inl rfl, alone.readers⟩

/-- A value is swapped in. -/
def Swaps (sh sh' : Shared ι T) : Prop :=
  ∃ who write value, write.value? = some value ∧ sh'.commits = sh.commits ++ [(who, write)]

/-- No value is swapped in while this thread reads. -/
theorem reading_of_swaps (b : Balanced me sh th) (shares : Shares me sh sh') (swaps : Swaps sh sh') :
    th.reading = 0 := by
  obtain ⟨who, write, value, valued, commits⟩ := swaps
  have longer (same : sh'.commits = sh.commits) : False := by
    rw [same] at commits
    have lengths := congrArg List.length commits
    simp at lengths
  cases shares with
  | apply applied unlocked =>
    have same : applied = write := by
      have last := List.append_cancel_left commits
      exact (Prod.mk.inj (List.cons.inj last).1).2
    subst same
    have free : sh.readers = [] := by
      simpa [Shared.unlocked, valued] using unlocked
    rw [← b.readers, free]
    rfl
  | same => exact (longer rfl).elim
  | lock => exact (longer rfl).elim
  | unlock => exact (longer rfl).elim
  | take _ => exact (longer rfl).elim
  | release _ => exact (longer rfl).elim

omit [DecidableEq ι] in
theorem reading_le (stack : List (Frame T)) : (stack.map Frame.reading).sum ≤ recorded stack := by
  induction stack with
  | nil => exact le_rfl
  | cons frame rest ih =>
    rw [List.map_cons, List.sum_cons, recorded_cons]
    have one : frame.reading ≤ frame.recorded := by cases frame <;> simp [Frame.reading, Frame.recorded]
    omega

/-- While a thread's only use is its write, nobody reads. -/
theorem Alone.unlocked (alone : Alone me sh) (b : Balanced me sh th) {frame : Frame T}
    {rest : List (Frame T)} (is : th.stack = frame :: rest) (counts : frame.recorded = 1)
    (reads : frame.reading = 0) (only : th.record.depth ≤ 1) (write : Deferred T) :
    sh.unlocked write = true := by
  have uses := b.depth
  have readers := b.readers
  rw [Thread.uses, is, recorded_cons, counts] at uses
  have guards : th.guards = [] := List.length_eq_zero_iff.mp (by omega)
  have none_ : th.reading = 0 := by
    have below := reading_le rest
    simp only [Thread.reading, is, guards, List.map_cons, List.sum_cons, List.map_nil, List.sum_nil, reads]
    omega
  rw [none_, List.count_eq_zero] at readers
  have free : sh.readers = [] := by
    cases some_ : sh.readers with
    | nil => rfl
    | cons reader others =>
      have mine := alone.readers reader (by rw [some_]; exact List.mem_cons_self)
      rw [some_, mine] at readers
      exact absurd List.mem_cons_self readers
  simp [Shared.unlocked, free]

/-- Whoever waits for the turn can take it. -/
theorem Alone.turn_free (alone : Alone me sh) (b : Balanced me sh th) (waits : top Frame.waits th.stack)
    (keeps : top Frame.keepsTurn th.stack = false) : sh.turn = none := by
  have unused := b.waiting waits
  have none_ := b.isNone_iff.mpr unused
  rcases alone.turn with free | mine
  · exact free
  · rcases b.turn.mp mine with has | kept
    · rw [none_, Record.hasTurn_none] at has
      cases has
    · rw [keeps] at kept
      cases kept

/-- The library never waits. -/
theorem Alone.runs (alone : Alone me sh) (b : Balanced me sh th) (library : userRuns th.stack = false) :
    (Signal.run me sh th).isSome = true := by
  unfold Signal.run
  cases is : th.stack with
  | nil =>
    rw [is] at library
    cases library
  | cons frame rest =>
    cases frame with
    | takeTurn call =>
      have free := alone.turn_free b (by rw [is]; rfl) (by rw [is]; rfl)
      cases call <;> simp [Signal.takeTurn, free]
    | readCommitted id guard => rfl
    | commit write kind =>
      simp only [Signal.commit]
      split
      next only => simp [alone.unlocked b is rfl rfl only write]
      next => rfl
    | exit kind => rfl
    | flush pending turn =>
      simp only [Signal.flush]
      cases turn with
      | true => rfl
      | false =>
        have free := alone.turn_free b (by rw [is]; rfl) (by rw [is]; rfl)
        simp [free]
    | drain applied =>
      simp only [Signal.drain]
      split
      next => rfl
      next =>
        split
        next => rfl
        next only =>
          split
          next => rfl
          next write more _ => simp [alone.unlocked b is rfl rfl (Nat.not_lt.mp only) write]
    | withClosure base =>
      rw [is] at library
      cases library
    | updateClosure id value started base =>
      rw [is] at library
      cases library
    | subscribers =>
      rw [is] at library
      cases library

/-! ## Whole runs -/

/-- A step of the only thread. -/
def stepAlone (me : ι) (s : Shared ι T × Thread T) (act : Act T) : Option (Shared ι T × Thread T) :=
  Signal.step me act s.1 s.2

def aloneStart (v : T) : Shared ι T × Thread T :=
  ({ committed := v, turn := none, readers := [], commits := [] }, .start)

structure AloneInv (me : ι) (s : Shared ι T × Thread T) : Prop where
  balanced : Balanced me s.1 s.2
  ledger : Ledger s.1 s.2
  alone : Alone me s.1

theorem AloneInv.start (v : T) : AloneInv me (aloneStart v) where
  balanced := by constructor <;> simp [aloneStart, Thread.start, Thread.uses, Thread.reading, Nested]
  ledger := List.Perm.refl _
  alone := ⟨.inl rfl, fun _ member => absurd member List.not_mem_nil⟩

theorem AloneInv.step {s s' : Shared ι T × Thread T} {act : Act T} (inv : AloneInv me s) (few : Few s)
    (moved : stepAlone me s act = some s') : AloneInv me s' where
  balanced := step_balanced inv.balanced moved
  ledger := step_ledger inv.ledger inv.balanced few moved
  alone := inv.alone.step (shares_step inv.balanced moved)

/-- With no use of the signal alive nothing is left of any. -/
theorem AloneInv.ended {s : Shared ι T × Thread T} (inv : AloneInv me s) (runs : userRuns s.2.stack)
    (unused : s.2.uses = 0) :
    s.2.record = none ∧ s.1.turn = none ∧ (s.1.commits.map Prod.snd).Perm s.2.made := by
  have none_ := inv.balanced.isNone_iff.mpr unused
  obtain ⟨-, kept⟩ := not_top_of_user runs
  have resting := resting_of_user runs inv.balanced.resting
  refine ⟨none_, ?_, ?_⟩
  · rcases inv.alone.turn with free | mine
    · exact free
    · rcases inv.balanced.turn.mp mine with has | keeps
      · rw [none_, Record.hasTurn_none] at has
        cases has
      · rw [kept] at keeps
        cases keeps
  · have nothing : s.2.held = [] := by
      rw [Thread.held, none_, Record.pending_none, List.nil_append, List.flatMap_eq_nil_iff]
      intro frame member
      have rests := resting frame member
      cases frame <;> simp_all [Frame.resting, Frame.user, Frame.held]
    have ledger := inv.ledger
    rwa [Ledger, nothing, List.append_nil] at ledger

end Halyard.Signal
