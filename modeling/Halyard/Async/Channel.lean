import Halyard.Reaches
import Halyard.Rendezvous

/-!
# The channel that wakes an effect's task

`channel.rs`: a flag and a waker, which the sender holds, and the receiver while it is polled.  Notifications that
come before the receiver looks are one.

* `Inv.step`: a receiver that rests has registered its waker, and a sender that has stored has yet to wake.
* `parked_heard`: a task that waits for the receiver misses no notification, and not that the sender is gone.
-/

namespace Halyard.Async

/-- `AtomicWaker` of the `futures` crate: `wake` wakes the waker that was registered last, and leaves none.
`holds` says whether there is one. -/
structure AtomicWaker where
  State : Type
  new : State
  register : State → State
  wake : State → State
  holds : State → Bool
  holds_new : holds new = false
  holds_register (w : State) : holds (register w) = true
  holds_wake (w : State) : holds (wake w) = false

/-- A waker that is there or not. -/
def AtomicWaker.flag : AtomicWaker :=
  ⟨Bool, false, fun _ => true, fun _ => false, id, rfl, fun _ => rfl, fun _ => rfl⟩

namespace Channel

/-- Where the receiver's task is, in `poll_next` or outside of it. -/
inductive Task
  /-- It runs, or is about to. -/
  | running
  | upgraded
  | registered
  | swapped (item : Bool)
  /-- It has dropped the last reference, and `Inner::drop` has yet to wake. -/
  | closing (item : Bool)
  /-- The poll has returned `Pending`, and the task has not been woken since it began. -/
  | parked
  | ended
  deriving DecidableEq

/-- The receiver holds a reference. -/
def Task.holds : Task → Bool
  | .upgraded => true
  | .registered => true
  | .swapped _ => true
  | _ => false

/-- The receiver has looked, and found nothing. -/
def Task.missed : Task → Bool
  | .swapped item => !item
  | .closing item => !item
  | .parked => true
  | _ => false

/-- `Inner` and its holders.  `stored`, `unseen` and `items` are only watched: how often the flag was set, how
often since it was last seen set, and how often it was. -/
structure State (W : AtomicWaker) where
  set : Bool
  waker : W.State
  /-- The sender is there. -/
  sender : Bool
  /-- `notify` has set the flag, and has yet to wake. -/
  notifying : Bool
  /-- The sender has dropped the last reference, and `Inner::drop` has yet to wake. -/
  dropping : Bool
  task : Task
  /-- The task has been woken since its poll began. -/
  woken : Bool
  stored : ℕ
  unseen : ℕ
  items : ℕ

inductive Act
  /-- The two steps of `notify`. -/
  | store
  | wake
  | dropSender
  /-- `Inner::drop`. -/
  | dropInner
  /-- The steps of `poll_next`, whose last one drops its reference. -/
  | upgrade
  | register
  | swap
  | release
  | close

section

variable (W : AtomicWaker)

/-- `channel()` -/
def State.new : State W := ⟨false, W.new, true, false, false, .running, false, 0, 0, 0⟩

variable {W}

def State.wakes (s : State W) : State W :=
  if W.holds s.waker then
    { s with
      waker := W.wake s.waker
      task := if s.task = .parked then .running else s.task
      woken := s.task != .parked }
  else { s with waker := W.wake s.waker }

/-- The poll returns.  A task that has been woken in the meantime is polled again. -/
def State.returns (item : Bool) (s : State W) : State W :=
  { s with task := if item || s.woken then .running else .parked }

def State.step (s : State W) : Act → Option (State W)
  | .store =>
    if s.sender && !s.notifying then
      some { s with set := true, notifying := true, stored := s.stored + 1, unseen := s.unseen + 1 }
    else none
  | .wake => if s.notifying then some { s.wakes with notifying := false } else none
  | .dropSender =>
    if s.sender && !s.notifying then some { s with sender := false, dropping := !s.task.holds } else none
  | .dropInner => if s.dropping then some { s.wakes with dropping := false } else none
  | .upgrade =>
    match s.task with
    | .running => some { s with task := if s.sender then .upgraded else .ended, woken := false }
    | _ => none
  | .register =>
    match s.task with
    | .upgraded => some { s with task := .registered, waker := W.register s.waker }
    | _ => none
  | .swap =>
    match s.task with
    | .registered =>
      some
        { s with
          task := .swapped s.set
          set := false
          unseen := if s.set then 0 else s.unseen
          items := if s.set then s.items + 1 else s.items }
    | _ => none
  | .release =>
    match s.task with
    | .swapped item => some (if s.sender then s.returns item else { s with task := .closing item })
    | _ => none
  | .close =>
    match s.task with
    | .closing item => some (s.wakes.returns item)
    | _ => none

end

/-! ## What a parked task has missed -/

variable {W : AtomicWaker} {s s' : State W}

/-- The receiver's task is the only waiter, and rests from its look at the flag on. -/
def State.rendezvous (s : State W) : Rendezvous Unit where
  set := s.set
  owed := s.notifying.toNat
  registered := {_u | W.holds s.waker = true}
  resting := {_u | s.task.missed = true ∧ s.woken = false}

structure Inv (s : State W) : Prop where
  sound : s.rendezvous.Sound
  registered : s.task = .registered → s.woken = false → W.holds s.waker = true
  parked : s.task = .parked → s.woken = false ∧ (s.sender = false → s.dropping = true)
  notifying : s.notifying = true → s.sender = true
  dropping : s.dropping = true → s.sender = false ∧ s.task.holds = false
  closing : ∀ item, s.task = .closing item → s.sender = false ∧ s.dropping = false
  ended : s.task = .ended → s.sender = false
  unseen : s.set = true ↔ 0 < s.unseen
  items : s.items + s.set.toNat ≤ s.stored

theorem Inv.new : Inv (State.new W) where
  sound := fun _ resting => absurd resting.1 Bool.false_ne_true
  registered := nofun
  parked := nofun
  notifying := nofun
  dropping := nofun
  closing := nofun
  ended := nofun
  unseen := ⟨nofun, nofun⟩
  items := le_rfl

theorem State.rendezvous_wakes {notifying dropping : Bool} :
    State.rendezvous { s.wakes with notifying, dropping } =
      ⟨s.set, notifying.toNat, ∅, s.rendezvous.resting \ s.rendezvous.registered⟩ := by
  unfold State.wakes
  split
  next holds =>
    unfold State.rendezvous
    congr 1
    · ext u
      simp [W.holds_wake]
    · ext u
      cases s.task <;> simp [holds, Task.missed]
  next none_ =>
    unfold State.rendezvous
    congr 1
    · ext u
      simp [W.holds_wake]
    · ext u
      simp [none_]

/-- A parked task is woken, and one that is not has no waker that is still registered. -/
theorem Inv.task_wakes (inv : Inv s) :
    s.wakes.task ≠ .parked ∧ (s.wakes.task = .registered → s.wakes.woken = true) ∧
      (s.wakes.task.missed = true → s.wakes.woken = true) ∧ (s.task ≠ .parked → s.wakes.task = s.task) := by
  unfold State.wakes
  split
  next holds =>
    by_cases parked : s.task = .parked
    · simp [parked, Task.missed]
    · simp [parked]
  next none_ =>
    refine ⟨fun parked => ?_, fun registered => ?_, fun missed => ?_, fun _ => rfl⟩
    · exact none_ (inv.sound () ⟨congrArg Task.missed parked, (inv.parked parked).1⟩).1
    · by_contra awake
      exact none_ (inv.registered registered (Bool.eq_false_of_not_eq_true awake))
    · by_contra awake
      exact none_ (inv.sound () ⟨missed, Bool.eq_false_of_not_eq_true awake⟩).1

theorem State.wakes_other : s.wakes.set = s.set ∧ s.wakes.sender = s.sender ∧
    s.wakes.notifying = s.notifying ∧ s.wakes.dropping = s.dropping ∧ s.wakes.unseen = s.unseen ∧
    s.wakes.stored = s.stored ∧ s.wakes.items = s.items ∧
    (s.wakes.task = s.task ∨ s.wakes.task = .running) := by
  unfold State.wakes
  split
  next =>
    refine ⟨rfl, rfl, rfl, rfl, rfl, rfl, rfl, ?_⟩
    dsimp only
    split
    next => exact .inr rfl
    next => exact .inl rfl
  next => exact ⟨rfl, rfl, rfl, rfl, rfl, rfl, rfl, .inl rfl⟩

/-- Whoever wakes the task, and is then done with it. -/
theorem Inv.wakes (inv : Inv s) {notifying dropping : Bool} (notifies : notifying = true → s.sender = true)
    (drops : dropping = true → s.dropping = true) : Inv { s.wakes with notifying, dropping } := by
  obtain ⟨set, sender, -, -, unseen, stored, items, task⟩ := s.wakes_other
  obtain ⟨awake, woken, -, -⟩ := inv.task_wakes
  exact
    { sound := by
        rw [State.rendezvous_wakes]
        exact Rendezvous.Move.wakes.sound inv.sound
      registered := fun registered asleep => absurd ((woken registered).symm.trans asleep) Bool.noConfusion
      parked := fun parked => absurd parked awake
      notifying := fun is => sender.trans (notifies is)
      dropping := fun is => by
        refine ⟨sender.trans (inv.dropping (drops is)).1, ?_⟩
        rcases task with task | task
        · exact (congrArg Task.holds task).trans (inv.dropping (drops is)).2
        · exact congrArg Task.holds task
      closing := fun item closing => by
        rcases task with task | task
        · obtain ⟨gone, idle⟩ := inv.closing item (task.symm.trans closing)
          refine ⟨sender.trans gone, Bool.eq_false_of_not_eq_true fun is => ?_⟩
          exact Bool.false_ne_true (idle.symm.trans (drops is))
        · cases task.symm.trans closing
      ended := fun ended => by
        rcases task with task | task
        · exact sender.trans (inv.ended (task.symm.trans ended))
        · cases task.symm.trans ended
      unseen := by
        change s.wakes.set = true ↔ 0 < s.wakes.unseen
        rw [set, unseen]
        exact inv.unseen
      items := by
        change s.wakes.items + s.wakes.set.toNat ≤ s.wakes.stored
        rw [set, items, stored]
        exact inv.items }

/-- The task goes on without a reference, and with nothing that it has missed. -/
theorem Inv.runs (inv : Inv s) {task : Task} {woken : Bool} (goes : task = .running ∨ task = .upgraded)
    (drops : s.dropping = true → s.sender = false ∧ task.holds = false) : Inv { s with task, woken } where
  sound := Rendezvous.Move.sound (.rises fun _ resting => by rcases goes with rfl | rfl <;> cases resting.1)
    inv.sound
  registered is := by rcases goes with rfl | rfl <;> cases is
  parked is := by rcases goes with rfl | rfl <;> cases is
  notifying := inv.notifying
  dropping := drops
  closing _ is := by rcases goes with rfl | rfl <;> cases is
  ended is := by rcases goes with rfl | rfl <;> cases is
  unseen := inv.unseen
  items := inv.items

theorem Inv.store (inv : Inv s) (moved : s.step .store = some s') : Inv s' := by
  rw [State.step] at moved
  split at moved
  next free =>
    rw [Bool.and_eq_true, Bool.not_eq_true'] at free
    obtain ⟨sender, idle⟩ := free
    cases moved
    have sound := Rendezvous.Move.sets.sound inv.sound
    simp only [State.rendezvous, idle] at sound
    exact
      { inv with
        sound := sound
        notifying := fun _ => sender
        unseen := ⟨fun _ => Nat.succ_pos _, fun _ => rfl⟩
        items := by
          have := inv.items
          dsimp only [Bool.toNat_true]
          omega }
  next => cases moved

theorem Inv.dropSender (inv : Inv s) (moved : s.step .dropSender = some s') : Inv s' := by
  rw [State.step] at moved
  split at moved
  next free =>
    rw [Bool.and_eq_true, Bool.not_eq_true'] at free
    cases moved
    exact
      { inv with
        parked := fun parked => ⟨(inv.parked parked).1, fun _ => by rw [parked]; rfl⟩
        notifying := fun is => absurd (free.2.symm.trans is) Bool.false_ne_true
        dropping := fun drops => ⟨rfl, by simpa using drops⟩
        closing := fun item closing => absurd ((inv.closing item closing).1.symm.trans free.1) Bool.false_ne_true
        ended := fun _ => rfl }
  next => cases moved

theorem Inv.upgrade (inv : Inv s) (moved : s.step .upgrade = some s') : Inv s' := by
  simp only [State.step] at moved
  split at moved
  next running =>
    cases moved
    by_cases sender : s.sender = true
    · rw [if_pos sender]
      refine inv.runs (.inr rfl) fun drops => ?_
      exact absurd ((inv.dropping drops).1.symm.trans sender) Bool.false_ne_true
    · rw [if_neg sender]
      have gone : s.sender = false := Bool.eq_false_of_not_eq_true sender
      exact
        { sound := Rendezvous.Move.sound (.rises fun _ resting => by cases resting.1) inv.sound
          registered := nofun
          parked := nofun
          notifying := inv.notifying
          dropping := fun _ => ⟨gone, rfl⟩
          closing := nofun
          ended := fun _ => gone
          unseen := inv.unseen
          items := inv.items }
  next => cases moved

theorem Inv.register (inv : Inv s) (moved : s.step .register = some s') : Inv s' := by
  simp only [State.step] at moved
  split at moved
  next upgraded =>
    cases moved
    exact
      { sound := Rendezvous.Move.sound (.registers fun _ _ => W.holds_register s.waker)
          (Rendezvous.Move.sound (.rises fun _ resting => by cases resting.1) inv.sound)
        registered := fun _ _ => W.holds_register s.waker
        parked := nofun
        notifying := inv.notifying
        dropping := fun drops => absurd ((inv.dropping drops).2.symm.trans (by rw [upgraded]; rfl)) Bool.false_ne_true
        closing := nofun
        ended := nofun
        unseen := inv.unseen
        items := inv.items }
  next => cases moved

/-- The receiver looks, and rests if the flag is not set. -/
theorem Inv.swap (inv : Inv s) (moved : s.step .swap = some s') : Inv s' := by
  simp only [State.step] at moved
  split at moved
  next registered =>
    cases moved
    have held : s.dropping = true → s.sender = false ∧ (Task.swapped s.set).holds = false := fun drops =>
      absurd ((inv.dropping drops).2.symm.trans (by rw [registered]; rfl)) Bool.false_ne_true
    cases set : s.set with
    | true =>
      exact
        { sound := Rendezvous.Move.sound .clears
            (Rendezvous.Move.sound (.rises fun _ resting => by cases resting.1) inv.sound)
          registered := nofun
          parked := nofun
          notifying := inv.notifying
          dropping := set ▸ held
          closing := nofun
          ended := nofun
          unseen := ⟨nofun, nofun⟩
          items := by
            have := inv.items
            rw [set] at this
            exact this }
    | false =>
      exact
        { sound := by
            refine Rendezvous.Move.sound .clears (Rendezvous.Move.sound (.rests set ?_) inv.sound)
            exact fun _ resting => inv.registered registered resting.2
          registered := nofun
          parked := nofun
          notifying := inv.notifying
          dropping := set ▸ held
          closing := nofun
          ended := nofun
          unseen := by
            have := inv.unseen
            rw [set] at this
            exact this
          items := by
            have := inv.items
            rw [set] at this
            exact this }
  next => cases moved

/-- A poll returns whose task holds no reference any more. -/
theorem Inv.returns (inv : Inv s) {item : Bool} (missed : s.task.missed = !item)
    (drops : s.dropping = false) (waits : item = false → s.woken = false → s.sender = true) :
    Inv (s.returns item) := by
  unfold State.returns
  split
  next goes => exact inv.runs (.inl rfl) fun is => absurd (drops.symm.trans is) Bool.false_ne_true
  next rests =>
    rw [Bool.or_eq_true, not_or, Bool.not_eq_true, Bool.not_eq_true] at rests
    rw [rests.1] at missed
    exact
      { inv with
        sound := by
          refine Rendezvous.Move.sound (.rises ?_) inv.sound
          exact fun _ resting => ⟨missed, resting.2⟩
        registered := nofun
        parked := fun _ => ⟨rests.2, fun gone => absurd (gone.symm.trans (waits rests.1 rests.2)) Bool.false_ne_true⟩
        dropping := fun is => absurd (drops.symm.trans is) Bool.false_ne_true
        closing := nofun
        ended := nofun }

theorem Inv.release (inv : Inv s) (moved : s.step .release = some s') : Inv s' := by
  simp only [State.step] at moved
  split at moved
  next item swapped =>
    cases moved
    have idle : s.dropping = false := by
      by_contra drops
      have free := (inv.dropping (Bool.eq_true_of_not_eq_false drops)).2
      rw [swapped] at free
      cases free
    split
    next sender => exact inv.returns (by rw [swapped]; rfl) idle fun _ _ => sender
    next sender =>
      exact
        { inv with
          sound := by
            refine Rendezvous.Move.sound (.rises ?_) inv.sound
            exact fun _ resting => ⟨(congrArg Task.missed swapped).trans resting.1, resting.2⟩
          registered := nofun
          parked := nofun
          dropping := fun is => absurd (idle.symm.trans is) Bool.false_ne_true
          closing := fun _ _ => ⟨Bool.eq_false_of_not_eq_true sender, idle⟩
          ended := nofun }
  next => cases moved

theorem Inv.close (inv : Inv s) (moved : s.step .close = some s') : Inv s' := by
  simp only [State.step] at moved
  split at moved
  next item closing =>
    cases moved
    obtain ⟨-, idle⟩ := inv.closing item closing
    obtain ⟨-, -, notifying, dropping, -, -, -, -⟩ := s.wakes_other
    obtain ⟨-, -, woken, same⟩ := inv.task_wakes
    have task : s.wakes.task = .closing item := (same (by rw [closing]; nofun)).trans closing
    have after : Inv s.wakes := inv.wakes (fun is => inv.notifying (notifying ▸ is)) fun is => dropping ▸ is
    have missed : s.wakes.task.missed = !item := congrArg Task.missed task
    refine after.returns missed (dropping.trans idle) fun none_ asleep => ?_
    rw [none_] at missed
    exact absurd (asleep.symm.trans (woken missed)) Bool.false_ne_true
  next => cases moved

theorem Inv.step {act : Act} (inv : Inv s) (moved : s.step act = some s') : Inv s' := by
  cases act with
  | store => exact inv.store moved
  | wake =>
    rw [State.step] at moved
    split at moved
    next =>
      cases moved
      have dropping := s.wakes_other.2.2.2.1
      exact inv.wakes nofun fun is => dropping ▸ is
    next => cases moved
  | dropSender => exact inv.dropSender moved
  | dropInner =>
    rw [State.step] at moved
    split at moved
    next =>
      cases moved
      have notifying := s.wakes_other.2.2.1
      exact inv.wakes (fun is => inv.notifying (notifying ▸ is)) nofun
    next => cases moved
  | upgrade => exact inv.upgrade moved
  | register => exact inv.register moved
  | swap => exact inv.swap moved
  | release => exact inv.release moved
  | close => exact inv.close moved

/-! ## Whole runs -/

/-- Unless a sender has yet to wake it, a parked task has been given an item for every notification, and the
sender is there.  An item takes a notification, and only a sender that is gone ends the stream. -/
structure State.Heard (s : State W) : Prop where
  notified : s.task = .parked → 0 < s.unseen → s.notifying = true
  open_ : s.task = .parked → s.sender = false → s.dropping = true
  items : s.items ≤ s.stored
  ended : s.task = .ended → s.sender = false

theorem Inv.heard (inv : Inv s) : s.Heard where
  notified parked unseen := by
    have resting : () ∈ s.rendezvous.resting := ⟨congrArg Task.missed parked, (inv.parked parked).1⟩
    have owed := (inv.sound () resting).2 (inv.unseen.mpr unseen)
    exact Bool.toNat_eq_one.mp (Nat.le_antisymm (Bool.toNat_le _) owed)
  open_ parked gone := (inv.parked parked).2 gone
  items := (Nat.le_add_right _ _).trans inv.items
  ended := inv.ended

/-- At every moment of every interleaving of the sender and the receiver. -/
theorem parked_heard (W : AtomicWaker) (acts : List Act) (s : State W)
    (run : exec State.step (State.new W) acts = some s) : s.Heard := by
  have reached : Reaches State.step (fun _ _ _ => True) (State.new W) s :=
    Reaches.start.of_exec acts run (meets_true _ _)
  exact (reached.invariant Inv.new fun _ _ _ inv moved _ => inv.step moved).heard

/-- The sender goes while the receiver is polled, which then wakes itself. -/
theorem parked_heard_dropSender : ∃ s, exec State.step (State.new .flag)
    [.upgrade, .register, .store, .wake, .swap, .release, .upgrade, .register, .dropSender, .swap, .release, .close] =
      some s ∧ s.items = 1 ∧ s.task = .running ∧ s.Heard :=
  ⟨_, rfl, rfl, rfl, parked_heard .flag
    [.upgrade, .register, .store, .wake, .swap, .release, .upgrade, .register, .dropSender, .swap, .release, .close]
    _ rfl⟩

end Channel

end Halyard.Async
