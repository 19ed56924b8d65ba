import Halyard.Signal.Balance

/-!
# What a step does to the writes

Writes are applied in the order of one queue: what the top frame holds, then the writes deferred.

* `Effect`: all that a step can do to the queue, to the updates and guards that are alive and to their copies.
* `step_effect`: it does no more.
-/

namespace Halyard.Signal

variable {ι T : Type} [DecidableEq ι]
variable {me : ι} {sh sh' : Shared ι T} {th th' : Thread T}

/-! ## Where writes and copies are -/

def Call.held : Call T → List (Deferred T)
  | .set write => [write]
  | .copy _ _ => []

def Frame.held : Frame T → List (Deferred T)
  | .takeTurn call => call.held
  | .commit write _ => [write]
  | .flush pending _ => pending
  | _ => []

/-- The writes to be applied, the next one first. -/
def Thread.queue (th : Thread T) : List (Deferred T) :=
  th.stack.flatMap Frame.held ++ th.record.pending

/-- The updates that have begun, by their numbers. -/
def Frame.alive : Frame T → List ℕ
  | .updateClosure id _ _ _ | .takeTurn (.copy id _) | .readCommitted id _ => [id]
  | _ => []

def Guard.alive : Guard T → List ℕ
  | .read => []
  | .write id _ _ => [id]

/-- The updates and write guards that have begun and not ended. -/
def Thread.alive (th : Thread T) : List ℕ :=
  th.stack.flatMap Frame.alive ++ th.guards.flatMap Guard.alive

/-- These and whether they are started; one that waits for its copy is. -/
def Frame.marked : Frame T → List (ℕ × Bool)
  | .updateClosure id _ started _ => [(id, started)]
  | .takeTurn (.copy id _) | .readCommitted id _ => [(id, true)]
  | _ => []

def Thread.marked (th : Thread T) : List (ℕ × Bool) :=
  th.stack.flatMap Frame.marked ++ th.guards.flatMap Guard.opened

def Frame.copies : Frame T → List T
  | .updateClosure _ value _ _ => [value]
  | _ => []

def Guard.copies : Guard T → List T
  | .read => []
  | .write _ value _ => [value]

/-- The copies that closures and guards work on. -/
def Thread.copies (th : Thread T) : List T :=
  th.stack.flatMap Frame.copies ++ th.guards.flatMap Guard.copies

/-- A value after writes. -/
def valueAfter (v : T) (writes : List (Deferred T)) : T :=
  writes.foldl (fun v write => write.value?.getD v) v

/-- The write that user code hands in by what it does, with a value. -/
def Thread.handing (th : Thread T) : Act T → Option ℕ
  | .set _ _ => some th.next
  | .endUpdate _ _ =>
      match th.stack with
      | .updateClosure id _ _ _ :: _ => some id
      | _ => none
  | .drop index _ _ =>
      match th.guards[index]? with
      | some (.write id _ _) => some id
      | _ => none
  | _ => none

/-- Whether user code makes a write by what it does, or begins one. -/
def Act.makes : Act T → Bool
  | .set _ _ | .update | .write | .notify => true
  | _ => false

/-! ## Effects -/

/-- Nothing is handed in or applied. -/
structure Quiet (sh : Shared ι T) (th : Thread T) (sh' : Shared ι T) (th' : Thread T) : Prop where
  commits : sh'.commits = sh.commits
  committed : sh'.committed = sh.committed
  made : th'.made = th.made
  inside : th'.inside = th.inside

/-- A write is handed in.  Its value is what its closure makes of a copy, or of anything. -/
structure HandsIn (act : Act T) (sh : Shared ι T) (th : Thread T) (sh' : Shared ι T) (th' : Thread T)
    (write : Deferred T) : Prop where
  commits : sh'.commits = sh.commits
  committed : sh'.committed = sh.committed
  made : th'.made = write :: th.made
  marked : th'.marked ⊆ th.marked
  copies : th'.copies ⊆ th.copies
  value : (∃ x ∈ th.copies, write.value? = some (write.closure x)) ∨
    ∀ y, write.value?.getD y = write.closure y
  inside : ∃ around : List (ℕ × Bool),
    (∀ u ∈ around, u ∈ th'.opened ∧ u ∈ th.opened ∧ u.1 < write.id ∧ write.id ∈ th.handing act) ∧
      th'.inside = around.map (fun u => (u.1, write.id)) ++ th.inside

/-- What a step can do. -/
inductive Effect (me : ι) (act : Act T) (sh : Shared ι T) (th : Thread T) (sh' : Shared ι T)
    (th' : Thread T) : Prop
  /-- One that was started may get its copy. -/
  | keeps (quiet : Quiet sh th sh' th') (next : th'.next = th.next) (queue : th'.queue = th.queue)
      (alive : th'.alive.Perm th.alive) (marked : th'.marked ⊆ th.marked)
      (copies : ∀ x ∈ th'.copies, x ∈ th.copies ∨ (x = sh.committed ∧ ∃ id, (id, true) ∈ th.marked))
  /-- The flush has applied as many writes as it applies. -/
  | drops (quiet : Quiet sh th sh' th') (next : th'.next = th.next) (queue : th'.queue <+: th.queue)
      (alive : th'.alive.Perm th.alive) (marked : th'.marked ⊆ th.marked) (copies : th'.copies ⊆ th.copies)
      (applied : ℕ) (rest : List (Frame T)) (is : th.stack = .drain applied :: rest)
      (most : maxApplied ≤ applied)
  /-- An update or guard begins. -/
  | begins (quiet : Quiet sh th sh' th') (next : th'.next = th.next + 1) (queue : th'.queue = th.queue)
      (alive : th'.alive.Perm (th.next :: th.alive))
      (marked : ∀ u ∈ th'.marked,
        u ∈ th.marked ∨ (u.1 = th.next ∧ (u.2 = true → th.alive = [] ∧ th.queue = [])))
      (copies : ∀ x ∈ th'.copies, x ∈ th.copies ∨ x = valueAfter sh.committed th.queue)
      (begun : act.makes = true)
  /-- A `set` or `notify` is made. -/
  | makes (write : Deferred T) (hands : HandsIn act sh th sh' th' write) (id : write.id = th.next)
      (next : th'.next = th.next + 1) (queue : th'.queue = th.queue ++ [write]) (alive : th'.alive = th.alive)
      (made : act.makes = true)
  /-- An update or guard ends that was to be deferred. -/
  | defers (write : Deferred T) (hands : HandsIn act sh th sh' th' write)
      (own : (write.id, false) ∈ th.marked) (next : th'.next = th.next) (queue : th'.queue = th.queue ++ [write])
      (alive : th.alive.Perm (write.id :: th'.alive))
  /-- An update or guard ends that was started. -/
  | ends (write : Deferred T) (hands : HandsIn act sh th sh' th' write)
      (own : (write.id, true) ∈ th.marked) (next : th'.next = th.next) (queue : th'.queue = write :: th.queue)
      (alive : th.alive.Perm (write.id :: th'.alive))
  /-- The next write of the queue is applied, while no update or guard is alive. -/
  | applies (write : Deferred T) (shared : sh' = sh.apply me write) (none : th.alive = [])
      (made : th'.made = th.made) (inside : th'.inside = th.inside) (next : th'.next = th.next)
      (queue : th.queue = write :: th'.queue) (alive : th'.alive = th.alive) (marked : th'.marked = th.marked)
      (copies : th'.copies = th.copies)
  /-- A `notify` is applied at once. -/
  | notifies (write : Deferred T) (shared : sh' = sh.apply me write) (is : write = .notify th.next)
      (none : th.alive = []) (idle : th.queue = []) (made : th'.made = write :: th.made)
      (inside : th'.inside = th.inside) (next : th'.next = th.next + 1) (queue : th'.queue = [])
      (alive : th'.alive = th.alive) (marked : th'.marked = th.marked) (copies : th'.copies = th.copies)

/-! ## Stacks and queues -/

section Notifying

variable (write : Deferred T) (rest : List (Frame T))

@[simp] theorem held_notifying :
    (notifying write rest).flatMap Frame.held = rest.flatMap Frame.held := by
  unfold notifying
  split <;> simp [Frame.held]

@[simp] theorem alive_notifying :
    (notifying write rest).flatMap Frame.alive = rest.flatMap Frame.alive := by
  unfold notifying
  split <;> simp [Frame.alive]

@[simp] theorem marked_notifying :
    (notifying write rest).flatMap Frame.marked = rest.flatMap Frame.marked := by
  unfold notifying
  split <;> simp [Frame.marked]

@[simp] theorem copies_notifying :
    (notifying write rest).flatMap Frame.copies = rest.flatMap Frame.copies := by
  unfold notifying
  split <;> simp [Frame.copies]

end Notifying

theorem valueAfter_append (v : T) (first second : List (Deferred T)) :
    valueAfter v (first ++ second) = valueAfter (valueAfter v first) second :=
  List.foldl_append

theorem marked_alive {th : Thread T} {u : ℕ × Bool} (member : u ∈ th.marked) : u.1 ∈ th.alive := by
  simp only [Thread.marked, Thread.alive, List.mem_append, List.mem_flatMap] at member ⊢
  rcases member with ⟨frame, at_, is⟩ | ⟨guard, at_, is⟩
  · refine .inl ⟨frame, at_, ?_⟩
    unfold Frame.marked at is
    split at is <;> simp_all [Frame.alive]
  · refine .inr ⟨guard, at_, ?_⟩
    cases guard <;> simp_all [Guard.opened, Guard.alive]

theorem marked_of_opened {th : Thread T} {u : ℕ × Bool} (member : u ∈ th.opened) : u ∈ th.marked := by
  simp only [Thread.opened, Thread.marked, List.mem_append, List.mem_flatMap] at member ⊢
  refine member.imp_left fun ⟨frame, at_, is⟩ => ⟨frame, at_, ?_⟩
  cases frame <;> simp_all [Frame.opened, Frame.marked]

/-- One that is not started runs its closure, or is a guard. -/
theorem opened_of_marked {th : Thread T} {id : ℕ} (member : (id, false) ∈ th.marked) :
    (id, false) ∈ th.opened := by
  simp only [Thread.opened, Thread.marked, List.mem_append, List.mem_flatMap] at member ⊢
  refine member.imp_left fun ⟨frame, at_, is⟩ => ⟨frame, at_, ?_⟩
  unfold Frame.marked at is
  split at is <;> simp_all [Frame.opened]

/-- Only the top frame holds writes. -/
theorem held_resting {stack : List (Frame T)} (resting : ∀ frame ∈ stack, frame.resting) :
    stack.flatMap Frame.held = [] := by
  rw [List.flatMap_eq_nil_iff]
  intro frame member
  have rests := resting frame member
  cases frame <;> simp_all [Frame.resting, Frame.user, Frame.held]

/-- Without a use of the signal there is no update or guard. -/
theorem alive_unused {stack : List (Frame T)} (nested : Nested stack 0)
    (resting : ∀ frame ∈ stack, frame.resting) (unused : recorded stack = 0) :
    stack.flatMap Frame.alive = [] := by
  induction stack with
  | nil => rfl
  | cons frame rest ih =>
    rw [recorded_cons] at unused
    have below (frame : Frame T) (member : frame ∈ rest) : frame.resting :=
      resting frame (List.mem_cons_of_mem _ member)
    have top := resting frame List.mem_cons_self
    cases frame with
    | subscribers =>
      rw [List.flatMap_cons, ih nested below (by omega)]
      rfl
    | updateClosure id value started base =>
      obtain ⟨le, outer, -⟩ := nested
      cases started with
      | true => simp [Frame.recorded] at unused
      | false =>
        have outside := outer rfl
        omega
    | withClosure base => simp [Frame.recorded] at unused
    | exit kind => simp [Frame.recorded] at unused
    | drain applied => simp [Frame.recorded] at unused
    | takeTurn call => simp [Frame.resting, Frame.user] at top
    | readCommitted id guard => simp [Frame.resting, Frame.user] at top
    | commit write kind => simp [Frame.resting, Frame.user] at top
    | flush pending turn => simp [Frame.resting, Frame.user] at top

/-- User code runs, and the signal is not in use. -/
theorem Balanced.idle (b : Balanced me sh th) (runs : userRuns th.stack) (idle : th.record.inUse = false) :
    th.queue = [] ∧ th.alive = [] := by
  have unused : th.uses = 0 := by
    by_contra used
    rw [← Bool.not_eq_true, b.inUse_iff] at idle
    omega
  have resting := resting_of_user runs b.resting
  have none_ := b.isNone_iff.mpr unused
  have nested := b.nested
  rw [Thread.uses, Nat.add_eq_zero_iff, List.length_eq_zero_iff] at unused
  rw [unused.2] at nested
  constructor
  · rw [Thread.queue, held_resting resting, none_]
    rfl
  · rw [Thread.alive, alive_unused nested resting unused.1, unused.2]
    rfl

/-- While a thread's only use is its write, no update or guard is alive. -/
theorem Balanced.alone (b : Balanced me sh th) {frame : Frame T} {rest : List (Frame T)}
    (is : th.stack = frame :: rest) (counts : frame.recorded = 1) (none : frame.alive = [])
    (nested : Nested (frame :: rest) th.guards.length = Nested rest th.guards.length)
    (only : th.record.depth ≤ 1) : th.alive = [] := by
  have depth := b.depth
  rw [Thread.uses, is, recorded_cons, counts] at depth
  have guards : th.guards = [] := List.length_eq_zero_iff.mp (by omega)
  have below := b.nested
  rw [is, nested, guards] at below
  have resting := b.resting
  rw [is, List.tail_cons] at resting
  rw [Thread.alive, is, List.flatMap_cons, none, guards, alive_unused below resting (by omega)]
  rfl

/-- A write deferred comes last. -/
theorem queue_defer (th : Thread T) (write : Deferred T) (used : 0 < th.record.depth) :
    Thread.queue { th with record := th.record.defer write false } = th.queue ++ [write] := by
  simp only [Thread.queue, Record.pending_defer th.record write false used, Bool.false_eq_true, if_false,
    List.append_assoc]

/-- A write held by a new frame is alone in the queue. -/
theorem queue_push (th : Thread T) {frame : Frame T} {write : Deferred T} (holds : frame.held = [write])
    (none : th.queue = []) : Thread.queue { th with stack := frame :: th.stack } = th.queue ++ [write] := by
  have same : Thread.queue { th with stack := frame :: th.stack } = frame.held ++ th.queue := by
    simp [Thread.queue]
  rw [same, none, holds]
  rfl

/-- A deferred update works on the last value deferred. -/
theorem pendingOrCommitted_eq (record : Record T) (committed : T) :
    record.pendingOrCommitted committed = valueAfter committed record.pending := by
  rw [Record.pendingOrCommitted, valueAfter]
  induction record.pending using List.reverseRecOn with
  | nil => rfl
  | append_singleton rest write ih =>
    rw [List.reverse_append, List.reverse_singleton, List.singleton_append, List.findSome?_cons,
      List.foldl_append, List.foldl_cons, List.foldl_nil, ← ih]
    cases write.value? <;> rfl

omit [DecidableEq ι] in
/-- The frames on top give way to others with the same writes, updates and copies. -/
theorem Effect.frames {act : Act T} (top top' : List (Frame T)) {rest : List (Frame T)} {record : Record T}
    (is : th.stack = top ++ rest) (commits : sh'.commits = sh.commits)
    (committed : sh'.committed = sh.committed) (pending : record.pending = th.record.pending)
    (held : top'.flatMap Frame.held = top.flatMap Frame.held)
    (alive : top'.flatMap Frame.alive = top.flatMap Frame.alive)
    (marked : top'.flatMap Frame.marked = top.flatMap Frame.marked)
    (copies : top'.flatMap Frame.copies = top.flatMap Frame.copies) :
    Effect me act sh th sh' { th with record := record, stack := top' ++ rest } := by
  refine .keeps ⟨commits, committed, rfl, rfl⟩ rfl ?_ (.of_eq ?_) ?_ ?_
  · simp only [Thread.queue, is, List.flatMap_append, held, pending]
  · simp only [Thread.alive, is, List.flatMap_append, alive]
  · intro u member
    simpa only [Thread.marked, is, List.flatMap_append, marked] using member
  · intro x member
    left
    simpa only [Thread.copies, is, List.flatMap_append, copies] using member

/-! ## Steps of user code -/

section User

variable (b : Balanced me sh th) (runs : userRuns th.stack)

include b runs

theorem effect_set (value : T) (notify : Bool) :
    Effect me (.set value notify) sh th sh (th.set value notify) := by
  unfold Thread.set
  extract_lets write made
  have around : ∀ u ∈ th.opened.filter (fun u => u.1 < th.next),
      u ∈ th.opened ∧ u ∈ th.opened ∧ u.1 < th.next ∧ th.next ∈ th.handing (.set value notify) := by
    intro u member
    rw [List.mem_filter, decide_eq_true_iff] at member
    exact ⟨member.1, member.1, member.2, rfl⟩
  have hands (th' : Thread T) (made' : th'.made = write :: th.made) (marked : th'.marked = th.marked)
      (copies : th'.copies = th.copies) (opened : th'.opened = th.opened) (inside : th'.inside = made.inside) :
      HandsIn (.set value notify) sh th sh th' write :=
    ⟨rfl, rfl, made', marked ▸ List.Subset.refl _, copies ▸ List.Subset.refl _, .inr fun _ => rfl,
      ⟨_, opened ▸ around, inside⟩⟩
  split
  next used =>
    rw [Record.inUse_iff] at used
    exact .makes write (hands _ rfl rfl rfl rfl rfl) rfl rfl (queue_defer made write used) rfl rfl
  next unused =>
    obtain ⟨none, -⟩ := b.idle runs (Bool.eq_false_of_not_eq_true unused)
    exact .makes write (hands _ rfl rfl rfl rfl rfl) rfl rfl (queue_push made rfl none) rfl rfl

/-- A copy made while the signal is in use. -/
theorem copied : th.record.pendingOrCommitted sh.committed = valueAfter sh.committed th.queue := by
  rw [pendingOrCommitted_eq, Thread.queue, held_resting (resting_of_user runs b.resting), List.nil_append]

theorem effect_update : Effect me .update sh th sh (th.update sh) := by
  have quiet (th' : Thread T) (made : th'.made = th.made) (inside : th'.inside = th.inside) :
      Quiet sh th sh th' :=
    ⟨rfl, rfl, made, inside⟩
  unfold Thread.update
  extract_lets th'
  split
  next =>
    refine .begins (quiet _ rfl rfl) rfl rfl (List.Perm.refl _) (fun u member => ?_) (fun x member => ?_) rfl
    · rcases List.mem_cons.mp member with rfl | old
      · exact .inr ⟨rfl, by simp⟩
      · exact .inl old
    · rcases List.mem_cons.mp member with is | old
      · exact .inr (is.trans (copied b runs))
      · exact .inl old
  next unused =>
    obtain ⟨queue, alive⟩ := b.idle runs (Bool.eq_false_of_not_eq_true unused)
    refine .begins (quiet _ rfl rfl) rfl rfl (List.Perm.refl _) (fun u member => ?_) (fun x member => .inl member)
      rfl
    rcases List.mem_cons.mp member with rfl | old
    · exact .inr ⟨rfl, fun _ => ⟨alive, queue⟩⟩
    · exact .inl old

theorem effect_write : Effect me .write sh th sh (th.write sh) := by
  have quiet (th' : Thread T) (made : th'.made = th.made) (inside : th'.inside = th.inside) :
      Quiet sh th sh th' :=
    ⟨rfl, rfl, made, inside⟩
  unfold Thread.write
  extract_lets th'
  split
  next =>
    refine .begins (quiet _ rfl rfl) rfl ?_ List.perm_middle (fun u member => ?_) (fun x member => ?_) rfl
    · simp [Thread.queue, th']
    · rcases List.mem_cons.mp (List.perm_middle.mem_iff.mp member) with rfl | old
      · exact .inr ⟨rfl, by simp⟩
      · exact .inl old
    · rcases List.mem_cons.mp (List.perm_middle.mem_iff.mp member) with is | old
      · exact .inr (is.trans (copied b runs))
      · exact .inl old
  next unused =>
    obtain ⟨queue, alive⟩ := b.idle runs (Bool.eq_false_of_not_eq_true unused)
    refine .begins (quiet _ rfl rfl) rfl rfl (List.Perm.refl _) (fun u member => ?_) (fun x member => .inl member)
      rfl
    rcases List.mem_cons.mp member with rfl | old
    · exact .inr ⟨rfl, fun _ => ⟨alive, queue⟩⟩
    · exact .inl old

omit runs in
theorem effect_endUpdate {closure : T → T} {changed : Bool} (ended : th.endUpdate closure changed = some th') :
    Effect me (.endUpdate closure changed) sh th sh th' := by
  unfold Thread.endUpdate at ended
  split at ended
  next id value started base rest is =>
    have alive : th.alive = id :: (rest.flatMap Frame.alive ++ th.guards.flatMap Guard.alive) := by
      rw [Thread.alive, is]
      rfl
    have marked : th.marked =
        (id, started) :: (rest.flatMap Frame.marked ++ th.guards.flatMap Guard.opened) := by
      rw [Thread.marked, is]
      rfl
    have copies : th.copies = value :: (rest.flatMap Frame.copies ++ th.guards.flatMap Guard.copies) := by
      rw [Thread.copies, is]
      rfl
    have queue : th.queue = rest.flatMap Frame.held ++ th.record.pending := by
      rw [Thread.queue, is]
      rfl
    have own : (id, started) ∈ th.marked := marked ▸ List.mem_cons_self
    have around (u : ℕ × Bool)
        (member : u ∈ (Thread.opened { th with stack := rest }).filter fun u => u.1 < id) :
        u ∈ Thread.opened { th with stack := rest } ∧ u ∈ th.opened ∧ u.1 < id ∧
          id ∈ th.handing (.endUpdate closure changed) := by
      rw [List.mem_filter, decide_eq_true_iff] at member
      refine ⟨member.1, ?_, member.2, by simp [Thread.handing, is]⟩
      rw [Thread.opened, is]
      exact List.mem_cons_of_mem _ member.1
    let write := Deferred.set id closure (closure value) changed
    have hands (th' : Thread T) (made : th'.made = write :: th.made)
        (marked' : th'.marked = rest.flatMap Frame.marked ++ th.guards.flatMap Guard.opened)
        (copies' : th'.copies = rest.flatMap Frame.copies ++ th.guards.flatMap Guard.copies)
        (opened : th'.opened = Thread.opened { th with stack := rest })
        (inside : th'.inside =
          ((Thread.opened { th with stack := rest }).filter fun u => u.1 < id).map (fun u => (u.1, id)) ++
            th.inside) :
        HandsIn (.endUpdate closure changed) sh th sh th' write := by
      refine ⟨rfl, rfl, made, ?_, ?_, .inl ⟨value, copies ▸ List.mem_cons_self, rfl⟩, ⟨_, opened ▸ around, inside⟩⟩
      · rw [marked', marked]
        exact List.subset_cons_self _ _
      · rw [copies', copies]
        exact List.subset_cons_self _ _
    cases ended
    cases started with
    | true =>
      refine .ends write (hands _ rfl rfl rfl rfl rfl) own rfl ?_ (.of_eq alive)
      exact congrArg (write :: ·) queue.symm
    | false =>
      have used : 0 < th.record.depth := by
        have nested := b.nested
        rw [is] at nested
        obtain ⟨le, outer, -⟩ := nested
        have below := outer rfl
        rw [b.depth, Thread.uses, is, recorded_cons]
        omega
      refine .defers write (hands _ rfl rfl rfl rfl rfl) own rfl ?_ (.of_eq alive)
      rw [queue]
      exact queue_defer { th with stack := rest } write used
  next => cases ended

omit runs in
theorem effect_dropWrite {index id : ℕ} {value : T} {access : GuardAccess}
    (is : th.guards[index]? = some (.write id value access)) (closure : T → T) (notify : Bool) :
    Effect me (.drop index closure notify) sh th sh (th.dropWrite index id value access closure notify) := by
  have perm := perm_eraseIdx is
  have alive : th.alive.Perm
      (id :: (th.stack.flatMap Frame.alive ++ (th.guards.eraseIdx index).flatMap Guard.alive)) :=
    ((perm.flatMap_right Guard.alive).append_left _).trans List.perm_middle
  have marked : th.marked.Perm ((id, decide (access = .writing)) ::
      (th.stack.flatMap Frame.marked ++ (th.guards.eraseIdx index).flatMap Guard.opened)) :=
    ((perm.flatMap_right Guard.opened).append_left _).trans List.perm_middle
  have opened : th.opened.Perm ((id, decide (access = .writing)) ::
      (th.stack.flatMap Frame.opened ++ (th.guards.eraseIdx index).flatMap Guard.opened)) :=
    ((perm.flatMap_right Guard.opened).append_left _).trans List.perm_middle
  have copies : th.copies.Perm
      (value :: (th.stack.flatMap Frame.copies ++ (th.guards.eraseIdx index).flatMap Guard.copies)) :=
    ((perm.flatMap_right Guard.copies).append_left _).trans List.perm_middle
  have own : (id, decide (access = .writing)) ∈ th.marked := marked.mem_iff.mpr List.mem_cons_self
  have around (u : ℕ × Bool)
      (member : u ∈ (Thread.opened { th with guards := th.guards.eraseIdx index }).filter fun u => u.1 < id) :
      u ∈ Thread.opened { th with guards := th.guards.eraseIdx index } ∧ u ∈ th.opened ∧ u.1 < id ∧
        id ∈ th.handing (.drop index closure notify) := by
    rw [List.mem_filter, decide_eq_true_iff] at member
    exact ⟨member.1, opened.mem_iff.mpr (List.mem_cons_of_mem _ member.1), member.2,
      by simp [Thread.handing, is]⟩
  let write := Deferred.set id closure (closure value) notify
  have hands (th' : Thread T) (made : th'.made = write :: th.made)
      (marked' : th'.marked =
        th.stack.flatMap Frame.marked ++ (th.guards.eraseIdx index).flatMap Guard.opened)
      (copies' : th'.copies =
        th.stack.flatMap Frame.copies ++ (th.guards.eraseIdx index).flatMap Guard.copies)
      (opened : th'.opened = Thread.opened { th with guards := th.guards.eraseIdx index })
      (inside : th'.inside =
        ((Thread.opened { th with guards := th.guards.eraseIdx index }).filter fun u => u.1 < id).map
          (fun u => (u.1, id)) ++ th.inside) :
      HandsIn (.drop index closure notify) sh th sh th' write := by
    refine ⟨rfl, rfl, made, ?_, ?_, .inl ⟨value, copies.mem_iff.mpr List.mem_cons_self, rfl⟩,
      ⟨_, opened ▸ around, inside⟩⟩
    · intro u member
      exact marked.mem_iff.mpr (List.mem_cons_of_mem _ (marked' ▸ member))
    · intro x member
      exact copies.mem_iff.mpr (List.mem_cons_of_mem _ (copies' ▸ member))
  cases access with
  | writing => exact .ends write (hands _ rfl rfl rfl rfl rfl) own rfl rfl alive
  | nested =>
    have used : 0 < th.record.depth := by
      have some_ : 0 < th.guards.length := (List.getElem?_eq_some_iff.mp is).1.pos
      rw [b.depth, Thread.uses]
      omega
    exact .defers write (hands _ rfl rfl rfl rfl rfl) own rfl (queue_defer th write used) alive

omit runs in
theorem effect_drop {index : ℕ} {closure : T → T} {notify : Bool}
    (dropped : Signal.drop me index closure notify sh th = some (sh', th')) :
    Effect me (.drop index closure notify) sh th sh' th' := by
  unfold Signal.drop at dropped
  split at dropped
  next =>
    split at dropped
    next => cases dropped
    next is =>
      cases dropped
      have perm := perm_eraseIdx is
      refine .keeps ⟨rfl, rfl, rfl, rfl⟩ rfl rfl ?_ ?_ ?_
      · exact (perm.flatMap_right Guard.alive).symm.append_left _
      · exact ((perm.flatMap_right Guard.opened).symm.append_left _).subset
      · exact fun x member => .inl (((perm.flatMap_right Guard.copies).append_left _).mem_iff.mpr member)
    next id value access is =>
      cases dropped
      exact effect_dropWrite b is closure notify
  next => cases dropped

theorem effect_notify :
    Effect me .notify sh th (Signal.notify me sh th).1 (Signal.notify me sh th).2 := by
  unfold Signal.notify
  extract_lets write made
  split
  next used =>
    rw [Record.inUse_iff] at used
    refine .makes write ⟨rfl, rfl, rfl, fun _ member => member, fun _ member => member, .inr fun _ => rfl, ?_⟩
      rfl rfl (queue_defer made write used) rfl rfl
    exact ⟨[], fun u member => absurd member List.not_mem_nil, rfl⟩
  next unused =>
    obtain ⟨queue, alive⟩ := b.idle runs (Bool.eq_false_of_not_eq_true unused)
    refine .notifies write rfl rfl alive queue rfl rfl rfl ?_ ?_ ?_ ?_
    · simpa [Thread.queue, made] using queue
    · simp [Thread.alive, made]
    · simp [Thread.marked, made]
    · simp [Thread.copies, made]

theorem effect_user {act : Act T} (did : Signal.user me sh th act = some (sh', th')) :
    Effect me act sh th sh' th' := by
  cases act with
  | enterWith =>
    cases did
    exact .frames [] [.withClosure th.guards.length] rfl rfl rfl (Record.pending_enter _ _) rfl rfl rfl rfl
  | endWith =>
    rw [Signal.user] at did
    split at did
    next base rest is =>
      cases did
      exact .frames [.withClosure base] [.exit .read] is rfl rfl rfl rfl rfl rfl rfl
    next => cases did
  | read =>
    cases did
    refine .keeps ⟨rfl, rfl, rfl, rfl⟩ rfl ?_ (List.Perm.refl _) (fun _ member => member)
      fun _ member => .inl member
    simp [Thread.queue]
  | set value notify =>
    cases did
    exact effect_set b runs value notify
  | update =>
    cases did
    exact effect_update b runs
  | endUpdate closure changed =>
    obtain ⟨ended, did, same⟩ := Option.map_eq_some_iff.mp did
    cases same
    exact effect_endUpdate b did
  | write =>
    cases did
    exact effect_write b runs
  | drop index closure notify => exact effect_drop b did
  | notify =>
    have notified : Effect me .notify sh th (Signal.notify me sh th).1 (Signal.notify me sh th).2 :=
      effect_notify b runs
    rw [Signal.user, Option.some.injEq] at did
    rw [did] at notified
    exact notified
  | endNotify =>
    rw [Signal.user] at did
    split at did
    next rest is =>
      cases did
      exact .frames [.subscribers] [] is rfl rfl rfl rfl rfl rfl rfl
    next => cases did
  | run => cases did

end User

/-! ## The library's steps -/

section Library

variable {rest : List (Frame T)}

omit [DecidableEq ι] in
theorem effect_takeTurn {call : Call T} (is : th.stack = .takeTurn call :: rest)
    (taken : Signal.takeTurn me call rest sh th = some (sh', th')) : Effect me .run sh th sh' th' := by
  unfold Signal.takeTurn at taken
  split at taken
  next =>
    cases call with
    | set write =>
      cases taken
      exact .frames [.takeTurn (.set write)] [.commit write .read] is rfl rfl (Record.pending_beginWrite _ _) rfl
        rfl rfl rfl
    | copy id guard =>
      cases taken
      exact .frames [.takeTurn (.copy id guard)] [.readCommitted id guard] is rfl rfl
        (Record.pending_beginWrite _ _) rfl rfl rfl rfl
  next => cases taken

omit [DecidableEq ι] in
theorem effect_readCommitted {id : ℕ} {guard : Bool} (is : th.stack = .readCommitted id guard :: rest) :
    Effect me .run sh th sh (Signal.readCommitted id guard rest sh th) := by
  have starts : ∃ id, (id, true) ∈ th.marked := ⟨id, by simp [Thread.marked, is, Frame.marked]⟩
  unfold Signal.readCommitted
  split
  · refine .keeps ⟨rfl, rfl, rfl, rfl⟩ rfl ?_ ?_ ?_ fun x member => ?_
    · simp [Thread.queue, is, Frame.held]
    · simp only [Thread.alive, is, List.flatMap_cons, Guard.alive, Frame.alive]
      exact List.perm_middle
    · intro u member
      simp only [Thread.marked, is, List.flatMap_cons, Guard.opened, Frame.marked] at member ⊢
      exact List.perm_middle.mem_iff.mp member
    · rcases List.mem_cons.mp (List.perm_middle.mem_iff.mp member) with same | old
      · exact .inr ⟨same, starts⟩
      · left
        simpa [Thread.copies, is, Frame.copies] using old
  · refine .keeps ⟨rfl, rfl, rfl, rfl⟩ rfl ?_ (.of_eq ?_) ?_ fun x member => ?_
    · simp [Thread.queue, is, Frame.held]
    · simp [Thread.alive, is, Frame.alive]
    · simp [Thread.marked, is, Frame.marked]
    · rcases List.mem_cons.mp member with same | old
      · exact .inr ⟨same, starts⟩
      · left
        simpa [Thread.copies, is, Frame.copies] using old

theorem effect_commit (b : Balanced me sh th) {write : Deferred T} {kind : Kind}
    (is : th.stack = .commit write kind :: rest)
    (committed : Signal.commit me write kind rest sh th = some (sh', th')) : Effect me .run sh th sh' th' := by
  have resting := b.resting
  rw [is, List.tail_cons] at resting
  unfold Signal.commit at committed
  split at committed
  next only =>
    split at committed
    next =>
      cases committed
      refine .applies write rfl (b.alone is rfl rfl rfl only) rfl rfl rfl ?_ ?_ ?_ ?_
      · simp [Thread.queue, is, held_resting resting, Frame.held]
      · simp [Thread.alive, is, Frame.alive]
      · simp [Thread.marked, is, Frame.marked]
      · simp [Thread.copies, is, Frame.copies]
    next => cases committed
  next alone =>
    cases committed
    have used : 0 < th.record.depth := by omega
    refine .keeps ⟨rfl, rfl, rfl, rfl⟩ rfl ?_ (.of_eq ?_) ?_ fun x member => .inl ?_
    · simp [Thread.queue, is, Record.pending_defer th.record write true used, held_resting resting, Frame.held]
    · simp [Thread.alive, is, Frame.alive]
    · simp [Thread.marked, is, Frame.marked]
    · simpa [Thread.copies, is, Frame.copies] using member

theorem effect_exit (b : Balanced me sh th) {kind : Kind} (is : th.stack = .exit kind :: rest) :
    Effect me .run sh th (Signal.exit kind rest sh th).1 (Signal.exit kind rest sh th).2 := by
  have resting := b.resting
  rw [is, List.tail_cons] at resting
  have popped {record : Record T} (sh' : Shared ι T) (commits : sh'.commits = sh.commits)
      (committed : sh'.committed = sh.committed) (pending : record.pending = th.record.pending) :
      Effect me .run sh th sh' { th with record := record, stack := rest } :=
    .frames [.exit kind] [] is commits committed pending rfl rfl rfl rfl
  unfold Signal.exit
  cases recorded : th.record with
  | none => exact popped sh rfl rfl (by rw [recorded])
  | some entry =>
    by_cases more : 0 < (entry.count kind false).depth
    · have inner : Record.exit (some entry) kind = (some (entry.count kind false), none) :=
        if_pos more
      rw [inner]
      exact popped sh rfl rfl (by rw [recorded]; rfl)
    · have outermost : Record.exit (some entry) kind = (none, some (entry.pending, entry.turn)) :=
        if_neg more
      rw [outermost]
      dsimp only
      split
      next none_ => exact popped _ rfl rfl (by rw [recorded]; exact (List.isEmpty_iff.mp none_).symm)
      next =>
        refine .keeps ⟨rfl, rfl, rfl, rfl⟩ rfl ?_ (.of_eq ?_) ?_ fun x member => .inl ?_
        · simp [Thread.queue, is, held_resting resting, recorded, Frame.held]
        · simp [Thread.alive, is, Frame.alive]
        · simp [Thread.marked, is, Frame.marked]
        · simpa [Thread.copies, is, Frame.copies] using member

theorem effect_flush (b : Balanced me sh th) {pending : List (Deferred T)} {turn : Bool}
    (is : th.stack = .flush pending turn :: rest)
    (flushed : Signal.flush me pending turn rest sh th = some (sh', th')) : Effect me .run sh th sh' th' := by
  have unused := b.waiting (by rw [is]; rfl)
  have none_ := b.isNone_iff.mpr unused
  have resting := b.resting
  rw [is, List.tail_cons] at resting
  unfold Signal.flush at flushed
  split at flushed
  next =>
    cases flushed
    refine .keeps ⟨rfl, rfl, rfl, rfl⟩ rfl ?_ (.of_eq ?_) ?_ fun x member => .inl ?_
    · simp [Thread.queue, is, none_, held_resting resting, Frame.held]
    · simp [Thread.alive, is, Frame.alive]
    · simp [Thread.marked, is, Frame.marked]
    · simpa [Thread.copies, is, Frame.copies] using member
  next => cases flushed

theorem effect_drain (b : Balanced me sh th) {applied : ℕ} (is : th.stack = .drain applied :: rest)
    (drained : Signal.drain me applied rest sh th = some (sh', th')) : Effect me .run sh th sh' th' := by
  have resting := b.resting
  rw [is, List.tail_cons] at resting
  have used : 0 < th.record.depth := by
    rw [b.depth, Thread.uses, is, recorded_cons]
    simp only [Frame.recorded]
    omega
  have exits : Effect me .run sh th sh { th with stack := .exit .read :: rest } :=
    .frames [.drain applied] [.exit .read] is rfl rfl rfl rfl rfl rfl rfl
  unfold Signal.drain at drained
  split at drained
  next most =>
    cases drained
    refine .drops ⟨rfl, rfl, rfl, rfl⟩ rfl ?_ (.of_eq ?_) ?_ ?_ applied rest is most
    · rw [Thread.queue, Thread.queue, is]
      refine (List.prefix_append_right_inj _).mpr ?_
      cases th.record <;> simp [Record.takePending]
    · simp [Thread.alive, is, Frame.alive]
    · simp [Thread.marked, is, Frame.marked]
    · simp [Thread.copies, is, Frame.copies]
  next =>
    split at drained
    next =>
      cases drained
      exact exits
    next only =>
      split at drained
      next =>
        cases drained
        exact exits
      next write more pending =>
        split at drained
        next =>
          cases drained
          refine .applies write rfl (b.alone is rfl rfl rfl (Nat.not_lt.mp only)) rfl rfl rfl ?_ ?_ ?_ ?_
          · simp [Thread.queue, is, held_resting resting, pending,
              Record.pending_replacePending th.record more used, Frame.held]
          · simp [Thread.alive, is, Frame.alive]
          · simp [Thread.marked, is, Frame.marked]
          · simp [Thread.copies, is, Frame.copies]
        next => cases drained

end Library

/-! ## Every step -/

theorem step_effect (b : Balanced me sh th) {act : Act T}
    (moved : Signal.step me act sh th = some (sh', th')) : Effect me act sh th sh' th' := by
  unfold Signal.step at moved
  split at moved
  next =>
    unfold Signal.run at moved
    split at moved
    next is => exact effect_takeTurn is moved
    next is =>
      cases moved
      exact effect_readCommitted is
    next is => exact effect_commit b is moved
    next is =>
      rw [Option.some.injEq] at moved
      have exits : Effect me .run sh th _ _ := effect_exit b is
      rw [moved] at exits
      exact exits
    next is => exact effect_flush b is moved
    next is => exact effect_drain b is moved
    next => cases moved
  next =>
    split at moved
    next runs => exact effect_user b runs moved
    next => cases moved

end Halyard.Signal
