import Halyard.Signal.Uses

/-!
# Every step keeps the balance

One lemma for each thing that user code or the library does to the record, the stack and the guards of
a thread.

* `step_balanced`: every step of a thread keeps `Balanced`.
-/

namespace Halyard.Signal

variable {ι T : Type} [DecidableEq ι]
variable {me : ι} {sh sh' : Shared ι T} {th th' : Thread T}

theorem resting_of_user {stack : List (Frame T)} (runs : userRuns stack)
    (tail : ∀ frame ∈ stack.tail, frame.resting) : ∀ frame ∈ stack, frame.resting := by
  cases stack with
  | nil => simp
  | cons top rest =>
    have first : top.resting := by
      simp only [userRuns] at runs
      cases top <;> simp_all [Frame.resting, Frame.user]
    simpa [first] using tail

theorem not_top_of_user {stack : List (Frame T)} (runs : userRuns stack) :
    top Frame.waits stack = false ∧ top Frame.keepsTurn stack = false := by
  cases stack with
  | nil => simp
  | cons frame rest => cases frame <;> simp_all [userRuns, Frame.user, Frame.waits, Frame.keepsTurn]

theorem Balanced.isNone_iff (b : Balanced me sh th) : th.record = none ↔ th.uses = 0 := by
  constructor
  · intro none
    rw [← b.depth, none, Record.depth_none]
  · intro unused
    cases some : th.record with
    | none => rfl
    | some entry => simpa [some, unused] using b.present

theorem Balanced.inUse_iff (b : Balanced me sh th) : th.record.inUse = true ↔ 0 < th.uses := by
  rw [Record.inUse_iff, b.depth]

/-- The record can change in what `Balanced` does not see. -/
theorem Balanced.defer (b : Balanced me sh th) (write : Deferred T) (first : Bool) :
    Balanced me sh { th with record := th.record.defer write first } where
  depth := by rw [Record.depth_defer]; exact b.depth
  present := by
    intro some
    apply b.present
    rw [← Option.not_isNone] at some ⊢
    rwa [Record.isNone_defer] at some
  nested := b.nested
  resting := b.resting
  waiting := b.waiting
  turn := by rw [Record.hasTurn_defer]; exact b.turn
  readers := b.readers

/-- It depends on the record, the stack and the guards only. -/
theorem Balanced.congr (b : Balanced me sh th) (record : th'.record = th.record)
    (stack : th'.stack = th.stack) (guards : th'.guards = th.guards) : Balanced me sh th' where
  depth := by rw [record, b.depth, Thread.uses, Thread.uses, stack, guards]
  present := by
    rw [record, Thread.uses, stack, guards]
    exact b.present
  nested := by rw [stack, guards]; exact b.nested
  resting := by rw [stack]; exact b.resting
  waiting := by
    rw [Thread.uses, stack, guards]
    exact b.waiting
  turn := by rw [record, stack]; exact b.turn
  readers := by rw [b.readers, Thread.reading, Thread.reading, stack, guards]

theorem Balanced.waitForTurn (b : Balanced me sh th) (runs : userRuns th.stack)
    (idle : th.record.inUse = false) (call : Call T) :
    Balanced me sh { th with stack := .takeTurn call :: th.stack } := by
  have unused : th.uses = 0 := by
    by_contra used
    rw [← Bool.not_eq_true, b.inUse_iff] at idle
    omega
  obtain ⟨_, kept⟩ := not_top_of_user runs
  constructor
  · simpa [Thread.uses, Frame.recorded] using b.depth
  · simpa [Thread.uses, Frame.recorded] using b.present
  · simpa only [Nested] using b.nested
  · exact resting_of_user runs b.resting
  · intro _
    simpa [Thread.uses, Frame.recorded] using unused
  · simpa [Frame.keepsTurn, kept] using b.turn
  · simpa [Thread.reading, Frame.reading] using b.readers

theorem Balanced.set (b : Balanced me sh th) (runs : userRuns th.stack) (value : T)
    (notify : Bool) : Balanced me sh (th.set value notify) := by
  unfold Thread.set
  extract_lets write made
  have counted : Balanced me sh made := b.congr rfl rfl rfl
  split
  · exact counted.defer write false
  · rename_i unused
    exact counted.waitForTurn runs (by simpa using unused) _


/-! ## Steps of user code -/

section User

variable (b : Balanced me sh th) (runs : userRuns th.stack)

include b runs

theorem Balanced.enterWith : Balanced me (sh.lock me)
    { th with
      record := th.record.enter .read
      stack := .withClosure th.guards.length :: th.stack } := by
  obtain ⟨_, kept⟩ := not_top_of_user runs
  constructor
  · simp only [Record.depth_enter, b.depth, Thread.uses, recorded_cons, Frame.recorded]
    omega
  · intro _
    simp [Thread.uses, Frame.recorded]
  · exact ⟨le_rfl, b.nested⟩
  · exact resting_of_user runs b.resting
  · simp [Frame.waits]
  · simpa [Frame.keepsTurn, kept, Shared.lock] using b.turn
  · have readers := b.readers
    simp only [Thread.reading, Shared.lock, List.count_cons_self, List.map_cons, List.sum_cons,
      Frame.reading] at readers ⊢
    omega

theorem Balanced.read : Balanced me (sh.lock me)
    { th with record := th.record.enter .read, guards := .read :: th.guards } := by
  obtain ⟨waits, kept⟩ := not_top_of_user runs
  constructor
  · simp only [Record.depth_enter, b.depth, Thread.uses, List.length_cons]
    omega
  · intro _
    simp [Thread.uses]
  · exact b.nested.mono (Nat.le_succ _)
  · exact b.resting
  · simp [waits]
  · simpa [kept, Shared.lock] using b.turn
  · have readers := b.readers
    simp only [Thread.reading, Shared.lock, List.count_cons_self, List.map_cons, List.sum_cons,
      Guard.reading] at readers ⊢
    omega

end User

/-! ## Changes that keep the balance -/

theorem Frame.quiet_of_resting {frame : Frame T} (rests : frame.resting) :
    frame.waits = false ∧ frame.keepsTurn = false := by
  cases frame <;> simp_all [Frame.resting, Frame.user, Frame.waits, Frame.keepsTurn]

theorem quiet_of_resting {stack : List (Frame T)} (resting : ∀ frame ∈ stack, frame.resting) :
    top Frame.waits stack = false ∧ top Frame.keepsTurn stack = false := by
  cases stack with
  | nil => simp
  | cons frame rest =>
    rw [top_cons, top_cons]
    exact Frame.quiet_of_resting (resting frame List.mem_cons_self)

/-- What is deferred can change. -/
theorem Balanced.pending (b : Balanced me sh th) {record : Record T}
    (depth : record.depth = th.record.depth) (turn : record.hasTurn = th.record.hasTurn)
    (some : record.isSome → th.record.isSome) : Balanced me sh { th with record := record } where
  depth := depth.trans b.depth
  present := fun is => b.present (some is)
  nested := b.nested
  resting := b.resting
  waiting := b.waiting
  turn := by rw [turn]; exact b.turn
  readers := b.readers

theorem Balanced.apply (b : Balanced me sh th) (write : Deferred T) :
    Balanced me (sh.apply me write) th :=
  ⟨b.depth, b.present, b.nested, b.resting, b.waiting, b.turn, b.readers⟩

/-- The top frame gives way to another that counts the same and reads nothing. -/
theorem Balanced.retop (b : Balanced me sh th) {frame : Frame T} {rest : List (Frame T)}
    (is : th.stack = frame :: rest) (frame' : Frame T) (kept : frame.keepsTurn = false)
    (counts : frame'.recorded = frame.recorded) (reads : frame'.reading = 0)
    (waits : frame'.waits = false) (keeps : frame'.keepsTurn = false)
    (nested : Nested (frame' :: rest) th.guards.length) (sh' : Shared ι T)
    (turn : sh'.turn = sh.turn)
    (readers : sh'.readers.count me + frame.reading = sh.readers.count me) :
    Balanced me sh' { th with stack := frame' :: rest } := by
  have depth := b.depth
  have present := b.present
  have held := b.readers
  have resting := b.resting
  have own := b.turn
  simp only [Thread.uses, Thread.reading, is, recorded_cons, List.map_cons, List.sum_cons]
    at depth present held
  rw [is, List.tail_cons] at resting
  rw [is, top_cons, kept] at own
  constructor
  · simp only [Thread.uses, recorded_cons]
    omega
  · intro some
    have := present some
    simp only [Thread.uses, recorded_cons]
    omega
  · exact nested
  · exact resting
  · simp [waits]
  · simpa [keeps, turn] using own
  · simp only [Thread.reading, List.map_cons, List.sum_cons]
    omega

/-- A frame that counts nothing ends. -/
theorem Balanced.pop (b : Balanced me sh th) {frame : Frame T} {rest : List (Frame T)}
    (is : th.stack = frame :: rest) (kept : frame.keepsTurn = false) (counts : frame.recorded = 0)
    (reads : frame.reading = 0) (nested : Nested rest th.guards.length) :
    Balanced me sh { th with stack := rest } := by
  have depth := b.depth
  have present := b.present
  have held := b.readers
  have resting := b.resting
  have own := b.turn
  simp only [Thread.uses, Thread.reading, is, recorded_cons, List.map_cons, List.sum_cons, counts,
    reads, Nat.zero_add] at depth present held
  rw [is, List.tail_cons] at resting
  rw [is, top_cons, kept] at own
  obtain ⟨waits, keeps⟩ := quiet_of_resting resting
  constructor
  · exact depth
  · exact present
  · exact nested
  · exact fun frame member => resting frame (List.mem_of_mem_tail member)
  · simp [waits]
  · simpa [keeps] using own
  · exact held

/-- Subscribers are run. -/
theorem Balanced.notifying (b : Balanced me sh th) (rests : ∀ frame ∈ th.stack, frame.resting)
    (write : Deferred T) : Balanced me sh { th with stack := notifying write th.stack } := by
  obtain ⟨_, kept⟩ := quiet_of_resting rests
  unfold Signal.notifying
  split
  · constructor
    · simpa [Thread.uses, Frame.recorded] using b.depth
    · simpa [Thread.uses, Frame.recorded] using b.present
    · exact b.nested
    · exact rests
    · simp [Frame.waits]
    · simpa [Frame.keepsTurn, kept] using b.turn
    · simpa [Thread.reading, Frame.reading] using b.readers
  · exact b

/-! ## Ends of uses -/

theorem Balanced.endWith (b : Balanced me sh th) {alive : ℕ} {rest : List (Frame T)}
    (is : th.stack = .withClosure alive :: rest) :
    Balanced me (sh.unlock me) { th with stack := .exit .read :: rest } := by
  have nested := b.nested
  rw [is] at nested
  have some : me ∈ sh.readers := by
    rw [← List.count_pos_iff, b.readers]
    simp only [Thread.reading, is, List.map_cons, List.sum_cons, Frame.reading]
    omega
  apply b.retop is (.exit .read) rfl rfl rfl rfl rfl (nested.2.mono nested.1) (sh.unlock me) rfl
  have pos := List.count_pos_iff.mpr some
  rw [Shared.unlock, List.count_erase_self]
  simp only [Frame.reading]
  omega

theorem Balanced.endUpdate (b : Balanced me sh th) {closure : T → T} {changed : Bool}
    (ended : th.endUpdate closure changed = some th') : Balanced me sh th' := by
  unfold Thread.endUpdate at ended
  split at ended
  next id value started alive rest is =>
    have nested := b.nested
    rw [is] at nested
    obtain ⟨le, outer, nested⟩ := nested
    cases ended
    let write := Deferred.set id closure (closure value) changed
    cases started with
    | true =>
      exact (b.retop is (.commit write .snapshot) rfl rfl rfl rfl rfl (nested.mono le) sh rfl rfl).congr
        rfl rfl rfl
    | false =>
      have popped := b.pop is rfl rfl rfl (nested.mono le)
      have handed : Balanced me sh (Thread.handIn { th with stack := rest } write) :=
        popped.congr rfl rfl rfl
      exact handed.defer write false
  next => cases ended

theorem perm_eraseIdx {α : Type*} {items : List α} {index : ℕ} {item : α}
    (at_index : items[index]? = some item) : items.Perm (item :: items.eraseIdx index) := by
  obtain ⟨below, is⟩ := List.getElem?_eq_some_iff.mp at_index
  have perm := List.getElem_cons_eraseIdx_perm below
  rw [is] at perm
  exact perm.symm

theorem sum_eraseIdx (f : Guard T → ℕ) (guards : List (Guard T)) {index : ℕ} {guard : Guard T}
    (at_index : guards[index]? = some guard) :
    ((guards.eraseIdx index).map f).sum + f guard = (guards.map f).sum := by
  have sum := ((perm_eraseIdx at_index).symm.map f).sum_eq
  rw [List.map_cons, List.sum_cons] at sum
  omega

/-- A guard is dropped; what is left of its use is a frame. -/
theorem Balanced.dropGuard (b : Balanced me sh th) (runs : userRuns th.stack) {index : ℕ}
    {guard : Guard T} (is : th.guards[index]? = some guard)
    (below : index < th.guards.length - base th.stack) (frame : Frame T) (counts : frame.recorded = 1)
    (reads : frame.reading = 0) (waits : frame.waits = false) (keeps : frame.keepsTurn = false)
    (nested : ∀ alive, Nested (frame :: th.stack) alive = Nested th.stack alive) (sh' : Shared ι T)
    (turn : sh'.turn = sh.turn)
    (readers : sh'.readers.count me + guard.reading = sh.readers.count me) :
    Balanced me sh'
      { th with guards := th.guards.eraseIdx index, stack := frame :: th.stack } := by
  obtain ⟨_, kept⟩ := not_top_of_user runs
  have held := sum_eraseIdx Guard.reading th.guards is
  have length : (th.guards.eraseIdx index).length + 1 = th.guards.length := by
    rw [List.length_eraseIdx]
    split <;> omega
  have depth := b.depth
  have own := b.turn
  have all := b.readers
  simp only [Thread.uses, Thread.reading] at depth all
  rw [kept] at own
  constructor
  · simp only [Thread.uses, recorded_cons]
    omega
  · intro _
    simp only [Thread.uses, recorded_cons]
    omega
  · rw [nested]
    exact b.nested.drop (by dsimp only; omega)
  · exact resting_of_user runs b.resting
  · simp [waits]
  · simpa [keeps, turn] using own
  · simp only [Thread.reading, List.map_cons, List.sum_cons]
    omega

theorem Balanced.drop (b : Balanced me sh th) (runs : userRuns th.stack) {index : ℕ}
    {closure : T → T} {notify : Bool}
    (dropped : Signal.drop me index closure notify sh th = some (sh', th')) : Balanced me sh' th' := by
  unfold Signal.drop at dropped
  split at dropped
  next below =>
    split at dropped
    next => cases dropped
    next is =>
      cases dropped
      have some : me ∈ sh.readers := by
        rw [← List.count_pos_iff, b.readers, Thread.reading,
          ← sum_eraseIdx Guard.reading th.guards is]
        simp only [Guard.reading]
        omega
      have pos := List.count_pos_iff.mpr some
      apply b.dropGuard runs is below (.exit .read) rfl rfl rfl rfl (fun _ => rfl) (sh.unlock me) rfl
      rw [Shared.unlock, List.count_erase_self]
      simp only [Guard.reading]
      omega
    next id value access is =>
      cases dropped
      let write := Deferred.set id closure (closure value) notify
      cases access with
      | writing =>
        exact (b.dropGuard runs is below (.commit write .snapshot) rfl rfl rfl rfl (fun _ => rfl) sh rfl
          rfl).congr rfl rfl rfl
      | nested =>
        have exits := b.dropGuard runs is below (.exit .snapshot) rfl rfl rfl rfl (fun _ => rfl) sh rfl
          rfl
        exact (exits.defer write false).congr rfl rfl rfl
  next => cases dropped

/-! ## Beginnings of uses -/

theorem Balanced.update (b : Balanced me sh th) (runs : userRuns th.stack) :
    Balanced me sh (th.update sh) := by
  unfold Thread.update
  extract_lets th'
  have counted : Balanced me sh th' := b.congr rfl rfl rfl
  split
  next used =>
    rw [b.inUse_iff] at used
    obtain ⟨_, kept⟩ := not_top_of_user runs
    constructor
    · simpa [Thread.uses, Frame.recorded] using b.depth
    · simpa [Thread.uses, Frame.recorded] using b.present
    · exact ⟨le_rfl, fun _ => used, b.nested⟩
    · exact resting_of_user runs b.resting
    · simp [Frame.waits]
    · simpa [Frame.keepsTurn, kept] using b.turn
    · simpa [Thread.reading, Frame.reading] using b.readers
  next unused => exact counted.waitForTurn runs (by simpa using unused) _

theorem Balanced.write (b : Balanced me sh th) (runs : userRuns th.stack) :
    Balanced me sh (th.write sh) := by
  unfold Thread.write
  extract_lets th'
  have counted : Balanced me sh th' := b.congr rfl rfl rfl
  split
  next used =>
    obtain ⟨waits, kept⟩ := not_top_of_user runs
    constructor
    · simp only [Record.depth_enter, b.depth, Thread.uses, List.length_cons, th']
      omega
    · intro _
      simp [Thread.uses]
    · exact b.nested.mono (Nat.le_succ _)
    · exact b.resting
    · simp [waits, th']
    · simpa [kept, th'] using b.turn
    · simpa [Thread.reading, Guard.reading, th'] using b.readers
  next unused => exact counted.waitForTurn runs (by simpa using unused) _

theorem Balanced.notify (b : Balanced me sh th) (runs : userRuns th.stack) :
    Balanced me (Signal.notify me sh th).1 (Signal.notify me sh th).2 := by
  unfold Signal.notify
  extract_lets write th'
  have counted : Balanced me sh th' := b.congr rfl rfl rfl
  split
  next => exact counted.defer write false
  next => exact (counted.apply write).notifying (resting_of_user runs b.resting) write

/-! ## The library's steps -/

section Library

variable {rest : List (Frame T)}

theorem Balanced.takeTurn (b : Balanced me sh th) {call : Call T}
    (is : th.stack = .takeTurn call :: rest)
    (taken : Signal.takeTurn me call rest sh th = some (sh', th')) : Balanced me sh' th' := by
  have unused := b.waiting (by rw [is]; rfl)
  have depth := b.depth
  have nested := b.nested
  have readers := b.readers
  have resting := b.resting
  simp only [Thread.uses, Thread.reading, is, recorded_cons, Frame.recorded, List.map_cons,
    List.sum_cons, Frame.reading, List.tail_cons] at unused depth nested readers resting
  have begun (snapshot : Bool) (frame : Frame T) (counts : frame.recorded = 1)
      (reads : frame.reading = 0) (waits : frame.waits = false) (keeps : frame.keepsTurn = false)
      (nested' : Nested (frame :: rest) th.guards.length) :
      Balanced me { sh with turn := some me }
        { th with record := th.record.beginWrite snapshot, stack := frame :: rest } := by
    constructor
    · simp only [Record.depth_beginWrite, Thread.uses, recorded_cons]
      omega
    · intro _
      simp only [Thread.uses, recorded_cons]
      omega
    · exact nested'
    · exact resting
    · simp [waits]
    · simp
    · simp only [Thread.reading, List.map_cons, List.sum_cons]
      omega
  unfold Signal.takeTurn at taken
  split at taken
  next =>
    cases call with
    | set write =>
      cases taken
      exact begun false (.commit write .read) rfl rfl rfl rfl nested
    | copy id guard =>
      cases taken
      exact begun true (.readCommitted id guard) rfl rfl rfl rfl nested
  next => cases taken

theorem Balanced.readCommitted (b : Balanced me sh th) {id : ℕ} {guard : Bool}
    (is : th.stack = .readCommitted id guard :: rest) :
    Balanced me sh (Signal.readCommitted id guard rest sh th) := by
  have depth := b.depth
  have nested := b.nested
  have readers := b.readers
  have resting := b.resting
  have own := b.turn
  simp only [Thread.uses, Thread.reading, is, recorded_cons, Frame.recorded, List.map_cons,
    List.sum_cons, Frame.reading, List.tail_cons, top_cons, Frame.keepsTurn]
    at depth nested readers resting own
  obtain ⟨waits, keeps⟩ := quiet_of_resting resting
  unfold Signal.readCommitted
  split
  · constructor
    · simp only [Thread.uses, List.length_cons]
      omega
    · intro _
      simp [Thread.uses]
    · exact Nested.mono nested (Nat.le_succ _)
    · exact fun frame member => resting frame (List.mem_of_mem_tail member)
    · simp [waits]
    · simpa [keeps] using own
    · simp only [Thread.reading, List.map_cons, List.sum_cons, Guard.reading]
      omega
  · exact b.retop is (.updateClosure id sh.committed true th.guards.length) rfl rfl rfl rfl rfl
      ⟨le_rfl, by simp, nested⟩ sh rfl rfl

theorem Balanced.commit (b : Balanced me sh th) {write : Deferred T} {kind : Kind}
    (is : th.stack = .commit write kind :: rest)
    (committed : Signal.commit me write kind rest sh th = some (sh', th')) : Balanced me sh' th' := by
  have nested := b.nested
  have resting := b.resting
  rw [is] at nested resting
  have exits := b.retop is (.exit kind) rfl rfl rfl rfl rfl nested sh rfl rfl
  unfold Signal.commit at committed
  split at committed
  next =>
    split at committed
    next =>
      cases committed
      refine (exits.apply write).notifying ?_ write
      intro frame member
      cases member with
      | head => rfl
      | tail _ member => exact resting frame member
    next => cases committed
  next =>
    cases committed
    exact exits.defer write true

theorem Balanced.drain (b : Balanced me sh th) {applied : ℕ} (is : th.stack = .drain applied :: rest)
    (drained : Signal.drain me applied rest sh th = some (sh', th')) : Balanced me sh' th' := by
  have nested := b.nested
  have resting := b.resting
  rw [is] at nested resting
  have exits := b.retop is (.exit .read) rfl rfl rfl rfl rfl nested sh rfl rfl
  have taken : (th.record.takePending).depth = th.record.depth ∧
      (th.record.takePending).hasTurn = th.record.hasTurn ∧
      ((th.record.takePending).isSome → th.record.isSome) := by
    cases th.record <;> simp [Record.takePending]
  unfold Signal.drain at drained
  split at drained
  next =>
    cases drained
    exact exits.pending taken.1 taken.2.1 taken.2.2
  next =>
    split at drained
    next =>
      cases drained
      exact exits
    next =>
      split at drained
      next =>
        cases drained
        exact exits
      next write more _ =>
        split at drained
        next =>
          cases drained
          have drains := b.retop is (.drain (applied + 1)) rfl rfl rfl rfl rfl nested sh rfl rfl
          have rests : ∀ frame ∈ Frame.drain (applied + 1) :: rest, frame.resting := by
            intro frame member
            cases member with
            | head => rfl
            | tail _ member => exact resting frame member
          exact ((drains.apply write).notifying rests write).pending
            (Record.depth_replacePending _ more) (Record.hasTurn_replacePending _ more)
            (Record.isSome_replacePending _ more)
        next => cases drained

theorem Balanced.exit (b : Balanced me sh th) {kind : Kind} (is : th.stack = .exit kind :: rest) :
    Balanced me (Signal.exit kind rest sh th).1 (Signal.exit kind rest sh th).2 := by
  have depth := b.depth
  have nested := b.nested
  have readers := b.readers
  have resting := b.resting
  have own := b.turn
  simp only [Thread.uses, Thread.reading, is, recorded_cons, Frame.recorded, List.map_cons,
    List.sum_cons, Frame.reading, List.tail_cons, top_cons, Frame.keepsTurn]
    at depth nested readers resting own
  obtain ⟨waits, keeps⟩ := quiet_of_resting resting
  cases held : th.record with
  | none =>
    rw [held, Record.depth_none] at depth
    omega
  | some entry =>
    rw [held, Record.depth_some] at depth
    rw [held, Record.hasTurn_some] at own
    unfold Signal.exit
    rw [held]
    by_cases more : 0 < entry.depth - 1
    · have inner : Record.exit (some entry) kind = (some (entry.count kind false), none) :=
        if_pos more
      rw [inner]
      constructor
      · simp only [Record.depth_some, Entry.count, Thread.uses]
        simp only [Bool.false_eq_true, if_false]
        omega
      · intro _
        simp only [Thread.uses]
        omega
      · exact nested
      · exact fun frame member => resting frame (List.mem_of_mem_tail member)
      · simp [waits]
      · simpa [keeps, Entry.count] using own
      · simp only [Thread.reading]
        omega
    · have outermost : Record.exit (some entry) kind = (none, some (entry.pending, entry.turn)) :=
        if_neg more
      rw [outermost]
      have unused : recorded rest + th.guards.length = 0 := by omega
      dsimp only
      split
      · constructor
        · simp only [Record.depth_none, Thread.uses]
          omega
        · simp
        · exact nested
        · exact fun frame member => resting frame (List.mem_of_mem_tail member)
        · simp [waits]
        · cases turn : entry.turn with
          | true => simp [keeps]
          | false => simpa [keeps, turn] using own
        · simp only [Thread.reading]
          omega
      · constructor
        · simp only [Record.depth_none, Thread.uses, recorded_cons, Frame.recorded]
          omega
        · simp
        · exact nested
        · exact resting
        · intro _
          simp only [Thread.uses, recorded_cons, Frame.recorded]
          omega
        · simpa [Frame.keepsTurn] using own
        · simp only [Thread.reading, List.map_cons, List.sum_cons, Frame.reading]
          omega

theorem Balanced.flush (b : Balanced me sh th) {pending : List (Deferred T)} {turn : Bool}
    (is : th.stack = .flush pending turn :: rest)
    (flushed : Signal.flush me pending turn rest sh th = some (sh', th')) : Balanced me sh' th' := by
  have unused := b.waiting (by rw [is]; rfl)
  have depth := b.depth
  have nested := b.nested
  have readers := b.readers
  have resting := b.resting
  simp only [Thread.uses, Thread.reading, is, recorded_cons, Frame.recorded, List.map_cons,
    List.sum_cons, Frame.reading, List.tail_cons] at unused depth nested readers resting
  unfold Signal.flush at flushed
  split at flushed
  next =>
    cases flushed
    constructor
    · simp only [Record.depth_resumeWrite, Thread.uses, recorded_cons, Frame.recorded]
      omega
    · intro _
      simp only [Thread.uses, recorded_cons, Frame.recorded]
      omega
    · exact nested
    · exact resting
    · simp [Frame.waits]
    · simp
    · simp only [Thread.reading, List.map_cons, List.sum_cons, Frame.reading]
      omega
  next => cases flushed

end Library

/-! ## Every step -/

theorem Balanced.run (b : Balanced me sh th) (ran : Signal.run me sh th = some (sh', th')) :
    Balanced me sh' th' := by
  unfold Signal.run at ran
  split at ran
  next is => exact b.takeTurn is ran
  next is =>
    cases ran
    exact b.readCommitted is
  next is => exact b.commit is ran
  next is =>
    rw [Option.some.injEq] at ran
    have exits := b.exit is
    rw [ran] at exits
    exact exits
  next is => exact b.flush is ran
  next is => exact b.drain is ran
  next => cases ran

theorem Balanced.user (b : Balanced me sh th) (runs : userRuns th.stack) {act : Act T}
    (did : Signal.user me sh th act = some (sh', th')) : Balanced me sh' th' := by
  cases act with
  | enterWith =>
    cases did
    exact b.enterWith runs
  | endWith =>
    rw [Signal.user] at did
    split at did
    next is =>
      cases did
      exact b.endWith is
    next => cases did
  | read =>
    cases did
    exact b.read runs
  | set value notify =>
    cases did
    exact b.set runs value notify
  | update =>
    cases did
    exact b.update runs
  | endUpdate closure changed =>
    obtain ⟨ended, did, same⟩ := Option.map_eq_some_iff.mp did
    cases same
    exact b.endUpdate did
  | write =>
    cases did
    exact b.write runs
  | drop index closure notify => exact b.drop runs did
  | notify =>
    have notified := b.notify runs
    rw [Signal.user, Option.some.injEq] at did
    rw [did] at notified
    exact notified
  | endNotify =>
    rw [Signal.user] at did
    split at did
    next is =>
      cases did
      have nested := b.nested
      rw [is] at nested
      exact b.pop is rfl rfl rfl nested
    next => cases did
  | run => cases did

/-- Every step of the thread keeps the balance. -/
theorem step_balanced (b : Balanced me sh th) {act : Act T}
    (moved : Signal.step me act sh th = some (sh', th')) : Balanced me sh' th' := by
  unfold Signal.step at moved
  split at moved
  next => exact b.run moved
  next =>
    split at moved
    next runs => exact b.user runs moved
    next => cases moved

end Halyard.Signal
