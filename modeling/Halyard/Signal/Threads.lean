import Halyard.Reaches
import Halyard.Signal.Record

/-!
# Threads using one signal

The uses of `signal/commit.rs`, as a machine.  A thread has a control stack: closures and
subscribers, which are user code, and the library's own steps (`takeTurn`, `readCommitted`,
`commit`, `exit`, `flush`, `drain`).  While user code is on top (or nothing is), the thread may
start any use of the signal or end one; otherwise the library's next step runs.  Guards live beside
the stack, since a closure or a subscriber may keep one.

Uses nest properly: a closure does not end a use that began before the closure did.

One step does one thing that other threads can see: take or release the turn, copy the committed
value, swap a value in, release a read guard.  What a thread does to its own record goes with it.
-/

namespace Halyard.Signal

variable {ι T : Type} [DecidableEq ι]

/-- The most deferred writes one flush applies. -/
def maxApplied : ℕ := 100000

inductive GuardAccess where
  /-- It holds the writer turn: it commits when dropped. -/
  | writing
  /-- The thread was using the signal already: its value is deferred when dropped. -/
  | nested
  deriving DecidableEq, Repr

/-- A guard alive on a thread. -/
inductive Guard (T : Type) where
  | read
  | write (id : ℕ) (value : T) (access : GuardAccess)

/-- A write that waits for its turn. -/
inductive Call (T : Type) where
  | set (write : Deferred T)
  /-- An `update`, or a write guard, which works on a copy. -/
  | copy (id : ℕ) (guard : Bool)

/-- `base` is how many guards were alive when a closure began. -/
inductive Frame (T : Type) where
  | withClosure (base : ℕ)
  | updateClosure (id : ℕ) (value : T) (started : Bool) (base : ℕ)
  /-- `mark_subscribers` runs the subscribers. -/
  | subscribers
  | takeTurn (call : Call T)
  | readCommitted (id : ℕ) (guard : Bool)
  | commit (write : Deferred T) (kind : Kind)
  | exit (kind : Kind)
  | flush (pending : List (Deferred T)) (turn : Bool)
  | drain (applied : ℕ)

/-- What a thread does next; `run` is the library's next step. -/
inductive Act (T : Type) where
  | enterWith
  | endWith
  | read
  | set (value : T) (notify : Bool)
  | update
  | endUpdate (closure : T → T) (changed : Bool)
  | write
  | drop (index : ℕ) (closure : T → T) (notify : Bool)
  | notify
  | endNotify
  | run

/-- A thread.  `made` are the writes it has handed in, `next` numbers the next one, and `inside`
pairs an update or write guard with each write made while it was open. -/
structure Thread (T : Type) where
  record : Record T
  stack : List (Frame T)
  guards : List (Guard T)
  made : List (Deferred T)
  inside : List (ℕ × ℕ)
  next : ℕ

/-- What threads share: the value behind its lock, who has the writer turn, who holds the lock for
reading (once for each use), and the writes applied so far. -/
structure Shared (ι T : Type) where
  committed : T
  turn : Option ι
  readers : List ι
  commits : List (ι × Deferred T)

structure State (ι T : Type) where
  shared : Shared ι T
  threads : ι → Thread T

/-- No thread uses the signal, and none has. -/
def Thread.start : Thread T :=
  { record := none, stack := [], guards := [], made := [], inside := [], next := 0 }

def State.start (v : T) : State ι T :=
  { shared := { committed := v, turn := none, readers := [], commits := [] }
    threads := fun _ => .start }

namespace Frame

/-- Whether user code runs under this frame. -/
def user : Frame T → Bool
  | .withClosure _ | .updateClosure .. | .subscribers => true
  | _ => false

/-- The updates whose closure runs: whether one was started, or is to be deferred. -/
def opened : Frame T → List (ℕ × Bool)
  | .updateClosure id _ started _ => [(id, started)]
  | _ => []

end Frame

def Guard.opened : Guard T → List (ℕ × Bool)
  | .read => []
  | .write id _ access => [(id, access = .writing)]

def userRuns : List (Frame T) → Bool
  | [] => true
  | frame :: _ => frame.user

/-- The guards that the closure running now must leave alone. -/
def base : List (Frame T) → ℕ
  | [] => 0
  | .withClosure base :: _ => base
  | .updateClosure _ _ _ base :: _ => base
  | _ :: rest => base rest

namespace Thread

/-- The updates whose closure runs and the write guards alive. -/
def opened (th : Thread T) : List (ℕ × Bool) :=
  th.stack.flatMap Frame.opened ++ th.guards.flatMap Guard.opened

/-- A write is made: by `set`, by the end of an update's closure or by the drop of a guard. -/
def handIn (th : Thread T) (write : Deferred T) : Thread T :=
  let around := th.opened.filter fun u => u.1 < write.id
  { th with
    made := write :: th.made
    inside := around.map (fun u => (u.1, write.id)) ++ th.inside }

/-- `set_value`, up to `begin_write`. -/
def set (th : Thread T) (value : T) (notify : Bool) : Thread T :=
  let write := .set th.next (fun _ => value) value notify
  let th := { th with next := th.next + 1 }.handIn write
  if th.record.inUse then { th with record := th.record.defer write false }
  else { th with stack := .takeTurn (.set write) :: th.stack }

/-- `update_snapshot`, up to its closure. -/
def update (sh : Shared ι T) (th : Thread T) : Thread T :=
  let th' := { th with next := th.next + 1 }
  if th.record.inUse then
    let value := th.record.pendingOrCommitted sh.committed
    { th' with stack := .updateClosure th.next value false th.guards.length :: th.stack }
  else { th' with stack := .takeTurn (.copy th.next false) :: th.stack }

/-- `update_snapshot`, from the end of its closure. -/
def endUpdate (th : Thread T) (closure : T → T) (changed : Bool) : Option (Thread T) :=
  match th.stack with
  | .updateClosure id value started _ :: rest =>
      let write := .set id closure (closure value) changed
      let th := { th with stack := rest }.handIn write
      some (if started then { th with stack := .commit write .snapshot :: rest }
        else { th with record := th.record.defer write false })
  | _ => none

/-- `snapshot_guard`. -/
def write (sh : Shared ι T) (th : Thread T) : Thread T :=
  let th' := { th with next := th.next + 1 }
  if th.record.inUse then
    let value := th.record.pendingOrCommitted sh.committed
    { th' with
      record := th.record.enter .snapshot
      guards := .write th.next value .nested :: th.guards }
  else { th' with stack := .takeTurn (.copy th.next true) :: th.stack }

/-- `SignalWriteGuard::drop`, of the guard at `index`. -/
def dropWrite (th : Thread T) (index id : ℕ) (value : T) (access : GuardAccess) (closure : T → T)
    (notify : Bool) : Thread T :=
  let write := .set id closure (closure value) notify
  let th := { th with guards := th.guards.eraseIdx index }.handIn write
  match access with
  | .writing => { th with stack := .commit write .snapshot :: th.stack }
  | .nested =>
      { th with
        record := th.record.defer write false
        stack := .exit .snapshot :: th.stack }

end Thread

/-- A read begins: the lock is taken and the use recorded. -/
def Shared.lock (me : ι) (sh : Shared ι T) : Shared ι T :=
  { sh with readers := me :: sh.readers }

/-- A read guard lets go of the lock, before the use stops being recorded. -/
def Shared.unlock (me : ι) (sh : Shared ι T) : Shared ι T :=
  { sh with readers := sh.readers.erase me }

/-- A write is applied: its value, if it has one, is swapped in under the write lock. -/
def Shared.apply (me : ι) (write : Deferred T) (sh : Shared ι T) : Shared ι T :=
  { sh with
    committed := write.value?.getD sh.committed
    commits := sh.commits ++ [(me, write)] }

/-- Whether a write can be applied now: `swap_in` waits for the value's lock. -/
def Shared.unlocked (sh : Shared ι T) (write : Deferred T) : Bool :=
  write.value?.isNone || sh.readers.isEmpty

/-- The stack once `write` is applied. -/
def notifying (write : Deferred T) (rest : List (Frame T)) : List (Frame T) :=
  if write.notifies then .subscribers :: rest else rest

/-- `notify_or_defer`. -/
def notify (me : ι) (sh : Shared ι T) (th : Thread T) : Shared ι T × Thread T :=
  let write := .notify th.next
  let th := { th with next := th.next + 1, made := write :: th.made }
  if th.record.inUse then (sh, { th with record := th.record.defer write false })
  else (sh.apply me write, { th with stack := notifying write th.stack })

/-- The end of a guard's life. -/
def drop (me : ι) (index : ℕ) (closure : T → T) (notify : Bool) (sh : Shared ι T) (th : Thread T) :
    Option (Shared ι T × Thread T) :=
  if index < th.guards.length - base th.stack then
    match th.guards[index]? with
    | none => none
    | some .read =>
        let stack := .exit .read :: th.stack
        some (sh.unlock me, { th with guards := th.guards.eraseIdx index, stack := stack })
    | some (.write id value access) =>
        some (sh, th.dropWrite index id value access closure notify)
  else none

/-- What user code does. -/
def user (me : ι) (sh : Shared ι T) (th : Thread T) : Act T → Option (Shared ι T × Thread T)
  | .enterWith =>
      let stack := .withClosure th.guards.length :: th.stack
      some (sh.lock me, { th with record := th.record.enter .read, stack := stack })
  | .endWith =>
      match th.stack with
      | .withClosure _ :: rest => some (sh.unlock me, { th with stack := .exit .read :: rest })
      | _ => none
  | .read =>
      some (sh.lock me, { th with record := th.record.enter .read, guards := .read :: th.guards })
  | .set value notify => some (sh, th.set value notify)
  | .update => some (sh, th.update sh)
  | .endUpdate closure changed => (th.endUpdate closure changed).map fun th => (sh, th)
  | .write => some (sh, th.write sh)
  | .drop index closure notify => drop me index closure notify sh th
  | .notify => some (notify me sh th)
  | .endNotify =>
      match th.stack with
      | .subscribers :: rest => some (sh, { th with stack := rest })
      | _ => none
  | .run => none

/-- The second half of `begin_write`, once it is this thread's turn. -/
def takeTurn (me : ι) (call : Call T) (rest : List (Frame T)) (sh : Shared ι T) (th : Thread T) :
    Option (Shared ι T × Thread T) :=
  if sh.turn.isNone then
    let sh := { sh with turn := some me }
    match call with
    | .set write =>
        let stack := .commit write .read :: rest
        some (sh, { th with record := th.record.beginWrite false, stack := stack })
    | .copy id guard =>
        let stack := .readCommitted id guard :: rest
        some (sh, { th with record := th.record.beginWrite true, stack := stack })
  else none

/-- `read_committed`, for the copy of an update or a write guard. -/
def readCommitted (id : ℕ) (guard : Bool) (rest : List (Frame T)) (sh : Shared ι T)
    (th : Thread T) : Thread T :=
  if guard then
    { th with guards := .write id sh.committed .writing :: th.guards, stack := rest }
  else { th with stack := .updateClosure id sh.committed true th.guards.length :: rest }

/-- `ArcWriteSignal::commit`. -/
def commit (me : ι) (write : Deferred T) (kind : Kind) (rest : List (Frame T)) (sh : Shared ι T)
    (th : Thread T) : Option (Shared ι T × Thread T) :=
  if th.record.depth ≤ 1 then
    if sh.unlocked write then
      some (sh.apply me write, { th with stack := notifying write (.exit kind :: rest) })
    else none
  else
    some (sh, { th with record := th.record.defer write true, stack := .exit kind :: rest })

/-- `reentry::exit`. -/
def exit (kind : Kind) (rest : List (Frame T)) (sh : Shared ι T) (th : Thread T) :
    Shared ι T × Thread T :=
  match th.record.exit kind with
  | (record, none) => (sh, { th with record := record, stack := rest })
  | (record, some (pending, turn)) =>
      if pending.isEmpty then
        ({ sh with turn := if turn then none else sh.turn },
          { th with record := record, stack := rest })
      else (sh, { th with record := record, stack := .flush pending turn :: rest })

/-- `PendingWrites::flush`. -/
def flush (me : ι) (pending : List (Deferred T)) (turn : Bool) (rest : List (Frame T))
    (sh : Shared ι T) (th : Thread T) : Option (Shared ι T × Thread T) :=
  if turn || sh.turn.isNone then
    let record := th.record.resumeWrite pending
    some ({ sh with turn := some me }, { th with record := record, stack := .drain 0 :: rest })
  else none

/-- One iteration of `ArcWriteSignal::drain`. -/
def drain (me : ι) (applied : ℕ) (rest : List (Frame T)) (sh : Shared ι T) (th : Thread T) :
    Option (Shared ι T × Thread T) :=
  if maxApplied ≤ applied then
    some (sh, { th with record := th.record.takePending, stack := .exit .read :: rest })
  else if 1 < th.record.depth then some (sh, { th with stack := .exit .read :: rest })
  else
    match th.record.pending with
    | [] => some (sh, { th with stack := .exit .read :: rest })
    | write :: more =>
        if sh.unlocked write then
          let stack := notifying write (.drain (applied + 1) :: rest)
          let record := th.record.takePending.putPending more
          some (sh.apply me write, { th with record := record, stack := stack })
        else none

/-- The library's next step. -/
def run (me : ι) (sh : Shared ι T) (th : Thread T) : Option (Shared ι T × Thread T) :=
  match th.stack with
  | .takeTurn call :: rest => takeTurn me call rest sh th
  | .readCommitted id guard :: rest => some (sh, readCommitted id guard rest sh th)
  | .commit write kind :: rest => commit me write kind rest sh th
  | .exit kind :: rest => some (exit kind rest sh th)
  | .flush pending turn :: rest => flush me pending turn rest sh th
  | .drain applied :: rest => drain me applied rest sh th
  | _ => none

/-- A step of thread `me`. -/
def step (me : ι) (act : Act T) (sh : Shared ι T) (th : Thread T) :
    Option (Shared ι T × Thread T) :=
  match act with
  | .run => run me sh th
  | act => if userRuns th.stack then user me sh th act else none

def State.step (s : State ι T) (label : ι × Act T) : Option (State ι T) :=
  (Signal.step label.1 label.2 s.shared (s.threads label.1)).map fun after =>
    { shared := after.1, threads := Function.update s.threads label.1 after.2 }

end Halyard.Signal
