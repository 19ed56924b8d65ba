import Mathlib

/-!
# Cleaning up owners

`cleanup` of `owner.rs`, the `Drop` of an owner, and what code can do with owners before, between and
inside of these.  Owners are numbered as they are made, and a cleanup function or an arena item has the
number of the events before it was registered.  Code may make the calls of `Call` in any order, and so may
a cleanup function while it runs, and the `Drop` of a value that an owner has kept.

* `step`: one call, or one turn of the loops of the innermost `cleanup` or `Drop` that is in progress.
* `Event`: what a run has done.
* `turn_of_step`: what a step can do.
-/

namespace Halyard.Owner.Cleanup

/-- `OwnerInner`: its cleanup functions, its children and the arena items registered with it. -/
structure OwnerInner where
  nodes : List ℕ
  cleanups : List ℕ
  children : List ℕ

def OwnerInner.default : OwnerInner := ⟨[], [], []⟩

/-- What keeps an owner while it is cleaned up. -/
inductive Holder
  /-- The handle on which `cleanup` was called. -/
  | caller
  /-- The handle that a traversal got by `upgrade`. -/
  | traversal
  /-- Nothing: it is being dropped. -/
  | nobody
  deriving DecidableEq

/-- A `cleanup` or a `Drop` that is in progress, with what it has taken from its owner and not dealt with
yet.  What an owner has when it is dropped is out of reach for everything else, so that it makes no
difference that `Drop` takes its lists one after another. -/
structure Cleaning where
  holder : Holder
  owner : ℕ
  children : List ℕ
  cleanups : List ℕ
  nodes : List ℕ

/-- What is in progress: a cleaning up, or code, which may be a cleanup function. -/
inductive Activity
  | cleaning (c : Cleaning)
  | code (function : Option ℕ)

inductive Event
  | created (owner child : ℕ)
  | registered (owner function : ℕ)
  | item (owner node : ℕ)
  | begun (owner : ℕ)
  | called (function : ℕ)
  | returned (function : ℕ)
  | disposed (nodes : List ℕ)
  | dropped (owner : ℕ)
  deriving DecidableEq

/-- The owners, of which `handles` tells how many handles code has, the thread's current owner, which it
holds weakly, what is in progress, the innermost first, and what has happened, the last first. -/
structure State where
  owners : ℕ → OwnerInner
  count : ℕ
  handles : ℕ → ℕ
  current : Option ℕ
  stack : List Activity
  log : List Event

def Activity.keeps (holder : Holder) (owner : ℕ) : Activity → Bool
  | .cleaning c => c.holder = holder ∧ c.owner = owner
  | .code _ => false

namespace State

def start : State where
  owners _ := OwnerInner.default
  count := 0
  handles _ := 0
  current := none
  stack := [.code none]
  log := []

variable (s : State)

/-- `upgrade` of a weak handle succeeds. -/
def alive (owner : ℕ) : Bool :=
  0 < s.handles owner ∨ s.stack.any (Activity.keeps .traversal owner)

/-- `Owner::current`. -/
def currentOwner : Option ℕ :=
  s.current.filter s.alive

/-- `child`, and `new` with the current owner. -/
def create (parent : Option ℕ) : State :=
  match parent with
  | some owner =>
      { s with
        owners := Function.update s.owners owner
          { s.owners owner with children := (s.owners owner).children ++ [s.count] }
        count := s.count + 1
        handles := Function.update s.handles s.count 1
        log := .created owner s.count :: s.log }
  | none => { s with count := s.count + 1, handles := Function.update s.handles s.count 1 }

/-- `on_cleanup`. -/
def onCleanup : State :=
  match s.currentOwner with
  | some owner =>
      { s with
        owners := Function.update s.owners owner
          { s.owners owner with cleanups := (s.owners owner).cleanups ++ [s.log.length] }
        log := .registered owner s.log.length :: s.log }
  | none => s

/-- `register`, by a new arena item. -/
def register : State :=
  match s.currentOwner with
  | some owner =>
      { s with
        owners := Function.update s.owners owner
          { s.owners owner with nodes := (s.owners owner).nodes ++ [s.log.length] }
        log := .item owner s.log.length :: s.log }
  | none => s

/-- What a `cleanup` or `Drop` of an owner has to do. -/
def taken (holder : Holder) (owner : ℕ) : Cleaning :=
  ⟨holder, owner, (s.owners owner).children, (s.owners owner).cleanups, (s.owners owner).nodes⟩

/-- A `cleanup` or `Drop` of an owner takes its lists. -/
def begin_ (holder : Holder) (owner : ℕ) : State :=
  { s with
    owners := Function.update s.owners owner OwnerInner.default
    stack := .cleaning (s.taken holder owner) :: s.stack
    log := .begun owner :: s.log }

/-- A handle of an owner is gone, and the owner is dropped if it was the last. -/
def release (owner : ℕ) : State :=
  if s.alive owner then s else s.begin_ .nobody owner

/-- A cleaning up goes on: with the next child, the next function, or the arena items.  At its end, the
traversal lets go of the child, and the rest of a dropped owner, such as its contexts, is dropped. -/
def resume (c : Cleaning) (rest : List Activity) : State :=
  match c.children, c.cleanups, c.nodes with
  | child :: children, _, _ =>
      let s := { s with stack := .cleaning { c with children := children } :: rest }
      if s.alive child then s.begin_ .traversal child else s
  | [], cleanup :: cleanups, _ =>
      { s with
        stack := .code (some cleanup) :: .cleaning { c with cleanups := cleanups } :: rest
        log := .called cleanup :: s.log }
  | [], [], node :: nodes =>
      { s with
        stack := .code none :: .cleaning { c with nodes := [] } :: rest
        log := .disposed (node :: nodes) :: s.log }
  | [], [], [] =>
      match c.holder with
      | .caller => { s with stack := rest }
      | .traversal => release { s with stack := rest } c.owner
      | .nobody => { s with stack := .code none :: rest, log := .dropped c.owner :: s.log }

end State

/-- What code can do: `clone` is the `upgrade` of a weak handle, too, and `current` the `set` of an owner
and what `with` does before and after it. -/
inductive Call
  | clone (owner : ℕ)
  | drop (owner : ℕ)
  | new
  | child (owner : ℕ)
  | current (owner : Option ℕ)
  | onCleanup
  | register
  | cleanup (owner : ℕ)
  | return_

open State

/-- Code makes a call.  A handle on which `cleanup` was called is borrowed until that returns. -/
def call (s : State) (function : Option ℕ) (rest : List Activity) : Call → Option State
  | .clone owner =>
      if s.alive owner then
        some { s with handles := Function.update s.handles owner (s.handles owner + 1) }
      else none
  | .drop owner =>
      if (if s.stack.any (Activity.keeps .caller owner) then 1 else 0) < s.handles owner then
        some (release { s with handles := Function.update s.handles owner (s.handles owner - 1) } owner)
      else none
  | .new => some (s.create s.currentOwner)
  | .child owner => if 0 < s.handles owner then some (s.create (some owner)) else none
  | .current owner => some { s with current := owner }
  | .onCleanup => some s.onCleanup
  | .register => some s.register
  | .cleanup owner => if 0 < s.handles owner then some (s.begin_ .caller owner) else none
  | .return_ => some { s with
      stack := rest
      log := (function.map Event.returned).toList ++ s.log }

/-- One step: a call where code is running, else the next turn of the cleaning up. -/
def step (s : State) (made : Call) : Option State :=
  match s.stack with
  | [] => none
  | .code function :: rest => call s function rest made
  | .cleaning c :: rest => some (s.resume c rest)

/-- A state of a run. -/
inductive Reached : State → Prop
  | start : Reached State.start
  | step {s s' : State} {made : Call} : Reached s → step s made = some s' → Reached s'

/-! ## What has happened -/

/-- What an owner was given, since its last `cleanup` or `Drop` has begun. -/
def since (given : Event → Option ℕ) (owner : ℕ) : List Event → List ℕ
  | [] => []
  | event :: log =>
      if event = .begun owner then [] else since given owner log ++ (given event).toList

def childOf (owner : ℕ) : Event → Option ℕ
  | .created parent child => if parent = owner then some child else none
  | _ => none

def functionOf (owner : ℕ) : Event → Option ℕ
  | .registered parent function => if parent = owner then some function else none
  | _ => none

def nodeOf (owner : ℕ) : Event → Option ℕ
  | .item parent node => if parent = owner then some node else none
  | _ => none

/-- The children created under an owner since it was last cleaned up. -/
def childrenSince (owner : ℕ) : List Event → List ℕ :=
  since (childOf owner) owner

/-- The functions registered with an owner since it was last cleaned up. -/
def cleanupsSince (owner : ℕ) : List Event → List ℕ :=
  since (functionOf owner) owner

/-- The arena items of an owner since it was last cleaned up. -/
def nodesSince (owner : ℕ) : List Event → List ℕ :=
  since (nodeOf owner) owner

theorem childrenSince_cons (owner : ℕ) (event : Event) (log : List Event) :
    childrenSince owner (event :: log) = if event = .begun owner then [] else
      childrenSince owner log ++ (childOf owner event).toList :=
  rfl

theorem cleanupsSince_cons (owner : ℕ) (event : Event) (log : List Event) :
    cleanupsSince owner (event :: log) = if event = .begun owner then [] else
      cleanupsSince owner log ++ (functionOf owner event).toList :=
  rfl

theorem nodesSince_cons (owner : ℕ) (event : Event) (log : List Event) :
    nodesSince owner (event :: log) = if event = .begun owner then [] else
      nodesSince owner log ++ (nodeOf owner event).toList :=
  rfl

/-! ## What is ahead -/

/-- The function is registered with an owner to which the lists of children lead from the given one. -/
def Under (owners : ℕ → OwnerInner) (owner function : ℕ) : Prop :=
  ∃ last, Relation.ReflTransGen (fun above child => child ∈ (owners above).children) owner last ∧
    function ∈ (owners last).cleanups

/-- The activity is the function, or will come to it. -/
def Activity.Has (owners : ℕ → OwnerInner) (function : ℕ) : Activity → Prop
  | .code running => running = some function
  | .cleaning c => function ∈ c.cleanups ∨ ∃ child ∈ c.children, Under owners child function

/-- One of the activities is the function, or will come to it. -/
def Ahead (owners : ℕ → OwnerInner) (activities : List Activity) (function : ℕ) : Prop :=
  ∃ activity ∈ activities, activity.Has owners function

variable {owners owners' : ℕ → OwnerInner} {owner function : ℕ} {activities : List Activity}

theorem ahead_cons {activity : Activity} : Ahead owners (activity :: activities) function ↔
    activity.Has owners function ∨ Ahead owners activities function := by
  unfold Ahead
  rw [List.exists_mem_cons_iff]

/-- Nothing is under an owner that has no lists. -/
theorem not_under_default (none : owners owner = OwnerInner.default) : ¬Under owners owner function := by
  rintro ⟨last, leads, mem⟩
  rcases Relation.ReflTransGen.cases_head leads with rfl | ⟨child, first, -⟩
  · rw [none] at mem
    cases mem
  · rw [none] at first
    cases first

theorem under_child {child : ℕ} (mem : child ∈ (owners owner).children) (under : Under owners child function) :
    Under owners owner function := by
  obtain ⟨last, leads, there⟩ := under
  exact ⟨last, .head mem leads, there⟩

/-- More in the lists leaves what is under an owner there. -/
theorem under_mono (children : ∀ o, (owners o).children ⊆ (owners' o).children)
    (cleanups : ∀ o, (owners o).cleanups ⊆ (owners' o).cleanups) (under : Under owners owner function) :
    Under owners' owner function := by
  obtain ⟨last, leads, there⟩ := under
  exact ⟨last, Relation.ReflTransGen.mono (fun above child mem => children above mem) _ _ leads, cleanups last there⟩

theorem ahead_mono (children : ∀ o, (owners o).children ⊆ (owners' o).children)
    (cleanups : ∀ o, (owners o).cleanups ⊆ (owners' o).cleanups) (ahead : Ahead owners activities function) :
    Ahead owners' activities function := by
  obtain ⟨activity, mem, has⟩ := ahead
  refine ⟨activity, mem, ?_⟩
  cases activity with
  | code running => exact has
  | cleaning c =>
    rcases has with own | ⟨child, there, under⟩
    · exact .inl own
    · exact .inr ⟨child, there, under_mono children cleanups under⟩

theorem begin_self (s : State) (holder : Holder) (owner : ℕ) :
    (s.begin_ holder owner).owners owner = OwnerInner.default :=
  Function.update_self _ _ _

theorem begin_of_ne (s : State) (holder : Holder) {owner other : ℕ} (different : other ≠ owner) :
    (s.begin_ holder owner).owners other = s.owners other :=
  Function.update_of_ne different _ _

/-- What is under an owner is still there when the lists of another are taken, or the cleaning up of that
owner will come to it. -/
theorem under_begin (s : State) (holder : Holder) (taken : ℕ) (under : Under s.owners owner function) :
    Under (s.begin_ holder taken).owners owner function ∨
      (Activity.cleaning (s.taken holder taken)).Has (s.begin_ holder taken).owners function := by
  obtain ⟨last, leads, there⟩ := under
  induction leads using Relation.ReflTransGen.head_induction_on with
  | refl =>
    by_cases same : last = taken
    · exact .inr (.inl (same ▸ there))
    · refine .inl ⟨last, .refl, ?_⟩
      rw [begin_of_ne s holder same]
      exact there
  | @head above child first _ ih =>
    rcases ih with under | has
    · by_cases same : above = taken
      · exact .inr (.inr ⟨child, same ▸ first, under⟩)
      · refine .inl (under_child ?_ under)
        rw [begin_of_ne s holder same]
        exact first
    · exact .inr has

theorem ahead_begin (s : State) (holder : Holder) (taken : ℕ) (ahead : Ahead s.owners activities function) :
    Ahead (s.begin_ holder taken).owners (.cleaning (s.taken holder taken) :: activities) function := by
  obtain ⟨activity, mem, has⟩ := ahead
  rw [ahead_cons]
  cases activity with
  | code running => exact .inr ⟨_, mem, has⟩
  | cleaning c =>
    rcases has with own | ⟨child, there, under⟩
    · exact .inr ⟨_, mem, .inl own⟩
    · rcases under_begin s holder taken under with under | has
      · exact .inr ⟨_, mem, .inr ⟨child, there, under⟩⟩
      · exact .inl has

/-- The cleaning up of an owner comes to all that is under it. -/
theorem ahead_taken (s : State) (holder : Holder) (under : Under s.owners owner function) :
    Ahead (s.begin_ holder owner).owners [.cleaning (s.taken holder owner)] function := by
  rcases under_begin s holder owner under with under | has
  · exact absurd under (not_under_default (begin_self s holder owner))
  · exact ⟨_, List.mem_singleton.mpr rfl, has⟩

/-! ## A step -/

/-- What a step does to a cleaning up on top: it goes on, or had nothing left. -/
inductive Works (c : Cleaning) (news : List Activity) (event : Option Event) : Prop
  | goes (above : List Activity) (left : Cleaning) : news = above ++ [.cleaning left] →
    left.owner = c.owner → left.cleanups ⊆ c.cleanups →
    (∀ function ∈ c.cleanups, function ∈ left.cleanups ∨ event = some (.called function)) →
    (∀ node ∈ c.nodes, node ∈ left.nodes ∨ ∃ nodes, event = some (.disposed nodes) ∧ node ∈ nodes) →
    Works c news event
  | ends : c.children = [] → c.cleanups = [] → c.nodes = [] → Works c news event

/-- What an event does to the lists of the owners. -/
def Event.apply (owners : ℕ → OwnerInner) : Event → ℕ → OwnerInner
  | .created owner child => Function.update owners owner
      { owners owner with children := (owners owner).children ++ [child] }
  | .registered owner function => Function.update owners owner
      { owners owner with cleanups := (owners owner).cleanups ++ [function] }
  | .item owner node => Function.update owners owner
      { owners owner with nodes := (owners owner).nodes ++ [node] }
  | .begun owner => Function.update owners owner OwnerInner.default
  | _ => owners

/-- The function or the arena item that is registered. -/
def Event.given : Event → Option ℕ
  | .registered _ function => some function
  | .item _ node => some node
  | _ => none

/-- The functions and the arena items that are dealt with. -/
def Event.spent : Event → List ℕ
  | .called function => [function]
  | .disposed nodes => nodes
  | _ => []

/-- The functions and the arena items that an owner has. -/
def OwnerInner.things (inner : OwnerInner) : List ℕ :=
  inner.cleanups ++ inner.nodes

/-- The functions and the arena items that an activity has to deal with. -/
def Activity.things : Activity → List ℕ
  | .cleaning c => c.cleanups ++ c.nodes
  | .code _ => []

/-- The functions and the arena items that are taken. -/
def Event.takes (owners : ℕ → OwnerInner) : Event → List ℕ
  | .begun owner => (owners owner).things
  | _ => []

/-- A step puts `news` in the place of the activity on top. -/
structure Turn (s s' : State) (top : Activity) (news : List Activity) (event : Option Event) : Prop where
  log : s'.log = event.toList ++ s.log
  owners : s'.owners = event.elim s.owners (Event.apply s.owners)
  given : ∀ thing, event.bind Event.given = some thing → thing = s.log.length
  things : (news.flatMap Activity.things ++ event.toList.flatMap Event.spent).Perm
    (event.toList.flatMap (Event.takes s.owners) ++ top.things)
  ahead : ∀ activities function, Ahead s.owners (top :: activities) function →
    event = some (.returned function) ∨ Ahead s'.owners (news ++ activities) function
  works : ∀ c, top = .cleaning c → Works c news event
  begun : ∀ owner, event = some (.begun owner) → ∃ holder below,
    news = .cleaning (s.taken holder owner) :: below ∧
    ∀ function, Under s.owners owner function →
      Ahead s'.owners [.cleaning (s.taken holder owner)] function
  called : ∀ function, event = some (.called function) → ∃ c, top = .cleaning c ∧ c.children = [] ∧
    function ∈ c.cleanups
  disposed : ∀ nodes, event = some (.disposed nodes) → ∃ c, top = .cleaning c ∧ c.children = [] ∧
    c.cleanups = [] ∧ c.nodes = nodes
  registered : ∀ owner function, event = some (.registered owner function) → s.alive owner = true
  dropped : ∀ owner, event = some (.dropped owner) → ∃ c, top = .cleaning c ∧ c.holder = .nobody ∧
    c.owner = owner ∧ c.cleanups = []

variable {s s' : State} {top : Activity} {rest : List Activity}

/-- Code, or a cleaning up that has nothing left. -/
def Idle : Activity → Prop
  | .cleaning c => c.children = [] ∧ c.cleanups = [] ∧ c.nodes = []
  | .code _ => True

theorem works_of_idle (idle : Idle top) {news : List Activity} {event : Option Event} (c : Cleaning)
    (same : top = .cleaning c) : Works c news event := by
  subst same
  exact .ends idle.1 idle.2.1 idle.2.2

/-- No lists are taken, no cleanup function is called, and no arena items are disposed. -/
def Plain : Option Event → Prop
  | some (.begun _) => False
  | some (.called _) => False
  | some (.disposed _) => False
  | _ => True

theorem turn_of_plain {news : List Activity} {event : Option Event} (log : s'.log = event.toList ++ s.log)
    (owners : s'.owners = event.elim s.owners (Event.apply s.owners))
    (given : ∀ thing, event.bind Event.given = some thing → thing = s.log.length)
    (things : news.flatMap Activity.things = [])
    (ahead : ∀ activities function, Ahead s.owners (top :: activities) function →
      event = some (.returned function) ∨ Ahead s'.owners (news ++ activities) function)
    (idle : Idle top) (plain : Plain event)
    (registered : ∀ owner function, event = some (.registered owner function) → s.alive owner = true)
    (dropped : ∀ owner, event = some (.dropped owner) → ∃ c, top = .cleaning c ∧ c.holder = .nobody ∧
      c.owner = owner ∧ c.cleanups = []) : Turn s s' top news event where
  log := log
  owners := owners
  given := given
  things := by
    have nothing : top.things = [] := by
      cases top with
      | code function => rfl
      | cleaning c => rw [Activity.things, idle.2.1, idle.2.2, List.append_nil]
    have neither : event.toList.flatMap Event.spent = [] ∧
        event.toList.flatMap (Event.takes s.owners) = [] := by
      match event, plain with
      | none, _ => exact ⟨rfl, rfl⟩
      | some (.created _ _), _ => exact ⟨rfl, rfl⟩
      | some (.registered _ _), _ => exact ⟨rfl, rfl⟩
      | some (.item _ _), _ => exact ⟨rfl, rfl⟩
      | some (.returned _), _ => exact ⟨rfl, rfl⟩
      | some (.dropped _), _ => exact ⟨rfl, rfl⟩
    rw [things, nothing, neither.1, neither.2]
  ahead := ahead
  works := works_of_idle idle
  begun _ same := (same ▸ plain : Plain (some (.begun _))).elim
  called _ same := (same ▸ plain : Plain (some (.called _))).elim
  disposed _ same := (same ▸ plain : Plain (some (.disposed _))).elim
  registered := registered
  dropped := dropped

theorem subset_update {lists : OwnerInner → List ℕ} {more : OwnerInner} {owner : ℕ}
    (subset : lists (owners owner) ⊆ lists more) (o : ℕ) :
    lists (owners o) ⊆ lists (Function.update owners owner more o) := by
  by_cases same : o = owner
  · subst same
    rwa [Function.update_self]
  · rw [Function.update_of_ne same]
    exact List.Subset.refl _

/-- Code gives an owner something, or does what no order depends on. -/
theorem turn_of_more {function : Option ℕ} {event : Option Event} (log : s'.log = event.toList ++ s.log)
    (owners : s'.owners = event.elim s.owners (Event.apply s.owners))
    (given : ∀ thing, event.bind Event.given = some thing → thing = s.log.length) (plain : Plain event)
    (registered : ∀ owner function, event = some (.registered owner function) → s.alive owner = true)
    (dropped : ∀ owner, event ≠ some (.dropped owner)) :
    Turn s s' (.code function) [.code function] event := by
  refine turn_of_plain log owners given rfl (fun activities f ahead => .inr ?_) trivial plain registered
    fun owner same => absurd same (dropped owner)
  rw [owners]
  match event, plain with
  | none, _ => exact ahead
  | some (.created owner _), _ =>
    exact ahead_mono (@subset_update s.owners (·.children) _ owner (List.subset_append_left _ _))
      (@subset_update s.owners (·.cleanups) _ owner (List.Subset.refl _)) ahead
  | some (.registered owner _), _ =>
    exact ahead_mono (@subset_update s.owners (·.children) _ owner (List.Subset.refl _))
      (@subset_update s.owners (·.cleanups) _ owner (List.subset_append_left _ _)) ahead
  | some (.item owner _), _ =>
    exact ahead_mono (@subset_update s.owners (·.children) _ owner (List.Subset.refl _))
      (@subset_update s.owners (·.cleanups) _ owner (List.Subset.refl _)) ahead
  | some (.returned _), _ => exact ahead
  | some (.dropped _), _ => exact ahead

/-- Code changes neither the lists nor what has happened. -/
theorem turn_of_same {function : Option ℕ} (log : s'.log = s.log) (owners : s'.owners = s.owners) :
    Turn s s' (.code function) [.code function] none :=
  turn_of_more log owners (fun _ same => by cases same) trivial (fun _ _ same => by cases same)
    fun _ same => by cases same

/-- What a step does shows in the owners and in what has happened. -/
theorem Turn.of_same {s₁ : State} {news : List Activity} {event : Option Event}
    (turn : Turn s₁ s' top news event) (owners : s₁.owners = s.owners) (log : s₁.log = s.log)
    (registered : ∀ owner function, event ≠ some (.registered owner function)) :
    Turn s s' top news event where
  log := log ▸ turn.log
  owners := owners ▸ turn.owners
  given := log ▸ turn.given
  things := owners ▸ turn.things
  ahead := owners ▸ turn.ahead
  works := turn.works
  begun owner same := by
    have begun := turn.begun owner same
    simp only [taken, owners] at begun
    exact begun
  called := turn.called
  disposed := turn.disposed
  registered owner function same := absurd same (registered owner function)
  dropped := turn.dropped

/-- A cleaning up is begun by code. -/
theorem turn_begin (s : State) {function : Option ℕ} (holder : Holder) (owner : ℕ) :
    Turn s (s.begin_ holder owner) (.code function)
      [.cleaning (s.taken holder owner), .code function] (some (.begun owner)) where
  log := rfl
  owners := rfl
  given _ same := by cases same
  things := by simp [Activity.things, Event.spent, Event.takes, OwnerInner.things, State.taken]
  ahead _ _ ahead := .inr (ahead_begin s holder owner ahead)
  works := works_of_idle (show Idle (.code function) from trivial)
  begun other same := by
    cases same
    exact ⟨holder, _, rfl, fun function under => ahead_taken s holder under⟩
  called _ same := by cases same
  disposed _ same := by cases same
  registered _ _ same := by cases same
  dropped _ same := by cases same

theorem turn_release {s₁ : State} {function : Option ℕ} (stack : s₁.stack = .code function :: rest)
    (owner : ℕ) : ∃ news event, Turn s₁ (s₁.release owner) (.code function) news event ∧
      (s₁.release owner).stack = news ++ rest ∧ ∀ other f, event ≠ some (.registered other f) := by
  unfold release
  split
  next =>
    exact ⟨_, none, turn_of_same rfl rfl, stack, fun _ _ same => by cases same⟩
  next =>
    exact ⟨_, _, turn_begin s₁ .nobody owner, congrArg (_ :: ·) stack, fun _ _ same => by cases same⟩

theorem turn_of_call {function : Option ℕ} {made : Call} (stack : s.stack = .code function :: rest)
    (called : call s function rest made = some s') : ∃ news event,
      Turn s s' (.code function) news event ∧ s'.stack = news ++ rest := by
  have same : ∀ {t : State}, t.owners = s.owners → t.log = s.log → t.stack = s.stack → ∃ news event,
      Turn s t (.code function) news event ∧ t.stack = news ++ rest := by
    intro t owners log kept
    exact ⟨_, none, turn_of_same log owners, kept.trans stack⟩
  have create : ∀ parent, ∃ news event,
      Turn s (s.create parent) (.code function) news event ∧ (s.create parent).stack = news ++ rest := by
    intro parent
    cases parent with
    | none => exact same rfl rfl rfl
    | some owner =>
      exact ⟨_, some (.created owner s.count), turn_of_more rfl rfl (fun _ same => by cases same) trivial
        (fun _ _ same => by cases same) fun _ same => (by cases same), stack⟩
  cases made with
  | clone owner =>
    simp only [call] at called
    split at called
    · cases called
      exact same rfl rfl rfl
    · cases called
  | drop owner =>
    rw [call] at called
    by_cases kept : (if s.stack.any (Activity.keeps .caller owner) then 1 else 0) < s.handles owner
    · rw [if_pos kept] at called
      cases called
      obtain ⟨news, event, turn, after, other⟩ := @turn_release rest
        { s with handles := Function.update s.handles owner (s.handles owner - 1) } function stack owner
      exact ⟨news, event, turn.of_same rfl rfl other, after⟩
    · rw [if_neg kept] at called
      cases called
  | new =>
    cases called
    exact create _
  | child owner =>
    simp only [call] at called
    split at called
    · cases called
      exact create _
    · cases called
  | current owner =>
    cases called
    exact same rfl rfl rfl
  | onCleanup =>
    cases called
    unfold onCleanup
    split
    next owner current =>
      refine ⟨_, some (.registered owner s.log.length), turn_of_more rfl rfl
        (fun _ same => (Option.some.inj same).symm) trivial ?_ fun _ same => (by cases same), stack⟩
      intro other f same
      cases same
      exact (Option.filter_eq_some_iff.mp current).2
    next => exact same rfl rfl rfl
  | register =>
    cases called
    unfold register
    split
    next owner _ =>
      exact ⟨_, some (.item owner s.log.length), turn_of_more rfl rfl
        (fun _ same => (Option.some.inj same).symm) trivial (fun _ _ same => by cases same)
        fun _ same => (by cases same), stack⟩
    next => exact same rfl rfl rfl
  | cleanup owner =>
    simp only [call] at called
    split at called
    · cases called
      exact ⟨_, _, turn_begin s .caller owner, congrArg (_ :: ·) stack⟩
    · cases called
  | return_ =>
    cases called
    refine ⟨[], function.map .returned, turn_of_plain rfl ?_ ?_ rfl ?_ trivial ?_ ?_ ?_, rfl⟩
    · cases function <;> rfl
    · intro thing same
      cases function <;> cases same
    · intro activities f ahead
      rcases ahead_cons.mp ahead with has | ahead
      · left
        have running : function = some f := has
        rw [running]
        rfl
      · exact .inr ahead
    · cases function <;> trivial
    · intro other f same
      cases function <;> cases same
    · intro other same
      cases function <;> cases same

/-- An owner that nothing keeps has no lists: it was dropped. -/
def Buried (s : State) : Prop :=
  ∀ owner, s.alive owner = false → s.owners owner = OwnerInner.default

section Resume

variable {holder : Holder} {children cleanups nodes : List ℕ}

theorem turn_child {child : ℕ} (buried : Buried s)
    (stack : s.stack = .cleaning ⟨holder, owner, child :: children, cleanups, nodes⟩ :: rest) :
    ∃ news event, Turn s (s.resume ⟨holder, owner, child :: children, cleanups, nodes⟩ rest)
      (.cleaning ⟨holder, owner, child :: children, cleanups, nodes⟩) news event ∧
      (s.resume ⟨holder, owner, child :: children, cleanups, nodes⟩ rest).stack = news ++ rest := by
  let left : Cleaning := ⟨holder, owner, children, cleanups, nodes⟩
  let s₁ : State := { s with stack := .cleaning left :: rest }
  have kept : s₁.alive child = s.alive child := by
    unfold alive
    rw [stack]
    rfl
  have passed : ∀ {activities : List Activity} {f : ℕ},
      Ahead s.owners (.cleaning ⟨holder, owner, child :: children, cleanups, nodes⟩ :: activities) f →
        Under s.owners child f ∨ Ahead s.owners (.cleaning left :: activities) f := by
    intro activities f ahead
    rcases ahead_cons.mp ahead with (own | ⟨other, there, under⟩) | ahead
    · exact .inr (ahead_cons.mpr (.inl (.inl own)))
    · rcases List.mem_cons.mp there with rfl | there
      · exact .inl under
      · exact .inr (ahead_cons.mpr (.inl (.inr ⟨other, there, under⟩)))
    · exact .inr (ahead_cons.mpr (.inr ahead))
  have goes : ∀ {above : List Activity} {event : Option Event} (c : Cleaning),
      Activity.cleaning ⟨holder, owner, child :: children, cleanups, nodes⟩ = .cleaning c →
        Works c (above ++ [.cleaning left]) event := by
    intro above event c same
    cases same
    exact .goes above left rfl rfl (List.Subset.refl _) (fun _ => .inl) fun _ => .inl
  have result : s.resume ⟨holder, owner, child :: children, cleanups, nodes⟩ rest =
      if s₁.alive child then s₁.begin_ .traversal child else s₁ := rfl
  rw [result, kept]
  cases lives : s.alive child with
  | true =>
    refine ⟨[.cleaning (s₁.taken .traversal child), .cleaning left], some (.begun child),
      ⟨rfl, rfl, fun _ same => (by cases same), ?_, fun activities f ahead => .inr ?_, @goes [_] _,
        fun other same => ?_, fun _ same => (by cases same), fun _ same => (by cases same),
        fun _ _ same => (by cases same), fun _ same => (by cases same)⟩, rfl⟩
    · simp [Activity.things, Event.spent, Event.takes, OwnerInner.things, State.taken, left, s₁]
    · rcases passed ahead with under | ahead
      · obtain ⟨activity, there, has⟩ := ahead_taken s₁ .traversal under
        exact ahead_cons.mpr (.inl (List.mem_singleton.mp there ▸ has))
      · exact ahead_begin s₁ .traversal child ahead
    · cases same
      exact ⟨.traversal, _, rfl, fun f under => ahead_taken s₁ .traversal under⟩
  | false =>
    refine ⟨[.cleaning left], none,
      ⟨rfl, rfl, fun _ same => (by cases same), ?_, fun activities f ahead => .inr ?_, @goes [] _,
        fun _ same => (by cases same), fun _ same => (by cases same), fun _ same => (by cases same),
        fun _ _ same => (by cases same), fun _ same => (by cases same)⟩, rfl⟩
    · simp [Activity.things, left]
    rcases passed ahead with under | ahead
    · exact absurd under (not_under_default (buried child lives))
    · exact ahead

theorem turn_cleanup {cleanup : ℕ} :
    Turn s (s.resume ⟨holder, owner, [], cleanup :: cleanups, nodes⟩ rest)
      (.cleaning ⟨holder, owner, [], cleanup :: cleanups, nodes⟩)
      [.code (some cleanup), .cleaning ⟨holder, owner, [], cleanups, nodes⟩] (some (.called cleanup)) where
  log := rfl
  owners := rfl
  given _ same := by cases same
  things := by
    simpa only [Activity.things, Event.spent, Event.takes, Option.toList, List.flatMap_cons, List.flatMap_nil,
      List.append_nil, List.nil_append, List.cons_append] using
      List.perm_append_singleton cleanup (cleanups ++ nodes)
  ahead activities f ahead := by
    right
    rcases ahead_cons.mp ahead with (own | ⟨other, there, -⟩) | ahead
    · rcases List.mem_cons.mp own with rfl | own
      · exact ahead_cons.mpr (.inl rfl)
      · exact ahead_cons.mpr (.inr (ahead_cons.mpr (.inl (.inl own))))
    · cases there
    · exact ahead_cons.mpr (.inr (ahead_cons.mpr (.inr ahead)))
  works c same := by
    cases same
    refine .goes [_] _ rfl rfl (List.subset_cons_self _ _) (fun f mem => ?_) fun _ => .inl
    rcases List.mem_cons.mp mem with rfl | mem
    · exact .inr rfl
    · exact .inl mem
  begun _ same := by cases same
  called f same := by
    cases same
    exact ⟨_, rfl, rfl, List.mem_cons_self⟩
  disposed _ same := by cases same
  registered _ _ same := by cases same
  dropped _ same := by cases same

theorem turn_nodes {node : ℕ} :
    Turn s (s.resume ⟨holder, owner, [], [], node :: nodes⟩ rest)
      (.cleaning ⟨holder, owner, [], [], node :: nodes⟩)
      [.code none, .cleaning ⟨holder, owner, [], [], []⟩] (some (.disposed (node :: nodes))) where
  log := rfl
  owners := rfl
  given _ same := by cases same
  things := by simp [Activity.things, Event.spent, Event.takes]
  ahead activities f ahead := by
    right
    rcases ahead_cons.mp ahead with (own | ⟨other, there, -⟩) | ahead
    · cases own
    · cases there
    · exact ahead_cons.mpr (.inr (ahead_cons.mpr (.inr ahead)))
  works c same := by
    cases same
    exact .goes [_] _ rfl rfl (List.Subset.refl _) (fun _ => .inl) fun n mem => .inr ⟨_, rfl, mem⟩
  begun _ same := by cases same
  called _ same := by cases same
  disposed _ same := by
    cases same
    exact ⟨_, rfl, rfl, rfl, rfl⟩
  registered _ _ same := by cases same
  dropped _ same := by cases same

theorem turn_end : ∃ news event,
    Turn s (s.resume ⟨holder, owner, [], [], []⟩ rest) (.cleaning ⟨holder, owner, [], [], []⟩) news event ∧
      (s.resume ⟨holder, owner, [], [], []⟩ rest).stack = news ++ rest := by
  have ended : ∀ {activities : List Activity} {f : ℕ},
      Ahead s.owners (.cleaning ⟨holder, owner, [], [], []⟩ :: activities) f →
        Ahead s.owners activities f := by
    intro activities f ahead
    rcases ahead_cons.mp ahead with (own | ⟨other, there, -⟩) | ahead
    · cases own
    · cases there
    · exact ahead
  have idle : Idle (.cleaning ⟨holder, owner, [], [], []⟩) := ⟨rfl, rfl, rfl⟩
  cases holder with
  | caller => exact ⟨[], none, turn_of_plain rfl rfl (fun _ same => by cases same) rfl
      (fun _ _ ahead => .inr (ended ahead)) idle trivial (fun _ _ same => by cases same)
      fun _ same => (by cases same), rfl⟩
  | nobody =>
    refine ⟨[.code none], some (.dropped owner), turn_of_plain rfl rfl (fun _ same => by cases same) rfl
      (fun _ _ ahead => .inr (ahead_cons.mpr (.inr (ended ahead)))) idle trivial
      (fun _ _ same => by cases same) fun other same => ?_, rfl⟩
    cases same
    exact ⟨_, rfl, rfl, rfl, rfl⟩
  | traversal =>
    let s₁ : State := { s with stack := rest }
    have result : s.resume ⟨.traversal, owner, [], [], []⟩ rest = s₁.release owner := rfl
    rw [result, release]
    split
    next => exact ⟨[], none, turn_of_plain rfl rfl (fun _ same => by cases same) rfl
      (fun _ _ ahead => .inr (ended ahead)) idle trivial (fun _ _ same => by cases same)
      fun _ same => (by cases same), rfl⟩
    next =>
      refine ⟨[.cleaning (s₁.taken .nobody owner)], some (.begun owner),
        ⟨rfl, rfl, fun _ same => (by cases same), ?_,
          fun activities f ahead => .inr (ahead_begin s₁ .nobody owner (ended ahead)), works_of_idle idle,
          fun other same => ?_, fun _ same => (by cases same), fun _ same => (by cases same),
          fun _ _ same => (by cases same), fun _ same => (by cases same)⟩, rfl⟩
      · simp [Activity.things, Event.spent, Event.takes, OwnerInner.things, State.taken, s₁]
      · cases same
        exact ⟨.nobody, _, rfl, fun f under => ahead_taken s₁ .nobody under⟩

end Resume

/-- What a step does. -/
theorem turn_of_step {made : Call} (buried : Buried s) (stepped : step s made = some s') :
    ∃ top rest news event, s.stack = top :: rest ∧ s'.stack = news ++ rest ∧ Turn s s' top news event := by
  unfold step at stepped
  match stack : s.stack with
  | [] =>
    rw [stack] at stepped
    cases stepped
  | .code function :: rest =>
    rw [stack] at stepped
    obtain ⟨news, event, turn, after⟩ := turn_of_call stack stepped
    exact ⟨_, rest, news, event, rfl, after, turn⟩
  | .cleaning ⟨holder, owner, children, cleanups, nodes⟩ :: rest =>
    rw [stack] at stepped
    cases stepped
    have turn : ∃ news event, Turn s (s.resume ⟨holder, owner, children, cleanups, nodes⟩ rest)
        (.cleaning ⟨holder, owner, children, cleanups, nodes⟩) news event ∧
        (s.resume ⟨holder, owner, children, cleanups, nodes⟩ rest).stack = news ++ rest := by
      match children, cleanups, nodes with
      | _ :: _, _, _ => exact turn_child buried stack
      | [], _ :: _, _ => exact ⟨_, _, turn_cleanup, rfl⟩
      | [], [], _ :: _ => exact ⟨_, _, turn_nodes, rfl⟩
      | [], [], [] => exact turn_end
    obtain ⟨news, event, turn, after⟩ := turn
    exact ⟨_, rest, news, event, rfl, after, turn⟩

end Halyard.Owner.Cleanup
