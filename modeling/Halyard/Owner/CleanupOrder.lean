import Halyard.Holdings
import Halyard.Owner.Handles

/-!
# The order of cleanup functions

* `recorded_of_turn`: the lists of the owners are what they were given since they were last cleaned up.
* `settled_of_turn`: no cleanup function and no arena item is in two places.
* `tracks_of_turn`: a cleaning up that was begun has dealt with what it should, or will come to it.
* `cleanups_in_order`: what a run does with the cleanup functions.
* `overtaken`: a function that a cleaning up in progress has taken is not waited for.
-/

namespace Halyard.Owner.Cleanup

open State

variable {s s' : State} {top : Activity} {news rest : List Activity} {event : Option Event}
  {owner function : ℕ}

/-! ## The lists -/

/-- The lists of the owners are what they were given since they were last cleaned up. -/
def Recorded (s : State) : Prop :=
  ∀ owner, (s.owners owner).children = childrenSince owner s.log ∧
    (s.owners owner).cleanups = cleanupsSince owner s.log ∧ (s.owners owner).nodes = nodesSince owner s.log

theorem recorded_of_turn (turn : Turn s s' top news event) (recorded : Recorded s) : Recorded s' := by
  intro o
  obtain ⟨children, cleanups, nodes⟩ := recorded o
  rw [turn.owners, turn.log]
  cases event with
  | none => exact ⟨children, cleanups, nodes⟩
  | some event =>
    change (event.apply s.owners o).children = childrenSince o (event :: s.log) ∧
      (event.apply s.owners o).cleanups = cleanupsSince o (event :: s.log) ∧
      (event.apply s.owners o).nodes = nodesSince o (event :: s.log)
    rw [childrenSince_cons, cleanupsSince_cons, nodesSince_cons, ← children, ← cleanups, ← nodes]
    cases event with
    | created other child =>
      by_cases same : other = o
      · subst same
        simp [Event.apply, childOf, functionOf, nodeOf]
      · simp [Event.apply, childOf, functionOf, nodeOf, same, Function.update_of_ne (Ne.symm same)]
    | registered other f =>
      by_cases same : other = o
      · subst same
        simp [Event.apply, childOf, functionOf, nodeOf]
      · simp [Event.apply, childOf, functionOf, nodeOf, same, Function.update_of_ne (Ne.symm same)]
    | item other node =>
      by_cases same : other = o
      · subst same
        simp [Event.apply, childOf, functionOf, nodeOf]
      · simp [Event.apply, childOf, functionOf, nodeOf, same, Function.update_of_ne (Ne.symm same)]
    | begun other =>
      by_cases same : other = o
      · subst same
        simp [Event.apply, OwnerInner.default]
      · simp [Event.apply, childOf, functionOf, nodeOf, same, Function.update_of_ne (Ne.symm same)]
    | called f => simp [Event.apply, childOf, functionOf, nodeOf]
    | returned f => simp [Event.apply, childOf, functionOf, nodeOf]
    | disposed nodes => simp [Event.apply, childOf, functionOf, nodeOf]
    | dropped other => simp [Event.apply, childOf, functionOf, nodeOf]

/-! ## The numbers -/

/-- A cleanup function or an arena item has the number of the events before it was registered. -/
def Numbered (log : List Event) : Prop :=
  ∀ later event earlier thing, log = later ++ event :: earlier → event.given = some thing →
    thing = earlier.length

theorem numbered_of_turn (turn : Turn s s' top news event) (numbered : Numbered s.log) : Numbered s'.log := by
  intro later registered earlier thing split given
  rw [turn.log] at split
  cases event with
  | none => exact numbered later registered earlier thing split given
  | some event =>
    cases later with
    | nil =>
      obtain ⟨rfl, rfl⟩ := List.cons.inj split
      exact turn.given thing given
    | cons last later => exact numbered later registered earlier thing (List.cons.inj split).2 given

/-- A function is registered with one owner. -/
theorem Numbered.unique {log : List Event} {other : ℕ} (numbered : Numbered log)
    (first : .registered owner function ∈ log) (second : .registered other function ∈ log) :
    owner = other := by
  obtain ⟨later, earlier, split⟩ := List.append_of_mem first
  obtain ⟨later', earlier', split'⟩ := List.append_of_mem second
  have length := (numbered later _ earlier function split rfl).symm.trans
    (numbered later' _ earlier' function split' rfl)
  have parts := List.append_inj_right' (split.symm.trans split') (congrArg (· + 1) length)
  cases (List.cons.inj parts).1
  rfl

theorem mem_of_mem_cleanupsSince {log : List Event} (mem : function ∈ cleanupsSince owner log) :
    .registered owner function ∈ log := by
  induction log with
  | nil => cases mem
  | cons event log ih =>
    rw [cleanupsSince_cons] at mem
    split at mem
    next => cases mem
    next =>
      rcases List.mem_append.mp mem with old | new
      · exact List.mem_cons_of_mem _ (ih old)
      · cases event with
        | registered other f =>
          have given : function ∈ (if other = owner then some f else none).toList := new
          split at given
          next same =>
            rw [same, List.mem_singleton.mp given]
            exact List.mem_cons_self
          next => cases given
        | _ => cases new

/-! ## The places -/

/-- The functions and the arena items that have been taken. -/
def State.used (s : State) : List ℕ :=
  s.stack.flatMap Activity.things ++ s.log.flatMap Event.spent

/-- No function and no arena item is in two places. -/
def Settled (s : State) : Prop :=
  Holdings s.used (fun owner => (s.owners owner).things) s.log.length

theorem used_of_turn (turn : Turn s s' top news event) (stack : s.stack = top :: rest)
    (stack' : s'.stack = news ++ rest) :
    s'.used.Perm (event.toList.flatMap (Event.takes s.owners) ++ s.used) := by
  have things := turn.things.append_right (rest.flatMap Activity.things ++ s.log.flatMap Event.spent)
  unfold State.used
  rw [stack, stack', turn.log, List.flatMap_append, List.flatMap_append, List.flatMap_cons]
  simp only [List.append_assoc] at things ⊢
  refine List.Perm.trans ?_ things
  refine List.Perm.append_left _ ?_
  rw [← List.append_assoc, ← List.append_assoc]
  exact List.perm_append_comm.append_right _

theorem things_update (owners : ℕ → OwnerInner) (owner : ℕ) (inner : OwnerInner) :
    (fun o => (Function.update owners owner inner o).things) =
      Function.update (fun o => (owners o).things) owner inner.things :=
  funext (Function.apply_update (fun _ => OwnerInner.things) owners owner inner)

/-- A step leaves no function and no arena item in two places. -/
theorem settled_of_turn (turn : Turn s s' top news event) (stack : s.stack = top :: rest)
    (stack' : s'.stack = news ++ rest) (settled : Settled s) : Settled s' := by
  have used := used_of_turn turn stack stack'
  unfold Settled
  rw [turn.owners, turn.log]
  cases event with
  | none => exact settled.perm used le_rfl
  | some event =>
    have later : s.log.length ≤ ((some event).toList ++ s.log).length := Nat.le_succ _
    change Holdings _ (fun o => (event.apply s.owners o).things) _
    cases event with
    | created other child =>
      rw [Event.apply, things_update]
      change Holdings _ (Function.update _ other (s.owners other).things) _
      rw [Function.update_eq_self other fun o => (s.owners o).things]
      exact settled.perm used later
    | registered other f =>
      rw [Event.apply, things_update]
      refine settled.give used ?_
      rw [turn.given f rfl, OwnerInner.things, List.append_assoc]
      exact List.perm_middle
    | item other node =>
      rw [Event.apply, things_update]
      refine settled.give used ?_
      rw [turn.given node rfl, OwnerInner.things, ← List.append_assoc]
      exact List.perm_append_singleton _ _
    | begun other =>
      rw [Event.apply, things_update]
      refine settled.take (used.trans ?_) later
      rw [Option.toList, List.flatMap_singleton]
      exact .refl _
    | called f => exact settled.perm used later
    | returned f => exact settled.perm used later
    | disposed nodes => exact settled.perm used later
    | dropped other => exact settled.perm used later

/-! ## A cleaning up in progress -/

/-- The children lead from an owner to another, each created since the one above it was last cleaned up. -/
def Leads (log : List Event) : ℕ → ℕ → Prop :=
  Relation.ReflTransGen fun above child => child ∈ childrenSince above log

/-- The function is registered with an owner, or with one that its children lead to. -/
def Within (owner : ℕ) (log : List Event) (function : ℕ) : Prop :=
  ∃ last, Leads log owner last ∧ function ∈ cleanupsSince last log

/-- The function is registered with an owner that the children of the given one lead to. -/
def Below (owner : ℕ) (log : List Event) (function : ℕ) : Prop :=
  ∃ last, last ≠ owner ∧ Leads log owner last ∧ function ∈ cleanupsSince last log

theorem Below.within {log : List Event} (below : Below owner log function) : Within owner log function := by
  obtain ⟨last, -, leads, mem⟩ := below
  exact ⟨last, leads, mem⟩

theorem Recorded.under (recorded : Recorded s) (within : Within owner s.log function) :
    Under s.owners owner function := by
  obtain ⟨last, leads, mem⟩ := within
  refine ⟨last, Relation.ReflTransGen.mono (fun above child there => ?_) _ _ leads, ?_⟩
  · rw [(recorded above).1]
    exact there
  · rw [(recorded last).2.1]
    exact mem

/-- How far the cleaning up of an owner is that was begun after `earlier` had happened. -/
inductive Tracks (s : State) (mid : List Event) (owner : ℕ) (earlier : List Event) : Prop
  | progress (above : List Activity) (c : Cleaning) (below : List Activity) :
    s.stack = above ++ .cleaning c :: below → c.owner = owner → c.cleanups ⊆ cleanupsSince owner earlier →
    (∀ f ∈ cleanupsSince owner earlier, f ∈ c.cleanups ∨ .called f ∈ mid) →
    (∀ node ∈ nodesSince owner earlier, node ∈ c.nodes ∨ ∃ nodes, .disposed nodes ∈ mid ∧ node ∈ nodes) →
    (∀ f, Within owner earlier f → .returned f ∈ mid ∨ Ahead s.owners (above ++ [.cleaning c]) f) →
    Tracks s mid owner earlier
  | done : (∀ f ∈ cleanupsSince owner earlier, .called f ∈ mid) →
    (∀ node ∈ nodesSince owner earlier, ∃ nodes, .disposed nodes ∈ mid ∧ node ∈ nodes) →
    (∀ f, Within owner earlier f → .returned f ∈ mid) → Tracks s mid owner earlier

/-- Nothing is ahead of a cleaning up that has only its own functions left. -/
theorem ahead_own {owners : ℕ → OwnerInner} {c : Cleaning} (none : c.children = [])
    (ahead : Ahead owners [.cleaning c] function) : function ∈ c.cleanups := by
  obtain ⟨activity, mem, has⟩ := ahead
  rw [List.mem_singleton.mp mem] at has
  rcases has with own | ⟨child, there, -⟩
  · exact own
  · rw [none] at there
    cases there

theorem tracks_of_turn {mid earlier : List Event} (turn : Turn s s' top news event)
    (stack : s.stack = top :: rest) (stack' : s'.stack = news ++ rest) (tracks : Tracks s mid owner earlier) :
    Tracks s' (event.toList ++ mid) owner earlier := by
  have old : ∀ {e : Event}, e ∈ mid → e ∈ event.toList ++ mid := List.mem_append_right _
  have new : ∀ {e : Event}, event = some e → e ∈ event.toList ++ mid := fun same =>
    List.mem_append_left _ (same ▸ List.mem_singleton.mpr rfl)
  cases tracks with
  | done called disposed returned =>
    refine .done (fun f mem => old (called f mem)) (fun node mem => ?_) fun f within => old (returned f within)
    obtain ⟨nodes, there, mem⟩ := disposed node mem
    exact ⟨nodes, old there, mem⟩
  | progress above c below split whose own called disposed returned =>
    have calls : ∀ {functions : List ℕ}, (∀ f ∈ c.cleanups, f ∈ functions ∨ event = some (.called f)) →
        ∀ f ∈ cleanupsSince owner earlier, f ∈ functions ∨ .called f ∈ event.toList ++ mid := by
      intro functions goes f mem
      rcases called f mem with mem | there
      · exact (goes f mem).imp_right new
      · exact .inr (old there)
    have disposes : ∀ {left : List ℕ},
        (∀ node ∈ c.nodes, node ∈ left ∨ ∃ nodes, event = some (.disposed nodes) ∧ node ∈ nodes) →
        ∀ node ∈ nodesSince owner earlier,
          node ∈ left ∨ ∃ nodes, .disposed nodes ∈ event.toList ++ mid ∧ node ∈ nodes := by
      intro left goes node mem
      rcases disposed node mem with mem | ⟨nodes, there, mem⟩
      · exact (goes node mem).imp_right fun ⟨nodes, same, mem⟩ => ⟨nodes, new same, mem⟩
      · exact .inr ⟨nodes, old there, mem⟩
    rw [stack] at split
    cases above with
    | nil =>
      obtain ⟨rfl, rfl⟩ := List.cons.inj split
      cases turn.works c rfl with
      | goes above left replaced same fewer functions nodes =>
        refine .progress above left rest ?_ (same.trans whose) (List.Subset.trans fewer own) (calls functions)
          (disposes nodes) fun f within => ?_
        · rw [stack', replaced, List.append_assoc]
          rfl
        · rcases returned f within with there | ahead
          · exact .inl (old there)
          · rcases turn.ahead [] f ahead with same | ahead
            · exact .inl (new same)
            · rw [List.append_nil, replaced] at ahead
              exact .inr ahead
      | ends children cleanups nodes =>
        refine .done (fun f mem => ?_) (fun node mem => ?_) fun f within => ?_
        · rcases called f mem with mem | there
          · rw [cleanups] at mem
            cases mem
          · exact old there
        · rcases disposed node mem with mem | ⟨nodes, there, mem⟩
          · rw [nodes] at mem
            cases mem
          · exact ⟨nodes, old there, mem⟩
        · rcases returned f within with there | ahead
          · exact old there
          · have mem := ahead_own children ahead
            rw [cleanups] at mem
            cases mem
    | cons first above =>
      obtain ⟨rfl, rfl⟩ := List.cons.inj split
      refine .progress (news ++ above) c below ?_ whose own (calls fun _ => .inl) (disposes fun _ => .inl)
        fun f within => ?_
      · rw [stack', List.append_assoc]
        rfl
      · rcases returned f within with there | ahead
        · exact .inl (old there)
        · rcases turn.ahead (above ++ [Activity.cleaning c]) f ahead with same | ahead
          · exact .inl (new same)
          · rw [← List.append_assoc] at ahead
            exact .inr ahead

/-- A cleaning up that is begun comes to all that it should. -/
theorem tracks_begun (turn : Turn s s' top news (some (.begun owner))) (stack' : s'.stack = news ++ rest)
    (recorded : Recorded s) : Tracks s' [] owner s.log := by
  obtain ⟨holder, below, replaced, ahead⟩ := turn.begun owner rfl
  obtain ⟨-, cleanups, nodes⟩ := recorded owner
  refine .progress [] (s.taken holder owner) (below ++ rest) ?_ rfl ?_ (fun f mem => .inl ?_)
    (fun node mem => .inl ?_) fun f within => .inr (ahead f (recorded.under within))
  · rw [stack', replaced]
    rfl
  · exact cleanups ▸ List.Subset.refl _
  · exact (show f ∈ (s.owners owner).cleanups from cleanups ▸ mem)
  · exact (show node ∈ (s.owners owner).nodes from nodes ▸ mem)

/-- Each cleaning up that was ever begun is tracked. -/
def Tracked (s : State) : Prop :=
  ∀ mid owner earlier, s.log = mid ++ .begun owner :: earlier → Tracks s mid owner earlier

theorem tracked_of_turn (turn : Turn s s' top news event) (stack : s.stack = top :: rest)
    (stack' : s'.stack = news ++ rest) (recorded : Recorded s) (tracked : Tracked s) : Tracked s' := by
  intro mid owner earlier split
  rw [turn.log] at split
  cases event with
  | none => exact tracks_of_turn turn stack stack' (tracked mid owner earlier split)
  | some event =>
    cases mid with
    | nil =>
      obtain ⟨rfl, rfl⟩ := List.cons.inj split
      exact tracks_begun turn stack' recorded
    | cons last mid =>
      obtain ⟨rfl, older⟩ := List.cons.inj split
      exact tracks_of_turn turn stack stack' (tracked mid owner earlier older)

/-! ## The order -/

theorem once_of_nodup {log : List Event} (nodup : (log.flatMap Event.spent).Nodup) :
    log.count (.called function) ≤ 1 := by
  refine le_trans ?_ (List.nodup_iff_count_le_one.mp nodup function)
  clear nodup
  induction log with
  | nil => exact le_rfl
  | cons event log ih =>
    rw [List.count_cons, List.flatMap_cons, List.count_append]
    split
    next same =>
      rw [eq_of_beq same, Event.spent, List.count_singleton_self]
      omega
    next => omega

/-- What is left to the cleaning up on top has not been dealt with. -/
theorem not_spent {c : Cleaning} {thing : ℕ} (settled : Settled s) (stack : s.stack = .cleaning c :: rest)
    (mem : thing ∈ (Activity.cleaning c).things) {e : Event} (there : e ∈ s.log) : thing ∉ e.spent := by
  intro spent
  have nodup := List.nodup_append.mp (List.nodup_append.mp (settled.nodup 0)).1
  refine nodup.2.2 thing ?_ thing (List.mem_flatMap.mpr ⟨e, there, spent⟩) rfl
  exact List.mem_flatMap.mpr ⟨_, stack ▸ List.mem_cons_self, mem⟩

/-- What is left to the cleaning up on top is left to no other. -/
theorem top_of_shared {c other : Cleaning} {thing : ℕ} {above below : List Activity} (settled : Settled s)
    (stack : s.stack = .cleaning c :: rest) (split : s.stack = above ++ .cleaning other :: below)
    (mem : thing ∈ (Activity.cleaning c).things) (mem' : thing ∈ (Activity.cleaning other).things) :
    above = [] ∧ other = c := by
  cases above with
  | nil =>
    obtain ⟨same, -⟩ := List.cons.inj (split.symm.trans stack)
    exact ⟨rfl, Activity.cleaning.inj same⟩
  | cons first above =>
    have nodup := (List.nodup_append.mp (List.nodup_append.mp (settled.nodup 0)).1).1
    obtain ⟨-, rfl⟩ := List.cons.inj (stack.symm.trans split)
    rw [stack, List.flatMap_cons] at nodup
    have there : thing ∈ (above ++ .cleaning other :: below).flatMap Activity.things :=
      List.mem_flatMap.mpr ⟨_, List.mem_append_right _ List.mem_cons_self, mem'⟩
    exact absurd rfl ((List.nodup_append.mp nodup).2.2 thing mem thing there)

/-- The functions of the owners below an owner return before its own are called, and all of them before
its arena items are disposed. -/
structure Ordered (log : List Event) : Prop where
  below : ∀ later mid earlier owner own f, log = later ++ .called own :: (mid ++ .begun owner :: earlier) →
    own ∈ cleanupsSince owner earlier → Below owner earlier f → .returned f ∈ mid
  items : ∀ later mid earlier owner nodes node f,
    log = later ++ .disposed nodes :: (mid ++ .begun owner :: earlier) → node ∈ nodes →
    node ∈ nodesSince owner earlier → Within owner earlier f → .returned f ∈ mid

theorem ordered_of_turn (turn : Turn s s' top news event) (stack : s.stack = top :: rest)
    (settled : Settled s) (numbered : Numbered s.log) (tracked : Tracked s) (ordered : Ordered s.log) :
    Ordered s'.log := by
  rw [turn.log]
  cases event with
  | none => exact ordered
  | some event =>
    refine ⟨fun later mid earlier o own f split mine below => ?_,
      fun later mid earlier o nodes node f split mem mine within => ?_⟩
    · cases later with
      | cons last later => exact ordered.below later mid earlier o own f (List.cons.inj split).2 mine below
      | nil =>
        obtain ⟨rfl, whole⟩ := List.cons.inj split
        have whole : s.log = mid ++ .begun o :: earlier := whole
        obtain ⟨c, rfl, none, left⟩ := turn.called own rfl
        have thing : own ∈ (Activity.cleaning c).things := List.mem_append_left _ left
        have fresh : .called own ∉ mid := fun there => not_spent settled stack thing
          (whole ▸ List.mem_append_left _ there) (List.mem_singleton.mpr rfl)
        cases tracked mid o earlier whole with
        | done called _ _ => exact absurd (called own mine) fresh
        | progress above c' below' split' whose owns called disposed returned =>
          have left' := (called own mine).resolve_right fresh
          obtain ⟨rfl, rfl⟩ := top_of_shared settled stack split' thing (List.mem_append_left _ left')
          refine (returned f below.within).resolve_right fun ahead => ?_
          obtain ⟨last, other, -, there⟩ := below
          have registered : ∀ {o : ℕ}, f ∈ cleanupsSince o earlier → .registered o f ∈ s.log := fun mem => by
            rw [whole]
            exact List.mem_append_right _ (List.mem_cons_of_mem _ (mem_of_mem_cleanupsSince mem))
          exact other (numbered.unique (registered there) (registered (owns (ahead_own none ahead))))
    · cases later with
      | cons last later =>
        exact ordered.items later mid earlier o nodes node f (List.cons.inj split).2 mem mine within
      | nil =>
        obtain ⟨rfl, whole⟩ := List.cons.inj split
        have whole : s.log = mid ++ .begun o :: earlier := whole
        obtain ⟨c, rfl, none, nothing, rfl⟩ := turn.disposed nodes rfl
        have thing : node ∈ (Activity.cleaning c).things := List.mem_append_right _ mem
        have fresh : ¬∃ nodes, .disposed nodes ∈ mid ∧ node ∈ nodes := by
          rintro ⟨nodes, there, mem⟩
          have there : .disposed nodes ∈ s.log := whole ▸ List.mem_append_left _ there
          exact not_spent settled stack thing there mem
        cases tracked mid o earlier whole with
        | done _ disposed _ => exact absurd (disposed node mine) fresh
        | progress above c' below' split' whose owns called disposed returned =>
          have left' := (disposed node mine).resolve_right fresh
          obtain ⟨rfl, rfl⟩ := top_of_shared settled stack split' thing (List.mem_append_right _ left')
          refine (returned f within).resolve_right fun ahead => ?_
          have own := ahead_own none ahead
          rw [nothing] at own
          cases own

/-! ## Runs -/

/-- A registered function was given to its owner since that was last cleaned up, or before some time that it
was cleaned up. -/
theorem registered_cases {log : List Event} (mem : .registered owner function ∈ log) :
    function ∈ cleanupsSince owner log ∨ ∃ mid earlier, log = mid ++ .begun owner :: earlier ∧
      function ∈ cleanupsSince owner earlier := by
  induction log with
  | nil => cases mem
  | cons event log ih =>
    rw [cleanupsSince_cons]
    rcases List.mem_cons.mp mem with rfl | mem
    · left
      rw [if_neg (by rintro ⟨⟩)]
      exact List.mem_append_right _ (by simp [functionOf])
    · rcases ih mem with now | ⟨mid, earlier, split, before⟩
      · split
        next same => exact .inr ⟨[], log, same ▸ rfl, now⟩
        next => exact .inl (List.mem_append_left _ now)
      · exact .inr ⟨event :: mid, earlier, congrArg (event :: ·) split, before⟩

/-- All functions of an owner have been called before its `Drop` is over. -/
def Told (log : List Event) : Prop :=
  ∀ later earlier owner f, log = later ++ .dropped owner :: earlier → .registered owner f ∈ log →
    .called f ∈ earlier

/-- No other cleaning up of an owner is in progress when it is dropped. -/
theorem alone_of_dropped {c other : Cleaning} {above below : List Activity} (kept : Kept s)
    (stack : s.stack = .cleaning c :: rest) (nobody : c.holder = .nobody)
    (split : s.stack = above ++ .cleaning other :: below) (same : other.owner = c.owner) : other = c := by
  cases above with
  | nil => exact Activity.cleaning.inj (List.cons.inj (split.symm.trans stack)).1
  | cons first above =>
    have below : rest = above ++ .cleaning other :: below := (List.cons.inj (stack.symm.trans split)).2
    subst below
    have own : (Activity.cleaning c).keeps .nobody c.owner = true := decide_eq_true ⟨nobody, rfl⟩
    have held : (Activity.cleaning other).keeps other.holder c.owner = true := decide_eq_true ⟨rfl, same⟩
    have one := kept.once c.owner
    rw [cleanings_cons stack, if_pos own] at one
    have dead : s.alive c.owner = false := by
      refine Bool.eq_false_iff.mpr fun lives => ?_
      have none := (kept.living c.owner lives).1
      rw [cleanings_cons stack, if_pos own] at none
      omega
    rw [dead_iff] at dead
    have there : ∀ {holder : Holder}, other.holder = holder →
        0 < (above ++ .cleaning other :: below).countP (Activity.keeps holder c.owner) := fun holds =>
      List.countP_pos_iff.mpr ⟨_, List.mem_append_right _ List.mem_cons_self, holds ▸ held⟩
    cases holds : other.holder with
    | caller =>
      have some_ := there holds
      have borrowed := kept.borrowed c.owner
      rw [cleanings_cons stack] at borrowed
      omega
    | traversal =>
      have some_ := there holds
      rw [cleanings_cons stack] at dead
      omega
    | nobody =>
      have some_ := there holds
      omega

theorem told_of_turn (turn : Turn s s' top news event) (stack : s.stack = top :: rest) (kept : Kept s)
    (recorded : Recorded s) (tracked : Tracked s) (told : Told s.log) : Told s'.log := by
  rw [turn.log]
  cases event with
  | none => exact told
  | some event =>
    intro later earlier o f split mem
    cases later with
    | nil =>
      obtain ⟨rfl, rfl⟩ := List.cons.inj split
      obtain ⟨c, rfl, nobody, rfl, none⟩ := turn.dropped o rfl
      have mem : .registered c.owner f ∈ s.log := by
        rcases List.mem_cons.mp mem with same | mem
        · cases same
        · exact mem
      change .called f ∈ s.log
      rcases registered_cases mem with now | ⟨mid, earlier, split, before⟩
      · have dead : s.alive c.owner = false := by
          refine Bool.eq_false_iff.mpr fun lives => ?_
          have nobodies := (kept.living c.owner lives).1
          have own : (Activity.cleaning c).keeps .nobody c.owner = true := decide_eq_true ⟨nobody, rfl⟩
          rw [cleanings_cons stack, if_pos own] at nobodies
          omega
        rw [← (recorded c.owner).2.1, kept.buried c.owner dead] at now
        cases now
      · cases tracked mid c.owner earlier split with
        | done called _ _ =>
          rw [split]
          exact List.mem_append_left _ (called f before)
        | progress above other below split' whose _ called _ _ =>
          rcases called f before with left | there
          · rw [alone_of_dropped kept stack nobody split' whose, none] at left
            cases left
          · rw [split]
            exact List.mem_append_left _ there
    | cons last later =>
      obtain ⟨rfl, older⟩ := List.cons.inj split
      have older : s.log = later ++ .dropped o :: earlier := older
      rcases List.mem_cons.mp mem with same | mem
      · have lives := turn.registered o f (congrArg some same.symm)
        have there : .dropped o ∈ s.log := older ▸ List.mem_append_right _ List.mem_cons_self
        exact absurd there (kept.living o lives).2
      · exact told later earlier o f older mem

/-- What holds in every state of a run. -/
structure Sound (s : State) : Prop where
  kept : Kept s
  recorded : Recorded s
  numbered : Numbered s.log
  settled : Settled s
  tracked : Tracked s
  ordered : Ordered s.log
  told : Told s.log

theorem sound_of_reached (reached : Reached s) : Sound s := by
  induction reached with
  | start =>
    have none : ∀ {later earlier : List Event} {event : Event}, [] ≠ later ++ event :: earlier :=
      fun same => List.append_ne_nil_of_right_ne_nil _ (List.cons_ne_nil _ _) same.symm
    refine ⟨kept_of_reached .start, fun _ => ⟨rfl, rfl, rfl⟩, fun _ _ _ _ split => absurd split none,
      ⟨fun _ => List.nodup_nil, fun _ _ _ mem => (by cases mem), fun _ _ mem => (by cases mem)⟩,
      fun _ _ _ split => absurd split none,
      ⟨fun _ _ _ _ _ _ split => absurd split none, fun _ _ _ _ _ _ _ split => absurd split none⟩,
      fun _ _ _ _ split => absurd split none⟩
  | step reached stepped sound =>
    obtain ⟨top, rest, news, event, stack, stack', turn⟩ := turn_of_step sound.kept.buried stepped
    exact ⟨kept_of_step sound.kept stepped, recorded_of_turn turn sound.recorded,
      numbered_of_turn turn sound.numbered, settled_of_turn turn stack stack' sound.settled,
      tracked_of_turn turn stack stack' sound.recorded sound.tracked,
      ordered_of_turn turn stack sound.settled sound.numbered sound.tracked sound.ordered,
      told_of_turn turn stack sound.kept sound.recorded sound.tracked sound.told⟩

/-- What a run does with the cleanup functions. -/
structure InOrder (s : State) : Prop where
  /-- A cleanup function is called once at most. -/
  once : ∀ owner f, .registered owner f ∈ s.log → s.log.count (.called f) ≤ 1
  /-- It has been called when the `Drop` of its owner is over. -/
  dropped : Told s.log
  order : Ordered s.log
  /-- A cleaning up that is not in progress any more has dealt with everything. -/
  finished : ∀ mid owner earlier, s.log = mid ++ .begun owner :: earlier →
    (∀ c, .cleaning c ∈ s.stack → c.owner ≠ owner) →
    (∀ f, Within owner earlier f → .returned f ∈ mid) ∧
      ∀ node ∈ nodesSince owner earlier, ∃ nodes, .disposed nodes ∈ mid ∧ node ∈ nodes

/-- In every run, each cleanup function runs once, and a cleaning up runs those below its owner first. -/
theorem cleanups_in_order (reached : Reached s) : InOrder s := by
  have sound := sound_of_reached reached
  refine ⟨fun owner f _ => ?_, sound.told, sound.ordered, fun mid owner earlier split over_ => ?_⟩
  · exact once_of_nodup (List.nodup_append.mp (List.nodup_append.mp (sound.settled.nodup 0)).1).2.1
  · cases sound.tracked mid owner earlier split with
    | done _ disposed returned => exact ⟨returned, disposed⟩
    | progress above c below stack whose =>
      exact absurd whose (over_ c (stack ▸ List.mem_append_right _ List.mem_cons_self))

/-- The calls, one after another. -/
def run : List Call → State → Option State
  | [], s => some s
  | made :: calls, s => (step s made).bind (run calls)

theorem reached_run {calls : List Call} {first last : State} (reached : Reached first)
    (ran : run calls first = some last) : Reached last := by
  induction calls generalizing first with
  | nil => exact Option.some.inj ran ▸ reached
  | cons made calls ih =>
    obtain ⟨next, stepped, ran⟩ := Option.bind_eq_some_iff.mp ran
    exact ih (.step reached stepped) ran

/-- A child is cleaned up, and its first function cleans up the owner.  (In a turn of a cleaning up it makes
no difference which call is given.) -/
def overtaking : List Call :=
  [.new, .child 0, .current (some 0), .onCleanup, .current (some 1), .onCleanup, .onCleanup, .cleanup 1,
    .new, .cleanup 0, .new, .new, .new]

theorem log_overtaking : (run overtaking .start).map State.log = some
    [.called 1, .begun 1, .begun 0, .called 2, .begun 1, .registered 1 3, .registered 1 2, .registered 0 1,
      .created 0 1] := by
  decide

theorem cleanups_in_order_overtaking : ∃ s, run overtaking .start = some s ∧ InOrder s := by
  obtain ⟨s, ran, -⟩ := Option.map_eq_some_iff.mp log_overtaking
  exact ⟨s, ran, cleanups_in_order (reached_run .start ran)⟩

/-- The owner's function is called when the second function of the child has still to be. -/
theorem overtaken : ¬∀ s, Reached s → ∀ later mid earlier owner own child f,
    s.log = later ++ .called own :: (mid ++ .begun owner :: earlier) → own ∈ cleanupsSince owner earlier →
    child ∈ childrenSince owner earlier → .registered child f ∈ earlier → .called f ∉ earlier →
    .returned f ∈ mid := by
  intro always
  obtain ⟨s, ran, log⟩ := Option.map_eq_some_iff.mp log_overtaking
  have returned := always s (reached_run .start ran) [] [.begun 1]
    [.called 2, .begun 1, .registered 1 3, .registered 1 2, .registered 0 1, .created 0 1] 0 1 1 3 log
    (by decide) (by decide) (by decide) (by decide)
  exact absurd returned (by decide)

end Halyard.Owner.Cleanup
