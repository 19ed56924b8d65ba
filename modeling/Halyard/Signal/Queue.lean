import Halyard.Signal.Alone
import Halyard.Signal.Ordered

/-!
# The queue of one thread's writes

* `Nesting`: the numbers of a thread's writes are `Ordered`.
* `step_nesting`: every step keeps that which hands in no write inside an update or guard that began while
  the signal was in use.
-/

namespace Halyard.Signal

variable {ι T : Type} [DecidableEq ι]
variable {me : ι} {sh sh' : Shared ι T} {th th' : Thread T}

/-- The numbers of the writes applied. -/
def Shared.applied (sh : Shared ι T) : List ℕ :=
  sh.commits.map fun commit => commit.2.id

def Nesting (sh : Shared ι T) (th : Thread T) : Prop :=
  Ordered sh.applied (th.queue.map Deferred.id) th.alive th.marked th.inside th.next

/-- Every update and guard that the step hands in a write inside of was started: it began with the signal
not in use. -/
def StartedAround (th : Thread T) (act : Act T) : Prop :=
  ∀ id ∈ th.handing act, ∀ u ∈ th.opened, u.1 < id → u.2 = true

omit [DecidableEq ι] in
theorem Nesting.start (v : T) : Nesting (aloneStart (ι := ι) v).1 (aloneStart (ι := ι) v).2 := by
  constructor <;> simp [aloneStart, Thread.start, Thread.queue, Thread.alive, Thread.marked, Shared.applied]

omit [DecidableEq ι] in
/-- The updates and guards around a write that is handed in were started. -/
theorem HandsIn.within {act : Act T} {write : Deferred T} {around : List (ℕ × Bool)}
    (marked : th'.marked ⊆ th.marked) (outside : StartedAround th act)
    (around_ : ∀ u ∈ around, u ∈ th'.opened ∧ u ∈ th.opened ∧ u.1 < write.id ∧ write.id ∈ th.handing act) :
    ∀ u ∈ around, u ∈ th'.marked ∧ (u.1, false) ∉ th'.marked := by
  intro u member
  obtain ⟨after, -, below, handing⟩ := around_ u member
  refine ⟨marked_of_opened after, fun also => ?_⟩
  exact absurd (outside _ handing _ (opened_of_marked (marked also)) below) (by simp)

omit [DecidableEq ι] in
/-- The next write of the queue is applied, by number. -/
theorem Shared.applied_apply (write : Deferred T) :
    (sh.apply me write).applied = sh.applied ++ [write.id] := by
  simp [Shared.applied, Shared.apply]

omit [DecidableEq ι] in
/-- A write with a new number comes last. -/
theorem Nesting.makes (n : Nesting sh th) {around : List (ℕ × Bool)} (marked : th'.marked ⊆ th.marked)
    (alive : th'.alive = th.alive)
    (within : ∀ u ∈ around, u ∈ th'.marked ∧ (u.1, false) ∉ th'.marked) :
    Ordered sh.applied (th.queue.map Deferred.id ++ [th.next]) th'.alive th'.marked
      (around.map (fun u => (u.1, th.next)) ++ th.inside) (th.next + 1) := by
  have fresh : th.next ∉ th'.alive := fun member => lt_irrefl _ (n.alive_lt _ (alive ▸ member))
  refine Ordered.handLast n ?_ (Nat.le_succ _) (Nat.lt_succ_self _) ?_ (alive ▸ n.nodup) fresh
    (fun u member => ⟨marked member, marked_alive member⟩) within fun p member => ?_
  · exact fun member => lt_irrefl _ (n.order_lt _ member)
  · intro other
    rw [alive]
    exact ⟨.inr, fun member => member.elim (fun is => is.1 ▸ is.2) id⟩
  · exact ⟨(n.inside_lt p member).1.ne, (n.inside_lt p member).2.ne⟩

omit [DecidableEq ι] in
/-- The write of an update or guard that was to be deferred comes last: none was handed in inside it. -/
theorem Nesting.defers (n : Nesting sh th) {id : ℕ} {around : List (ℕ × Bool)} (marked : th'.marked ⊆ th.marked)
    (alive : th.alive.Perm (id :: th'.alive)) (own : (id, false) ∈ th.marked)
    (within : ∀ u ∈ around, u ∈ th'.marked ∧ (u.1, false) ∉ th'.marked) :
    Ordered sh.applied (th.queue.map Deferred.id ++ [id]) th'.alive th'.marked
      (around.map (fun u => (u.1, id)) ++ th.inside) th.next := by
  have there : id ∈ th.alive := alive.mem_iff.mpr List.mem_cons_self
  have nodup := alive.nodup_iff.mp n.nodup
  rw [List.nodup_cons] at nodup
  refine Ordered.handLast n (n.apart _ there) le_rfl (n.alive_lt _ there) ?_ nodup.2 nodup.1
    (fun u member => ⟨marked member, marked_alive member⟩) within fun p member => ⟨?_, ?_⟩
  · intro other
    rw [alive.mem_iff, List.mem_cons]
    exact or_congr_left ⟨fun is => ⟨is, there⟩, fun is => is.1⟩
  · intro is
    exact n.started p member (is ▸ own)
  · intro is
    exact n.handed p member (is ▸ there)

omit [DecidableEq ι] in
theorem Effect.nesting {act : Act T} (effect : Effect me act sh th sh' th') (n : Nesting sh th)
    (outside : StartedAround th act) : Nesting sh' th' := by
  have applied (commits : sh'.commits = sh.commits) : sh'.applied = sh.applied := by
    rw [Shared.applied, Shared.applied, commits]
  unfold Nesting
  cases effect with
  | keeps quiet next queue alive marked =>
    rw [applied quiet.commits, quiet.inside, next, queue]
    exact Ordered.congr n (List.prefix_refl _) alive marked
  | drops quiet next queue alive marked =>
    rw [applied quiet.commits, quiet.inside, next]
    exact Ordered.congr n (queue.map _) alive marked
  | begins quiet next queue alive marked =>
    rw [applied quiet.commits, quiet.inside, next, queue]
    refine Ordered.begin n alive fun u member => (marked u member).imp_right fun is => ⟨is.1, fun first => ?_⟩
    exact (is.2 first).1
  | makes write hands id next queue alive =>
    obtain ⟨around, each, inside⟩ := hands.inside
    rw [applied hands.commits, next, queue, inside, List.map_append, List.map_singleton]
    have within := HandsIn.within hands.marked outside each
    rw [id]
    exact n.makes hands.marked alive within
  | defers write hands own next queue alive =>
    obtain ⟨around, each, inside⟩ := hands.inside
    rw [applied hands.commits, next, queue, inside, List.map_append, List.map_singleton]
    exact n.defers hands.marked alive own (HandsIn.within hands.marked outside each)
  | ends write hands own next queue alive =>
    obtain ⟨around, each, inside⟩ := hands.inside
    -- it is the first of those alive, so that nothing is around it
    have outermost : around = [] := by
      rw [List.eq_nil_iff_forall_not_mem]
      intro u member
      obtain ⟨-, opened, below, -⟩ := each u member
      exact Nat.not_le.mpr below (n.least _ own u.1 (marked_alive (marked_of_opened opened)))
    rw [applied hands.commits, next, queue, inside, outermost, List.map_cons]
    exact Ordered.handFirst n alive fun u member => ⟨hands.marked member, marked_alive member⟩
  | applies write shared none made inside next queue alive marked =>
    have first : Ordered sh.applied (write.id :: th'.queue.map Deferred.id) th.alive th.marked th.inside th.next := by
      rw [← List.map_cons, ← queue]
      exact n
    rw [shared, Shared.applied_apply, inside, next, alive, marked]
    exact first.apply none
  | notifies write shared is none idle made inside next queue alive marked =>
    have last := n.makes (List.Subset.refl _) rfl fun u member => absurd member List.not_mem_nil
    rw [idle] at last
    rw [shared, Shared.applied_apply, inside, next, queue, alive, marked, is]
    exact last.apply none

theorem step_nesting (n : Nesting sh th) (b : Balanced me sh th) {act : Act T} (outside : StartedAround th act)
    (moved : Signal.step me act sh th = some (sh', th')) : Nesting sh' th' :=
  (step_effect b moved).nesting n outside

omit [DecidableEq ι] in
/-- An applied write that was handed in inside an update or guard has that one's own write before it. -/
theorem Nesting.applied (n : Nesting sh th) {p : ℕ × ℕ} (member : p ∈ th.inside) :
    Before p.1 p.2 sh.applied := by
  by_cases also : p.1 ∈ th.alive
  · exact Before.of_not_mem (n.waits p member also)
  · exact (n.before p member also).take (List.prefix_append _ _)

end Halyard.Signal
