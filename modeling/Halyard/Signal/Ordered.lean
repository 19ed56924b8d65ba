import Mathlib

/-!
# Numbers of nested writes

Writes are numbered when they begin, and applied in the order of one queue.  A write handed in inside an
update or guard is to be applied after that one's own write.

* `Before`: one number is before another in a list.
* `Ordered`: what keeps nested writes in order, and how it is kept when an update or guard begins or ends and
  when a write is handed in or applied.
-/

namespace Halyard.Signal

/-! ## One number before another -/

/-- Wherever `b` is in the list, `a` is before it. -/
def Before (a b : ℕ) (ids : List ℕ) : Prop :=
  ∀ front back, ids = front ++ b :: back → a ∈ front

section Before

variable {a b c : ℕ} {xs ys ids : List ℕ}

theorem Before.of_not_mem (absent : b ∉ ids) : Before a b ids := by
  intro front back is
  exact absurd (by simp [is]) absent

theorem Before.take (before : Before a b ids) (starts : xs <+: ids) : Before a b xs := by
  obtain ⟨rest, rfl⟩ := starts
  intro front back is
  exact before front (back ++ rest) (by simp [is])

theorem Before.insert (before : Before a b (xs ++ ys)) (other : c ≠ b) : Before a b (xs ++ c :: ys) := by
  intro front back is
  rcases List.append_eq_append_iff.mp is with ⟨more, rfl, tail⟩ | ⟨more, rfl, tail⟩
  · cases more with
    | nil => exact absurd (List.cons.inj tail).1 other
    | cons first more =>
      obtain ⟨-, rfl⟩ := List.cons.inj tail
      have found := before (xs ++ more) back (by simp)
      rw [List.mem_append] at found ⊢
      exact found.imp_right (List.mem_cons_of_mem _)
  · cases more with
    | nil => exact absurd (List.cons.inj tail).1.symm other
    | cons first more =>
      obtain ⟨rfl, rfl⟩ := List.cons.inj tail
      exact before front (more ++ ys) (by simp)

/-- What is not in `xs` is after whatever follows `xs`. -/
theorem Before.of_first (absent : b ∉ xs) (other : c ≠ b) : Before c b (xs ++ c :: ys) := by
  intro front back is
  rcases List.append_eq_append_iff.mp is with ⟨more, rfl, tail⟩ | ⟨more, rfl, tail⟩
  · cases more with
    | nil => exact absurd (List.cons.inj tail).1 other
    | cons first more =>
      obtain ⟨rfl, -⟩ := List.cons.inj tail
      simp
  · cases more with
    | nil => exact absurd (List.cons.inj tail).1.symm other
    | cons first more =>
      obtain ⟨rfl, -⟩ := List.cons.inj tail
      exact absurd (by simp) absent

end Before

/-! ## The numbers of the writes -/

/-- Writes by their numbers: those `applied`, those in the `queue`, the updates and guards `alive`, those of
them that are `opened` (and whether they were started), and the pairs of one that was open and a write
handed in `inside` of it. -/
structure Ordered (applied queue alive : List ℕ) (opened : List (ℕ × Bool)) (inside : List (ℕ × ℕ))
    (next : ℕ) : Prop where
  nodup : alive.Nodup
  alive_lt : ∀ id ∈ alive, id < next
  order_lt : ∀ id ∈ applied ++ queue, id < next
  apart : ∀ id ∈ alive, id ∉ applied ++ queue
  opened_alive : ∀ u ∈ opened, u.1 ∈ alive
  inside_lt : ∀ p ∈ inside, p.1 < next ∧ p.2 < next
  handed : ∀ p ∈ inside, p.2 ∉ alive
  started : ∀ p ∈ inside, (p.1, false) ∉ opened
  least : ∀ u, (u, true) ∈ opened → ∀ id ∈ alive, u ≤ id
  waits : ∀ p ∈ inside, p.1 ∈ alive → p.2 ∉ applied
  before : ∀ p ∈ inside, p.1 ∉ alive → Before p.1 p.2 (applied ++ queue)

namespace Ordered

variable {applied queue queue' alive alive' : List ℕ} {opened opened' : List (ℕ × Bool)}
variable {inside : List (ℕ × ℕ)} {next id : ℕ}

variable (o : Ordered applied queue alive opened inside next)

include o

/-- No write is handed in or applied; the last writes of the queue may be dropped. -/
theorem congr (starts : queue' <+: queue) (same : alive'.Perm alive) (opens : opened' ⊆ opened) :
    Ordered applied queue' alive' opened' inside next := by
  have shorter : applied ++ queue' <+: applied ++ queue := (List.prefix_append_right_inj _).mpr starts
  constructor
  · exact same.nodup_iff.mpr o.nodup
  · exact fun id member => o.alive_lt id (same.mem_iff.mp member)
  · exact fun id member => o.order_lt id (shorter.subset member)
  · exact fun id member also => o.apart id (same.mem_iff.mp member) (shorter.subset also)
  · exact fun u member => same.mem_iff.mpr (o.opened_alive u (opens member))
  · exact o.inside_lt
  · exact fun p member also => o.handed p member (same.mem_iff.mp also)
  · exact fun p member also => o.started p member (opens also)
  · exact fun u member id also => o.least u (opens member) id (same.mem_iff.mp also)
  · exact fun p member also => o.waits p member (same.mem_iff.mp also)
  · exact fun p member closed =>
      (o.before p member fun also => closed (same.mem_iff.mpr also)).take shorter

/-- An update or guard begins; if it is started it is the only one. -/
theorem begin (same : alive'.Perm (next :: alive))
    (opens : ∀ u ∈ opened', u ∈ opened ∨ (u.1 = next ∧ (u.2 = true → alive = []))) :
    Ordered applied queue alive' opened' inside (next + 1) := by
  have either (id : ℕ) : id ∈ alive' ↔ id = next ∨ id ∈ alive := by rw [same.mem_iff, List.mem_cons]
  have fresh : next ∉ alive := fun member => lt_irrefl _ (o.alive_lt next member)
  constructor
  · rw [same.nodup_iff, List.nodup_cons]
    exact ⟨fresh, o.nodup⟩
  · intro id member
    rcases (either id).mp member with rfl | member
    · exact Nat.lt_succ_self _
    · exact Nat.lt_succ_of_lt (o.alive_lt id member)
  · exact fun id member => Nat.lt_succ_of_lt (o.order_lt id member)
  · intro id member also
    rcases (either id).mp member with rfl | member
    · exact lt_irrefl _ (o.order_lt id also)
    · exact o.apart id member also
  · intro u member
    rcases opens u member with old | ⟨is, -⟩
    · exact (either u.1).mpr (.inr (o.opened_alive u old))
    · exact (either u.1).mpr (.inl is)
  · exact fun p member => (o.inside_lt p member).imp Nat.lt_succ_of_lt Nat.lt_succ_of_lt
  · intro p member also
    rcases (either p.2).mp also with is | also
    · exact (o.inside_lt p member).2.ne is
    · exact o.handed p member also
  · intro p member also
    rcases opens _ also with old | ⟨is, -⟩
    · exact o.started p member old
    · exact (o.inside_lt p member).1.ne is
  · intro u member id also
    rcases opens _ member with old | ⟨is, first⟩
    · rcases (either id).mp also with rfl | also
      · exact (o.alive_lt u (o.opened_alive _ old)).le
      · exact o.least u old id also
    · rw [first rfl] at either
      have only := (either id).mp also
      simp only [List.not_mem_nil, or_false] at only
      exact (is.trans only.symm).le
  · intro p member also
    rcases (either p.1).mp also with is | also
    · exact absurd is (o.inside_lt p member).1.ne
    · exact o.waits p member also
  · exact fun p member closed => o.before p member fun also => closed ((either p.1).mpr (.inr also))

/-- A write is handed in and comes last.  It ends its update or guard if it has one, inside of which no
write was handed in, and the updates and guards `around` it were started. -/
theorem handLast {next' : ℕ} {around : List (ℕ × Bool)} (new : id ∉ applied ++ queue) (le : next ≤ next')
    (lt : id < next') (ends : ∀ other, other ∈ alive ↔ (other = id ∧ id ∈ alive) ∨ other ∈ alive')
    (nodup : alive'.Nodup) (ended : id ∉ alive') (opens : ∀ u ∈ opened', u ∈ opened ∧ u.1 ∈ alive')
    (within : ∀ u ∈ around, u ∈ opened' ∧ (u.1, false) ∉ opened')
    (unpaired : ∀ p ∈ inside, p.1 ≠ id ∧ p.2 ≠ id) :
    Ordered applied (queue ++ [id]) alive' opened' (around.map (fun u => (u.1, id)) ++ inside) next' := by
  have old {other : ℕ} (member : other ∈ alive') : other ∈ alive := (ends other).mpr (.inr member)
  have last {other : ℕ} : other ∈ applied ++ (queue ++ [id]) ↔ other ∈ applied ++ queue ∨ other = id := by
    simp only [List.mem_append, List.mem_singleton, or_assoc]
  have pairs {p : ℕ × ℕ} (member : p ∈ around.map (fun u => (u.1, id)) ++ inside) :
      (∃ u ∈ around, p = (u.1, id)) ∨ p ∈ inside := by
    rw [List.mem_append, List.mem_map] at member
    rcases member with ⟨u, at_, is⟩ | member
    · exact .inl ⟨u, at_, is.symm⟩
    · exact .inr member
  constructor
  · exact nodup
  · exact fun other member => (o.alive_lt other (old member)).trans_le le
  · intro other member
    rcases last.mp member with member | rfl
    · exact (o.order_lt other member).trans_le le
    · exact lt
  · intro other member also
    rcases last.mp also with also | rfl
    · exact o.apart other (old member) also
    · exact ended member
  · exact fun u member => (opens u member).2
  · intro p member
    rcases pairs member with ⟨u, at_, rfl⟩ | member
    · have alive := (opens u (within u at_).1).2
      exact ⟨(o.alive_lt u.1 (old alive)).trans_le le, lt⟩
    · exact (o.inside_lt p member).imp le.trans_lt' le.trans_lt'
  · intro p member also
    rcases pairs member with ⟨u, at_, rfl⟩ | member
    · exact ended also
    · exact o.handed p member (old also)
  · intro p member also
    rcases pairs member with ⟨u, at_, rfl⟩ | member
    · exact (within u at_).2 also
    · exact o.started p member (opens _ also).1
  · exact fun u member other also => o.least u (opens _ member).1 other (old also)
  · intro p member also there
    rcases pairs member with ⟨u, at_, rfl⟩ | member
    · exact new (List.mem_append_left _ there)
    · exact o.waits p member (old also) there
  · intro p member closed
    rcases pairs member with ⟨u, at_, rfl⟩ | member
    · exact absurd (opens u (within u at_).1).2 closed
    · have other := unpaired p member
      have outside : p.1 ∉ alive := by
        intro also
        rcases (ends p.1).mp also with ⟨is, -⟩ | also
        · exact other.1 is
        · exact closed also
      rw [← List.append_assoc]
      refine Before.insert ?_ other.2.symm
      rw [List.append_nil]
      exact o.before p member outside

/-- The update or guard that was started ends, and its write comes before those handed in inside it. -/
theorem handFirst (ends : alive.Perm (id :: alive')) (opens : ∀ u ∈ opened', u ∈ opened ∧ u.1 ∈ alive') :
    Ordered applied (id :: queue) alive' opened' inside next := by
  have nodup := ends.nodup_iff.mp o.nodup
  rw [List.nodup_cons] at nodup
  have ending : id ∈ alive := ends.mem_iff.mpr List.mem_cons_self
  have old {other : ℕ} (member : other ∈ alive') : other ∈ alive :=
    ends.mem_iff.mpr (List.mem_cons_of_mem _ member)
  have first {other : ℕ} : other ∈ applied ++ id :: queue ↔ other = id ∨ other ∈ applied ++ queue := by
    simp only [List.mem_append, List.mem_cons]
    tauto
  constructor
  · exact nodup.2
  · exact fun other member => o.alive_lt other (old member)
  · intro other member
    rcases first.mp member with rfl | member
    · exact o.alive_lt other ending
    · exact o.order_lt other member
  · intro other member also
    rcases first.mp also with rfl | also
    · exact nodup.1 member
    · exact o.apart other (old member) also
  · exact fun u member => (opens u member).2
  · exact o.inside_lt
  · exact fun p member also => o.handed p member (old also)
  · exact fun p member also => o.started p member (opens _ also).1
  · exact fun u member other also => o.least u (opens _ member).1 other (old also)
  · exact fun p member also => o.waits p member (old also)
  · intro p member closed
    have other : id ≠ p.2 := by
      rintro rfl
      exact o.handed p member ending
    by_cases own : p.1 = id
    · rw [own]
      refine Before.of_first ?_ other
      exact o.waits p member (own ▸ ending)
    · refine Before.insert (o.before p member ?_) other
      intro also
      rcases List.mem_cons.mp (ends.mem_iff.mp also) with is | also
      · exact own is
      · exact closed also

end Ordered

/-- The next write of the queue is applied: no update or guard is alive. -/
theorem Ordered.apply {applied queue alive : List ℕ} {opened : List (ℕ × Bool)} {inside : List (ℕ × ℕ)}
    {next id : ℕ} (o : Ordered applied (id :: queue) alive opened inside next) (none : alive = []) :
    Ordered (applied ++ [id]) queue alive opened inside next := by
  have same : applied ++ [id] ++ queue = applied ++ id :: queue := by simp
  refine ⟨o.nodup, o.alive_lt, ?_, ?_, o.opened_alive, o.inside_lt, o.handed, o.started, o.least, ?_, ?_⟩
  · rw [same]
    exact o.order_lt
  · rw [same]
    exact o.apart
  · intro p member also
    rw [none] at also
    exact absurd also List.not_mem_nil
  · rw [same]
    exact o.before

end Halyard.Signal
