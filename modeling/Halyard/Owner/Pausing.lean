import Halyard.Reaches

/-!
# Pausing owners

`pause` and `resume` of `owner.rs` set a flag on an owner and on what they find below it, and each way of
making an owner gives it a flag.  Owners are numbered as they are made, and are all held, so that every
weak reference to one can be upgraded.

* `setPaused_of_leads`: `pause` and `resume` set the flags of the owners that the lists of children lead to.
* `pausing_kept`: what a run must avoid for every owner that a `pause` covers last to be paused.
* `step_breaks`: no step can do it and keep that.
-/

namespace Halyard.Owner

/-- Every owner's `OwnerInner`. -/
structure Owners where
  count : ℕ
  parent : ℕ → Option ℕ
  children : ℕ → List ℕ
  paused : ℕ → Bool
  older : ∀ {owner child}, parent child = some owner → owner < child ∧ child < count
  listed : ∀ {owner child}, child ∈ children owner → parent child = some owner

namespace Owners

def empty : Owners where
  count := 0
  parent _ := none
  children _ := []
  paused _ := false
  older none := absurd none.symm (Option.some_ne_none _)
  listed mem := absurd mem List.not_mem_nil

/-- An owner covers itself and those that have it above them. -/
def Covers (owners : Owners) : ℕ → ℕ → Prop :=
  Relation.ReflTransGen fun owner child => owners.parent child = some owner

/-- The lists of children lead from an owner to another. -/
def Leads (owners : Owners) : ℕ → ℕ → Prop :=
  Relation.ReflTransGen fun owner child => child ∈ owners.children owner

variable (owners : Owners)

theorem child_later {owners : Owners} {owner child : ℕ} (mem : child ∈ owners.children owner) :
    owner < child ∧ child < owners.count :=
  owners.older (owners.listed mem)

/-- The number of owners that a traversal from an owner finds. -/
def weight (owner : ℕ) : ℕ :=
  ((owners.children owner).map fun child => weight child).sum + 1
  termination_by owners.count - owner
  decreasing_by
    have later := child_later ‹_ ∈ owners.children owner›
    omega

theorem weight_eq (owner : ℕ) :
    owners.weight owner = ((owners.children owner).map owners.weight).sum + 1 := by
  rw [weight]

/-- The loop of `pause` and `resume`, with the top of the stack first. -/
def setPausedFrom (value : Bool) : List ℕ → (ℕ → Bool) → ℕ → Bool
  | [], paused => paused
  | curr :: stack, paused =>
      setPausedFrom value ((owners.children curr).reverse ++ stack) (Function.update paused curr value)
  termination_by stack => (stack.map owners.weight).sum
  decreasing_by
    simp only [List.unattach_reverse, List.unattach_attach, List.map_append, List.sum_append,
      List.map_reverse, List.sum_reverse, List.map_cons, List.sum_cons]
    rw [weight_eq owners curr]
    omega

def pause (owner : ℕ) : Owners :=
  { owners with paused := owners.setPausedFrom true [owner] owners.paused }

def resume (owner : ℕ) : Owners :=
  { owners with paused := owners.setPausedFrom false [owner] owners.paused }

theorem older_update {parent : Option ℕ} (exist : ∀ above, parent = some above → above < owners.count)
    {owner child : ℕ} (above : Function.update owners.parent owners.count parent child = some owner) :
    owner < child ∧ child < owners.count + 1 := by
  by_cases fresh : child = owners.count
  · subst fresh
    rw [Function.update_self] at above
    exact ⟨exist owner above, Nat.lt_succ_self _⟩
  · rw [Function.update_of_ne fresh] at above
    exact ⟨(owners.older above).1, Nat.lt_succ_of_lt (owners.older above).2⟩

/-- The lists of children with one more child in one of them. -/
def addChild (parent : Option ℕ) (owner : ℕ) : List ℕ :=
  if parent = some owner then owners.children owner ++ [owners.count] else owners.children owner

theorem listed_addChild {parent : Option ℕ} {owner child : ℕ} (mem : child ∈ owners.addChild parent owner) :
    Function.update owners.parent owners.count parent child = some owner := by
  have old : child ∈ owners.children owner →
      Function.update owners.parent owners.count parent child = some owner := by
    intro mem
    rw [Function.update_of_ne (owners.child_later mem).2.ne]
    exact owners.listed mem
  unfold addChild at mem
  split at mem
  next above =>
    rcases List.mem_append.mp mem with mem | fresh
    · exact old mem
    · rw [List.mem_singleton.mp fresh, Function.update_self]
      exact above
  next => exact old mem

/-- One more owner, which its parent lists. -/
def add (parent : Option ℕ) (exist : ∀ above, parent = some above → above < owners.count) (flag : Bool) :
    Owners where
  count := owners.count + 1
  parent := Function.update owners.parent owners.count parent
  children := owners.addChild parent
  paused := Function.update owners.paused owners.count flag
  older := owners.older_update exist
  listed := owners.listed_addChild

/-- `Owner::new`, under the current owner if there is one. -/
def new (current : Option ℕ) (exist : ∀ above, current = some above → above < owners.count) : Owners :=
  owners.add current exist false

def child (owner : ℕ) (exist : ∀ above, some owner = some above → above < owners.count) : Owners :=
  owners.add (some owner) exist (owners.paused owner)

theorem mem_of_update_nil {owners : Owners} {owner other child : ℕ}
    (mem : child ∈ Function.update owners.children owner [] other) : child ∈ owners.children other := by
  by_cases same : other = owner
  · rw [same, Function.update_self] at mem
    cases mem
  · rwa [Function.update_of_ne same] at mem

/-- What `cleanup` does under the lock. -/
def takeChildren (owner : ℕ) : Owners :=
  { owners with
    children := Function.update owners.children owner []
    listed := fun mem => owners.listed (mem_of_update_nil mem) }

theorem weight_takeChildren_le (taken owner : ℕ) :
    (owners.takeChildren taken).weight owner ≤ owners.weight owner := by
  induction owner using weight.induct owners with
  | case1 owner ih =>
    rw [weight_eq, weight_eq]
    refine Nat.succ_le_succ ?_
    by_cases same : owner = taken
    · have none : (owners.takeChildren taken).children owner = [] := by
        rw [takeChildren, same]
        exact Function.update_self _ _ _
      rw [none]
      exact Nat.zero_le _
    · have kept : (owners.takeChildren taken).children owner = owners.children owner :=
        Function.update_of_ne same _ _
      rw [kept]
      exact List.sum_le_sum ih

theorem weights_takeChildren_lt (owner : ℕ) (rest : List ℕ) :
    ((owners.children owner ++ rest).map (owners.takeChildren owner).weight).sum <
      ((owner :: rest).map owners.weight).sum := by
  have fewer : ∀ list : List ℕ,
      (list.map (owners.takeChildren owner).weight).sum ≤ (list.map owners.weight).sum :=
    fun list => List.sum_le_sum fun other _ => owners.weight_takeChildren_le owner other
  have children := fewer (owners.children owner)
  have others := fewer rest
  rw [List.map_append, List.sum_append, List.map_cons, List.sum_cons, weight_eq owners owner]
  omega

end Owners

/-- `cleanup` of owners, each of which takes its children and has them cleaned up before the others. -/
def cleanupAll : List ℕ → Owners → Owners
  | [], owners => owners
  | owner :: rest, owners => cleanupAll (owners.children owner ++ rest) (owners.takeChildren owner)
  termination_by stack owners => (stack.map owners.weight).sum
  decreasing_by exact owners.weights_takeChildren_lt owner rest

/-! ## The calls -/

/-- `take` is what a `cleanup` does under one lock, between which the functions that it runs can make
other calls. -/
inductive Call
  | new (current : Option ℕ)
  | child (owner : ℕ)
  | cleanup (owner : ℕ)
  | take (owner : ℕ)
  | pause (owner : ℕ)
  | resume (owner : ℕ)

/-- The owners, and the calls of `pause`, as `true`, and `resume` that have been made, the last first. -/
structure History where
  owners : Owners
  calls : List (ℕ × Bool)

theorem exist_some {owner count : ℕ} (exists_ : owner < count) :
    ∀ above, some owner = some above → above < count :=
  fun _ same => Option.some.inj same ▸ exists_

theorem exist_none {count : ℕ} : ∀ above, none = some above → above < count :=
  fun _ same => absurd same.symm (Option.some_ne_none _)

/-- A call, of an owner that there is. -/
def step (s : History) : Call → Option History
  | .new none => some { s with owners := s.owners.new none exist_none }
  | .new (some current) =>
      if exists_ : current < s.owners.count then
        some { s with owners := s.owners.new (some current) (exist_some exists_) }
      else none
  | .child owner =>
      if exists_ : owner < s.owners.count then
        some { s with owners := s.owners.child owner (exist_some exists_) }
      else none
  | .cleanup owner =>
      if owner < s.owners.count then some { s with owners := cleanupAll [owner] s.owners } else none
  | .take owner =>
      if owner < s.owners.count then some { s with owners := s.owners.takeChildren owner } else none
  | .pause owner =>
      if owner < s.owners.count then
        some { owners := s.owners.pause owner, calls := (owner, true) :: s.calls }
      else none
  | .resume owner =>
      if owner < s.owners.count then
        some { owners := s.owners.resume owner, calls := (owner, false) :: s.calls }
      else none

def start : History := ⟨Owners.empty, []⟩

/-- The last of the calls that cover an owner. -/
inductive LastCovering (owners : Owners) (owner : ℕ) : List (ℕ × Bool) → Bool → Prop
  | here {target : ℕ} {value : Bool} {calls : List (ℕ × Bool)} :
    owners.Covers target owner → LastCovering owners owner ((target, value) :: calls) value
  | earlier {target : ℕ} {other value : Bool} {calls : List (ℕ × Bool)} :
    ¬owners.Covers target owner → LastCovering owners owner calls value →
      LastCovering owners owner ((target, other) :: calls) value

/-- Every owner that a `pause` covers last is paused. -/
def History.PausedBelow (s : History) : Prop :=
  ∀ owner < s.owners.count, LastCovering s.owners owner s.calls true → s.owners.paused owner = true

/-- What a call must find for that: `Owner::new` a current owner that no `pause` covers last, and `pause`
the lists of children that lead to every owner which is not paused yet. -/
def Finds (s : History) : Call → History → Prop
  | .new (some current), _ => ¬LastCovering s.owners current s.calls true
  | .pause target, _ => ∀ owner < s.owners.count, s.owners.Covers target owner →
      s.owners.paused owner = true ∨ s.owners.Leads target owner
  | _, _ => True

/-! ## Traversals -/

namespace Owners

variable {owners : Owners}

theorem Leads.covers {owner other : ℕ} (leads : owners.Leads owner other) : owners.Covers owner other :=
  Relation.ReflTransGen.mono (fun _ _ mem => owners.listed mem) _ _ leads

theorem leads_cons {curr other : ℕ} {stack : List ℕ} :
    (∃ owner ∈ curr :: stack, owners.Leads owner other) ↔
      other = curr ∨ ∃ owner ∈ (owners.children curr).reverse ++ stack, owners.Leads owner other := by
  have first : owners.Leads curr other ↔
      other = curr ∨ ∃ child ∈ owners.children curr, owners.Leads child other :=
    Relation.ReflTransGen.cases_head_iff.trans (or_congr_left eq_comm)
  simp only [List.mem_cons, List.mem_append, List.mem_reverse, or_and_right, exists_or, exists_eq_left,
    first, or_assoc]

/-- What the lists do not lead to keeps its flag. -/
theorem setPausedFrom_of_not_leads {value : Bool} {stack : List ℕ} {paused : ℕ → Bool} {other : ℕ}
    (apart : ¬∃ owner ∈ stack, owners.Leads owner other) :
    owners.setPausedFrom value stack paused other = paused other := by
  fun_induction setPausedFrom owners value stack paused with
  | case1 paused => rfl
  | case2 curr stack paused ih =>
    rw [List.unattach_reverse, List.unattach_attach] at ih
    obtain ⟨ne, later⟩ := not_or.mp (mt leads_cons.mpr apart)
    rw [ih later, Function.update_of_ne ne]

theorem setPausedFrom_of_leads {value : Bool} {stack : List ℕ} {paused : ℕ → Bool} {other : ℕ}
    (leads : ∃ owner ∈ stack, owners.Leads owner other) :
    owners.setPausedFrom value stack paused other = value := by
  fun_induction setPausedFrom owners value stack paused with
  | case1 paused =>
    obtain ⟨owner, mem, _⟩ := leads
    cases mem
  | case2 curr stack paused ih =>
    rw [List.unattach_reverse, List.unattach_attach] at ih
    by_cases later : ∃ owner ∈ (owners.children curr).reverse ++ stack, owners.Leads owner other
    · exact ih later
    · rw [setPausedFrom_of_not_leads later, (leads_cons.mp leads).resolve_right later,
        Function.update_self]

theorem setPaused_of_leads {value : Bool} {target other : ℕ} {paused : ℕ → Bool}
    (leads : owners.Leads target other) : owners.setPausedFrom value [target] paused other = value :=
  setPausedFrom_of_leads ⟨target, List.mem_singleton_self target, leads⟩

theorem setPaused_of_not_leads {value : Bool} {target other : ℕ} {paused : ℕ → Bool}
    (apart : ¬owners.Leads target other) :
    owners.setPausedFrom value [target] paused other = paused other := by
  refine setPausedFrom_of_not_leads ?_
  rintro ⟨owner, mem, leads⟩
  rw [List.mem_singleton.mp mem] at leads
  exact apart leads

/-! ## Above a new owner -/

theorem Covers.older {owner other : ℕ} (covers : owners.Covers owner other) : owner ≤ other := by
  induction covers with
  | refl => exact le_rfl
  | tail _ above ih => exact ih.trans (owners.older above).1.le

variable {parent : Option ℕ} {exist : ∀ above, parent = some above → above < owners.count} {flag : Bool}

theorem parent_add {child : ℕ} (old : child < owners.count) :
    (owners.add parent exist flag).parent child = owners.parent child :=
  Function.update_of_ne old.ne _ _

theorem parent_added : (owners.add parent exist flag).parent owners.count = parent :=
  Function.update_self _ _ _

theorem paused_add {owner : ℕ} (old : owner < owners.count) :
    (owners.add parent exist flag).paused owner = owners.paused owner :=
  Function.update_of_ne old.ne _ _

theorem paused_added : (owners.add parent exist flag).paused owners.count = flag :=
  Function.update_self _ _ _

theorem covers_add {target owner : ℕ} (old : owner < owners.count) :
    (owners.add parent exist flag).Covers target owner ↔ owners.Covers target owner := by
  constructor
  · intro covers
    induction covers with
    | refl => exact .refl
    | tail _ above ih =>
      have lower := (parent_add old).symm.trans above
      exact (ih ((owners.older lower).1.trans old)).tail lower
  · intro covers
    induction covers with
    | refl => exact .refl
    | tail _ above ih =>
      exact (ih ((owners.older above).1.trans old)).tail ((parent_add old).trans above)

theorem covers_added {target : ℕ} (old : target < owners.count) :
    (owners.add parent exist flag).Covers target owners.count ↔
      ∃ above, parent = some above ∧ owners.Covers target above := by
  constructor
  · intro covers
    rcases Relation.ReflTransGen.cases_tail covers with same | ⟨above, covers, last⟩
    · exact absurd same old.ne'
    · have given := parent_added.symm.trans last
      exact ⟨above, given, (covers_add (exist above given)).mp covers⟩
  · rintro ⟨above, given, covers⟩
    exact ((covers_add (exist above given)).mpr covers).tail (parent_added.trans given)

theorem covers_congr {others : Owners} (same : others.parent = owners.parent) {target owner : ℕ} :
    others.Covers target owner ↔ owners.Covers target owner := by
  rw [Covers, Covers, same]

end Owners

/-! ## The last call that covers an owner -/

theorem LastCovering.congr {owners others : Owners} {owner other : ℕ} {calls : List (ℕ × Bool)}
    {value : Bool} (last : LastCovering owners owner calls value)
    (same : ∀ call ∈ calls, owners.Covers call.1 owner ↔ others.Covers call.1 other) :
    LastCovering others other calls value := by
  induction last with
  | here covers => exact .here ((same _ List.mem_cons_self).mp covers)
  | earlier apart last ih =>
    refine .earlier (fun covers => apart ((same _ List.mem_cons_self).mpr covers)) (ih ?_)
    exact fun call mem => same call (List.mem_cons_of_mem _ mem)

theorem LastCovering.exists_covers {owners : Owners} {owner : ℕ} {calls : List (ℕ × Bool)} {value : Bool}
    (last : LastCovering owners owner calls value) : ∃ call ∈ calls, owners.Covers call.1 owner := by
  induction last with
  | here covers => exact ⟨_, List.mem_cons_self, covers⟩
  | earlier _ _ ih =>
    obtain ⟨call, mem, covers⟩ := ih
    exact ⟨call, List.mem_cons_of_mem _ mem, covers⟩

/-- The calls are of owners that there are. -/
def History.Real (s : History) : Prop :=
  ∀ call ∈ s.calls, call.1 < s.owners.count

variable {s s' : History}

theorem covers_added_some {owners : Owners} {parent : Option ℕ}
    (exist : ∀ above, parent = some above → above < owners.count) {flag : Bool} {above target : ℕ}
    (given : parent = some above) (old : target < owners.count) :
    (owners.add parent exist flag).Covers target owners.count ↔ owners.Covers target above := by
  rw [Owners.covers_added old]
  constructor
  · rintro ⟨other, same, covers⟩
    rwa [Option.some.inj (given.symm.trans same)]
  · exact fun covers => ⟨above, given, covers⟩

/-- What a new owner's flag must be. -/
theorem add_kept {parent : Option ℕ} {exist : ∀ above, parent = some above → above < s.owners.count}
    {flag : Bool} (real : s.Real) (kept : s.PausedBelow)
    (right : ∀ above, parent = some above → LastCovering s.owners above s.calls true → flag = true) :
    History.PausedBelow ⟨s.owners.add parent exist flag, s.calls⟩ := by
  intro owner there last
  rcases Nat.lt_succ_iff_lt_or_eq.mp there with old | rfl
  · rw [Owners.paused_add old]
    exact kept owner old (last.congr fun _ _ => @Owners.covers_add _ _ exist _ _ _ old)
  · rw [Owners.paused_added]
    obtain ⟨call, mem, covers⟩ := last.exists_covers
    obtain ⟨above, given, -⟩ := (@Owners.covers_added _ _ exist _ _ (real call mem)).mp covers
    exact right above given (last.congr fun call mem => covers_added_some exist given (real call mem))

theorem pause_kept {target : ℕ} (kept : s.PausedBelow)
    (found : ∀ owner < s.owners.count, s.owners.Covers target owner →
      s.owners.paused owner = true ∨ s.owners.Leads target owner) :
    History.PausedBelow ⟨s.owners.pause target, (target, true) :: s.calls⟩ := by
  intro owner there last
  change s.owners.setPausedFrom true [target] s.owners.paused owner = true
  by_cases leads : s.owners.Leads target owner
  · exact Owners.setPaused_of_leads leads
  · rw [Owners.setPaused_of_not_leads leads]
    cases last with
    | here covers => exact (found owner there covers).resolve_right leads
    | earlier _ last => exact kept owner there (last.congr fun _ _ => Iff.rfl)

theorem resume_kept {target : ℕ} (kept : s.PausedBelow) :
    History.PausedBelow ⟨s.owners.resume target, (target, false) :: s.calls⟩ := by
  intro owner there last
  cases last with
  | earlier apart last =>
    have still := @Owners.setPaused_of_not_leads s.owners false _ _ s.owners.paused
      fun leads => apart leads.covers
    exact still.trans (kept owner there (last.congr fun _ _ => Iff.rfl))

/-- What no call does to the owners that are there. -/
structure Owners.Same (owners others : Owners) : Prop where
  count : others.count = owners.count
  parent : others.parent = owners.parent
  paused : others.paused = owners.paused

theorem cleanupAll_same (stack : List ℕ) (owners : Owners) : owners.Same (cleanupAll stack owners) := by
  fun_induction cleanupAll stack owners with
  | case1 owners => exact ⟨rfl, rfl, rfl⟩
  | case2 owners owner rest ih => exact ⟨ih.count, ih.parent, ih.paused⟩

theorem Owners.Same.kept {others : Owners} (same : s.owners.Same others) (kept : s.PausedBelow) :
    History.PausedBelow ⟨others, s.calls⟩ := by
  intro owner there last
  rw [same.paused]
  exact kept owner (same.count ▸ there) (last.congr fun _ _ => Owners.covers_congr same.parent)

/-! ## Runs -/

/-- What a call does. -/
theorem step_kept {call : Call} (real : s.Real) (kept : s.PausedBelow) (stepped : step s call = some s')
    (finds : Finds s call s') : s'.Real ∧ s'.PausedBelow := by
  have more : ∀ {parent exist flag}, History.Real ⟨s.owners.add parent exist flag, s.calls⟩ :=
    fun call mem => Nat.lt_succ_of_lt (real call mem)
  have longer : ∀ {target value}, target < s.owners.count → ∀ other ∈ (target, value) :: s.calls,
      other.1 < s.owners.count := by
    intro target value there
    exact List.forall_mem_cons.mpr ⟨there, real⟩
  cases call with
  | new current =>
    cases current with
    | none =>
      cases stepped
      exact ⟨more, add_kept real kept fun _ given => absurd given.symm (Option.some_ne_none _)⟩
    | some current =>
      simp only [step] at stepped
      split at stepped
      next there =>
        cases stepped
        refine ⟨more, add_kept real kept fun above given last => ?_⟩
        rw [← Option.some.inj given] at last
        exact absurd last finds
      next => cases stepped
  | child owner =>
    simp only [step] at stepped
    split at stepped
    next there =>
      cases stepped
      refine ⟨more, add_kept real kept fun above given last => ?_⟩
      rw [← Option.some.inj given] at last
      exact kept owner there last
    next => cases stepped
  | cleanup owner =>
    simp only [step] at stepped
    split at stepped
    next there =>
      cases stepped
      have same := cleanupAll_same [owner] s.owners
      exact ⟨fun call mem => (real call mem).trans_eq same.count.symm, same.kept kept⟩
    next => cases stepped
  | take owner =>
    simp only [step] at stepped
    split at stepped
    next there =>
      cases stepped
      exact ⟨real, Owners.Same.kept ⟨rfl, rfl, rfl⟩ kept⟩
    next => cases stepped
  | pause target =>
    simp only [step] at stepped
    split at stepped
    next there =>
      cases stepped
      exact ⟨longer there, pause_kept kept finds⟩
    next => cases stepped
  | resume target =>
    simp only [step] at stepped
    split at stepped
    next there =>
      cases stepped
      exact ⟨longer there, resume_kept kept⟩
    next => cases stepped

/-- While every call finds what it must, every owner that a `pause` covers last is paused. -/
theorem pausing_kept (reached : Reaches step Finds start s) : s.PausedBelow := by
  have both : s.Real ∧ s.PausedBelow := by
    refine reached.invariant ⟨fun call mem => ?_, fun owner there => ?_⟩
      fun s call s' held moved finds => step_kept held.1 held.2 moved finds
    · cases mem
    · cases there
  exact both.2

/-- A call that does not find it leaves an owner that is not paused. -/
theorem step_breaks {call : Call} (real : s.Real) (stepped : step s call = some s')
    (lost : ¬Finds s call s') : ¬s'.PausedBelow := by
  intro kept
  cases call with
  | new current =>
    cases current with
    | none => exact lost trivial
    | some current =>
      simp only [step] at stepped
      split at stepped
      next there =>
        cases stepped
        refine lost fun last => ?_
        have exist := exist_some there
        have paused := kept s.owners.count (Nat.lt_succ_self _)
          (last.congr fun call mem => (covers_added_some exist rfl (real call mem)).symm)
        rw [Owners.new, Owners.paused_added] at paused
        cases paused
      next => cases stepped
  | child owner => exact lost trivial
  | cleanup owner => exact lost trivial
  | take owner => exact lost trivial
  | resume target => exact lost trivial
  | pause target =>
    simp only [step] at stepped
    split at stepped
    next there =>
      cases stepped
      refine lost fun owner there covers => ?_
      by_cases leads : s.owners.Leads target owner
      · exact Or.inr leads
      · have still := @Owners.setPaused_of_not_leads s.owners true _ _ s.owners.paused leads
        exact Or.inl (still.symm.trans (kept owner there (.here covers)))
    next => cases stepped

/-! ## Under a paused owner -/

/-- An owner, paused, and another made while it is the current one. -/
def pausedThenNew : List Call := [.new none, .pause 0, .new (some 0)]

theorem pausedThenNew_breaks :
    ¬∀ s, Reaches step (fun _ _ _ => True) start s → s.PausedBelow := by
  intro all
  have run : exec step start pausedThenNew = some _ := rfl
  have kept := all _ (Reaches.start.of_exec pausedThenNew run (meets_true _ _))
  have paused := kept 1 Nat.one_lt_two (.here (Relation.ReflTransGen.single rfl))
  cases paused

/-- The same with `child`. -/
def pausedThenChild : List Call := [.new none, .pause 0, .child 0]

theorem pausing_kept_child : ∃ s, exec step start pausedThenChild = some s ∧ s.PausedBelow := by
  refine ⟨_, rfl, pausing_kept (Reaches.start.of_exec pausedThenChild rfl ?_)⟩
  intro s stepped
  cases stepped
  refine ⟨trivial, fun s stepped => ?_⟩
  cases stepped
  refine ⟨fun owner there _ => ?_, fun s stepped => ?_⟩
  · rw [Nat.lt_one_iff.mp there]
    exact Or.inr .refl
  · cases stepped
    exact ⟨trivial, trivial⟩

end Halyard.Owner
