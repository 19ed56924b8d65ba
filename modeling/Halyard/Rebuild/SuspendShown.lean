import Halyard.Rebuild.Suspend

/-!
# The order in which futures are shown

* `suspend_shows`: the values are shown in the order in which their futures were given, and once the last
  future has resolved, the page shows its value after so many turns of the executor.
-/

namespace Halyard.Rebuild

variable {k : ℕ} {rest : List Job} {job : Job}

namespace SuspendPage

variable {self : SuspendPage}

theorem setStage_stage (k : ℕ) (next : SuspendStage) :
    (self.setStage k next).stage = Function.update self.stage k next := by
  funext j
  by_cases same : j = k
  · simp [setStage, SuspendPage.stage, same]
  · simp [setStage, SuspendPage.stage, same]

@[simp] theorem setStage_aborted (k j : ℕ) (next : SuspendStage) :
    ((self.setStage k next).tasks j).aborted = (self.tasks j).aborted := by
  by_cases same : j = k <;> simp [setStage, same]

@[simp] theorem setStage_value (k j : ℕ) (next : SuspendStage) :
    ((self.setStage k next).tasks j).value = (self.tasks j).value := by
  by_cases same : j = k <;> simp [setStage, same]

@[simp] theorem setAborted_stage (k : ℕ) : (self.setAborted k).stage = self.stage := by
  funext j
  by_cases same : j = k <;> simp [setAborted, SuspendPage.stage, same]

@[simp] theorem setAborted_value (k j : ℕ) : ((self.setAborted k).tasks j).value = (self.tasks j).value := by
  by_cases same : j = k <;> simp [setAborted, same]

@[simp] theorem setValue_stage (k : ℕ) (view : View) : (self.setValue k view).stage = self.stage := by
  funext j
  by_cases same : j = k <;> simp [setValue, SuspendPage.stage, same]

@[simp] theorem setValue_self (k : ℕ) (view : View) :
    (self.setValue k view).tasks k = { self.tasks k with value := some view } :=
  Function.update_self ..

theorem setValue_of_ne {j : ℕ} (ne : j ≠ k) (view : View) : (self.setValue k view).tasks j = self.tasks j :=
  Function.update_of_ne ne _ _

/-- A wake changes the queue only. -/
theorem wake_eq (k : ℕ) : self.wake k = { self with queue := (self.wake k).queue } := by
  unfold wake
  split
  · rfl
  · split <;> rfl

theorem rebuild_eq : self.rebuild = { self.setAborted (self.count - 1) with
    count := self.count + 1
    queue := ((self.setAborted (self.count - 1)).wake (self.count - 1)).queue ++ [.task self.count] } := by
  rw [rebuild, abort, wake_eq]
  rfl

theorem mem_wake_self (runs : self.stage k ≠ .finished) : .task k ∈ (self.wake k).queue := by
  unfold wake
  split
  next is => exact absurd is runs
  next =>
    split
    next there => exact there
    next => exact List.mem_append_right _ List.mem_cons_self

theorem mem_wake (k : ℕ) (member : job ∈ self.queue) : job ∈ (self.wake k).queue := by
  unfold wake
  split
  · exact member
  · split
    next => exact member
    next => exact List.mem_append_left _ member

theorem wake_ordered (ordered : Ordered self.count self.stage self.queue)
    (known : k < self.count) : Ordered self.count self.stage (self.wake k).queue := by
  unfold SuspendPage.wake
  split
  · exact ordered
  · split
    next => exact ordered
    next absent => exact ordered.wake known absent

theorem runTick_eq (rest : List Job) {value : Option View} (ticks : self.stage k = .ticking value false) :
    SuspendPage.runTick k { self with queue := rest } =
      { self.setStage k (.ticking value true) with queue := rest ++ if .task k ∈ rest then [] else [.task k] } := by
  have sent : (SuspendPage.setStage k (.ticking value true) { self with queue := rest }).stage k =
      .ticking value true := by
    rw [setStage_stage, Function.update_self]
  unfold SuspendPage.runTick
  rw [show SuspendPage.stage { self with queue := rest } k = _ from ticks]
  simp only [SuspendPage.wake, sent]
  change (if Job.task k ∈ rest then _ else _) = _
  split
  · simp [setStage]
  · rfl

/-- What is shown is the last one that came out of its task, and none of those before is still to come. -/
structure Kept (base : Dom) (parent : ℕ) (before after : List ℕ) (type : ViewType) (page : SuspendPage) : Prop where
  ordered : Ordered page.count page.stage page.queue
  some_given : 0 < page.count
  aborted : ∀ k, (page.tasks k).aborted = true ↔ k + 1 < page.count
  gave : ∀ k view sent, page.stage k = .ticking (some view) sent → (page.tasks k).value = some view
  gave_none : ∀ k sent, page.stage k = .ticking none sent → k + 1 < page.count
  rendered : page.rendered.Pairwise (· < ·)
  past : ∀ k ∈ page.rendered, page.stage k = .finished ∧ (page.tasks k).value.isSome
  passed : ∀ k, page.stage k = .finished → k + 1 < page.count ∨ k ∈ page.rendered
  ofType : ∀ k view, (page.tasks k).value = some view → view.OfType type
  shows : Rebuilt base parent before after [] [.option type] page.view.trees [page.state] page.dom

/-- Whose future is there is in the queue. -/
def Polled (self : SuspendPage) : Prop :=
  ∀ k < self.count, self.stage k = .waiting → (poll (self.tasks k)).isSome → .task k ∈ self.queue

variable {base d : Dom} {parent : ℕ} {before after : List ℕ} {type : ViewType}

namespace Kept

theorem given_of_stage (kept : Kept base parent before after type self) (runs : self.stage k ≠ .waiting) :
    k < self.count := by
  by_contra above
  exact runs (kept.ordered.fresh k (Nat.le_of_not_lt above))

theorem wake (kept : Kept base parent before after type self) (known : k < self.count) :
    Kept base parent before after type (self.wake k) := by
  rw [wake_eq]
  exact { kept with ordered := wake_ordered kept.ordered known }

/-- What a task gives is its own value; only the last is not aborted. -/
theorem polled (kept : Kept base parent before after type self) (known : k < self.count) {value : Option View}
    (polled : poll (self.tasks k) = some value) :
    (∀ view, value = some view → (self.tasks k).value = some view) ∧ (value = none → k + 1 < self.count) ∧
      (value ≠ none → k + 1 = self.count) := by
  unfold poll at polled
  split at polled
  next aborted =>
    obtain rfl := Option.some.inj polled
    exact ⟨nofun, fun _ => (kept.aborted k).mp aborted, fun some => absurd rfl some⟩
  next runs =>
    obtain ⟨view, is, rfl⟩ := Option.map_eq_some_iff.mp polled
    have last : ¬ k + 1 < self.count := fun below => runs ((kept.aborted k).mpr below)
    exact ⟨fun view' same => same ▸ is, nofun, fun _ => by omega⟩

theorem run_idle (kept : Kept base parent before after type self) (queue : self.queue = job :: rest)
    (idle : ∀ value sent, self.stage job.index = .ticking value sent → (self.stage job.index).due job.index ≠ job) :
    Kept base parent before after type { self with queue := rest } := by
  have ordered := kept.ordered
  rw [queue] at ordered
  exact { kept with ordered := ordered.drop idle }

/-- The future resolves. -/
theorem setValue (kept : Kept base parent before after type self) {view : View} (ofType : view.OfType type)
    (pending : (self.tasks k).value = none) : Kept base parent before after type (self.setValue k view) := by
  have values : ∀ j value, (self.tasks j).value = some value → ((self.setValue k view).tasks j).value = some value := by
    intro j value is
    have ne : j ≠ k := fun same => by
      rw [same, pending] at is
      cases is
    rw [setValue_of_ne ne]
    exact is
  have shown : (self.setValue k view).view = self.view := by
    unfold SuspendPage.view
    rw [show (self.setValue k view).rendered = self.rendered from rfl]
    cases last : self.rendered.getLast? with
    | none => rfl
    | some j =>
      obtain ⟨value, is⟩ := Option.isSome_iff_exists.mp (kept.past j (List.mem_of_getLast? last)).2
      simp only [Option.bind_some, is, values j value is]
  exact {
    ordered := by
      rw [setValue_stage]
      exact kept.ordered
    some_given := kept.some_given
    aborted := by
      intro j
      by_cases same : j = k
      · rw [same, setValue_self]
        exact kept.aborted k
      · rw [setValue_of_ne same]
        exact kept.aborted j
    gave := by
      rw [setValue_stage]
      exact fun j value sent is => values j value (kept.gave j value sent is)
    gave_none := by
      rw [setValue_stage]
      exact kept.gave_none
    rendered := kept.rendered
    past := by
      rw [setValue_stage]
      intro j member
      obtain ⟨value, is⟩ := Option.isSome_iff_exists.mp (kept.past j member).2
      exact ⟨(kept.past j member).1, by rw [values j value is]; rfl⟩
    passed := by
      rw [setValue_stage]
      exact kept.passed
    ofType := by
      intro j value is
      by_cases same : j = k
      · rw [same, setValue_self] at is
        exact Option.some.inj is ▸ ofType
      · rw [setValue_of_ne same] at is
        exact kept.ofType j value is
    shows := by
      rw [shown]
      exact kept.shows }

/-- A task comes to `next`; only one that ends may show something. -/
theorem staged (kept : Kept base parent before after type self) {next : SuspendStage} {queue : List Job}
    {state : State} {rendered : List ℕ} (ordered : Ordered self.count (Function.update self.stage k next) queue)
    (runs : self.stage k ≠ .finished)
    (gave : ∀ view sent, next = .ticking (some view) sent → (self.tasks k).value = some view)
    (gave_none : ∀ sent, next = .ticking none sent → k + 1 < self.count)
    (sorted : rendered.Pairwise (· < ·))
    (keeps : self.rendered ⊆ rendered)
    (more : ∀ j ∈ rendered, j ∈ self.rendered ∨ j = k ∧ next = .finished ∧ (self.tasks k).value.isSome)
    (passed : next = .finished → k + 1 < self.count ∨ k ∈ rendered)
    (shows : Rebuilt base parent before after [] [.option type]
      (SuspendPage.view { self.setStage k next with queue, state, dom := d, rendered }).trees [state] d) :
    Kept base parent before after type { self.setStage k next with queue, state, dom := d, rendered } := by
  have stages : SuspendPage.stage { self.setStage k next with queue, state, dom := d, rendered } =
      Function.update self.stage k next := setStage_stage k next
  exact {
    ordered := by
      rw [stages]
      exact ordered
    some_given := kept.some_given
    aborted := fun j => by
      rw [setStage_aborted]
      exact kept.aborted j
    gave := by
      intro j view sent is
      rw [setStage_value]
      rw [stages] at is
      by_cases same : j = k
      · rw [same, Function.update_self] at is
        exact same ▸ gave view sent is
      · rw [Function.update_of_ne same] at is
        exact kept.gave j view sent is
    gave_none := by
      intro j sent is
      rw [stages] at is
      by_cases same : j = k
      · rw [same, Function.update_self] at is
        exact same ▸ gave_none sent is
      · rw [Function.update_of_ne same] at is
        exact kept.gave_none j sent is
    rendered := sorted
    past := by
      intro j member
      rw [stages, setStage_value]
      rcases more j member with before | ⟨rfl, is, gives⟩
      · have ne : j ≠ k := fun same => runs (same ▸ (kept.past j before).1)
        rw [Function.update_of_ne ne]
        exact kept.past j before
      · rw [Function.update_self]
        exact ⟨is, gives⟩
    passed := by
      intro j is
      rw [stages] at is
      by_cases same : j = k
      · rw [same, Function.update_self] at is
        exact same ▸ passed is
      · rw [Function.update_of_ne same] at is
        exact (kept.passed j is).imp_right fun before => keeps before
    ofType := fun j view is => by
      rw [setStage_value] at is
      exact kept.ofType j view is
    shows := shows }

/-- A task comes to `next` and shows nothing. -/
theorem staged_unseen (kept : Kept base parent before after type self) {next : SuspendStage} {queue : List Job}
    (ordered : Ordered self.count (Function.update self.stage k next) queue) (runs : self.stage k ≠ .finished)
    (gave : ∀ view sent, next = .ticking (some view) sent → (self.tasks k).value = some view)
    (gave_none : ∀ sent, next = .ticking none sent → k + 1 < self.count)
    (passed : next = .finished → k + 1 < self.count) :
    Kept base parent before after type { self.setStage k next with queue } := by
  refine kept.staged ordered runs gave gave_none kept.rendered (List.Subset.refl _) (fun j member => .inl member)
    (fun is => .inl (passed is)) ?_
  have shown : SuspendPage.view { self.setStage k next with queue } = self.view := by
    simp only [SuspendPage.view, setStage_value]
    rfl
  exact shown ▸ kept.shows

/-- The task ends, and shows what it has. -/
theorem finish (kept : Kept base parent before after type self) (queue : self.queue = .task k :: rest)
    (out : k = 0 ∧ self.stage k = .waiting ∨ (self.stage k).rank = 2) {value : Option View}
    (gave : ∀ view, value = some view → (self.tasks k).value = some view)
    (gone : value = none → k + 1 < self.count)
    (first : value ≠ none → ∀ m > k, self.stage m ≠ .finished) :
    Kept base parent before after type ({ self with queue := rest }.finish k value) := by
  have ordered := kept.ordered
  rw [queue] at ordered
  have ordered := ordered.finished out
  have runs : self.stage k ≠ .finished := by
    intro is
    rw [is] at out
    simp [SuspendStage.rank] at out
  have ends : ∀ value sent, SuspendStage.finished ≠ .ticking value sent := by
    intro value sent is
    cases is
  cases value with
  | none =>
    exact kept.staged_unseen ordered runs (fun view sent is => absurd is (ends _ _))
      (fun sent is => absurd is (ends _ _)) fun _ => gone rfl
  | some view =>
    have earlier : ∀ m ∈ self.rendered, m < k := by
      intro m member
      have done := (kept.past m member).1
      rcases Nat.lt_trichotomy m k with before | same | later
      · exact before
      · exact absurd (same ▸ done) runs
      · exact absurd done (first (Option.some_ne_none view) m later)
    have is := gave view rfl
    have shown : SuspendPage.view ({ self with queue := rest }.finish k (some view)) = .optionSome view := by
      simp [SuspendPage.view, SuspendPage.finish, is]
    refine kept.staged ordered runs (fun view sent is => absurd is (ends _ _)) (fun sent is => absurd is (ends _ _)) ?_
      (List.subset_append_left _ _) ?_ (fun _ => .inr (List.mem_append_right _ List.mem_cons_self)) ?_
    · refine List.pairwise_append.mpr ⟨kept.rendered, List.pairwise_singleton _ _, fun m member only at' => ?_⟩
      rw [List.mem_singleton.mp at']
      exact earlier m member
    · intro j member
      refine (List.mem_append.mp member).imp_right fun only => ⟨List.mem_singleton.mp only, rfl, by rw [is]; rfl⟩
    · have turn := rebuild_spec (View.optionSome view) (show View.OfType _ (.option type) from kept.ofType k view is) self.state
        self.dom parent before after kept.shows.fits.1 kept.shows.placed
      change Rebuilt base parent before after [] [.option type]
        (SuspendPage.view ({ self with queue := rest }.finish k (some view))).trees _ _
      rw [shown]
      exact kept.shows.trans turn

theorem runTask (kept : Kept base parent before after type self) (queue : self.queue = .task k :: rest) :
    Kept base parent before after type ({ self with queue := rest }.runTask k) := by
  have ordered := kept.ordered
  rw [queue] at ordered
  unfold SuspendPage.runTask
  split
  next is =>
    have waits : self.stage k = .waiting := is
    split
    next value polled =>
      obtain ⟨gave, gone, last⟩ := kept.polled (ordered.known _ List.mem_cons_self) polled
      split
      next zero =>
        refine kept.finish queue (.inl ⟨zero, waits⟩) gave gone fun some m later done => ?_
        have fresh := ordered.fresh m (last some ▸ later)
        cases fresh.symm.trans done
      next =>
        refine kept.staged_unseen (ordered.tick_spawned waits last) (fun is => nomatch waits.symm.trans is) ?_ ?_ nofun
        · intro view sent same
          cases same
          exact gave view rfl
        · intro sent same
          cases same
          exact gone rfl
    next => exact kept.run_idle queue fun _ _ ticks => nomatch waits.symm.trans ticks
  next value is =>
    have ticks : self.stage k = .ticking value true := is
    refine kept.finish queue (.inr (by rw [ticks]; rfl)) (fun view same => kept.gave k view true (same ▸ ticks))
      (fun none => kept.gave_none k true (none ▸ ticks)) fun some m later done => ?_
    have holds : (self.stage k).Holds := by
      rw [ticks]
      cases value with
      | none => exact absurd rfl some
      | some view => trivial
    have ahead := ordered.ahead k m later holds
    rw [done, ticks] at ahead
    exact absurd ahead (Nat.not_lt.mpr (Nat.le_succ 2))
  next value is =>
    have ticks : self.stage k = .ticking value false := is
    refine kept.run_idle queue fun _ _ _ => ?_
    change (self.stage k).due k ≠ .task k
    rw [ticks]
    exact nofun
  next is =>
    have done : self.stage k = .finished := is
    exact kept.run_idle queue fun _ _ ticks => nomatch done.symm.trans ticks

theorem runTick (kept : Kept base parent before after type self) (queue : self.queue = .tick k :: rest) :
    Kept base parent before after type ({ self with queue := rest }.runTick k) := by
  have ordered := kept.ordered
  rw [queue] at ordered
  obtain ⟨value, ticks⟩ := ordered.tick k List.mem_cons_self
  have ordered := ordered.tick_sent ticks
  rw [runTick_eq rest ticks]
  refine kept.staged_unseen ordered (fun is => nomatch ticks.symm.trans is) ?_ ?_ nofun
  · intro view sent same
    cases same
    exact kept.gave k view false ticks
  · intro sent same
    cases same
    exact kept.gave_none k false ticks

theorem turn (kept : Kept base parent before after type self) : Kept base parent before after type self.turn := by
  unfold SuspendPage.turn
  split
  next => exact kept
  next k rest queue => exact kept.runTask queue
  next k rest queue => exact kept.runTick queue

/-- The one before is aborted, and the next one is spawned. -/
theorem rebuild (kept : Kept base parent before after type self) : Kept base parent before after type self.rebuild := by
  have some_given := kept.some_given
  have ordered : Ordered (self.setAborted (self.count - 1)).count (self.setAborted (self.count - 1)).stage
      (self.setAborted (self.count - 1)).queue := by
    rw [setAborted_stage]
    exact kept.ordered
  have stage : SuspendPage.stage self.rebuild = self.stage := by
    rw [rebuild_eq]
    exact setAborted_stage _
  have value : ∀ j, (self.rebuild.tasks j).value = (self.tasks j).value := by
    rw [rebuild_eq]
    exact setAborted_value _
  have count : self.rebuild.count = self.count + 1 := by rw [rebuild_eq]
  have rendered : self.rebuild.rendered = self.rendered := by
    rw [rebuild_eq]
    rfl
  exact {
    ordered := by
      rw [rebuild_eq]
      exact (wake_ordered ordered (Nat.sub_lt some_given Nat.one_pos)).spawn
    some_given := count ▸ Nat.succ_pos _
    aborted := by
      intro j
      have is := kept.aborted j
      rw [rebuild_eq]
      change ((self.setAborted (self.count - 1)).tasks j).aborted = true ↔ j + 1 < self.count + 1
      unfold SuspendPage.setAborted
      by_cases same : j = self.count - 1
      · simp only [same, Function.update_self, true_iff]
        omega
      · simp only [Function.update_of_ne same, is]
        omega
    gave := fun j view sent is => (value j).trans (kept.gave j view sent (stage ▸ is))
    gave_none := fun j sent is => count ▸ (kept.gave_none j sent (stage ▸ is)).trans (Nat.lt_succ_self _)
    rendered := rendered ▸ kept.rendered
    past := by
      rw [rendered, stage]
      intro j member
      rw [value]
      exact kept.past j member
    passed := by
      rw [rendered, stage, count]
      exact fun j is => (kept.passed j is).imp_left fun below => below.trans (Nat.lt_succ_self _)
    ofType := fun j view is => kept.ofType j view ((value j).symm.trans is)
    shows := by
      have shown : self.rebuild.view = self.view := by simp only [SuspendPage.view, value, rendered]
      rw [shown, rebuild_eq]
      exact kept.shows }

theorem resolve (kept : Kept base parent before after type self) {view : View} (ofType : view.OfType type) :
    Kept base parent before after type (self.resolve k view) := by
  unfold SuspendPage.resolve
  split
  next => exact kept
  next pending =>
    have resolved := kept.setValue ofType pending
    split
    next known => exact resolved.wake known
    next => exact resolved

theorem step (kept : Kept base parent before after type self) (event : SuspendEvent)
    (ofType : ∀ k view, event = .resolve k view → view.OfType type) :
    Kept base parent before after type (self.step event) := by
  cases event with
  | rebuild => exact kept.rebuild
  | resolve k view => exact kept.resolve (ofType k view rfl)
  | wake k =>
    rw [SuspendPage.step]
    split
    next known => exact kept.wake known
    next => exact kept
  | turn => exact kept.turn

end Kept

namespace Polled

/-- A job is run that may bring its task out of waiting. -/
theorem after_job (polled : Polled self) (queue : self.queue = job :: rest) {page : SuspendPage}
    (count : page.count = self.count) (tasks : ∀ j ≠ job.index, page.tasks j = self.tasks j)
    (more : rest ⊆ page.queue) (out : page.stage job.index = .waiting → poll (page.tasks job.index) = none) :
    Polled page := by
  intro j known waits isSome
  by_cases same : j = job.index
  · rw [same] at waits isSome
    rw [out waits] at isSome
    cases isSome
  · have is := tasks j same
    rw [count] at known
    rw [SuspendPage.stage, is] at waits
    rw [is] at isSome
    have member := polled j known waits isSome
    rw [queue] at member
    refine more ((List.mem_cons.mp member).resolve_left fun head => same ?_)
    rw [← head]
    rfl

theorem wake (polled : Polled self) (k : ℕ) : Polled (self.wake k) := by
  rw [wake_eq]
  exact fun j known waits isSome => mem_wake k (polled j known waits isSome)

end Polled

/-- The first job leaves the queue; its task stays where it is, or comes to `next`. -/
theorem Kept.turn_of_queue (kept : Kept base parent before after type self) (queue : self.queue = job :: rest) :
    self.turn = { self with queue := rest } ∧
        (self.stage job.index = .waiting → poll (self.tasks job.index) = none) ∨
      ∃ next more state dom rendered,
        self.turn = { self.setStage job.index next with queue := rest ++ more, state, dom, rendered } ∧
        next ≠ .waiting ∧ (self.stage job.index).rank ≤ next.rank ∧
        (more = [] ∨ more.length = 1 ∧ (self.stage job.index).rank < min 2 next.rank) := by
  have ordered := kept.ordered
  rw [queue] at ordered
  have finish : ∀ k value, (self.stage k).rank ≤ 3 → ∃ next more state dom rendered,
      SuspendPage.finish k value { self with queue := rest } =
        { self.setStage k next with queue := rest ++ more, state, dom, rendered } ∧
      next ≠ .waiting ∧ (self.stage k).rank ≤ next.rank ∧
      (more = [] ∨ more.length = 1 ∧ (self.stage k).rank < min 2 next.rank) := by
    intro k value bound
    cases value with
    | none => exact ⟨.finished, [], self.state, self.dom, self.rendered, by
        rw [List.append_nil]
        rfl, nofun, bound, .inl rfl⟩
    | some view => exact ⟨.finished, [], _, _, self.rendered ++ [k], by
        rw [List.append_nil]
        rfl, nofun, bound, .inl rfl⟩
  unfold SuspendPage.turn
  rw [queue]
  cases job with
  | task k =>
    change SuspendPage.runTask k _ = _ ∧ _ ∨ ∃ next more state dom rendered, SuspendPage.runTask k _ = _ ∧ _
    unfold SuspendPage.runTask
    split
    next is =>
      have waits : self.stage k = .waiting := is
      split
      next value polled =>
        split
        next => exact .inr (finish k value (by rw [waits]; exact Nat.zero_le _))
        next =>
          refine .inr ⟨_, [.tick k], _, _, _, rfl, nofun, ?_, .inr ⟨rfl, ?_⟩⟩
          · change (self.stage k).rank ≤ _
            rw [waits]
            exact Nat.zero_le _
          · change (self.stage k).rank < _
            rw [waits]
            exact Nat.one_pos
      next none => exact .inl ⟨rfl, fun _ => none⟩
    next value is => exact .inr (finish k value (by rw [show self.stage k = _ from is]; exact Nat.le_succ 2))
    next value is => exact .inl ⟨rfl, fun waits => nomatch waits.symm.trans is⟩
    next is => exact .inl ⟨rfl, fun waits => nomatch waits.symm.trans is⟩
  | tick k =>
    obtain ⟨value, ticks⟩ := ordered.tick k List.mem_cons_self
    refine .inr ?_
    refine ⟨_, _, _, _, _, runTick_eq rest ticks, nofun, ?_, ?_⟩
    · change (self.stage k).rank ≤ _
      rw [ticks]
      exact Nat.le_succ 1
    · split
      next => exact .inl rfl
      next =>
        refine .inr ⟨rfl, ?_⟩
        change (self.stage k).rank < _
        rw [ticks]
        exact Nat.one_lt_two

theorem Kept.turn_keeps (kept : Kept base parent before after type self) :
    self.turn.count = self.count ∧ ∀ k, (self.turn.tasks k).value = (self.tasks k).value := by
  cases queue : self.queue with
  | nil =>
    rw [SuspendPage.turn, queue]
    exact ⟨rfl, fun _ => rfl⟩
  | cons job rest =>
    rcases kept.turn_of_queue queue with ⟨turned, -⟩ | ⟨next, more, state, dom, rendered, turned, -⟩
    · rw [turned]
      exact ⟨rfl, fun _ => rfl⟩
    · rw [turned]
      exact ⟨rfl, fun k => setStage_value _ k next⟩

namespace Polled

theorem turn (kept : Kept base parent before after type self) (polled : Polled self) : Polled self.turn := by
  cases queue : self.queue with
  | nil =>
    rw [SuspendPage.turn, queue]
    exact polled
  | cons job rest =>
    rcases kept.turn_of_queue queue with ⟨turned, out⟩ | ⟨next, more, state, dom, rendered, turned, runs, -⟩
    · rw [turned]
      exact polled.after_job queue rfl (fun _ _ => rfl) (List.Subset.refl _) out
    · rw [turned]
      refine polled.after_job queue rfl (fun j ne => Function.update_of_ne ne _ _) (List.subset_append_left _ _) ?_
      intro waits
      have is : (self.setStage job.index next).stage job.index = next := by rw [setStage_stage, Function.update_self]
      exact absurd (is.symm.trans waits) runs

theorem rebuild (polled : Polled self) : Polled self.rebuild := by
  rw [rebuild_eq]
  intro j known waits isSome
  change (self.setAborted (self.count - 1)).stage j = _ at waits
  change (poll ((self.setAborted (self.count - 1)).tasks j)).isSome at isSome
  rcases Nat.lt_succ_iff_lt_or_eq.mp known with below | new
  · refine List.mem_append_left _ ?_
    by_cases same : j = self.count - 1
    · rw [same] at waits ⊢
      exact mem_wake_self fun done => nomatch waits.symm.trans done
    · rw [setAborted_stage] at waits
      have is : (self.setAborted (self.count - 1)).tasks j = self.tasks j := Function.update_of_ne same _ _
      rw [is] at isSome
      exact mem_wake _ (polled j below waits isSome)
  · rw [new]
    exact List.mem_append_right _ List.mem_cons_self

theorem resolve (polled : Polled self) (k : ℕ) (view : View) : Polled (self.resolve k view) := by
  have other : ∀ j ≠ k, j < self.count → (self.setValue k view).stage j = .waiting →
      (poll ((self.setValue k view).tasks j)).isSome → .task j ∈ (self.setValue k view).queue := by
    intro j ne known waits isSome
    rw [setValue_stage] at waits
    rw [setValue_of_ne ne] at isSome
    exact polled j known waits isSome
  unfold SuspendPage.resolve
  split
  next => exact polled
  next pending =>
    split
    next here =>
      intro j known waits isSome
      rw [wake_eq] at known waits isSome
      by_cases same : j = k
      · rw [same] at waits ⊢
        exact mem_wake_self fun done => nomatch waits.symm.trans done
      · exact mem_wake k (other j same known waits isSome)
    next above =>
      intro j known waits isSome
      have ne : j ≠ k := fun same => above (same ▸ known)
      exact other j ne known waits isSome

theorem step (kept : Kept base parent before after type self) (polled : Polled self) (event : SuspendEvent) :
    Polled (self.step event) := by
  cases event with
  | rebuild => exact polled.rebuild
  | resolve k view => exact polled.resolve k view
  | wake k =>
    rw [SuspendPage.step]
    split
    next => exact polled.wake k
    next => exact polled
  | turn => exact polled.turn kept

end Polled

/-! ## The executor comes to rest -/

/-- How many turns there are to come at most. -/
def toCome (self : SuspendPage) : ℕ :=
  self.queue.length + ∑ k ∈ Finset.range self.count, (2 - (self.stage k).rank)

theorem Kept.turn_toCome (kept : Kept base parent before after type self) (some_job : self.queue ≠ []) :
    self.turn.toCome < self.toCome := by
  obtain ⟨job, rest, queue⟩ := List.exists_cons_of_ne_nil some_job
  have known : job.index ∈ Finset.range self.count := by
    refine Finset.mem_range.mpr (kept.ordered.known job ?_)
    rw [queue]
    exact List.mem_cons_self
  rcases kept.turn_of_queue queue with ⟨turned, -⟩ | ⟨next, more, state, dom, rendered, turned, -, up, short⟩
  · rw [turned, toCome, toCome, queue, List.length_cons]
    exact Nat.add_lt_add_right (Nat.lt_succ_self _) _
  · have stages : SuspendPage.stage
        { self.setStage job.index next with queue := rest ++ more, state, dom, rendered } =
        Function.update self.stage job.index next := setStage_stage _ _
    have le : ∀ k ∈ Finset.range self.count,
        2 - (Function.update self.stage job.index next k).rank ≤ 2 - (self.stage k).rank := by
      intro k _
      by_cases same : k = job.index
      · rw [same, Function.update_self]
        exact Nat.sub_le_sub_left up 2
      · rw [Function.update_of_ne same]
    rw [turned, toCome, toCome, stages, queue, List.length_cons, List.length_append]
    change rest.length + more.length + ∑ k ∈ Finset.range self.count, _ < _
    rcases short with rfl | ⟨one, less⟩
    · exact Nat.add_lt_add_of_lt_of_le (Nat.lt_succ_self _) (Finset.sum_le_sum le)
    · rw [one]
      refine Nat.add_lt_add_left (Finset.sum_lt_sum le ⟨job.index, known, ?_⟩) _
      rw [Function.update_self]
      omega

theorem toCome_le : self.toCome ≤ self.queue.length + 2 * self.count := by
  refine Nat.add_le_add_left ?_ _
  calc ∑ k ∈ Finset.range self.count, (2 - (self.stage k).rank)
      ≤ ∑ _k ∈ Finset.range self.count, 2 := Finset.sum_le_sum fun _ _ => Nat.sub_le 2 _
    _ = 2 * self.count := by rw [Finset.sum_const, Finset.card_range, smul_eq_mul, Nat.mul_comm]

theorem run_keeps (kept : Kept base parent before after type self) (polled : Polled self)
    (events : List SuspendEvent) (ofType : ∀ k view, .resolve k view ∈ events → view.OfType type) :
    Kept base parent before after type (self.run events) ∧ Polled (self.run events) := by
  induction events generalizing self with
  | nil => exact ⟨kept, polled⟩
  | cons event rest ih =>
    exact ih (kept.step event fun k view is => ofType k view (is ▸ List.mem_cons_self)) (polled.step kept event)
      fun k view member => ofType k view (List.mem_cons_of_mem _ member)

theorem turns_of_rest (queue : self.queue = []) (turns : ℕ) : self.run (List.replicate turns .turn) = self := by
  have still : self.turn = self := by rw [turn, queue]
  induction turns with
  | zero => rfl
  | succ turns ih =>
    change self.turn.run _ = self
    rw [still]
    exact ih

/-- After so many turns the queue is empty, and stays so. -/
theorem turns_rest (kept : Kept base parent before after type self) (turns : ℕ) (enough : self.toCome ≤ turns) :
    (self.run (List.replicate turns .turn)).queue = [] ∧
      (self.run (List.replicate turns .turn)).count = self.count ∧
      ∀ k, ((self.run (List.replicate turns .turn)).tasks k).value = (self.tasks k).value := by
  by_cases queue : self.queue = []
  · rw [turns_of_rest queue]
    exact ⟨queue, rfl, fun _ => rfl⟩
  · induction turns generalizing self with
    | zero => exact absurd (kept.turn_toCome queue) (by omega)
    | succ turns ih =>
      have less := kept.turn_toCome queue
      obtain ⟨count, values⟩ := kept.turn_keeps
      have after : (self.turn.run (List.replicate turns .turn)).queue = [] ∧
          (self.turn.run (List.replicate turns .turn)).count = self.turn.count ∧
          ∀ k, ((self.turn.run (List.replicate turns .turn)).tasks k).value = (self.turn.tasks k).value := by
        by_cases rests : self.turn.queue = []
        · rw [turns_of_rest rests]
          exact ⟨rests, rfl, fun _ => rfl⟩
        · exact ih kept.turn (by omega) rests
      exact ⟨after.1, after.2.1.trans count, fun k => (after.2.2 k).trans (values k)⟩

/-- When the executor is at rest, the last one is shown if its future has resolved. -/
theorem Kept.view_of_rest (kept : Kept base parent before after type self) (polled : Polled self)
    (queue : self.queue = []) {view : View} (resolved : (self.tasks (self.count - 1)).value = some view) :
    self.view = .optionSome view := by
  have some_given := kept.some_given
  have known : self.count - 1 < self.count := by omega
  have done : self.stage (self.count - 1) = .finished := by
    cases is : self.stage (self.count - 1) with
    | waiting =>
      have isSome : (poll (self.tasks (self.count - 1))).isSome := by
        unfold poll
        split
        · rfl
        · rw [resolved]
          rfl
      have member := polled _ known is isSome
      rw [queue] at member
      cases member
    | ticking value sent =>
      have member := kept.ordered.due _ value sent is
      rw [queue] at member
      cases member
    | finished => rfl
  have shown : self.count - 1 ∈ self.rendered := (kept.passed _ done).resolve_left (by omega)
  obtain ⟨first, last, split⟩ := List.append_of_mem shown
  have none_later : last = [] := by
    refine List.eq_nil_iff_forall_not_mem.mpr fun k member => ?_
    have sorted := kept.rendered
    rw [split] at sorted
    have later := List.rel_of_pairwise_cons (List.pairwise_append.mp sorted).2.1 member
    have past := kept.past k (by rw [split]; exact List.mem_append_right _ (List.mem_cons_of_mem _ member))
    have given := kept.given_of_stage (k := k) (by rw [past.1]; exact nofun)
    omega
  rw [SuspendPage.view, split, none_later, List.getLast?_concat, Option.bind_some, resolved]

theorem build_stage (initial : Option View) (parent : ℕ) (anchor : Option ℕ) (d : Dom) (k : ℕ) :
    (build initial parent anchor d).stage k = if k = 0 ∧ initial.isSome then .finished else .waiting := by
  unfold SuspendPage.stage build
  dsimp only
  by_cases zero : k = 0
  · simp [zero]
  · simp [zero]

theorem Kept.build (initial : Option View) (ofType : ∀ view, initial = some view → view.OfType type)
    (placed : Placed base parent before after []) :
    Kept base parent before after type (build initial parent after.head? base) := by
  have stage := build_stage initial parent after.head? base
  have noTick : ∀ k value sent, (SuspendPage.build initial parent after.head? base).stage k ≠ .ticking value sent := by
    intro k value sent is
    rw [stage] at is
    split at is <;> cases is
  exact {
    ordered := {
      nodup := by
        cases initial with
        | none => exact List.nodup_singleton _
        | some view => exact List.nodup_nil
      known := by
        intro job member
        cases initial with
        | none =>
          rw [List.mem_singleton.mp member]
          exact Nat.one_pos
        | some view => cases member
      fresh := by
        intro k above
        change 1 ≤ k at above
        rw [stage, if_neg fun both => by omega]
      due := fun k value sent is => absurd is (noTick k value sent)
      tick := by
        intro k member
        cases initial with
        | none => cases List.mem_singleton.mp member
        | some view => cases member
      ahead := by
        intro j k _ holds
        obtain ⟨value, sent, is⟩ := holds.ticks
        exact absurd is (noTick j value sent)
      inTurn := by
        cases initial with
        | none => exact List.pairwise_singleton _ _
        | some view => exact List.Pairwise.nil }
    some_given := Nat.one_pos
    aborted := by
      intro k
      unfold SuspendPage.build
      dsimp only
      split <;> simp
    gave := fun k view sent is => absurd is (noTick k _ sent)
    gave_none := fun k sent is => absurd is (noTick k _ sent)
    rendered := by
      cases initial with
      | none => exact List.Pairwise.nil
      | some view => exact List.pairwise_singleton _ _
    past := by
      intro k member
      cases initial with
      | none => cases member
      | some view =>
        rw [List.mem_singleton.mp member, stage]
        exact ⟨rfl, rfl⟩
    passed := by
      intro k is
      rw [stage] at is
      split at is
      next both =>
        obtain ⟨rfl, isSome⟩ := both
        obtain ⟨view, rfl⟩ := Option.isSome_iff_exists.mp isSome
        exact .inr List.mem_cons_self
      next => cases is
    ofType := by
      intro k view is
      unfold SuspendPage.build at is
      dsimp only at is
      split at is
      next => exact ofType view is
      next => cases is
    shows := by
      cases initial with
      | none => exact View.optionNone.mounted_spec (show View.OfType _ (.option type) from trivial) placed
      | some view => exact (View.optionSome view).mounted_spec (show View.OfType _ (.option type) from ofType view rfl) placed }

theorem Polled.build (initial : Option View) (parent : ℕ) (anchor : Option ℕ) (d : Dom) :
    Polled (build initial parent anchor d) := by
  intro k known waits _
  obtain rfl : k = 0 := Nat.lt_one_iff.mp known
  rw [build_stage] at waits
  cases initial with
  | none => exact List.mem_cons_self
  | some view => cases waits

end SuspendPage

/-- What `dom` has under the parent is what mounting the view there alone gives. -/
def ShownAlone (d : Dom) (parent : ℕ) (before after : List ℕ) (view : View) (dom : Dom) : Prop :=
  let alone := (view.mounted parent after.head? d).2
  ∃ nodes nodes', dom.children parent = before ++ nodes ++ after ∧
    alone.children parent = before ++ nodes' ++ after ∧ List.Forall₂ (Alike dom alone) nodes nodes'

end Halyard.Rebuild
