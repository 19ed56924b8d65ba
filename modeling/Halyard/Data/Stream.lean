import Halyard.Data.Resource
import Halyard.Reaches

/-!
# The data stream

`SsrSharedContext`: resources and errors are registered, and error boundaries sealed, before the
stream of data scripts is made (`pending_data`) and while it runs (`AsyncDataStream`).  Futures
complete between polls; what a future registers while it is polled comes before the poll, as the
errors are taken after all futures have been polled.

* `stream_emits`: what the stream has emitted when it ends, in runs in which its first chunk is made
  while no registered error belongs to a sealed boundary.
-/

namespace Halyard.Data

/-! ## Chunks -/

/-- A future that was registered with `write_async`; they are numbered as they come. -/
structure Resource where
  number : ℕ
  id : ℕ
  deriving DecidableEq

/-- An error that was registered. -/
structure SerializedError where
  number : ℕ
  boundary : ℕ
  errorId : ℕ
  message : List Char
  deriving DecidableEq

/-- What a chunk is made of. -/
inductive Chunk where
  | initial (errors : List SerializedError) (pending : List Resource)
  | more (resolved : List (Resource × List Char)) (errors : List SerializedError)

def Chunk.resolved : Chunk → List (Resource × List Char)
  | .initial _ _ => []
  | .more resolved _ => resolved

def Chunk.errors : Chunk → List SerializedError
  | .initial errors _ => errors
  | .more _ errors => errors

section Script

variable (unicode : Unicode)

/-- `[boundary, id, message]`. -/
def SerializedError.entry (error : SerializedError) : List Char :=
  ['['] ++ Nat.toDigits 10 error.boundary ++ [',', ' '] ++ Nat.toDigits 10 error.errorId ++
    [',', ' '] ++ replaceLt (debug unicode error.message) ++ [']']

def SerializedError.push (error : SerializedError) : List Char :=
  "__SERIALIZED_ERRORS.push(".toList ++ error.entry unicode ++ [')', ';']

/-- The text of a chunk. -/
def Chunk.script : Chunk → List Char
  | .initial errors pending =>
      "__RESOLVED_RESOURCES=[];__SERIALIZED_ERRORS=[".toList ++
        (errors.flatMap fun error => error.entry unicode ++ [',']) ++ "];__PENDING_RESOURCES=[".toList ++
        (pending.flatMap fun resource => Nat.toDigits 10 resource.id ++ [',']) ++
        "];__RESOURCE_RESOLVERS=[];".toList
  | .more resolved errors =>
      (resolved.flatMap fun entry => resourceScript unicode entry.1.id entry.2) ++
        errors.flatMap (SerializedError.push unicode)

theorem script_ne_nil (id : ℕ) (data : List Char) : resourceScript unicode id data ≠ [] := by
  unfold resourceScript
  exact List.append_ne_nil_of_right_ne_nil _ (List.cons_ne_nil _ _)

theorem push_ne_nil (error : SerializedError) : error.push unicode ≠ [] := by
  unfold SerializedError.push
  exact List.append_ne_nil_of_right_ne_nil _ (List.cons_ne_nil _ _)

/-- `resolved.is_empty()`. -/
theorem script_eq_nil_iff (resolved : List (Resource × List Char)) (errors : List SerializedError) :
    (Chunk.more resolved errors).script unicode = [] ↔ resolved = [] ∧ errors = [] := by
  unfold Chunk.script
  rw [List.append_eq_nil_iff, List.flatMap_eq_nil_iff, List.flatMap_eq_nil_iff]
  constructor
  · rintro ⟨resources, pushes⟩
    constructor
    · exact List.eq_nil_iff_forall_not_mem.mpr fun entry member =>
        script_ne_nil unicode _ _ (resources entry member)
    · exact List.eq_nil_iff_forall_not_mem.mpr fun error member =>
        push_ne_nil unicode _ (pushes error member)
  · rintro ⟨rfl, rfl⟩
    simp

end Script

/-! ## The stream -/

inductive Phase where
  | unstarted
  | running
  | ended
  deriving DecidableEq

/-- The shared state.  `resources`, `registered` and `sent` are only watched: all that has been
registered so far, and the chunks so far, each with the boundaries that were sealed then. -/
structure State where
  asyncBuf : List Resource
  /-- What the futures that have completed give. -/
  completed : ℕ → Option (List Char)
  errors : List SerializedError
  sealedErrorBoundaries : List ℕ
  phase : Phase
  resources : List Resource
  registered : List SerializedError
  sent : List (Chunk × List ℕ)

def State.new : State where
  asyncBuf := []
  completed _ := none
  errors := []
  sealedErrorBoundaries := []
  phase := .unstarted
  resources := []
  registered := []
  sent := []

inductive Act where
  | writeAsync (id : ℕ)
  | complete (number : ℕ) (data : List Char)
  | registerError (boundary errorId : ℕ) (message : List Char)
  | sealErrors (boundary : ℕ)
  | pendingData
  | poll

namespace State

def writeAsync (s : State) (id : ℕ) : State :=
  let resource := ⟨s.resources.length, id⟩
  { s with asyncBuf := s.asyncBuf ++ [resource], resources := s.resources ++ [resource] }

def registerError (s : State) (boundary errorId : ℕ) (message : List Char) : State :=
  let error := ⟨s.registered.length, boundary, errorId, message⟩
  { s with errors := s.errors ++ [error], registered := s.registered ++ [error] }

def emit (s : State) (chunk : Chunk) : State :=
  { s with sent := s.sent ++ [(chunk, s.sealedErrorBoundaries)] }

/-- The initial chunk takes all errors. -/
def pendingData (s : State) : State :=
  { s.emit (.initial s.errors s.asyncBuf) with errors := [], phase := .running }

/-- The futures that are ready, with what they give. -/
def ready (s : State) : List (Resource × List Char) :=
  s.asyncBuf.filterMap fun resource => (s.completed resource.number).map fun data => (resource, data)

/-- The futures that are put back. -/
def notReady (s : State) : List Resource :=
  s.asyncBuf.filter fun resource => (s.completed resource.number).isNone

/-- The errors that are written. -/
def unsealed (s : State) : List SerializedError :=
  s.errors.filter fun error => error.boundary ∉ s.sealedErrorBoundaries

/-- `AsyncDataStream::poll_next`. -/
def pollNext (s : State) : State :=
  let drained := { s with asyncBuf := s.notReady, errors := [] }
  if s.ready = [] ∧ s.unsealed = [] then
    -- nothing to send: the stream ends, or is pending while futures are
    if s.notReady = [] then { drained with phase := .ended } else drained
  else drained.emit (.more s.ready s.unsealed)

/-- A run ends when the stream does. -/
def step (s : State) : Act → Option State
  | act =>
    if s.phase = .ended then none
    else
      match act with
      | .writeAsync id => some (s.writeAsync id)
      | .complete number data =>
          if s.completed number = none then
            some { s with completed := Function.update s.completed number (some data) }
          else none
      | .registerError boundary errorId message => some (s.registerError boundary errorId message)
      | .sealErrors boundary =>
          some { s with sealedErrorBoundaries := insert boundary s.sealedErrorBoundaries }
      | .pendingData => if s.phase = .unstarted then some s.pendingData else none
      | .poll => if s.phase = .running then some s.pollNext else none

/-! ## What it has emitted -/

def sentResources (s : State) : List (Resource × List Char) :=
  s.sent.flatMap fun chunk => chunk.1.resolved

def sentErrors (s : State) : List SerializedError :=
  s.sent.flatMap fun chunk => chunk.1.errors

/-- What the stream owes: when it ends, the data of each resource has been emitted once, under its
own id, and each error whose boundary is not sealed once; and no chunk has an error of a boundary
that was sealed when the chunk was made. -/
structure Emits (s : State) : Prop where
  resources : s.phase = .ended → ∀ resource ∈ s.resources,
    ∃ data, s.completed resource.number = some data ∧ (resource, data) ∈ s.sentResources ∧
      (s.sentResources.map Prod.fst).count resource = 1
  errors : s.phase = .ended → ∀ error ∈ s.registered, error.boundary ∉ s.sealedErrorBoundaries →
    s.sentErrors.count error = 1
  pending : s.phase = .ended → ∀ resource ∈ s.resources, s.completed resource.number ≠ none
  unsealed : ∀ chunk ∈ s.sent, ∀ error ∈ chunk.1.errors, error.boundary ∉ chunk.2
  /-- Before it ends, too, nothing is emitted twice. -/
  once : (s.sentResources.map Prod.fst).Nodup ∧ s.sentErrors.Nodup

/-- The first chunk is made while no registered error belongs to a sealed boundary. -/
def Unsealed (s : State) : Act → Prop
  | .pendingData => ∀ error ∈ s.errors, error.boundary ∉ s.sealedErrorBoundaries
  | _ => True

/-! ## The invariant -/

structure Inv (s : State) : Prop where
  resources : (s.sentResources.map Prod.fst ++ s.asyncBuf).Perm s.resources
  nodup : s.resources.Nodup
  numbers : ∀ resource ∈ s.resources, resource.number < s.resources.length
  data : ∀ entry ∈ s.sentResources, s.completed entry.1.number = some entry.2
  /-- What is neither sent nor still there was left out, its boundary being sealed. -/
  errors : ∃ dropped, (s.sentErrors ++ s.errors ++ dropped).Perm s.registered ∧
    ∀ error ∈ dropped, error.boundary ∈ s.sealedErrorBoundaries
  nodupErrors : s.registered.Nodup
  numbersErrors : ∀ error ∈ s.registered, error.number < s.registered.length
  unsealed : ∀ chunk ∈ s.sent, ∀ error ∈ chunk.1.errors, error.boundary ∉ chunk.2
  ended : s.phase = .ended → s.asyncBuf = [] ∧ s.errors = []

theorem Inv.new : State.new.Inv := by
  constructor <;> simp [State.new, sentResources, sentErrors]

variable {s s' : State}

@[simp] theorem sentResources_emit (chunk : Chunk) :
    (s.emit chunk).sentResources = s.sentResources ++ chunk.resolved := by
  simp [sentResources, emit]

@[simp] theorem sentErrors_emit (chunk : Chunk) :
    (s.emit chunk).sentErrors = s.sentErrors ++ chunk.errors := by
  simp [sentErrors, emit]

theorem ready_perm (s : State) : (s.ready.map Prod.fst ++ s.notReady).Perm s.asyncBuf := by
  have first : s.ready.map Prod.fst =
      s.asyncBuf.filter fun resource => !(s.completed resource.number).isNone := by
    unfold ready
    induction s.asyncBuf with
    | nil => rfl
    | cons resource rest ih =>
      cases done : s.completed resource.number with
      | none => simpa [done] using ih
      | some data => simpa [done] using ih
  rw [first]
  exact List.perm_append_comm.trans (List.filter_append_perm _ _)

/-! ### Each operation keeps it -/

theorem Inv.writeAsync (inv : s.Inv) (going : s.phase ≠ .ended) (id : ℕ) : (s.writeAsync id).Inv := by
  have fresh : (⟨s.resources.length, id⟩ : Resource) ∉ s.resources := by
    intro known
    exact Nat.lt_irrefl _ (inv.numbers _ known)
  refine ⟨?_, ?_, ?_, inv.data, inv.errors, inv.nodupErrors, inv.numbersErrors, inv.unsealed, ?_⟩
  · change (s.sentResources.map Prod.fst ++ (s.asyncBuf ++ _)).Perm (s.resources ++ _)
    rw [← List.append_assoc]
    exact inv.resources.append_right _
  · exact List.nodup_append.mpr ⟨inv.nodup, List.nodup_singleton _, by
      intro known member new only
      rw [List.mem_singleton.mp only]
      rintro rfl
      exact fresh member⟩
  · intro resource member
    change resource.number < (s.resources ++ [_]).length
    rw [List.length_append, List.length_singleton]
    rcases List.mem_append.mp member with old | new
    · exact Nat.lt_succ_of_lt (inv.numbers resource old)
    · rw [List.mem_singleton.mp new]
      exact Nat.lt_succ_self _
  · intro ended
    exact absurd ended going

theorem Inv.complete (inv : s.Inv) {number : ℕ} (pending : s.completed number = none)
    (data : List Char) :
    State.Inv { s with completed := Function.update s.completed number (some data) } := by
  refine ⟨inv.resources, inv.nodup, inv.numbers, ?_, inv.errors, inv.nodupErrors, inv.numbersErrors,
    inv.unsealed, inv.ended⟩
  intro entry member
  have before := inv.data entry member
  have other : entry.1.number ≠ number := by
    intro same
    rw [same, pending] at before
    cases before
  change Function.update s.completed number (some data) entry.1.number = some entry.2
  rw [Function.update_of_ne other, before]

theorem Inv.registerError (inv : s.Inv) (going : s.phase ≠ .ended) (boundary errorId : ℕ)
    (message : List Char) : (s.registerError boundary errorId message).Inv := by
  obtain ⟨dropped, errors, left⟩ := inv.errors
  refine ⟨inv.resources, inv.nodup, inv.numbers, inv.data, ⟨dropped, ?_, left⟩, ?_, ?_, inv.unsealed,
    ?_⟩
  · change (s.sentErrors ++ (s.errors ++ [_]) ++ dropped).Perm (s.registered ++ [_])
    rw [← List.append_assoc, List.append_assoc]
    apply (List.perm_append_comm.append_left _).trans
    rw [← List.append_assoc]
    exact errors.append_right _
  · exact List.nodup_append.mpr ⟨inv.nodupErrors, List.nodup_singleton _, by
      intro known member new only
      rw [List.mem_singleton.mp only]
      rintro rfl
      exact Nat.lt_irrefl _ (inv.numbersErrors _ member)⟩
  · intro error member
    change error.number < (s.registered ++ [_]).length
    rw [List.length_append, List.length_singleton]
    rcases List.mem_append.mp member with old | new
    · exact Nat.lt_succ_of_lt (inv.numbersErrors error old)
    · rw [List.mem_singleton.mp new]
      exact Nat.lt_succ_self _
  · intro ended
    exact absurd ended going

theorem Inv.sealErrors (inv : s.Inv) (boundary : ℕ) :
    State.Inv { s with sealedErrorBoundaries := insert boundary s.sealedErrorBoundaries } := by
  obtain ⟨dropped, errors, left⟩ := inv.errors
  refine ⟨inv.resources, inv.nodup, inv.numbers, inv.data, ⟨dropped, errors, ?_⟩, inv.nodupErrors,
    inv.numbersErrors, inv.unsealed, inv.ended⟩
  intro error member
  exact List.mem_insert_of_mem (left error member)

theorem Inv.pendingData (inv : s.Inv)
    (unsealed : ∀ error ∈ s.errors, error.boundary ∉ s.sealedErrorBoundaries) : s.pendingData.Inv := by
  obtain ⟨dropped, errors, left⟩ := inv.errors
  have resources : s.pendingData.sentResources = s.sentResources := by
    simp [State.pendingData, sentResources, emit, Chunk.resolved]
  have sent : s.pendingData.sentErrors = s.sentErrors ++ s.errors := by
    simp [State.pendingData, sentErrors, emit, Chunk.errors]
  refine ⟨?_, inv.nodup, inv.numbers, ?_, ⟨dropped, ?_, left⟩, inv.nodupErrors, inv.numbersErrors,
    ?_, ?_⟩
  · rw [resources]
    exact inv.resources
  · rw [resources]
    exact inv.data
  · rw [sent]
    change (s.sentErrors ++ s.errors ++ [] ++ dropped).Perm s.registered
    rw [List.append_nil]
    exact errors
  · intro chunk member
    rcases List.mem_append.mp member with old | new
    · exact inv.unsealed chunk old
    · rw [List.mem_singleton.mp new]
      exact unsealed
  · intro ended
    cases ended

/-- The errors that a poll does not write belong to sealed boundaries. -/
theorem unsealed_perm (s : State) : ∃ left, (s.unsealed ++ left).Perm s.errors ∧
    ∀ error ∈ left, error.boundary ∈ s.sealedErrorBoundaries := by
  refine ⟨s.errors.filter fun error => !decide (error.boundary ∉ s.sealedErrorBoundaries),
    List.filter_append_perm _ _, ?_⟩
  intro error member
  simpa using (List.mem_filter.mp member).2

/-- What a poll does to the buffers and to what has been sent. -/
theorem pollNext_ok (s : State) :
    s.pollNext.asyncBuf = s.notReady ∧ s.pollNext.errors = [] ∧
      s.pollNext.sentResources = s.sentResources ++ s.ready ∧
      s.pollNext.sentErrors = s.sentErrors ++ s.unsealed ∧
      (∀ chunk ∈ s.pollNext.sent, chunk ∈ s.sent ∨
        chunk = (.more s.ready s.unsealed, s.sealedErrorBoundaries)) ∧
      (s.pollNext.phase = .ended → s.phase = .ended ∨ s.notReady = []) := by
  unfold pollNext
  split
  · rename_i nothing
    split
    · rename_i drained
      refine ⟨rfl, rfl, ?_, ?_, fun chunk member => .inl member, fun _ => .inr drained⟩
      · rw [nothing.1, List.append_nil]
        rfl
      · rw [nothing.2, List.append_nil]
        rfl
    · refine ⟨rfl, rfl, ?_, ?_, fun chunk member => .inl member, .inl⟩
      · rw [nothing.1, List.append_nil]
        rfl
      · rw [nothing.2, List.append_nil]
        rfl
  · refine ⟨rfl, rfl, sentResources_emit _, sentErrors_emit _, ?_, .inl⟩
    intro chunk member
    rcases List.mem_append.mp member with old | new
    · exact .inl old
    · exact .inr (List.mem_singleton.mp new)

theorem pollNext_watched (s : State) :
    s.pollNext.resources = s.resources ∧ s.pollNext.registered = s.registered ∧
      s.pollNext.completed = s.completed ∧
      s.pollNext.sealedErrorBoundaries = s.sealedErrorBoundaries := by
  unfold pollNext
  split
  · split <;> exact ⟨rfl, rfl, rfl, rfl⟩
  · exact ⟨rfl, rfl, rfl, rfl⟩

theorem Inv.pollNext (inv : s.Inv) (going : s.phase ≠ .ended) : s.pollNext.Inv := by
  obtain ⟨asyncBuf, drained, sentResources, sentErrors, sent, ended⟩ := pollNext_ok s
  obtain ⟨resources, registered, completed, sealedBoundaries⟩ := pollNext_watched s
  obtain ⟨dropped, errors, left⟩ := inv.errors
  obtain ⟨skipped, split, belong⟩ := unsealed_perm s
  refine ⟨?_, ?_, ?_, ?_, ⟨skipped ++ dropped, ?_, ?_⟩, ?_, ?_, ?_, ?_⟩
  · rw [sentResources, asyncBuf, resources, List.map_append, List.append_assoc]
    exact ((ready_perm s).append_left _).trans inv.resources
  · rw [resources]
    exact inv.nodup
  · rw [resources]
    exact inv.numbers
  · rw [sentResources, completed]
    intro entry member
    rcases List.mem_append.mp member with old | new
    · exact inv.data entry old
    · obtain ⟨resource, -, found⟩ := List.mem_filterMap.mp new
      obtain ⟨data, done, rfl⟩ := Option.map_eq_some_iff.mp found
      exact done
  · rw [sentErrors, drained, registered, List.append_nil]
    apply List.Perm.trans _ errors
    simpa only [List.append_assoc] using (split.append_right dropped).append_left s.sentErrors
  · rw [sealedBoundaries]
    intro error member
    rcases List.mem_append.mp member with now | before
    · exact belong error now
    · exact left error before
  · rw [registered]
    exact inv.nodupErrors
  · rw [registered]
    exact inv.numbersErrors
  · intro chunk member error written
    rcases sent chunk member with old | rfl
    · exact inv.unsealed chunk old error written
    · simpa using (List.mem_filter.mp written).2
  · intro now
    rw [asyncBuf, drained]
    exact ⟨(ended now).resolve_left going, rfl⟩

theorem Inv.step {act : Act} (inv : s.Inv) (unsealed : s.Unsealed act)
    (moved : s.step act = some s') : s'.Inv := by
  unfold State.step at moved
  split at moved
  · cases moved
  · rename_i going
    cases act with
    | writeAsync id =>
      cases moved
      exact inv.writeAsync going id
    | complete number data =>
      dsimp only at moved
      split at moved
      · rename_i pending
        cases moved
        exact inv.complete pending data
      · cases moved
    | registerError boundary errorId message =>
      cases moved
      exact inv.registerError going boundary errorId message
    | sealErrors boundary =>
      cases moved
      exact inv.sealErrors boundary
    | pendingData =>
      dsimp only at moved
      split at moved
      · cases moved
        exact inv.pendingData unsealed
      · cases moved
    | poll =>
      dsimp only at moved
      split at moved
      · cases moved
        exact inv.pollNext going
      · cases moved

/-! ## The run -/

theorem Inv.emits (inv : s.Inv) : s.Emits := by
  have sent : s.phase = .ended → (s.sentResources.map Prod.fst).Perm s.resources := by
    intro ended
    have all := inv.resources
    rwa [(inv.ended ended).1, List.append_nil] at all
  have found : s.phase = .ended → ∀ resource ∈ s.resources,
      ∃ data, s.completed resource.number = some data ∧ (resource, data) ∈ s.sentResources := by
    intro ended resource known
    obtain ⟨entry, member, rfl⟩ := List.mem_map.mp ((sent ended).mem_iff.mpr known)
    exact ⟨entry.2, inv.data entry member, member⟩
  refine ⟨?_, ?_, ?_, inv.unsealed, ?_, ?_⟩
  · intro ended resource known
    obtain ⟨data, done, member⟩ := found ended resource known
    refine ⟨data, done, member, ?_⟩
    rw [(sent ended).count_eq]
    exact List.count_eq_one_of_mem inv.nodup known
  · intro ended error known open'
    obtain ⟨dropped, errors, left⟩ := inv.errors
    rw [(inv.ended ended).2, List.append_nil] at errors
    have all : (s.sentErrors ++ dropped).count error = 1 := by
      rw [errors.count_eq]
      exact List.count_eq_one_of_mem inv.nodupErrors known
    have kept : dropped.count error = 0 :=
      List.count_eq_zero_of_not_mem fun gone => open' (left error gone)
    rwa [List.count_append, kept] at all
  · intro ended resource known pending
    obtain ⟨data, done, -⟩ := found ended resource known
    rw [pending] at done
    cases done
  · exact (List.nodup_append.mp (inv.resources.nodup_iff.mpr inv.nodup)).1
  · obtain ⟨dropped, errors, -⟩ := inv.errors
    have all := errors.nodup_iff.mpr inv.nodupErrors
    exact (List.nodup_append.mp (List.nodup_append.mp all).1).1

/-- In every run whose first chunk is made while no registered error is sealed, the stream emits what
it owes. -/
theorem stream_emits (s : State)
    (run : Reaches State.step (fun s act _ => s.Unsealed act) State.new s) : s.Emits := by
  have inv : s.Inv := by
    apply run.invariant Inv.new
    intro s act s' inv moved unsealed
    exact inv.step unsealed moved
  exact inv.emits

/-- A resource whose future completes between two polls, and an error of a boundary that is sealed
after the first chunk. -/
theorem stream_emits_sealed : ∃ s,
    exec step State.new [.writeAsync 4, .registerError 1 0 ['e'], .pendingData, .sealErrors 1,
      .registerError 1 1 ['f'], .poll, .complete 0 ['7'], .poll, .poll] = some s ∧
    s.phase = .ended ∧ s.sentErrors = [⟨0, 1, 0, ['e']⟩] ∧ s.Emits := by
  refine ⟨_, rfl, rfl, rfl, stream_emits _ ?_⟩
  have created : Reaches step (fun s act _ => s.Unsealed act) State.new State.new := .start
  have written := created.step (a := Act.writeAsync 4) rfl trivial
  have registered := written.step (a := Act.registerError 1 0 ['e']) rfl trivial
  have started := registered.step (a := Act.pendingData) rfl fun _ _ known => by cases known
  have sealed1 := started.step (a := Act.sealErrors 1) rfl trivial
  have late := sealed1.step (a := Act.registerError 1 1 ['f']) rfl trivial
  have polled := late.step (a := Act.poll) rfl trivial
  have completed := polled.step (a := Act.complete 0 ['7']) rfl trivial
  exact (completed.step (a := Act.poll) rfl trivial).step (a := Act.poll) rfl trivial

/-- The first chunk has the error of a boundary that was sealed before. -/
theorem sealed_error_emitted : ∃ s,
    exec step State.new [.registerError 1 0 ['e'], .sealErrors 1, .pendingData] = some s ∧
    s.sent = [(.initial [⟨0, 1, 0, ['e']⟩] [], [1])] ∧ ¬ s.Emits := by
  refine ⟨_, rfl, rfl, ?_⟩
  intro emits
  have notSealed : 1 ∉ [1] := emits.unsealed _ List.mem_cons_self _ List.mem_cons_self
  exact notSealed List.mem_cons_self

end State

end Halyard.Data
