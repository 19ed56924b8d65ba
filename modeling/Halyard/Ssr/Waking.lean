import Halyard.Ssr.Stream

/-!
# What a pending stream waits for

A poll that is pending has to leave a future behind that it has polled itself, and nothing that it could
go on with.  `Again` is the poll's own tail call, and `LeavesPending` says which futures a poll finds
pending.

* `pollOoo_all`: what the loop over the out-of-order futures leaves.
* `woken_iff`: a poll leaves such a future just if the loop does not come out with an empty buffer after
  all of its futures were ready, or after one of them has put other chunks in the queue.
* `hangs`: it does, where a fallback is replaced by nothing.
-/

namespace Halyard.Ssr

open StreamBuilder

variable {α : Type} [DecidableEq α] {markup : Markup α} {b b' : StreamBuilder α}

/-- A poll of a stream that is the poll of another: `poll_next` calls itself. -/
inductive Again : StreamBuilder α → StreamBuilder α → Prop
  | resolved {b : StreamBuilder α} {chunks : List (StreamChunk α)} :
    b.pending = some (0, chunks) → Again b { b with pending := none, chunks := chunks ++ b.chunks }
  | sync {b : StreamBuilder α} {value : List α} {rest : List (StreamChunk α)} :
    b.pending = none → b.chunks = .sync value :: rest →
    Again b (gather { b with syncBuf := b.syncBuf ++ value } rest)
  | async {b : StreamBuilder α} {delay : ℕ} {chunks rest : List (StreamChunk α)} :
    b.pending = none → b.chunks = .async delay chunks :: rest → b.syncBuf.isEmpty →
    Again b { b with pending := some (delay, chunks), chunks := rest }
  | outOfOrder {b : StreamBuilder α} {delay : ℕ} {id : String} {chunks rest : List (StreamChunk α)}
      {replace : Bool} {nonce : Option String} :
    b.pending = none → b.chunks = .outOfOrder delay id chunks replace nonce :: rest → b.syncBuf.isEmpty →
    Again b { b with
      pendingOoo := b.pendingOoo ++ [⟨delay, id, chunks, replace, nonce⟩], chunks := rest }

/-- A future that was polled and is pending, as it is after that. -/
inductive Waiting (α : Type)
  | inOrder (delay : ℕ) (chunks : List (StreamChunk α))
  | outOfOrder (future : OooFuture α)

/-- The stream holds the future. -/
def Waiting.HeldBy (b : StreamBuilder α) : Waiting α → Prop
  | .inOrder delay chunks => b.pending = some (delay, chunks)
  | .outOfOrder future => future ∈ b.pendingOoo

/-- A poll of the stream polls a future that is pending. -/
inductive LeavesPending : StreamBuilder α → Waiting α → Prop
  | inOrder {b : StreamBuilder α} {delay : ℕ} {chunks : List (StreamChunk α)} :
    b.pending = some (delay + 1, chunks) → LeavesPending b (.inOrder delay chunks)
  | outOfOrder {b : StreamBuilder α} {future : OooFuture α} {delay : ℕ} :
    b.pending = none → b.chunks = [] → future ∈ b.pendingOoo → future.delay = delay + 1 →
    LeavesPending b (.outOfOrder { future with delay := delay })
  | again {b b' : StreamBuilder α} {waiting : Waiting α} :
    Again b b' → LeavesPending b' waiting → LeavesPending b waiting

/-- A poll that is pending leaves a future that it has polled itself, and nothing to go on with: no text,
and no chunk unless it has to wait for the one in front of it. -/
structure Woken (markup : Markup α) (b b' : StreamBuilder α) : Prop where
  waiting : ∃ future, LeavesPending b future ∧ future.HeldBy b'
  text : b'.syncBuf = []
  chunks : b'.pending = none → b'.chunks = []

/-! ## The loop over the out-of-order futures -/

def partText : StreamChunk α → List α
  | .sync ready => ready
  | _ => []

def isText : StreamChunk α → Bool
  | .sync _ => true
  | _ => false

/-- The texts among an out-of-order chunk's parts, in the order in which they are pushed. -/
def syncTexts (parts : List (StreamChunk α)) : List α :=
  parts.reverse.flatMap partText

/-- The buffer after a future that is ready: its texts in the place of its fallback, or its template. -/
def afterReady (markup : Markup α) (buf : List α) (future : OooFuture α) : List α :=
  match splitAroundPlaceholder markup buf future.id with
  | some (before, after) => before ++ syncTexts future.chunks ++ after
  | none => buf ++ markup.pushStart future.id ++ syncTexts future.chunks ++
      markup.pushEnd future.replace future.id future.nonce

/-- The buffer after the futures that are ready, one after another. -/
def afterAll (markup : Markup α) (buf : List α) (futures : List (OooFuture α)) : List α :=
  (futures.filter fun future => future.delay = 0).foldl (afterReady markup) buf

/-- The futures that are not ready, after one more poll. -/
def stillPending (futures : List (OooFuture α)) : List (OooFuture α) :=
  (futures.filter fun future => future.delay ≠ 0).map fun future =>
    { future with delay := future.delay - 1 }

omit [DecidableEq α] in
theorem syncTexts_cons (part : StreamChunk α) (parts : List (StreamChunk α)) :
    syncTexts (part :: parts) = syncTexts parts ++ partText part := by
  rw [syncTexts, List.reverse_cons, List.flatMap_append, List.flatMap_singleton]
  rfl

omit [DecidableEq α] in
/-- The texts are pushed, and the other parts held in their order. -/
theorem pushParts_filter (buf : List α) (parts : List (StreamChunk α)) :
    pushParts buf parts = (buf ++ syncTexts parts, parts.filter fun part => !isText part) := by
  unfold pushParts
  rw [List.foldl_reverse]
  induction parts with
  | nil => exact congrArg (fun text => (text, [])) (List.append_nil buf).symm
  | cons part parts ih =>
    rw [List.foldr_cons, ih, syncTexts_cons, ← List.append_assoc]
    cases part with
    | sync ready => rfl
    | async delay chunks => exact congrArg (fun text => (text, _)) (List.append_nil _).symm
    | outOfOrder delay id chunks replace nonce =>
      exact congrArg (fun text => (text, _)) (List.append_nil _).symm

theorem resolveOoo_text (chunk : OooFuture α) :
    (resolveOoo markup b chunk).syncBuf = afterReady markup b.syncBuf chunk := by
  rw [resolveOoo, afterReady]
  cases splitAroundPlaceholder markup b.syncBuf chunk.id with
  | none => simp only [pushParts_filter]
  | some parts => simp only [pushParts_filter]

theorem resolveOoo_kept (chunk : OooFuture α) :
    (resolveOoo markup b chunk).pending = b.pending ∧
      (resolveOoo markup b chunk).pendingOoo = b.pendingOoo := by
  rw [resolveOoo]
  cases splitAroundPlaceholder markup b.syncBuf chunk.id with
  | none => exact ⟨rfl, rfl⟩
  | some parts => exact ⟨rfl, rfl⟩

theorem resolveOoo_chunks (chunk : OooFuture α) :
    (resolveOoo markup b chunk).chunks = [] ↔
      b.chunks = [] ∧ ∀ part ∈ chunk.chunks, isText part = true := by
  have held : chunk.chunks.filter (fun part => !isText part) = [] ↔
      ∀ part ∈ chunk.chunks, isText part = true := by
    simp [List.filter_eq_nil_iff]
  rw [resolveOoo]
  cases splitAroundPlaceholder markup b.syncBuf chunk.id with
  | none =>
    simp only [pushParts_filter, List.append_eq_nil_iff, held]
    exact and_comm
  | some parts =>
    simp only [pushParts_filter, List.append_eq_nil_iff, List.reverse_eq_nil_iff, held]
    exact and_comm

/-- What the loop leaves. -/
structure Polled (markup : Markup α) (b : StreamBuilder α) (futures : List (OooFuture α))
    (b' : StreamBuilder α) : Prop where
  text : b'.syncBuf = afterAll markup b.syncBuf futures
  pending : b'.pending = b.pending
  pendingOoo : b'.pendingOoo = b.pendingOoo ++ stillPending futures
  chunks : b'.chunks = [] ↔ b.chunks = [] ∧
    ∀ future ∈ futures, future.delay = 0 → ∀ part ∈ future.chunks, isText part = true

omit [DecidableEq α] in
theorem stillPending_ready {future : OooFuture α} (ready : future.delay = 0) (futures : List (OooFuture α)) :
    stillPending (future :: futures) = stillPending futures := by
  simp [stillPending, ready]

omit [DecidableEq α] in
theorem stillPending_pending {future : OooFuture α} {delay : ℕ} (pending : future.delay = delay + 1)
    (futures : List (OooFuture α)) :
    stillPending (future :: futures) = { future with delay := delay } :: stillPending futures := by
  simp [stillPending, pending]

theorem afterAll_ready {future : OooFuture α} (ready : future.delay = 0) (buf : List α)
    (futures : List (OooFuture α)) :
    afterAll markup buf (future :: futures) = afterAll markup (afterReady markup buf future) futures := by
  simp [afterAll, ready]

theorem afterAll_pending {future : OooFuture α} {delay : ℕ} (pending : future.delay = delay + 1)
    (buf : List α) (futures : List (OooFuture α)) :
    afterAll markup buf (future :: futures) = afterAll markup buf futures := by
  simp [afterAll, pending]

theorem pollOoo_all (futures : List (OooFuture α)) (b : StreamBuilder α) :
    Polled markup b futures (futures.foldl (pollOoo markup) b) := by
  induction futures generalizing b with
  | nil => exact ⟨rfl, rfl, (List.append_nil _).symm, by simp⟩
  | cons future futures ih =>
    have rest := ih (pollOoo markup b future)
    cases delay : future.delay with
    | zero =>
      have ready : pollOoo markup b future = resolveOoo markup b future := by rw [pollOoo, delay]
      obtain ⟨pending, pendingOoo⟩ := @resolveOoo_kept α _ markup b future
      rw [ready] at rest
      refine ⟨?_, ?_, ?_, ?_⟩
      · rw [List.foldl_cons, ready, rest.text, resolveOoo_text, afterAll_ready delay]
      · rw [List.foldl_cons, ready, rest.pending, pending]
      · rw [List.foldl_cons, ready, rest.pendingOoo, pendingOoo, stillPending_ready delay]
      · rw [List.foldl_cons, ready, rest.chunks, resolveOoo_chunks, List.forall_mem_cons, and_assoc]
        simp only [delay, forall_const]
    | succ n =>
      have waits : pollOoo markup b future =
          { b with pendingOoo := b.pendingOoo ++ [{ future with delay := n }] } := by rw [pollOoo, delay]
      rw [waits] at rest
      have late : ¬future.delay = 0 := by
        rw [delay]
        exact Nat.succ_ne_zero n
      refine ⟨?_, ?_, ?_, ?_⟩
      · rw [List.foldl_cons, waits, rest.text, afterAll_pending delay]
      · rw [List.foldl_cons, waits, rest.pending]
      · rw [List.foldl_cons, waits, rest.pendingOoo, stillPending_pending delay, List.append_assoc]
        rfl
      · rw [List.foldl_cons, waits, rest.chunks, List.forall_mem_cons]
        simp only [late, false_implies, true_and]

/-! ## A call -/

theorem Again.pollNext (again : Again b b') : b.pollNext markup = b'.pollNext markup := by
  cases again with
  | resolved held => exact pollNext_resolved _ held
  | sync free first => exact pollNext_sync _ free first
  | async free first empty => rw [pollNext_async _ free first, if_pos empty]
  | outOfOrder free first empty =>
    rw [pollNext_outOfOrder _ free first]
    exact if_pos empty

omit [DecidableEq α] in
theorem Again.size_lt (again : Again b b') :
    sizes b'.chunks + pendingSize b'.pending < sizes b.chunks + pendingSize b.pending := by
  cases again with
  | resolved held =>
    simp only [sizes_append, pendingSize, held]
    omega
  | @sync value rest free first =>
    have gathered := sizes_gather { b with syncBuf := b.syncBuf ++ value } rest
    have whole : sizes b.chunks = 1 + sizes rest := by simp only [first, sizes, size]
    rw [pending_gather]
    dsimp only
    omega
  | async free first =>
    simp only [first, free, sizes, size, pendingSize]
    omega
  | outOfOrder free first =>
    simp only [first, free, sizes, size, pendingSize]
    omega

omit [DecidableEq α] in
theorem Again.unique {c : StreamBuilder α} (again : Again b b') (other : Again b c) : b' = c := by
  cases again with
  | resolved held => cases other <;> simp_all
  | sync free first => cases other <;> simp_all
  | async free first empty => cases other <;> simp_all
  | outOfOrder free first empty => cases other <;> simp_all

/-- Where a call ends. -/
inductive Ends (b : StreamBuilder α) : Prop
  | waits (delay : ℕ) (chunks : List (StreamChunk α)) : b.pending = some (delay + 1, chunks) → Ends b
  | loops : b.pending = none → b.chunks = [] → Ends b
  | yields (left : StreamBuilder α) : b.chunks ≠ [] → (∀ b', ¬Again b b') →
    (∀ markup : Markup α, b.pollNext markup = left.flush) → Ends b

theorem again_or_ends (b : StreamBuilder α) : (∃ b', Again b b') ∨ Ends b := by
  match held : b.pending, first : b.chunks with
  | some (0, _), _ => exact .inl ⟨_, .resolved held⟩
  | some (delay + 1, chunks), _ => exact .inr (.waits delay chunks held)
  | none, [] => exact .inr (.loops held first)
  | none, .sync _ :: _ => exact .inl ⟨_, .sync held first⟩
  | none, .async delay chunks :: rest =>
    by_cases empty : b.syncBuf.isEmpty
    · exact .inl ⟨_, .async held first empty⟩
    · refine .inr (.yields { b with pending := some (delay, chunks), chunks := rest }
        (first ▸ List.cons_ne_nil _ _) (fun b' again => ?_) fun markup => ?_)
      · cases again <;> simp_all
      exact (pollNext_async markup held first).trans (if_neg empty)
  | none, .outOfOrder delay id chunks replace nonce :: rest =>
    by_cases empty : b.syncBuf.isEmpty
    · exact .inl ⟨_, .outOfOrder held first empty⟩
    · refine .inr (.yields { b with
          pendingOoo := b.pendingOoo ++ [⟨delay, id, chunks, replace, nonce⟩], chunks := rest }
        (first ▸ List.cons_ne_nil _ _) (fun b' again => ?_) fun markup => ?_)
      · cases again <;> simp_all
      exact (pollNext_outOfOrder markup held first).trans (if_neg empty)

omit [DecidableEq α] in
theorem not_again_of_end (free : b.pending = none) (last : b.chunks = []) : ¬Again b b' := by
  intro again
  cases again with
  | resolved held => simp_all
  | sync _ first => simp_all
  | async _ first _ => simp_all
  | outOfOrder _ first _ => simp_all

omit [DecidableEq α] in
theorem not_again_of_waits {delay : ℕ} {chunks : List (StreamChunk α)}
    (held : b.pending = some (delay + 1, chunks)) : ¬Again b b' := by
  intro again
  cases again with
  | resolved other => simp_all
  | sync free _ => simp_all
  | async free _ _ => simp_all
  | outOfOrder free _ _ => simp_all

/-! ## What a pending poll leaves -/

/-- A call that has only the out-of-order futures to look at, and comes out of that with an empty buffer,
finds one of them pending, and those that are ready resolved to texts. -/
def Clears (markup : Markup α) (b : StreamBuilder α) : Prop :=
  b.pendingOoo ≠ [] → afterAll markup b.syncBuf b.pendingOoo = [] →
    (∃ future ∈ b.pendingOoo, future.delay ≠ 0) ∧
      ∀ future ∈ b.pendingOoo, future.delay = 0 → ∀ part ∈ future.chunks, isText part = true

/-- A poll of the stream leaves what a pending poll should leave, if it is pending. -/
def Wakes (markup : Markup α) (b : StreamBuilder α) : Prop :=
  ∀ b', b.pollNext markup = (.pending, b') → Woken markup b b'

omit [DecidableEq α] in
theorem leavesPending_again (again : Again b b') {waiting : Waiting α} :
    LeavesPending b waiting ↔ LeavesPending b' waiting := by
  constructor
  · intro leaves
    cases leaves with
    | inOrder held => exact absurd again (not_again_of_waits held)
    | outOfOrder free last _ _ => exact absurd again (not_again_of_end free last)
    | again other leaves => exact again.unique other ▸ leaves
  · exact .again again

theorem wakes_again (again : Again b b') : Wakes markup b ↔ Wakes markup b' := by
  unfold Wakes
  rw [again.pollNext]
  refine forall_congr' fun last => forall_congr' fun _ => ⟨fun woken => ?_, fun woken => ?_⟩
  · obtain ⟨future, leaves, held⟩ := woken.waiting
    exact ⟨⟨future, (leavesPending_again again).mp leaves, held⟩, woken.text, woken.chunks⟩
  · obtain ⟨future, leaves, held⟩ := woken.waiting
    exact ⟨⟨future, (leavesPending_again again).mpr leaves, held⟩, woken.text, woken.chunks⟩

/-- A stream that is being polled: a builder holds no future that has been polled in order. -/
inductive Reached (markup : Markup α) : StreamBuilder α → Prop
  | start {b : StreamBuilder α} : b.pending = none → Reached markup b
  | polled {b : StreamBuilder α} : Reached markup b → Reached markup (b.pollNext markup).2

/-- While a future is awaited in order, all text before it has been yielded. -/
def Quiet (b : StreamBuilder α) : Prop :=
  b.pending ≠ none → b.syncBuf = []

omit [DecidableEq α] in
theorem Again.quiet (again : Again b b') : Quiet b' := by
  cases again with
  | resolved held => exact fun some_ => absurd rfl some_
  | sync free first =>
    intro some_
    rw [pending_gather] at some_
    exact absurd free some_
  | async free first empty => exact fun _ => List.isEmpty_iff.mp empty
  | outOfOrder free first empty => exact fun some_ => absurd free some_

/-- The result of a call that looks at the out-of-order futures. -/
theorem pollNext_loops (free : b.pending = none) (last : b.chunks = []) :
    (b.pendingOoo = [] ∧ (b.pollNext markup).1 ≠ .pending ∧ (b.pollNext markup).2.pending = none) ∨
      b.pendingOoo ≠ [] ∧ ∃ left, Polled markup { b with pendingOoo := [] } b.pendingOoo left ∧
        b.pollNext markup = if left.syncBuf.isEmpty then (.pending, left) else left.flush := by
  by_cases none : b.pendingOoo = []
  · left
    have empty : b.pendingOoo.isEmpty := List.isEmpty_iff.mpr none
    rw [pollNext_end markup free last empty]
    refine ⟨none, ?_⟩
    split
    next => exact ⟨fun pending => (by cases pending), free⟩
    next => exact ⟨fun pending => (by cases pending), free⟩
  · right
    have some_ : ¬b.pendingOoo.isEmpty := fun empty => none (List.isEmpty_iff.mp empty)
    exact ⟨none, _, pollOoo_all b.pendingOoo _, pollNext_loop markup free last some_⟩

theorem quiet_pollNext (quiet : Quiet b) : Quiet (b.pollNext markup).2 := by
  induction size : sizes b.chunks + pendingSize b.pending using Nat.strong_induction_on
    generalizing b with
  | _ n ih =>
    rcases again_or_ends b with ⟨b', again⟩ | ends
    · rw [again.pollNext]
      exact ih _ (size ▸ again.size_lt) again.quiet rfl
    · cases ends with
      | waits delay chunks held =>
        rw [pollNext_waits markup held]
        exact fun _ => quiet (held ▸ Option.some_ne_none _)
      | loops free last =>
        rcases @pollNext_loops _ _ markup b free last with ⟨-, -, none⟩ | ⟨-, left, polled, result⟩
        · exact fun some_ => absurd none some_
        · have none := polled.pending.trans free
          rw [result]
          split
          next => exact fun some_ => absurd none some_
          next => exact fun some_ => absurd none some_
      | yields left some_ stops result =>
        rw [result]
        exact fun _ => rfl

theorem Reached.quiet (reached : Reached markup b) : Quiet b := by
  induction reached with
  | start free => exact fun some_ => absurd free some_
  | polled _ ih => exact quiet_pollNext ih

omit [DecidableEq α] in
theorem mem_stillPending {futures : List (OooFuture α)} {future : OooFuture α} {delay : ℕ}
    (there : future ∈ futures) (late : future.delay = delay + 1) :
    { future with delay := delay } ∈ stillPending futures := by
  refine List.mem_map.mpr ⟨future, List.mem_filter.mpr ⟨there, ?_⟩, ?_⟩
  · rw [late]
    rfl
  · rw [late]
    rfl

omit [DecidableEq α] in
theorem of_mem_stillPending {futures : List (OooFuture α)} {future : OooFuture α}
    (there : future ∈ stillPending futures) : ∃ other ∈ futures, other.delay ≠ 0 := by
  obtain ⟨other, mem, -⟩ := List.mem_map.mp there
  obtain ⟨mem, late⟩ := List.mem_filter.mp mem
  exact ⟨other, mem, of_decide_eq_true late⟩

/-- A call that looks at the out-of-order futures. -/
theorem wakes_loops (free : b.pending = none) (last : b.chunks = []) :
    Wakes markup b ↔ Clears markup b := by
  rcases @pollNext_loops _ _ markup b free last with ⟨none, ready, -⟩ | ⟨some_, left, polled, result⟩
  · exact iff_of_true (fun b' pending => absurd (congrArg Prod.fst pending) ready)
      fun some_ => absurd none some_
  unfold Wakes
  rw [result]
  have text := polled.text
  have leftFree : left.pending = none := polled.pending.trans free
  by_cases empty : left.syncBuf = []
  · rw [if_pos (List.isEmpty_iff.mpr empty)]
    constructor
    · intro wakes _ _
      have woken := wakes left rfl
      refine ⟨?_, (polled.chunks.mp (woken.chunks leftFree)).2⟩
      obtain ⟨future, -, held⟩ := woken.waiting
      cases future with
      | inOrder delay chunks =>
        exact absurd (leftFree.symm.trans held) (Option.some_ne_none _).symm
      | outOfOrder future =>
        have there : future ∈ left.pendingOoo := held
        rw [polled.pendingOoo] at there
        exact of_mem_stillPending there
    · intro clears b' same
      cases same
      obtain ⟨⟨future, there, late⟩, texts⟩ := clears some_ (text ▸ empty)
      obtain ⟨delay, late⟩ := Nat.exists_eq_succ_of_ne_zero late
      refine ⟨⟨_, .outOfOrder free last there late, ?_⟩, empty, fun _ => polled.chunks.mpr ⟨last, texts⟩⟩
      change _ ∈ left.pendingOoo
      rw [polled.pendingOoo]
      exact mem_stillPending there late
  · rw [if_neg (mt List.isEmpty_iff.mp empty)]
    refine iff_of_true (fun b' same => ?_) fun _ vanished => absurd (text.trans vanished) empty
    exact absurd (congrArg Prod.fst same) (by rintro ⟨⟩)

omit [DecidableEq α] in
theorem again_iff {last : StreamBuilder α} (again : Again b b') (stops : ∀ b', ¬Again last b') :
    Relation.ReflTransGen Again b last ↔ Relation.ReflTransGen Again b' last := by
  constructor
  · intro goes
    rcases Relation.ReflTransGen.cases_head goes with rfl | ⟨other, first, rest⟩
    · exact absurd again (stops b')
    · exact again.unique first ▸ rest
  · exact .head again

/-- A poll leaves what it should, if it is pending, just if the call that it comes down to clears. -/
theorem woken_iff (reached : Reached markup b) :
    Wakes markup b ↔ ∀ last, Relation.ReflTransGen Again b last → last.pending = none → last.chunks = [] →
      Clears markup last := by
  have quiet := reached.quiet
  clear reached
  induction size : sizes b.chunks + pendingSize b.pending using Nat.strong_induction_on
    generalizing b with
  | _ n ih =>
    rcases again_or_ends b with ⟨b', again⟩ | ends
    · refine (wakes_again again).trans ((ih _ (size ▸ again.size_lt) again.quiet rfl).trans ?_)
      refine forall_congr' fun last => ?_
      constructor
      · intro clears goes free ended
        exact clears ((again_iff again fun b' => not_again_of_end free ended).mp goes) free ended
      · intro clears goes free ended
        exact clears ((again_iff again fun b' => not_again_of_end free ended).mpr goes) free ended
    · have only : ∀ last, Relation.ReflTransGen Again b last → last.pending = none → last.chunks = [] →
          (∀ b', ¬Again b b') → last = b := by
        intro last goes _ _ stops
        rcases Relation.ReflTransGen.cases_head goes with same | ⟨other, first, _⟩
        · exact same.symm
        · exact absurd first (stops other)
      cases ends with
      | waits delay chunks held =>
        refine iff_of_true (fun b' same => ?_) fun last goes free ended => ?_
        · rw [pollNext_waits markup held] at same
          cases same
          exact ⟨⟨_, .inOrder held, rfl⟩, quiet (held ▸ Option.some_ne_none _),
            fun none => absurd none (Option.some_ne_none _)⟩
        · have same := only last goes free ended fun b' => not_again_of_waits held
          rw [same, held] at free
          cases free
      | loops free ended =>
        rw [wakes_loops free ended]
        constructor
        · intro clears last goes free' ended'
          exact only last goes free' ended' (fun b' => not_again_of_end free ended) ▸ clears
        · exact fun clears => clears b .refl free ended
      | yields left some_ stops result =>
        refine iff_of_true (fun b' same => ?_) fun last goes free ended => ?_
        · rw [result] at same
          cases same
        · rw [only last goes free ended stops] at ended
          exact absurd ended some_

/-- Nothing is in front of a future that is not ready. -/
theorem woken_alone : Wakes Markup.html
    ⟨[], [.outOfOrder 1 "0-" [.sync ['b']] true none], none, []⟩ := by
  refine (woken_iff (.start rfl)).mpr fun last goes free ended => ?_
  have first : Again (⟨[], [.outOfOrder 1 "0-" [.sync ['b']] true none], none, []⟩ : StreamBuilder Char)
      ⟨[], [], none, [⟨1, "0-", [.sync ['b']], true, none⟩]⟩ := .outOfOrder rfl rfl rfl
  have goes := (again_iff first fun _ => not_again_of_end free ended).mp goes
  rcases Relation.ReflTransGen.cases_head goes with rfl | ⟨other, again, -⟩
  · intro _ _
    refine ⟨⟨_, List.mem_singleton.mpr rfl, Nat.one_ne_zero⟩, fun future there ready => ?_⟩
    rw [List.mem_singleton.mp there] at ready
    exact absurd ready Nat.one_ne_zero
  · exact absurd again (not_again_of_end rfl rfl)

/-! ## A stream that hangs -/

theorem splitOnce_append (pattern rest : List α) :
    splitOnce pattern (pattern ++ rest) = some ([], rest) := by
  cases pattern with
  | nil => cases rest <;> rfl
  | cons a pattern =>
    rw [List.cons_append, splitOnce, ← List.cons_append,
      if_pos (List.isPrefixOf_iff_prefix.mpr (List.prefix_append _ _)), List.drop_left]

/-- A fallback without text, whose future resolves to none. -/
theorem hangs : ¬∀ b : StreamBuilder Char, Reached Markup.html b → Wakes Markup.html b := by
  intro wakes
  let fallback := Markup.html.opening "0-" ++ Markup.html.closing "0-"
  have poll := wakes ⟨[], [.sync fallback, .outOfOrder 0 "0-" [] true none], none, []⟩ (.start rfl)
  rw [wakes_again (.sync rfl rfl), wakes_loops rfl rfl] at poll
  have around : splitAroundPlaceholder Markup.html fallback "0-" = some ([], []) := by
    rw [splitAroundPlaceholder, splitOnce_append, Option.bind_some]
    have closed := splitOnce_append (Markup.html.closing "0-") []
    rw [List.append_nil] at closed
    change Option.map _ (splitOnce (Markup.html.closing "0-") (Markup.html.closing "0-")) = _
    rw [closed]
    rfl
  have gone : afterReady Markup.html fallback ⟨0, "0-", [], true, none⟩ = [] := by
    rw [afterReady, around]
    rfl
  obtain ⟨⟨future, there, late⟩, -⟩ := poll (List.cons_ne_nil _ _) gone
  rw [List.mem_singleton.mp there] at late
  exact late rfl

end Halyard.Ssr
