import Halyard.Ssr.Stream

/-!
# In-order streams

Without out-of-order chunks, each poll yields the next part of the text that the chunks hold, depth
first and in order, whatever the futures do in the meantime.

* `pollNext_text`: one poll moves text from what is left to what is yielded, and only the end of the
  text ends the stream.
* `in_order_text`: a builder made by any operations streams all their texts in order, and ends.
-/

namespace Halyard.Ssr

variable {α : Type}

namespace StreamBuilder

/-! ## Text -/

mutual

/-- The text of a chunk, with that of the chunks it resolves to. -/
def chunkText : StreamChunk α → List α
  | .sync text => text
  | .async _ chunks => chunksText chunks
  | .outOfOrder _ _ chunks _ _ => chunksText chunks

def chunksText : List (StreamChunk α) → List α
  | [] => []
  | chunk :: rest => chunkText chunk ++ chunksText rest

end

mutual

/-- No part of the chunk is out of order. -/
def InOrder : StreamChunk α → Prop
  | .sync _ => True
  | .async _ chunks => AllInOrder chunks
  | .outOfOrder .. => False

def AllInOrder : List (StreamChunk α) → Prop
  | [] => True
  | chunk :: rest => InOrder chunk ∧ AllInOrder rest

end

@[simp] theorem chunksText_append (left right : List (StreamChunk α)) :
    chunksText (left ++ right) = chunksText left ++ chunksText right := by
  induction left with
  | nil => rfl
  | cons chunk rest ih => simp [chunksText, ih]

@[simp] theorem allInOrder_append (left right : List (StreamChunk α)) :
    AllInOrder (left ++ right) ↔ AllInOrder left ∧ AllInOrder right := by
  induction left with
  | nil => simp [AllInOrder]
  | cons chunk rest ih => simp [AllInOrder, ih, and_assoc]

@[simp] theorem chunksText_flushed (buf : List α) : chunksText (flushed buf) = buf := by
  unfold flushed
  split
  · simp_all [chunksText]
  · simp [chunksText, chunkText]

@[simp] theorem allInOrder_flushed (buf : List α) : AllInOrder (flushed buf) := by
  unfold flushed
  split <;> simp [AllInOrder, InOrder]

theorem chunksText_pushLast (text : List α) (chunks : List (StreamChunk α)) :
    chunksText (pushLast text chunks) = chunksText chunks ++ text := by
  induction chunks using pushLast.induct <;> simp_all [pushLast, chunksText, chunkText]

theorem allInOrder_pushLast (text : List α) (chunks : List (StreamChunk α))
    (inOrder : AllInOrder chunks) : AllInOrder (pushLast text chunks) := by
  induction chunks using pushLast.induct <;> simp_all [pushLast, AllInOrder, InOrder]

/-- The text that is left to stream. -/
def text (b : StreamBuilder α) : List α :=
  b.syncBuf ++ (b.pending.elim [] fun future => chunksText future.2) ++ chunksText b.chunks

/-- A builder whose parts are all in order.  While a future is awaited, the text before it has been
yielded. -/
structure Streams (b : StreamBuilder α) : Prop where
  chunks : AllInOrder b.chunks
  pending : ∀ future, b.pending = some future → AllInOrder future.2 ∧ b.syncBuf = []
  pendingOoo : b.pendingOoo = []

/-! ## One poll -/

/-- What a poll yields. -/
def yield : Poll α → List α
  | .ready text => text
  | _ => []

theorem gather_text (b : StreamBuilder α) (chunks : List (StreamChunk α))
    (inOrder : AllInOrder chunks) (free : b.pending = none) (none : b.pendingOoo = []) :
    (b.gather chunks).text = b.syncBuf ++ chunksText chunks ∧ (b.gather chunks).Streams := by
  induction chunks generalizing b with
  | nil => exact ⟨by simp [gather, text, free], inOrder, by simp [gather, free], none⟩
  | cons chunk rest ih =>
    cases chunk with
    | sync next =>
      obtain ⟨same, streams⟩ := ih { b with syncBuf := b.syncBuf ++ next } inOrder.2 free none
      exact ⟨by simpa [gather, chunksText, chunkText] using same, streams⟩
    | async delay chunks =>
      exact ⟨by simp [gather, text, free], inOrder, by simp [gather, free], none⟩
    | outOfOrder delay id chunks replace nonce => exact inOrder.1.elim

theorem Streams.flush {b : StreamBuilder α} (streams : b.Streams) : b.flush.2.Streams where
  chunks := streams.chunks
  pending := fun future held => ⟨(streams.pending future held).1, rfl⟩
  pendingOoo := streams.pendingOoo

theorem flush_text {b : StreamBuilder α} : yield b.flush.1 ++ b.flush.2.text = b.text := by
  simp [StreamBuilder.flush, yield, text]

theorem Streams.of_async {b : StreamBuilder α} {delay : ℕ} {chunks rest : List (StreamChunk α)}
    (streams : b.Streams) (first : b.chunks = .async delay chunks :: rest) :
    AllInOrder chunks ∧ AllInOrder rest := by
  simpa [first, AllInOrder, InOrder] using streams.chunks

theorem Streams.not_outOfOrder {b : StreamBuilder α} {delay : ℕ} {id : String}
    {chunks rest : List (StreamChunk α)} {replace : Bool} {nonce : Option String}
    (streams : b.Streams) (first : b.chunks = .outOfOrder delay id chunks replace nonce :: rest) :
    False := by
  simpa [first, AllInOrder, InOrder] using streams.chunks

variable [DecidableEq α] (markup : Markup α)

theorem pollNext_text (b : StreamBuilder α) (streams : b.Streams) :
    yield (b.pollNext markup).1 ++ (b.pollNext markup).2.text = b.text ∧
      (b.pollNext markup).2.Streams ∧
      ((b.pollNext markup).1 = .done → (b.pollNext markup).2.text = []) := by
  induction b using pollNext.induct markup with
  | case1 b delay chunks hp =>
    rw [pollNext_waits markup hp]
    refine ⟨by simp [yield, text, hp], ⟨streams.chunks, ?_, streams.pendingOoo⟩, by simp⟩
    intro future held
    obtain rfl := Option.some.inj held
    exact streams.pending (delay + 1, chunks) hp
  | case2 b chunks hp ih =>
    obtain ⟨inOrder, empty⟩ := streams.pending _ hp
    rw [pollNext_resolved markup hp]
    have same : text { b with pending := none, chunks := chunks ++ b.chunks } = b.text := by
      simp [text, hp]
    rw [← same]
    apply ih
    exact ⟨by simpa using ⟨inOrder, streams.chunks⟩, by simp, streams.pendingOoo⟩
  | case3 b hp hc none empty =>
    rw [pollNext_end markup hp hc none, if_pos empty]
    have gone : b.text = [] := by
      simpa [text, hp, hc, chunksText] using empty
    exact ⟨by simp [yield], streams, fun _ => gone⟩
  | case4 b hp hc none full =>
    rw [pollNext_end markup hp hc none, if_neg full]
    exact ⟨flush_text, streams.flush, by simp [StreamBuilder.flush]⟩
  | case5 b hp hc some => simp [streams.pendingOoo] at some
  | case6 b hp hc some => simp [streams.pendingOoo] at some
  | case7 b hp value rest hc ih =>
    have inOrder : AllInOrder rest := by simpa [hc, AllInOrder, InOrder] using streams.chunks
    obtain ⟨gathered, restStreams⟩ :=
      gather_text { b with syncBuf := b.syncBuf ++ value } rest inOrder hp streams.pendingOoo
    have same : text (gather { b with syncBuf := b.syncBuf ++ value } rest) = b.text := by
      rw [gathered]
      simp [text, hp, hc, chunksText, chunkText]
    rw [pollNext_sync markup hp hc, ← same]
    exact ih restStreams
  | case8 b hp delay chunks rest hc b' empty ih =>
    obtain ⟨inOrder, restInOrder⟩ := streams.of_async hc
    rw [pollNext_async markup hp hc, if_pos empty]
    have same : b'.text = b.text := by simp [b', text, hp, hc, chunksText, chunkText]
    rw [← same]
    apply ih
    refine ⟨restInOrder, ?_, streams.pendingOoo⟩
    intro future held
    obtain rfl := Option.some.inj held
    exact ⟨inOrder, by simpa using empty⟩
  | case9 b hp delay chunks rest hc b' full =>
    obtain ⟨inOrder, restInOrder⟩ := streams.of_async hc
    rw [pollNext_async markup hp hc, if_neg full]
    refine ⟨?_, ⟨restInOrder, ?_, streams.pendingOoo⟩, by simp [StreamBuilder.flush]⟩
    · rw [flush_text]
      simp [text, hp, hc, chunksText, chunkText]
    · intro future held
      obtain rfl := Option.some.inj held
      exact ⟨inOrder, rfl⟩
  | case10 b hp delay id chunks replace nonce rest hc held b' empty ih =>
    exact (streams.not_outOfOrder hc).elim
  | case11 b hp delay id chunks replace nonce rest hc held b' full =>
    exact (streams.not_outOfOrder hc).elim

/-! ## The stream ends -/

mutual

/-- How much is left to poll of a chunk. -/
def work : StreamChunk α → ℕ
  | .sync _ => 1
  | .async delay chunks => 2 + delay + works chunks
  | .outOfOrder delay _ chunks _ _ => 2 + delay + works chunks

def works : List (StreamChunk α) → ℕ
  | [] => 0
  | chunk :: rest => work chunk + works rest

end

/-- How much is left to poll of a builder. -/
def toPoll (b : StreamBuilder α) : ℕ :=
  (if b.syncBuf.isEmpty then 0 else 1) +
    (b.pending.elim 0 fun future => 1 + future.1 + works future.2) + works b.chunks

omit [DecidableEq α] in
@[simp] theorem works_append (left right : List (StreamChunk α)) :
    works (left ++ right) = works left + works right := by
  induction left with
  | nil => simp [works]
  | cons chunk rest ih =>
    simp only [List.cons_append, works, ih]
    omega

omit [DecidableEq α] in
theorem toPoll_gather (b : StreamBuilder α) (chunks : List (StreamChunk α))
    (free : b.pending = none) :
    (b.gather chunks).toPoll ≤ 1 + works chunks := by
  induction chunks generalizing b with
  | nil =>
    simp only [gather, toPoll, free, Option.elim_none, works]
    split <;> omega
  | cons chunk rest ih =>
    cases chunk with
    | sync next =>
      have later := ih { b with syncBuf := b.syncBuf ++ next } free
      simp only [gather, works, work]
      omega
    | async delay chunks =>
      simp only [gather, toPoll, free, Option.elim_none]
      split <;> omega
    | outOfOrder delay id chunks replace nonce =>
      simp only [gather, toPoll, free, Option.elim_none, works, work]
      split <;> omega

/-- A poll that does not end the stream leaves less to poll. -/
theorem toPoll_pollNext (b : StreamBuilder α) (streams : b.Streams)
    (goesOn : (b.pollNext markup).1 ≠ .done) : (b.pollNext markup).2.toPoll < b.toPoll := by
  induction b using pollNext.induct markup with
  | case1 b delay chunks hp =>
    rw [pollNext_waits markup hp]
    simp [toPoll, hp]
  | case2 b chunks hp ih =>
    obtain ⟨inOrder, empty⟩ := streams.pending _ hp
    rw [pollNext_resolved markup hp] at goesOn ⊢
    have less : toPoll { b with pending := none, chunks := chunks ++ b.chunks } < b.toPoll := by
      simp only [toPoll, hp, works_append, Option.elim_none, Option.elim_some]
      omega
    apply (ih _ goesOn).trans less
    exact ⟨by simpa using ⟨inOrder, streams.chunks⟩, by simp, streams.pendingOoo⟩
  | case3 b hp hc none empty =>
    rw [pollNext_end markup hp hc none, if_pos empty] at goesOn
    exact (goesOn rfl).elim
  | case4 b hp hc none full =>
    rw [pollNext_end markup hp hc none, if_neg full]
    simp [StreamBuilder.flush, toPoll, hp, hc, works, full]
  | case5 b hp hc some => simp [streams.pendingOoo] at some
  | case6 b hp hc some => simp [streams.pendingOoo] at some
  | case7 b hp value rest hc ih =>
    have inOrder : AllInOrder rest := by simpa [hc, AllInOrder, InOrder] using streams.chunks
    obtain ⟨_, restStreams⟩ :=
      gather_text { b with syncBuf := b.syncBuf ++ value } rest inOrder hp streams.pendingOoo
    have less := toPoll_gather { b with syncBuf := b.syncBuf ++ value } rest hp
    rw [pollNext_sync markup hp hc] at goesOn ⊢
    have later := ih restStreams goesOn
    have whole : 1 + works rest ≤ b.toPoll := by
      simp only [toPoll, hp, hc, works, work, Option.elim_none]
      omega
    omega
  | case8 b hp delay chunks rest hc b' empty ih =>
    obtain ⟨inOrder, restInOrder⟩ := streams.of_async hc
    rw [pollNext_async markup hp hc, if_pos empty] at goesOn ⊢
    have less : b'.toPoll < b.toPoll := by
      simp only [b', toPoll, hp, hc, works, work, Option.elim_none, Option.elim_some]
      omega
    apply (ih _ goesOn).trans less
    refine ⟨restInOrder, ?_, streams.pendingOoo⟩
    intro future held
    obtain rfl := Option.some.inj held
    exact ⟨inOrder, by simpa using empty⟩
  | case9 b hp delay chunks rest hc b' full =>
    rw [pollNext_async markup hp hc, if_neg full]
    simp only [StreamBuilder.flush, toPoll, hp, hc, works, work, Option.elim_none,
      Option.elim_some, List.isEmpty_nil, if_true]
    omega
  | case10 b hp delay id chunks replace nonce rest hc held b' empty ih =>
    exact (streams.not_outOfOrder hc).elim
  | case11 b hp delay id chunks replace nonce rest hc held b' full =>
    exact (streams.not_outOfOrder hc).elim

/-! ## Any number of polls -/

/-- The results of the first polls, and the builder after them. -/
def polls : ℕ → StreamBuilder α → List (Poll α) × StreamBuilder α
  | 0, b => ([], b)
  | n + 1, b =>
      let (first, b) := b.pollNext markup
      let (rest, b) := polls n b
      (first :: rest, b)

/-- The concatenation of the strings that polls yield. -/
def yielded (results : List (Poll α)) : List α :=
  results.flatMap yield

theorem polls_text (n : ℕ) (b : StreamBuilder α) (streams : b.Streams) :
    yielded (polls markup n b).1 ++ (polls markup n b).2.text = b.text ∧
      (polls markup n b).2.Streams := by
  induction n generalizing b with
  | zero => exact ⟨rfl, streams⟩
  | succ n ih =>
    obtain ⟨one, next, _⟩ := pollNext_text markup b streams
    obtain ⟨more, last⟩ := ih _ next
    refine ⟨?_, last⟩
    calc yielded (polls markup (n + 1) b).1 ++ (polls markup (n + 1) b).2.text
        = yield (b.pollNext markup).1 ++ (yielded (polls markup n (b.pollNext markup).2).1 ++
            (polls markup n (b.pollNext markup).2).2.text) := by
          simp [polls, yielded]
      _ = b.text := by rw [more, one]

theorem polls_end (b : StreamBuilder α) (streams : b.Streams) :
    ∃ n, ((polls markup n b).2.pollNext markup).1 = .done := by
  induction h : b.toPoll using Nat.strong_induction_on generalizing b with
  | _ left ih =>
    by_cases goesOn : (b.pollNext markup).1 = .done
    · exact ⟨0, goesOn⟩
    · have less := toPoll_pollNext markup b streams goesOn
      obtain ⟨_, next, _⟩ := pollNext_text markup b streams
      obtain ⟨n, last⟩ := ih _ (h ▸ less) _ next rfl
      exact ⟨n + 1, last⟩

end StreamBuilder

open StreamBuilder

/-! ## Builders -/

/-- What is done to a builder; `pushSync` is also a write through `with_buf`.  A builder that is
appended may be finished before. -/
inductive Op (α : Type) where
  | pushSync (text : List α)
  | pushAsync (delay : ℕ) (chunks : List (StreamChunk α))
  | append (finished : Bool) (ops : List (Op α))

namespace Op

mutual

def apply (b : StreamBuilder α) : Op α → StreamBuilder α
  | .pushSync text => b.pushSync text
  | .pushAsync delay chunks => b.pushAsync delay chunks
  | .append finished ops =>
      let other := applyAll .new ops
      b.append (if finished then other.finish else other)

def applyAll (b : StreamBuilder α) : List (Op α) → StreamBuilder α
  | [] => b
  | op :: rest => applyAll (apply b op) rest

end

mutual

/-- The texts pushed, depth first and in order. -/
def text : Op α → List α
  | .pushSync text => text
  | .pushAsync _ chunks => chunksText chunks
  | .append _ ops => texts ops

def texts : List (Op α) → List α
  | [] => []
  | op :: rest => text op ++ texts rest

end

mutual

/-- The chunks pushed have no out-of-order parts. -/
def InOrder : Op α → Prop
  | .pushSync _ => True
  | .pushAsync _ chunks => AllInOrder chunks
  | .append _ ops => AllOpsInOrder ops

def AllOpsInOrder : List (Op α) → Prop
  | [] => True
  | op :: rest => InOrder op ∧ AllOpsInOrder rest

end

end Op

/-- A builder that nothing was polled of yet, whose parts are in order and hold `text`. -/
structure Holds (b : StreamBuilder α) (text : List α) : Prop where
  text : chunksText b.chunks ++ b.syncBuf = text
  inOrder : AllInOrder b.chunks
  pending : b.pending = none
  pendingOoo : b.pendingOoo = []

theorem holds_new : Holds (StreamBuilder.new : StreamBuilder α) [] :=
  ⟨rfl, trivial, rfl, rfl⟩

theorem Holds.finish {b : StreamBuilder α} {text : List α} (holds : Holds b text) :
    Holds b.finish text ∧ b.finish.syncBuf = [] := by
  unfold StreamBuilder.finish
  split
  · rename_i empty
    exact ⟨holds, by simpa using empty⟩
  · refine ⟨⟨?_, allInOrder_pushLast _ _ holds.inOrder, holds.pending, holds.pendingOoo⟩, rfl⟩
    rw [chunksText_pushLast]
    simpa using holds.text

theorem Holds.pushSync {b : StreamBuilder α} {before : List α} (holds : Holds b before)
    (text : List α) : Holds (b.pushSync text) (before ++ text) where
  text := by simp [StreamBuilder.pushSync, ← holds.text]
  inOrder := holds.inOrder
  pending := holds.pending
  pendingOoo := holds.pendingOoo

theorem Holds.pushAsync {b : StreamBuilder α} {before : List α} (holds : Holds b before)
    (delay : ℕ) {chunks : List (StreamChunk α)} (inOrder : AllInOrder chunks) :
    Holds (b.pushAsync delay chunks) (before ++ chunksText chunks) where
  text := by simp [StreamBuilder.pushAsync, ← holds.text, chunksText, chunkText]
  inOrder := by
    simp [StreamBuilder.pushAsync, holds.inOrder, AllInOrder, StreamBuilder.InOrder, inOrder]
  pending := holds.pending
  pendingOoo := holds.pendingOoo

theorem Holds.append {b other : StreamBuilder α} {before text : List α} (holds : Holds b before)
    (appended : Holds other text) : Holds (b.append other) (before ++ text) where
  text := by simp [StreamBuilder.append, ← holds.text, ← appended.text]
  inOrder := by simp [StreamBuilder.append, holds.inOrder, appended.inOrder]
  pending := holds.pending
  pendingOoo := holds.pendingOoo

/-- The chunks taken of a finished builder. -/
theorem Holds.takeChunks {b : StreamBuilder α} {text : List α} (holds : Holds b text) :
    chunksText b.finish.takeChunks = text ∧ AllInOrder b.finish.takeChunks := by
  obtain ⟨finished, empty⟩ := holds.finish
  have same := finished.text
  rw [empty, List.append_nil] at same
  simp [StreamBuilder.takeChunks, empty, same, finished.inOrder]

mutual

theorem Op.apply_holds {b : StreamBuilder α} {before : List α} (op : Op α) (holds : Holds b before)
    (inOrder : op.InOrder) : Holds (Op.apply b op) (before ++ op.text) := by
  cases op with
  | pushSync text => exact holds.pushSync text
  | pushAsync delay chunks => exact holds.pushAsync delay inOrder
  | append finished ops =>
    have other := Op.applyAll_holds ops holds_new inOrder
    apply holds.append
    split
    · exact other.finish.1
    · exact other

theorem Op.applyAll_holds {b : StreamBuilder α} {before : List α} (ops : List (Op α))
    (holds : Holds b before) (inOrder : AllOpsInOrder ops) :
    Holds (Op.applyAll b ops) (before ++ Op.texts ops) := by
  cases ops with
  | nil => simpa [Op.applyAll, Op.texts] using holds
  | cons op rest =>
    have first := Op.apply_holds op holds inOrder.1
    have all := Op.applyAll_holds rest first inOrder.2
    simpa [Op.applyAll, Op.texts] using all

end

/-- What any polls of `b` have yielded is the beginning of `text`, all of it once the stream ends,
and it ends. -/
def StreamsText [DecidableEq α] (markup : Markup α) (b : StreamBuilder α) (text : List α) : Prop :=
  (∀ n, yielded (polls markup n b).1 <+: text) ∧
    (∀ n, ((polls markup n b).2.pollNext markup).1 = .done →
      yielded (polls markup n b).1 = text) ∧
    ∃ n, ((polls markup n b).2.pollNext markup).1 = .done

theorem Holds.streams [DecidableEq α] (markup : Markup α) {b : StreamBuilder α} {text : List α}
    (holds : Holds b text) : StreamsText markup b.finish text := by
  obtain ⟨holds, empty⟩ := holds.finish
  have streams : b.finish.Streams :=
    ⟨holds.inOrder, by simp [holds.pending], holds.pendingOoo⟩
  have whole : b.finish.text = text := by
    have held := holds.text
    rw [empty, List.append_nil] at held
    simp [StreamBuilder.text, holds.pending, empty, held]
  refine ⟨?_, ?_, polls_end markup _ streams⟩
  · intro n
    obtain ⟨split, _⟩ := polls_text markup n _ streams
    exact ⟨_, split.trans whole⟩
  · intro n ended
    obtain ⟨split, later⟩ := polls_text markup n _ streams
    obtain ⟨last, _, gone⟩ := pollNext_text markup _ later
    have nothing : (polls markup n b.finish).2.text = [] := by
      rw [← last, ended, gone ended]
      rfl
    rw [← whole, ← split, nothing, List.append_nil]

/-- A finished builder streams the texts pushed to it, in order. -/
theorem in_order_text [DecidableEq α] (markup : Markup α) (ops : List (Op α))
    (inOrder : Op.AllOpsInOrder ops) :
    StreamsText markup (Op.applyAll .new ops).finish (Op.texts ops) :=
  (Op.applyAll_holds ops holds_new inOrder).streams markup

theorem in_order_text_nested :
    let ops : List (Op Char) :=
      [.pushSync ['a'], .pushAsync 2 [.async 1 [], .async 0 [.sync ['b']], .sync ['c']],
        .append true [.pushSync ['d']]]
    Op.AllOpsInOrder ops ∧
      ∃ n, yielded (polls Markup.html n (Op.applyAll .new ops).finish).1 = ['a', 'b', 'c', 'd'] := by
  intro ops
  have inOrder : Op.AllOpsInOrder ops := by
    simp [ops, Op.AllOpsInOrder, Op.InOrder, AllInOrder, StreamBuilder.InOrder]
  obtain ⟨_, whole, n, ended⟩ := in_order_text Markup.html ops inOrder
  exact ⟨inOrder, n, whole n ended⟩

end Halyard.Ssr
