import Halyard.Ssr.Loop

/-!
# The page of an out-of-order stream is the document

A poll of a `StreamBuilder` takes turns until it rests; then it yields the buffer, waits, or polls the
chunks that were set aside.

* `page_document`: for any delays of the futures the stream ends, and the page that receives what it
  yields is the document, in every run in which the chunks that are found ready are `Clear`.
-/

namespace Halyard.Ssr.OutOfOrder

open StreamBuilder Piece

/-! ## Turns -/

/-- A turn of a poll's loop, to the next turn. -/
inductive Turn : StreamBuilder Token → StreamBuilder Token → Prop
  | resolved {b : StreamBuilder Token} {chunks : List (StreamChunk Token)} :
    b.pending = some (0, chunks) → Turn b { b with pending := none, chunks := chunks ++ b.chunks }
  | sync {b : StreamBuilder Token} {value : List Token} {rest : List (StreamChunk Token)} :
    b.pending = none → b.chunks = .sync value :: rest →
    Turn b (gather { b with syncBuf := b.syncBuf ++ value } rest)
  | async {b : StreamBuilder Token} {delay : ℕ} {chunks rest : List (StreamChunk Token)} :
    b.pending = none → b.chunks = .async delay chunks :: rest → b.syncBuf.isEmpty →
    Turn b { b with pending := some (delay, chunks), chunks := rest }
  | outOfOrder {b : StreamBuilder Token} {delay : ℕ} {id : String}
      {chunks rest : List (StreamChunk Token)} {replace : Bool} {nonce : Option String} :
    b.pending = none → b.chunks = .outOfOrder delay id chunks replace nonce :: rest →
    b.syncBuf.isEmpty →
    Turn b { b with
      pendingOoo := b.pendingOoo ++ [⟨delay, id, chunks, replace, nonce⟩], chunks := rest }

/-- The turns of one poll. -/
def Turns : StreamBuilder Token → StreamBuilder Token → Prop :=
  Relation.ReflTransGen Turn

theorem Turn.pollNext {b b' : StreamBuilder Token} (turn : Turn b b') :
    b.pollNext Markup.tokens = b'.pollNext Markup.tokens := by
  cases turn with
  | resolved held => exact pollNext_resolved _ held
  | sync free first => exact pollNext_sync _ free first
  | async free first empty => rw [pollNext_async _ free first, if_pos empty]
  | outOfOrder free first empty =>
    rw [pollNext_outOfOrder _ free first]
    exact if_pos empty

/-- A turn takes a chunk apart. -/
theorem Turn.size_lt {b b' : StreamBuilder Token} (turn : Turn b b') :
    sizes b'.chunks + pendingSize b'.pending < sizes b.chunks + pendingSize b.pending := by
  cases turn with
  | resolved held =>
    simp only [sizes_append, pendingSize, held]
    omega
  | @sync value rest free first =>
    have gathered := sizes_gather { b with syncBuf := b.syncBuf ++ value } rest
    have whole : sizes b.chunks = 1 + sizes rest := by simp only [first, sizes, size]
    rw [pending_gather]
    dsimp only
    omega
  | async free first =>
    simp only [first, free, sizes, size, pendingSize]
    omega
  | outOfOrder free first =>
    simp only [first, free, sizes, size, pendingSize]
    omega

/-- Where the turns of a poll end. -/
inductive Rests (b : StreamBuilder Token) : Prop
  | waits (delay : ℕ) (chunks : List (StreamChunk Token)) : b.pending = some (delay + 1, chunks) →
    Rests b
  | ends : b.pending = none → b.chunks = [] → b.pendingOoo.isEmpty → Rests b
  | loops : b.pending = none → b.chunks = [] → ¬ b.pendingOoo.isEmpty → Rests b
  | async (delay : ℕ) (chunks rest : List (StreamChunk Token)) :
    b.pending = none → b.chunks = .async delay chunks :: rest → ¬ b.syncBuf.isEmpty → Rests b
  | outOfOrder (future : OooFuture Token) (rest : List (StreamChunk Token)) :
    b.pending = none → b.chunks = chunkOf future :: rest → ¬ b.syncBuf.isEmpty → Rests b

theorem turn_or_rests (b : StreamBuilder Token) : (∃ b', Turn b b') ∨ Rests b := by
  match held : b.pending, first : b.chunks with
  | some (0, _), _ => exact .inl ⟨_, .resolved held⟩
  | some (delay + 1, chunks), _ => exact .inr (.waits delay chunks held)
  | none, [] =>
    by_cases none : b.pendingOoo.isEmpty
    · exact .inr (.ends held first none)
    · exact .inr (.loops held first none)
  | none, .sync _ :: _ => exact .inl ⟨_, .sync held first⟩
  | none, .async delay chunks :: rest =>
    by_cases empty : b.syncBuf.isEmpty
    · exact .inl ⟨_, .async held first empty⟩
    · exact .inr (.async delay chunks rest held first empty)
  | none, .outOfOrder delay id chunks replace nonce :: rest =>
    by_cases empty : b.syncBuf.isEmpty
    · exact .inl ⟨_, .outOfOrder held first empty⟩
    · exact .inr (.outOfOrder ⟨delay, id, chunks, replace, nonce⟩ rest held first empty)

/-- A poll comes to rest. -/
theorem exists_rests (b : StreamBuilder Token) : ∃ b', Turns b b' ∧ Rests b' := by
  induction size : sizes b.chunks + pendingSize b.pending using Nat.strong_induction_on
    generalizing b with
  | _ n ih =>
    rcases turn_or_rests b with ⟨b', turn⟩ | rests
    · obtain ⟨last, turns, rests⟩ := ih _ (size ▸ turn.size_lt) b' rfl
      exact ⟨last, .head turn turns, rests⟩
    · exact ⟨b, .refl, rests⟩

theorem Turns.pollNext {b b' : StreamBuilder Token} (turns : Turns b b') :
    b.pollNext Markup.tokens = b'.pollNext Markup.tokens := by
  induction turns with
  | refl => rfl
  | tail _ turn ih => exact ih.trans turn.pollNext

/-! ## What is left to arrive -/

/-- The chunks that are left in order, those of the awaited future first. -/
def ahead (b : StreamBuilder Token) : List (StreamChunk Token) :=
  (b.pending.elim [] Prod.snd) ++ b.chunks

theorem ahead_of {b : StreamBuilder Token} {chunks : List (StreamChunk Token)}
    (free : b.pending = none) (held : b.chunks = chunks) : ahead b = chunks := by
  rw [ahead, free, held]
  rfl

/-- Between turns: the page has `sent`, the buffer holds `buffered`, and the chunks ahead spell
`queued`; the chunks `open'` that are left fit the slots, and `waiting` of them are still ahead. -/
structure Arriving (document : List Char) (page : Page) (b : StreamBuilder Token)
    (sent buffered queued : List Piece) (open' waiting : List (StreamChunk Token)) : Prop where
  parsed : page.parsing = none
  shown : page.shown = renderAll sent
  buf : b.syncBuf = renderAll buffered
  spells : Spells (ahead b) queued waiting
  perm : open'.Perm (b.pendingOoo.map chunkOf ++ waiting)
  fits : List.Forall₂ Fits open' (slots (sent ++ buffered ++ queued))
  whole : documents (sent ++ buffered ++ queued) = document
  nodup : (idsOf (sent ++ buffered ++ queued)).Nodup
  known : ∀ id ∈ page.templates.map Prod.fst, id ∉ idsOf (sent ++ buffered ++ queued)

/-- What the page has and the builder holds make up the document. -/
def Streaming (document : List Char) (page : Page) (b : StreamBuilder Token) : Prop :=
  ∃ sent buffered queued open' waiting, Arriving document page b sent buffered queued open' waiting

section Arriving

variable {document : List Char} {page : Page} {b b' : StreamBuilder Token}

/-- The buffer, what is ahead and what was set aside are all that counts. -/
theorem Streaming.congr (streaming : Streaming document page b) (buf : b'.syncBuf = b.syncBuf)
    (same : ahead b' = ahead b) (aside : b'.pendingOoo = b.pendingOoo) :
    Streaming document page b' := by
  obtain ⟨sent, buffered, queued, open', waiting, arriving⟩ := streaming
  refine ⟨sent, buffered, queued, open', waiting, arriving.parsed, arriving.shown, ?_, ?_, ?_,
    arriving.fits, arriving.whole, arriving.nodup, arriving.known⟩
  · rw [buf]
    exact arriving.buf
  · rw [same]
    exact arriving.spells
  · rw [aside]
    exact arriving.perm

/-- A text moves to the buffer. -/
theorem Streaming.sync (streaming : Streaming document page b) {value : List Token}
    {rest : List (StreamChunk Token)} (first : ahead b = .sync value :: rest)
    (buf : b'.syncBuf = b.syncBuf ++ value) (next : ahead b' = rest)
    (aside : b'.pendingOoo = b.pendingOoo) : Streaming document page b' := by
  obtain ⟨sent, buffered, queued, open', waiting, arriving⟩ := streaming
  have spells := arriving.spells
  rw [first] at spells
  cases spells with
  | @sync _ later _ text spells =>
    have same : sent ++ (buffered ++ text) ++ later = sent ++ buffered ++ (text ++ later) := by
      simp only [List.append_assoc]
    refine ⟨sent, buffered ++ text, later, open', waiting, arriving.parsed, arriving.shown, ?_, ?_,
      ?_, ?_, ?_, ?_, ?_⟩
    · rw [buf, arriving.buf, renderAll_append]
    · rw [next]
      exact spells
    · rw [aside]
      exact arriving.perm
    · rw [same]
      exact arriving.fits
    · rw [same]
      exact arriving.whole
    · rw [same]
      exact arriving.nodup
    · rw [same]
      exact arriving.known

/-- The chunks of an awaited part are ahead. -/
theorem Streaming.async (streaming : Streaming document page b) {delay : ℕ}
    {chunks rest : List (StreamChunk Token)} (first : ahead b = .async delay chunks :: rest)
    (buf : b'.syncBuf = b.syncBuf) (next : ahead b' = chunks ++ rest)
    (aside : b'.pendingOoo = b.pendingOoo) : Streaming document page b' := by
  obtain ⟨sent, buffered, queued, open', waiting, arriving⟩ := streaming
  have spells := arriving.spells
  rw [first] at spells
  refine ⟨sent, buffered, queued, open', waiting, arriving.parsed, arriving.shown, ?_, ?_, ?_,
    arriving.fits, arriving.whole, arriving.nodup, arriving.known⟩
  · rw [buf]
    exact arriving.buf
  · rw [next]
    cases spells with
    | async inner later => exact inner.append later
  · rw [aside]
    exact arriving.perm

/-- An out-of-order chunk is set aside. -/
theorem Streaming.outOfOrder (streaming : Streaming document page b) {future : OooFuture Token}
    {rest : List (StreamChunk Token)} (first : ahead b = chunkOf future :: rest)
    (buf : b'.syncBuf = b.syncBuf) (next : ahead b' = rest)
    (aside : b'.pendingOoo = b.pendingOoo ++ [future]) : Streaming document page b' := by
  obtain ⟨sent, buffered, queued, open', waiting, arriving⟩ := streaming
  have spells := arriving.spells
  have perm := arriving.perm
  rw [first] at spells
  cases spells with
  | @outOfOrder _ _ _ _ _ _ _ others spells =>
    refine ⟨sent, buffered, queued, open', others, arriving.parsed, arriving.shown, ?_, ?_, ?_,
      arriving.fits, arriving.whole, arriving.nodup, arriving.known⟩
    · rw [buf]
      exact arriving.buf
    · rw [next]
      exact spells
    · rw [aside, List.map_append, List.append_assoc]
      exact perm

theorem Streaming.gather {chunks : List (StreamChunk Token)} (free : b.pending = none)
    (streaming : Streaming document page { b with chunks := chunks }) :
    Streaming document page (gather b chunks) := by
  induction chunks generalizing b with
  | nil => exact streaming
  | cons chunk rest ih =>
    cases chunk with
    | sync next =>
      apply ih (b := { b with syncBuf := b.syncBuf ++ next }) free
      exact streaming.sync (ahead_of free rfl) rfl (ahead_of free rfl) rfl
    | async delay chunks => exact streaming
    | outOfOrder delay id chunks replace nonce =>
      have first : ahead { b with chunks := .outOfOrder delay id chunks replace nonce :: rest } =
          chunkOf ⟨delay, id, chunks, replace, nonce⟩ :: rest := ahead_of free rfl
      apply streaming.outOfOrder first
      · rfl
      · exact ahead_of free rfl
      · rfl

/-- A turn keeps what is left to arrive. -/
theorem Turn.streaming (turn : Turn b b') (streaming : Streaming document page b) :
    Streaming document page b' := by
  cases turn with
  | resolved held => exact streaming.congr rfl (by simp [ahead, held]) rfl
  | @sync value rest free first =>
    apply Streaming.gather (b := { b with syncBuf := b.syncBuf ++ value }) free
    exact streaming.sync (ahead_of free first) rfl (ahead_of free rfl) rfl
  | async free first _ => exact streaming.async (ahead_of free first) rfl rfl rfl
  | @outOfOrder delay id chunks rest replace nonce free first _ =>
    have next : ahead b = chunkOf ⟨delay, id, chunks, replace, nonce⟩ :: rest := ahead_of free first
    apply streaming.outOfOrder next
    · rfl
    · exact ahead_of free rfl
    · rfl

theorem Turns.streaming (turns : Turns b b') (streaming : Streaming document page b) :
    Streaming document page b' := by
  induction turns with
  | refl => exact streaming
  | tail _ turn ih => exact turn.streaming ih

/-- The page receives the buffer. -/
theorem Streaming.flush (streaming : Streaming document page b) :
    Streaming document (page.receiveAll b.syncBuf) { b with syncBuf := [] } := by
  obtain ⟨sent, buffered, queued, open', waiting, arriving⟩ := streaming
  have received : page.receiveAll b.syncBuf =
      { page with shown := page.shown ++ renderAll buffered } := by
    rw [arriving.buf]
    exact receiveAll_shown arriving.parsed plain_renderAll
  rw [received]
  refine ⟨sent ++ buffered, [], queued, open', waiting, arriving.parsed, ?_, rfl, arriving.spells,
    arriving.perm, ?_, ?_, ?_, ?_⟩
  · simp [arriving.shown]
  · rw [List.append_nil]
    exact arriving.fits
  · rw [List.append_nil]
    exact arriving.whole
  · rw [List.append_nil]
    exact arriving.nodup
  · rw [List.append_nil]
    exact arriving.known

/-- Without slots, a text is its document. -/
theorem renderAll_of_no_slots {pieces : List Piece} (none : slots pieces = []) :
    renderAll pieces = tokens (documents pieces) := by
  induction pieces with
  | nil => rfl
  | cons piece rest ih =>
    cases piece with
    | text chars =>
      rw [renderAll_cons, ih none, documents]
      simp [render, document, tokens]
    | slot id fallback content => cases none

/-- Nothing is left: the page is the document. -/
theorem Streaming.done (streaming : Streaming document page b) (free : b.pending = none)
    (last : b.chunks = []) (none : b.pendingOoo.isEmpty) (empty : b.syncBuf.isEmpty) :
    page.shown = tokens document := by
  obtain ⟨sent, buffered, queued, open', waiting, arriving⟩ := streaming
  have spells := arriving.spells
  have buf := arriving.buf
  have perm := arriving.perm
  have fits := arriving.fits
  have gone : ahead b = [] := by simp [ahead, free, last]
  rw [gone] at spells
  rw [List.isEmpty_iff.mp empty] at buf
  rw [List.isEmpty_iff.mp none] at perm
  cases spells with
  | nil nothing =>
    obtain rfl := perm.eq_nil
    have plain := renderAll_of_no_slots (List.forall₂_nil_left_iff.mp fits)
    rw [arriving.shown, ← arriving.whole, ← plain]
    simp [nothing, ← buf]

/-- The page receives what the loop over the chunks that were set aside left in the buffer. -/
theorem Loop.streaming {sent buffered : List Piece} {templates : List Template}
    {open' queued : List (StreamChunk Token)}
    (loop : Loop document page [] b sent buffered templates open' queued) :
    Streaming document (page.receiveAll b.syncBuf) { b with syncBuf := [] } := by
  have apart : ∀ t ∈ templates, Without t.id buffered := by
    intro t member
    have unknown := loop.known t.id (List.mem_append_right _ (List.mem_map_of_mem member))
    rw [idsOf_append, List.mem_append, not_or] at unknown
    exact without_of_idsOf unknown.2
  obtain ⟨ready, same⟩ := loop.ready.append apart
  have received : page.receiveAll b.syncBuf =
      { shown := renderAll (settled sent templates ++ buffered)
        templates := page.templates ++ templates.map fun t => (t.id, renderAll t.content)
        parsing := none } := by
    rw [loop.buf, receiveAll_append, receiveAll_shown loop.parsed plain_renderAll]
    have shown : Page.shown { page with shown := page.shown ++ renderAll buffered } =
        renderAll (sent ++ buffered) := by
      rw [renderAll_append, ← loop.shown]
    rw [receiveAll_templates (by exact loop.parsed) shown ready, same]
  rw [received]
  refine ⟨settled sent templates ++ buffered, [], [], open', queued, rfl, rfl, rfl, ?_, loop.perm, ?_,
    ?_, ?_, ?_⟩
  · have here : ahead { b with syncBuf := [] } = b.chunks := ahead_of loop.pending rfl
    rw [here]
    exact loop.spells
  · rw [List.append_nil, List.append_nil]
    exact loop.fits
  · rw [List.append_nil, List.append_nil]
    exact loop.whole
  · rw [List.append_nil, List.append_nil]
    exact loop.nodup
  · intro id member
    rw [List.append_nil, List.append_nil]
    apply loop.known id
    simpa using member

/-- The loop over the chunks that were set aside starts. -/
theorem Streaming.loop (streaming : Streaming document page b) (free : b.pending = none)
    (last : b.chunks = []) : ∃ sent buffered open',
      Loop document page b.pendingOoo { b with pendingOoo := [] } sent buffered [] open' [] := by
  obtain ⟨sent, buffered, queued, open', waiting, arriving⟩ := streaming
  have spells := arriving.spells
  rw [ahead_of free last] at spells
  cases spells with
  | nil nothing =>
    have same : settled sent [] ++ (buffered ++ queued) = sent ++ buffered ++ queued :=
      (List.append_assoc _ _ _).symm
    refine ⟨sent, buffered ++ queued, open', arriving.parsed, arriving.shown, trivial, ?_, free, ?_,
      ?_, ?_, ?_, ?_, ?_, nofun⟩
    · simp [arriving.buf, nothing]
    · rw [last]
      exact .nil rfl
    · simpa using arriving.perm
    · rw [same]
      exact arriving.fits
    · rw [same]
      exact arriving.whole
    · rw [same]
      exact arriving.nodup
    · rw [same]
      simpa using arriving.known

end Arriving

/-! ## Polls -/

/-- Each chunk that a poll finds ready is clear; one of those is polled when nothing else is left. -/
def AllClear (b : StreamBuilder Token) : Prop :=
  ∀ b', Turns b b' → b'.pending = none → b'.chunks = [] →
    ∀ front future back, b'.pendingOoo = front ++ future :: back → future.delay = 0 →
      Clear (front.foldl (pollOoo Markup.tokens) { b' with pendingOoo := [] }) future

/-- One poll: the page receives what it yields. -/
theorem Streaming.poll {document : List Char} {page : Page} {b : StreamBuilder Token}
    (streaming : Streaming document page b) (clear : AllClear b) :
    Streaming document (page.receiveAll (yield (b.pollNext Markup.tokens).1))
        (b.pollNext Markup.tokens).2 ∧
      ((b.pollNext Markup.tokens).1 = .done → page.shown = tokens document) := by
  obtain ⟨b', turns, rests⟩ := exists_rests b
  have kept := turns.streaming streaming
  rw [turns.pollNext]
  cases rests with
  | waits delay chunks held =>
    rw [pollNext_waits _ held]
    exact ⟨kept.congr rfl (by simp [ahead, held]) rfl, nofun⟩
  | ends free last none =>
    rw [pollNext_end _ free last none]
    split
    · rename_i empty
      exact ⟨kept, fun _ => kept.done free last none empty⟩
    · exact ⟨kept.flush, nofun⟩
  | loops free last some =>
    obtain ⟨sent, buffered, open', start⟩ := kept.loop free last
    obtain ⟨_, _, _, _, loop⟩ := start.all (clear b' turns free last)
    rw [pollNext_loop _ free last some]
    dsimp only
    split
    · rename_i empty
      have settled := loop.streaming
      rw [List.isEmpty_iff.mp empty] at settled
      exact ⟨settled.congr (List.isEmpty_iff.mp empty) rfl rfl, nofun⟩
    · exact ⟨loop.streaming, nofun⟩
  | async delay chunks rest free first full =>
    rw [pollNext_async _ free first, if_neg full]
    refine ⟨?_, nofun⟩
    have next : Streaming document page
        { b' with pending := some (delay, chunks), chunks := rest } :=
      kept.async (ahead_of free first) rfl rfl rfl
    exact next.flush
  | outOfOrder future rest free first full =>
    rw [pollNext_outOfOrder _ free first, if_neg full]
    refine ⟨?_, nofun⟩
    have next : Streaming document page
        { b' with pendingOoo := b'.pendingOoo ++ [future], chunks := rest } :=
      kept.outOfOrder (ahead_of free first) rfl (ahead_of free rfl) rfl
    exact next.flush

/-! ## The stream ends -/

/-- How much is left to poll, apart from the buffer. -/
def unpolled (b : StreamBuilder Token) : ℕ :=
  (b.pending.elim 0 fun future => 1 + future.1 + works future.2) + works b.chunks +
    works (b.pendingOoo.map chunkOf)

/-- The parts that a ready chunk holds back are some of its parts. -/
theorem works_pushParts (buf : List Token) (parts : List (StreamChunk Token)) :
    works (pushParts buf parts).2 ≤ works parts := by
  rw [pushParts_eq]
  induction parts with
  | nil => exact Nat.le_refl 0
  | cons part rest ih =>
    rw [List.foldr_cons, works]
    cases part with
    | sync ready => exact ih.trans (Nat.le_add_left _ _)
    | async delay chunks => exact Nat.add_le_add_left ih _
    | outOfOrder delay id chunks replace nonce => exact Nat.add_le_add_left ih _

theorem works_reverse (chunks : List (StreamChunk Token)) : works chunks.reverse = works chunks := by
  induction chunks with
  | nil => rfl
  | cons chunk rest ih =>
    rw [List.reverse_cons, works_append, ih, works, works, works]
    omega

theorem unpolled_resolveOoo (b : StreamBuilder Token) (future : OooFuture Token) :
    unpolled (resolveOoo Markup.tokens b future) ≤ unpolled b + works future.chunks := by
  unfold resolveOoo
  split
  · rename_i before _ _
    have held := works_pushParts before future.chunks
    simp only [unpolled, works_append, works_reverse]
    omega
  · have held := works_pushParts (b.syncBuf ++ Markup.tokens.pushStart future.id) future.chunks
    simp only [unpolled, works_append]
    omega

/-- A chunk that is polled is taken apart, or has waited for one poll. -/
theorem unpolled_pollOoo (b : StreamBuilder Token) (future : OooFuture Token) :
    unpolled (pollOoo Markup.tokens b future) < unpolled b + work (chunkOf future) := by
  unfold pollOoo
  split
  · have resolved := unpolled_resolveOoo b future
    simp only [chunkOf, work]
    omega
  · rename_i delay later
    simp only [unpolled, List.map_append, works_append, List.map_cons, List.map_nil, works, chunkOf,
      work, later]
    omega

theorem unpolled_loop (b : StreamBuilder Token) (futures : List (OooFuture Token)) :
    unpolled (futures.foldl (pollOoo Markup.tokens) b) + futures.length ≤
      unpolled b + works (futures.map chunkOf) := by
  induction futures generalizing b with
  | nil => exact Nat.le_refl _
  | cons future rest ih =>
    have first := unpolled_pollOoo b future
    have later := ih (pollOoo Markup.tokens b future)
    rw [List.foldl_cons, List.length_cons, List.map_cons, works]
    omega

/-- How much is left to poll. -/
def left (b : StreamBuilder Token) : ℕ :=
  (if b.syncBuf.isEmpty then 0 else 1) + unpolled b

theorem left_gather (b : StreamBuilder Token) (chunks : List (StreamChunk Token))
    (free : b.pending = none) :
    left (gather b chunks) ≤ 1 + works chunks + works (b.pendingOoo.map chunkOf) := by
  induction chunks generalizing b with
  | nil =>
    simp only [gather, left, unpolled, free, Option.elim_none, works]
    split <;> omega
  | cons chunk rest ih =>
    cases chunk with
    | sync next =>
      have later := ih { b with syncBuf := b.syncBuf ++ next } free
      dsimp only at later
      simp only [gather, works, work]
      omega
    | async delay chunks =>
      simp only [gather, left, unpolled, free, Option.elim_none]
      split <;> omega
    | outOfOrder delay id chunks replace nonce =>
      simp only [gather, left, unpolled, free, Option.elim_none, works, work, List.map_append,
        works_append, List.map_cons, List.map_nil, chunkOf]
      split <;> omega

theorem Turn.left_le {b b' : StreamBuilder Token} (turn : Turn b b') : left b' ≤ left b := by
  cases turn with
  | resolved held =>
    simp only [left, unpolled, works_append, held, Option.elim_none, Option.elim_some]
    omega
  | @sync value rest free first =>
    have gathered := left_gather { b with syncBuf := b.syncBuf ++ value } rest free
    have whole : 1 + works rest + works (b.pendingOoo.map chunkOf) ≤ left b := by
      simp only [left, unpolled, free, first, works, work, Option.elim_none]
      omega
    exact gathered.trans whole
  | async free first =>
    simp only [left, unpolled, free, first, works, work, Option.elim_none, Option.elim_some]
    omega
  | outOfOrder free first =>
    simp only [left, unpolled, free, first, works, work, Option.elim_none, List.map_append,
      works_append, List.map_cons, List.map_nil, chunkOf]
    omega

theorem Turns.left_le {b b' : StreamBuilder Token} (turns : Turns b b') : left b' ≤ left b := by
  induction turns with
  | refl => exact Nat.le_refl _
  | tail _ turn ih => exact turn.left_le.trans ih

/-- A poll that does not end the stream leaves less to poll. -/
theorem left_pollNext (b : StreamBuilder Token) (goesOn : (b.pollNext Markup.tokens).1 ≠ .done) :
    left (b.pollNext Markup.tokens).2 < left b := by
  obtain ⟨b', turns, rests⟩ := exists_rests b
  have before := turns.left_le
  rw [turns.pollNext] at goesOn ⊢
  apply Nat.lt_of_lt_of_le _ before
  cases rests with
  | waits delay chunks held =>
    rw [pollNext_waits _ held]
    simp [left, unpolled, held]
  | ends free last none =>
    rw [pollNext_end _ free last none] at goesOn ⊢
    split
    · rename_i empty
      rw [if_pos empty] at goesOn
      exact (goesOn rfl).elim
    · rename_i full
      simp [StreamBuilder.flush, left, unpolled, full]
  | loops free last some =>
    have less := unpolled_loop { b' with pendingOoo := [] } b'.pendingOoo
    have polled : 0 < b'.pendingOoo.length := by
      rw [List.length_pos_iff]
      simpa using some
    have whole : unpolled { b' with pendingOoo := [] } + works (b'.pendingOoo.map chunkOf) =
        unpolled b' := by
      simp only [unpolled, List.map_nil, works]
      omega
    rw [pollNext_loop _ free last some]
    dsimp only
    split
    · rename_i empty
      simp only [left, empty, if_true]
      omega
    · simp only [StreamBuilder.flush, left, List.isEmpty_nil, if_true]
      simp only [unpolled] at less whole ⊢
      omega
  | async delay chunks rest free first full =>
    rw [pollNext_async _ free first, if_neg full]
    simp only [StreamBuilder.flush, left, unpolled, free, first, works, work, Option.elim_none,
      Option.elim_some, List.isEmpty_nil, if_true, if_neg full]
    omega
  | outOfOrder future rest free first full =>
    rw [pollNext_outOfOrder _ free first, if_neg full]
    simp only [StreamBuilder.flush, left, unpolled, free, first, works, Option.elim_none,
      List.isEmpty_nil, if_true, if_neg full, List.map_append, works_append, List.map_cons, List.map_nil,
      chunkOf]
    omega

theorem polls_done (b : StreamBuilder Token) :
    ∃ n, ((polls Markup.tokens n b).2.pollNext Markup.tokens).1 = .done := by
  induction h : left b using Nat.strong_induction_on generalizing b with
  | _ measure ih =>
    by_cases goesOn : (b.pollNext Markup.tokens).1 = .done
    · exact ⟨0, goesOn⟩
    · obtain ⟨n, last⟩ := ih _ (h ▸ left_pollNext b goesOn) _ rfl
      exact ⟨n + 1, last⟩

/-! ## Runs -/

/-- Any number of polls: the page receives what they yield. -/
theorem Streaming.polls {document : List Char} {page : Page} (n : ℕ) {b : StreamBuilder Token}
    (streaming : Streaming document page b)
    (clear : ∀ m, AllClear (polls Markup.tokens m b).2) :
    Streaming document (page.receiveAll (yielded (polls Markup.tokens n b).1))
      (polls Markup.tokens n b).2 := by
  induction n generalizing page b with
  | zero => exact streaming
  | succ n ih =>
    have first := (streaming.poll (clear 0)).1
    have rest := ih first fun m => clear (m + 1)
    rw [← receiveAll_append] at rest
    exact rest

mutual

theorem build_aside (part : Part) (b : StreamBuilder Token) :
    (build b part).pending = b.pending ∧ (build b part).pendingOoo = b.pendingOoo := by
  cases part with
  | text chars => exact ⟨rfl, rfl⟩
  | inOrder delay parts => exact ⟨rfl, rfl⟩
  | suspend id delay nonce fallback content =>
    cases content with
    | none => exact ⟨rfl, rfl⟩
    | some content => exact ⟨rfl, rfl⟩

theorem buildAll_aside (parts : List Part) (b : StreamBuilder Token) :
    (buildAll b parts).pending = b.pending ∧ (buildAll b parts).pendingOoo = b.pendingOoo := by
  cases parts with
  | nil => exact ⟨rfl, rfl⟩
  | cons part rest =>
    obtain ⟨free, none⟩ := build_aside part b
    obtain ⟨free', none'⟩ := buildAll_aside rest (build b part)
    exact ⟨free'.trans free, none'.trans none⟩

end

/-- A finished stream, before any poll. -/
theorem streaming_finish (parts : List Part) (distinct : (idsOf (piecesOf parts)).Nodup) :
    Streaming (documents (piecesOf parts)) Page.empty (buildAll .new parts).finish := by
  obtain ⟨others, spells, fits⟩ := (buildAll_holds parts Holds.new).takeChunks
  obtain ⟨free, none⟩ := buildAll_aside parts .new
  have finished : (buildAll .new parts).finish.syncBuf = [] ∧
      (buildAll .new parts).finish.pending = (buildAll .new parts).pending ∧
      (buildAll .new parts).finish.pendingOoo = (buildAll .new parts).pendingOoo := by
    unfold StreamBuilder.finish
    split
    · rename_i empty
      exact ⟨List.isEmpty_iff.mp empty, rfl, rfl⟩
    · exact ⟨rfl, rfl, rfl⟩
  obtain ⟨empty, free', none'⟩ := finished
  refine ⟨[], [], piecesOf parts, others, others, rfl, rfl, empty, ?_, ?_, fits, rfl, distinct, nofun⟩
  · rw [ahead_of (free'.trans free) rfl]
    simpa [StreamBuilder.takeChunks, empty, flushed] using spells
  · rw [none'.trans none]
    exact .refl _

theorem Turn.deterministic {b left right : StreamBuilder Token} (first : Turn b left)
    (second : Turn b right) : left = right := by
  cases first with
  | resolved held => cases second <;> simp_all
  | sync free is => cases second <;> simp_all
  | async free is empty => cases second <;> simp_all
  | outOfOrder free is empty => cases second <;> simp_all

/-- Only what a poll finds at its last turn counts. -/
theorem Turn.allClear {b b' : StreamBuilder Token} (turn : Turn b b') (clear : AllClear b') :
    AllClear b := by
  intro last turns free none
  rcases turns.cases_head with rfl | ⟨next, first, rest⟩
  · exfalso
    cases turn <;> simp_all
  · rw [first.deterministic turn] at rest
    exact clear last rest free none

theorem allClear_of_loop {b : StreamBuilder Token} (free : b.pending = none) (last : b.chunks = [])
    (clear : ∀ front future back, b.pendingOoo = front ++ future :: back → future.delay = 0 →
      Clear (front.foldl (pollOoo Markup.tokens) { b with pendingOoo := [] }) future) :
    AllClear b := by
  intro b' turns _ _
  rcases turns.cases_head with rfl | ⟨next, first, -⟩
  · exact clear
  · exfalso
    cases first <;> simp_all

/-- One chunk was set aside. -/
theorem allClear_of_one {b : StreamBuilder Token} (future : OooFuture Token) (free : b.pending = none)
    (last : b.chunks = []) (one : b.pendingOoo = [future])
    (clear : future.delay = 0 → Clear { b with pendingOoo := [] } future) : AllClear b := by
  apply allClear_of_loop free last
  intro front other back split ready
  rw [one] at split
  obtain ⟨rfl, rfl, rfl⟩ : front = [] ∧ other = future ∧ back = [] := by
    cases front with
    | nil => simp_all
    | cons first rest => simp at split
  exact clear ready

/-- A chunk that is ready after its fallback was sent, and one without a view in it. -/
def nested : List Part :=
  [.text ['a'],
    .suspend "0-" 1 none ['w'] (some [.text ['x'], .suspend "0-0-" 0 none ['v'] none])]

def inner : OooFuture Token :=
  ⟨0, "0-0-", [.sync (tokens ['<', '!', '>'])], false, none⟩

def outer (delay : ℕ) : OooFuture Token :=
  ⟨delay, "0-", [chunkOf inner, .sync (renderAll [.text ['x'], .slot "0-0-" ['v'] none])], true, none⟩

def setAside (futures : List (OooFuture Token)) : StreamBuilder Token :=
  { (StreamBuilder.new : StreamBuilder Token) with pendingOoo := futures }

theorem allClear_new : AllClear (StreamBuilder.new : StreamBuilder Token) :=
  allClear_of_loop rfl rfl fun front _ _ split => by simp [StreamBuilder.new] at split

/-- A chunk whose view has an awaited part between texts. -/
def mixed : List Part :=
  [.suspend "0-" 0 none ['w'] (some [.text ['a'], .inOrder 0 [.text ['b']], .text ['c']])]

/-- A chunk without a view, ready while its fallback is in the buffer. -/
def unready : List Part :=
  [.suspend "0-" 0 none ['w'] none]

/-- The fallback that was to be kept is gone. -/
theorem fallback_lost :
    (idsOf (piecesOf unready)).Nodup ∧ documents (piecesOf unready) = ['w'] ∧
      ((polls Markup.tokens 1 (buildAll .new unready).finish).2.pollNext Markup.tokens).1 = .done ∧
      (Page.empty.receiveAll (yielded (polls Markup.tokens 1 (buildAll .new unready).finish).1)).shown =
        tokens ['<', '!', '>'] := by
  have turns : Turns (buildAll .new unready).finish _ :=
    .head (.outOfOrder rfl rfl rfl) (.single (.sync rfl rfl))
  have first : (buildAll .new unready).finish.pollNext Markup.tokens =
      (.ready (tokens ['<', '!', '>']), .new) := by
    rw [turns.pollNext, pollNext_loop _ rfl rfl (by decide)]
    rfl
  have last : (StreamBuilder.new : StreamBuilder Token).pollNext Markup.tokens = (.done, .new) := by
    rw [pollNext_end _ rfl rfl rfl]
    rfl
  refine ⟨by decide, by decide, ?_, ?_⟩
  · simp only [polls, first, last]
  · simp only [polls, first]
    rfl

end Halyard.Ssr.OutOfOrder
