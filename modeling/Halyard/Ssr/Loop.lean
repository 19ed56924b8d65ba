import Halyard.Ssr.Arrival

/-!
# The out-of-order chunks that are found ready

What the loop of a poll over the chunks that were set aside does to the page that receives the buffer:
a chunk that is ready settles its slot, in the buffer or by a template and a script.

* `Loop.all`: this holds over the whole loop, if each chunk that is ready is `Clear`.
-/

namespace Halyard.Ssr.OutOfOrder

open StreamBuilder Piece

/-! ## Chunks and their slots -/

def chunkId : StreamChunk Token → Option String
  | .outOfOrder _ id _ _ _ => some id
  | _ => none

/-- The chunk of a future. -/
def chunkOf (future : OooFuture Token) : StreamChunk Token :=
  .outOfOrder future.delay future.id future.chunks future.replace future.nonce

theorem Fits.id {chunk : StreamChunk Token} {piece : Piece} (fits : Fits chunk piece) :
    chunkId chunk = piece.id? := by
  cases fits <;> rfl

theorem Fits.delay {future : OooFuture Token} {piece : Piece} (fits : Fits (chunkOf future) piece)
    (delay : ℕ) : Fits (chunkOf { future with delay := delay }) piece := by
  obtain ⟨_, id, chunks, replace, nonce⟩ := future
  cases fits with
  | replaced spells others => exact .replaced spells others
  | kept => exact .kept

/-- What a fitting chunk puts into the text, and the slots in that. -/
theorem Fits.parts {future : OooFuture Token} {piece : Piece} (fits : Fits (chunkOf future) piece) :
    ∃ fallback content inner others, piece = .slot future.id fallback content ∧
      content.isSome = future.replace ∧ (∀ pieces, content = some pieces → pieces = inner) ∧
      List.Forall₂ Fits others (slots piece.outcome) ∧
      List.Forall₂ Fits others (slots inner) ∧
      (OneText future.chunks →
        ∀ buf, pushParts buf future.chunks = (buf ++ renderAll inner, others)) := by
  obtain ⟨delay, id, chunks, replace, nonce⟩ := future
  cases fits with
  | @replaced _ _ _ _ fallback content others spells fits =>
    refine ⟨fallback, some content, content, others, rfl, rfl, ?_, fits, fits, ?_⟩
    · rintro pieces ⟨⟩
      rfl
    · intro one buf
      exact spells.push one buf
  | @kept _ _ chars _ fallback =>
    refine ⟨fallback, none, [.text chars], [], rfl, rfl, nofun, .nil, .nil, ?_⟩
    intro _ buf
    simp [pushParts, renderAll, render, tokens]

/-- Fitting chunks are all out of order. -/
theorem spells_of_fits {chunks : List (StreamChunk Token)} {pieces : List Piece}
    (fits : List.Forall₂ Fits chunks pieces) : Spells chunks [] chunks := by
  induction fits with
  | nil => exact .nil rfl
  | cons fit _ ih =>
    cases fit with
    | replaced _ _ => exact .outOfOrder ih
    | kept => exact .outOfOrder ih

theorem ids_of_fits {chunks : List (StreamChunk Token)} {pieces : List Piece}
    (fits : List.Forall₂ Fits chunks pieces) : chunks.map chunkId = pieces.map id? := by
  induction fits with
  | nil => rfl
  | cons fit _ ih => rw [List.map_cons, List.map_cons, fit.id, ih]

/-- The ids of slots are some of all ids. -/
theorem slots_sublist (pieces : List Piece) :
    ((slots pieces).map id?).Sublist ((idsOf pieces).map some) := by
  induction pieces with
  | nil => exact .slnil
  | cons piece rest ih =>
    rw [idsOf, List.map_append]
    cases piece with
    | text chars => exact ih
    | slot id fallback content =>
      have first : ((Piece.slot id fallback content).ids.map some) =
          some id :: (idsOf (Piece.slot id fallback content).outcome).map some := by
        rw [idsOf_outcome, List.map_cons]
      rw [first]
      exact (ih.trans (List.sublist_append_right _ _)).cons_cons (some id)

theorem nodup_chunkIds {chunks : List (StreamChunk Token)} {pieces : List Piece}
    (fits : List.Forall₂ Fits chunks (slots pieces)) (nodup : (idsOf pieces).Nodup) :
    (chunks.map chunkId).Nodup := by
  rw [ids_of_fits fits]
  exact (slots_sublist pieces).nodup (nodup.map (Option.some_injective _))

theorem forall₂_split {left right : List (StreamChunk Token)} {pieces : List Piece}
    (fits : List.Forall₂ Fits (left ++ right) pieces) :
    ∃ first second, pieces = first ++ second ∧ List.Forall₂ Fits left first ∧
      List.Forall₂ Fits right second := by
  induction left generalizing pieces with
  | nil => exact ⟨[], pieces, rfl, .nil, fits⟩
  | cons chunk rest ih =>
    cases fits with
    | cons fit later =>
      obtain ⟨first, second, rfl, fitsFirst, fitsSecond⟩ := ih later
      exact ⟨_ :: first, second, rfl, .cons fit fitsFirst, fitsSecond⟩

/-- A chunk among the fitting ones, and its slot. -/
theorem exists_slot {chunks others : List (StreamChunk Token)} {chunk : StreamChunk Token}
    {pieces : List Piece} (perm : chunks.Perm (chunk :: others))
    (fits : List.Forall₂ Fits chunks (slots pieces)) :
    ∃ left right before piece after, (left ++ right).Perm others ∧
      pieces = before ++ piece :: after ∧ Fits chunk piece ∧
      List.Forall₂ Fits left (slots before) ∧ List.Forall₂ Fits right (slots after) := by
  obtain ⟨left, right, rfl⟩ := List.append_of_mem (perm.mem_iff.mpr List.mem_cons_self)
  have same : (left ++ right).Perm others := (List.perm_middle.symm.trans perm).cons_inv
  obtain ⟨first, second, split, fitsLeft, fitsRest⟩ := forall₂_split fits
  cases fitsRest with
  | @cons _ piece _ rest fit fitsRight =>
    obtain ⟨front, back, rfl, rfl, last⟩ := List.filter_eq_append_iff.mp split
    obtain ⟨plain, after, rfl, none, -, rfl⟩ := List.filter_eq_cons_iff.mp last
    have empty : slots plain = [] := List.filter_eq_nil_iff.mpr none
    refine ⟨left, right, front ++ plain, piece, after, same, by simp, fit, ?_, fitsRight⟩
    rw [slots_append, empty, List.append_nil]
    exact fitsLeft

/-- What a slot's outcome in its place leaves of the pieces. -/
theorem settle_ok {before after : List Piece} {id : String} {fallback : List Char}
    {content : Option (List Piece)}
    (nodup : (idsOf (before ++ .slot id fallback content :: after)).Nodup) :
    let pieces := before ++ (Piece.slot id fallback content).outcome ++ after
    documents pieces = documents (before ++ .slot id fallback content :: after) ∧
      (idsOf pieces).Nodup ∧ id ∉ idsOf pieces ∧
      (∀ other ∈ idsOf pieces, other ∈ idsOf (before ++ .slot id fallback content :: after)) ∧
      Without id before ∧ Without id after := by
  intro pieces
  have ids : (idsOf (before ++ .slot id fallback content :: after)).Perm (id :: idsOf pieces) := by
    simp only [pieces, idsOf_append, idsOf, idsOf_outcome]
    simp only [List.append_assoc, List.cons_append]
    exact List.perm_middle
  have apart := ids.nodup_iff.mp nodup
  rw [List.nodup_cons] at apart
  have gone : id ∉ idsOf before ∧ id ∉ idsOf after := by
    have none := apart.1
    simp only [pieces, idsOf_append, List.mem_append, not_or] at none
    exact ⟨none.1.1, none.2⟩
  refine ⟨?_, apart.2, apart.1, ?_, without_of_idsOf gone.1, without_of_idsOf gone.2⟩
  · simp only [pieces, documents_append, documents, documents_outcome, List.append_assoc]
  · intro other member
    exact ids.mem_iff.mpr (List.mem_cons_of_mem _ member)

/-! ## The loop over the chunks that were set aside -/

/-- In the loop: the page has `sent`, and the buffer holds `buffered` and then templates; the chunks
`open'` that are left fit the slots that are left, and `queued` of them wait in the queue. -/
structure Loop (document : List Char) (page : Page) (rest : List (OooFuture Token))
    (b : StreamBuilder Token) (sent buffered : List Piece) (templates : List Template)
    (open' queued : List (StreamChunk Token)) : Prop where
  parsed : page.parsing = none
  shown : page.shown = renderAll sent
  ready : Ready (page.templates.map Prod.fst) sent templates
  buf : b.syncBuf = renderAll buffered ++ templates.flatMap Template.tokens
  pending : b.pending = none
  spells : Spells b.chunks [] queued
  perm : open'.Perm (rest.map chunkOf ++ b.pendingOoo.map chunkOf ++ queued)
  fits : List.Forall₂ Fits open' (slots (settled sent templates ++ buffered))
  whole : documents (settled sent templates ++ buffered) = document
  nodup : (idsOf (settled sent templates ++ buffered)).Nodup
  known : ∀ id ∈ page.templates.map Prod.fst ++ templates.map Template.id,
    id ∉ idsOf (settled sent templates ++ buffered)
  within : ∀ t ∈ templates, ∀ piece ∈ t.content, piece.id?.isSome →
    ∃ chunk ∈ queued, chunkId chunk = piece.id?

variable {document : List Char} {page : Page} {future : OooFuture Token}
  {rest : List (OooFuture Token)} {b : StreamBuilder Token} {sent buffered : List Piece}
  {templates : List Template} {open' queued : List (StreamChunk Token)}

/-- A chunk that is not ready is put back. -/
theorem Loop.putBack (loop : Loop document page (future :: rest) b sent buffered templates open' queued)
    (delay : ℕ) : ∃ open'',
      Loop document page rest
        { b with pendingOoo := b.pendingOoo ++ [{ future with delay := delay }] } sent buffered
        templates open'' queued := by
  have first : open'.Perm (chunkOf future :: (rest.map chunkOf ++ b.pendingOoo.map chunkOf ++ queued)) :=
    loop.perm
  obtain ⟨left, right, before, piece, after, perm, split, fit, fitsLeft, fitsRight⟩ :=
    exists_slot first loop.fits
  have is : piece.id?.isSome := by
    rw [← fit.id]
    rfl
  refine ⟨left ++ chunkOf { future with delay := delay } :: right, loop.parsed, loop.shown, loop.ready,
    loop.buf, loop.pending, loop.spells, ?_, ?_, loop.whole, loop.nodup, loop.known, loop.within⟩
  · apply List.perm_middle.trans
    apply (perm.cons _).trans
    simp only [List.map_append, List.map_cons, List.map_nil, List.append_assoc, List.cons_append,
      List.nil_append]
    rw [← List.append_assoc, ← List.append_assoc (rest.map chunkOf)]
    exact List.perm_middle.symm
  · rw [split, slots_append]
    apply List.rel_append fitsLeft
    have keep : slots (piece :: after) = piece :: slots after := List.filter_cons_of_pos is
    rw [keep]
    exact .cons (fit.delay delay) fitsRight

/-- No template in the buffer has the marker of a chunk that is not queued. -/
theorem Loop.absent (loop : Loop document page (future :: rest) b sent buffered templates open' queued) :
    Token.opening future.id ∉ templates.flatMap Template.tokens := by
  intro within
  obtain ⟨t, member, within⟩ := List.mem_flatMap.mp within
  have content : Token.opening future.id ∈ renderAll t.content := by
    simpa [Template.tokens] using within
  have without : ¬ Without future.id t.content := fun without => opening_not_mem without content
  unfold Without at without
  push Not at without
  obtain ⟨piece, inside, has⟩ := without
  obtain ⟨chunk, waits, same⟩ := loop.within t member piece inside (by rw [has]; rfl)
  have distinct := nodup_chunkIds loop.fits loop.nodup
  rw [(loop.perm.map chunkId).nodup_iff, List.map_cons, List.cons_append, List.cons_append,
    List.map_cons, List.nodup_cons] at distinct
  apply distinct.1
  rw [List.map_append]
  apply List.mem_append_right
  exact List.mem_map.mpr ⟨chunk, waits, same.trans has⟩

/-- The open chunks after one of them has been settled. -/
theorem settled_fits {left right others : List (StreamChunk Token)} {before after : List Piece}
    {piece : Piece} (fitsLeft : List.Forall₂ Fits left (slots before))
    (fitsRight : List.Forall₂ Fits right (slots after))
    (fitsOthers : List.Forall₂ Fits others (slots piece.outcome)) :
    List.Forall₂ Fits (left ++ others ++ right) (slots (before ++ piece.outcome ++ after)) := by
  rw [slots_append, slots_append]
  exact List.rel_append (List.rel_append fitsLeft fitsOthers) fitsRight

/-- The slot is in the buffer. -/
theorem Loop.inBuffer
    (loop : Loop document page (future :: rest) b sent buffered templates open' queued)
    {left right others : List (StreamChunk Token)} {before after : List Piece} {fallback : List Char}
    {content : List Piece} (buffer : buffered = before ++ .slot future.id fallback (some content) :: after)
    (perm : (left ++ right).Perm (rest.map chunkOf ++ b.pendingOoo.map chunkOf ++ queued))
    (fitsLeft : List.Forall₂ Fits left (slots (settled sent templates ++ before)))
    (fitsRight : List.Forall₂ Fits right (slots after))
    (fitsOthers : List.Forall₂ Fits others (slots content))
    (pushed : ∀ buf, pushParts buf future.chunks = (buf ++ renderAll content, others)) :
    Loop document page rest (resolveOoo Markup.tokens b future) sent (before ++ content ++ after)
      templates (left ++ others ++ right) (others.reverse ++ queued) := by
  have whole := loop.whole
  have nodup := loop.nodup
  have known := loop.known
  rw [buffer, ← List.append_assoc] at whole nodup known
  obtain ⟨same, nodup', -, fewer, first, -⟩ := settle_ok nodup
  have without : Without future.id before := fun piece member =>
    first piece (List.mem_append_right _ member)
  have resolved : resolveOoo Markup.tokens b future =
      { b with
        syncBuf := renderAll before ++ renderAll content ++
          (renderAll after ++ templates.flatMap Template.tokens)
        chunks := others.reverse ++ b.chunks } := by
    rw [resolveOoo, loop.buf, buffer, split_slot _ without]
    simp only [pushed]
  have pieces : settled sent templates ++ (before ++ content ++ after) =
      settled sent templates ++ before ++ (Piece.slot future.id fallback (some content)).outcome ++
        after := by
    simp [outcome]
  rw [resolved]
  refine ⟨loop.parsed, loop.shown, loop.ready, ?_, loop.pending, ?_, ?_, ?_, ?_, ?_, ?_, ?_⟩
  · simp
  · have reversed : Spells others.reverse [] others.reverse := by
      have fits := spells_of_fits (List.rel_reverse fitsOthers)
      exact fits
    exact reversed.append loop.spells
  · have moved : (left ++ others ++ right).Perm (others.reverse ++ (left ++ right)) := by
      rw [List.append_assoc]
      apply (List.perm_append_comm_assoc left others right).trans
      exact (List.reverse_perm others).symm.append_right _
    apply moved.trans
    apply (perm.append_left _).trans
    change (others.reverse ++ (rest.map chunkOf ++ b.pendingOoo.map chunkOf ++ queued)).Perm
      (rest.map chunkOf ++ b.pendingOoo.map chunkOf ++ (others.reverse ++ queued))
    exact List.perm_append_comm_assoc _ _ _
  · rw [pieces]
    exact settled_fits fitsLeft fitsRight fitsOthers
  · rw [pieces, same]
    exact whole
  · rw [pieces]
    exact nodup'
  · intro id member inside
    rw [pieces] at inside
    exact known id member (fewer id inside)
  · intro t member piece inside is
    obtain ⟨chunk, waits, id⟩ := loop.within t member piece inside is
    exact ⟨chunk, List.mem_append_right _ waits, id⟩

/-- The slot has been sent: a template and a script are written. -/
theorem Loop.template
    (loop : Loop document page (future :: rest) b sent buffered templates open' queued)
    {left right others : List (StreamChunk Token)} {before after inner : List Piece}
    {fallback : List Char} {content : Option (List Piece)}
    (there : settled sent templates = before ++ .slot future.id fallback content :: after)
    (replace : content.isSome = future.replace) (same : ∀ pieces, content = some pieces → pieces = inner)
    (perm : (left ++ right).Perm (rest.map chunkOf ++ b.pendingOoo.map chunkOf ++ queued))
    (fitsLeft : List.Forall₂ Fits left (slots before))
    (fitsRight : List.Forall₂ Fits right (slots (after ++ buffered)))
    (fitsOthers : List.Forall₂ Fits others
      (slots (Piece.slot future.id fallback content).outcome))
    (fitsInner : List.Forall₂ Fits others (slots inner))
    (pushed : ∀ buf, pushParts buf future.chunks = (buf ++ renderAll inner, others)) :
    Loop document page rest (resolveOoo Markup.tokens b future) sent buffered
      (templates ++ [⟨future.id, future.replace, future.nonce, inner,
        (Piece.slot future.id fallback content).outcome⟩])
      (left ++ others ++ right) (others ++ queued) := by
  have whole := loop.whole
  have nodup := loop.nodup
  have known := loop.known
  rw [there, List.append_assoc, List.cons_append] at whole nodup known
  obtain ⟨kept, nodup', gone, fewer, first, last⟩ := settle_ok nodup
  have behind : Without future.id after := fun piece member =>
    last piece (List.mem_append_left _ member)
  have without : Without future.id buffered := fun piece member =>
    last piece (List.mem_append_right _ member)
  have resolved : resolveOoo Markup.tokens b future =
      { b with
        syncBuf := b.syncBuf ++ [.templateStart future.id] ++ renderAll inner ++
          [.templateEnd future.replace future.id future.nonce]
        chunks := others ++ b.chunks } := by
    have nowhere : splitAroundPlaceholder Markup.tokens b.syncBuf future.id = none := by
      rw [loop.buf]
      exact split_without without loop.absent
    rw [resolveOoo, nowhere]
    simp only [pushed]
    rfl
  have pieces : settled sent (templates ++ [⟨future.id, future.replace, future.nonce, inner,
        (Piece.slot future.id fallback content).outcome⟩]) ++ buffered =
      before ++ (Piece.slot future.id fallback content).outcome ++ (after ++ buffered) := by
    have last : settled sent (templates ++ [⟨future.id, future.replace, future.nonce, inner,
        (Piece.slot future.id fallback content).outcome⟩]) =
        settle future.id (Piece.slot future.id fallback content).outcome (settled sent templates) := by
      simp [settled]
    rw [last, there, settle_slot first behind, List.append_assoc]
  rw [resolved]
  refine ⟨loop.parsed, loop.shown, ?_, ?_, loop.pending, ?_, ?_, ?_, ?_, ?_, ?_, ?_⟩
  · apply loop.ready.concat
    refine ⟨?_, ⟨before, fallback, content, after, there, first, behind, replace, same, rfl⟩, trivial⟩
    intro member
    apply known future.id member
    rw [idsOf_append, idsOf, idsOf_outcome]
    simp
  · rw [loop.buf]
    simp [Template.tokens]
  · exact (spells_of_fits fitsOthers).append loop.spells
  · have moved : (left ++ others ++ right).Perm (others ++ (left ++ right)) := by
      rw [List.append_assoc]
      exact List.perm_append_comm_assoc left others right
    apply moved.trans
    apply (perm.append_left _).trans
    change (others ++ (rest.map chunkOf ++ b.pendingOoo.map chunkOf ++ queued)).Perm
      (rest.map chunkOf ++ b.pendingOoo.map chunkOf ++ (others ++ queued))
    exact List.perm_append_comm_assoc _ _ _
  · rw [pieces]
    exact settled_fits fitsLeft fitsRight fitsOthers
  · rw [pieces, kept]
    exact whole
  · rw [pieces]
    exact nodup'
  · intro id member inside
    rw [pieces] at inside
    rw [List.map_append, ← List.append_assoc] at member
    rcases List.mem_append.mp member with old | new
    · exact known id old (fewer id inside)
    · have is : id = future.id := by simpa using new
      rw [is] at inside
      exact gone inside
  · intro t member piece inside is
    rcases List.mem_append.mp member with old | new
    · obtain ⟨chunk, waits, id⟩ := loop.within t old piece inside is
      exact ⟨chunk, List.mem_append_right _ waits, id⟩
    · rw [List.mem_singleton.mp new] at inside
      have slot : piece ∈ slots inner := List.mem_filter.mpr ⟨inside, is⟩
      have ids := ids_of_fits fitsInner
      have member' : piece.id? ∈ others.map chunkId := by
        rw [ids]
        exact List.mem_map_of_mem slot
      obtain ⟨chunk, waits, id⟩ := List.mem_map.mp member'
      exact ⟨chunk, List.mem_append_left _ waits, id⟩

/-- The chunk has one text and, without a view, its fallback is not in the buffer. -/
def Clear (b : StreamBuilder Token) (future : OooFuture Token) : Prop :=
  OneText future.chunks ∧
    (future.replace = false → splitAroundPlaceholder Markup.tokens b.syncBuf future.id = none)

/-- A chunk that is ready settles its slot. -/
theorem Loop.resolve (loop : Loop document page (future :: rest) b sent buffered templates open' queued)
    (clear : Clear b future) : ∃ buffered' templates' open'' queued',
      Loop document page rest (resolveOoo Markup.tokens b future) sent buffered' templates' open''
        queued' := by
  have first : open'.Perm (chunkOf future :: (rest.map chunkOf ++ b.pendingOoo.map chunkOf ++ queued)) :=
    loop.perm
  obtain ⟨left, right, before, piece, after, perm, split, fit, fitsLeft, fitsRight⟩ :=
    exists_slot first loop.fits
  obtain ⟨fallback, content, inner, others, rfl, replace, same, fitsOthers, fitsInner, pushed⟩ :=
    fit.parts
  rcases List.append_eq_append_iff.mp split with ⟨more, front, back⟩ | ⟨more, front, back⟩
  · -- behind what has been sent: the slot is in the buffer
    cases content with
    | none =>
      have nodup := loop.nodup
      rw [back, ← List.append_assoc] at nodup
      obtain ⟨-, -, -, -, without, -⟩ := settle_ok nodup
      have here := clear.2 replace.symm
      rw [loop.buf, back, split_slot _ fun piece member =>
        without piece (List.mem_append_right _ member)] at here
      cases here
    | some content =>
      obtain rfl := same content rfl
      rw [front] at fitsLeft
      exact ⟨_, _, _, _, loop.inBuffer back perm fitsLeft fitsRight fitsInner (pushed clear.1)⟩
  · cases more with
    | nil =>
      -- the buffer begins with the slot
      rw [List.nil_append] at back
      rw [List.append_nil] at front
      cases content with
      | none =>
        have here := clear.2 replace.symm
        have start := @split_slot [] after future.id fallback none
          (templates.flatMap Template.tokens) nofun
        rw [loop.buf, ← back] at here
        rw [List.nil_append] at start
        rw [here] at start
        cases start
      | some content =>
        obtain rfl := same content rfl
        rw [← front, ← List.append_nil (settled sent templates)] at fitsLeft
        have here : buffered = [] ++ .slot future.id fallback (some content) :: after := back.symm
        exact ⟨_, _, _, _, loop.inBuffer here perm fitsLeft fitsRight fitsInner
          (pushed clear.1)⟩
    | cons slot more =>
      rw [List.cons_append, List.cons.injEq] at back
      obtain ⟨rfl, rfl⟩ := back
      exact ⟨_, _, _, _, loop.template front replace same perm fitsLeft fitsRight fitsOthers fitsInner
        (pushed clear.1)⟩

/-- All chunks that were set aside are polled. -/
theorem Loop.all {futures : List (OooFuture Token)}
    (loop : Loop document page futures b sent buffered templates open' queued)
    (clear : ∀ front future back, futures = front ++ future :: back → future.delay = 0 →
      Clear (front.foldl (pollOoo Markup.tokens) b) future) :
    ∃ buffered' templates' open'' queued',
      Loop document page [] (futures.foldl (pollOoo Markup.tokens) b) sent buffered' templates' open''
        queued' := by
  induction futures generalizing b buffered templates open' queued with
  | nil => exact ⟨_, _, _, _, loop⟩
  | cons future rest ih =>
    have later : ∀ front other back, rest = front ++ other :: back → other.delay = 0 →
        Clear (front.foldl (pollOoo Markup.tokens) (pollOoo Markup.tokens b future)) other := by
      intro front other back split ready
      exact clear (future :: front) other back (by rw [split]; rfl) ready
    rw [List.foldl_cons]
    cases delay : future.delay with
    | zero =>
      have polled : pollOoo Markup.tokens b future = resolveOoo Markup.tokens b future := by
        rw [pollOoo, delay]
      obtain ⟨_, _, _, _, next⟩ := loop.resolve (clear [] future rest rfl delay)
      rw [polled] at later ⊢
      exact ih next later
    | succ delay' =>
      have polled : pollOoo Markup.tokens b future =
          { b with pendingOoo := b.pendingOoo ++ [{ future with delay := delay' }] } := by
        rw [pollOoo, delay]
      obtain ⟨_, next⟩ := loop.putBack delay'
      rw [polled] at later ⊢
      exact ih next later

end Halyard.Ssr.OutOfOrder
