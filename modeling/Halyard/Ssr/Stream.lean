import Mathlib

/-!
# The HTML stream

`StreamBuilder` of `halyard_tachys/src/ssr`, with `poll_next`.  A text is a list over an alphabet
`α`: characters, or whatever a text is looked at as.  A future is the value it resolves to, with the
number of polls that find it pending before, so the delays in a tree of chunks are one schedule of
its futures.
-/

namespace Halyard.Ssr

variable {α : Type}

/-- `StreamChunk`; an out-of-order chunk resolves to an `OooChunk`. -/
inductive StreamChunk (α : Type) where
  | sync (text : List α)
  | async (delay : ℕ) (chunks : List (StreamChunk α))
  | outOfOrder (delay : ℕ) (id : String) (chunks : List (StreamChunk α)) (replace : Bool)
      (nonce : Option String)

/-- The future of an `OooChunk`. -/
structure OooFuture (α : Type) where
  delay : ℕ
  id : String
  chunks : List (StreamChunk α)
  replace : Bool
  nonce : Option String

structure StreamBuilder (α : Type) where
  syncBuf : List α
  chunks : List (StreamChunk α)
  pending : Option (ℕ × List (StreamChunk α))
  pendingOoo : List (OooFuture α)

/-- What an out-of-order chunk puts into the text. -/
structure Markup (α : Type) where
  /-- `<!--s-{id}o-->`. -/
  opening : String → List α
  /-- `<!--s-{id}c-->`. -/
  closing : String → List α
  /-- `OooChunk::push_start`. -/
  pushStart : String → List α
  /-- `OooChunk::push_end_with_nonce`. -/
  pushEnd : (replace : Bool) → String → (nonce : Option String) → List α

/-- The script of a replacement, up to what it does with the range it found. -/
def scriptStart (id : String) : String :=
  "(function() \x7b let id = \"" ++ id ++
    "\";let open = undefined;let close = undefined;let walker = " ++
    "document.createTreeWalker(document.body, NodeFilter.SHOW_COMMENT);" ++
    "while(walker.nextNode()) \x7bif(walker.currentNode.textContent == `s-$\x7bid\x7do`)\x7b " ++
    "open=walker.currentNode; \x7d else if(walker.currentNode.textContent == `s-$\x7bid\x7dc`) \x7b " ++
    "close = walker.currentNode;\x7d\x7dlet range = new Range(); " ++
    "range.setStartBefore(open); range.setEndBefore(close);"

/-- The markup that the source writes. -/
def Markup.html : Markup Char where
  opening id := ("<!--s-" ++ id ++ "o-->").toList
  closing id := ("<!--s-" ++ id ++ "c-->").toList
  pushStart id := ("<template id=\"" ++ id ++ "f\">").toList
  pushEnd replace id nonce :=
    ("</template>" ++
      (match nonce with
        | some nonce => "<script nonce=\"" ++ nonce ++ "\">"
        | none => "<script>") ++
      scriptStart id ++
      (if replace then
        "range.deleteContents(); let tpl = document.getElementById(`$\x7bid\x7df`); " ++
        "close.parentNode.insertBefore(tpl.content.cloneNode(true), close);close.remove();"
      else "close.remove();open.remove();") ++
      "\x7d)()</script>").toList

/-- `Poll<Option<String>>`. -/
inductive Poll (α : Type) where
  | pending
  | ready (text : List α)
  | done

namespace StreamBuilder

/-! ## Building -/

/-- `StreamBuilder::new`. -/
def new : StreamBuilder α :=
  { syncBuf := [], chunks := [], pending := none, pendingOoo := [] }

def pushSync (b : StreamBuilder α) (text : List α) : StreamBuilder α :=
  { b with syncBuf := b.syncBuf ++ text }

/-- The synchronous buffer as a chunk, unless it is empty. -/
def flushed (buf : List α) : List (StreamChunk α) :=
  if buf.isEmpty then [] else [.sync buf]

def pushAsync (b : StreamBuilder α) (delay : ℕ) (chunks : List (StreamChunk α)) :
    StreamBuilder α :=
  { b with syncBuf := [], chunks := b.chunks ++ flushed b.syncBuf ++ [.async delay chunks] }

def append (b other : StreamBuilder α) : StreamBuilder α :=
  { b with
    syncBuf := other.syncBuf
    chunks := b.chunks ++ flushed b.syncBuf ++ other.chunks }

/-- Adds to the last chunk if that is synchronous, else as a chunk of its own. -/
def pushLast (text : List α) : List (StreamChunk α) → List (StreamChunk α)
  | [] => [.sync text]
  | [.sync last] => [.sync (last ++ text)]
  | chunk :: rest => chunk :: pushLast text rest

def finish (b : StreamBuilder α) : StreamBuilder α :=
  if b.syncBuf.isEmpty then b
  else { b with syncBuf := [], chunks := pushLast b.syncBuf b.chunks }

def takeChunks (b : StreamBuilder α) : List (StreamChunk α) :=
  b.chunks ++ flushed b.syncBuf

/-! ## Polling -/

/-- `split_once`: around the first place where `pattern` is. -/
def splitOnce [DecidableEq α] (pattern : List α) : List α → Option (List α × List α)
  | [] => if pattern.isEmpty then some ([], []) else none
  | a :: rest =>
      if pattern.isPrefixOf (a :: rest) then some ([], (a :: rest).drop pattern.length)
      else (splitOnce pattern rest).map fun (before, after) => (a :: before, after)

/-- `split_around_placeholder`. -/
def splitAroundPlaceholder [DecidableEq α] (markup : Markup α) (buf : List α) (id : String) :
    Option (List α × List α) :=
  (splitOnce (markup.opening id) buf).bind fun (before, fromOpening) =>
    (splitOnce (markup.closing id) fromOpening).map fun (_fallback, after) => (before, after)

/-- The loop over an out-of-order chunk's parts, last part first: the texts are pushed to the buffer,
the other parts are held (and end up in order). -/
def pushParts (buf : List α) (parts : List (StreamChunk α)) : List α × List (StreamChunk α) :=
  parts.reverse.foldl
    (fun (buf, held) part =>
      match part with
      | .sync ready => (buf ++ ready, held)
      | part => (buf, part :: held))
    (buf, [])

/-- An out-of-order chunk is ready: it takes the place of its fallback in the buffer, or a template
and a script are sent. -/
def resolveOoo [DecidableEq α] (markup : Markup α) (b : StreamBuilder α) (chunk : OooFuture α) :
    StreamBuilder α :=
  match splitAroundPlaceholder markup b.syncBuf chunk.id with
  | some (before, after) =>
      let (buf, held) := pushParts before chunk.chunks
      -- the held chunks are pushed to the front one by one
      { b with syncBuf := buf ++ after, chunks := held.reverse ++ b.chunks }
  | none =>
      let (buf, held) := pushParts (b.syncBuf ++ markup.pushStart chunk.id) chunk.chunks
      { b with
        syncBuf := buf ++ markup.pushEnd chunk.replace chunk.id chunk.nonce
        chunks := held ++ b.chunks }

/-- Polls an out-of-order chunk's future. -/
def pollOoo [DecidableEq α] (markup : Markup α) (b : StreamBuilder α) (chunk : OooFuture α) :
    StreamBuilder α :=
  match chunk.delay with
  | 0 => resolveOoo markup b chunk
  | delay + 1 => { b with pendingOoo := b.pendingOoo ++ [{ chunk with delay := delay }] }

/-- The texts at the front of the queue go to the buffer; then an out-of-order chunk, if one comes
next, is set aside. -/
def gather (b : StreamBuilder α) : List (StreamChunk α) → StreamBuilder α
  | .sync next :: rest => gather { b with syncBuf := b.syncBuf ++ next } rest
  | .outOfOrder delay id chunks replace nonce :: rest =>
      { b with chunks := rest, pendingOoo := b.pendingOoo ++ [⟨delay, id, chunks, replace, nonce⟩] }
  | rest => { b with chunks := rest }

/-! A poll ends: every turn of its loop takes a chunk apart. -/

mutual

def size : StreamChunk α → ℕ
  | .sync _ => 1
  | .async _ chunks => 2 + sizes chunks
  | .outOfOrder _ _ chunks _ _ => 2 + sizes chunks

def sizes : List (StreamChunk α) → ℕ
  | [] => 0
  | chunk :: rest => size chunk + sizes rest

end

/-- The size of the future that is polled first. -/
def pendingSize : Option (ℕ × List (StreamChunk α)) → ℕ
  | none => 0
  | some (_, chunks) => 1 + sizes chunks

theorem sizes_append (left right : List (StreamChunk α)) :
    sizes (left ++ right) = sizes left + sizes right := by
  induction left with
  | nil => simp [sizes]
  | cons chunk rest ih =>
    simp only [List.cons_append, sizes, ih]
    omega

theorem sizes_gather (b : StreamBuilder α) (chunks : List (StreamChunk α)) :
    sizes (b.gather chunks).chunks ≤ sizes chunks := by
  induction chunks generalizing b with
  | nil => simp [gather, sizes]
  | cons chunk rest ih =>
    cases chunk with
    | sync next =>
      simp only [gather, sizes]
      have := ih { b with syncBuf := b.syncBuf ++ next }
      omega
    | async delay chunks => simp [gather, sizes]
    | outOfOrder delay id chunks replace nonce => simp [gather, sizes]

theorem pending_gather (b : StreamBuilder α) (chunks : List (StreamChunk α)) :
    (b.gather chunks).pending = b.pending := by
  induction chunks generalizing b with
  | nil => rfl
  | cons chunk rest ih =>
    cases chunk with
    | sync next => exact ih _
    | async delay chunks => rfl
    | outOfOrder delay id chunks replace nonce => rfl

/-- Yields the buffer. -/
def flush (b : StreamBuilder α) : Poll α × StreamBuilder α :=
  (.ready b.syncBuf, { b with syncBuf := [] })

/-- `Stream::poll_next`. -/
def pollNext [DecidableEq α] (markup : Markup α) (b : StreamBuilder α) :
    Poll α × StreamBuilder α :=
  match hp : b.pending with
  | some (delay + 1, chunks) => (.pending, { b with pending := some (delay, chunks) })
  | some (0, chunks) => pollNext markup { b with pending := none, chunks := chunks ++ b.chunks }
  | none =>
      match hc : b.chunks with
      | [] =>
          if b.pendingOoo.isEmpty then
            if b.syncBuf.isEmpty then (.done, b) else b.flush
          else
            let b := b.pendingOoo.foldl (pollOoo markup) { b with pendingOoo := [] }
            if b.syncBuf.isEmpty then (.pending, b) else b.flush
      | .sync value :: rest =>
          pollNext markup (gather { b with syncBuf := b.syncBuf ++ value } rest)
      | .async delay chunks :: rest =>
          let b := { b with pending := some (delay, chunks), chunks := rest }
          if b.syncBuf.isEmpty then pollNext markup b else b.flush
      | .outOfOrder delay id chunks replace nonce :: rest =>
          let held := b.pendingOoo ++ [⟨delay, id, chunks, replace, nonce⟩]
          let b := { b with pendingOoo := held, chunks := rest }
          if b.syncBuf.isEmpty then pollNext markup b else b.flush
termination_by sizes b.chunks + pendingSize b.pending
decreasing_by
  · simp only [sizes_append, pendingSize, hp]
    omega
  · have gathered := sizes_gather { b with syncBuf := b.syncBuf ++ value } rest
    have whole : sizes b.chunks = 1 + sizes rest := by simp only [hc, sizes, size]
    rw [pending_gather]
    dsimp only
    omega
  · simp only [hc, hp, sizes, size, pendingSize]
    omega
  · simp only [hc, hp, sizes, size, pendingSize]
    omega

/-! ### The turns of the loop -/

section Turns

variable [DecidableEq α] (markup : Markup α) {b : StreamBuilder α} {delay : ℕ}
  {chunks rest : List (StreamChunk α)}

theorem pollNext_waits (held : b.pending = some (delay + 1, chunks)) :
    b.pollNext markup = (.pending, { b with pending := some (delay, chunks) }) := by
  rw [pollNext]
  split <;> simp_all

theorem pollNext_resolved (held : b.pending = some (0, chunks)) :
    b.pollNext markup =
      pollNext markup { b with pending := none, chunks := chunks ++ b.chunks } := by
  rw [pollNext]
  split <;> simp_all

theorem pollNext_end (free : b.pending = none) (last : b.chunks = [])
    (none : b.pendingOoo.isEmpty) :
    b.pollNext markup = if b.syncBuf.isEmpty then (.done, b) else b.flush := by
  rw [pollNext]
  split <;> simp_all
  split <;> simp_all

theorem pollNext_sync {value : List α} (free : b.pending = none)
    (first : b.chunks = .sync value :: rest) :
    b.pollNext markup =
      pollNext markup (gather { b with syncBuf := b.syncBuf ++ value } rest) := by
  rw [pollNext]
  split <;> simp_all
  split <;> simp_all

theorem pollNext_async (free : b.pending = none) (first : b.chunks = .async delay chunks :: rest) :
    b.pollNext markup =
      if b.syncBuf.isEmpty then
        pollNext markup { b with pending := some (delay, chunks), chunks := rest }
      else flush { b with pending := some (delay, chunks), chunks := rest } := by
  rw [pollNext]
  split <;> simp_all
  split <;> simp_all

theorem pollNext_outOfOrder {id : String} {replace : Bool} {nonce : Option String}
    (free : b.pending = none) (first : b.chunks = .outOfOrder delay id chunks replace nonce :: rest) :
    b.pollNext markup =
      let held := b.pendingOoo ++ [⟨delay, id, chunks, replace, nonce⟩]
      if b.syncBuf.isEmpty then
        pollNext markup { b with pendingOoo := held, chunks := rest }
      else flush { b with pendingOoo := held, chunks := rest } := by
  rw [pollNext]
  split <;> simp_all
  split <;> simp_all

/-- Nothing is left but chunks that were set aside: each is polled once. -/
theorem pollNext_loop (free : b.pending = none) (last : b.chunks = [])
    (some : ¬ b.pendingOoo.isEmpty) :
    b.pollNext markup =
      let b := b.pendingOoo.foldl (pollOoo markup) { b with pendingOoo := [] }
      if b.syncBuf.isEmpty then (.pending, b) else b.flush := by
  rw [pollNext]
  split <;> simp_all
  split <;> simp_all

end Turns

end StreamBuilder

end Halyard.Ssr
