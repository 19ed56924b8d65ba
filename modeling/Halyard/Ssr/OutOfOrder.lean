import Halyard.Ssr.InOrder
import Halyard.Ssr.Page

/-!
# Out-of-order streams

A tree of chunks as the views write it: texts, chunks that are awaited in order, and fallbacks, each
with a chunk that takes its place later.  `buildAll` is what the views do with a `StreamBuilder`;
`Spells` and `Fits` say which pieces of the page its chunks stand for.

* `buildAll_spells`: what has been built stands for the pieces of the tree.
-/

namespace Halyard.Ssr.OutOfOrder

open StreamBuilder Piece

/-! ## Building -/

/-- A part of a view, as it streams.  The delay of a suspended part counts the polls before its view,
and the asynchronous parts in that, are ready. -/
inductive Part where
  | text (chars : List Char)
  | inOrder (delay : ℕ) (parts : List Part)
  | suspend (id : String) (delay : ℕ) (nonce : Option String) (fallback : List Char)
      (content : Option (List Part))

def tokens (chars : List Char) : List Token :=
  chars.map .text

/-- `push_fallback`. -/
def pushFallback (b : StreamBuilder Token) (id : String) (fallback : List Char) :
    StreamBuilder Token :=
  b.pushSync (Markup.tokens.opening id ++ tokens fallback ++ Markup.tokens.closing id)

/-- The loop of `push_async_out_of_order_with_nonce`: asynchronous parts are awaited there. -/
def flattened (chunks : List (StreamChunk Token)) : List (StreamChunk Token) :=
  chunks.flatMap fun chunk =>
    match chunk with
    | .async _ chunks => chunks
    | chunk => [chunk]

/-- `push_async_out_of_order_with_nonce`. -/
def pushAsyncOutOfOrder (b : StreamBuilder Token) (id : String) (delay : ℕ) (nonce : Option String)
    (view : StreamBuilder Token) (replace : Bool) : StreamBuilder Token :=
  { b with
    chunks := b.chunks ++ [.outOfOrder delay id (flattened view.finish.takeChunks) replace nonce] }

mutual

/-- A part writes itself.  No view is rendered as `()` is. -/
def build (b : StreamBuilder Token) : Part → StreamBuilder Token
  | .text chars => b.pushSync (tokens chars)
  | .inOrder delay parts => b.pushAsync delay (buildAll .new parts).finish.takeChunks
  | .suspend id delay nonce fallback none =>
      pushAsyncOutOfOrder (pushFallback b id fallback) id delay nonce
        (StreamBuilder.new.pushSync (tokens ['<', '!', '>'])) false
  | .suspend id delay nonce fallback (some content) =>
      pushAsyncOutOfOrder (pushFallback b id fallback) id delay nonce (buildAll .new content) true

def buildAll (b : StreamBuilder Token) : List Part → StreamBuilder Token
  | [] => b
  | part :: rest => buildAll (build b part) rest

end

mutual

/-- The pieces of a part, those awaited in order in their place. -/
def Part.pieces : Part → List Piece
  | .text chars => [.text chars]
  | .inOrder _ parts => piecesOf parts
  | .suspend id _ _ fallback none => [.slot id fallback none]
  | .suspend id _ _ fallback (some content) => [.slot id fallback (some (piecesOf content))]

def piecesOf : List Part → List Piece
  | [] => []
  | part :: rest => part.pieces ++ piecesOf rest

end

/-! ## What chunks stand for -/

/-- The slots among pieces. -/
def slots (pieces : List Piece) : List Piece :=
  pieces.filter fun piece => piece.id?.isSome

@[simp] theorem slots_append (left right : List Piece) :
    slots (left ++ right) = slots left ++ slots right := by
  simp [slots]

/-- The texts of the chunks, in order, are those of the pieces; the rest are the out-of-order
chunks. -/
inductive Spells : List (StreamChunk Token) → List Piece → List (StreamChunk Token) → Prop
  | nil {pieces : List Piece} : renderAll pieces = [] → Spells [] pieces []
  | sync {chunks : List (StreamChunk Token)} {pieces : List Piece} {others : List (StreamChunk Token)}
      (first : List Piece) :
    Spells chunks pieces others → Spells (.sync (renderAll first) :: chunks) (first ++ pieces) others
  | async {delay : ℕ} {inner chunks : List (StreamChunk Token)} {first pieces : List Piece}
      {within others : List (StreamChunk Token)} :
    Spells inner first within → Spells chunks pieces others →
    Spells (.async delay inner :: chunks) (first ++ pieces) (within ++ others)
  | outOfOrder {delay : ℕ} {id : String} {parts : List (StreamChunk Token)} {replace : Bool}
      {nonce : Option String} {chunks : List (StreamChunk Token)} {pieces : List Piece}
      {others : List (StreamChunk Token)} :
    Spells chunks pieces others →
    Spells (.outOfOrder delay id parts replace nonce :: chunks) pieces
      (.outOfOrder delay id parts replace nonce :: others)

/-- The out-of-order chunk belongs to the slot. -/
inductive Fits : StreamChunk Token → Piece → Prop
  | replaced {delay : ℕ} {id : String} {parts : List (StreamChunk Token)} {nonce : Option String}
      {fallback : List Char} {content : List Piece} {others : List (StreamChunk Token)} :
    Spells parts content others → List.Forall₂ Fits others (slots content) →
    Fits (.outOfOrder delay id parts true nonce) (.slot id fallback (some content))
  | kept {delay : ℕ} {id : String} {chars : List Char} {nonce : Option String}
      {fallback : List Char} :
    Fits (.outOfOrder delay id [.sync (tokens chars)] false nonce) (.slot id fallback none)

/-- Pieces without text can stand in front. -/
theorem Spells.after_empty {chunks : List (StreamChunk Token)} {pieces first : List Piece}
    {others : List (StreamChunk Token)} (spells : Spells chunks pieces others)
    (empty : renderAll first = []) : Spells chunks (first ++ pieces) others := by
  induction spells generalizing first with
  | nil none => exact .nil (by rw [renderAll_append, empty, none]; rfl)
  | sync next more _ =>
    have same : renderAll next = renderAll (first ++ next) := by
      rw [renderAll_append, empty, List.nil_append]
    rw [← List.append_assoc, same]
    exact .sync (first ++ next) more
  | async inner more within _ =>
    rw [← List.append_assoc]
    exact .async (within empty) more
  | outOfOrder _ ih => exact .outOfOrder (ih empty)

theorem Spells.append {left right : List (StreamChunk Token)} {first second : List Piece}
    {others more : List (StreamChunk Token)} (spells : Spells left first others)
    (after : Spells right second more) : Spells (left ++ right) (first ++ second) (others ++ more) := by
  induction spells with
  | nil empty => exact after.after_empty empty
  | sync first _ ih =>
    rw [List.append_assoc]
    exact .sync first ih
  | async inner _ _ ih =>
    rw [List.append_assoc, List.append_assoc]
    exact .async inner ih
  | outOfOrder _ ih => exact .outOfOrder ih

theorem Spells.empty : Spells [] [] [] :=
  .nil rfl

theorem Spells.one (pieces : List Piece) : Spells [.sync (renderAll pieces)] pieces [] := by
  have alone := Spells.sync pieces Spells.empty
  rwa [List.append_nil] at alone

theorem Spells.flushed (pieces : List Piece) : Spells (flushed (renderAll pieces)) pieces [] := by
  unfold StreamBuilder.flushed
  split
  · rename_i empty
    exact .nil (List.isEmpty_iff.mp empty)
  · exact .one pieces

theorem Spells.pushLast {chunks : List (StreamChunk Token)} {pieces : List Piece}
    {others : List (StreamChunk Token)} (spells : Spells chunks pieces others) (last : List Piece) :
    Spells (pushLast (renderAll last) chunks) (pieces ++ last) others := by
  induction spells with
  | nil empty => exact (Spells.one last).after_empty empty
  | @sync chunks pieces others first more ih =>
    rw [List.append_assoc]
    cases chunks with
    | nil =>
      cases more with
      | nil empty =>
        have text : renderAll first ++ renderAll last = renderAll (first ++ pieces ++ last) := by
          rw [renderAll_append, renderAll_append, empty, List.append_nil]
        rw [StreamBuilder.pushLast, text, ← List.append_assoc]
        exact .one _
    | cons chunk rest => exact .sync first ih
  | async inner _ _ ih =>
    rw [List.append_assoc]
    exact .async inner ih
  | outOfOrder _ ih => exact .outOfOrder ih

/-- An awaited part stands for the same when its chunks take its place. -/
theorem Spells.flattened {chunks : List (StreamChunk Token)} {pieces : List Piece}
    {others : List (StreamChunk Token)} (spells : Spells chunks pieces others) :
    Spells (flattened chunks) pieces others := by
  induction spells with
  | nil empty => exact .nil empty
  | sync first _ ih => exact .sync first ih
  | async inner _ _ ih => exact inner.append ih
  | outOfOrder _ ih => exact .outOfOrder ih

/-! ## What is built -/

/-- The builder's chunks and its buffer stand for the pieces, and its out-of-order chunks fit them. -/
def Holds (b : StreamBuilder Token) (pieces : List Piece) : Prop :=
  ∃ front back others, pieces = front ++ back ∧ Spells b.chunks front others ∧
    b.syncBuf = renderAll back ∧ List.Forall₂ Fits others (slots pieces)

theorem Holds.new : Holds .new [] :=
  ⟨[], [], [], rfl, .nil rfl, rfl, .nil⟩

theorem Holds.pushSync {b : StreamBuilder Token} {pieces more : List Piece} (holds : Holds b pieces)
    (text : slots more = []) : Holds (b.pushSync (renderAll more)) (pieces ++ more) := by
  obtain ⟨front, back, others, rfl, spells, buf, fits⟩ := holds
  refine ⟨front, back ++ more, others, by simp, spells, ?_, ?_⟩
  · simp [StreamBuilder.pushSync, buf]
  · rwa [slots_append, text, List.append_nil]

theorem Holds.takeChunks {b : StreamBuilder Token} {pieces : List Piece} (holds : Holds b pieces) :
    ∃ others, Spells b.finish.takeChunks pieces others ∧ List.Forall₂ Fits others (slots pieces) := by
  obtain ⟨front, back, others, rfl, spells, buf, fits⟩ := holds
  refine ⟨others, ?_, fits⟩
  unfold StreamBuilder.finish
  split
  · rename_i empty
    unfold StreamBuilder.takeChunks
    rw [buf]
    simpa using spells.append (Spells.flushed back)
  · unfold StreamBuilder.takeChunks
    rw [buf]
    simpa [StreamBuilder.flushed] using spells.pushLast back

theorem Holds.pushAsync {b : StreamBuilder Token} {pieces first : List Piece} (holds : Holds b pieces)
    (delay : ℕ) {inner : List (StreamChunk Token)} {within : List (StreamChunk Token)}
    (spells' : Spells inner first within) (fits' : List.Forall₂ Fits within (slots first)) :
    Holds (b.pushAsync delay inner) (pieces ++ first) := by
  obtain ⟨front, back, others, rfl, spells, buf, fits⟩ := holds
  refine ⟨front ++ back ++ first, [], others ++ within, by simp, ?_, rfl, ?_⟩
  · have alone : Spells [.async delay inner] (first ++ []) (within ++ []) := .async spells' .empty
    have all := (spells.append (Spells.flushed back)).append alone
    simpa [StreamBuilder.pushAsync, buf] using all
  · rw [slots_append]
    exact List.rel_append fits fits'

theorem Holds.suspend {b : StreamBuilder Token} {pieces : List Piece} (holds : Holds b pieces)
    {id : String} {fallback : List Char} {content : Option (List Piece)} (delay : ℕ)
    (nonce : Option String) {view : StreamBuilder Token} {replace : Bool}
    (fit : Fits (.outOfOrder delay id (flattened view.finish.takeChunks) replace nonce)
      (.slot id fallback content)) :
    Holds (pushAsyncOutOfOrder (pushFallback b id fallback) id delay nonce view replace)
      (pieces ++ [.slot id fallback content]) := by
  obtain ⟨front, back, others, rfl, spells, buf, fits⟩ := holds
  refine ⟨front, back ++ [.slot id fallback content],
    others ++ [.outOfOrder delay id (flattened view.finish.takeChunks) replace nonce], by simp, ?_, ?_, ?_⟩
  · have alone : Spells [.outOfOrder delay id (flattened view.finish.takeChunks) replace nonce] []
        [.outOfOrder delay id (flattened view.finish.takeChunks) replace nonce] := .outOfOrder .empty
    simpa [pushAsyncOutOfOrder, pushFallback, StreamBuilder.pushSync] using spells.append alone
  · simp [pushAsyncOutOfOrder, pushFallback, StreamBuilder.pushSync, buf, Markup.tokens, render,
      renderAll, tokens]
  · rw [slots_append]
    exact List.rel_append fits (.cons fit .nil)

mutual

theorem build_holds (part : Part) {b : StreamBuilder Token} {pieces : List Piece}
    (holds : Holds b pieces) : Holds (build b part) (pieces ++ part.pieces) := by
  cases part with
  | text chars =>
    have text : Holds (b.pushSync (renderAll [.text chars])) (pieces ++ [.text chars]) :=
      holds.pushSync rfl
    simpa [build, Part.pieces, tokens, renderAll, render] using text
  | inOrder delay parts =>
    obtain ⟨others, spells, fits⟩ := (buildAll_holds parts Holds.new).takeChunks
    rw [build, Part.pieces]
    exact holds.pushAsync delay spells fits
  | suspend id delay nonce fallback content =>
    cases content with
    | none =>
      rw [build, Part.pieces]
      exact holds.suspend delay nonce Fits.kept
    | some content =>
      obtain ⟨others, spells, fits⟩ := (buildAll_holds content Holds.new).takeChunks
      rw [build, Part.pieces]
      exact holds.suspend delay nonce (.replaced spells.flattened fits)

theorem buildAll_holds (parts : List Part) {b : StreamBuilder Token} {pieces : List Piece}
    (holds : Holds b pieces) : Holds (buildAll b parts) (pieces ++ piecesOf parts) := by
  cases parts with
  | nil => simpa [buildAll, piecesOf] using holds
  | cons part rest =>
    rw [buildAll, piecesOf, ← List.append_assoc]
    exact buildAll_holds rest (build_holds part holds)

end

end Halyard.Ssr.OutOfOrder
