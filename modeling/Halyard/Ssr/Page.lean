import Halyard.Ssr.Stream

/-!
# The page of an out-of-order stream

A text without anything that looks like a chunk's markup is a list of tokens: characters, and what
`StreamBuilder` and `OooChunk` write themselves.  `Page.receive` is what a browser makes of the tokens
as they arrive: it parses templates, and runs a chunk's script when it has come.  A fallback and what
replaces it are whole nodes between two comments of one parent, so that the script's range is the
tokens between the markers.

`Piece` is such a text with its fallbacks, each with what replaces it, and `runScript_render` says that
the script of a chunk puts that in its place.
-/

namespace Halyard.Ssr.OutOfOrder

/-! ## Tokens -/

inductive Token where
  | text (c : Char)
  | opening (id : String)
  | closing (id : String)
  | templateStart (id : String)
  | templateEnd (replace : Bool) (id : String) (nonce : Option String)
  deriving DecidableEq

def Markup.tokens : Markup Token where
  opening id := [.opening id]
  closing id := [.closing id]
  pushStart id := [.templateStart id]
  pushEnd replace id nonce := [.templateEnd replace id nonce]

/-- The characters of a token. -/
def Token.html : Token → List Char
  | .text c => [c]
  | .opening id => Markup.html.opening id
  | .closing id => Markup.html.closing id
  | .templateStart id => Markup.html.pushStart id
  | .templateEnd replace id nonce => Markup.html.pushEnd replace id nonce

/-! ## The browser -/

/-- What is shown, in document order, the templates in it, and the template being parsed. -/
structure Page where
  shown : List Token
  templates : List (String × List Token)
  parsing : Option (String × List Token)

/-- Around the last place of a token: the walker goes on to the end. -/
def splitLast (token : Token) : List Token → Option (List Token × List Token)
  | [] => none
  | t :: rest =>
      match splitLast token rest with
      | some (before, after) => some (t :: before, after)
      | none => if t = token then some ([], rest) else none

/-- The script of a chunk.  Without its markers, or without its template, it throws; a closing marker
never comes before its opening marker. -/
def runScript (templates : List (String × List Token)) (replace : Bool) (id : String)
    (shown : List Token) : List Token :=
  match splitLast (.opening id) shown, splitLast (.closing id) shown with
  | some (before, _), some (inner, after) =>
      if before.length < inner.length then
        if replace then
          match templates.lookup id with
          | some content => before ++ content ++ after
          | none => before ++ .closing id :: after
        else before ++ inner.drop (before.length + 1) ++ after
      else shown
  | _, _ => shown

def Page.empty : Page where
  shown := []
  templates := []
  parsing := none

/-- A token arrives. -/
def Page.receive (page : Page) : Token → Page
  | .templateStart id => { page with parsing := some (id, []) }
  | .templateEnd replace id _ =>
      let templates := page.templates ++ page.parsing.toList
      { shown := runScript templates replace id page.shown, templates, parsing := none }
  | token =>
      match page.parsing with
      | some (id, content) => { page with parsing := some (id, content ++ [token]) }
      | none => { page with shown := page.shown ++ [token] }

def Page.receiveAll (page : Page) (tokens : List Token) : Page :=
  tokens.foldl Page.receive page

/-! ## Pieces -/

/-- A part of a text: characters, or a fallback between its markers, with what replaces it (none if
it is to be kept). -/
inductive Piece where
  | text (chars : List Char)
  | slot (id : String) (fallback : List Char) (content : Option (List Piece))

namespace Piece

def render : Piece → List Token
  | .text chars => chars.map .text
  | .slot id fallback _ => .opening id :: (fallback.map .text ++ [.closing id])

def renderAll (pieces : List Piece) : List Token :=
  pieces.flatMap render

def id? : Piece → Option String
  | .text _ => none
  | .slot id _ _ => some id

/-- What comes into the place of a slot. -/
def outcome : Piece → List Piece
  | .text chars => [.text chars]
  | .slot _ fallback none => [.text fallback]
  | .slot _ _ (some content) => content

mutual

/-- The text with everything in its place. -/
def document : Piece → List Char
  | .text chars => chars
  | .slot _ fallback none => fallback
  | .slot _ _ (some content) => documents content

def documents : List Piece → List Char
  | [] => []
  | piece :: rest => document piece ++ documents rest

end

mutual

/-- The ids of the slot and of those in what replaces it. -/
def ids : Piece → List String
  | .text _ => []
  | .slot id _ none => [id]
  | .slot id _ (some content) => id :: idsOf content

def idsOf : List Piece → List String
  | [] => []
  | piece :: rest => ids piece ++ idsOf rest

end

/-- Puts something in the place of a slot. -/
def settle (id : String) (content : List Piece) (pieces : List Piece) : List Piece :=
  pieces.flatMap fun piece => if piece.id? = some id then content else [piece]

/-- No slot has the id. -/
def Without (id : String) (pieces : List Piece) : Prop :=
  ∀ piece ∈ pieces, piece.id? ≠ some id

/-! ### Facts about pieces -/

@[simp] theorem renderAll_append (left right : List Piece) :
    renderAll (left ++ right) = renderAll left ++ renderAll right := by
  simp [renderAll]

@[simp] theorem renderAll_cons (piece : Piece) (rest : List Piece) :
    renderAll (piece :: rest) = piece.render ++ renderAll rest := by
  simp [renderAll]

@[simp] theorem documents_append (left right : List Piece) :
    documents (left ++ right) = documents left ++ documents right := by
  induction left with
  | nil => rfl
  | cons piece rest ih => simp [documents, ih]

@[simp] theorem idsOf_append (left right : List Piece) :
    idsOf (left ++ right) = idsOf left ++ idsOf right := by
  induction left with
  | nil => rfl
  | cons piece rest ih => simp [idsOf, ih]

theorem documents_outcome (piece : Piece) : documents piece.outcome = piece.document := by
  cases piece with
  | text chars => simp [outcome, documents, document]
  | slot id fallback content =>
    cases content with
    | none => simp [outcome, documents, document]
    | some content => simp [outcome, document]

/-- The ids in what replaces a slot are ids of the slot. -/
theorem idsOf_outcome {id : String} {fallback : List Char} {content : Option (List Piece)} :
    (Piece.slot id fallback content).ids = id :: idsOf (Piece.slot id fallback content).outcome := by
  cases content with
  | none => simp [outcome, ids, idsOf]
  | some content => simp [outcome, ids]

theorem mem_idsOf_of_id? {piece : Piece} {pieces : List Piece} {id : String} (member : piece ∈ pieces)
    (has : piece.id? = some id) : id ∈ idsOf pieces := by
  induction pieces with
  | nil => cases member
  | cons first rest ih =>
    rw [idsOf, List.mem_append]
    rcases List.mem_cons.mp member with rfl | later
    · left
      cases piece with
      | text chars => cases has
      | slot id' fallback content =>
        cases has
        cases content <;> simp [ids]
    · exact .inr (ih later)

theorem without_of_idsOf {id : String} {pieces : List Piece} (fresh : id ∉ idsOf pieces) :
    Without id pieces := by
  intro piece member has
  exact fresh (mem_idsOf_of_id? member has)

theorem settle_without {id : String} {content pieces : List Piece} (without : Without id pieces) :
    settle id content pieces = pieces := by
  induction pieces with
  | nil => rfl
  | cons piece rest ih =>
    have later := ih fun piece member => without piece (List.mem_cons_of_mem _ member)
    unfold settle at later ⊢
    rw [List.flatMap_cons, later, if_neg (without piece List.mem_cons_self)]
    rfl

theorem settle_append (id : String) (content left right : List Piece) :
    settle id content (left ++ right) = settle id content left ++ settle id content right := by
  simp [settle]

theorem settle_slot {id : String} {fallback : List Char} {content : Option (List Piece)}
    {new before after : List Piece} (first : Without id before) (last : Without id after) :
    settle id new (before ++ .slot id fallback content :: after) = before ++ new ++ after := by
  rw [settle_append, ← List.singleton_append, settle_append, settle_without first,
    settle_without last, List.append_assoc]
  simp [settle, id?]

/-- Slots can be settled in any order. -/
theorem settle_comm {id other : String} {content more pieces : List Piece} (apart : id ≠ other)
    (first : Without other content) (second : Without id more) :
    settle other more (settle id content pieces) = settle id content (settle other more pieces) := by
  induction pieces with
  | nil => rfl
  | cons piece rest ih =>
    rw [← List.singleton_append, settle_append, settle_append, settle_append, settle_append, ih]
    congr 1
    by_cases here : piece.id? = some id
    · have settled : settle id content [piece] = content := by simp [settle, here]
      have left : settle other more [piece] = [piece] := by
        simp [settle, here, apart]
      rw [left, settled, settle_without first]
    · have left : settle id content [piece] = [piece] := by simp [settle, here]
      rw [left]
      by_cases there : piece.id? = some other
      · have settled : settle other more [piece] = more := by simp [settle, there]
        rw [settled, settle_without second]
      · have kept : settle other more [piece] = [piece] := by simp [settle, there]
        rw [kept, left]

/-! ### Markers -/

theorem opening_not_mem {id : String} {pieces : List Piece} (without : Without id pieces) :
    Token.opening id ∉ renderAll pieces := by
  intro within
  obtain ⟨piece, member, within⟩ := List.mem_flatMap.mp within
  cases piece with
  | text chars => simp [render] at within
  | slot id' fallback content =>
    have same : id = id' := by simpa [render] using within
    exact without _ member (by rw [same]; rfl)

theorem closing_not_mem {id : String} {pieces : List Piece} (without : Without id pieces) :
    Token.closing id ∉ renderAll pieces := by
  intro within
  obtain ⟨piece, member, within⟩ := List.mem_flatMap.mp within
  cases piece with
  | text chars => simp [render] at within
  | slot id' fallback content =>
    have same : id = id' := by simpa [render] using within
    exact without _ member (by rw [same]; rfl)

end Piece

/-! ## Scripts -/

theorem splitLast_of_not_mem {token : Token} {tokens : List Token} (absent : token ∉ tokens) :
    splitLast token tokens = none := by
  induction tokens with
  | nil => rfl
  | cons t rest ih =>
    rw [List.mem_cons, not_or] at absent
    simp only [splitLast, ih absent.2, if_neg (Ne.symm absent.1)]

theorem splitLast_append {token : Token} {before after : List Token} (last : token ∉ after) :
    splitLast token (before ++ token :: after) = some (before, after) := by
  induction before with
  | nil => simp [splitLast, splitLast_of_not_mem last]
  | cons t rest ih => simp [splitLast, ih]

open Piece

/-- A chunk's script settles its slot. -/
theorem runScript_render {templates : List (String × List Token)} {id : String}
    {fallback : List Char} {content : Option (List Piece)} {before after : List Piece}
    (last : Without id after)
    (template : ∀ pieces, content = some pieces → templates.lookup id = some (renderAll pieces)) :
    runScript templates content.isSome id (renderAll (before ++ .slot id fallback content :: after)) =
      renderAll (before ++ (Piece.slot id fallback content).outcome ++ after) := by
  have open' : splitLast (.opening id) (renderAll (before ++ .slot id fallback content :: after)) =
      some (renderAll before, fallback.map .text ++ .closing id :: renderAll after) := by
    have absent : Token.opening id ∉ fallback.map .text ++ .closing id :: renderAll after := by
      have later := opening_not_mem last
      simp [later]
    rw [← splitLast_append absent]
    simp [render]
  have close : splitLast (.closing id) (renderAll (before ++ .slot id fallback content :: after)) =
      some (renderAll before ++ .opening id :: fallback.map .text, renderAll after) := by
    rw [← splitLast_append (closing_not_mem last)]
    simp [render]
  rw [runScript, open', close]
  simp only
  rw [if_pos (by simp)]
  cases content with
  | none =>
    have middle : (renderAll before ++ Token.opening id :: fallback.map Token.text).drop
        ((renderAll before).length + 1) = fallback.map Token.text := by
      rw [← List.singleton_append, ← List.append_assoc]
      exact List.drop_left' (List.length_append.trans rfl)
    rw [middle]
    simp [outcome, render]
  | some pieces => simp [outcome, template pieces rfl]

end Halyard.Ssr.OutOfOrder
