import Halyard.Ssr.OutOfOrder

/-!
# The page while an out-of-order stream arrives

An out-of-order chunk that is ready takes the place of its slot: in the buffer, or by a template and a
script that the page receives later.

* `Spells.push`: a chunk with one text is pushed in order.
* `receiveAll_templates`: the scripts in the buffer settle their slots.
-/

namespace Halyard.Ssr.OutOfOrder

open StreamBuilder Piece

/-! ## The parts of a chunk that is ready -/

def isSync : StreamChunk Token → Bool
  | .sync _ => true
  | _ => false

def isAsync : StreamChunk Token → Bool
  | .async _ _ => true
  | _ => false

/-- At most one text, and nothing left to await. -/
def OneText (parts : List (StreamChunk Token)) : Prop :=
  (∀ part ∈ parts, isAsync part = false) ∧ (parts.filter isSync).length ≤ 1

/-- One turn of the loop over the parts. -/
def pushPart (part : StreamChunk Token) (pushed : List Token × List (StreamChunk Token)) :
    List Token × List (StreamChunk Token) :=
  match part with
  | .sync ready => (pushed.1 ++ ready, pushed.2)
  | part => (pushed.1, part :: pushed.2)

theorem pushParts_eq (buf : List Token) (parts : List (StreamChunk Token)) :
    pushParts buf parts = parts.foldr pushPart (buf, []) := by
  unfold pushParts
  rw [List.foldl_reverse]
  congr 1
  funext part pushed
  cases part <;> rfl

theorem Spells.push_none {parts others : List (StreamChunk Token)} {pieces : List Piece}
    (spells : Spells parts pieces others) (ready : ∀ part ∈ parts, isAsync part = false)
    (none : ∀ part ∈ parts, isSync part = false) (buf : List Token) :
    parts.foldr pushPart (buf, []) = (buf, others) ∧ renderAll pieces = [] := by
  induction spells with
  | nil empty => exact ⟨rfl, empty⟩
  | sync first _ _ => exact absurd (none _ List.mem_cons_self) (by simp [isSync])
  | async _ _ _ _ => exact absurd (ready _ List.mem_cons_self) (by simp [isAsync])
  | outOfOrder _ ih =>
    obtain ⟨pushed, empty⟩ := ih (fun part member => ready part (List.mem_cons_of_mem _ member))
      fun part member => none part (List.mem_cons_of_mem _ member)
    exact ⟨by rw [List.foldr_cons, pushed]; rfl, empty⟩

/-- A chunk of one text is pushed in order. -/
theorem Spells.push {parts others : List (StreamChunk Token)} {pieces : List Piece}
    (spells : Spells parts pieces others) (one : OneText parts) (buf : List Token) :
    pushParts buf parts = (buf ++ renderAll pieces, others) := by
  rw [pushParts_eq]
  induction spells with
  | nil empty => rw [empty, List.append_nil]; rfl
  | @sync chunks pieces others first more _ =>
    have none : ∀ part ∈ chunks, isSync part = false := by
      have short := one.2
      rw [List.filter_cons_of_pos rfl, List.length_cons] at short
      have empty : chunks.filter isSync = [] := List.length_eq_zero_iff.mp (by omega)
      intro part member
      simpa using List.filter_eq_nil_iff.mp empty part member
    obtain ⟨pushed, empty⟩ := more.push_none
      (fun part member => one.1 part (List.mem_cons_of_mem _ member)) none buf
    rw [List.foldr_cons, pushed, renderAll_append, empty, List.append_nil]
    rfl
  | async _ _ _ _ => exact absurd (one.1 _ List.mem_cons_self) (by simp [isAsync])
  | outOfOrder _ ih =>
    have pushed := ih ⟨fun part member => one.1 part (List.mem_cons_of_mem _ member), by
      simpa [isSync] using one.2⟩
    rw [List.foldr_cons, pushed]
    rfl

/-! ## Finding the placeholder -/

theorem splitOnce_of_not_mem {token : Token} {tokens : List Token} (absent : token ∉ tokens) :
    splitOnce [token] tokens = none := by
  induction tokens with
  | nil => rfl
  | cons t rest ih =>
    rw [List.mem_cons, not_or] at absent
    simp [splitOnce, ih absent.2, absent.1]

theorem splitOnce_append {token : Token} {before after : List Token} (first : token ∉ before) :
    splitOnce [token] (before ++ token :: after) = some (before, after) := by
  induction before with
  | nil => simp [splitOnce]
  | cons t rest ih =>
    rw [List.mem_cons, not_or] at first
    simp [splitOnce, ih first.2, first.1]

theorem split_slot {before after : List Piece} {id : String} {fallback : List Char}
    {content : Option (List Piece)} (more : List Token) (first : Without id before) :
    splitAroundPlaceholder Markup.tokens
        (renderAll (before ++ .slot id fallback content :: after) ++ more) id =
      some (renderAll before, renderAll after ++ more) := by
  have whole : renderAll (before ++ .slot id fallback content :: after) ++ more =
      renderAll before ++ .opening id ::
        (fallback.map .text ++ .closing id :: (renderAll after ++ more)) := by
    simp [render]
  have plain : Token.closing id ∉ fallback.map Token.text := by simp
  rw [splitAroundPlaceholder, whole]
  change ((splitOnce [Token.opening id] _).bind fun split =>
    (splitOnce [Token.closing id] split.2).map fun split' => (split.1, split'.2)) = _
  rw [splitOnce_append (opening_not_mem first), Option.bind_some, splitOnce_append plain]
  rfl

theorem split_without {pieces : List Piece} {id : String} {more : List Token}
    (without : Without id pieces) (absent : Token.opening id ∉ more) :
    splitAroundPlaceholder Markup.tokens (renderAll pieces ++ more) id = none := by
  have nowhere : Token.opening id ∉ renderAll pieces ++ more := by
    rw [List.mem_append, not_or]
    exact ⟨opening_not_mem without, absent⟩
  rw [splitAroundPlaceholder]
  change ((splitOnce [Token.opening id] _).bind _) = _
  rw [splitOnce_of_not_mem nowhere]
  rfl

/-! ## Templates in the buffer -/

/-- A chunk that was written to the buffer as a template and a script. -/
structure Template where
  id : String
  replace : Bool
  nonce : Option String
  content : List Piece
  /-- What comes into the place of the slot. -/
  outcome : List Piece

def Template.tokens (t : Template) : List Token :=
  .templateStart t.id :: (renderAll t.content ++ [.templateEnd t.replace t.id t.nonce])

/-- The pieces of the page when the scripts have run. -/
def settled (pieces : List Piece) (templates : List Template) : List Piece :=
  templates.foldl (fun pieces t => settle t.id t.outcome pieces) pieces

/-- Each script will find its slot, and its own template. -/
def Ready : List String → List Piece → List Template → Prop
  | _, _, [] => True
  | known, pieces, t :: rest =>
      t.id ∉ known ∧
        (∃ before fallback content after, pieces = before ++ .slot t.id fallback content :: after ∧
          Without t.id before ∧ Without t.id after ∧ content.isSome = t.replace ∧
          (∀ pieces, content = some pieces → pieces = t.content) ∧
          t.outcome = (Piece.slot t.id fallback content).outcome) ∧
        Ready (known ++ [t.id]) (settle t.id t.outcome pieces) rest

theorem Ready.concat {known : List String} {pieces : List Piece} {templates : List Template}
    {t : Template} (ready : Ready known pieces templates)
    (last : Ready (known ++ templates.map Template.id) (settled pieces templates) [t]) :
    Ready known pieces (templates ++ [t]) := by
  induction templates generalizing known pieces with
  | nil => simpa [settled] using last
  | cons first rest ih =>
    obtain ⟨fresh, slot, ready⟩ := ready
    refine ⟨fresh, slot, ih ready ?_⟩
    simpa [settled] using last

/-- Pieces behind, without the slots, change nothing. -/
theorem Ready.append {known : List String} {pieces more : List Piece} {templates : List Template}
    (ready : Ready known pieces templates) (without : ∀ t ∈ templates, Without t.id more) :
    Ready known (pieces ++ more) templates ∧
      settled (pieces ++ more) templates = settled pieces templates ++ more := by
  induction templates generalizing known pieces with
  | nil => exact ⟨trivial, rfl⟩
  | cons t rest ih =>
    obtain ⟨fresh, ⟨before, fallback, content, after, rfl, first, last, some, same, outcome⟩, ready⟩ := ready
    have here := without t List.mem_cons_self
    have kept : settle t.id t.outcome (before ++ .slot t.id fallback content :: after ++ more) =
        settle t.id t.outcome (before ++ .slot t.id fallback content :: after) ++ more := by
      rw [settle_append, settle_without here]
    obtain ⟨later, all⟩ := ih ready fun t member => without t (List.mem_cons_of_mem _ member)
    refine ⟨⟨fresh, ⟨before, fallback, content, after ++ more, by simp, first, ?_, some, same, outcome⟩,
      ?_⟩, ?_⟩
    · intro piece member
      rcases List.mem_append.mp member with old | new
      · exact last piece old
      · exact here piece new
    · rw [kept]
      exact later
    · simp only [settled, List.foldl_cons] at all ⊢
      rw [kept, all]

/-! ### The browser receives them -/

theorem receiveAll_append (page : Page) (first second : List Token) :
    page.receiveAll (first ++ second) = (page.receiveAll first).receiveAll second := by
  simp [Page.receiveAll]

/-- No part of a template's markup. -/
def Plain : Token → Prop
  | .templateStart _ => False
  | .templateEnd _ _ _ => False
  | _ => True

theorem plain_renderAll {pieces : List Piece} : ∀ token ∈ renderAll pieces, Plain token := by
  intro token member
  obtain ⟨piece, -, within⟩ := List.mem_flatMap.mp member
  cases piece with
  | text chars =>
    obtain ⟨c, -, rfl⟩ := List.mem_map.mp within
    trivial
  | slot id fallback content =>
    simp only [render, List.mem_cons, List.mem_append, List.mem_map, List.not_mem_nil,
      or_false] at within
    rcases within with rfl | ⟨c, -, rfl⟩ | rfl
    · trivial
    · trivial
    · trivial

/-- Texts and markers are shown. -/
theorem receiveAll_shown {page : Page} (parsed : page.parsing = none) {tokens : List Token}
    (plain : ∀ token ∈ tokens, Plain token) :
    page.receiveAll tokens = { page with shown := page.shown ++ tokens } := by
  induction tokens generalizing page with
  | nil => simp [Page.receiveAll]
  | cons token rest ih =>
    have one : page.receive token = { page with shown := page.shown ++ [token] } := by
      have here := plain token List.mem_cons_self
      unfold Page.receive
      cases token with
      | templateStart id => exact here.elim
      | templateEnd replace id nonce => exact here.elim
      | _ => simp [parsed]
    change (page.receive token).receiveAll rest = _
    have rest := @ih { page with shown := page.shown ++ [token] } parsed
      fun token member => plain token (List.mem_cons_of_mem _ member)
    rw [one, rest]
    simp

/-- Or they are part of the template that is being parsed. -/
theorem receiveAll_parsing {page : Page} {id : String} {content : List Token}
    (parsing : page.parsing = some (id, content)) {tokens : List Token}
    (plain : ∀ token ∈ tokens, Plain token) :
    page.receiveAll tokens = { page with parsing := some (id, content ++ tokens) } := by
  induction tokens generalizing page content with
  | nil => simp [Page.receiveAll, ← parsing]
  | cons token rest ih =>
    have one : page.receive token = { page with parsing := some (id, content ++ [token]) } := by
      have here := plain token List.mem_cons_self
      unfold Page.receive
      cases token with
      | templateStart id => exact here.elim
      | templateEnd replace id nonce => exact here.elim
      | _ => simp [parsing]
    change (page.receive token).receiveAll rest = _
    have rest := @ih { page with parsing := some (id, content ++ [token]) } (content ++ [token]) rfl
      fun token member => plain token (List.mem_cons_of_mem _ member)
    rw [one, rest]
    simp

/-- A template comes, and its script settles its slot. -/
theorem receiveAll_template {page : Page} {pieces : List Piece} {t : Template}
    (shown : page.shown = renderAll pieces)
    (ready : Ready (page.templates.map Prod.fst) pieces [t]) :
    page.receiveAll t.tokens =
      { shown := renderAll (settle t.id t.outcome pieces)
        templates := page.templates ++ [(t.id, renderAll t.content)]
        parsing := none } := by
  obtain ⟨fresh, ⟨before, fallback, content, after, rfl, first, last, some, same, outcome⟩, -⟩ := ready
  have template : ∀ pieces, content = .some pieces →
      (page.templates ++ [(t.id, renderAll t.content)]).lookup t.id = .some (renderAll pieces) := by
    intro pieces is
    have unknown : page.templates.lookup t.id = none := by
      rw [List.lookup_eq_none_iff]
      intro entry member
      rw [bne_iff_ne]
      intro is
      exact fresh (List.mem_map.mpr ⟨entry, member, is.symm⟩)
    rw [List.lookup_append, unknown, same pieces is]
    simp
  have start : page.receive (.templateStart t.id) = { page with parsing := .some (t.id, []) } := rfl
  unfold Template.tokens
  rw [← List.singleton_append, receiveAll_append, receiveAll_append]
  change (Page.receiveAll (page.receive (.templateStart t.id)) _).receive
    (.templateEnd t.replace t.id t.nonce) = _
  have parsing : ({ page with parsing := .some (t.id, []) } : Page).parsing = .some (t.id, []) := rfl
  rw [start, receiveAll_parsing parsing plain_renderAll]
  unfold Page.receive
  simp only [List.nil_append, Option.toList_some]
  rw [shown, ← some, runScript_render last template, settle_slot first last, outcome]

theorem receiveAll_templates {page : Page} {pieces : List Piece} {templates : List Template}
    (parsed : page.parsing = none) (shown : page.shown = renderAll pieces)
    (ready : Ready (page.templates.map Prod.fst) pieces templates) :
    page.receiveAll (templates.flatMap Template.tokens) =
      { shown := renderAll (settled pieces templates)
        templates := page.templates ++ templates.map fun t => (t.id, renderAll t.content)
        parsing := none } := by
  induction templates generalizing page pieces with
  | nil =>
    rw [List.flatMap_nil, List.map_nil, List.append_nil]
    change page = { shown := renderAll pieces, templates := page.templates, parsing := none }
    rw [← shown, ← parsed]
  | cons t rest ih =>
    obtain ⟨fresh, slot, later⟩ := ready
    rw [List.flatMap_cons, receiveAll_append,
      receiveAll_template shown ⟨fresh, slot, trivial⟩]
    have shown' : ({ shown := renderAll (settle t.id t.outcome pieces)
                     templates := page.templates ++ [(t.id, renderAll t.content)]
                     parsing := none } : Page).shown = renderAll (settle t.id t.outcome pieces) := rfl
    rw [ih rfl shown' (by simpa using later)]
    simp [settled]

end Halyard.Ssr.OutOfOrder
