import Halyard.Ssr.Render

/-!
# Asynchronous parts in an in-order stream

`Suspense` and `Suspend` rendered through an in-order `StreamBuilder`.  A part whose future is ready
is rendered in place and hands on the position that its content left; one that is pending is pushed
as an asynchronous chunk and hands on `NextChild`.

The HTML is kept as its pieces.

* `render_streams`: what is streamed is `delivered`, which depends on the delays only through what
  is pending when it is first rendered.
-/

namespace Halyard.Ssr

open Hydration

variable {ι : Type}

/-- A view of texts, elements and tuples with asynchronous parts.  `delay` is how many polls find
the part's future pending, from when the part is first rendered. -/
inductive Part (ι : Type) where
  | text (name : ι) (content : String)
  | element (name : ι) (type : ElementType) (attributes : AttributesHtml) (children : Part ι)
  | tuple (first : Part ι) (rest : List (Part ι))
  | suspend (delay : ℕ) (content : Part ι)
  /-- `delay` is that of the resources that are read in its children. -/
  | suspense (delay : ℕ) (content : Part ι)

/-- Where a `Suspend` stands. -/
inductive Scope where
  /-- In no `Suspense`. -/
  | outside
  /-- In a `Suspense`, which has resolved it before it is rendered. -/
  | resolved
  /-- In the content of a `Suspend` that a `Suspense` has resolved. -/
  | inside
  deriving DecidableEq, Repr

mutual

/-- How long `children.resolve()` of a `Suspense` is pending. -/
def awaited : Part ι → ℕ
  | .text .. => 0
  | .element _ _ _ children => awaited children
  | .tuple first rest => max (awaited first) (allAwaited rest)
  | .suspend delay _ => delay
  | .suspense .. => 0

def allAwaited : List (Part ι) → ℕ
  | [] => 0
  | part :: rest => max (awaited part) (allAwaited rest)

end

/-- `Either::to_html_async_with_buf`. -/
def inBranch (marked : Bool) (name : String)
    (inner : StreamBuilder (Piece ι) → StreamBuilder (Piece ι) × Position)
    (buf : StreamBuilder (Piece ι)) : StreamBuilder (Piece ι) × Position :=
  let (buf, position) := inner (buf.pushSync (openBranch marked name))
  (buf.pushSync (closeBranch marked name), afterBranch marked position)

/-- Rendering into a builder of its own. -/
def takenChunks (inner : StreamBuilder (Piece ι) → StreamBuilder (Piece ι) × Position) :
    List (StreamChunk (Piece ι)) :=
  (inner .new).1.finish.takeChunks

mutual

/-- `to_html_async_with_buf::<false>`. -/
def render (markBranches : Bool) :
    Part ι → Scope → (escape : Bool) → Position → StreamBuilder (Piece ι) →
      StreamBuilder (Piece ι) × Position
  | .text name content, _, escape, position, buf =>
      let (html, position) := toHtmlWithBuf markBranches (.text name content) escape position
      (buf.pushSync html, position)
  | .element name type attributes children, scope, _, _, buf =>
      if type.selfClosing then
        (buf.pushSync [.voidTag name type.tag attributes.tag], .nextChild)
      else
        let buf := buf.pushSync [.openTag name type.tag attributes.tag]
        let buf :=
          if !attributes.innerHtml.isEmpty then
            buf.pushSync [.text none attributes.innerHtml false]
          else (render markBranches children scope type.escapeChildren .firstChild buf).1
        (buf.pushSync [.closeTag type.tag], .nextChild)
  | .tuple first rest, scope, escape, position, buf =>
      let (buf, position) := render markBranches first scope escape position buf
      renderAll markBranches rest scope escape position buf
  | .suspend delay content, scope, escape, position, buf =>
      match scope, delay with
      -- `Suspense` has awaited it: it is `Some(content)`
      | .resolved, _ =>
          inBranch (markBranches && escape) "0"
            (render markBranches content .inside escape position) buf
      | scope, 0 => render markBranches content scope escape position buf
      -- in a `SuspenseContext` nothing is written
      | .inside, _ + 1 => (buf, position)
      | .outside, delay + 1 =>
          (buf.pushAsync delay
            (takenChunks (render markBranches content .outside escape position)), .nextChild)
  | .suspense delay content, _, escape, position, buf =>
      let inner := inBranch (markBranches && escape) "1"
        (render markBranches content .resolved escape position)
      match max delay (awaited content) with
      | 0 => inner buf
      | delay + 1 => (buf.pushAsync delay (takenChunks inner), .nextChild)

def renderAll (markBranches : Bool) :
    List (Part ι) → Scope → (escape : Bool) → Position → StreamBuilder (Piece ι) →
      StreamBuilder (Piece ι) × Position
  | [], _, _, position, buf => (buf, position)
  | part :: rest, scope, escape, position, buf =>
      let (buf, position) := render markBranches part scope escape position buf
      renderAll markBranches rest scope escape position buf

end

mutual

/-- The same view with every part ready. -/
def Part.ready : Part ι → Part ι
  | .text name content => .text name content
  | .element name type attributes children => .element name type attributes children.ready
  | .tuple first rest => .tuple first.ready (allReady rest)
  | .suspend _ content => .suspend 0 content.ready
  | .suspense _ content => .suspense 0 content.ready

def allReady : List (Part ι) → List (Part ι)
  | [] => []
  | part :: rest => part.ready :: allReady rest

end

/-! ## What is delivered -/

/-- The HTML of a branch around `inner`. -/
def deliveredBranch (marked : Bool) (name : String) (inner : List (Piece ι) × Position) :
    List (Piece ι) × Position :=
  (openBranch marked name ++ inner.1 ++ closeBranch marked name, afterBranch marked inner.2)

mutual

/-- The HTML that is streamed for a part in the end, and the position that it hands on. -/
def delivered (markBranches : Bool) :
    Part ι → Scope → (escape : Bool) → Position → List (Piece ι) × Position
  | .text name content, _, escape, position =>
      toHtmlWithBuf markBranches (.text name content) escape position
  | .element name type attributes children, scope, _, _ =>
      if type.selfClosing then ([.voidTag name type.tag attributes.tag], .nextChild)
      else
        let inner :=
          if !attributes.innerHtml.isEmpty then [.text none attributes.innerHtml false]
          else (delivered markBranches children scope type.escapeChildren .firstChild).1
        (.openTag name type.tag attributes.tag :: inner ++ [.closeTag type.tag], .nextChild)
  | .tuple first rest, scope, escape, position =>
      let (html, position) := delivered markBranches first scope escape position
      let (restHtml, position) := deliveredAll markBranches rest scope escape position
      (html ++ restHtml, position)
  | .suspend delay content, scope, escape, position =>
      match scope, delay with
      | .resolved, _ =>
          deliveredBranch (markBranches && escape) "0"
            (delivered markBranches content .inside escape position)
      | scope, 0 => delivered markBranches content scope escape position
      | .inside, _ + 1 => ([], position)
      | .outside, _ + 1 =>
          ((delivered markBranches content .outside escape position).1, .nextChild)
  | .suspense delay content, _, escape, position =>
      let inner := deliveredBranch (markBranches && escape) "1"
        (delivered markBranches content .resolved escape position)
      if max delay (awaited content) = 0 then inner else (inner.1, .nextChild)

def deliveredAll (markBranches : Bool) :
    List (Part ι) → Scope → (escape : Bool) → Position → List (Piece ι) × Position
  | [], _, _, position => ([], position)
  | part :: rest, scope, escape, position =>
      let (html, position) := delivered markBranches part scope escape position
      let (restHtml, position) := deliveredAll markBranches rest scope escape position
      (html ++ restHtml, position)

end

/-- What a rendering adds to a builder, and the position it leaves. -/
def Delivers (html : List (Piece ι) × Position)
    (inner : StreamBuilder (Piece ι) → StreamBuilder (Piece ι) × Position) : Prop :=
  ∀ buf before, Holds buf before → Holds (inner buf).1 (before ++ html.1) ∧ (inner buf).2 = html.2

theorem Delivers.branch {html : List (Piece ι) × Position}
    {inner : StreamBuilder (Piece ι) → StreamBuilder (Piece ι) × Position}
    (delivers : Delivers html inner) (marked : Bool) (name : String) :
    Delivers (deliveredBranch marked name html) (inBranch marked name inner) := by
  intro buf before holds
  obtain ⟨inside, position⟩ := delivers _ _ (holds.pushSync (openBranch marked name))
  unfold inBranch deliveredBranch
  refine ⟨?_, by simp [position]⟩
  simpa using inside.pushSync (closeBranch marked name)

theorem Delivers.async {html : List (Piece ι) × Position}
    {inner : StreamBuilder (Piece ι) → StreamBuilder (Piece ι) × Position}
    (delivers : Delivers html inner) (delay : ℕ) :
    Delivers (html.1, .nextChild)
      fun buf => (buf.pushAsync delay (takenChunks inner), .nextChild) := by
  intro buf before holds
  obtain ⟨inside, _⟩ := delivers _ _ holds_new
  obtain ⟨text, inOrder⟩ := inside.takeChunks
  refine ⟨?_, rfl⟩
  have pushed := holds.pushAsync delay inOrder
  rwa [text, List.nil_append] at pushed

mutual

theorem render_delivers (markBranches : Bool) (part : Part ι) (scope : Scope) (escape : Bool)
    (position : Position) :
    Delivers (delivered markBranches part scope escape position)
      (render markBranches part scope escape position) := by
  cases part with
  | text name content => exact fun buf before holds => ⟨holds.pushSync _, rfl⟩
  | element name type attributes children =>
    intro buf before holds
    unfold render delivered
    split
    · exact ⟨holds.pushSync _, rfl⟩
    · have opened := holds.pushSync [(.openTag name type.tag attributes.tag : Piece ι)]
      refine ⟨?_, rfl⟩
      have inner : Holds
          (if !attributes.innerHtml.isEmpty then
            (buf.pushSync [.openTag name type.tag attributes.tag]).pushSync
              [.text none attributes.innerHtml false]
          else (render markBranches children scope type.escapeChildren .firstChild
            (buf.pushSync [.openTag name type.tag attributes.tag])).1)
          (before ++ [.openTag name type.tag attributes.tag] ++
            (if !attributes.innerHtml.isEmpty then [.text none attributes.innerHtml false]
            else (delivered markBranches children scope type.escapeChildren .firstChild).1)) := by
        split
        · exact opened.pushSync _
        · exact (render_delivers markBranches children scope type.escapeChildren .firstChild _ _
            opened).1
      simpa using inner.pushSync [.closeTag type.tag]
  | tuple first rest =>
    intro buf before holds
    obtain ⟨one, left⟩ := render_delivers markBranches first scope escape position _ _ holds
    obtain ⟨more, last⟩ := renderAll_delivers markBranches rest scope escape
      (delivered markBranches first scope escape position).2 _ _ one
    unfold render delivered
    exact ⟨by simpa [left] using more, by simp [left, last]⟩
  | suspend delay content =>
    cases scope with
    | resolved => exact (render_delivers markBranches content .inside escape position).branch _ _
    | outside =>
      cases delay with
      | zero => exact render_delivers markBranches content .outside escape position
      | succ delay => exact (render_delivers markBranches content .outside escape position).async _
    | inside =>
      cases delay with
      | zero => exact render_delivers markBranches content .inside escape position
      | succ delay =>
        exact fun buf before holds => ⟨by simpa [render, delivered] using holds, rfl⟩
  | suspense delay content =>
    have inner :=
      (render_delivers markBranches content .resolved escape position).branch
        (markBranches && escape) "1"
    intro buf before holds
    unfold render delivered
    cases pending : max delay (awaited content) with
    | zero => exact inner buf before holds
    | succ more => exact inner.async more buf before holds

theorem renderAll_delivers (markBranches : Bool) (parts : List (Part ι)) (scope : Scope)
    (escape : Bool) (position : Position) :
    Delivers (deliveredAll markBranches parts scope escape position)
      (renderAll markBranches parts scope escape position) := by
  cases parts with
  | nil => exact fun buf before holds => ⟨by simpa [renderAll, deliveredAll] using holds, rfl⟩
  | cons part rest =>
    intro buf before holds
    obtain ⟨one, left⟩ := render_delivers markBranches part scope escape position _ _ holds
    obtain ⟨more, last⟩ := renderAll_delivers markBranches rest scope escape
      (delivered markBranches part scope escape position).2 _ _ one
    unfold renderAll deliveredAll
    exact ⟨by simpa [left] using more, by simp [left, last]⟩

end

theorem render_streams [DecidableEq ι] (markup : Markup (Piece ι)) (markBranches : Bool)
    (part : Part ι) (scope : Scope) (escape : Bool) (position : Position) :
    StreamsText markup (render markBranches part scope escape position .new).1.finish
      (delivered markBranches part scope escape position).1 := by
  obtain ⟨holds, _⟩ := render_delivers markBranches part scope escape position _ _ holds_new
  exact Holds.streams markup (by simpa using holds)

end Halyard.Ssr
