import Halyard.Hydration.View
import Halyard.Ssr.InOrder

/-!
# Streaming a view

`RenderHtml::to_html_async_with_buf` of each view type: the view's HTML written through a
`StreamBuilder`.

* `stream_html`: a view without asynchronous parts streams, in order or out of order, what
  `to_html_with_buf` gives.
-/

namespace Halyard.Ssr

open Hydration

variable {ι : Type}

/-- The text of pieces of HTML. -/
def htmlText (pieces : List (Piece ι)) : List Char :=
  pieces.flatMap fun piece => piece.html.toList

/-- `buf.push_sync`, of pieces of HTML. -/
def pushHtml (buf : StreamBuilder Char) (pieces : List (Piece ι)) : StreamBuilder Char :=
  buf.pushSync (htmlText pieces)

mutual

/-- `to_html_async_with_buf::<OUT_OF_ORDER>(buf, position, escape, mark_branches)`. -/
def toHtmlAsyncWithBuf (markBranches : Bool) :
    View ι → (outOfOrder escape : Bool) → Position → StreamBuilder Char →
      StreamBuilder Char × Position
  | .element name type attributes children, outOfOrder, _, _, buf =>
      if type.selfClosing then
        (pushHtml buf [.voidTag name type.tag attributes.tag], .nextChild)
      else
        let buf := pushHtml buf [.openTag name type.tag attributes.tag]
        let buf :=
          if !attributes.innerHtml.isEmpty then
            pushHtml buf [(.text none attributes.innerHtml false : Piece ι)]
          else if children.exists_ then
            (toHtmlAsyncWithBuf markBranches children outOfOrder type.escapeChildren .firstChild
              buf).1
          else buf
        (pushHtml buf [(.closeTag type.tag : Piece ι)], .nextChild)
  | .tuple first rest, outOfOrder, escape, position, buf =>
      let (buf, position) := toHtmlAsyncWithBuf markBranches first outOfOrder escape position buf
      allToHtmlAsync markBranches rest outOfOrder escape position buf
  | .array items, outOfOrder, escape, position, buf =>
      allToHtmlAsync markBranches items outOfOrder escape position buf
  | .either variant value, outOfOrder, escape, position, buf =>
      let marked := markBranches && escape
      let buf := pushHtml buf (openBranch (ι := ι) marked variant)
      let (buf, position) := toHtmlAsyncWithBuf markBranches value outOfOrder escape position buf
      (pushHtml buf (closeBranch (ι := ι) marked variant), afterBranch marked position)
  | .vec marker items, outOfOrder, escape, position, buf =>
      let (buf, position) := allToHtmlAsync markBranches items outOfOrder escape position buf
      if escape then (pushHtml buf [.comment (some marker) ""], .nextChild) else (buf, position)
  | .staticVec marker items, outOfOrder, escape, position, buf =>
      let (buf, position) := allToHtmlAsync markBranches items outOfOrder escape position buf
      if escape then (pushHtml buf [.comment (some marker) ""], .nextChild) else (buf, position)
  | .any placeholder typeId value, outOfOrder, escape, position, buf =>
      let marked := markBranches && escape
      let missing := if value.exists_ then [] else [.comment (some placeholder) "<() />"]
      let buf := pushHtml buf (openBranch (ι := ι) marked typeId)
      -- `to_html_async_ooo` and `to_html_async`
      let (buf, position) :=
        if outOfOrder then toHtmlAsyncWithBuf markBranches value true escape position buf
        else toHtmlAsyncWithBuf markBranches value false escape position buf
      let buf := pushHtml buf missing
      (pushHtml buf (closeBranch (ι := ι) marked typeId), afterBranch marked position)
  | .keyed marker items, outOfOrder, escape, position, buf =>
      let marked := markBranches && escape
      let buf := pushHtml buf (openBranch (ι := ι) marked "for")
      let (buf, position) := itemsToHtmlAsync markBranches items outOfOrder escape position buf
      let buf := pushHtml buf (closeBranch (ι := ι) marked "for")
      (pushHtml buf [.comment (some marker) ""], position)
  | .ok value, outOfOrder, escape, position, buf =>
      toHtmlAsyncWithBuf markBranches value outOfOrder escape position buf
  | .errorBoundary children, outOfOrder, escape, position, buf =>
      -- no child is suspended and no error was thrown
      let inner := toHtmlAsyncWithBuf markBranches children outOfOrder escape position .new
      (buf.append inner.1, position)
  | .err placeholder, _, _, position, buf =>
      (pushHtml buf [.comment (some placeholder) ""], position)
  -- the trait's own definition
  | view, _, escape, position, buf =>
      let (html, position) := toHtmlWithBuf markBranches view escape position
      (pushHtml buf html, position)

def allToHtmlAsync (markBranches : Bool) :
    List (View ι) → (outOfOrder escape : Bool) → Position → StreamBuilder Char →
      StreamBuilder Char × Position
  | [], _, _, position, buf => (buf, position)
  | view :: rest, outOfOrder, escape, position, buf =>
      let (buf, position) := toHtmlAsyncWithBuf markBranches view outOfOrder escape position buf
      allToHtmlAsync markBranches rest outOfOrder escape position buf

def itemsToHtmlAsync (markBranches : Bool) :
    List (String × View ι) → (outOfOrder escape : Bool) → Position → StreamBuilder Char →
      StreamBuilder Char × Position
  | [], _, _, position, buf => (buf, position)
  | (key, view) :: rest, outOfOrder, escape, position, buf =>
      let marked := markBranches && escape
      let buf := pushHtml buf (openBranch (ι := ι) marked ("item-" ++ key))
      let (buf, _) := toHtmlAsyncWithBuf markBranches view outOfOrder escape position buf
      let buf := pushHtml buf (closeBranch (ι := ι) marked ("item-" ++ key))
      itemsToHtmlAsync markBranches rest outOfOrder escape .nextChild buf

end

/-! ## The stream is the string -/

@[simp] theorem htmlText_append (left right : List (Piece ι)) :
    htmlText (left ++ right) = htmlText left ++ htmlText right := by
  simp [htmlText]

@[simp] theorem htmlText_nil : htmlText ([] : List (Piece ι)) = [] := rfl

theorem htmlText_cons (piece : Piece ι) (rest : List (Piece ι)) :
    htmlText (piece :: rest) = htmlText [piece] ++ htmlText rest := by
  simp [htmlText]

theorem Holds.push {buf : StreamBuilder Char} {before : List Char} (holds : Holds buf before)
    (pieces : List (Piece ι)) : Holds (pushHtml buf pieces) (before ++ htmlText pieces) :=
  holds.pushSync _

/-- What rendering through a builder adds to it, and the position it leaves. -/
structure Rendered (before : List Char) (html : List (Piece ι) × Position)
    (result : StreamBuilder Char × Position) : Prop where
  holds : Holds result.1 (before ++ htmlText html.1)
  position : result.2 = html.2

mutual

theorem toHtmlAsync_rendered (markBranches : Bool) (view : View ι) (outOfOrder escape : Bool)
    (position : Position) {buf : StreamBuilder Char} {before : List Char}
    (holds : Holds buf before) :
    Rendered before (toHtmlWithBuf markBranches view escape position)
      (toHtmlAsyncWithBuf markBranches view outOfOrder escape position buf) := by
  cases view with
  | text name content => exact ⟨holds.push _, rfl⟩
  | primitive name escapes shown => exact ⟨holds.push _, rfl⟩
  | unit name => exact ⟨holds.push _, rfl⟩
  | element name type attributes children =>
    unfold toHtmlWithBuf toHtmlAsyncWithBuf
    split
    · exact ⟨holds.push _, rfl⟩
    · have opened := holds.push [(.openTag name type.tag attributes.tag : Piece ι)]
      refine ⟨?_, rfl⟩
      simp only [List.cons_append]
      rw [htmlText_cons, htmlText_append, ← List.append_assoc, ← List.append_assoc]
      apply Holds.push
      split
      · exact opened.push _
      · split
        · exact (toHtmlAsync_rendered markBranches children outOfOrder type.escapeChildren
            .firstChild opened).holds
        · simpa using opened
  | tuple first rest =>
    have one := toHtmlAsync_rendered markBranches first outOfOrder escape position holds
    have more := allToHtmlAsync_rendered markBranches rest outOfOrder escape
      (toHtmlWithBuf markBranches first escape position).2 one.holds
    unfold toHtmlWithBuf toHtmlAsyncWithBuf
    exact ⟨by simpa [one.position] using more.holds, by simp [one.position, more.position]⟩
  | array items => exact allToHtmlAsync_rendered markBranches items outOfOrder escape position holds
  | either variant value =>
    have opened := holds.push (openBranch (ι := ι) (markBranches && escape) variant)
    have inner := toHtmlAsync_rendered markBranches value outOfOrder escape position opened
    unfold toHtmlWithBuf toHtmlAsyncWithBuf
    refine ⟨?_, by simp [inner.position]⟩
    simpa using inner.holds.push (closeBranch (ι := ι) (markBranches && escape) variant)
  | vec marker items =>
    have inner := allToHtmlAsync_rendered markBranches items outOfOrder escape position holds
    unfold toHtmlWithBuf toHtmlAsyncWithBuf
    cases escape with
    | true => exact ⟨by simpa using inner.holds.push [.comment (some marker) ""], rfl⟩
    | false => exact inner
  | staticVec marker items =>
    have inner := allToHtmlAsync_rendered markBranches items outOfOrder escape position holds
    unfold toHtmlWithBuf toHtmlAsyncWithBuf
    cases escape with
    | true => exact ⟨by simpa using inner.holds.push [.comment (some marker) ""], rfl⟩
    | false => exact inner
  | any placeholder typeId value =>
    have opened := holds.push (openBranch (ι := ι) (markBranches && escape) typeId)
    have inner := toHtmlAsync_rendered markBranches value outOfOrder escape position opened
    have marked := (inner.holds.push (if value.exists_ then []
      else [.comment (some placeholder) "<() />"])).push
        (closeBranch (ι := ι) (markBranches && escape) typeId)
    unfold toHtmlWithBuf toHtmlAsyncWithBuf
    cases outOfOrder <;> exact ⟨by simpa using marked, by simp [inner.position]⟩
  | keyed marker items =>
    have opened := holds.push (openBranch (ι := ι) (markBranches && escape) "for")
    have inner := itemsToHtmlAsync_rendered markBranches items outOfOrder escape position opened
    have closed := (inner.holds.push (closeBranch (ι := ι) (markBranches && escape) "for")).push
      [.comment (some marker) ""]
    unfold toHtmlWithBuf toHtmlAsyncWithBuf
    exact ⟨by simpa using closed, by simp [inner.position]⟩
  | ok value => exact toHtmlAsync_rendered markBranches value outOfOrder escape position holds
  | err placeholder => exact ⟨holds.push _, rfl⟩
  | errorBoundary children =>
    have inner := toHtmlAsync_rendered markBranches children outOfOrder escape position holds_new
    unfold toHtmlWithBuf toHtmlAsyncWithBuf
    exact ⟨holds.append (by simpa using inner.holds), rfl⟩

theorem allToHtmlAsync_rendered (markBranches : Bool) (views : List (View ι))
    (outOfOrder escape : Bool) (position : Position) {buf : StreamBuilder Char}
    {before : List Char} (holds : Holds buf before) :
    Rendered before (allToHtml markBranches views escape position)
      (allToHtmlAsync markBranches views outOfOrder escape position buf) := by
  cases views with
  | nil => exact ⟨by simpa [allToHtml, allToHtmlAsync] using holds, rfl⟩
  | cons view rest =>
    have one := toHtmlAsync_rendered markBranches view outOfOrder escape position holds
    have more := allToHtmlAsync_rendered markBranches rest outOfOrder escape
      (toHtmlWithBuf markBranches view escape position).2 one.holds
    unfold allToHtml allToHtmlAsync
    exact ⟨by simpa [one.position] using more.holds, by simp [one.position, more.position]⟩

theorem itemsToHtmlAsync_rendered (markBranches : Bool) (items : List (String × View ι))
    (outOfOrder escape : Bool) (position : Position) {buf : StreamBuilder Char}
    {before : List Char} (holds : Holds buf before) :
    Rendered before (itemsToHtml markBranches items escape position)
      (itemsToHtmlAsync markBranches items outOfOrder escape position buf) := by
  match items with
  | [] => exact ⟨by simpa [itemsToHtml, itemsToHtmlAsync] using holds, rfl⟩
  | (key, view) :: rest =>
    have opened := holds.push (openBranch (ι := ι) (markBranches && escape) ("item-" ++ key))
    have one := toHtmlAsync_rendered markBranches view outOfOrder escape position opened
    have closed := one.holds.push (closeBranch (ι := ι) (markBranches && escape) ("item-" ++ key))
    have more := itemsToHtmlAsync_rendered markBranches rest outOfOrder escape .nextChild closed
    unfold itemsToHtml itemsToHtmlAsync
    exact ⟨by simpa using more.holds, more.position⟩

end

/-- From any position, with or without branch markers and escaping, the in-order and the
out-of-order stream of a view give the text of its HTML, and leave the position that it leaves. -/
theorem stream_html (view : View ι) (outOfOrder markBranches escape : Bool)
    (position : Position) :
    let html := toHtmlWithBuf markBranches view escape position
    let result := toHtmlAsyncWithBuf markBranches view outOfOrder escape position .new
    StreamsText Markup.html result.1.finish (htmlText html.1) ∧ result.2 = html.2 := by
  intro html result
  have rendered := toHtmlAsync_rendered markBranches view outOfOrder escape position holds_new
  exact ⟨Holds.streams Markup.html (by simpa using rendered.holds), rendered.position⟩

end Halyard.Ssr
