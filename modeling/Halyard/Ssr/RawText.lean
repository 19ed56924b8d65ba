import Halyard.Hydration.Dom
import Halyard.Ssr.Render

/-!
# Children that are not escaped

The children of a `script` or a `style` are text: what is written between the tags has to be what a
browser-side build puts there, and a comment in it is no comment.  The views write with `escape` off
what they write with it on, less the escaping and the branch markers; `()` and `Vec` leave out their
placeholder.  `Result`, `Keyed` and `AnyView` do not, and a text after a text keeps its separator.

* `rawText_iff`: the children are written as their texts where they hold no `Err`, no keyed list and
  no `AnyView` of a view that does not exist, and no text follows a text.
* `separated_script`: two texts.
-/

namespace Halyard.Ssr

open Hydration

variable {ι : Type}

/-! ## Built children -/

mutual

/-- `Render::build` of each view, mounted. -/
def build : View ι → List (Node ι)
  | .text name content => [.text [name] content]
  | .primitive name _ shown => [.text [name] shown.text]
  | .unit name => [.comment (some name) ""]
  | .element name type attributes children =>
      let inner := if attributes.innerHtml.isEmpty then [] else [.text [] attributes.innerHtml]
      [.element name type.tag attributes.tag
        (inner ++ if type.selfClosing then [] else build children)]
  | .tuple first rest => build first ++ buildAll rest
  | .array items => buildAll items
  | .either _ value => build value
  | .vec marker items => buildAll items ++ [.comment (some marker) ""]
  | .staticVec marker items => buildAll items ++ [.comment (some marker) ""]
  | .any placeholder _ value =>
      build value ++ if value.exists_ then [] else [.comment (some placeholder) ""]
  | .keyed marker items => buildItems items ++ [.comment (some marker) ""]
  | .ok value => build value
  | .err placeholder => [.comment (some placeholder) ""]
  | .errorBoundary children => build children

def buildAll : List (View ι) → List (Node ι)
  | [] => []
  | view :: rest => build view ++ buildAll rest

def buildItems : List (String × View ι) → List (Node ι)
  | [] => []
  | (_, view) :: rest => build view ++ buildItems rest

end

mutual

/-- The `textContent` of a node; that of a comment is no part of its parent's. -/
def nodeText : Node ι → List Char
  | .text _ content => content.toList
  | .comment _ _ => []
  | .element _ _ _ children => textContent children

/-- The `textContent` of an element with these children. -/
def textContent : List (Node ι) → List Char
  | [] => []
  | node :: rest => nodeText node ++ textContent rest

end

/-! ## Children of a raw text element -/

mutual

/-- The view is made of texts, `char`s, numbers, `()`, tuples, `Option` and `Either`, lists,
`Result`, keyed lists and `AnyView`. -/
def onlyTexts : View ι → Bool
  | .element .. => false
  | .errorBoundary _ => false
  | .tuple first rest => onlyTexts first && allOnlyTexts rest
  | .array items => allOnlyTexts items
  | .either _ value => onlyTexts value
  | .vec _ items => allOnlyTexts items
  | .staticVec _ items => allOnlyTexts items
  | .any _ _ value => onlyTexts value
  | .keyed _ items => itemsOnlyTexts items
  | .ok value => onlyTexts value
  | _ => true

def allOnlyTexts : List (View ι) → Bool
  | [] => true
  | view :: rest => onlyTexts view && allOnlyTexts rest

def itemsOnlyTexts : List (String × View ι) → Bool
  | [] => true
  | (_, view) :: rest => onlyTexts view && itemsOnlyTexts rest

end

mutual

/-- The texts of such a view, in order. -/
def texts : View ι → List String
  | .text _ content => [content]
  | .primitive _ _ shown => [shown.text]
  | .tuple first rest => texts first ++ allTexts rest
  | .array items => allTexts items
  | .either _ value => texts value
  | .vec _ items => allTexts items
  | .staticVec _ items => allTexts items
  | .any _ _ value => texts value
  | .keyed _ items => itemsTexts items
  | .ok value => texts value
  | _ => []

def allTexts : List (View ι) → List String
  | [] => []
  | view :: rest => texts view ++ allTexts rest

def itemsTexts : List (String × View ι) → List String
  | [] => []
  | (_, view) :: rest => texts view ++ itemsTexts rest

end

mutual

/-- The view holds no `Err`, no keyed list and no `AnyView` of a view that does not exist. -/
def unmarked : View ι → Bool
  | .tuple first rest => unmarked first && allUnmarked rest
  | .array items => allUnmarked items
  | .either _ value => unmarked value
  | .vec _ items => allUnmarked items
  | .staticVec _ items => allUnmarked items
  | .any _ _ value => unmarked value && value.exists_
  | .ok value => unmarked value
  | .keyed .. => false
  | .err _ => false
  | _ => true

def allUnmarked : List (View ι) → Bool
  | [] => true
  | view :: rest => unmarked view && allUnmarked rest

end

/-- How many texts stand directly before the position: none or one. -/
def textsBefore (position : Position) : ℕ :=
  if position = .nextChildAfterText then 1 else 0

/-- The characters of texts, one after the other. -/
def joined (strings : List String) : List Char :=
  strings.flatMap String.toList

@[simp] theorem joined_append (left right : List String) :
    joined (left ++ right) = joined left ++ joined right := by
  simp [joined]

@[simp] theorem textContent_append (left right : List (Node ι)) :
    textContent (left ++ right) = textContent left ++ textContent right := by
  induction left with
  | nil => rfl
  | cons node rest ih => simp [textContent, ih]

mutual

/-- What is built has the texts of the view. -/
theorem textContent_build (view : View ι) (only : onlyTexts view = true) :
    textContent (build view) = joined (texts view) := by
  cases view with
  | text name content => simp [build, textContent, nodeText, texts, joined]
  | primitive name escapes shown => simp [build, textContent, nodeText, texts, joined]
  | unit name => simp [build, textContent, nodeText, texts, joined]
  | element name type attributes children => simp [onlyTexts] at only
  | tuple first rest =>
    simp only [onlyTexts, Bool.and_eq_true] at only
    simp [build, texts, textContent_build first only.1, textContent_buildAll rest only.2]
  | array items => exact textContent_buildAll items only
  | either variant value => exact textContent_build value only
  | vec marker items =>
    simp [build, texts, textContent, nodeText, textContent_buildAll items only]
  | staticVec marker items =>
    simp [build, texts, textContent, nodeText, textContent_buildAll items only]
  | any placeholder typeId value =>
    have inner := textContent_build value only
    cases exist : value.exists_ <;> simp [build, texts, textContent, nodeText, exist, inner]
  | keyed marker items =>
    simp [build, texts, textContent, nodeText, textContent_buildItems items only]
  | ok value => exact textContent_build value only
  | err placeholder => simp [build, textContent, nodeText, texts, joined]
  | errorBoundary children => simp [onlyTexts] at only

theorem textContent_buildAll (views : List (View ι)) (only : allOnlyTexts views = true) :
    textContent (buildAll views) = joined (allTexts views) := by
  cases views with
  | nil => rfl
  | cons view rest =>
    simp only [allOnlyTexts, Bool.and_eq_true] at only
    simp [buildAll, allTexts, textContent_build view only.1, textContent_buildAll rest only.2]

theorem textContent_buildItems (items : List (String × View ι))
    (only : itemsOnlyTexts items = true) :
    textContent (buildItems items) = joined (itemsTexts items) := by
  match items with
  | [] => rfl
  | (key, view) :: rest =>
    simp only [itemsOnlyTexts, Bool.and_eq_true] at only
    simp [buildItems, itemsTexts, textContent_build view only.1,
      textContent_buildItems rest only.2]

end

/-! ## Comments in the HTML -/

/-- The piece is a comment. -/
def isComment : Piece ι → Bool
  | .comment .. => true
  | _ => false

/-- The content of a text, nothing of another piece. -/
def content : Piece ι → List Char
  | .text _ content _ => content.toList
  | _ => []

/-- The piece is a text that is not escaped, or a comment. -/
def isRaw : Piece ι → Bool
  | .text _ _ escaped => !escaped
  | .comment .. => true
  | _ => false

@[simp] theorem isComment_comment (name : Option ι) (text : String) :
    isComment (Piece.comment name text) = true := rfl

def noComment (pieces : List (Piece ι)) : Prop := ∀ piece ∈ pieces, isComment piece = false

@[simp] theorem noComment_nil : noComment ([] : List (Piece ι)) := by simp [noComment]

@[simp] theorem noComment_append {left right : List (Piece ι)} :
    noComment (left ++ right) ↔ noComment left ∧ noComment right := by
  simp [noComment, or_imp, forall_and]

theorem comment_pos (name : Option ι) (text : String) :
    0 < (Piece.comment name text).html.toList.length := by
  simp only [Piece.html]
  split
  · decide
  · rw [String.toList_append, String.toList_append, List.length_append, List.length_append]
    exact Nat.lt_of_lt_of_le (by decide) (Nat.le_add_left ("-->".toList.length) _)

/-- Each piece writes its content, and a comment writes more. -/
theorem content_le {piece : Piece ι} (raw : isRaw piece = true) :
    (content piece).length ≤ piece.html.toList.length ∧
      (piece.html.toList = content piece ↔ isComment piece = false) := by
  cases piece with
  | text name written escaped =>
    cases escaped with
    | true => simp [isRaw] at raw
    | false => simp [Piece.html, content, isComment]
  | comment name written =>
    have pos := comment_pos name written
    refine ⟨Nat.zero_le _, ?_⟩
    constructor
    · intro nothing
      simp [nothing, content] at pos
    · simp [isComment]
  | openTag name tag attributes => simp [isRaw] at raw
  | voidTag name tag attributes => simp [isRaw] at raw
  | closeTag tag => simp [isRaw] at raw

/-- Unescaped texts and comments write the texts alone exactly where no comment is among them. -/
theorem htmlText_eq_iff {pieces : List (Piece ι)} (raw : ∀ piece ∈ pieces, isRaw piece = true) :
    (pieces.flatMap content).length ≤ (htmlText pieces).length ∧
      (htmlText pieces = pieces.flatMap content ↔ noComment pieces) := by
  induction pieces with
  | nil => simp [htmlText]
  | cons piece rest ih =>
    obtain ⟨shorter, same⟩ := content_le (raw piece List.mem_cons_self)
    obtain ⟨restShorter, restSame⟩ := ih fun other among => raw other (List.mem_cons_of_mem _ among)
    rw [htmlText_cons]
    have one : htmlText [piece] = piece.html.toList := by simp [htmlText]
    rw [one, List.flatMap_cons]
    refine ⟨by simp only [List.length_append]; omega, ?_⟩
    constructor
    · intro equal
      have lengths := congrArg List.length equal
      simp only [List.length_append] at lengths
      obtain ⟨head, tail⟩ := List.append_inj equal (by omega)
      intro other among
      rcases List.mem_cons.mp among with rfl | among
      · exact same.mp head
      · exact restSame.mp tail other among
    · intro none
      rw [same.mpr (none piece List.mem_cons_self),
        restSame.mpr fun other among => none other (List.mem_cons_of_mem _ among)]

/-! ## What the children write -/

/-- Pieces that write these texts, and comments. -/
structure Writes (strings : List String) (pieces : List (Piece ι)) : Prop where
  raw : ∀ piece ∈ pieces, isRaw piece = true
  content : pieces.flatMap content = joined strings

theorem Writes.append {left right : List String} {first second : List (Piece ι)}
    (one : Writes left first) (two : Writes right second) :
    Writes (left ++ right) (first ++ second) where
  raw := by
    intro piece among
    rcases List.mem_append.mp among with among | among
    · exact one.raw piece among
    · exact two.raw piece among
  content := by simp [one.content, two.content]

theorem writes_comment (name : Option ι) (text : String) :
    Writes [] [Piece.comment name text] where
  raw := by simp [isRaw]
  content := by simp [Ssr.content, joined]

theorem writes_nothing : Writes [] ([] : List (Piece ι)) where
  raw := by simp
  content := by simp [joined]

theorem writes_separator (position : Position) : Writes [] (separator (ι := ι) position) := by
  cases position <;> first | exact writes_nothing | exact writes_comment none ""

theorem writes_text (name : Option ι) (text : String) :
    Writes [text] [Piece.text name text false] where
  raw := by simp [isRaw]
  content := by simp [Ssr.content, joined]

variable (markBranches : Bool)

mutual

theorem toHtml_writes (view : View ι) (only : onlyTexts view = true) (position : Position) :
    Writes (texts view) (toHtmlWithBuf markBranches view false position).1 := by
  cases view with
  | text name content =>
    have wrote := (writes_separator position).append (writes_text (some name) content)
    simpa [toHtmlWithBuf, texts] using wrote
  | primitive name escapes shown =>
    have wrote := (writes_separator position).append (writes_text (some name) shown.text)
    simpa [toHtmlWithBuf, texts] using wrote
  | unit name => simpa [toHtmlWithBuf, texts] using writes_nothing
  | element name type attributes children => simp [onlyTexts] at only
  | tuple first rest =>
    simp only [onlyTexts, Bool.and_eq_true] at only
    have one := toHtml_writes first only.1 position
    have more := allToHtml_writes rest only.2 (toHtmlWithBuf markBranches first false position).2
    simpa [toHtmlWithBuf, texts] using one.append more
  | array items => exact allToHtml_writes items only position
  | either variant value =>
    simpa [toHtmlWithBuf, texts, openBranch, closeBranch] using toHtml_writes value only position
  | vec marker items => simpa [toHtmlWithBuf, texts] using allToHtml_writes items only position
  | staticVec marker items =>
    simpa [toHtmlWithBuf, texts] using allToHtml_writes items only position
  | any placeholder typeId value =>
    have inner := toHtml_writes value only position
    have missing := inner.append (writes_comment (some placeholder) "<() />")
    cases exist : value.exists_
    · simpa [toHtmlWithBuf, texts, openBranch, closeBranch, exist] using missing
    · simpa [toHtmlWithBuf, texts, openBranch, closeBranch, exist] using inner
  | keyed marker items =>
    have wrote := (itemsToHtml_writes items only position).append (writes_comment (some marker) "")
    simpa [toHtmlWithBuf, texts, openBranch, closeBranch] using wrote
  | ok value => exact toHtml_writes value only position
  | err placeholder => exact writes_comment (some placeholder) ""
  | errorBoundary children => simp [onlyTexts] at only

theorem allToHtml_writes (views : List (View ι)) (only : allOnlyTexts views = true)
    (position : Position) :
    Writes (allTexts views) (allToHtml markBranches views false position).1 := by
  cases views with
  | nil => exact writes_nothing
  | cons view rest =>
    simp only [allOnlyTexts, Bool.and_eq_true] at only
    have one := toHtml_writes view only.1 position
    have more := allToHtml_writes rest only.2 (toHtmlWithBuf markBranches view false position).2
    simpa [allToHtml, allTexts] using one.append more

theorem itemsToHtml_writes (items : List (String × View ι)) (only : itemsOnlyTexts items = true)
    (position : Position) :
    Writes (itemsTexts items) (itemsToHtml markBranches items false position).1 := by
  match items with
  | [] => exact writes_nothing
  | (key, view) :: rest =>
    simp only [itemsOnlyTexts, Bool.and_eq_true] at only
    have one := toHtml_writes view only.1 position
    have more := itemsToHtml_writes rest only.2 .nextChild
    simpa [itemsToHtml, itemsTexts, openBranch, closeBranch] using one.append more

end

/-! ## Where no comment is written -/

/-- Where texts are written without a comment: which the position before them is, and after. -/
structure Uncommented (strings : List String) (bare : Bool) (position : Position)
    (html : List (Piece ι) × Position) : Prop where
  noComment_iff :
    noComment html.1 ↔ bare = true ∧ strings.length + textsBefore position ≤ 1
  position : bare = true → textsBefore html.2 = min 1 (strings.length + textsBefore position)

theorem uncommented_nothing (position : Position) :
    Uncommented [] true position (([] : List (Piece ι)), position) where
  noComment_iff := by unfold textsBefore; split <;> simp
  position _ := by unfold textsBefore; split <;> simp

theorem uncommented_text (position : Position) (text : Piece ι) (raw : isComment text = false)
    (string : String) :
    Uncommented [string] true position (separator position ++ [text], .nextChildAfterText) where
  noComment_iff := by
    cases position <;> simp [separator, textsBefore, noComment, raw]
  position _ := by simp [textsBefore]

theorem Uncommented.append {left right : List String} {bare more : Bool} {position : Position}
    {first second : List (Piece ι) × Position} (one : Uncommented left bare position first)
    (two : Uncommented right more first.2 second) :
    Uncommented (left ++ right) (bare && more) position (first.1 ++ second.1, second.2) where
  noComment_iff := by
    rw [noComment_append, one.noComment_iff, two.noComment_iff, Bool.and_eq_true,
      List.length_append]
    constructor
    · rintro ⟨⟨isBare, few⟩, isMore, fewMore⟩
      have between := one.position isBare
      exact ⟨⟨isBare, isMore⟩, by omega⟩
    · rintro ⟨⟨isBare, isMore⟩, few⟩
      have between := one.position isBare
      exact ⟨⟨isBare, by omega⟩, isMore, by omega⟩
  position := by
    intro both
    rw [Bool.and_eq_true] at both
    have between := one.position both.1
    have after := two.position both.2
    rw [List.length_append]
    simp only
    omega

theorem uncommented_marked {strings : List String} {position after : Position}
    (before : List (Piece ι)) (name : Option ι) (text : String) :
    Uncommented strings false position (before ++ [.comment name text], after) where
  noComment_iff := by simp [noComment, isComment]
  position := by simp

mutual

theorem toHtml_uncommented (view : View ι) (only : onlyTexts view = true) (position : Position) :
    Uncommented (texts view) (unmarked view) position
      (toHtmlWithBuf markBranches view false position) := by
  cases view with
  | text name content =>
    simpa [toHtmlWithBuf, texts, unmarked] using uncommented_text position _ rfl content
  | primitive name escapes shown =>
    simpa [toHtmlWithBuf, texts, unmarked] using uncommented_text position _ rfl shown.text
  | unit name => simpa [toHtmlWithBuf, texts, unmarked] using uncommented_nothing position
  | element name type attributes children => simp [onlyTexts] at only
  | tuple first rest =>
    simp only [onlyTexts, Bool.and_eq_true] at only
    have one := toHtml_uncommented first only.1 position
    have more := allToHtml_uncommented rest only.2
      (toHtmlWithBuf markBranches first false position).2
    simpa [toHtmlWithBuf, texts, unmarked] using one.append more
  | array items => exact allToHtml_uncommented items only position
  | either variant value =>
    simpa [toHtmlWithBuf, texts, unmarked, openBranch, closeBranch, afterBranch] using
      toHtml_uncommented value only position
  | vec marker items =>
    simpa [toHtmlWithBuf, texts, unmarked] using allToHtml_uncommented items only position
  | staticVec marker items =>
    simpa [toHtmlWithBuf, texts, unmarked] using allToHtml_uncommented items only position
  | any placeholder typeId value =>
    have inner := toHtml_uncommented value only position
    cases exist : value.exists_
    · simpa [toHtmlWithBuf, texts, unmarked, openBranch, closeBranch, afterBranch, exist] using
        uncommented_marked _ (some placeholder) "<() />"
    · simpa [toHtmlWithBuf, texts, unmarked, openBranch, closeBranch, afterBranch, exist] using
        inner
  | keyed marker items =>
    simpa [toHtmlWithBuf, texts, unmarked, openBranch, closeBranch] using
      uncommented_marked _ (some marker) ""
  | ok value => exact toHtml_uncommented value only position
  | err placeholder => exact uncommented_marked [] (some placeholder) ""
  | errorBoundary children => simp [onlyTexts] at only

theorem allToHtml_uncommented (views : List (View ι)) (only : allOnlyTexts views = true)
    (position : Position) :
    Uncommented (allTexts views) (allUnmarked views) position
      (allToHtml markBranches views false position) := by
  cases views with
  | nil => exact uncommented_nothing position
  | cons view rest =>
    simp only [allOnlyTexts, Bool.and_eq_true] at only
    have one := toHtml_uncommented view only.1 position
    have more := allToHtml_uncommented rest only.2
      (toHtmlWithBuf markBranches view false position).2
    simpa [allToHtml, allTexts, allUnmarked] using one.append more

end

theorem htmlText_eq_texts_iff (view : View ι) (only : onlyTexts view = true)
    (position : Position) :
    htmlText (toHtmlWithBuf markBranches view false position).1 = joined (texts view) ↔
      unmarked view = true ∧ (texts view).length + textsBefore position ≤ 1 := by
  have writes := toHtml_writes markBranches view only position
  rw [← writes.content, (htmlText_eq_iff writes.raw).2]
  exact (toHtml_uncommented markBranches view only position).noComment_iff

/-- Children that are not escaped are written, from any position, as their texts one after the
other, which is the text of an element they are built in, exactly where they hold no `Err`, no keyed
list and no `AnyView` of a view that does not exist, and at most one text, none after a text. -/
theorem rawText_iff (view : View ι) (only : onlyTexts view = true) (position : Position) :
    let written := htmlText (toHtmlWithBuf markBranches view false position).1
    (written = joined (texts view) ∧ written = textContent (build view)) ↔
      unmarked view = true ∧ (texts view).length + textsBefore position ≤ 1 := by
  intro written
  rw [textContent_build view only, and_self]
  exact htmlText_eq_texts_iff markBranches view only position

theorem rawText_iff_style :
    let style : View ℕ := .any 0 "&str" (.option 1 (some (.text 2 "p > a { }")))
    let written := htmlText (toHtmlWithBuf true style false .firstChild).1
    (written = joined (texts style) ∧ written = textContent (build style)) ↔
      unmarked style = true ∧ (texts style).length + textsBefore .firstChild ≤ 1 :=
  rawText_iff true (.any 0 "&str" (.option 1 (some (.text 2 "p > a { }")))) rfl .firstChild

/-- `<script>"f(" {1} ")"</script>`: both separators are in the script. -/
theorem separated_script :
    let script : View ℕ := .tuple (.text 0 "f(") [.primitive 1 false ⟨"1", by decide⟩, .text 2 ")"]
    let written := htmlText (toHtmlWithBuf false script false .firstChild).1
    onlyTexts script = true ∧ written = "f(<!>1<!>)".toList ∧
      textContent (build script) = "f(1)".toList ∧ written ≠ joined (texts script) :=
  ⟨rfl, by decide, by decide, by decide⟩

/-! ## The element -/

mutual

theorem texts_of_not_exists (view : View ι) (missing : view.exists_ = false) : texts view = [] := by
  cases view with
  | unit name => rfl
  | tuple first rest =>
    simp only [View.exists_, Bool.or_eq_false_iff] at missing
    simp [texts, texts_of_not_exists first missing.1, allTexts_of_not_exists rest missing.2]
  | text | primitive | element | array | either | vec | staticVec | any | keyed | ok | err
  | errorBoundary => simp [View.exists_] at missing

theorem allTexts_of_not_exists (views : List (View ι)) (missing : anyExists views = false) :
    allTexts views = [] := by
  cases views with
  | nil => rfl
  | cons view rest =>
    simp only [anyExists, Bool.or_eq_false_iff] at missing
    simp [allTexts, texts_of_not_exists view missing.1, allTexts_of_not_exists rest missing.2]

end

/-- An element whose children are not escaped, and are one text at most, is its two tags around the
text of the element that is built in the browser. -/
theorem toHtml_rawElement (name : ι) (type : ElementType) (attributes : AttributesHtml)
    (children : View ι) (escape : Bool) (position : Position)
    (raw : type.escapeChildren = false) (paired : type.selfClosing = false)
    (plain : attributes.innerHtml = "") (only : onlyTexts children = true)
    (bare : unmarked children = true) (few : (texts children).length ≤ 1) :
    let element : View ι := .element name type attributes children
    htmlText (toHtmlWithBuf markBranches element escape position).1 =
      htmlText [(.openTag name type.tag attributes.tag : Piece ι)] ++ textContent (build element) ++
        htmlText [(.closeTag type.tag : Piece ι)] := by
  intro element
  have inner := (htmlText_eq_texts_iff markBranches children only .firstChild).mpr ⟨bare, few⟩
  have built : textContent (build element) = joined (texts children) := by
    simp [element, build, textContent, nodeText, plain, paired, textContent_build children only]
  have around : ∀ pieces : List (Piece ι),
      htmlText (.openTag name type.tag attributes.tag :: (pieces ++ [.closeTag type.tag])) =
        htmlText [(.openTag name type.tag attributes.tag : Piece ι)] ++ htmlText pieces ++
          htmlText [(.closeTag type.tag : Piece ι)] := by
    intro pieces
    simp [htmlText]
  rw [built]
  cases exist : children.exists_ with
  | true => simp [element, toHtmlWithBuf, paired, plain, raw, exist, around, inner]
  | false =>
    have nothing := texts_of_not_exists children exist
    simpa [element, toHtmlWithBuf, paired, plain, exist, nothing, joined] using around []

end Halyard.Ssr
