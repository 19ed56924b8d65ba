import Mathlib

/-!
# Views and the HTML they render to

The view types of `halyard_tachys/src/view` and `HtmlElement`, with `RenderHtml::to_html_with_buf`
of each.  A view is a tree; every part that the browser binds to a node (a text, an element, a
placeholder) carries a name from `ι`, and so does the piece of HTML it writes.

HTML is kept as the list of pieces pushed to the buffer, so that what a piece is and who wrote it
is not lost; `Piece.html` is its text.  What rendering needs of an element's attributes is the text
they put in its tag and its `inner_html`.
-/

namespace Halyard.Hydration

/-- `Position`: where the next part of a view stands, relative to the parts before it. -/
inductive Position where
  | current
  | firstChild
  | nextChild
  | nextChildAfterText
  | onlyChild
  | lastChild
deriving DecidableEq, Repr

/-! ## HTML -/

/-- What is pushed to an HTML buffer. -/
inductive Piece (ι : Type*) where
  /-- A text, written by a part or as an element's `inner_html`. -/
  | text (name : Option ι) (content : String) (escaped : Bool)
  /-- A comment, written by a part as its placeholder, or by none (a separator, a marker). -/
  | comment (name : Option ι) (content : String)
  | openTag (name : ι) (tag attributes : String)
  /-- The tag of an element that has no children and no closing tag. -/
  | voidTag (name : ι) (tag attributes : String)
  | closeTag (tag : String)
deriving DecidableEq, Repr

/-- `html_escape::encode_text`. -/
def encodeText (text : String) : String :=
  ((text.replace "&" "&amp;").replace "<" "&lt;").replace ">" "&gt;"

/-- The text of a piece. -/
def Piece.html {ι : Type*} : Piece ι → String
  | .text _ content escaped => if escaped then encodeText content else content
  | .comment _ content => if content.isEmpty then "<!>" else "<!--" ++ content ++ "-->"
  | .openTag _ tag attributes => "<" ++ tag ++ attributes ++ ">"
  | .voidTag _ tag attributes => "<" ++ tag ++ attributes ++ ">"
  | .closeTag tag => "</" ++ tag ++ ">"

/-! ## Views -/

/-- `ElementType`: the constants of an element. -/
structure ElementType where
  tag : String
  selfClosing : Bool := false
  escapeChildren : Bool := true
deriving DecidableEq, Repr

/-- What `attributes_to_html` gives: the text of the tag's attributes, and the `inner_html`. -/
structure AttributesHtml where
  tag : String := ""
  innerHtml : String := ""
deriving DecidableEq, Repr

/-- The `Display` text of a number, a character or another primitive: never empty. -/
structure Shown where
  text : String
  nonempty : text ≠ ""
deriving DecidableEq

inductive View (ι : Type*) where
  | text (name : ι) (content : String)
  /-- A primitive; `escapes` is `true` for `char`. -/
  | primitive (name : ι) (escapes : Bool) (shown : Shown)
  | unit (name : ι)
  | element (name : ι) (type : ElementType) (attributes : AttributesHtml) (children : View ι)
  | tuple (first : View ι) (rest : List (View ι))
  | array (items : List (View ι))
  /-- `Either` and `EitherOf`: the chosen variant's name, and its view. -/
  | either (variant : String) (value : View ι)
  | vec (marker : ι) (items : List (View ι))
  | staticVec (marker : ι) (items : List (View ι))
  /-- `AnyView`: the name is that of the placeholder of a value that does not exist. -/
  | any (placeholder : ι) (typeId : String) (value : View ι)
  /-- `Keyed`: the keys' text and the items' views. -/
  | keyed (marker : ι) (items : List (String × View ι))
  /-- `Result`: `Ok`. -/
  | ok (value : View ι)
  /-- `Result`: `Err`, which renders as a placeholder. -/
  | err (placeholder : ι)
  /-- An `ErrorBoundary` whose children hold no error. -/
  | errorBoundary (children : View ι)

/-- `Option` renders as the `Either` it is turned into. -/
def View.option {ι : Type*} (placeholder : ι) : Option (View ι) → View ι
  | some value => .either "0" value
  | none => .either "1" (.unit placeholder)

mutual

/-- `RenderHtml::EXISTS`. -/
def View.exists_ {ι : Type*} : View ι → Bool
  | .unit _ => false
  | .tuple first rest => first.exists_ || anyExists rest
  | _ => true

def anyExists {ι : Type*} : List (View ι) → Bool
  | [] => false
  | view :: rest => view.exists_ || anyExists rest

end

/-! ## `to_html_with_buf` -/

section Html

variable {ι : Type*}

/-- The comment that separates a text from the text before it. -/
def separator : Position → List (Piece ι)
  | .nextChildAfterText => [.comment none ""]
  | _ => []

/-- `buf.open_branch(name)`, where branches are marked. -/
def openBranch (marked : Bool) (name : String) : List (Piece ι) :=
  if marked then [.comment none ("bo-" ++ name)] else []

/-- `buf.close_branch(name)`, where branches are marked. -/
def closeBranch (marked : Bool) (name : String) : List (Piece ι) :=
  if marked then [.comment none ("bc-" ++ name)] else []

/-- The position after a branch is closed. -/
def afterBranch (marked : Bool) (position : Position) : Position :=
  if marked && position == .nextChildAfterText then .nextChild else position

mutual

/-- `to_html_with_buf(buf, position, escape, mark_branches)`: what is pushed, and the position
left for the next part. -/
def toHtmlWithBuf (markBranches : Bool) :
    View ι → (escape : Bool) → Position → List (Piece ι) × Position
  | .text name content, escape, position =>
      let written := if content.isEmpty && escape then " " else content
      (separator position ++ [.text (some name) written escape], .nextChildAfterText)
  | .primitive name escapes shown, escape, position =>
      (separator position ++ [.text (some name) shown.text (escapes && escape)],
        .nextChildAfterText)
  | .unit name, escape, position =>
      if escape then ([.comment (some name) ""], .nextChild) else ([], position)
  | .element name type attributes children, _, _ =>
      if type.selfClosing then ([.voidTag name type.tag attributes.tag], .nextChild)
      else
        let inner :=
          if !attributes.innerHtml.isEmpty then [.text none attributes.innerHtml false]
          else if children.exists_ then
            (toHtmlWithBuf markBranches children type.escapeChildren .firstChild).1
          else []
        (.openTag name type.tag attributes.tag :: inner ++ [.closeTag type.tag], .nextChild)
  | .tuple first rest, escape, position =>
      let (html, position) := toHtmlWithBuf markBranches first escape position
      let (restHtml, position) := allToHtml markBranches rest escape position
      (html ++ restHtml, position)
  | .array items, escape, position => allToHtml markBranches items escape position
  | .either variant value, escape, position =>
      let marked := markBranches && escape
      let (html, position) := toHtmlWithBuf markBranches value escape position
      (openBranch marked variant ++ html ++ closeBranch marked variant,
        afterBranch marked position)
  | .vec marker items, escape, position =>
      let (html, position) := allToHtml markBranches items escape position
      if escape then (html ++ [.comment (some marker) ""], .nextChild) else (html, position)
  | .staticVec marker items, escape, position =>
      let (html, position) := allToHtml markBranches items escape position
      if escape then (html ++ [.comment (some marker) ""], .nextChild) else (html, position)
  | .any placeholder typeId value, escape, position =>
      let marked := markBranches && escape
      let (html, position) := toHtmlWithBuf markBranches value escape position
      let missing := if value.exists_ then [] else [.comment (some placeholder) "<() />"]
      (openBranch marked typeId ++ html ++ missing ++ closeBranch marked typeId,
        afterBranch marked position)
  | .keyed marker items, escape, position =>
      let marked := markBranches && escape
      let (html, position) := itemsToHtml markBranches items escape position
      (openBranch marked "for" ++ html ++ closeBranch marked "for" ++
        [.comment (some marker) ""], position)
  | .ok value, escape, position => toHtmlWithBuf markBranches value escape position
  | .err placeholder, _, position => ([.comment (some placeholder) ""], position)
  | .errorBoundary children, escape, position =>
      -- the children are rendered from a copy of the position, which is dropped
      ((toHtmlWithBuf markBranches children escape position).1, position)

def allToHtml (markBranches : Bool) :
    List (View ι) → (escape : Bool) → Position → List (Piece ι) × Position
  | [], _, position => ([], position)
  | view :: rest, escape, position =>
      let (html, position) := toHtmlWithBuf markBranches view escape position
      let (restHtml, position) := allToHtml markBranches rest escape position
      (html ++ restHtml, position)

/-- The items of a keyed list; each leaves the position of a next child. -/
def itemsToHtml (markBranches : Bool) :
    List (String × View ι) → (escape : Bool) → Position → List (Piece ι) × Position
  | [], _, position => ([], position)
  | (key, view) :: rest, escape, position =>
      let marked := markBranches && escape
      let (html, _) := toHtmlWithBuf markBranches view escape position
      let (restHtml, position) := itemsToHtml markBranches rest escape .nextChild
      (openBranch marked ("item-" ++ key) ++ html ++ closeBranch marked ("item-" ++ key) ++
        restHtml, position)

end

/-- `to_html`, and `to_html_branching` where branches are marked. -/
def toHtml (markBranches : Bool) (view : View ι) : List (Piece ι) :=
  (toHtmlWithBuf markBranches view true .firstChild).1

end Html

end Halyard.Hydration
