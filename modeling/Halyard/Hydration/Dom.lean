import Halyard.Hydration.View

/-!
# The DOM that is hydrated, and the cursor that walks it

`parse` is what a browser makes of rendered HTML: adjacent texts become one text node, each comment
is one node, elements nest as written.  Every node keeps the names of the parts that wrote it.

A node is addressed by its path from the container, innermost index first.  `Cursor` and `hydrate`
follow `hydration.rs` and the `hydrate` of each view; after a mismatch the cursor no longer moves
and nothing is bound any more (`failed`).
-/

namespace Halyard.Hydration

/-! ## Parsed HTML -/

/-- A DOM node, with the names of the parts that wrote it. -/
inductive Node (ι : Type*) where
  | text (names : List ι) (content : String)
  | comment (name : Option ι) (content : String)
  | element (name : ι) (tag attributes : String) (children : List (Node ι))

section Parse

variable {ι : Type*}

/-- Appends a text to the children parsed so far: to the text node they end in, if they do. -/
def addText (nodes : List (Node ι)) (names : List ι) (content : String) : List (Node ι) :=
  if content.isEmpty then nodes
  else
    match nodes.getLast? with
    | some (.text before start) => nodes.dropLast ++ [.text (before ++ names) (start ++ content)]
    | _ => nodes ++ [.text names content]

/-- An element whose closing tag is not reached yet, with the children of its parent before it. -/
structure Open (ι : Type*) where
  name : ι
  tag : String
  attributes : String
  before : List (Node ι)

/-- One piece of HTML, in the element that is open last; `none` where tags do not nest. -/
def parsePiece (nodes : List (Node ι)) (opened : List (Open ι)) :
    Piece ι → Option (List (Node ι) × List (Open ι))
  | .text name content _ => some (addText nodes name.toList content, opened)
  | .comment name content => some (nodes ++ [.comment name content], opened)
  | .voidTag name tag attributes => some (nodes ++ [.element name tag attributes []], opened)
  | .openTag name tag attributes => some ([], ⟨name, tag, attributes, nodes⟩ :: opened)
  | .closeTag tag =>
      match opened with
      | [] => none
      | parent :: opened =>
          if parent.tag = tag then
            some (parent.before ++ [.element parent.name tag parent.attributes nodes], opened)
          else none

def parsePieces : List (Piece ι) → List (Node ι) → List (Open ι) → Option (List (Node ι))
  | [], nodes, [] => some nodes
  | [], _, _ :: _ => none
  | piece :: rest, nodes, opened => do
      let (nodes, opened) ← parsePiece nodes opened piece
      parsePieces rest nodes opened

/-- The children of a container whose HTML is `html`. -/
def parse (html : List (Piece ι)) : Option (List (Node ι)) := parsePieces html [] []

end Parse

/-! ## Nodes by path -/

/-- The way to a node: its index, then its parent's, and so on; `[]` is the container. -/
abbrev Path := List ℕ

inductive Kind where
  | text
  | comment
  | element
deriving DecidableEq, Repr

section Walk

variable {ι : Type*}

def Node.kind : Node ι → Kind
  | .text .. => .text
  | .comment .. => .comment
  | .element .. => .element

def Node.children : Node ι → List (Node ι)
  | .element _ _ _ children => children
  | _ => []

/-- The children of the node at a path. -/
def childrenAt (dom : List (Node ι)) : Path → List (Node ι)
  | [] => dom
  | index :: parent =>
      match (childrenAt dom parent)[index]? with
      | some node => node.children
      | none => []

/-- The kind of the node at a path; the container is an element. -/
def kindAt (dom : List (Node ι)) : Path → Option Kind
  | [] => some .element
  | index :: parent => ((childrenAt dom parent)[index]?).map Node.kind

/-! ## `Cursor` -/

/-- `content.starts_with("bo") || content.starts_with("bc")`. -/
def startsAsBranch (content : String) : Bool :=
  "bo".toList.isPrefixOf content.toList || "bc".toList.isPrefixOf content.toList

/-- A branch marker, which the cursor skips where the build marks branches. -/
def Node.isBranch : Node ι → Bool
  | .comment _ content => startsAsBranch content
  | _ => false

/-- The index at which the cursor stops among `nodes`, of which the first has the index `index`:
past the branch markers, but not past the last node. -/
def skipBranches : List (Node ι) → ℕ → ℕ
  | node :: next :: rest, index =>
      if node.isBranch then skipBranches (next :: rest) (index + 1) else index
  | _, index => index

/-- The loop at the end of `child` and `sibling`, in a build that marks branches. -/
def settleCursor (marks : Bool) (dom : List (Node ι)) : Path → Path
  | [] => []
  | index :: parent =>
      if marks then skipBranches ((childrenAt dom parent).drop index) index :: parent
      else index :: parent

/-- `Cursor::child`, of a cursor that follows the DOM. -/
def childOf (marks : Bool) (dom : List (Node ι)) (cursor : Path) : Path :=
  settleCursor marks dom (if (childrenAt dom cursor).isEmpty then cursor else 0 :: cursor)

/-- `Cursor::sibling`, of a cursor that follows the DOM. -/
def siblingOf (marks : Bool) (dom : List (Node ι)) : Path → Path
  | [] => []
  | index :: parent =>
      settleCursor marks dom
        (if index + 1 < (childrenAt dom parent).length then (index + 1) :: parent
        else index :: parent)

/-! ## `hydrate` -/

/-- What hydration has reached: where the cursor and the position are, whether a mismatch was
found, and which nodes the parts hydrated so far are bound to. -/
structure Hydrated (ι : Type*) where
  cursor : Path := []
  position : Position := .firstChild
  failed : Bool := false
  bound : List (ι × Path) := []

/-- `Cursor::child` or `Cursor::sibling`: nothing moves after a mismatch. -/
def Hydrated.goto (state : Hydrated ι) (step : Path → Path) : Hydrated ι :=
  if state.failed then state else { state with cursor := step state.cursor }

/-- `if position == FirstChild { child } else { sibling }`. -/
def Hydrated.advance (marks : Bool) (dom : List (Node ι)) (state : Hydrated ι) : Hydrated ι :=
  if state.position = .firstChild then state.goto (childOf marks dom)
  else state.goto (siblingOf marks dom)

/-- Binds the node at the cursor, if it is of the kind that the part expects. -/
def Hydrated.cast (dom : List (Node ι)) (kind : Kind) (name : ι) (state : Hydrated ι) :
    Hydrated ι :=
  if state.failed then state
  else if kindAt dom state.cursor = some kind then
    { state with bound := state.bound ++ [(name, state.cursor)] }
  else { state with failed := true }

/-- `hydrate` of a text. -/
def hydrateText (marks : Bool) (dom : List (Node ι)) (name : ι) (state : Hydrated ι) :
    Hydrated ι :=
  let state := state.advance marks dom
  -- the separator comes before the text
  let state :=
    if state.position = .nextChildAfterText then state.goto (siblingOf marks dom) else state
  { state.cast dom .text name with position := .nextChildAfterText }

/-- `Cursor::next_placeholder`. -/
def nextPlaceholder (marks : Bool) (dom : List (Node ι)) (name : ι) (state : Hydrated ι) :
    Hydrated ι :=
  Hydrated.cast dom .comment name { state.advance marks dom with position := .nextChild }

mutual

/-- `hydrate::<true>(cursor, position)`. -/
def hydrate (marks : Bool) (dom : List (Node ι)) : View ι → Hydrated ι → Hydrated ι
  | .text name _, state => hydrateText marks dom name state
  | .primitive name _ _, state => hydrateText marks dom name state
  | .unit name, state => nextPlaceholder marks dom name state
  | .element name type _ children, state =>
      let state := if state.position = .current then state else state.advance marks dom
      let state := state.cast dom .element name
      let inside :=
        if !children.exists_ || !type.escapeChildren then state
        else hydrate marks dom children { state with position := .firstChild }
      { inside.goto fun _ => state.cursor with position := .nextChild }
  | .tuple first rest, state => hydrateAll marks dom rest (hydrate marks dom first state)
  | .array items, state => hydrateAll marks dom items state
  | .either _ value, state => hydrate marks dom value state
  | .vec marker items, state => nextPlaceholder marks dom marker (hydrateAll marks dom items state)
  | .staticVec marker items, state =>
      nextPlaceholder marks dom marker (hydrateAll marks dom items state)
  | .any placeholder _ value, state =>
      let state := hydrate marks dom value state
      if value.exists_ then state else nextPlaceholder marks dom placeholder state
  | .keyed marker items, state => nextPlaceholder marks dom marker (hydrateItems marks dom items state)
  | .ok value, state => hydrate marks dom value state
  | .err placeholder, state => nextPlaceholder marks dom placeholder state
  | .errorBoundary children, state => hydrate marks dom children state

def hydrateAll (marks : Bool) (dom : List (Node ι)) : List (View ι) → Hydrated ι → Hydrated ι
  | [], state => state
  | view :: rest, state => hydrateAll marks dom rest (hydrate marks dom view state)

def hydrateItems (marks : Bool) (dom : List (Node ι)) :
    List (String × View ι) → Hydrated ι → Hydrated ι
  | [], state => state
  | (_, view) :: rest, state => hydrateItems marks dom rest (hydrate marks dom view state)

end

/-! ## What hydration should find -/

mutual

/-- The parts that wrote a node at a path and its descendants, each with the path of its node. -/
def Node.written : Node ι → Path → List (ι × Path)
  | .text names _, path => names.map (·, path)
  | .comment name _, path => name.toList.map (·, path)
  | .element name _ _ children, path => (name, path) :: writtenIn children 0 path

/-- The same for sibling nodes, of which the first has the index `index`. -/
def writtenIn : List (Node ι) → (index : ℕ) → (parent : Path) → List (ι × Path)
  | [], _, _ => []
  | node :: rest, index, parent => node.written (index :: parent) ++ writtenIn rest (index + 1) parent

end

/-- Hydration from the container of the rendered HTML finds no mismatch and binds every part, in
turn, to the node that its own piece of the HTML became, no node twice. -/
def Hydrates (marks : Bool) (view : View ι) : Prop :=
  ∃ dom, parse (toHtml marks view) = some dom ∧
    (hydrate marks dom view {}).failed = false ∧
    (hydrate marks dom view {}).bound = writtenIn dom 0 [] ∧
    ((hydrate marks dom view {}).bound.map Prod.snd).Nodup

end Walk

end Halyard.Hydration
