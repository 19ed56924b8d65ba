import Mathlib

/-!
# What the `view!` macro writes

The macro (`halyard_macro/src/view`) writes an HTML element as calls that build it, and a child without
dynamic parts as its HTML, an `InertElement`.  Elements have names of HTML, without SVG and MathML, and
there is no global class.
-/

namespace Halyard.ViewMacro

abbrev Text := List Char

/-! ## What the macro reads -/

inductive AttributeValue
  | absent
  /-- A string literal. -/
  | lit (value : Text)
  /-- Another expression, whose value is a text or nothing. -/
  | expr (value : Option Text)

structure KeyedAttribute where
  key : Text
  value : AttributeValue

/-- Where a part stands: `Position`, less what only hydration sets. -/
inductive Position
  | firstChild
  | nextChild
  | nextChildAfterText
  deriving DecidableEq

/-- What is written to a page. -/
inductive Html
  | tag (name : Text) (attributes : List (Text × Option Text))
  | closing (name : Text)
  | text (content : Text) (escape : Bool)
  | comment (content : Text)
  /-- An `inner_html`, or the HTML of an `InertElement`. -/
  | raw (html : Text)

/-- A node of the macro's input; `dynamic` is a block, a component or a doctype, as what it writes. -/
inductive Node
  | text (value : Text)
  | comment
  | element (name : Text) (attributes : List KeyedAttribute) (children : List Node)
  | fragment (children : List Node)
  | dynamic (toHtml : (escape : Bool) → Position → List Html × Position)

/-! ## What the macro writes -/

/-- The views that the macro writes; an element without children has the empty tuple, and a view without
nodes is `()`. -/
inductive Expr
  | unit
  | text (value : Text)
  | element (name : Text) (attributes : List KeyedAttribute) (children : Expr)
  | inertElement (html : Text)
  | tuple (views : List Expr)
  | dynamic (toHtml : (escape : Bool) → Position → List Html × Position)

def startsWith (key : Text) (start : String) : Bool := start.toList.isPrefixOf key

def staticKey (key : Text) : Bool :=
  !(startsWith key "style:" || startsWith key "prop:" || startsWith key "on:" || startsWith key "use:" ||
    startsWith key "bind")

def KeyedAttribute.isStatic (attr : KeyedAttribute) : Bool :=
  match attr.value with
  | .absent => true
  | .lit _ => staticKey attr.key
  | .expr _ => false

mutual

def Node.size : Node → ℕ
  | .element _ _ children | .fragment children => sizes children + 2
  | _ => 1

def sizes : List Node → ℕ
  | [] => 0
  | node :: nodes => node.size + sizes nodes

end

@[simp] theorem sizes_append (nodes more : List Node) : sizes (nodes ++ more) = sizes nodes + sizes more := by
  induction nodes with
  | nil => simp [sizes]
  | cons node nodes ih => simp [sizes, ih, Nat.add_assoc]

/-- The loop of `is_inert_element`. -/
def allInert : List Node → Bool
  | [] => true
  | .text _ :: nodes => allInert nodes
  | .element _ attributes children :: nodes =>
      attributes.all KeyedAttribute.isStatic && allInert (nodes ++ children)
  | _ :: _ => false
  termination_by nodes => sizes nodes
  decreasing_by all_goals simp [sizes, Node.size]; try omega

def isInertElement : Node → Bool
  | .element name attributes children =>
      !(attributes.isEmpty && children.isEmpty) && allInert [.element name attributes children]
  | _ => false

def selfClosingNames : List Text :=
  ["area", "base", "br", "col", "embed", "hr", "img", "input", "link", "meta", "param", "source", "track",
    "wbr"].map String.toList

def isSelfClosing (name : Text) : Bool := name ∈ selfClosingNames

def encodeText (text : Text) : Text :=
  text.flatMap fun c =>
    if c = '&' then "&amp;".toList else if c = '<' then "&lt;".toList else if c = '>' then "&gt;".toList else [c]

def encodeAttribute (value : Text) : Text :=
  value.flatMap fun c => if c = '"' then "&quot;".toList else encodeText [c]

/-- `trim_start_matches("r#")`. -/
def trimRaw : Text → Text
  | 'r' :: '#' :: rest => trimRaw rest
  | key => key

def escapesInert (name : Text) : Bool := name ≠ "script".toList && name ≠ "style".toList

/-- An attribute of an inert element. -/
def inertAttribute (attr : KeyedAttribute) : Text :=
  let name := trimRaw attr.key
  let value := match attr.value with
    | .lit value => some (encodeAttribute value)
    | _ => none
  if name = "class".toList then
    match value with
    | some value => " class=\"".toList ++ value ++ ['"']
    | none => []
  else
    match value with
    | some value => ' ' :: name ++ "=\"".toList ++ value ++ ['"']
    | none => ' ' :: name

inductive Item
  | node (node : Node) (escape : Bool)
  | closingTag (name : Text)

def Item.size : Item → ℕ
  | .node it _ => it.size
  | .closingTag _ => 1

def inertTag (name : Text) (attributes : List KeyedAttribute) : Text :=
  '<' :: name ++ attributes.flatMap inertAttribute ++ ['>']

def inertText (escape : Bool) (value : Text) : Text := if escape then encodeText value else value

def childItems (escape : Bool) (children : List Node) : List Item := children.map fun child => .node child escape

theorem sum_childItems (escape : Bool) (children : List Node) :
    ((childItems escape children).map Item.size).sum = sizes children := by
  induction children with
  | nil => rfl
  | cons child children ih =>
    rw [childItems, List.map_cons, List.map_cons, List.sum_cons]
    change child.size + ((childItems escape children).map Item.size).sum = _
    rw [ih]
    rfl

theorem size_pos (node : Node) : 0 < node.size := by
  cases node <;> simp [Node.size]

/-- The loop of `inert_element_to_tokens`. -/
def writeInert : List Item → Text → Text
  | [], html => html
  | .closingTag name :: items, html => writeInert items (html ++ "</".toList ++ name ++ ['>'])
  | .node (.text value) escape :: items, html =>
      writeInert items (html ++ inertText escape value)
  | .node (.element name attributes children) _ :: items, html =>
      if isSelfClosing name then writeInert items (html ++ inertTag name attributes)
      else
        writeInert (childItems (escapesInert name) children ++ .closingTag name :: items)
          (html ++ inertTag name attributes)
  | .node _ _ :: items, html => writeInert items html
  termination_by items => (items.map Item.size).sum
  decreasing_by
    all_goals simp only [List.map_cons, List.map_append, List.sum_cons, List.sum_append, sum_childItems, Item.size,
      Node.size]
    all_goals first | omega | exact Nat.lt_add_of_pos_left (size_pos _)

def inertElementToTokens (node : Node) : Expr := .inertElement (writeInert [.node node true] [])

/-- `class` and `style` come first. -/
def KeyedAttribute.first (attr : KeyedAttribute) : Bool :=
  attr.key = "class".toList || attr.key = "style".toList

def sortAttributes (attributes : List KeyedAttribute) : List KeyedAttribute :=
  attributes.filter KeyedAttribute.first ++ attributes.filter fun attr => !attr.first

def chunks (views : List Expr) : List Expr :=
  if views = [] then [] else .tuple (views.take 16) :: chunks (views.drop 16)
  termination_by views.length
  decreasing_by
    rename_i some_
    rw [List.length_drop]
    exact Nat.sub_lt (List.length_pos_iff.mpr some_) (by decide)

/-- The end of `fragment_to_tokens` and of `element_children_to_tokens`. -/
def together : List Expr → Option Expr
  | [] => none
  | [view] => some view
  | views => some (.tuple (if views.length > 16 then chunks views else views))

mutual

def nodeToTokens (disableInertHtml : Bool) : (topLevel : Bool) → Node → Option Expr
  | _, .text value => some (.text value)
  | _, .comment => none
  | topLevel, .element name attributes children =>
      if !topLevel && !disableInertHtml && isInertElement (.element name attributes children) then
        some (inertElementToTokens (.element name attributes children))
      else
        some (.element name (sortAttributes attributes)
          (if isSelfClosing name then .tuple []
            else (together (childrenToTokens disableInertHtml false children)).getD (.tuple [])))
  | _, .fragment children => together (childrenToTokens disableInertHtml true children)
  | _, .dynamic toHtml => some (.dynamic toHtml)

def childrenToTokens (disableInertHtml topLevel : Bool) : List Node → List Expr
  | [] => []
  | node :: nodes =>
      (nodeToTokens disableInertHtml topLevel node).toList ++ childrenToTokens disableInertHtml topLevel nodes

end

def renderView (disableInertHtml : Bool) : List Node → Option Expr
  | [] => some .unit
  | [node] => nodeToTokens disableInertHtml true node
  | nodes => together (childrenToTokens disableInertHtml true nodes)

/-! ## What is written to the page -/

def isWhitespace (c : Char) : Bool :=
  (9 ≤ c.toNat && c.toNat ≤ 13) || (0x2000 ≤ c.toNat && c.toNat ≤ 0x200A) ||
    c.toNat ∈ [32, 0x85, 0xA0, 0x1680, 0x2028, 0x2029, 0x202F, 0x205F, 0x3000]

def trim (text : Text) : Text :=
  ((text.dropWhile isWhitespace).reverse.dropWhile isWhitespace).reverse

/-- What the attributes have written: the tag's own, and the buffers of the others. -/
structure Written where
  tag : List (Text × Option Text)
  classes : Text
  styles : Text
  innerHtml : Text

/-- The value of an attribute in its tag, if it has one there. -/
def AttributeValue.inTag : AttributeValue → Option (Option Text)
  | .absent => some none
  | .lit value => some (some value)
  | .expr value => value.map some

/-- The name that the macro gives an attribute; `keyOf` are the names of the typed methods. -/
def plainName (keyOf : Text → Text) (element key : Text) : Text :=
  if '-' ∈ element ∨ '-' ∈ key ∧ startsWith key "aria-" = false then key else keyOf key

def writeAttribute (keyOf : Text → Text) (element : Text) (written : Written) (attr : KeyedAttribute) : Written :=
  let value := attr.value.inTag
  if attr.key = "class".toList then
    { written with classes := (value.join.map fun value => ' ' :: value).getD written.classes }
  else if attr.key = "style".toList then
    { written with styles := written.styles ++ (value.join.map fun value => value ++ [';']).getD [] }
  else if attr.key = "inner_html".toList ∧ '-' ∉ element then
    { written with innerHtml := written.innerHtml ++ value.join.getD [] }
  else
    { written with tag := written.tag ++ (value.map fun value => (plainName keyOf element attr.key, value)).toList }

/-- `attributes_to_html`. -/
def attributesToHtml (keyOf : Text → Text) (element : Text) (attributes : List KeyedAttribute) :
    List (Text × Option Text) × Text :=
  let written := attributes.foldl (writeAttribute keyOf element) ⟨[], [], [], []⟩
  (written.tag ++ (if written.classes = [] then [] else [("class".toList, some (trim written.classes))]) ++
      if written.styles = [] then [] else [("style".toList, some (trim written.styles))],
    written.innerHtml)

/-- `SELF_CLOSING` of the elements. -/
def selfClosing (name : Text) : Bool := isSelfClosing name && name ≠ "param".toList

/-- `ESCAPE_CHILDREN` of the elements. -/
def escapeChildren (name : Text) : Bool :=
  name ∉ ["noscript", "script", "style", "textarea"].map String.toList

def separator : Position → List Html
  | .nextChildAfterText => [.comment []]
  | _ => []

mutual

/-- `to_html_with_buf`. -/
def Expr.toHtml (keyOf : Text → Text) : Expr → (escape : Bool) → Position → List Html × Position
  | .unit, escape, position => if escape then ([.comment []], .nextChild) else ([], position)
  | .text value, escape, position =>
      (separator position ++ [.text (if value = [] ∧ escape then [' '] else value) escape], .nextChildAfterText)
  | .element name attributes children, _, _ =>
      let written := attributesToHtml keyOf name attributes
      if selfClosing name then ([.tag name written.1], .nextChild)
      else
        let inside :=
          if written.2 = [] then (children.toHtml keyOf (escapeChildren name) .firstChild).1 else [.raw written.2]
        (.tag name written.1 :: inside ++ [.closing name], .nextChild)
  | .inertElement html, _, _ => ([.raw html], .nextChild)
  | .tuple views, escape, position => allToHtml keyOf views escape position
  | .dynamic toHtml, escape, position => toHtml escape position

def allToHtml (keyOf : Text → Text) : List Expr → (escape : Bool) → Position → List Html × Position
  | [], _, position => ([], position)
  | view :: views, escape, position =>
      let first := view.toHtml keyOf escape position
      let rest := allToHtml keyOf views escape first.2
      (first.1 ++ rest.1, rest.2)

end

def printAttribute (attr : Text × Option Text) : Text :=
  ' ' :: attr.1 ++ match attr.2 with
    | some value => "=\"".toList ++ encodeAttribute value ++ ['"']
    | none => []

def Html.print : Html → Text
  | .tag name attributes => '<' :: name ++ attributes.flatMap printAttribute ++ ['>']
  | .closing name => "</".toList ++ name ++ ['>']
  | .text content escape => inertText escape content
  | .comment content => if content = [] then "<!>".toList else "<!--".toList ++ content ++ "-->".toList
  | .raw html => html

end Halyard.ViewMacro
