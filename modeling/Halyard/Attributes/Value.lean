import Halyard.Attributes.ClassList

/-!
# Attribute values

What `class`, `style` and `Either` attributes write to their element when they are built, and when they
are rebuilt from the state that they kept.
-/

namespace Halyard.Attributes

open Entries

/-! ## The element -/

/-- The two attributes of an element that its class and style values share. -/
structure Element where
  classAttr : Option (List Char)
  styleAttr : Option (List Char)
  deriving DecidableEq

inductive Key
  | classes
  | styles
  deriving DecidableEq

/-- What `CssStyleDeclaration` does to the element's `style` attribute. -/
structure Css where
  setProperty : List Char → List Char → Option (List Char) → Option (List Char)
  removeProperty : List Char → Option (List Char) → Option (List Char)

namespace Element

/-- An element before any attribute has been built. -/
def empty : Element := ⟨none, none⟩

def setAttribute (el : Element) : Key → List Char → Element
  | .classes, value => { el with classAttr := some value }
  | .styles, value => { el with styleAttr := some value }

def removeAttribute (el : Element) : Key → Element
  | .classes => { el with classAttr := none }
  | .styles => { el with styleAttr := none }

/-- `add` throws for a name that is no token, and the error is only logged. -/
def addClass (el : Element) (name : List Char) : Element :=
  if IsToken name then { el with classAttr := classList.onText.put name () el.classAttr } else el

def removeClass (el : Element) (name : List Char) : Element :=
  if IsToken name then { el with classAttr := classList.onText.take name el.classAttr } else el

def setCssProperty (css : Css) (el : Element) (name value : List Char) : Element :=
  { el with styleAttr := css.setProperty name value el.styleAttr }

def removeCssProperty (css : Css) (el : Element) (name : List Char) : Element :=
  { el with styleAttr := css.removeProperty name el.styleAttr }

end Element

/-! ## Values and their states -/

/-- The type of an attribute: a whole text of the `class` or `style` attribute, an option of one, a
class with a condition, a style property, or either of two attributes. -/
inductive Kind
  | text (key : Key)
  | option (key : Key)
  | toggle
  | property
  | either (left right : Kind)
  deriving DecidableEq

namespace Kind

def Value : Kind → Type
  | .text _ => List Char
  | .option _ => Option (List Char)
  | .toggle => List Char × Bool
  | .property => List Char × Option (List Char)
  | .either left right => left.Value ⊕ right.Value

/-- What is kept between building and rebuilding, beside the element. -/
def State : Kind → Type
  | .text _ => List Char
  | .option _ => Option (List Char)
  | .toggle => Bool × List Char
  | .property => List Char × Option (List Char)
  | .either left right => left.State ⊕ right.State

end Kind

section Text

/-- `rebuild` of a plain text: `prev` is the text it set last. -/
def rebuildText (key : Key) (value : List Char) (el : Element) (prev : List Char) :
    Element × List Char :=
  (if value ≠ prev then el.setAttribute key value else el, value)

def rebuildOption (key : Key) : Option (List Char) → Element → Option (List Char) →
    Element × Option (List Char)
  | none, el, some _ => (el.removeAttribute key, none)
  | some value, el, none => (el.setAttribute key value, some value)
  | some value, el, some prev =>
      let rebuilt := rebuildText key value el prev
      (rebuilt.1, some rebuilt.2)
  | none, el, none => (el, none)

end Text

def buildToggle (value : List Char × Bool) (el : Element) : Element × (Bool × List Char) :=
  (if value.2 then el.addClass value.1 else el, (value.2, value.1))

def rebuildToggle (value : List Char × Bool) (el : Element) (prev : Bool × List Char) :
    Element × (Bool × List Char) :=
  let rebuilt :=
    if value.1 = prev.2 then
      if value.2 ≠ prev.1 then
        if value.2 then el.addClass value.1 else el.removeClass value.1
      else el
    else
      let removed := if prev.1 then el.removeClass prev.2 else el
      if value.2 then removed.addClass value.1 else removed
  (rebuilt, (value.2, value.1))

section Property

variable (css : Css)

/-- `build` of a style property's value. -/
def buildStyleValue (name : List Char) (el : Element) : Option (List Char) → Element
  | some value => el.setCssProperty css name value
  | none => el

/-- `rebuild` of a style property's value. -/
def rebuildStyleValue (name : List Char) (el : Element) :
    Option (List Char) → Option (List Char) → Element
  | none, none => el
  | some _, none => el.removeCssProperty css name
  | none, some value => el.setCssProperty css name value
  | some old, some new => if new ≠ old then el.setCssProperty css name new else el

def buildProperty (value : List Char × Option (List Char)) (el : Element) :
    Element × (List Char × Option (List Char)) :=
  (buildStyleValue css value.1 el value.2, value)

/-- Under another name the property of the state's name is removed, and the state keeps that name. -/
def rebuildProperty (value : List Char × Option (List Char)) (el : Element)
    (prev : List Char × Option (List Char)) : Element × (List Char × Option (List Char)) :=
  if value.1 ≠ prev.1 then
    (buildStyleValue css value.1 (el.removeCssProperty css prev.1) value.2, (prev.1, value.2))
  else (rebuildStyleValue css value.1 el prev.2 value.2, (prev.1, value.2))

end Property

namespace Kind

variable (css : Css)

def build : (kind : Kind) → kind.Value → Element → Element × kind.State
  | .text key, value, el => (el.setAttribute key value, value)
  | .option key, some value, el => (el.setAttribute key value, some value)
  | .option _, none, el => (el, none)
  | .toggle, value, el => buildToggle value el
  | .property, value, el => buildProperty css value el
  | .either left _, .inl value, el =>
      let built := left.build value el
      (built.1, .inl built.2)
  | .either _ right, .inr value, el =>
      let built := right.build value el
      (built.1, .inr built.2)

/-- An `Either` only rebuilds the side that it was built with. -/
def rebuild : (kind : Kind) → kind.Value → Element × kind.State → Element × kind.State
  | .text key, value, (el, prev) => rebuildText key value el prev
  | .option key, value, (el, prev) => rebuildOption key value el prev
  | .toggle, value, (el, prev) => rebuildToggle value el prev
  | .property, value, (el, prev) => rebuildProperty css value el prev
  | .either left _, .inl value, (el, .inl prev) =>
      let rebuilt := left.rebuild value (el, prev)
      (rebuilt.1, .inl rebuilt.2)
  | .either _ right, .inr value, (el, .inr prev) =>
      let rebuilt := right.rebuild value (el, prev)
      (rebuilt.1, .inr rebuilt.2)
  | .either _ _, .inl _, (el, .inr prev) => (el, .inr prev)
  | .either _ _, .inr _, (el, .inl prev) => (el, .inl prev)

end Kind

/-! ## Lists of values -/

/-- The values of an element's attributes, of the given types. -/
def Values : List Kind → Type
  | [] => Unit
  | kind :: rest => kind.Value × Values rest

def States : List Kind → Type
  | [] => Unit
  | kind :: rest => kind.State × States rest

section Lists

variable (css : Css)

def buildList : (kinds : List Kind) → Values kinds → Element → Element × States kinds
  | [], _, el => (el, ())
  | kind :: rest, values, el =>
      let first := kind.build css values.1 el
      let others := buildList rest values.2 first.1
      (others.1, (first.2, others.2))

def rebuildList : (kinds : List Kind) → Values kinds → Element × States kinds → Element × States kinds
  | [], _, (el, _) => (el, ())
  | kind :: rest, values, (el, states) =>
      let first := kind.rebuild css values.1 (el, states.1)
      let others := rebuildList rest values.2 (first.1, states.2)
      (others.1, (first.2, others.2))

/-- Built with the first values and rebuilt with each of the further ones. -/
def run (kinds : List Kind) (first : Values kinds) (further : List (Values kinds)) :
    Element × States kinds :=
  further.foldl (fun shown values => rebuildList css kinds values shown)
    (buildList css kinds first Element.empty)

/-- The element as it is freshly built with the values. -/
def fresh (kinds : List Kind) (values : Values kinds) : Element :=
  (buildList css kinds values Element.empty).1

end Lists

end Halyard.Attributes
