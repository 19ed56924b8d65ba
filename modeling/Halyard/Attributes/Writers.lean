import Halyard.Attributes.Value

/-!
# Values as writers

Every value is a writer to the `class` attribute and one to the `style` attribute, one of which writes
nothing.
-/

namespace Halyard.Attributes

open Entries

/-- The `style` attribute as it is written to. -/
def Css.onStyle (css : Css) : Target (List Char) (List Char) (List Char) (Option (List Char)) where
  set := some
  unset := none
  put := css.setProperty
  take := css.removeProperty

namespace Kind

def classWrite : (kind : Kind) → kind.Value → Write (List Char) (List Char) Unit
  | .text .classes, value => .text value
  | .text .styles, _ => .off
  | .option .classes, some value => .text value
  | .option .classes, none => .off
  | .option .styles, _ => .off
  | .toggle, value => if value.2 = true ∧ IsToken value.1 then .entry value.1 () else .off
  | .property, _ => .off
  | .either left _, .inl value => left.classWrite value
  | .either _ right, .inr value => right.classWrite value

def styleWrite : (kind : Kind) → kind.Value → Write (List Char) (List Char) (List Char)
  | .text .classes, _ => .off
  | .text .styles, value => .text value
  | .option .classes, _ => .off
  | .option .styles, some value => .text value
  | .option .styles, none => .off
  | .toggle, _ => .off
  | .property, (name, some value) => .entry name value
  | .property, (_, none) => .off
  | .either left _, .inl value => left.styleWrite value
  | .either _ right, .inr value => right.styleWrite value

/-- The state that a value is kept as. -/
def stateOf : (kind : Kind) → kind.Value → kind.State
  | .text _, value => value
  | .option _, value => value
  | .toggle, value => (value.2, value.1)
  | .property, value => value
  | .either left _, .inl value => .inl (left.stateOf value)
  | .either _ right, .inr value => .inr (right.stateOf value)

/-- An `Either` stays on its side, and a style property keeps its name. -/
def Keeps : (kind : Kind) → kind.Value → kind.Value → Prop
  | .text _, _, _ => True
  | .option _, _, _ => True
  | .toggle, _, _ => True
  | .property, old, new => old.1 = new.1
  | .either left _, .inl old, .inl new => left.Keeps old new
  | .either _ right, .inr old, .inr new => right.Keeps old new
  | .either _ _, .inl _, .inr _ => False
  | .either _ _, .inr _, .inl _ => False

variable (css : Css)

theorem build_toggle (value : List Char × Bool) (el : Element) :
    buildToggle value el =
      (⟨classList.onText.build el.classAttr (toggle.classWrite value), el.styleAttr⟩,
        (value.2, value.1)) := by
  obtain ⟨name, on⟩ := value
  by_cases token : IsToken name <;> cases on <;>
    simp [buildToggle, Element.addClass, classWrite, Target.build, token, Format.onText]

theorem build_eq (kind : Kind) (value : kind.Value) (el : Element) :
    kind.build css value el =
      (⟨classList.onText.build el.classAttr (kind.classWrite value),
        css.onStyle.build el.styleAttr (kind.styleWrite value)⟩, kind.stateOf value) := by
  induction kind generalizing el with
  | text key => cases key <;> rfl
  | option key => cases key <;> cases value <;> rfl
  | toggle => exact build_toggle value el
  | property =>
    obtain ⟨name, value⟩ := value
    cases value <;> rfl
  | either left right left_ih right_ih =>
    cases value with
    | inl value => simp only [build, left_ih, classWrite, styleWrite, stateOf]
    | inr value => simp only [build, right_ih, classWrite, styleWrite, stateOf]

theorem rebuild_text (key : Key) (old new : List Char) (el : Element) :
    rebuildText key new el old =
      (⟨classList.onText.rebuild el.classAttr
          ⟨(Kind.text key).classWrite old, (Kind.text key).classWrite new⟩,
        css.onStyle.rebuild el.styleAttr
          ⟨(Kind.text key).styleWrite old, (Kind.text key).styleWrite new⟩⟩, new) := by
  by_cases same : new = old
  · subst same
    cases key <;> simp [rebuildText, Target.rebuild_of_eq]
  · cases key <;>
      simp [rebuildText, same, Ne.symm same, classWrite, styleWrite, Element.setAttribute,
        Target.rebuild, Target.build, Format.onText, Css.onStyle]

theorem rebuild_option (key : Key) (old new : Option (List Char)) (el : Element) :
    rebuildOption key new el old =
      (⟨classList.onText.rebuild el.classAttr
          ⟨(Kind.option key).classWrite old, (Kind.option key).classWrite new⟩,
        css.onStyle.rebuild el.styleAttr
          ⟨(Kind.option key).styleWrite old, (Kind.option key).styleWrite new⟩⟩, new) := by
  cases old with
  | none => cases new <;> cases key <;> rfl
  | some old =>
    cases new with
    | none => cases key <;> rfl
    | some new =>
      have rebuilt := rebuild_text css key old new el
      cases key <;> simp [rebuildOption, rebuilt, classWrite, styleWrite]

theorem rebuild_toggle (old new : List Char × Bool) (el : Element) :
    rebuildToggle new el (old.2, old.1) =
      (⟨classList.onText.rebuild el.classAttr ⟨toggle.classWrite old, toggle.classWrite new⟩,
        el.styleAttr⟩, (new.2, new.1)) := by
  obtain ⟨prev, was⟩ := old
  obtain ⟨name, on⟩ := new
  by_cases same : name = prev
  · subst same
    by_cases token : IsToken name <;> cases was <;> cases on <;>
      simp [rebuildToggle, Element.addClass, Element.removeClass, classWrite, token, Target.rebuild,
        Target.clear, Target.build, Change.taken, Write.name, Write.isText, Format.onText]
  · by_cases token : IsToken name <;> by_cases token' : IsToken prev <;> cases was <;> cases on <;>
      simp [rebuildToggle, same, Ne.symm same, Element.addClass, Element.removeClass, classWrite, token,
        token', Target.rebuild, Target.clear, Target.build, Change.taken, Write.name, Write.isText,
        Format.onText]

theorem rebuild_property (old new : List Char × Option (List Char)) (names : old.1 = new.1)
    (el : Element) :
    rebuildProperty css new el old =
      (⟨el.classAttr,
        css.onStyle.rebuild el.styleAttr ⟨property.styleWrite old, property.styleWrite new⟩⟩, new) := by
  obtain ⟨name, old⟩ := old
  obtain ⟨name', new⟩ := new
  cases names
  cases old with
  | none =>
    cases new with
    | none => simp [rebuildProperty, rebuildStyleValue, styleWrite, Target.rebuild]
    | some new =>
      simp [rebuildProperty, rebuildStyleValue, styleWrite, Target.rebuild, Target.clear, Target.build,
        Change.taken, Write.name, Write.isText, Element.setCssProperty, Css.onStyle]
  | some old =>
    cases new with
    | none =>
      simp [rebuildProperty, rebuildStyleValue, styleWrite, Target.rebuild, Target.clear, Target.build,
        Change.taken, Write.name, Write.isText, Element.removeCssProperty, Css.onStyle]
    | some new =>
      by_cases same : new = old
      · simp [rebuildProperty, rebuildStyleValue, styleWrite, Target.rebuild, same]
      · simp [rebuildProperty, rebuildStyleValue, styleWrite, Target.rebuild, Target.clear,
          Target.build, Change.taken, Write.name, Write.isText, Element.setCssProperty, Css.onStyle, same,
          Ne.symm same]

theorem rebuild_eq (kind : Kind) (old new : kind.Value) (keeps : kind.Keeps old new) (el : Element) :
    kind.rebuild css new (el, kind.stateOf old) =
      (⟨classList.onText.rebuild el.classAttr ⟨kind.classWrite old, kind.classWrite new⟩,
        css.onStyle.rebuild el.styleAttr ⟨kind.styleWrite old, kind.styleWrite new⟩⟩,
        kind.stateOf new) := by
  induction kind generalizing el with
  | text key => exact rebuild_text css key old new el
  | option key => exact rebuild_option css key old new el
  | toggle => exact rebuild_toggle old new el
  | property => exact rebuild_property css old new keeps el
  | either left right left_ih right_ih =>
    cases old with
    | inl old =>
      cases new with
      | inl new =>
        simp only [rebuild, left_ih old new keeps, classWrite, styleWrite, stateOf]
      | inr new => cases keeps
    | inr old =>
      cases new with
      | inl new => cases keeps
      | inr new =>
        simp only [rebuild, right_ih old new keeps, classWrite, styleWrite, stateOf]

end Kind

end Halyard.Attributes
