import Halyard.Hydration.Dom

/-!
# One script for the server and the browser

Rendering and hydration walk a view separately.  `script` walks it once and lists, for one parent
element, what both do in turn: each `Step` is what the server writes there together with what the
browser looks for.  A text step says whether the server wrote a separator before it (`separated`)
and whether the browser skips one (`skips`); nothing in a step makes the two equal.

* `toHtml_eq_write`: the server writes the script's HTML.
* `hydrate_eq_follow`: the browser follows the script's steps.

Both are about views whose elements have neither raw-text children nor `inner_html`
(`View.Plain`), where every part is rendered escaped.
-/

namespace Halyard.Hydration

variable {ι : Type*}

/-! ## Steps -/

inductive Step (ι : Type*) where
  /-- A branch marker. -/
  | branch (opens : Bool) (name : String)
  | text (name : ι) (content : String) (escaped separated skips : Bool)
  | placeholder (name : ι) (content : String)
  | void (name : ι) (tag attributes : String)
  | element (name : ι) (tag attributes : String) (children : List (Step ι))

/-- The text of a branch marker. -/
def branchText (opens : Bool) (name : String) : String :=
  (if opens then "bo-" else "bc-") ++ name

mutual

/-- The HTML of a step. -/
def Step.write : Step ι → List (Piece ι)
  | .branch opens name => [.comment none (branchText opens name)]
  | .text name content escaped separated _ =>
      (if separated then [.comment none ""] else []) ++ [.text (some name) content escaped]
  | .placeholder name content => [.comment (some name) content]
  | .void name tag attributes => [.voidTag name tag attributes]
  | .element name tag attributes children =>
      .openTag name tag attributes :: writeAll children ++ [.closeTag tag]

def writeAll : List (Step ι) → List (Piece ι)
  | [] => []
  | step :: rest => step.write ++ writeAll rest

end

mutual

/-- What the browser does at a step. -/
def Step.follow (marks : Bool) (dom : List (Node ι)) : Step ι → Hydrated ι → Hydrated ι
  | .branch _ _, state => state
  | .text name _ _ _ skips, state =>
      let state := state.advance marks dom
      let state := if skips then state.goto (siblingOf marks dom) else state
      { state.cast dom .text name with position := .nextChildAfterText }
  | .placeholder name _, state => nextPlaceholder marks dom name state
  | .void name _ _, state =>
      { (state.advance marks dom).cast dom .element name with position := .nextChild }
  | .element name _ _ children, state =>
      let state := (state.advance marks dom).cast dom .element name
      let inside := followAll marks dom children { state with position := .firstChild }
      { inside.goto fun _ => state.cursor with position := .nextChild }

def followAll (marks : Bool) (dom : List (Node ι)) : List (Step ι) → Hydrated ι → Hydrated ι
  | [], state => state
  | step :: rest, state => followAll marks dom rest (step.follow marks dom state)

end

@[simp] theorem writeAll_append (left right : List (Step ι)) :
    writeAll (left ++ right) = writeAll left ++ writeAll right := by
  induction left with
  | nil => rfl
  | cons step left ih => simp [writeAll, ih]

@[simp] theorem followAll_append (marks : Bool) (dom : List (Node ι)) (left right : List (Step ι))
    (state : Hydrated ι) :
    followAll marks dom (left ++ right) state =
      followAll marks dom right (followAll marks dom left state) := by
  induction left generalizing state with
  | nil => rfl
  | cons step left ih => simp [followAll, ih]

/-! ## The script of a view -/

/-- The flags of the next part: whether the server, and whether the browser, takes it to follow a
text. -/
structure Flags where
  server : Bool := false
  browser : Bool := false
deriving DecidableEq

def branchSteps (marks opens : Bool) (name : String) : List (Step ι) :=
  if marks then [.branch opens name] else []

/-- The flags after a branch is closed. -/
def Flags.close (marks : Bool) (flags : Flags) : Flags :=
  { flags with server := flags.server && !marks }

mutual

/-- The steps of a view, and the flags it leaves for the next part. -/
def script (marks : Bool) : View ι → Flags → List (Step ι) × Flags
  | .text name content, flags =>
      ([.text name (if content.isEmpty then " " else content) true flags.server flags.browser],
        ⟨true, true⟩)
  | .primitive name escapes shown, flags =>
      ([.text name shown.text escapes flags.server flags.browser], ⟨true, true⟩)
  | .unit name, _ => ([.placeholder name ""], {})
  | .element name type attributes children, _ =>
      if type.selfClosing then ([.void name type.tag attributes.tag], {})
      else
        let inner := if children.exists_ then (script marks children {}).1 else []
        ([.element name type.tag attributes.tag inner], {})
  | .tuple first rest, flags =>
      let (steps, flags) := script marks first flags
      let (restSteps, flags) := scriptAll marks rest flags
      (steps ++ restSteps, flags)
  | .array items, flags => scriptAll marks items flags
  | .either variant value, flags =>
      let (steps, flags) := script marks value flags
      (branchSteps marks true variant ++ steps ++ branchSteps marks false variant,
        flags.close marks)
  | .vec marker items, flags =>
      ((scriptAll marks items flags).1 ++ [.placeholder marker ""], {})
  | .staticVec marker items, flags =>
      ((scriptAll marks items flags).1 ++ [.placeholder marker ""], {})
  | .any placeholder typeId value, flags =>
      let (steps, flags) := script marks value flags
      let missing := if value.exists_ then [] else [.placeholder placeholder "<() />"]
      let flags := if value.exists_ then flags else { flags with browser := false }
      (branchSteps marks true typeId ++ steps ++ missing ++ branchSteps marks false typeId,
        flags.close marks)
  | .keyed marker items, flags =>
      let (steps, flags) := scriptItems marks items flags
      (branchSteps marks true "for" ++ steps ++ branchSteps marks false "for" ++
        [.placeholder marker ""], { flags with browser := false })
  | .ok value, flags => script marks value flags
  | .err placeholder, flags => ([.placeholder placeholder ""], { flags with browser := false })
  | .errorBoundary children, flags =>
      let (steps, inner) := script marks children flags
      (steps, { flags with browser := inner.browser })

def scriptAll (marks : Bool) : List (View ι) → Flags → List (Step ι) × Flags
  | [], flags => ([], flags)
  | view :: rest, flags =>
      let (steps, flags) := script marks view flags
      let (restSteps, flags) := scriptAll marks rest flags
      (steps ++ restSteps, flags)

def scriptItems (marks : Bool) : List (String × View ι) → Flags → List (Step ι) × Flags
  | [], flags => ([], flags)
  | (key, view) :: rest, flags =>
      let (steps, flags) := script marks view flags
      let (restSteps, flags) := scriptItems marks rest { flags with server := false }
      (branchSteps marks true ("item-" ++ key) ++ steps ++
        branchSteps marks false ("item-" ++ key) ++ restSteps, flags)

end

/-! ## Plain views -/

/-- An element whose children are rendered escaped, and which has children only if it has a closing
tag. -/
def PlainElement (type : ElementType) (attributes : AttributesHtml) (children : View ι) : Prop :=
  type.escapeChildren = true ∧ attributes.innerHtml = "" ∧
    (type.selfClosing = true → children.exists_ = false)

mutual

/-- No element of the view is a raw-text element or has an `inner_html`. -/
def View.Plain : View ι → Prop
  | .text .. => True
  | .primitive .. => True
  | .unit _ => True
  | .element _ type attributes children => PlainElement type attributes children ∧ children.Plain
  | .tuple first rest => first.Plain ∧ AllPlain rest
  | .array items => AllPlain items
  | .either _ value => value.Plain
  | .vec _ items => AllPlain items
  | .staticVec _ items => AllPlain items
  | .any _ _ value => value.Plain
  | .keyed _ items => ItemsPlain items
  | .ok value => value.Plain
  | .err _ => True
  | .errorBoundary children => children.Plain

def AllPlain : List (View ι) → Prop
  | [] => True
  | view :: rest => view.Plain ∧ AllPlain rest

def ItemsPlain : List (String × View ι) → Prop
  | [] => True
  | (_, view) :: rest => view.Plain ∧ ItemsPlain rest

end

/-! ## The server -/

/-- Whether the next part follows a text. -/
def Position.isAfterText (position : Position) : Bool := position == .nextChildAfterText

@[simp] theorem write_branchSteps (marks opens : Bool) (name : String) :
    writeAll (branchSteps marks opens name : List (Step ι)) =
      if opens then openBranch marks name else closeBranch marks name := by
  cases marks <;> cases opens <;>
    simp [branchSteps, openBranch, closeBranch, writeAll, Step.write, branchText]

theorem separator_eq (position : Position) : (separator position : List (Piece ι)) =
    if position.isAfterText then [.comment none ""] else [] := by
  cases position <;> rfl

theorem isAfterText_afterBranch (marks : Bool) (position : Position) :
    (afterBranch marks position).isAfterText = (position.isAfterText && !marks) := by
  cases marks <;> cases position <;> rfl

mutual

/-- The server writes the script of a view. -/
theorem toHtml_eq_write (marks : Bool) : ∀ (view : View ι), view.Plain →
    ∀ (position : Position) (flags : Flags), flags.server = position.isAfterText →
      (toHtmlWithBuf marks view true position).1 = writeAll (script marks view flags).1 ∧
      (script marks view flags).2.server = (toHtmlWithBuf marks view true position).2.isAfterText
  | .text name content, _, position, flags, same => by
      simp [toHtmlWithBuf, script, writeAll, Step.write, separator_eq, same, Position.isAfterText]
  | .primitive name escapes shown, _, position, flags, same => by
      simp [toHtmlWithBuf, script, writeAll, Step.write, separator_eq, same, Position.isAfterText]
  | .unit name, _, position, flags, same => by
      simp [toHtmlWithBuf, script, writeAll, Step.write, Position.isAfterText]
  | .element name type attributes children, plain, position, flags, same => by
      have inner := toHtml_eq_write marks children plain.2 .firstChild {} rfl
      rcases plain.1 with ⟨escapes, noInner, -⟩
      cases closing : type.selfClosing with
      | true => simp [toHtmlWithBuf, script, closing, writeAll, Step.write, Position.isAfterText]
      | false =>
          cases present : children.exists_ <;>
            simp [toHtmlWithBuf, script, closing, present, escapes, noInner, inner.1, writeAll,
              Step.write, Position.isAfterText]
  | .tuple first rest, plain, position, flags, same => by
      have head := toHtml_eq_write marks first plain.1 position flags same
      have tail := allToHtml_eq_write marks rest plain.2 _ _ head.2
      exact ⟨by simp [toHtmlWithBuf, script, head.1, tail.1], tail.2⟩
  | .array items, plain, position, flags, same =>
      allToHtml_eq_write marks items plain position flags same
  | .either variant value, plain, position, flags, same => by
      have inner := toHtml_eq_write marks value plain position flags same
      refine ⟨?_, ?_⟩
      · simp [toHtmlWithBuf, script, inner.1]
      · simp [toHtmlWithBuf, script, Flags.close, isAfterText_afterBranch, inner.2]
  | .vec marker items, plain, position, flags, same => by
      have inner := allToHtml_eq_write marks items plain position flags same
      simp [toHtmlWithBuf, script, inner.1, writeAll, Step.write, Position.isAfterText]
  | .staticVec marker items, plain, position, flags, same => by
      have inner := allToHtml_eq_write marks items plain position flags same
      simp [toHtmlWithBuf, script, inner.1, writeAll, Step.write, Position.isAfterText]
  | .any placeholder typeId value, plain, position, flags, same => by
      have inner := toHtml_eq_write marks value plain position flags same
      refine ⟨?_, ?_⟩
      · cases present : value.exists_ <;>
          simp [toHtmlWithBuf, script, present, inner.1, writeAll, Step.write]
      · cases present : value.exists_ <;>
          simp [toHtmlWithBuf, script, present, Flags.close, isAfterText_afterBranch, inner.2]
  | .keyed marker items, plain, position, flags, same => by
      have inner := itemsToHtml_eq_write marks items plain position flags same
      simp [toHtmlWithBuf, script, inner.1, inner.2, writeAll, Step.write]
  | .ok value, plain, position, flags, same => toHtml_eq_write marks value plain position flags same
  | .err placeholder, _, position, flags, same => by
      simp [toHtmlWithBuf, script, writeAll, Step.write, same]
  | .errorBoundary children, plain, position, flags, same => by
      have inner := toHtml_eq_write marks children plain position flags same
      simp [toHtmlWithBuf, script, inner.1, same]

theorem allToHtml_eq_write (marks : Bool) : ∀ (views : List (View ι)), AllPlain views →
    ∀ (position : Position) (flags : Flags), flags.server = position.isAfterText →
      (allToHtml marks views true position).1 = writeAll (scriptAll marks views flags).1 ∧
      (scriptAll marks views flags).2.server = (allToHtml marks views true position).2.isAfterText
  | [], _, position, flags, same => ⟨rfl, same⟩
  | view :: rest, plain, position, flags, same => by
      have head := toHtml_eq_write marks view plain.1 position flags same
      have tail := allToHtml_eq_write marks rest plain.2 _ _ head.2
      exact ⟨by simp [allToHtml, scriptAll, head.1, tail.1], tail.2⟩

theorem itemsToHtml_eq_write (marks : Bool) : ∀ (items : List (String × View ι)),
    ItemsPlain items → ∀ (position : Position) (flags : Flags),
      flags.server = position.isAfterText →
      (itemsToHtml marks items true position).1 = writeAll (scriptItems marks items flags).1 ∧
      (scriptItems marks items flags).2.server =
        (itemsToHtml marks items true position).2.isAfterText
  | [], _, position, flags, same => ⟨rfl, same⟩
  | (key, view) :: rest, plain, position, flags, same => by
      have head := toHtml_eq_write marks view plain.1 position flags same
      have tail := itemsToHtml_eq_write marks rest plain.2 .nextChild
        { (script marks view flags).2 with server := false } rfl
      exact ⟨by simp [itemsToHtml, scriptItems, head.1, tail.1], tail.2⟩

end

/-! ## The browser -/

/-- The position is one that hydration goes through, and `flags` says whether it follows a text. -/
def Hydrated.At (state : Hydrated ι) (flags : Flags) : Prop :=
  state.position ≠ .current ∧ flags.browser = state.position.isAfterText

theorem Hydrated.position_goto (state : Hydrated ι) (step : Path → Path) :
    (state.goto step).position = state.position := by
  unfold Hydrated.goto
  split <;> rfl

theorem Hydrated.position_advance (marks : Bool) (dom : List (Node ι)) (state : Hydrated ι) :
    (state.advance marks dom).position = state.position := by
  unfold Hydrated.advance
  split <;> exact position_goto _ _

theorem Hydrated.position_cast (dom : List (Node ι)) (kind : Kind) (name : ι)
    (state : Hydrated ι) : (state.cast dom kind name).position = state.position := by
  unfold Hydrated.cast
  split
  · rfl
  · split <;> rfl

/-- Going to where the cursor is changes nothing. -/
theorem Hydrated.goto_self (state : Hydrated ι) :
    (state.goto fun _ => state.cursor) = state := by
  unfold Hydrated.goto
  split <;> rfl

theorem script_element_flags (marks : Bool) (name : ι) (type : ElementType)
    (attributes : AttributesHtml) (children : View ι) (flags : Flags) :
    (script marks (.element name type attributes children) flags).2 = {} := by
  cases closing : type.selfClosing <;> simp [script, closing]

theorem nextPlaceholder_at (marks : Bool) (dom : List (Node ι)) (name : ι) (state : Hydrated ι)
    (flags : Flags) (left : flags.browser = false) :
    (nextPlaceholder marks dom name state).At flags := by
  simp [Hydrated.At, nextPlaceholder, Hydrated.position_cast, Position.isAfterText, left]

@[simp] theorem followAll_branchSteps (marks : Bool) (dom : List (Node ι)) (marked opens : Bool)
    (name : String) (state : Hydrated ι) :
    followAll marks dom (branchSteps marked opens name) state = state := by
  cases marked <;> rfl

theorem hydrateText_eq (marks : Bool) (dom : List (Node ι)) (name : ι) (content : String)
    (escaped separated : Bool) (state : Hydrated ι) {skips : Bool}
    (here : skips = state.position.isAfterText) :
    hydrateText marks dom name state =
      (Step.text name content escaped separated skips).follow marks dom state := by
  have after : (state.advance marks dom).position = .nextChildAfterText ↔ skips = true := by
    rw [here, Hydrated.position_advance]
    simp [Position.isAfterText]
  by_cases skip : skips = true
  · simp [hydrateText, Step.follow, after.2 skip, skip]
  · have stays : ¬ (state.advance marks dom).position = .nextChildAfterText := fun text =>
      skip (after.1 text)
    simp [hydrateText, Step.follow, stays, skip]

mutual

/-- The browser follows the script of a view. -/
theorem hydrate_eq_follow (marks : Bool) (dom : List (Node ι)) : ∀ (view : View ι), view.Plain →
    ∀ (state : Hydrated ι) (flags : Flags), state.At flags →
      hydrate marks dom view state = followAll marks dom (script marks view flags).1 state ∧
      (hydrate marks dom view state).At (script marks view flags).2
  | .text name content, _, state, flags, here => by
      refine ⟨hydrateText_eq marks dom name content true flags.server state here.2, ?_⟩
      simp [hydrate, hydrateText, script, Hydrated.At, Position.isAfterText]
  | .primitive name escapes shown, _, state, flags, here => by
      refine ⟨hydrateText_eq marks dom name shown.text escapes flags.server state here.2, ?_⟩
      simp [hydrate, hydrateText, script, Hydrated.At, Position.isAfterText]
  | .unit name, _, state, flags, here =>
      ⟨rfl, nextPlaceholder_at marks dom name state _ rfl⟩
  | .element name type attributes children, plain, state, flags, here => by
      have inner := hydrate_eq_follow marks dom children plain.2
        { (state.advance marks dom).cast dom .element name with position := .firstChild } {}
        ⟨by simp, rfl⟩
      rcases plain.1 with ⟨escapes, -, void⟩
      refine ⟨?_, by simp [hydrate, script_element_flags, Hydrated.At, Position.isAfterText]⟩
      cases closing : type.selfClosing with
      | true =>
          simp [hydrate, script, closing, void closing, here.1, followAll, Step.follow,
            Hydrated.goto_self]
      | false =>
          cases present : children.exists_ <;>
            simp [hydrate, script, closing, present, escapes, here.1, followAll, Step.follow,
              Hydrated.goto_self, inner.1]

  | .tuple first rest, plain, state, flags, here => by
      have head := hydrate_eq_follow marks dom first plain.1 state flags here
      have tail := hydrateAll_eq_follow marks dom rest plain.2 _ _ head.2
      refine ⟨?_, tail.2⟩
      simp only [hydrate, script, followAll_append, ← head.1, tail.1]
  | .array items, plain, state, flags, here =>
      hydrateAll_eq_follow marks dom items plain state flags here
  | .either variant value, plain, state, flags, here => by
      have inner := hydrate_eq_follow marks dom value plain state flags here
      exact ⟨by simp [hydrate, script, inner.1], inner.2⟩
  | .vec marker items, plain, state, flags, here => by
      have inner := hydrateAll_eq_follow marks dom items plain state flags here
      refine ⟨?_, nextPlaceholder_at marks dom marker _ _ rfl⟩
      simp [hydrate, script, followAll, Step.follow, inner.1]
  | .staticVec marker items, plain, state, flags, here => by
      have inner := hydrateAll_eq_follow marks dom items plain state flags here
      refine ⟨?_, nextPlaceholder_at marks dom marker _ _ rfl⟩
      simp [hydrate, script, followAll, Step.follow, inner.1]
  | .any placeholder typeId value, plain, state, flags, here => by
      have inner := hydrate_eq_follow marks dom value plain state flags here
      cases present : value.exists_ with
      | true =>
          refine ⟨by simp [hydrate, script, present, inner.1], ?_⟩
          simpa [hydrate, script, present, Hydrated.At, Flags.close] using inner.2
      | false =>
          refine ⟨by simp [hydrate, script, present, inner.1, followAll, Step.follow], ?_⟩
          simpa [hydrate, script, present] using
            nextPlaceholder_at marks dom placeholder _ _ rfl
  | .keyed marker items, plain, state, flags, here => by
      have inner := hydrateItems_eq_follow marks dom items plain state flags here
      refine ⟨?_, nextPlaceholder_at marks dom marker _ _ rfl⟩
      simp [hydrate, script, followAll, Step.follow, inner.1]
  | .ok value, plain, state, flags, here => hydrate_eq_follow marks dom value plain state flags here
  | .err placeholder, _, state, flags, here =>
      ⟨rfl, nextPlaceholder_at marks dom placeholder state _ rfl⟩
  | .errorBoundary children, plain, state, flags, here => by
      have inner := hydrate_eq_follow marks dom children plain state flags here
      exact ⟨inner.1, inner.2⟩

theorem hydrateAll_eq_follow (marks : Bool) (dom : List (Node ι)) : ∀ (views : List (View ι)),
    AllPlain views → ∀ (state : Hydrated ι) (flags : Flags), state.At flags →
      hydrateAll marks dom views state =
        followAll marks dom (scriptAll marks views flags).1 state ∧
      (hydrateAll marks dom views state).At (scriptAll marks views flags).2
  | [], _, state, flags, here => ⟨rfl, here⟩
  | view :: rest, plain, state, flags, here => by
      have head := hydrate_eq_follow marks dom view plain.1 state flags here
      have tail := hydrateAll_eq_follow marks dom rest plain.2 _ _ head.2
      refine ⟨?_, tail.2⟩
      simp only [hydrateAll, scriptAll, followAll_append, ← head.1, tail.1]

theorem hydrateItems_eq_follow (marks : Bool) (dom : List (Node ι)) :
    ∀ (items : List (String × View ι)), ItemsPlain items →
      ∀ (state : Hydrated ι) (flags : Flags), state.At flags →
      hydrateItems marks dom items state =
        followAll marks dom (scriptItems marks items flags).1 state ∧
      (hydrateItems marks dom items state).At (scriptItems marks items flags).2
  | [], _, state, flags, here => ⟨rfl, here⟩
  | (key, view) :: rest, plain, state, flags, here => by
      have head := hydrate_eq_follow marks dom view plain.1 state flags here
      have tail := hydrateItems_eq_follow marks dom rest plain.2 (hydrate marks dom view state)
        { (script marks view flags).2 with server := false } head.2
      refine ⟨?_, tail.2⟩
      simp only [hydrateItems, scriptItems, followAll_append, followAll_branchSteps, ← head.1, tail.1]

end

end Halyard.Hydration
