import Halyard.Hydration.Follow

/-!
# The position a part leaves

What a part leaves for the text after it: whether the server writes a separator before that text,
and whether the browser skips one.  Keyed lists, `Result` and `ErrorBoundary` each set one of the
two positions and not the other.

* `hydrate_isAfterText`: the browser takes the next text to follow a text if the last part that the
  view binds is one.
* `text_of_agree`: where the positions agree, the next text is bound to its own node.
* `endings_agree_iff`: when the positions after a keyed list, a `Result` or an `ErrorBoundary`
  agree.
-/

namespace Halyard.Hydration

variable {ι : Type*}

/-! ## The browser's position -/

mutual

/-- Whether the last part that the view binds is a text; `none` where it binds none. -/
def View.lastIsText : View ι → Option Bool
  | .text .. => some true
  | .primitive .. => some true
  | .unit _ => some false
  | .element .. => some false
  | .tuple first rest => (lastIsTextAll rest).or first.lastIsText
  | .array items => lastIsTextAll items
  | .either _ value => value.lastIsText
  | .vec .. => some false
  | .staticVec .. => some false
  | .any _ _ value => if value.exists_ then value.lastIsText else some false
  | .keyed .. => some false
  | .ok value => value.lastIsText
  | .err _ => some false
  | .errorBoundary children => children.lastIsText

def lastIsTextAll : List (View ι) → Option Bool
  | [] => none
  | view :: rest => (lastIsTextAll rest).or view.lastIsText

end

theorem getD_or (later earlier : Option Bool) (start : Bool) :
    (later.or earlier).getD start = later.getD (earlier.getD start) := by
  cases later <;> rfl

theorem isAfterText_nextPlaceholder (marks : Bool) (dom : List (Node ι)) (name : ι)
    (state : Hydrated ι) :
    (nextPlaceholder marks dom name state).position.isAfterText = false := by
  rw [nextPlaceholder, Hydrated.position_cast]
  rfl

mutual

theorem hydrate_isAfterText (marks : Bool) (dom : List (Node ι)) : ∀ (view : View ι)
    (state : Hydrated ι), (hydrate marks dom view state).position.isAfterText =
      view.lastIsText.getD state.position.isAfterText
  | .text .., _ => rfl
  | .primitive .., _ => rfl
  | .unit _, _ => isAfterText_nextPlaceholder ..
  | .element .., _ => by
      rw [hydrate]
      rfl
  | .tuple first rest, state => by
      rw [hydrate, hydrateAll_isAfterText marks dom rest, hydrate_isAfterText marks dom first,
        View.lastIsText, getD_or]
  | .array items, state => hydrateAll_isAfterText marks dom items state
  | .either _ value, state => hydrate_isAfterText marks dom value state
  | .vec .., _ => isAfterText_nextPlaceholder ..
  | .staticVec .., _ => isAfterText_nextPlaceholder ..
  | .any _ _ value, state => by
      rw [hydrate, View.lastIsText]
      cases value.exists_ with
      | true => exact hydrate_isAfterText marks dom value state
      | false => exact isAfterText_nextPlaceholder ..
  | .keyed .., _ => isAfterText_nextPlaceholder ..
  | .ok value, state => hydrate_isAfterText marks dom value state
  | .err _, _ => isAfterText_nextPlaceholder ..
  | .errorBoundary children, state => hydrate_isAfterText marks dom children state

theorem hydrateAll_isAfterText (marks : Bool) (dom : List (Node ι)) : ∀ (views : List (View ι))
    (state : Hydrated ι), (hydrateAll marks dom views state).position.isAfterText =
      (lastIsTextAll views).getD state.position.isAfterText
  | [], _ => rfl
  | view :: rest, state => by
      rw [hydrateAll, hydrateAll_isAfterText marks dom rest, hydrate_isAfterText marks dom view,
        lastIsTextAll, getD_or]

end

/-! ## The text after a part -/

/-- The positions that the server and the browser leave after a view agree on whether the next text
follows a text. -/
def PositionsAgree (marks : Bool) (dom : List (Node ι)) (view : View ι) (state : Hydrated ι) :
    Prop :=
  (toHtmlWithBuf marks view true state.position).2.isAfterText =
    (hydrate marks dom view state).position.isAfterText

/-- The text that the server writes next is the text that the browser binds next, wherever the view
and the parts before it (`done`) were bound to their own nodes. -/
def NextTextBound (marks : Bool) (dom : List (Node ι)) (view : View ι) (state : Hydrated ι) :
    Prop :=
  ∀ (parent : Path) (done rest : List (Step ι)) (name : ι) (content : String),
    InStep parent done (hydrate marks dom view state) →
    (∀ other ∈ nodesOf done, other.isBranch = true → marks = true) →
    childrenAt dom parent = nodesOf done ++
      ((if (toHtmlWithBuf marks view true state.position).2.isAfterText then [.comment none ""]
        else []) ++ .text [name] content :: nodesOf rest) →
    ∃ own, (childrenAt dom parent)[own]? = some (.text [name] content) ∧
      (hydrateText marks dom name (hydrate marks dom view state)).failed = false ∧
      (hydrateText marks dom name (hydrate marks dom view state)).bound =
        (hydrate marks dom view state).bound ++ [(name, own :: parent)]

theorem nextTextBound_of_agree {marks : Bool} {dom : List (Node ι)} {view : View ι}
    {state : Hydrated ι} (agree : PositionsAgree marks dom view state) :
    NextTextBound marks dom view state := by
  intro parent done rest name content inStep marked row
  cases after : (toHtmlWithBuf marks view true state.position).2.isAfterText with
  | true =>
      rw [after] at row
      rw [PositionsAgree, after] at agree
      have keeps : KeepsStep marks dom parent done (.text name content true true true) _ :=
        (text_step inStep (by simpa [Step.nodes] using row) marked).1 rfl
      rw [hydrateText_eq marks dom name content true true _ agree]
      refine ⟨(nodesOf done).length + 1, by simp [row], keeps.1.fine, ?_⟩
      simpa [Step.nodes, writtenIn, Node.written] using keeps.2
  | false =>
      rw [after] at row
      rw [PositionsAgree, after] at agree
      have keeps : KeepsStep marks dom parent done (.text name content true false false) _ :=
        (text_step inStep (by simpa [Step.nodes] using row) marked).1 rfl
      rw [hydrateText_eq marks dom name content true false _ agree]
      refine ⟨(nodesOf done).length, by simp [row], keeps.1.fine, ?_⟩
      simpa [Step.nodes, writtenIn, Node.written] using keeps.2

/-- The positions agree, so that the next text is bound. -/
def EndingsAgree (marks : Bool) (dom : List (Node ι)) (view : View ι) (state : Hydrated ι) : Prop :=
  PositionsAgree marks dom view state ∧ NextTextBound marks dom view state

theorem endingsAgree_iff {marks : Bool} {dom : List (Node ι)} {view : View ι}
    {state : Hydrated ι} :
    EndingsAgree marks dom view state ↔ PositionsAgree marks dom view state :=
  ⟨fun both => both.1, fun agree => ⟨agree, nextTextBound_of_agree agree⟩⟩

/-! ## Keyed lists, `Result`, `ErrorBoundary` -/

/-- The server leaves a keyed list without items at the position it started at. -/
theorem itemsToHtml_isAfterText (marks escape : Bool) (items : List (String × View ι))
    (position : Position) :
    (itemsToHtml marks items escape position).2.isAfterText =
      (items.isEmpty && position.isAfterText) := by
  induction items generalizing position with
  | nil => rfl
  | cons item rest ih =>
      rcases item with ⟨key, view⟩
      rw [itemsToHtml]
      simp only [ih]
      simp [Position.isAfterText]

theorem isAfterText_eq_true {position : Position} :
    position.isAfterText = true ↔ position = .nextChildAfterText := by
  simp [Position.isAfterText]

theorem keyed_agree (marks : Bool) (dom : List (Node ι)) (marker : ι)
    (items : List (String × View ι)) (state : Hydrated ι) :
    PositionsAgree marks dom (.keyed marker items) state ↔
      items ≠ [] ∨ state.position ≠ .nextChildAfterText := by
  rw [PositionsAgree, hydrate_isAfterText, toHtmlWithBuf]
  simp only [itemsToHtml_isAfterText, View.lastIsText, Option.getD_some]
  rw [Bool.and_eq_false_iff, ne_eq, ne_eq, ← isAfterText_eq_true, Bool.not_eq_true]
  simp

theorem err_agree (marks : Bool) (dom : List (Node ι)) (placeholder : ι) (state : Hydrated ι) :
    PositionsAgree marks dom (.err placeholder) state ↔
      state.position ≠ .nextChildAfterText := by
  rw [PositionsAgree, hydrate_isAfterText, ne_eq, ← isAfterText_eq_true, Bool.not_eq_true]
  rfl

theorem ok_agree (marks : Bool) (dom : List (Node ι)) (value : View ι) (state : Hydrated ι) :
    PositionsAgree marks dom (.ok value) state ↔ PositionsAgree marks dom value state :=
  Iff.rfl

theorem errorBoundary_agree (marks : Bool) (dom : List (Node ι)) (children : View ι)
    (state : Hydrated ι) :
    PositionsAgree marks dom (.errorBoundary children) state ↔
      (∀ text, children.lastIsText = some text →
        (text = true ↔ state.position = .nextChildAfterText)) := by
  rw [PositionsAgree, hydrate_isAfterText, ← isAfterText_eq_true]
  cases last : children.lastIsText with
  | none => simp [toHtmlWithBuf, View.lastIsText, last]
  | some text =>
      cases text <;> cases start : state.position.isAfterText <;>
        simp [toHtmlWithBuf, View.lastIsText, last, start]

/-- A keyed list agrees with itself unless it is empty after a text, an error unless it comes after
a text, and a boundary unless the last part it binds is a text where it started after none, or the
other way around; an `Ok` does what its value does. -/
theorem endings_agree_iff (marks : Bool) (dom : List (Node ι)) (state : Hydrated ι) :
    (∀ marker items, EndingsAgree marks dom (.keyed marker items) state ↔
      items ≠ [] ∨ state.position ≠ .nextChildAfterText) ∧
    (∀ placeholder, EndingsAgree marks dom (.err placeholder) state ↔
      state.position ≠ .nextChildAfterText) ∧
    (∀ value, EndingsAgree marks dom (.ok value) state ↔ EndingsAgree marks dom value state) ∧
    (∀ children, EndingsAgree marks dom (.errorBoundary children) state ↔
      (∀ text, children.lastIsText = some text →
        (text = true ↔ state.position = .nextChildAfterText))) := by
  simp only [endingsAgree_iff]
  exact ⟨fun marker items => keyed_agree marks dom marker items state,
    fun placeholder => err_agree marks dom placeholder state,
    fun value => ok_agree marks dom value state,
    fun children => errorBoundary_agree marks dom children state⟩

/-- After a text, an empty keyed list leaves the server after that text and the browser after its
marker; the browser then takes the separator before the next text for the text itself. -/
theorem not_endings_agree_empty_keyed :
    ¬ PositionsAgree false [] (View.keyed 1 [])
      { cursor := [0], position := .nextChildAfterText, bound := [(0, [0])] } ∧
    ¬ Hydrates false (View.tuple (.text 0 "a") [.keyed 1 [], .text 2 "b"]) := by
  have plain : (View.tuple (.text 0 "a") [.keyed 1 [], .text 2 "b"]).Plain := by
    simp [View.Plain, AllPlain, ItemsPlain]
  rw [hydrates_iff plain, keyed_agree]
  decide

end Halyard.Hydration
