import Halyard.Ssr.Suspense

/-!
# Separators between texts in an in-order stream

A text is written after a separator when the position says that a text stands before it.  A pending
part hands on `NextChild` whatever its content will be, so the text after it has no separator even
if the content ends with a text; and the content of a `Suspend` that a `Suspense` has resolved is
rendered where a pending `Suspend` writes nothing.

* `delivered_eq_iff`: apart from these two cases, what is delivered does not depend on which parts
  were pending; in each of them it does.
* `forgotten_separator`: a pending text before a text.
-/

namespace Halyard.Ssr

open Hydration

variable {ι : Type}

/-! ## Where a separator is forgotten -/

mutual

/-- Whether the part, when it is ready, leaves the position after a text. -/
def endsInText (markBranches : Bool) : Part ι → Scope → (escape : Bool) → Bool
  | .text .., _, _ => true
  | .element .., _, _ => false
  | .tuple first rest, scope, escape =>
      allEndInText markBranches rest scope escape (endsInText markBranches first scope escape)
  | .suspend _ content, scope, escape =>
      match scope with
      | .resolved => endsInText markBranches content .inside escape && !(markBranches && escape)
      | scope => endsInText markBranches content scope escape
  | .suspense _ content, _, escape =>
      endsInText markBranches content .resolved escape && !(markBranches && escape)

def allEndInText (markBranches : Bool) : List (Part ι) → Scope → (escape : Bool) → Bool → Bool
  | [], _, _, before => before
  | part :: rest, scope, escape, _ =>
      allEndInText markBranches rest scope escape (endsInText markBranches part scope escape)

end

mutual

/-- Whether the part ends with a text and hands on a position that forgets it. -/
def forgets (markBranches : Bool) : Part ι → Scope → (escape : Bool) → Bool
  | .text .., _, _ => false
  | .element .., _, _ => false
  | .tuple first rest, scope, escape =>
      allForget markBranches rest scope escape (forgets markBranches first scope escape)
  | .suspend delay content, scope, escape =>
      match scope with
      | .resolved => forgets markBranches content .inside escape && !(markBranches && escape)
      | .inside => forgets markBranches content .inside escape
      | .outside =>
          if delay = 0 then forgets markBranches content .outside escape
          else endsInText markBranches content .outside escape
  | .suspense delay content, _, escape =>
      (if max delay (awaited content) = 0 then forgets markBranches content .resolved escape
        else endsInText markBranches content .resolved escape) && !(markBranches && escape)

def allForget (markBranches : Bool) : List (Part ι) → Scope → (escape : Bool) → Bool → Bool
  | [], _, _, before => before
  | part :: rest, scope, escape, _ =>
      allForget markBranches rest scope escape (forgets markBranches part scope escape)

end

mutual

/-- No text stands directly where the text before it is forgotten; `forgotten` says whether one is
where the part begins. -/
def Separate (markBranches : Bool) : Part ι → Scope → (escape forgotten : Bool) → Bool
  | .text .., _, _, forgotten => !forgotten
  | .element _ type attributes children, scope, _, _ =>
      type.selfClosing || !attributes.innerHtml.isEmpty ||
        Separate markBranches children scope type.escapeChildren false
  | .tuple first rest, scope, escape, forgotten =>
      Separate markBranches first scope escape forgotten &&
        AllSeparate markBranches rest scope escape (forgets markBranches first scope escape)
  | .suspend _ content, scope, escape, forgotten =>
      match scope with
      | .resolved => Separate markBranches content .inside escape forgotten
      | scope => Separate markBranches content scope escape forgotten
  | .suspense _ content, _, escape, forgotten =>
      Separate markBranches content .resolved escape forgotten

def AllSeparate (markBranches : Bool) : List (Part ι) → Scope → (escape forgotten : Bool) → Bool
  | [], _, _, _ => true
  | part :: rest, scope, escape, forgotten =>
      Separate markBranches part scope escape forgotten &&
        AllSeparate markBranches rest scope escape (forgets markBranches part scope escape)

end

mutual

/-- No pending `Suspend` is in the content of another that a `Suspense` has resolved. -/
def Kept : Part ι → Scope → Bool
  | .text .., _ => true
  | .element _ type attributes children, scope =>
      type.selfClosing || !attributes.innerHtml.isEmpty || Kept children scope
  | .tuple first rest, scope => Kept first scope && AllKept rest scope
  | .suspend delay content, scope =>
      match scope with
      | .resolved => Kept content .inside
      | .inside => delay = 0 && Kept content .inside
      | .outside => Kept content .outside
  | .suspense _ content, _ => Kept content .resolved

def AllKept : List (Part ι) → Scope → Bool
  | [], _ => true
  | part :: rest, scope => Kept part scope && AllKept rest scope

end

/-! ## Positions -/

/-- The position after a part. -/
def after (text : Bool) : Position :=
  if text then .nextChildAfterText else .nextChild

theorem afterBranch_after (marked text : Bool) :
    afterBranch marked (after text) = after (text && !marked) := by
  cases marked <;> cases text <;> rfl

mutual

theorem awaited_ready (part : Part ι) : awaited part.ready = 0 := by
  cases part with
  | text name content => rfl
  | element name type attributes children => exact awaited_ready children
  | tuple first rest =>
    unfold Part.ready awaited
    rw [awaited_ready first, allAwaited_ready rest, Nat.max_self]
  | suspend delay content => rfl
  | suspense delay content => rfl

theorem allAwaited_ready (parts : List (Part ι)) : allAwaited (allReady parts) = 0 := by
  cases parts with
  | nil => rfl
  | cons part rest =>
    unfold allReady allAwaited
    rw [awaited_ready part, allAwaited_ready rest, Nat.max_self]

end

/-- A ready `Suspense` is its children, in the branch of an `Either`. -/
theorem delivered_ready_suspense (markBranches : Bool) (delay : ℕ) (content : Part ι)
    (scope : Scope) (escape : Bool) (position : Position) :
    delivered markBranches (Part.suspense delay content).ready scope escape position =
      deliveredBranch (markBranches && escape) "1"
        (delivered markBranches content.ready .resolved escape position) := by
  simp [Part.ready, delivered, awaited_ready]

/-- Ready or pending, a `Suspense` writes its children, in the branch of an `Either`. -/
theorem delivered_suspense_html (markBranches : Bool) (delay : ℕ) (content : Part ι)
    (scope : Scope) (escape : Bool) (position : Position) :
    (delivered markBranches (.suspense delay content) scope escape position).1 =
      (deliveredBranch (markBranches && escape) "1"
        (delivered markBranches content .resolved escape position)).1 := by
  simp only [delivered]
  split <;> rfl

mutual

theorem delivered_ready_position (markBranches : Bool) (part : Part ι) (scope : Scope)
    (escape : Bool) (position : Position) :
    (delivered markBranches part.ready scope escape position).2 =
      after (endsInText markBranches part scope escape) := by
  cases part with
  | text name content => rfl
  | element name type attributes children =>
    unfold Part.ready delivered
    split <;> rfl
  | tuple first rest =>
    exact deliveredAll_ready_position markBranches rest scope escape _ _
      (delivered_ready_position markBranches first scope escape position)
  | suspend delay content =>
    cases scope with
    | resolved =>
      unfold Part.ready delivered endsInText
      simp only [deliveredBranch]
      rw [delivered_ready_position markBranches content, afterBranch_after]
    | outside => exact delivered_ready_position markBranches content .outside escape position
    | inside => exact delivered_ready_position markBranches content .inside escape position
  | suspense delay content =>
    rw [delivered_ready_suspense]
    unfold deliveredBranch endsInText
    rw [delivered_ready_position markBranches content, afterBranch_after]

theorem deliveredAll_ready_position (markBranches : Bool) (parts : List (Part ι)) (scope : Scope)
    (escape : Bool) (position : Position) (before : Bool) (here : position = after before) :
    (deliveredAll markBranches (allReady parts) scope escape position).2 =
      after (allEndInText markBranches parts scope escape before) := by
  cases parts with
  | nil => exact here
  | cons part rest =>
    exact deliveredAll_ready_position markBranches rest scope escape _ _
      (delivered_ready_position markBranches part scope escape position)

end

mutual

theorem endsInText_of_forgets (markBranches : Bool) (part : Part ι) (scope : Scope)
    (escape : Bool) (forgets_ : forgets markBranches part scope escape) :
    endsInText markBranches part scope escape := by
  cases part with
  | text name content => simp [forgets] at forgets_
  | element name type attributes children => simp [forgets] at forgets_
  | tuple first rest =>
    exact allEndInText_of_allForget markBranches rest scope escape _ _
      (endsInText_of_forgets markBranches first scope escape) forgets_
  | suspend delay content =>
    cases scope with
    | resolved =>
      simp only [forgets, endsInText, Bool.and_eq_true] at forgets_ ⊢
      exact ⟨endsInText_of_forgets markBranches content .inside escape forgets_.1, forgets_.2⟩
    | outside =>
      simp only [forgets, endsInText] at forgets_ ⊢
      split at forgets_
      · exact endsInText_of_forgets markBranches content .outside escape forgets_
      · exact forgets_
    | inside => exact endsInText_of_forgets markBranches content .inside escape forgets_
  | suspense delay content =>
    simp only [forgets, endsInText, Bool.and_eq_true] at forgets_ ⊢
    refine ⟨?_, forgets_.2⟩
    have inner := forgets_.1
    split at inner
    · exact endsInText_of_forgets markBranches content .resolved escape inner
    · exact inner

theorem allEndInText_of_allForget (markBranches : Bool) (parts : List (Part ι)) (scope : Scope)
    (escape : Bool) (forgotten text : Bool) (before : forgotten → text)
    (forgets_ : allForget markBranches parts scope escape forgotten) :
    allEndInText markBranches parts scope escape text := by
  cases parts with
  | nil => exact before forgets_
  | cons part rest =>
    exact allEndInText_of_allForget markBranches rest scope escape _ _
      (endsInText_of_forgets markBranches part scope escape) forgets_

end

mutual

theorem delivered_position (markBranches : Bool) (part : Part ι) (scope : Scope)
    (escape : Bool) (position : Position) (kept : Kept part scope) :
    (delivered markBranches part scope escape position).2 =
      after (endsInText markBranches part scope escape &&
        !forgets markBranches part scope escape) := by
  cases part with
  | text name content => rfl
  | element name type attributes children =>
    unfold delivered
    split <;> rfl
  | tuple first rest =>
    simp only [Kept, Bool.and_eq_true] at kept
    exact deliveredAll_position markBranches rest scope escape _ _ _ kept.2
      (delivered_position markBranches first scope escape position kept.1)
  | suspend delay content =>
    cases scope with
    | resolved =>
      have inner := delivered_position markBranches content .inside escape position kept
      simp only [delivered, deliveredBranch, endsInText, forgets]
      rw [inner, afterBranch_after]
      cases markBranches && escape <;> simp
    | outside =>
      cases delay with
      | zero => exact delivered_position markBranches content .outside escape position kept
      | succ delay => simp [delivered, endsInText, forgets, after]
    | inside =>
      simp only [Kept, Bool.and_eq_true, decide_eq_true_eq] at kept
      obtain ⟨rfl, kept⟩ := kept
      exact delivered_position markBranches content .inside escape position kept
  | suspense delay content =>
    have inner := delivered_position markBranches content .resolved escape position kept
    simp only [delivered, deliveredBranch, endsInText, forgets]
    split
    · rw [inner, afterBranch_after]
      cases markBranches && escape <;> simp
    · cases endsInText markBranches content .resolved escape <;>
        cases markBranches && escape <;> rfl

theorem deliveredAll_position (markBranches : Bool) (parts : List (Part ι)) (scope : Scope)
    (escape : Bool) (position : Position) (text forgotten : Bool) (kept : AllKept parts scope)
    (here : position = after (text && !forgotten)) :
    (deliveredAll markBranches parts scope escape position).2 =
      after (allEndInText markBranches parts scope escape text &&
        !allForget markBranches parts scope escape forgotten) := by
  cases parts with
  | nil => exact here
  | cons part rest =>
    simp only [AllKept, Bool.and_eq_true] at kept
    exact deliveredAll_position markBranches rest scope escape _ _ _ kept.2
      (delivered_position markBranches part scope escape position kept.1)

end

/-- How the position where a part begins compares with that when every part is ready. -/
def Begins (forgotten : Bool) (here ready : Position) : Prop :=
  if forgotten then here = .nextChild ∧ ready = .nextChildAfterText else here = ready

theorem begins_after (markBranches : Bool) (part : Part ι) (scope : Scope) (escape : Bool)
    (position readyPosition : Position) (kept : Kept part scope) :
    Begins (forgets markBranches part scope escape)
      (delivered markBranches part scope escape position).2
      (delivered markBranches part.ready scope escape readyPosition).2 := by
  rw [delivered_position markBranches part scope escape position kept,
    delivered_ready_position]
  have ends := endsInText_of_forgets markBranches part scope escape
  unfold Begins
  split
  · rename_i forgotten
    simp [ends forgotten, forgotten, after]
  · rename_i kept
    simp [kept]

/-! ## The HTML -/

/-- What is delivered is what is delivered when every part is ready, or it is shorter. -/
def Compared (same : Bool) (html ready : List (Piece ι)) : Prop :=
  if same then html = ready else (htmlText html).length < (htmlText ready).length

theorem Compared.refl (html : List (Piece ι)) : Compared true html html := rfl

theorem Compared.length_le {same : Bool} {html ready : List (Piece ι)}
    (compared : Compared same html ready) : (htmlText html).length ≤ (htmlText ready).length := by
  cases same with
  | true => exact (congrArg (fun h => (htmlText h).length) compared).le
  | false => exact le_of_lt compared

theorem Compared.append {same same' : Bool} {html ready html' ready' : List (Piece ι)}
    (first : Compared same html ready) (second : Compared same' html' ready') :
    Compared (same && same') (html ++ html') (ready ++ ready') := by
  have le := first.length_le
  have le' := second.length_le
  cases same with
  | true =>
    obtain rfl : html = ready := first
    cases same' with
    | true =>
      obtain rfl : html' = ready' := second
      rfl
    | false =>
      have lt : (htmlText html').length < (htmlText ready').length := second
      simpa [Compared] using lt
  | false =>
    have lt : (htmlText html).length < (htmlText ready).length := first
    simp only [Compared, Bool.false_and, Bool.false_eq_true, if_false, htmlText_append,
      List.length_append]
    omega

theorem Compared.around {same : Bool} {html ready : List (Piece ι)}
    (compared : Compared same html ready) (before behind : List (Piece ι)) :
    Compared same (before ++ html ++ behind) (before ++ ready ++ behind) := by
  have all := ((Compared.refl before).append compared).append (Compared.refl behind)
  simpa using all

theorem Compared.branch {same : Bool} {html ready : List (Piece ι) × Position}
    (compared : Compared same html.1 ready.1) (marked : Bool) (name : String) :
    Compared same (deliveredBranch marked name html).1 (deliveredBranch marked name ready).1 :=
  compared.around _ _

mutual

theorem delivered_compared (markBranches : Bool) (part : Part ι) (scope : Scope)
    (escape forgotten : Bool) {here ready : Position} (begins : Begins forgotten here ready)
    (kept : Kept part scope) :
    Compared (Separate markBranches part scope escape forgotten)
      (delivered markBranches part scope escape here).1
      (delivered markBranches part.ready scope escape ready).1 := by
  cases part with
  | text name content =>
    cases forgotten with
    | false =>
      obtain rfl : here = ready := begins
      exact Compared.refl _
    | true =>
      obtain ⟨rfl, rfl⟩ := begins
      simp [Compared, Separate, delivered, Part.ready, toHtmlWithBuf, separator, htmlText,
        Piece.html]
      omega
  | element name type attributes children =>
    simp only [Kept, Bool.or_eq_true] at kept
    simp only [Separate, Part.ready, delivered]
    cases void : type.selfClosing with
    | true => simpa using Compared.refl _
    | false =>
      cases inner : attributes.innerHtml.isEmpty with
      | false => simpa using Compared.refl _
      | true =>
        have keptChildren : Kept children scope := by simpa [void, inner] using kept
        have within := delivered_compared markBranches children scope type.escapeChildren false
          (show Begins false .firstChild .firstChild from rfl) keptChildren
        simpa using within.around [.openTag name type.tag attributes.tag] [.closeTag type.tag]
  | tuple first rest =>
    simp only [Kept, Bool.and_eq_true] at kept
    exact (delivered_compared markBranches first scope escape forgotten begins kept.1).append
      (deliveredAll_compared markBranches rest scope escape _
        (begins_after markBranches first scope escape _ _ kept.1) kept.2)
  | suspend delay content =>
    cases scope with
    | resolved =>
      exact (delivered_compared markBranches content .inside escape forgotten begins kept).branch
        (markBranches && escape) "0"
    | outside =>
      have inner := delivered_compared markBranches content .outside escape forgotten begins kept
      cases delay with
      | zero => exact inner
      | succ delay => exact inner
    | inside =>
      simp only [Kept, Bool.and_eq_true, decide_eq_true_eq] at kept
      obtain ⟨rfl, kept⟩ := kept
      exact delivered_compared markBranches content .inside escape forgotten begins kept
  | suspense delay content =>
    have inner := (delivered_compared markBranches content .resolved escape forgotten begins
      kept).branch (markBranches && escape) "1"
    rw [delivered_ready_suspense, delivered_suspense_html]
    exact inner

theorem deliveredAll_compared (markBranches : Bool) (parts : List (Part ι)) (scope : Scope)
    (escape forgotten : Bool) {here ready : Position} (begins : Begins forgotten here ready)
    (kept : AllKept parts scope) :
    Compared (AllSeparate markBranches parts scope escape forgotten)
      (deliveredAll markBranches parts scope escape here).1
      (deliveredAll markBranches (allReady parts) scope escape ready).1 := by
  cases parts with
  | nil => exact Compared.refl _
  | cons part rest =>
    simp only [AllKept, Bool.and_eq_true] at kept
    exact (delivered_compared markBranches part scope escape forgotten begins kept.1).append
      (deliveredAll_compared markBranches rest scope escape _
        (begins_after markBranches part scope escape _ _ kept.1) kept.2)

end

/-! ## Dropped parts -/

/-- Whether the browser binds the piece to a part of the view. -/
def bound : Piece ι → Bool
  | .text name _ _ => name.isSome
  | .comment name _ => name.isSome
  | .openTag .. => true
  | .voidTag .. => true
  | .closeTag _ => false

/-- How many pieces are bound to parts of the view. -/
def boundCount (html : List (Piece ι)) : ℕ :=
  html.countP bound

@[simp] theorem boundCount_append (left right : List (Piece ι)) :
    boundCount (left ++ right) = boundCount left + boundCount right := by
  simp [boundCount]

@[simp] theorem boundCount_branch (marked : Bool) (name : String)
    (inner : List (Piece ι) × Position) :
    boundCount (deliveredBranch marked name inner).1 = boundCount inner.1 := by
  cases marked <;> simp [deliveredBranch, openBranch, closeBranch, boundCount, bound]

theorem boundCount_text (markBranches : Bool) (name : ι) (content : String) (escape : Bool)
    (position : Position) :
    boundCount (toHtmlWithBuf markBranches (.text name content) escape position).1 = 1 := by
  cases position <;> simp [toHtmlWithBuf, separator, boundCount, bound]

/-- Something is bound to every part that is ready. -/
theorem boundCount_ready_pos (markBranches : Bool) (part : Part ι) (scope : Scope)
    (escape : Bool) (position : Position) :
    0 < boundCount (delivered markBranches part.ready scope escape position).1 := by
  cases part with
  | text name content =>
    simp only [Part.ready, delivered, boundCount_text]
    exact Nat.one_pos
  | element name type attributes children =>
    simp only [Part.ready, delivered]
    split <;> simp [boundCount, bound]
  | tuple first rest =>
    have one := boundCount_ready_pos markBranches first scope escape position
    simp only [Part.ready, delivered, boundCount_append]
    omega
  | suspend delay content =>
    cases scope with
    | resolved =>
      simp only [Part.ready, delivered, boundCount_branch]
      exact boundCount_ready_pos markBranches content .inside escape position
    | outside => exact boundCount_ready_pos markBranches content .outside escape position
    | inside => exact boundCount_ready_pos markBranches content .inside escape position
  | suspense delay content =>
    rw [delivered_ready_suspense, boundCount_branch]
    exact boundCount_ready_pos markBranches content .resolved escape position

mutual

/-- A part that is dropped is missing in what is delivered. -/
theorem boundCount_delivered (markBranches : Bool) (part : Part ι) (scope : Scope)
    (escape : Bool) (here ready : Position) :
    boundCount (delivered markBranches part scope escape here).1 + (!Kept part scope).toNat
      ≤ boundCount (delivered markBranches part.ready scope escape ready).1 := by
  cases part with
  | text name content =>
    simp [Kept, delivered, Part.ready, boundCount_text]
  | element name type attributes children =>
    have within := boundCount_delivered markBranches children scope type.escapeChildren
      .firstChild .firstChild
    simp only [Kept, Part.ready, delivered]
    by_cases void : type.selfClosing
    · simp [void]
    · by_cases inner : attributes.innerHtml.isEmpty
      · simp only [boundCount] at within
        simp [void, inner, boundCount, List.countP_cons]
        omega
      · simp [void, inner]
  | tuple first rest =>
    have one := boundCount_delivered markBranches first scope escape here ready
    have more := boundCount_all markBranches rest scope escape
      (delivered markBranches first scope escape here).2
      (delivered markBranches first.ready scope escape ready).2
    have both : (!(Kept first scope && AllKept rest scope)).toNat ≤
        (!Kept first scope).toNat + (!AllKept rest scope).toNat := by
      cases Kept first scope <;> simp
    simp only [Kept, Part.ready, delivered, boundCount_append]
    omega
  | suspend delay content =>
    cases scope with
    | resolved =>
      have inner := boundCount_delivered markBranches content .inside escape here ready
      simpa only [Kept, Part.ready, delivered, boundCount_branch] using inner
    | outside =>
      have inner := boundCount_delivered markBranches content .outside escape here ready
      cases delay <;> simpa only [Kept, Part.ready, delivered] using inner
    | inside =>
      cases delay with
      | zero =>
        have inner := boundCount_delivered markBranches content .inside escape here ready
        simpa [Kept, Part.ready, delivered] using inner
      | succ delay =>
        have something := boundCount_ready_pos markBranches content .inside escape ready
        simpa [Kept, Part.ready, delivered, boundCount] using something
  | suspense delay content =>
    have inner := boundCount_delivered markBranches content .resolved escape here ready
    rw [delivered_ready_suspense, delivered_suspense_html, boundCount_branch, boundCount_branch]
    exact inner

theorem boundCount_all (markBranches : Bool) (parts : List (Part ι)) (scope : Scope)
    (escape : Bool) (here ready : Position) :
    boundCount (deliveredAll markBranches parts scope escape here).1 +
        (!AllKept parts scope).toNat
      ≤ boundCount (deliveredAll markBranches (allReady parts) scope escape ready).1 := by
  cases parts with
  | nil => exact le_rfl
  | cons part rest =>
    have one := boundCount_delivered markBranches part scope escape here ready
    have more := boundCount_all markBranches rest scope escape
      (delivered markBranches part scope escape here).2
      (delivered markBranches part.ready scope escape ready).2
    have both : (!(Kept part scope && AllKept rest scope)).toNat ≤
        (!Kept part scope).toNat + (!AllKept rest scope).toNat := by
      cases Kept part scope <;> simp
    simp only [AllKept, allReady, deliveredAll, boundCount_append]
    omega

end

/-! ## Pending or ready -/

theorem htmlText_delivered_iff (markBranches escape : Bool) (part : Part ι) (position : Position)
    (kept : Kept part .outside) :
    htmlText (delivered markBranches part .outside escape position).1 =
        htmlText (delivered markBranches part.ready .outside escape position).1 ↔
      Separate markBranches part .outside escape false := by
  have begins : Begins false position position := rfl
  have compared := delivered_compared markBranches part .outside escape false begins kept
  constructor
  · intro same
    by_contra apart
    rw [Bool.not_eq_true] at apart
    simp only [Compared, apart, Bool.false_eq_true, if_false] at compared
    rw [same] at compared
    exact lt_irrefl _ compared
  · intro separate
    rw [separate] at compared
    exact congrArg htmlText compared

theorem kept_of_delivered_eq (markBranches escape : Bool) (part : Part ι) (position : Position)
    (same : (delivered markBranches part .outside escape position).1 =
      (delivered markBranches part.ready .outside escape position).1) :
    Kept part .outside := by
  by_contra dropped
  have missing := boundCount_delivered markBranches part .outside escape position position
  rw [Bool.not_eq_true] at dropped
  rw [same, dropped] at missing
  simp at missing

end Halyard.Ssr
