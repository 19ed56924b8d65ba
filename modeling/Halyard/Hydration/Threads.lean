import Halyard.Hydration.Follow

/-!
# Views whose parts thread one position

Of the view types, all but keyed lists, `Result` and `ErrorBoundary` hand the position of one part
to the next (`View.Composed`), on the server and in the browser alike.  The two positions can then
differ in one way only: closing a branch marker clears the server's, so that a text that follows a
text from a closed branch is written without a separator, while the browser still skips one.

`View.outline` is what matters of a view for that: its texts, markers and elements.

* `hydrates_iff_outline`: a composed view hydrates if and only if every such text is the last thing
  in its parent.
* `hydrates_unmarked`: without markers, every composed view hydrates.
* `hydrates_marked_iff`: with markers, the condition is the outline's.
-/

namespace Halyard.Hydration

variable {ι : Type*}

mutual

/-- No part of the view is a keyed list, a `Result` or an `ErrorBoundary`. -/
def View.Composed : View ι → Prop
  | .text .. => True
  | .primitive .. => True
  | .unit _ => True
  | .element _ _ _ children => children.Composed
  | .tuple first rest => first.Composed ∧ AllComposed rest
  | .array items => AllComposed items
  | .either _ value => value.Composed
  | .vec _ items => AllComposed items
  | .staticVec _ items => AllComposed items
  | .any _ _ value => value.Composed
  | .keyed .. => False
  | .ok _ => False
  | .err _ => False
  | .errorBoundary _ => False

def AllComposed : List (View ι) → Prop
  | [] => True
  | view :: rest => view.Composed ∧ AllComposed rest

end

/-! ## Threads -/

/-- The flags after a step. -/
def Step.next (marks : Bool) (flags : Flags) : Step ι → Flags
  | .branch opens _ => if opens then flags else flags.close marks
  | .text .. => ⟨true, true⟩
  | _ => {}

def flagsAfter (marks : Bool) (flags : Flags) : List (Step ι) → Flags
  | [] => flags
  | step :: rest => flagsAfter marks (step.next marks flags) rest

mutual

/-- The texts have the flags that the steps before them leave. -/
def Step.Threaded (marks : Bool) (flags : Flags) : Step ι → Prop
  | .branch _ _ => marks = true
  | .text _ _ _ separated skips => separated = flags.server ∧ skips = flags.browser
  | .element _ _ _ children => AllThreaded marks {} children
  | _ => True

def AllThreaded (marks : Bool) (flags : Flags) : List (Step ι) → Prop
  | [] => True
  | step :: rest => step.Threaded marks flags ∧ AllThreaded marks (step.next marks flags) rest

end

@[simp] theorem flagsAfter_append (marks : Bool) (flags : Flags) (left right : List (Step ι)) :
    flagsAfter marks flags (left ++ right) =
      flagsAfter marks (flagsAfter marks flags left) right := by
  induction left generalizing flags with
  | nil => rfl
  | cons step left ih => exact ih _

@[simp] theorem allThreaded_append (marks : Bool) (flags : Flags) (left right : List (Step ι)) :
    AllThreaded marks flags (left ++ right) ↔
      AllThreaded marks flags left ∧ AllThreaded marks (flagsAfter marks flags left) right := by
  induction left generalizing flags with
  | nil => simp [AllThreaded, flagsAfter]
  | cons step left ih => simp [AllThreaded, flagsAfter, ih, and_assoc]

@[simp] theorem flagsAfter_branchSteps (marks opens : Bool) (name : String) (flags : Flags) :
    flagsAfter marks flags (branchSteps marks opens name : List (Step ι)) =
      if opens then flags else flags.close marks := by
  cases marks <;> cases opens <;> simp [branchSteps, flagsAfter, Step.next, Flags.close]

@[simp] theorem allThreaded_branchSteps (marks opens : Bool) (name : String) (flags : Flags) :
    AllThreaded marks flags (branchSteps marks opens name : List (Step ι)) := by
  cases marks <;> simp [branchSteps, AllThreaded, Step.Threaded]

/-- What the script of a composed view is threaded by. -/
def Threads (marks : Bool) (flags : Flags) (script : List (Step ι) × Flags) : Prop :=
  AllThreaded marks flags script.1 ∧ script.2 = flagsAfter marks flags script.1

mutual

/-- A view that does not exist leaves no text before the next part. -/
theorem flags_of_not_exists (marks : Bool) : ∀ (view : View ι), view.exists_ = false →
    ∀ (flags : Flags), (script marks view flags).2 = {}
  | .unit _, _, _ => rfl
  | .tuple first rest, missing, flags => by
      simp only [View.exists_, Bool.or_eq_false_iff] at missing
      have head := flags_of_not_exists marks first missing.1 flags
      have tail := flags_of_not_anyExists marks rest missing.2
      simp only [script, head]
      exact tail
  | .text .., missing, _ => by simp [View.exists_] at missing
  | .primitive .., missing, _ => by simp [View.exists_] at missing
  | .element .., missing, _ => by simp [View.exists_] at missing
  | .array _, missing, _ => by simp [View.exists_] at missing
  | .either .., missing, _ => by simp [View.exists_] at missing
  | .vec .., missing, _ => by simp [View.exists_] at missing
  | .staticVec .., missing, _ => by simp [View.exists_] at missing
  | .any .., missing, _ => by simp [View.exists_] at missing
  | .keyed .., missing, _ => by simp [View.exists_] at missing
  | .ok _, missing, _ => by simp [View.exists_] at missing
  | .err _, missing, _ => by simp [View.exists_] at missing
  | .errorBoundary _, missing, _ => by simp [View.exists_] at missing

theorem flags_of_not_anyExists (marks : Bool) : ∀ (views : List (View ι)),
    anyExists views = false → (scriptAll marks views {}).2 = {}
  | [], _ => rfl
  | view :: rest, missing => by
      simp only [anyExists, Bool.or_eq_false_iff] at missing
      have head := flags_of_not_exists marks view missing.1 {}
      have tail := flags_of_not_anyExists marks rest missing.2
      simp only [scriptAll, head]
      exact tail

end

mutual

theorem script_threads (marks : Bool) : ∀ (view : View ι), view.Composed → ∀ (flags : Flags),
    Threads marks flags (script marks view flags)
  | .text .., _, flags => by simp [script, Threads, AllThreaded, Step.Threaded, flagsAfter, Step.next]
  | .primitive .., _, flags => by
      simp [script, Threads, AllThreaded, Step.Threaded, flagsAfter, Step.next]
  | .unit _, _, flags => by
      simp [script, Threads, AllThreaded, Step.Threaded, flagsAfter, Step.next]
  | .element name type attributes children, composed, flags => by
      have inner := script_threads marks children composed {}
      cases closing : type.selfClosing with
      | true =>
          simp [script, closing, Threads, AllThreaded, Step.Threaded, flagsAfter, Step.next]
      | false =>
          cases present : children.exists_ <;>
            simp [script, closing, present, Threads, AllThreaded, Step.Threaded, flagsAfter,
              Step.next, inner.1]
  | .tuple first rest, composed, flags => by
      have head := script_threads marks first composed.1 flags
      have tail := scriptAll_threads marks rest composed.2 (script marks first flags).2
      rw [head.2] at tail
      simp only [script, Threads, allThreaded_append, flagsAfter_append, head.2]
      exact ⟨⟨head.1, tail.1⟩, tail.2⟩
  | .array items, composed, flags => scriptAll_threads marks items composed flags
  | .either variant value, composed, flags => by
      have inner := script_threads marks value composed flags
      simp [script, Threads, inner.1, inner.2]
  | .vec marker items, composed, flags => by
      have inner := scriptAll_threads marks items composed flags
      simp [script, Threads, inner.1, AllThreaded, Step.Threaded, flagsAfter, Step.next]
  | .staticVec marker items, composed, flags => by
      have inner := scriptAll_threads marks items composed flags
      simp [script, Threads, inner.1, AllThreaded, Step.Threaded, flagsAfter, Step.next]
  | .any placeholder typeId value, composed, flags => by
      have inner := script_threads marks value composed flags
      cases present : value.exists_ with
      | true => simp [script, present, Threads, inner.1, inner.2]
      | false =>
          have left := flags_of_not_exists marks value present flags
          simp [script, present, Threads, inner.1, left, AllThreaded, Step.Threaded, flagsAfter,
            Step.next]
  | .keyed .., composed, _ => composed.elim
  | .ok _, composed, _ => composed.elim
  | .err _, composed, _ => composed.elim
  | .errorBoundary _, composed, _ => composed.elim

theorem scriptAll_threads (marks : Bool) : ∀ (views : List (View ι)), AllComposed views →
    ∀ (flags : Flags), Threads marks flags (scriptAll marks views flags)
  | [], _, _ => ⟨trivial, rfl⟩
  | view :: rest, composed, flags => by
      have head := script_threads marks view composed.1 flags
      have tail := scriptAll_threads marks rest composed.2 (script marks view flags).2
      rw [head.2] at tail
      simp only [scriptAll, Threads, allThreaded_append, flagsAfter_append, head.2]
      exact ⟨⟨head.1, tail.1⟩, tail.2⟩

end

/-! ## Texts are written apart -/

mutual

theorem apart_of_threaded {marks : Bool} : ∀ (step : Step ι) (flags : Flags) (afterText : Bool),
    step.Threaded marks flags → (afterText = true → flags.server = true) →
    step.apart afterText = true
  | .text _ _ _ separated _, flags, afterText, threaded, truthful => by
      cases afterText with
      | false => simp [Step.apart]
      | true => simp [Step.apart, threaded.1, truthful rfl]
  | .element _ _ _ children, _, _, threaded, _ =>
      allApart_of_threaded children {} false threaded (by simp)
  | .branch .., _, _, _, _ => rfl
  | .placeholder .., _, _, _, _ => rfl
  | .void .., _, _, _, _ => rfl

theorem allApart_of_threaded {marks : Bool} : ∀ (steps : List (Step ι)) (flags : Flags)
    (afterText : Bool), AllThreaded marks flags steps →
    (afterText = true → flags.server = true) → allApart afterText steps = true
  | [], _, _, _, _ => rfl
  | step :: rest, flags, afterText, threaded, truthful => by
      rw [allApart, Bool.and_eq_true]
      refine ⟨apart_of_threaded step flags afterText threaded.1 truthful, ?_⟩
      refine allApart_of_threaded rest _ _ threaded.2 ?_
      cases step <;> simp [Step.isText, Step.next]

end

/-! ## Outlines -/

/-- What a part of a view is: a text, a branch marker, a placeholder or an element without
children, or an element. -/
inductive Part where
  | text
  | mark (opens : Bool)
  | leaf
  | element (children : List Part)

def Part.isMark : Part → Bool
  | .mark _ => true
  | _ => false

/-- A text that follows a text from a branch closed since, with only markers between them, is the
last part of the row. -/
def TextsLast (row : List Part) : Prop :=
  ∀ before between after, row = before ++ .text :: (between ++ .text :: after) →
    (∀ part ∈ between, part.isMark = true) → .mark false ∈ between → after = []

mutual

/-- The same within every element. -/
def Part.Settled : Part → Prop
  | .element children => TextsLast children ∧ EachSettled children
  | _ => True

def EachSettled : List Part → Prop
  | [] => True
  | part :: rest => part.Settled ∧ EachSettled rest

end

/-- A branch, where branches are marked. -/
def inBranch (marks : Bool) (parts : List Part) : List Part :=
  if marks then .mark true :: (parts ++ [.mark false]) else parts

mutual

/-- The parts of a view that its parent element gets as children. -/
def View.outline (marks : Bool) : View ι → List Part
  | .text .. => [.text]
  | .primitive .. => [.text]
  | .unit _ => [.leaf]
  | .element _ type _ children =>
      if type.selfClosing then [.leaf]
      else [.element (if children.exists_ then children.outline marks else [])]
  | .tuple first rest => first.outline marks ++ outlineAll marks rest
  | .array items => outlineAll marks items
  | .either _ value => inBranch marks (value.outline marks)
  | .vec _ items => outlineAll marks items ++ [.leaf]
  | .staticVec _ items => outlineAll marks items ++ [.leaf]
  | .any _ _ value =>
      inBranch marks (value.outline marks ++ if value.exists_ then [] else [.leaf])
  | .keyed _ items => inBranch marks (outlineItems marks items) ++ [.leaf]
  | .ok value => value.outline marks
  | .err _ => [.leaf]
  | .errorBoundary children => children.outline marks

def outlineAll (marks : Bool) : List (View ι) → List Part
  | [] => []
  | view :: rest => view.outline marks ++ outlineAll marks rest

def outlineItems (marks : Bool) : List (String × View ι) → List Part
  | [] => []
  | (_, view) :: rest => inBranch marks (view.outline marks) ++ outlineItems marks rest

end

mutual

def Step.part : Step ι → Part
  | .branch opens _ => .mark opens
  | .text .. => .text
  | .placeholder .. => .leaf
  | .void .. => .leaf
  | .element _ _ _ children => .element (outlineOf children)

def outlineOf : List (Step ι) → List Part
  | [] => []
  | step :: rest => step.part :: outlineOf rest

end

@[simp] theorem outlineOf_append (left right : List (Step ι)) :
    outlineOf (left ++ right) = outlineOf left ++ outlineOf right := by
  induction left with
  | nil => rfl
  | cons step left ih => simp [outlineOf, ih]

theorem outlineOf_eq_nil {steps : List (Step ι)} : outlineOf steps = [] ↔ steps = [] := by
  cases steps <;> simp [outlineOf]

theorem outlineOf_inBranch (marks : Bool) (name : String) (steps : List (Step ι)) :
    outlineOf (branchSteps marks true name ++ (steps ++ branchSteps marks false name)) =
      inBranch marks (outlineOf steps) := by
  cases marks <;> simp [branchSteps, inBranch, outlineOf, Step.part]

mutual

/-- The script of a view has the view's outline. -/
theorem outline_script (marks : Bool) : ∀ (view : View ι) (flags : Flags),
    outlineOf (script marks view flags).1 = view.outline marks
  | .text .., _ => rfl
  | .primitive .., _ => rfl
  | .unit _, _ => rfl
  | .element name type attributes children, flags => by
      have inner := outline_script marks children {}
      cases closing : type.selfClosing with
      | true => simp [script, View.outline, closing, outlineOf, Step.part]
      | false =>
          cases present : children.exists_ <;>
            simp [script, View.outline, closing, present, outlineOf, Step.part, inner]
  | .tuple first rest, flags => by
      simp [script, View.outline, outline_script marks first, outline_scriptAll marks rest]
  | .array items, flags => outline_scriptAll marks items flags
  | .either variant value, flags => by
      have inner := outline_script marks value flags
      simp only [script, View.outline, List.append_assoc, outlineOf_inBranch, inner]
  | .vec marker items, flags => by
      simp [script, View.outline, outline_scriptAll marks items, outlineOf, Step.part]
  | .staticVec marker items, flags => by
      simp [script, View.outline, outline_scriptAll marks items, outlineOf, Step.part]
  | .any placeholder typeId value, flags => by
      have inner := outline_script marks value flags
      simp only [script, View.outline]
      rw [List.append_assoc, List.append_assoc, ← List.append_assoc (script marks value flags).1,
        outlineOf_inBranch, outlineOf_append, inner]
      cases present : value.exists_ <;> simp [outlineOf, Step.part]
  | .keyed marker items, flags => by
      have inner := outline_scriptItems marks items flags
      rw [script, View.outline, outlineOf_append, List.append_assoc, outlineOf_inBranch, inner]
      rfl
  | .ok value, flags => outline_script marks value flags
  | .err _, _ => rfl
  | .errorBoundary children, flags => outline_script marks children flags

theorem outline_scriptAll (marks : Bool) : ∀ (views : List (View ι)) (flags : Flags),
    outlineOf (scriptAll marks views flags).1 = outlineAll marks views
  | [], _ => rfl
  | view :: rest, flags => by
      simp [scriptAll, outlineAll, outline_script marks view, outline_scriptAll marks rest]

theorem outline_scriptItems (marks : Bool) : ∀ (items : List (String × View ι)) (flags : Flags),
    outlineOf (scriptItems marks items flags).1 = outlineItems marks items
  | [], _ => rfl
  | (key, view) :: rest, flags => by
      have head := outline_script marks view flags
      have tail := outline_scriptItems marks rest { (script marks view flags).2 with server := false }
      rw [scriptItems, outlineOf_append, List.append_assoc, outlineOf_inBranch, head, tail]
      rfl

end

/-! ## Alignment, read off the outline -/

/-- Where `flags` are those before `row`: a text that the browser takes to follow a text, and the
server does not, is the last part of the row. -/
def Pending (flags : Flags) (row : List Part) : Prop :=
  flags.browser = true → ∀ between after, row = between ++ .text :: after →
    (∀ part ∈ between, part.isMark = true) →
    (flags.server = true → .mark false ∈ between) → after = []

theorem textsLast_text (row : List Part) :
    TextsLast (.text :: row) ↔ Pending ⟨true, true⟩ row ∧ TextsLast row := by
  refine ⟨fun last => ⟨fun _ between after split marks closed => ?_,
    fun before between after split => ?_⟩, fun both before between after split marks closed => ?_⟩
  · exact last [] between after (by rw [split]; rfl) marks (closed rfl)
  · exact last (.text :: before) between after (by rw [split]; rfl)
  · cases before with
    | nil =>
        simp only [List.nil_append, List.cons.injEq, true_and] at split
        exact both.1 rfl between after split marks fun _ => closed
    | cons part before =>
        simp only [List.cons_append, List.cons.injEq] at split
        exact both.2 before between after split.2 marks closed

theorem textsLast_cons {part : Part} (row : List Part) (other : part ≠ .text) :
    TextsLast (part :: row) ↔ TextsLast row := by
  refine ⟨fun last before between after split => ?_, fun last before between after split => ?_⟩
  · exact last (part :: before) between after (by rw [split]; rfl)
  · cases before with
    | nil => exact absurd (List.cons.inj split).1 other
    | cons head before => exact last before between after (List.cons.inj split).2

theorem pending_text (flags : Flags) (row : List Part) :
    Pending flags (.text :: row) ↔
      (flags.browser = true → flags.server = false → row = []) := by
  refine ⟨fun pending skips unseparated => ?_, fun last skips between after split marks closed => ?_⟩
  · exact pending skips [] row rfl (by simp) (by simp [unseparated])
  · cases between with
    | nil =>
        simp only [List.nil_append, List.cons.injEq, true_and] at split
        rw [← split]
        refine last skips ?_
        cases server : flags.server with
        | false => rfl
        | true => simp at closed; exact absurd server (by simp [closed])
    | cons part between =>
        simp only [List.cons_append, List.cons.injEq] at split
        have := marks part List.mem_cons_self
        rw [← split.1] at this
        cases this

theorem pending_mark (flags : Flags) (opens : Bool) (row : List Part) :
    Pending flags (.mark opens :: row) ↔
      Pending (if opens then flags else flags.close true) row := by
  refine ⟨fun pending skips between after split marks closed => ?_,
    fun pending skips between after split marks closed => ?_⟩
  · refine pending (by cases opens <;> exact skips) (.mark opens :: between) after
      (by rw [split]; rfl) (by simpa [Part.isMark] using marks) fun server => ?_
    cases opens with
    | true => exact List.mem_cons_of_mem _ (closed server)
    | false => exact List.mem_cons_self
  · cases between with
    | nil => cases (List.cons.inj split).1
    | cons part between =>
        rcases List.cons.inj split with ⟨rfl, tail⟩
        refine pending (by cases opens <;> exact skips) between after tail
          (fun part member => marks part (List.mem_cons_of_mem _ member)) fun server => ?_
        cases opens with
        | true => simpa using closed server
        | false => simp [Flags.close] at server

theorem pending_cons {part : Part} (flags : Flags) (row : List Part) (other : part ≠ .text)
    (noMark : part.isMark = false) : Pending flags (part :: row) := by
  intro skips between after split marks closed
  cases between with
  | nil => exact absurd (List.cons.inj split).1 other
  | cons head between =>
      rcases List.cons.inj split with ⟨rfl, -⟩
      rw [marks part List.mem_cons_self] at noMark
      cases noMark

theorem pending_flat (row : List Part) : Pending {} row := fun skips => by cases skips

mutual

theorem step_aligned_iff {marks : Bool} : ∀ (step : Step ι) (rest : List (Step ι))
    (flags : Flags), step.Threaded marks flags → (flags.server = true → flags.browser = true) →
    (step.aligned rest.isEmpty = true ∧ Pending (step.next marks flags) (outlineOf rest) ∧
        TextsLast (outlineOf rest) ↔
      Pending flags (step.part :: outlineOf rest) ∧ TextsLast (step.part :: outlineOf rest) ∧
        step.part.Settled)
  | .branch opens _, rest, flags, threaded, _ => by
      have marked : marks = true := threaded
      rw [Step.part, pending_mark, textsLast_cons _ (by simp)]
      simp [Step.aligned, Part.Settled, Step.next, marked]
  | .text name content escaped separated skips, rest, flags, threaded, truthful => by
      have last : (Step.text name content escaped separated skips).aligned rest.isEmpty = true ↔
          (flags.browser = true → flags.server = false → outlineOf rest = []) := by
        rw [Step.aligned, threaded.1, threaded.2, outlineOf_eq_nil]
        cases browser : flags.browser <;> cases server : flags.server <;>
          simp_all
      rw [Step.part, pending_text, textsLast_text, last]
      simp [Step.next, Part.Settled]
  | .placeholder _ _, rest, flags, _, _ => by
      have free : Pending flags (.leaf :: outlineOf rest) := pending_cons flags _ (by simp) rfl
      rw [Step.part, textsLast_cons _ (by simp)]
      simp [Step.aligned, Part.Settled, Step.next, pending_flat, free]
  | .void _ _ _, rest, flags, _, _ => by
      have free : Pending flags (.leaf :: outlineOf rest) := pending_cons flags _ (by simp) rfl
      rw [Step.part, textsLast_cons _ (by simp)]
      simp [Step.aligned, Part.Settled, Step.next, pending_flat, free]
  | .element _ _ _ children, rest, flags, threaded, _ => by
      have inner := allAligned_iff children {} threaded (by simp)
      rw [Step.part, textsLast_cons _ (by simp)]
      simp only [Step.aligned, inner, Part.Settled, Step.next, pending_flat, true_and,
        pending_cons flags _ (by simp : Part.element (outlineOf children) ≠ .text) rfl]
      exact and_comm

/-- Threaded steps are aligned if every text after a text from a closed branch is the last part of
its row. -/
theorem allAligned_iff {marks : Bool} : ∀ (steps : List (Step ι)) (flags : Flags),
    AllThreaded marks flags steps → (flags.server = true → flags.browser = true) →
    (allAligned steps = true ↔
      Pending flags (outlineOf steps) ∧ TextsLast (outlineOf steps) ∧
        EachSettled (outlineOf steps))
  | [], flags, _, _ => by
      simp [allAligned, outlineOf, Pending, TextsLast, EachSettled]
  | step :: rest, flags, threaded, truthful => by
      have truthful' : (step.next marks flags).server = true →
          (step.next marks flags).browser = true := by
        cases step with
        | branch opens name =>
            cases opens with
            | true => simpa [Step.next] using truthful
            | false => exact fun server => truthful (Bool.and_eq_true_iff.1 server).1
        | text | placeholder | void | element => simp [Step.next]
      have head := step_aligned_iff step rest flags threaded.1 truthful
      have tail := allAligned_iff rest (step.next marks flags) threaded.2 truthful'
      have both := and_congr_left (fun _ : EachSettled (outlineOf rest) => head)
      rw [allAligned, Bool.and_eq_true, tail, outlineOf, EachSettled]
      simpa only [and_assoc] using both

end

/-- A composed view hydrates if and only if every text that follows a text from a branch closed
since is the last thing in its parent. -/
theorem hydrates_iff_outline {marks : Bool} {view : View ι} (plain : view.Plain)
    (composed : view.Composed) :
    Hydrates marks view ↔ TextsLast (view.outline marks) ∧ EachSettled (view.outline marks) := by
  have threads := script_threads marks view composed {}
  have apart : allApart false (view.steps marks) = true :=
    allApart_of_threaded (view.steps marks) {} false threads.1 (by simp)
  have aligned := allAligned_iff (view.steps marks) {} threads.1 (by simp)
  have outline : outlineOf (view.steps marks) = view.outline marks := outline_script marks view {}
  rw [outline] at aligned
  rw [hydrates_iff plain, apart, aligned]
  simp [pending_flat]

/-! ## Without markers -/

theorem not_isMark_of_threaded {steps : List (Step ι)} {flags : Flags}
    (threaded : AllThreaded false flags steps) :
    ∀ part ∈ outlineOf steps, part.isMark = false := by
  induction steps generalizing flags with
  | nil => simp [outlineOf]
  | cons step rest ih =>
      intro part member
      rcases List.mem_cons.1 member with rfl | later
      · cases step with
        | branch opens name => cases threaded.1
        | text | placeholder | void | element => rfl
      · exact ih threaded.2 part later

theorem textsLast_of_threaded {steps : List (Step ι)} {flags : Flags}
    (threaded : AllThreaded false flags steps) : TextsLast (outlineOf steps) := by
  intro before between after split marks closed
  have unmarked := not_isMark_of_threaded threaded (.mark false) (by rw [split]; simp [closed])
  cases unmarked

mutual

theorem settled_of_threaded : ∀ (step : Step ι) (flags : Flags), step.Threaded false flags →
    step.part.Settled
  | .element _ _ _ children, _, threaded =>
      ⟨textsLast_of_threaded threaded, eachSettled_of_threaded children {} threaded⟩
  | .branch .., _, _ => trivial
  | .text .., _, _ => trivial
  | .placeholder .., _, _ => trivial
  | .void .., _, _ => trivial

theorem eachSettled_of_threaded : ∀ (steps : List (Step ι)) (flags : Flags),
    AllThreaded false flags steps → EachSettled (outlineOf steps)
  | [], _, _ => trivial
  | step :: rest, flags, threaded =>
      ⟨settled_of_threaded step flags threaded.1, eachSettled_of_threaded rest _ threaded.2⟩

end

/-- A composed view rendered without branch markers hydrates. -/
theorem hydrates_unmarked {view : View ι} (plain : view.Plain) (composed : view.Composed) :
    Hydrates false view := by
  have threads := script_threads false view composed {}
  have outline : outlineOf (view.steps false) = view.outline false := outline_script false view {}
  rw [hydrates_iff_outline plain composed, ← outline]
  exact ⟨textsLast_of_threaded threads.1, eachSettled_of_threaded (view.steps false) {} threads.1⟩

/-- A paragraph of texts, a list of them, and an optional one. -/
theorem hydrates_unmarked_paragraph :
    Hydrates false (View.element 0 { tag := "p" } {}
      (.tuple (.text 1 "a") [.vec 2 [.text 3 "b", .primitive 4 false ⟨"7", by decide⟩],
        .option 5 (some (.text 6 "")), .any 7 "unit" (.unit 8),
        .element 9 { tag := "br", selfClosing := true } {} (.unit 10), .array [.text 11 "c"]])) :=
  hydrates_unmarked
    (by simp [View.Plain, AllPlain, PlainElement, View.exists_, anyExists, View.option])
    (by simp [View.Composed, AllComposed, View.option])

/-! ## With markers -/

/-- With branch markers, a composed view hydrates if and only if every text that follows a text
from a branch closed since is the last thing in its parent. -/
theorem hydrates_marked_iff {view : View ι} (plain : view.Plain) (composed : view.Composed) :
    Hydrates true view ↔ TextsLast (view.outline true) ∧ EachSettled (view.outline true) :=
  hydrates_iff_outline plain composed

theorem hydrates_marked_iff_branch :
    Hydrates true (View.tuple (.either "Left" (.text 0 "b")) [.text 1 "c"]) ↔
      TextsLast [.mark true, .text, .mark false, .text] ∧
        EachSettled [.mark true, .text, .mark false, .text] :=
  hydrates_marked_iff
    (by simp [View.Plain, AllPlain]) (by simp [View.Composed, AllComposed])

/-- A text, in a branch, and another before a paragraph: the browser looks for a separator between
the texts, where the branch's marker stands. -/
theorem not_hydrates_marked_branch :
    Hydrates false (View.tuple (.either "Left" (.text 0 "b"))
      [.text 1 "c", .element 2 { tag := "p" } {} (.unit 3)]) ∧
    ¬ Hydrates true (View.tuple (.either "Left" (.text 0 "b"))
      [.text 1 "c", .element 2 { tag := "p" } {} (.unit 3)]) := by
  have plain : (View.tuple (.either "Left" (.text 0 "b"))
      [.text 1 "c", .element 2 { tag := "p" } {} (.unit 3)]).Plain := by
    simp [View.Plain, AllPlain, PlainElement]
  rw [hydrates_iff plain, hydrates_iff plain]
  decide

end Halyard.Hydration
