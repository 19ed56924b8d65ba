import Halyard.Hydration.Row

/-!
# The browser in step with the server

`InStep` relates the browser's state to the steps it has followed in a row of unmerged nodes: the
cursor is at the last node that a part was bound to.  From there the next part's node is one move
away (`advance_inStep`), so the only steps that can go wrong are texts: `step_inStep` says where a
step keeps the relation, and `step_out` that it otherwise finds a mismatch or binds another node.

* `followAll_iff`: the browser binds every part of a row to its own node if and only if the row's
  steps are aligned.
* `hydrates_iff`: a view hydrates if and only if its script is apart and aligned.
-/

namespace Halyard.Hydration

variable {ι : Type*}

/-! ## What following never undoes -/

theorem Hydrated.failed_goto (state : Hydrated ι) (step : Path → Path) :
    (state.goto step).failed = state.failed := by
  unfold Hydrated.goto
  split <;> rfl

theorem Hydrated.bound_goto (state : Hydrated ι) (step : Path → Path) :
    (state.goto step).bound = state.bound := by
  unfold Hydrated.goto
  split <;> rfl

theorem Hydrated.failed_advance (marks : Bool) (dom : List (Node ι)) (state : Hydrated ι) :
    (state.advance marks dom).failed = state.failed := by
  unfold Hydrated.advance
  split <;> exact failed_goto _ _

theorem Hydrated.bound_advance (marks : Bool) (dom : List (Node ι)) (state : Hydrated ι) :
    (state.advance marks dom).bound = state.bound := by
  unfold Hydrated.advance
  split <;> exact bound_goto _ _

/-- How one state of a hydration can come after another, `parts` parts later. -/
structure After (parts : ℕ) (before after : Hydrated ι) : Prop where
  failed : before.failed = true → after.failed = true
  bound : before.bound <+: after.bound
  length : after.failed = false → after.bound.length = before.bound.length + parts

theorem After.refl (state : Hydrated ι) : After 0 state state :=
  ⟨id, List.prefix_refl _, fun _ => rfl⟩

theorem After.trans {m n : ℕ} {first second third : Hydrated ι} (left : After m first second)
    (right : After n second third) : After (m + n) first third where
  failed := fun failed => right.failed (left.failed failed)
  bound := left.bound.trans right.bound
  length := fun fine => by
    have middle : second.failed = false := by
      cases value : second.failed with
      | false => rfl
      | true => rw [right.failed value] at fine; cases fine
    rw [right.length fine, left.length middle, Nat.add_assoc]

theorem After.of_same {before after : Hydrated ι} (failed : after.failed = before.failed)
    (bound : after.bound = before.bound) : After 0 before after :=
  ⟨fun was => failed.trans was, bound ▸ List.prefix_refl _, fun _ => by rw [bound, Nat.add_zero]⟩

theorem after_goto (state : Hydrated ι) (step : Path → Path) : After 0 state (state.goto step) :=
  .of_same (state.failed_goto step) (state.bound_goto step)

theorem after_advance (marks : Bool) (dom : List (Node ι)) (state : Hydrated ι) :
    After 0 state (state.advance marks dom) :=
  .of_same (state.failed_advance marks dom) (state.bound_advance marks dom)

theorem after_position (state : Hydrated ι) (position : Position) :
    After 0 state { state with position } := .of_same rfl rfl

theorem after_cast (dom : List (Node ι)) (kind : Kind) (name : ι) (state : Hydrated ι) :
    After 1 state (state.cast dom kind name) := by
  unfold Hydrated.cast
  split
  next failed => exact ⟨id, List.prefix_refl _, fun fine => by rw [failed] at fine; cases fine⟩
  · split
    · exact ⟨id, List.prefix_append _ _, fun _ => by simp⟩
    · exact ⟨fun _ => rfl, List.prefix_refl _, fun fine => by cases fine⟩

mutual

/-- How many parts a step binds. -/
def Step.parts : Step ι → ℕ
  | .branch .. => 0
  | .text .. => 1
  | .placeholder .. => 1
  | .void .. => 1
  | .element _ _ _ children => 1 + partsOf children

def partsOf : List (Step ι) → ℕ
  | [] => 0
  | step :: rest => step.parts + partsOf rest

end

mutual

theorem after_follow (marks : Bool) (dom : List (Node ι)) : ∀ (step : Step ι)
    (state : Hydrated ι), After step.parts state (step.follow marks dom state)
  | .branch _ _, state => .refl state
  | .text name _ _ _ skips, state => by
      have moved : After 0 state (if skips then (state.advance marks dom).goto (siblingOf marks dom)
          else state.advance marks dom) := by
        cases skips with
        | true => exact (after_advance marks dom state).trans (after_goto _ _)
        | false => exact after_advance marks dom state
      exact (moved.trans (after_cast dom .text name _)).trans (after_position _ _)
  | .placeholder name _, state =>
      ((after_advance marks dom state).trans (after_position _ .nextChild)).trans
        (after_cast dom .comment name _)
  | .void name _ _, state =>
      ((after_advance marks dom state).trans (after_cast dom .element name _)).trans
        (after_position _ .nextChild)
  | .element name tag attributes children, state => by
      have cast := (after_advance marks dom state).trans (after_cast dom .element name _)
      have inside := after_followAll marks dom children
        { (state.advance marks dom).cast dom .element name with position := .firstChild }
      have back := fun state' : Hydrated ι =>
        after_goto state' fun _ => ((state.advance marks dom).cast dom .element name).cursor
      have whole := (((cast.trans (after_position _ .firstChild)).trans inside).trans
        (back _)).trans (after_position _ .nextChild)
      have parts : (Step.element name tag attributes children).parts =
          0 + 1 + 0 + partsOf children + 0 + 0 := by simp [Step.parts]
      rw [parts]
      exact whole

theorem after_followAll (marks : Bool) (dom : List (Node ι)) : ∀ (steps : List (Step ι))
    (state : Hydrated ι), After (partsOf steps) state (followAll marks dom steps state)
  | [], state => .refl state
  | step :: rest, state =>
      (after_follow marks dom step state).trans (after_followAll marks dom rest _)

end

mutual

theorem length_written_nodes : ∀ (step : Step ι) (first : ℕ) (parent : Path),
    (writtenIn step.nodes first parent).length = step.parts
  | .branch _ _, _, _ => rfl
  | .text _ _ _ separated _, _, _ => by
      cases separated <;> simp [Step.nodes, writtenIn, Node.written, Step.parts]
  | .placeholder _ _, _, _ => by simp [Step.nodes, writtenIn, Node.written, Step.parts]
  | .void _ _ _, _, _ => by simp [Step.nodes, writtenIn, Node.written, Step.parts]
  | .element _ _ _ children, first, parent => by
      have inner := length_written_nodesOf children 0 (first :: parent)
      simp [Step.nodes, writtenIn, Node.written, Step.parts, inner, Nat.add_comm]

theorem length_written_nodesOf : ∀ (steps : List (Step ι)) (first : ℕ) (parent : Path),
    (writtenIn (nodesOf steps) first parent).length = partsOf steps
  | [], _, _ => rfl
  | step :: rest, first, parent => by
      rw [nodesOf, writtenIn_append, List.length_append, length_written_nodes step,
        length_written_nodesOf rest, partsOf]

end

/-! ## In step -/

/-- The browser has followed `done`, the first steps of the row at `parent`: nothing failed, and
the cursor is at the last node a part was bound to, or still at the parent. -/
structure InStep (parent : Path) (done : List (Step ι)) (state : Hydrated ι) : Prop where
  fine : state.failed = false
  place : (∃ before node after, nodesOf done = before ++ node :: after ∧
      (∀ other ∈ after, other.isBranch = true) ∧ state.cursor = before.length :: parent ∧
      state.position ≠ .firstChild) ∨
    ((∀ other ∈ nodesOf done, other.isBranch = true) ∧ state.cursor = parent ∧
      state.position = .firstChild)

theorem skipBranches_through {branches : List (Node ι)} {node : Node ι} {more : List (Node ι)}
    (skipped : ∀ other ∈ branches, other.isBranch = true) (stop : node.isBranch = false)
    (index : ℕ) :
    skipBranches (branches ++ node :: more) index = index + branches.length := by
  induction branches generalizing index with
  | nil => cases more <;> simp [skipBranches, stop]
  | cons branch branches ih =>
      have tail := ih (fun other member => skipped other (List.mem_cons_of_mem _ member)) (index + 1)
      have here := skipped branch List.mem_cons_self
      cases branches with
      | nil =>
          simp only [List.nil_append, List.length_nil] at tail
          simp [skipBranches, here, tail]
      | cons next branches =>
          simp only [List.cons_append] at tail ⊢
          rw [skipBranches, if_pos here, tail]
          simp only [List.length_cons]
          omega

/-- The cursor settles at the next node that is no branch marker. -/
theorem settleCursor_through (marks : Bool) {dom : List (Node ι)} {parent : Path}
    {before branches : List (Node ι)} {node : Node ι} {more : List (Node ι)}
    (row : childrenAt dom parent = before ++ (branches ++ node :: more))
    (skipped : ∀ other ∈ branches, other.isBranch = true) (stop : node.isBranch = false)
    (marked : branches ≠ [] → marks = true) :
    settleCursor marks dom (before.length :: parent) =
      (before.length + branches.length) :: parent := by
  cases marks with
  | true =>
      simp [settleCursor, row, skipBranches_through skipped stop]
  | false =>
      have none : branches = [] := by
        by_contra some
        exact absurd (marked some) (by simp)
      simp [settleCursor, none]

/-- The move to the next part's node. -/
theorem advance_inStep {marks : Bool} {dom : List (Node ι)} {parent : Path}
    {done : List (Step ι)} {state : Hydrated ι} {node : Node ι} {more : List (Node ι)}
    (inStep : InStep parent done state)
    (row : childrenAt dom parent = nodesOf done ++ node :: more) (stop : node.isBranch = false)
    (marked : ∀ other ∈ nodesOf done, other.isBranch = true → marks = true) :
    state.advance marks dom = { state with cursor := (nodesOf done).length :: parent } := by
  have fine := inStep.fine
  rcases inStep.place with ⟨before, last, after, split, skipped, cursor, position⟩ |
    ⟨skipped, cursor, position⟩
  · have row' : childrenAt dom parent = (before ++ [last]) ++ (after ++ node :: more) := by
      rw [row, split]
      simp
    have settle := settleCursor_through marks row' skipped stop fun some => by
      rcases List.exists_mem_of_ne_nil _ some with ⟨other, member⟩
      exact marked other (by rw [split]; simp [member]) (skipped other member)
    have bound : before.length + 1 < (childrenAt dom parent).length := by
      rw [row', List.length_append, List.length_append, List.length_append]
      simp only [List.length_cons, List.length_nil]
      omega
    have length : (nodesOf done).length = before.length + 1 + after.length := by
      rw [split]
      simp only [List.length_append, List.length_cons]
      omega
    have next : siblingOf marks dom (before.length :: parent) = (nodesOf done).length :: parent := by
      rw [siblingOf, if_pos bound, length]
      simpa using settle
    simp [Hydrated.advance, position, Hydrated.goto, fine, cursor, next]
  · have row' : childrenAt dom parent = [] ++ (nodesOf done ++ node :: more) := row
    have settle := settleCursor_through marks row' skipped stop fun some => by
      rcases List.exists_mem_of_ne_nil _ some with ⟨other, member⟩
      exact marked other member (skipped other member)
    have notEmpty : (childrenAt dom parent).isEmpty = false := by
      rw [row]
      simp
    have next : childOf marks dom parent = (nodesOf done).length :: parent := by
      rw [childOf, notEmpty]
      simpa using settle
    simp [Hydrated.advance, position, Hydrated.goto, fine, cursor, next]

/-! ## One step -/

theorem startsAsBranch_branchText (opens : Bool) (name : String) :
    startsAsBranch (branchText opens name) = true := by
  cases opens <;> simp [startsAsBranch, branchText, String.toList_append]

mutual

theorem marked_of_step {marks : Bool} : ∀ (step : Step ι), step.Sound marks →
    ∀ node ∈ step.nodes, node.isBranch = true → marks = true
  | .branch _ _, sound, _, _, _ => sound
  | .text _ _ _ separated _, _, node, member, isBranch => by
      cases separated <;> simp only [Step.nodes, Bool.false_eq_true, if_false, if_true,
        List.nil_append, List.cons_append, List.mem_cons, List.not_mem_nil, or_false] at member
      · subst member
        cases isBranch
      · rcases member with rfl | rfl
        · simp [Node.isBranch, startsAsBranch] at isBranch
        · cases isBranch
  | .placeholder _ _, sound, node, member, isBranch => by
      simp only [Step.nodes, List.mem_singleton] at member
      subst member
      rw [Node.isBranch, sound] at isBranch
      cases isBranch
  | .void _ _ _, _, node, member, isBranch => by
      simp only [Step.nodes, List.mem_singleton] at member
      subst member
      cases isBranch
  | .element _ _ _ _, _, node, member, isBranch => by
      simp only [Step.nodes, List.mem_singleton] at member
      subst member
      cases isBranch

/-- Only a build that marks branches has markers in its rows. -/
theorem marked_of_sound {marks : Bool} : ∀ (steps : List (Step ι)), AllSound marks steps →
    ∀ node ∈ nodesOf steps, node.isBranch = true → marks = true
  | [], _, _, member, _ => by simp [nodesOf] at member
  | step :: rest, sound, node, member, isBranch => by
      rcases List.mem_append.1 member with here | later
      · exact marked_of_step step sound.1 node here isBranch
      · exact marked_of_sound rest sound.2 node later isBranch

end

variable {marks : Bool} {dom : List (Node ι)} {parent : Path} {done : List (Step ι)}
variable {state : Hydrated ι}

theorem le_skipBranches (nodes : List (Node ι)) (index : ℕ) : index ≤ skipBranches nodes index := by
  induction nodes generalizing index with
  | nil => simp [skipBranches]
  | cons node rest ih =>
      cases rest with
      | nil => simp [skipBranches]
      | cons next rest =>
          rw [skipBranches]
          split
          · exact Nat.le_of_succ_le (ih (index + 1))
          · exact le_refl _

theorem settleCursor_le (marks : Bool) (dom : List (Node ι)) (index : ℕ) (parent : Path) :
    ∃ j, index ≤ j ∧ settleCursor marks dom (index :: parent) = j :: parent := by
  cases marks with
  | true =>
      exact ⟨skipBranches ((childrenAt dom parent).drop index) index, le_skipBranches _ index,
        by simp [settleCursor]⟩
  | false => exact ⟨index, le_refl _, by simp [settleCursor]⟩

theorem kindAt_row {before more : List (Node ι)} {node : Node ι}
    (row : childrenAt dom parent = before ++ node :: more) :
    kindAt dom (before.length :: parent) = some node.kind := by
  simp [kindAt, row]

/-- The step leaves the browser in step, its parts bound to their own nodes. -/
def KeepsStep (marks : Bool) (dom : List (Node ι)) (parent : Path) (done : List (Step ι))
    (step : Step ι) (state : Hydrated ι) : Prop :=
  InStep parent (done ++ [step]) (step.follow marks dom state) ∧
    (step.follow marks dom state).bound =
      state.bound ++ writtenIn step.nodes (nodesOf done).length parent

/-- The step finds a mismatch, or binds a part to another node than its own. -/
def LosesStep (marks : Bool) (dom : List (Node ι)) (parent : Path) (done : List (Step ι))
    (step : Step ι) (state : Hydrated ι) : Prop :=
  (step.follow marks dom state).failed = true ∨
    ∀ more, ¬ (step.follow marks dom state).bound <+:
      state.bound ++ writtenIn step.nodes (nodesOf done).length parent ++ more

/-- A step that ends bound to its last node keeps step. -/
theorem keepsStep_of_eq {step : Step ι} (before : List (Node ι)) {node : Node ι} (name : ι)
    (position : Position) (nodes : step.nodes = before ++ [node])
    (moved : position ≠ .firstChild)
    (follow : step.follow marks dom state =
      { cursor := ((nodesOf done).length + before.length) :: parent, position, failed := false,
        bound := state.bound ++ [(name, ((nodesOf done).length + before.length) :: parent)] })
    (written : writtenIn step.nodes (nodesOf done).length parent =
      [(name, ((nodesOf done).length + before.length) :: parent)]) :
    KeepsStep marks dom parent done step state := by
  refine ⟨?_, by rw [follow, written]⟩
  rw [follow]
  refine ⟨rfl, Or.inl ⟨nodesOf done ++ before, node, [], ?_, by simp, by simp, moved⟩⟩
  simp [nodesOf, nodes]

theorem text_step {name : ι} {content : String} {escaped separated skips : Bool}
    {rest : List (Step ι)} (inStep : InStep parent done state)
    (row : childrenAt dom parent =
      nodesOf done ++ (Step.text name content escaped separated skips).nodes ++ nodesOf rest)
    (marked : ∀ other ∈ nodesOf done, other.isBranch = true → marks = true) :
    ((Step.text name content escaped separated skips).aligned rest.isEmpty = true →
      KeepsStep marks dom parent done (.text name content escaped separated skips) state) ∧
    ((Step.text name content escaped separated skips).aligned rest.isEmpty = false →
      LosesStep marks dom parent done (.text name content escaped separated skips) state) := by
  have fine := inStep.fine
  have noBranch : (Node.comment none "" : Node ι).isBranch = false := by
    simp [Node.isBranch, startsAsBranch]
  cases separated with
  | true =>
      have row' : childrenAt dom parent =
          nodesOf done ++ .comment none "" :: .text [name] content :: nodesOf rest := by
        simpa [Step.nodes] using row
      have row'' : childrenAt dom parent =
          (nodesOf done ++ [.comment none ""]) ++ ([] ++ .text [name] content :: nodesOf rest) := by
        simpa using row'
      have advance := advance_inStep inStep row' noBranch marked
      cases skips with
      | true =>
          refine ⟨fun _ => ?_, fun apart => by simp [Step.aligned] at apart⟩
          have settle := settleCursor_through marks row'' (by simp) rfl (by simp)
          have bound : (nodesOf done).length + 1 < (childrenAt dom parent).length := by
            rw [row']
            simp only [List.length_append, List.length_cons]
            omega
          have next : siblingOf marks dom ((nodesOf done).length :: parent) =
              ((nodesOf done).length + 1) :: parent := by
            rw [siblingOf, if_pos bound]
            simpa using settle
          have kind : kindAt dom (((nodesOf done).length + 1) :: parent) = some .text := by
            have := kindAt_row (by simpa using row'' : childrenAt dom parent =
              (nodesOf done ++ [.comment none ""]) ++ .text [name] content :: nodesOf rest)
            simpa [Node.kind] using this
          refine keepsStep_of_eq [.comment none ""] name .nextChildAfterText rfl (by decide)
            (by simp [Step.follow, advance, Hydrated.goto, Hydrated.cast, fine, next, kind]) ?_
          simp [Step.nodes, writtenIn, Node.written]
      | false =>
          refine ⟨fun aligned => by simp [Step.aligned] at aligned, fun _ => Or.inl ?_⟩
          have kind := kindAt_row row'
          simp [Step.follow, advance, Hydrated.cast, fine, kind, Node.kind]
  | false =>
      have row' : childrenAt dom parent =
          nodesOf done ++ .text [name] content :: nodesOf rest := by
        simpa [Step.nodes] using row
      have advance := advance_inStep inStep row' rfl marked
      have kind := kindAt_row row'
      have written : writtenIn (Step.text name content escaped false skips).nodes
          (nodesOf done).length parent = [(name, (nodesOf done).length :: parent)] := by
        simp [Step.nodes, writtenIn, Node.written]
      cases skips with
      | false =>
          refine ⟨fun _ => ?_, fun apart => by simp [Step.aligned] at apart⟩
          exact keepsStep_of_eq [] name .nextChildAfterText rfl (by decide)
            (by simp [Step.follow, advance, Hydrated.cast, fine, kind, Node.kind]) written
      | true =>
          cases rest with
          | nil =>
              refine ⟨fun _ => ?_, fun apart => by simp [Step.aligned] at apart⟩
              have atEnd : ¬ (nodesOf done).length + 1 < (childrenAt dom parent).length := by
                rw [row']
                simp [nodesOf]
              have settle := settleCursor_through marks (by simpa using row' :
                childrenAt dom parent = nodesOf done ++ ([] ++ .text [name] content :: nodesOf []))
                (by simp) rfl (by simp)
              have next : siblingOf marks dom ((nodesOf done).length :: parent) =
                  (nodesOf done).length :: parent := by
                rw [siblingOf, if_neg atEnd]
                simpa using settle
              exact keepsStep_of_eq [] name .nextChildAfterText rfl (by decide)
                (by simp [Step.follow, advance, Hydrated.goto, Hydrated.cast, fine, next, kind,
                  Node.kind]) written
          | cons later rest =>
              refine ⟨fun aligned => by simp [Step.aligned] at aligned, fun _ => ?_⟩
              have bound : (nodesOf done).length + 1 < (childrenAt dom parent).length := by
                have some := List.length_pos_iff.2 (nodes_ne_nil later)
                rw [row']
                simp only [nodesOf, List.length_append, List.length_cons]
                omega
              rcases settleCursor_le marks dom ((nodesOf done).length + 1) parent with
                ⟨j, past, settle⟩
              have next : siblingOf marks dom ((nodesOf done).length :: parent) = j :: parent := by
                rw [siblingOf, if_pos bound, settle]
              by_cases text : kindAt dom (j :: parent) = some .text
              · right
                intro more isPrefix
                rw [written] at isPrefix
                simp only [Step.follow, advance, Hydrated.goto, Hydrated.cast, fine, next, text,
                  Bool.false_eq_true, if_false, if_true, List.append_assoc,
                  List.prefix_append_right_inj, List.singleton_append, List.cons_prefix_cons,
                  Prod.mk.injEq, List.cons.injEq, true_and, and_true] at isPrefix
                omega
              · left
                simp [Step.follow, advance, Hydrated.goto, Hydrated.cast, fine, next, text]

theorem branch_step {opens : Bool} {name : String} (inStep : InStep parent done state) :
    KeepsStep marks dom parent done (.branch opens name) state := by
  have isBranch : (Node.comment none (branchText opens name) : Node ι).isBranch = true :=
    startsAsBranch_branchText opens name
  refine ⟨⟨inStep.fine, ?_⟩, by simp [Step.follow, Step.nodes, writtenIn, Node.written]⟩
  rcases inStep.place with ⟨before, node, after, split, skipped, cursor, position⟩ |
    ⟨skipped, cursor, position⟩
  · refine Or.inl ⟨before, node, after ++ [.comment none (branchText opens name)], ?_, ?_, cursor,
      position⟩
    · simp [nodesOf, split, Step.nodes]
    · intro other member
      rcases List.mem_append.1 member with old | new
      · exact skipped other old
      · rw [List.mem_singleton.1 new, isBranch]
  · refine Or.inr ⟨?_, cursor, position⟩
    intro other member
    rw [nodesOf_append] at member
    rcases List.mem_append.1 member with old | new
    · exact skipped other old
    · rw [show other = .comment none (branchText opens name) by
        simpa [nodesOf, Step.nodes] using new, isBranch]

theorem placeholder_step {name : ι} {content : String} {more : List (Node ι)}
    (inStep : InStep parent done state)
    (row : childrenAt dom parent = nodesOf done ++ .comment (some name) content :: more)
    (sound : startsAsBranch content = false)
    (marked : ∀ other ∈ nodesOf done, other.isBranch = true → marks = true) :
    KeepsStep marks dom parent done (.placeholder name content) state := by
  have advance := advance_inStep inStep row sound marked
  have kind := kindAt_row row
  refine keepsStep_of_eq [] name .nextChild rfl (by simp) ?_ ?_
  · simp [Step.follow, nextPlaceholder, advance, Hydrated.cast, inStep.fine, kind, Node.kind]
  · simp [Step.nodes, writtenIn, Node.written]

/-- The cursor moves to an element's node and binds it. -/
theorem cast_element {name : ι} {tag attributes : String} {children more : List (Node ι)}
    (inStep : InStep parent done state)
    (row : childrenAt dom parent = nodesOf done ++ .element name tag attributes children :: more)
    (marked : ∀ other ∈ nodesOf done, other.isBranch = true → marks = true) :
    (state.advance marks dom).cast dom .element name =
      { cursor := (nodesOf done).length :: parent, position := state.position, failed := false,
        bound := state.bound ++ [(name, (nodesOf done).length :: parent)] } := by
  have advance := advance_inStep inStep row rfl marked
  have kind := kindAt_row row
  simp [advance, Hydrated.cast, inStep.fine, kind, Node.kind]

theorem void_step {name : ι} {tag attributes : String} {more : List (Node ι)}
    (inStep : InStep parent done state)
    (row : childrenAt dom parent = nodesOf done ++ .element name tag attributes [] :: more)
    (marked : ∀ other ∈ nodesOf done, other.isBranch = true → marks = true) :
    KeepsStep marks dom parent done (.void name tag attributes) state := by
  have cast := cast_element inStep row marked
  refine keepsStep_of_eq [] name .nextChild rfl (by simp) ?_ ?_
  · simp [Step.follow, cast]
  · simp [Step.nodes, writtenIn, Node.written]

/-- An element keeps step if its children do. -/
theorem element_keepsStep {name : ι} {tag attributes : String} {children : List (Step ι)}
    {start : Hydrated ι}
    (cast : (state.advance marks dom).cast dom .element name =
      { cursor := (nodesOf done).length :: parent, position := state.position, failed := false,
        bound := state.bound ++ [(name, (nodesOf done).length :: parent)] })
    (begins : start =
      { cursor := (nodesOf done).length :: parent,
        bound := state.bound ++ [(name, (nodesOf done).length :: parent)] })
    (fine : (followAll marks dom children start).failed = false)
    (bound : (followAll marks dom children start).bound = start.bound ++
      writtenIn (nodesOf children) 0 ((nodesOf done).length :: parent)) :
    KeepsStep marks dom parent done (.element name tag attributes children) state := by
  have follow : (Step.element name tag attributes children).follow marks dom state =
      { cursor := (nodesOf done).length :: parent, position := .nextChild, failed := false,
        bound := state.bound ++ ((name, (nodesOf done).length :: parent) ::
          writtenIn (nodesOf children) 0 ((nodesOf done).length :: parent)) } := by
    simp only [Step.follow, cast, ← begins, Hydrated.goto, fine, Bool.false_eq_true, if_false]
    rw [bound]
    simp [begins]
  rw [KeepsStep, follow]
  refine ⟨⟨rfl, Or.inl ⟨nodesOf done, .element name tag attributes (nodesOf children), [], ?_,
    by simp, rfl, by simp⟩⟩, ?_⟩
  · simp [nodesOf, Step.nodes]
  · simp [Step.nodes, writtenIn, Node.written]

/-- An element loses step if one of its children does. -/
theorem element_losesStep {name : ι} {tag attributes : String} {children : List (Step ι)}
    {start : Hydrated ι}
    (cast : (state.advance marks dom).cast dom .element name =
      { cursor := (nodesOf done).length :: parent, position := state.position, failed := false,
        bound := state.bound ++ [(name, (nodesOf done).length :: parent)] })
    (begins : start =
      { cursor := (nodesOf done).length :: parent,
        bound := state.bound ++ [(name, (nodesOf done).length :: parent)] })
    (lost : ¬ ((followAll marks dom children start).failed = false ∧
      (followAll marks dom children start).bound = start.bound ++
        writtenIn (nodesOf children) 0 ((nodesOf done).length :: parent))) :
    LosesStep marks dom parent done (.element name tag attributes children) state := by
  have follow : (Step.element name tag attributes children).follow marks dom state =
      { (followAll marks dom children start).goto (fun _ => (nodesOf done).length :: parent) with
        position := .nextChild } := by
    simp only [Step.follow, cast, begins]
  cases value : (followAll marks dom children start).failed with
  | true =>
      left
      rw [follow, Hydrated.failed_goto, value]
  | false =>
      right
      intro more isPrefix
      refine lost ⟨value, ?_⟩
      have whole : state.bound ++ writtenIn (Step.element name tag attributes children).nodes
          (nodesOf done).length parent =
          start.bound ++ writtenIn (nodesOf children) 0 ((nodesOf done).length :: parent) := by
        simp [begins, Step.nodes, writtenIn, Node.written]
      rw [follow, Hydrated.bound_goto, whole] at isPrefix
      have length := (after_followAll marks dom children start).length value
      have same := List.prefix_of_prefix_length_le isPrefix (List.prefix_append _ _) (by
        rw [length, List.length_append, length_written_nodesOf])
      exact same.eq_of_length (by rw [length, List.length_append, length_written_nodesOf])

theorem marked_concat {step : Step ι} (sound : step.Sound marks)
    (marked : ∀ other ∈ nodesOf done, other.isBranch = true → marks = true) :
    ∀ other ∈ nodesOf (done ++ [step]), other.isBranch = true → marks = true := by
  intro other member
  rw [nodesOf_append] at member
  rcases List.mem_append.1 member with old | new
  · exact marked other old
  · exact marked_of_step step sound other (by simpa [nodesOf] using new)

/-- Once a step is lost, the browser does not find back. -/
theorem lost_followAll {step : Step ι} {rest : List (Step ι)}
    (loses : LosesStep marks dom parent done step state) :
    ¬ ((followAll marks dom (step :: rest) state).failed = false ∧
      (followAll marks dom (step :: rest) state).bound =
        state.bound ++ writtenIn (nodesOf (step :: rest)) (nodesOf done).length parent) := by
  have after := after_followAll marks dom rest (step.follow marks dom state)
  intro both
  rcases both with ⟨fine, bound⟩
  rcases loses with failed | elsewhere
  · have stays := after.failed failed
    rw [followAll, stays] at fine
    cases fine
  · apply elsewhere (writtenIn (nodesOf rest) ((nodesOf done).length + step.nodes.length) parent)
    rw [List.append_assoc, ← writtenIn_append, ← nodesOf, ← bound]
    exact after.bound

mutual

theorem step_spec : ∀ (step : Step ι) (rest : List (Step ι)) (parent : Path)
    (done : List (Step ι)) (state : Hydrated ι), step.Sound marks → InStep parent done state →
    childrenAt dom parent = nodesOf done ++ (step.nodes ++ nodesOf rest) →
    (∀ other ∈ nodesOf done, other.isBranch = true → marks = true) →
    (step.aligned rest.isEmpty = true → KeepsStep marks dom parent done step state) ∧
    (step.aligned rest.isEmpty = false → LosesStep marks dom parent done step state)
  | .branch opens name, rest, parent, done, state, sound, inStep, row, marked =>
      ⟨fun _ => branch_step inStep, fun lost => by simp [Step.aligned] at lost⟩
  | .text name content escaped separated skips, rest, parent, done, state, sound, inStep, row,
      marked =>
      text_step inStep (by rw [row, List.append_assoc]) marked
  | .placeholder name content, rest, parent, done, state, sound, inStep, row, marked =>
      ⟨fun _ => placeholder_step inStep row sound marked,
        fun lost => by simp [Step.aligned] at lost⟩
  | .void name tag attributes, rest, parent, done, state, sound, inStep, row, marked =>
      ⟨fun _ => void_step inStep row marked, fun lost => by simp [Step.aligned] at lost⟩
  | .element name tag attributes children, rest, parent, done, state, sound, inStep, row,
      marked => by
      have cast := cast_element inStep row marked
      have inside : childrenAt dom ((nodesOf done).length :: parent) = nodesOf children := by
        simp [childrenAt, row, Step.nodes, Node.children]
      have inner := followAll_iff children ((nodesOf done).length :: parent) []
        { cursor := (nodesOf done).length :: parent,
          bound := state.bound ++ [(name, (nodesOf done).length :: parent)] } sound
        ⟨rfl, Or.inr ⟨by simp [nodesOf], rfl, rfl⟩⟩ inside (by simp [nodesOf])
      refine ⟨fun aligned => ?_, fun lost => ?_⟩
      · rcases inner.2 aligned with ⟨fine, bound⟩
        exact element_keepsStep cast rfl fine bound
      · refine element_losesStep cast rfl fun both => ?_
        rw [Step.aligned, inner.1 both] at lost
        cases lost

/-- Over a row of unmerged nodes, the browser binds every part to its own node if and only if the
steps are aligned. -/
theorem followAll_iff : ∀ (steps : List (Step ι)) (parent : Path) (done : List (Step ι))
    (state : Hydrated ι), AllSound marks steps → InStep parent done state →
    childrenAt dom parent = nodesOf done ++ nodesOf steps →
    (∀ other ∈ nodesOf done, other.isBranch = true → marks = true) →
    ((followAll marks dom steps state).failed = false ∧
      (followAll marks dom steps state).bound =
        state.bound ++ writtenIn (nodesOf steps) (nodesOf done).length parent ↔
      allAligned steps = true)
  | [], parent, done, state, sound, inStep, row, marked => by
      simp [followAll, allAligned, nodesOf, writtenIn, inStep.fine]
  | step :: rest, parent, done, state, sound, inStep, row, marked => by
      have spec := step_spec step rest parent done state sound.1 inStep row marked
      cases aligned : step.aligned rest.isEmpty with
      | true =>
          rcases spec.1 aligned with ⟨next, bound⟩
          have tail := followAll_iff rest parent (done ++ [step]) (step.follow marks dom state)
            sound.2 next (by rw [row]; simp [nodesOf]) (marked_concat sound.1 marked)
          have shift : (nodesOf (done ++ [step])).length =
              (nodesOf done).length + step.nodes.length := by simp [nodesOf]
          rw [bound, shift, List.append_assoc, ← writtenIn_append, ← nodesOf] at tail
          rw [followAll, allAligned, aligned, Bool.true_and]
          exact tail
      | false =>
          rw [allAligned, aligned, Bool.false_and]
          exact iff_of_false (lost_followAll (spec.2 aligned)) (by simp)

end

/-! ## A view -/

theorem branchSteps_sound (marks opens : Bool) (name : String) :
    AllSound marks (branchSteps marks opens name : List (Step ι)) := by
  cases marks <;> simp [branchSteps, AllSound, Step.Sound]

theorem allSound_append (left right : List (Step ι)) :
    AllSound marks (left ++ right) ↔ AllSound marks left ∧ AllSound marks right := by
  induction left with
  | nil => simp [AllSound]
  | cons step left ih => simp [AllSound, ih, and_assoc]

theorem startsAsBranch_empty : startsAsBranch "" = false := rfl

mutual

/-- What a script writes has texts that are not empty and placeholders that are no markers. -/
theorem script_sound (marks : Bool) : ∀ (view : View ι) (flags : Flags),
    AllSound marks (script marks view flags).1
  | .text name content, flags => by
      have written : (if content.isEmpty then " " else content) ≠ "" := by
        split
        · decide
        next some => simpa using some
      exact ⟨written, trivial⟩
  | .primitive name escapes shown, flags => ⟨shown.nonempty, trivial⟩
  | .unit name, flags => ⟨startsAsBranch_empty, trivial⟩
  | .element name type attributes children, flags => by
      have inner := script_sound marks children {}
      cases closing : type.selfClosing with
      | true => simp [script, closing, AllSound, Step.Sound]
      | false => cases present : children.exists_ <;>
          simp [script, closing, present, AllSound, Step.Sound, inner]
  | .tuple first rest, flags =>
      (allSound_append _ _).2 ⟨script_sound marks first flags, scriptAll_sound marks rest _⟩
  | .array items, flags => scriptAll_sound marks items flags
  | .either variant value, flags => by
      have inner := script_sound marks value flags
      simp [script, allSound_append, branchSteps_sound, inner]
  | .vec marker items, flags =>
      (allSound_append _ _).2 ⟨scriptAll_sound marks items flags, startsAsBranch_empty, trivial⟩
  | .staticVec marker items, flags =>
      (allSound_append _ _).2 ⟨scriptAll_sound marks items flags, startsAsBranch_empty, trivial⟩
  | .any placeholder typeId value, flags => by
      have inner := script_sound marks value flags
      have notBranch : startsAsBranch "<() />" = false := rfl
      cases present : value.exists_ <;>
        simp [script, present, allSound_append, branchSteps_sound, inner, AllSound, Step.Sound,
          notBranch]
  | .keyed marker items, flags => by
      have inner := scriptItems_sound marks items flags
      simp [script, allSound_append, branchSteps_sound, inner, AllSound, Step.Sound,
        startsAsBranch_empty]
  | .ok value, flags => script_sound marks value flags
  | .err placeholder, flags => ⟨startsAsBranch_empty, trivial⟩
  | .errorBoundary children, flags => script_sound marks children flags

theorem scriptAll_sound (marks : Bool) : ∀ (views : List (View ι)) (flags : Flags),
    AllSound marks (scriptAll marks views flags).1
  | [], _ => trivial
  | view :: rest, flags =>
      (allSound_append _ _).2 ⟨script_sound marks view flags, scriptAll_sound marks rest _⟩

theorem scriptItems_sound (marks : Bool) : ∀ (items : List (String × View ι)) (flags : Flags),
    AllSound marks (scriptItems marks items flags).1
  | [], _ => trivial
  | (key, view) :: rest, flags => by
      have head := script_sound marks view flags
      have tail := scriptItems_sound marks rest { (script marks view flags).2 with server := false }
      simp [scriptItems, allSound_append, branchSteps_sound, head, tail]

end

/-- The steps of a view rendered and hydrated as the only child of a container. -/
def View.steps (marks : Bool) (view : View ι) : List (Step ι) := (script marks view {}).1

/-- A view hydrates if and only if its texts are written apart and the browser skips the separators
between them. -/
theorem hydrates_iff {view : View ι} (plain : view.Plain) :
    Hydrates marks view ↔
      allApart false (view.steps marks) = true ∧ allAligned (view.steps marks) = true := by
  have sound : AllSound marks (view.steps marks) := script_sound marks view {}
  have html : toHtml marks view = writeAll (view.steps marks) :=
    (toHtml_eq_write marks view plain .firstChild {} rfl).1
  have follow (dom : List (Node ι)) :
      hydrate marks dom view {} = followAll marks dom (view.steps marks) {} :=
    (hydrate_eq_follow marks dom view plain {} {} ⟨by simp, rfl⟩).1
  have hydrates : Hydrates marks view ↔
      (followAll marks (addAll [] (view.steps marks)) (view.steps marks) {}).failed = false ∧
      (followAll marks (addAll [] (view.steps marks)) (view.steps marks) {}).bound =
        writtenIn (addAll [] (view.steps marks)) 0 [] ∧
      ((followAll marks (addAll [] (view.steps marks)) (view.steps marks) {}).bound.map
        Prod.snd).Nodup := by
    simp [Hydrates, html, parse_write, follow]
  rw [hydrates]
  cases apart : allApart false (view.steps marks) with
  | true =>
      have row : addAll [] (view.steps marks) = nodesOf (view.steps marks) := by
        simpa using addAll_of_apart (view.steps marks) [] false sound apart (by simp [endsInText])
      have inStep : InStep [] ([] : List (Step ι)) {} :=
        ⟨rfl, Or.inr ⟨by simp [nodesOf], rfl, rfl⟩⟩
      have iff := @followAll_iff _ marks (addAll [] (view.steps marks)) (view.steps marks) [] [] {}
        sound inStep (by simp [childrenAt, row, nodesOf]) (by simp [nodesOf])
      have nodup := nodup_writtenIn (nodesOf (view.steps marks)) 0 []
        (not_crowded_nodesOf (view.steps marks))
      rw [← row] at nodup iff
      simp only [List.nil_append, nodesOf, List.length_nil] at iff
      rw [← iff]
      refine ⟨fun all => ⟨rfl, all.1, all.2.1⟩, fun both => ⟨both.2.1, both.2.2, ?_⟩⟩
      rw [both.2.2]
      exact nodup
  | false =>
      have crowded := crowded_of_not_apart (view.steps marks) [] false sound apart (by simp)
      refine iff_of_false (fun all => ?_) (by simp)
      rw [all.2.1] at all
      exact crowded_writtenIn _ 0 [] crowded all.2.2

end Halyard.Hydration
