import Halyard.Hydration.Script

/-!
# When the browser follows what the server wrote

The DOM that a script's HTML parses to is `addAll [] steps`.  In it, `Step.apart` says that no text
is written directly after a text, so that each keeps a node of its own, and `Step.aligned` that the
browser skips a separator exactly where there is one (or where there is nothing left to skip).

* `parse_write`: parsing the script's HTML gives `addAll [] steps`.
* `crowded_of_not_apart`, `addAll_of_apart`: texts merge exactly where the steps are not apart.
* `followAll_iff`: over a row of unmerged nodes, the browser binds every part to its own node if
  and only if the steps are aligned.
-/

namespace Halyard.Hydration

variable {ι : Type*}

/-! ## Parsing -/

mutual

/-- The children of an element after a step, where `nodes` are those before it. -/
def addStep (nodes : List (Node ι)) : Step ι → List (Node ι)
  | .branch opens name => nodes ++ [.comment none (branchText opens name)]
  | .text name content _ separated _ =>
      addText (if separated then nodes ++ [.comment none ""] else nodes) [name] content
  | .placeholder name content => nodes ++ [.comment (some name) content]
  | .void name tag attributes => nodes ++ [.element name tag attributes []]
  | .element name tag attributes children =>
      nodes ++ [.element name tag attributes (addAll [] children)]

def addAll (nodes : List (Node ι)) : List (Step ι) → List (Node ι)
  | [] => nodes
  | step :: rest => addAll (addStep nodes step) rest

end

mutual

theorem parsePieces_write : ∀ (step : Step ι) (rest : List (Piece ι)) (nodes : List (Node ι))
    (opened : List (Open ι)),
    parsePieces (step.write ++ rest) nodes opened = parsePieces rest (addStep nodes step) opened
  | .branch _ _, _, _, _ => rfl
  | .text _ _ _ separated _, _, _, _ => by cases separated <;> rfl
  | .placeholder _ _, _, _, _ => rfl
  | .void _ _ _, _, _, _ => rfl
  | .element name tag attributes children, rest, nodes, opened => by
      have inner := parsePieces_writeAll children (.closeTag tag :: rest) []
        (⟨name, tag, attributes, nodes⟩ :: opened)
      have close : parsePieces (.closeTag tag :: rest) (addAll [] children)
          (⟨name, tag, attributes, nodes⟩ :: opened) =
          parsePieces rest (nodes ++ [.element name tag attributes (addAll [] children)]) opened := by
        simp [parsePieces, parsePiece]
      rw [close] at inner
      simpa [Step.write, parsePieces, parsePiece, addStep] using inner

theorem parsePieces_writeAll : ∀ (steps : List (Step ι)) (rest : List (Piece ι))
    (nodes : List (Node ι)) (opened : List (Open ι)),
    parsePieces (writeAll steps ++ rest) nodes opened =
      parsePieces rest (addAll nodes steps) opened
  | [], _, _, _ => rfl
  | step :: steps, rest, nodes, opened => by
      rw [writeAll, List.append_assoc, parsePieces_write step, parsePieces_writeAll steps, addAll]

end

theorem parse_write (steps : List (Step ι)) : parse (writeAll steps) = some (addAll [] steps) := by
  have := parsePieces_writeAll steps [] [] []
  simpa [parse, parsePieces] using this

/-! ## Conditions on steps -/

def Step.isText : Step ι → Bool
  | .text .. => true
  | _ => false

mutual

/-- What a step's own values promise: a text is not empty, a branch marker is skipped, a
placeholder is not. -/
def Step.Sound (marks : Bool) : Step ι → Prop
  | .branch _ _ => marks = true
  | .text _ content _ _ _ => content ≠ ""
  | .placeholder _ content => startsAsBranch content = false
  | .void .. => True
  | .element _ _ _ children => AllSound marks children

def AllSound (marks : Bool) : List (Step ι) → Prop
  | [] => True
  | step :: rest => step.Sound marks ∧ AllSound marks rest

end

mutual

/-- No text is written directly after a text; `afterText` says whether the step follows one. -/
def Step.apart (afterText : Bool) : Step ι → Bool
  | .text _ _ _ separated _ => separated || !afterText
  | .element _ _ _ children => allApart false children
  | _ => true

def allApart (afterText : Bool) : List (Step ι) → Bool
  | [] => true
  | step :: rest => step.apart afterText && allApart step.isText rest

end

mutual

/-- The browser skips a separator where there is one, or nothing at the end of a row; `last` says
whether the step is its row's last. -/
def Step.aligned (last : Bool) : Step ι → Bool
  | .text _ _ _ separated skips => if skips then separated || last else !separated
  | .element _ _ _ children => allAligned children
  | _ => true

def allAligned : List (Step ι) → Bool
  | [] => true
  | step :: rest => step.aligned rest.isEmpty && allAligned rest

end

/-! ## Rows -/

mutual

/-- The nodes of a step whose text merges with none before it. -/
def Step.nodes : Step ι → List (Node ι)
  | .branch opens name => [.comment none (branchText opens name)]
  | .text name content _ separated _ =>
      (if separated then [.comment none ""] else []) ++ [.text [name] content]
  | .placeholder name content => [.comment (some name) content]
  | .void name tag attributes => [.element name tag attributes []]
  | .element name tag attributes children => [.element name tag attributes (nodesOf children)]

def nodesOf : List (Step ι) → List (Node ι)
  | [] => []
  | step :: rest => step.nodes ++ nodesOf rest

end

@[simp] theorem nodesOf_append (left right : List (Step ι)) :
    nodesOf (left ++ right) = nodesOf left ++ nodesOf right := by
  induction left with
  | nil => rfl
  | cons step left ih => simp [nodesOf, ih]

theorem nodes_ne_nil (step : Step ι) : step.nodes ≠ [] := by
  cases step <;> simp [Step.nodes]

/-- The nodes end in a text. -/
def endsInText (nodes : List (Node ι)) : Bool :=
  match nodes.getLast? with
  | some (.text ..) => true
  | _ => false

theorem addText_of_not_endsInText {nodes : List (Node ι)} {names : List ι} {content : String}
    (some : content ≠ "") (free : endsInText nodes = false) :
    addText nodes names content = nodes ++ [.text names content] := by
  unfold addText
  have written : content.isEmpty = false := by simpa using some
  rw [if_neg (by simp [written])]
  unfold endsInText at free
  cases last : nodes.getLast? with
  | none => rfl
  | some node =>
      rw [last] at free
      cases node with
      | text before start => cases free
      | comment name text => rfl
      | element name tag attributes children => rfl

@[simp] theorem endsInText_concat (nodes : List (Node ι)) (node : Node ι) :
    endsInText (nodes ++ [node]) = (node.kind == .text) := by
  cases node <;> simp [endsInText, Node.kind]

mutual

theorem addStep_of_apart {marks : Bool} : ∀ (step : Step ι) (nodes : List (Node ι))
    (afterText : Bool), step.Sound marks → step.apart afterText = true →
    (endsInText nodes = true → afterText = true) → addStep nodes step = nodes ++ step.nodes
  | .branch _ _, _, _, _, _, _ => rfl
  | .text name content escaped separated skips, nodes, afterText, sound, apart, ends => by
      cases separated with
      | true =>
          simp [addStep, Step.nodes, addText_of_not_endsInText sound, Node.kind]
      | false =>
          have free : endsInText nodes = false := by
            cases value : endsInText nodes with
            | false => rfl
            | true =>
                have := ends value
                simp [Step.apart, this] at apart
          simp [addStep, Step.nodes, addText_of_not_endsInText sound free]
  | .placeholder _ _, _, _, _, _, _ => rfl
  | .void _ _ _, _, _, _, _, _ => rfl
  | .element name tag attributes children, nodes, afterText, sound, apart, ends => by
      have inner := addAll_of_apart children [] false sound apart (by simp [endsInText])
      simp [addStep, Step.nodes, inner]

/-- Where texts are written apart, each keeps a node of its own. -/
theorem addAll_of_apart {marks : Bool} : ∀ (steps : List (Step ι)) (nodes : List (Node ι))
    (afterText : Bool), AllSound marks steps → allApart afterText steps = true →
    (endsInText nodes = true → afterText = true) → addAll nodes steps = nodes ++ nodesOf steps
  | [], _, _, _, _, _ => by simp [addAll, nodesOf]
  | step :: rest, nodes, afterText, sound, apart, ends => by
      simp only [allApart, Bool.and_eq_true] at apart
      have head := addStep_of_apart step nodes afterText sound.1 apart.1 ends
      have tail := addAll_of_apart rest (nodes ++ step.nodes) step.isText sound.2 apart.2 (by
        cases step <;> simp [Step.nodes, Step.isText, ← List.append_assoc, Node.kind])
      rw [addAll, head, tail, nodesOf, List.append_assoc]

end

/-! ## Merged texts -/

mutual

/-- Two parts wrote one text node. -/
def Node.crowded : Node ι → Bool
  | .text names _ => 1 < names.length
  | .comment .. => false
  | .element _ _ _ children => anyCrowded children

def anyCrowded : List (Node ι) → Bool
  | [] => false
  | node :: rest => node.crowded || anyCrowded rest

end

@[simp] theorem anyCrowded_append (left right : List (Node ι)) :
    anyCrowded (left ++ right) = (anyCrowded left || anyCrowded right) := by
  induction left with
  | nil => rfl
  | cons node left ih => simp [anyCrowded, ih, Bool.or_assoc]

/-- The nodes end in a text that some part wrote. -/
def EndsInNamed (nodes : List (Node ι)) : Prop :=
  ∃ before names content, nodes = before ++ [.text names content] ∧ names ≠ []

theorem addText_concat (before : List (Node ι)) (names more : List ι) (start : String)
    {content : String} (written : content ≠ "") :
    addText (before ++ [.text names start]) more content =
      before ++ [.text (names ++ more) (start ++ content)] := by
  simp [addText, written]

/-- A text is appended to the text it follows, or becomes a node. -/
theorem addText_cases (nodes : List (Node ι)) (name : ι) {content : String}
    (written : content ≠ "") :
    (∃ before names start, nodes = before ++ [.text names start] ∧
      addText nodes [name] content = before ++ [.text (names ++ [name]) (start ++ content)]) ∨
    addText nodes [name] content = nodes ++ [.text [name] content] := by
  cases ends : endsInText nodes with
  | false => exact Or.inr (addText_of_not_endsInText written ends)
  | true =>
      left
      unfold endsInText at ends
      split at ends
      next names start last =>
        rcases List.getLast?_eq_some_iff.1 last with ⟨before, rfl⟩
        exact ⟨before, names, start, rfl, addText_concat before names [name] start written⟩
      · cases ends

theorem endsInNamed_addText (nodes : List (Node ι)) (name : ι) {content : String}
    (written : content ≠ "") : EndsInNamed (addText nodes [name] content) := by
  rcases addText_cases nodes name written with ⟨before, names, start, -, value⟩ | value
  · exact ⟨before, names ++ [name], start ++ content, value, by simp⟩
  · exact ⟨nodes, [name], content, value, by simp⟩

theorem crowded_addText {nodes : List (Node ι)} (name : ι) {content : String}
    (written : content ≠ "") (crowded : anyCrowded nodes = true) :
    anyCrowded (addText nodes [name] content) = true := by
  rcases addText_cases nodes name written with ⟨before, names, start, rfl, value⟩ | value
  · rw [value]
    rw [anyCrowded_append] at crowded ⊢
    simp only [anyCrowded, Node.crowded, Bool.or_false, Bool.or_eq_true, decide_eq_true_eq,
      List.length_append, List.length_singleton] at crowded ⊢
    exact crowded.imp id fun many => by omega
  · rw [value, anyCrowded_append, crowded, Bool.true_or]

theorem crowded_addStep {marks : Bool} {nodes : List (Node ι)} {step : Step ι}
    (sound : step.Sound marks) (crowded : anyCrowded nodes = true) :
    anyCrowded (addStep nodes step) = true := by
  cases step with
  | text name content escaped separated skips =>
      cases separated with
      | true => exact crowded_addText name sound (by simp [crowded])
      | false => exact crowded_addText name sound crowded
  | branch | placeholder | void | element => simp [addStep, crowded]

theorem crowded_addAll {marks : Bool} {steps : List (Step ι)} {nodes : List (Node ι)}
    (sound : AllSound marks steps) (crowded : anyCrowded nodes = true) :
    anyCrowded (addAll nodes steps) = true := by
  induction steps generalizing nodes with
  | nil => exact crowded
  | cons step rest ih => exact ih sound.2 (crowded_addStep sound.1 crowded)

mutual

theorem crowded_of_step_not_apart {marks : Bool} : ∀ (step : Step ι) (nodes : List (Node ι))
    (afterText : Bool), step.Sound marks → step.apart afterText = false →
    (afterText = true → EndsInNamed nodes) → anyCrowded (addStep nodes step) = true
  | .branch _ _, _, _, _, apart, _ => by simp [Step.apart] at apart
  | .text name content _ separated _, nodes, afterText, sound, apart, ends => by
      simp only [Step.apart, Bool.or_eq_false_iff, Bool.not_eq_false'] at apart
      rcases apart with ⟨rfl, after⟩
      rcases ends after with ⟨before, names, start, rfl, named⟩
      have many : 1 < names.length + 1 := by
        have := List.length_pos_iff.2 named
        omega
      simp [addStep, addText_concat before names [name] start sound, anyCrowded, Node.crowded,
        many]
  | .placeholder _ _, _, _, _, apart, _ => by simp [Step.apart] at apart
  | .void _ _ _, _, _, _, apart, _ => by simp [Step.apart] at apart
  | .element _ _ _ children, nodes, _, sound, apart, _ => by
      have inner := crowded_of_not_apart children [] false sound apart (by simp)
      simp [addStep, anyCrowded, Node.crowded, inner]

/-- A text written directly after a text shares its node. -/
theorem crowded_of_not_apart {marks : Bool} : ∀ (steps : List (Step ι)) (nodes : List (Node ι))
    (afterText : Bool), AllSound marks steps → allApart afterText steps = false →
    (afterText = true → EndsInNamed nodes) → anyCrowded (addAll nodes steps) = true
  | [], _, _, _, apart, _ => by simp [allApart] at apart
  | step :: rest, nodes, afterText, sound, apart, ends => by
      rw [addAll]
      rcases Bool.and_eq_false_iff.1 apart with here | later
      · exact crowded_addAll sound.2 (crowded_of_step_not_apart step nodes afterText sound.1 here ends)
      · refine crowded_of_not_apart rest _ step.isText sound.2 later fun text => ?_
        cases step with
        | text name content escaped separated skips => exact endsInNamed_addText _ name sound.1
        | branch | placeholder | void | element => simp [Step.isText] at text

end

/-! ## No node twice -/

theorem writtenIn_append (left right : List (Node ι)) (first : ℕ) (parent : Path) :
    writtenIn (left ++ right) first parent =
      writtenIn left first parent ++ writtenIn right (first + left.length) parent := by
  induction left generalizing first with
  | nil => simp [writtenIn]
  | cons node left ih =>
      have shift : first + 1 + left.length = first + (left.length + 1) := by omega
      simp [writtenIn, ih, shift]

mutual

/-- Every part a node holds has a path that leads through the node. -/
theorem suffix_of_written : ∀ (node : Node ι) (path : Path) (name : ι) (at_ : Path),
    (name, at_) ∈ node.written path → path.IsSuffix at_
  | .text names _, path, name, at_, member => by
      simp only [Node.written, List.mem_map, Prod.mk.injEq] at member
      rcases member with ⟨_, _, _, rfl⟩
      exact List.suffix_refl _
  | .comment _ _, path, name, at_, member => by
      simp only [Node.written, List.mem_map, Prod.mk.injEq] at member
      rcases member with ⟨_, _, _, rfl⟩
      exact List.suffix_refl _
  | .element _ _ _ children, path, name, at_, member => by
      simp only [Node.written, List.mem_cons, Prod.mk.injEq] at member
      rcases member with ⟨-, rfl⟩ | inside
      · exact List.suffix_refl _
      · rcases suffix_of_writtenIn children 0 path name at_ inside with ⟨index, -, suffix⟩
        exact (List.suffix_cons index path).trans suffix

theorem suffix_of_writtenIn : ∀ (nodes : List (Node ι)) (first : ℕ) (parent : Path) (name : ι)
    (at_ : Path), (name, at_) ∈ writtenIn nodes first parent →
    ∃ index, first ≤ index ∧ (index :: parent).IsSuffix at_
  | [], _, _, _, _, member => by simp [writtenIn] at member
  | node :: rest, first, parent, name, at_, member => by
      rcases List.mem_append.1 member with here | later
      · exact ⟨first, le_refl _, suffix_of_written node _ name at_ here⟩
      · rcases suffix_of_writtenIn rest (first + 1) parent name at_ later with ⟨index, le, suffix⟩
        exact ⟨index, by omega, suffix⟩

end

theorem suffix_cons_inj {i j : ℕ} {parent path : Path} (left : (i :: parent).IsSuffix path)
    (right : (j :: parent).IsSuffix path) : i = j := by
  rcases left with ⟨before, rfl⟩
  rcases right with ⟨before', same⟩
  have := List.append_inj_right' same (by simp)
  simp only [List.cons.injEq, and_true] at this
  exact this.symm

mutual

theorem nodup_written : ∀ (node : Node ι) (path : Path), node.crowded = false →
    ((node.written path).map Prod.snd).Nodup
  | .text names _, path, single => by
      have few : names.length ≤ 1 := by simpa [Node.crowded] using single
      match names, few with
      | [], _ => simp [Node.written]
      | [name], _ => simp [Node.written]
  | .comment name _, path, _ => by cases name <;> simp [Node.written]
  | .element _ _ _ children, path, single => by
      rw [Node.written, List.map_cons, List.nodup_cons]
      refine ⟨?_, nodup_writtenIn children 0 path single⟩
      intro member
      rcases List.mem_map.1 member with ⟨⟨name, at_⟩, inside, rfl⟩
      rcases suffix_of_writtenIn children 0 at_ name at_ inside with ⟨index, -, suffix⟩
      have := suffix.length_le
      simp at this

/-- Where no text is merged, all parts have nodes of their own. -/
theorem nodup_writtenIn : ∀ (nodes : List (Node ι)) (first : ℕ) (parent : Path),
    anyCrowded nodes = false → ((writtenIn nodes first parent).map Prod.snd).Nodup
  | [], _, _, _ => by simp [writtenIn]
  | node :: rest, first, parent, single => by
      simp only [anyCrowded, Bool.or_eq_false_iff] at single
      rw [writtenIn, List.map_append, List.nodup_append]
      refine ⟨nodup_written node _ single.1, nodup_writtenIn rest _ _ single.2, ?_⟩
      intro path here path' later same
      subst same
      rcases List.mem_map.1 here with ⟨⟨name, at_⟩, inside, rfl⟩
      rcases List.mem_map.1 later with ⟨⟨name', at'⟩, inside', same⟩
      have suffix := suffix_of_written node _ name at_ inside
      rcases suffix_of_writtenIn rest _ parent name' at' inside' with ⟨index, le, suffix'⟩
      simp only at same
      subst same
      have := suffix_cons_inj suffix suffix'
      omega

end

mutual

theorem crowded_written : ∀ (node : Node ι) (path : Path), node.crowded = true →
    ¬ ((node.written path).map Prod.snd).Nodup
  | .text names _, path, many => by
      have many : 1 < names.length := by simpa [Node.crowded] using many
      match names, many with
      | first :: second :: rest, _ => simp [Node.written]
  | .comment _ _, _, many => by simp [Node.crowded] at many
  | .element _ _ _ children, path, many => by
      intro nodup
      rw [Node.written, List.map_cons, List.nodup_cons] at nodup
      exact crowded_writtenIn children 0 path many nodup.2

/-- A merged text holds two parts in one node. -/
theorem crowded_writtenIn : ∀ (nodes : List (Node ι)) (first : ℕ) (parent : Path),
    anyCrowded nodes = true → ¬ ((writtenIn nodes first parent).map Prod.snd).Nodup
  | [], _, _, many => by simp [anyCrowded] at many
  | node :: rest, first, parent, many => by
      intro nodup
      rw [writtenIn, List.map_append, List.nodup_append] at nodup
      rcases Bool.or_eq_true_iff.1 many with here | later
      · exact crowded_written node _ here nodup.1
      · exact crowded_writtenIn rest _ _ later nodup.2.1

end

mutual

theorem not_crowded_nodes : ∀ (step : Step ι), anyCrowded step.nodes = false
  | .branch _ _ => rfl
  | .text _ _ _ separated _ => by
      cases separated <;> simp [Step.nodes, anyCrowded, Node.crowded]
  | .placeholder _ _ => rfl
  | .void _ _ _ => rfl
  | .element _ _ _ children => by
      simp [Step.nodes, anyCrowded, Node.crowded, not_crowded_nodesOf children]

theorem not_crowded_nodesOf : ∀ (steps : List (Step ι)), anyCrowded (nodesOf steps) = false
  | [] => rfl
  | step :: rest => by
      rw [nodesOf, anyCrowded_append, not_crowded_nodes step, not_crowded_nodesOf rest]
      rfl

end

end Halyard.Hydration
