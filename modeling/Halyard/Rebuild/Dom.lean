import Halyard.Placement

/-!
# The document

What `Dom` of `halyard_tachys/src/renderer` does to the browser's document: nodes are created, moved
and removed one at a time.  Where `insertBefore` throws, it does nothing (the error is logged).

* `Dom.Wf`: children and parents agree.
* `Dom.Edits`: only the children of one node change; `insertNode_edits`, `remove_edits`.
-/

namespace Halyard.Rebuild

open Placement

inductive Content where
  | text (text : String)
  | comment
  | element (tag : String)
  deriving DecidableEq

/-- The nodes made so far, by number. -/
structure Dom where
  next : ℕ
  content : ℕ → Content
  children : ℕ → List ℕ
  parent : ℕ → Option ℕ

namespace Dom

/-- `create_text_node`, `create_placeholder` and `create_element`. -/
def create (d : Dom) (content : Content) : ℕ × Dom :=
  (d.next, { d with next := d.next + 1, content := Function.update d.content d.next content })

def setText (d : Dom) (node : ℕ) (text : String) : Dom :=
  { d with content := Function.update d.content node (.text text) }

def remove (d : Dom) (node : ℕ) : Dom :=
  match d.parent node with
  | none => d
  | some parent =>
      { d with
        children := Function.update d.children parent ((d.children parent).erase node)
        parent := Function.update d.parent node none }

/-- The node is put among the children of its new parent. -/
def link (d : Dom) (parent node : ℕ) (anchor : Option ℕ) : Dom :=
  { d with
    children := Function.update d.children parent (move node anchor (d.children parent))
    parent := Function.update d.parent node (some parent) }

def insertNode (d : Dom) (parent node : ℕ) (anchor : Option ℕ) : Dom :=
  match anchor with
  | none => (d.remove node).link parent node none
  | some before =>
      if d.parent before = some parent then (d.remove node).link parent node (some before) else d

/-! ## Well-formed documents -/

structure Wf (d : Dom) : Prop where
  linked : ∀ node parent, node ∈ d.children parent ↔ d.parent node = some parent
  nodup : ∀ parent, (d.children parent).Nodup
  fresh : ∀ node, d.next ≤ node → d.parent node = none ∧ d.children node = []

/-- Only the children of one node change. -/
structure Edits (d d' : Dom) (parent : ℕ) (list : List ℕ) : Prop where
  next : d'.next = d.next
  content : d'.content = d.content
  children : d'.children = Function.update d.children parent list

variable {d d' : Dom} {node parent : ℕ}

theorem Wf.parent_eq_none (wf : d.Wf) : d.parent node = none ↔ ∀ parent, node ∉ d.children parent := by
  constructor
  · intro none parent member
    rw [(wf.linked node parent).mp member] at none
    cases none
  · intro absent
    cases held : d.parent node with
    | none => rfl
    | some parent => exact absurd ((wf.linked node parent).mpr held) (absent parent)

theorem Wf.lt_next (wf : d.Wf) (member : node ∈ d.children parent) : node < d.next := by
  by_contra above
  have none := (wf.fresh node (Nat.le_of_not_lt above)).1
  rw [(wf.linked node parent).mp member] at none
  cases none

theorem Wf.create (wf : d.Wf) (content : Content) : (d.create content).2.Wf where
  linked := wf.linked
  nodup := wf.nodup
  fresh := fun node above => wf.fresh node (Nat.le_of_succ_le above)

theorem Wf.setText (wf : d.Wf) (text : String) : (d.setText node text).Wf :=
  ⟨wf.linked, wf.nodup, wf.fresh⟩

theorem remove_of_free (free : d.parent node = none) : d.remove node = d := by
  rw [remove, free]

@[simp] theorem remove_parent : (d.remove node).parent node = none := by
  cases held : d.parent node with
  | none => rw [remove_of_free held, held]
  | some parent =>
    rw [remove, held]
    exact Function.update_self ..

theorem remove_free {other : ℕ} (free : d.parent other = none) : (d.remove node).parent other = none := by
  by_cases same : other = node
  · subst same
    exact remove_parent
  · unfold remove
    cases d.parent node with
    | none => exact free
    | some parent => exact (Function.update_of_ne same ..).trans free

/-- The other nodes keep their parents. -/
theorem insertNode_parent {other : ℕ} {anchor : Option ℕ} (ne : other ≠ node) :
    (d.insertNode parent node anchor).parent other = d.parent other := by
  have removed : (d.remove node).parent other = d.parent other := by
    unfold remove
    cases d.parent node with
    | none => rfl
    | some parent => exact Function.update_of_ne ne ..
  have linked : ((d.remove node).link parent node anchor).parent other = d.parent other := by
    rw [← removed]
    exact Function.update_of_ne ne ..
  cases anchor with
  | none => exact linked
  | some before =>
    unfold insertNode
    dsimp only
    split
    · exact linked
    · rfl

/-- A node that is in no place yet is inserted before the rest. -/
theorem insertNode_edits (wf : d.Wf) {before after : List ℕ} (free : d.parent node = none)
    (made : node < d.next) (there : parent < d.next) (children : d.children parent = before ++ after) :
    (d.insertNode parent node after.head?).Wf ∧
      Edits d (d.insertNode parent node after.head?) parent (before ++ node :: after) := by
  have absent := (wf.parent_eq_none.mp free) parent
  have nodup := wf.nodup parent
  have placed : move node after.head? (d.children parent) = before ++ node :: after := by
    unfold move
    rw [List.erase_of_not_mem absent, children]
    rw [children] at nodup
    cases after with
    | nil => simp
    | cons anchor rest =>
      have first : anchor ∉ before := fun member =>
        (List.nodup_append.mp nodup).2.2 anchor member anchor List.mem_cons_self rfl
      exact insertBefore_of_split first
  have inserted : d.insertNode parent node after.head? = d.link parent node after.head? := by
    unfold insertNode
    rw [remove_of_free free]
    cases after with
    | nil => rfl
    | cons anchor rest =>
      have held : d.parent anchor = some parent := by
        rw [← wf.linked, children]
        simp
      rw [List.head?_cons]
      exact if_pos held
  rw [inserted]
  have edits : Edits d (d.link parent node after.head?) parent (before ++ node :: after) :=
    ⟨rfl, rfl, by rw [link, placed]⟩
  refine ⟨⟨?_, ?_, ?_⟩, edits⟩
  · intro n p
    rw [edits.children]
    change _ ↔ Function.update d.parent node (some parent) n = some p
    by_cases same : n = node
    · subst same
      rw [Function.update_self, Option.some.injEq]
      by_cases here : p = parent
      · subst here
        simp
      · rw [Function.update_of_ne here]
        have no := (wf.parent_eq_none.mp free) p
        simp [no, Ne.symm here]
    · rw [Function.update_of_ne same, ← wf.linked]
      by_cases here : p = parent
      · subst here
        rw [Function.update_self, children]
        simp [same]
      · rw [Function.update_of_ne here]
  · intro p
    rw [edits.children]
    by_cases here : p = parent
    · subst here
      rw [Function.update_self]
      rw [children] at nodup absent
      exact List.nodup_middle.mpr (List.nodup_cons.mpr ⟨absent, nodup⟩)
    · rw [Function.update_of_ne here]
      exact wf.nodup p
  · intro n above
    change Function.update d.parent node (some parent) n = none ∧ _
    have other : n ≠ node := (Nat.lt_of_lt_of_le made above).ne'
    have other' : n ≠ parent := (Nat.lt_of_lt_of_le there above).ne'
    rw [Function.update_of_ne other, edits.children, Function.update_of_ne other']
    exact wf.fresh n above

theorem remove_edits (wf : d.Wf) {before after : List ℕ}
    (children : d.children parent = before ++ node :: after) :
    (d.remove node).Wf ∧ Edits d (d.remove node) parent (before ++ after) := by
  have held : d.parent node = some parent := by
    rw [← wf.linked, children]
    simp
  have nodup := wf.nodup parent
  rw [children] at nodup
  have apart := List.nodup_cons.mp (List.nodup_middle.mp nodup)
  have erased : (d.children parent).erase node = before ++ after := by
    rw [children, List.erase_append_right, List.erase_cons_head]
    exact fun member => apart.1 (List.mem_append_left _ member)
  have removed : d.remove node =
      { d with
        children := Function.update d.children parent (before ++ after)
        parent := Function.update d.parent node none } := by
    rw [remove, held, ← erased]
  rw [removed]
  refine ⟨⟨?_, ?_, ?_⟩, ⟨rfl, rfl, rfl⟩⟩
  · intro n p
    change n ∈ Function.update d.children parent (before ++ after) p ↔
      Function.update d.parent node none n = some p
    by_cases same : n = node
    · subst same
      rw [Function.update_self]
      by_cases here : p = parent
      · subst here
        rw [Function.update_self]
        simp [apart.1]
      · rw [Function.update_of_ne here, wf.linked, held]
        simp [Ne.symm here]
    · rw [Function.update_of_ne same, ← wf.linked]
      by_cases here : p = parent
      · subst here
        rw [Function.update_self, children]
        simp [same]
      · rw [Function.update_of_ne here]
  · intro p
    change (Function.update d.children parent (before ++ after) p).Nodup
    by_cases here : p = parent
    · subst here
      rw [Function.update_self]
      exact apart.2
    · rw [Function.update_of_ne here]
      exact wf.nodup p
  · intro n above
    obtain ⟨free, none⟩ := wf.fresh n above
    change Function.update d.parent node Option.none n = Option.none ∧
      Function.update d.children parent (before ++ after) n = []
    have other : n ≠ node := by
      rintro rfl
      rw [held] at free
      cases free
    have other' : n ≠ parent := by
      rintro rfl
      rw [none] at children
      exact absurd children (by simp)
    rw [Function.update_of_ne other, Function.update_of_ne other']
    exact ⟨free, none⟩

/-! ### Several nodes -/

theorem Edits.trans {d'' : Dom} {list list' : List ℕ} (first : Edits d d' parent list)
    (second : Edits d' d'' parent list') : Edits d d'' parent list' where
  next := second.next.trans first.next
  content := second.content.trans first.content
  children := by rw [second.children, first.children, Function.update_idem]

theorem Edits.refl (d : Dom) (parent : ℕ) : Edits d d parent (d.children parent) :=
  ⟨rfl, rfl, (Function.update_eq_self _ _).symm⟩

/-- The nodes that do not come or go keep their parent. -/
theorem Edits.parent_eq {list : List ℕ} (edits : Edits d d' parent list) (wf : d.Wf) (wf' : d'.Wf)
    (same : node ∈ list ↔ node ∈ d.children parent) : d'.parent node = d.parent node := by
  have all : ∀ p, node ∈ d'.children p ↔ node ∈ d.children p := by
    intro p
    rw [edits.children]
    by_cases here : p = parent
    · subst here
      rw [Function.update_self]
      exact same
    · rw [Function.update_of_ne here]
  refine Option.ext fun p => ?_
  rw [← wf.linked, ← wf'.linked]
  exact all p

/-- Nodes that are in no place yet are inserted in turn before the rest. -/
theorem insertAll_edits (nodes : List ℕ) (wf : d.Wf) {before after : List ℕ}
    (free : ∀ node ∈ nodes, d.parent node = none ∧ node < d.next) (distinct : nodes.Nodup)
    (there : parent < d.next) (children : d.children parent = before ++ after) :
    (nodes.foldl (fun d node => d.insertNode parent node after.head?) d).Wf ∧
      Edits d (nodes.foldl (fun d node => d.insertNode parent node after.head?) d) parent
        (before ++ nodes ++ after) := by
  induction nodes generalizing d before with
  | nil =>
    refine ⟨wf, ?_⟩
    have same := Edits.refl d parent
    rw [children] at same
    simpa using same
  | cons node rest ih =>
    obtain ⟨fresh, distinct⟩ := List.nodup_cons.mp distinct
    obtain ⟨none, made⟩ := free node List.mem_cons_self
    obtain ⟨wf', edits⟩ := insertNode_edits wf none made there children
    have children' : (d.insertNode parent node after.head?).children parent =
        (before ++ [node]) ++ after := by
      rw [edits.children, Function.update_self]
      simp
    have free' : ∀ other ∈ rest, (d.insertNode parent node after.head?).parent other = Option.none ∧
        other < (d.insertNode parent node after.head?).next := by
      intro other member
      obtain ⟨none', made'⟩ := free other (List.mem_cons_of_mem _ member)
      rw [edits.next]
      refine ⟨?_, made'⟩
      rw [wf'.parent_eq_none]
      intro p
      rw [edits.children]
      by_cases here : p = parent
      · subst here
        have absent := (wf.parent_eq_none.mp none') p
        rw [children] at absent
        rw [Function.update_self]
        have apart : other ≠ node := fun same => fresh (same ▸ member)
        simpa [apart] using absent
      · rw [Function.update_of_ne here]
        exact (wf.parent_eq_none.mp none') p
    obtain ⟨wf'', edits'⟩ := ih wf' free' distinct (by rw [edits.next]; exact there) children'
    refine ⟨wf'', ?_⟩
    have all := edits.trans edits'
    simpa using all

/-- Nodes are removed in turn. -/
theorem removeAll_edits (nodes : List ℕ) (wf : d.Wf) {before after : List ℕ}
    (children : d.children parent = before ++ nodes ++ after) :
    (nodes.foldl remove d).Wf ∧ Edits d (nodes.foldl remove d) parent (before ++ after) := by
  induction nodes generalizing d with
  | nil =>
    refine ⟨wf, ?_⟩
    have same := Edits.refl d parent
    rw [children] at same
    simpa using same
  | cons node rest ih =>
    have first : d.children parent = before ++ node :: (rest ++ after) := by
      rw [children]
      simp
    obtain ⟨wf', edits⟩ := remove_edits wf first
    have children' : (d.remove node).children parent = before ++ rest ++ after := by
      rw [edits.children, Function.update_self]
      simp
    obtain ⟨wf'', edits'⟩ := ih wf' children'
    exact ⟨wf'', edits.trans edits'⟩

theorem removeAll_free (nodes : List ℕ) (free : d.parent node = none) :
    (nodes.foldl remove d).parent node = none := by
  induction nodes generalizing d with
  | nil => exact free
  | cons other rest ih => exact ih (remove_free free)

end Dom

end Halyard.Rebuild
