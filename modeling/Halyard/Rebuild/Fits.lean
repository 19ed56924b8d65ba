import Halyard.Rebuild.View

/-!
# What a state holds

`tops` are the nodes that a state puts under its parent, `foot` all its nodes.  `Fits` says that the
nodes of a state are as its view type has them, and `State.trees` what they show; both depend on the
nodes of `foot` only.

* `mount_eq`, `unmount_eq`, `insertBeforeThis_eq`: what `Mountable` does is done to `tops` in turn.
-/

namespace Halyard.Rebuild

namespace State

mutual

def tops : State → List ℕ
  | .text node _ => [node]
  | .placeholder node => [node]
  | .void node => [node]
  | .element node _ => [node]
  | .tuple states => allTops states
  | .either _ state => tops state
  | .list states marker => allTops states ++ [marker]
  | .any _ state extra => tops state ++ extra.toList

def allTops : List State → List ℕ
  | [] => []
  | state :: rest => tops state ++ allTops rest

end

mutual

def foot : State → List ℕ
  | .text node _ => [node]
  | .placeholder node => [node]
  | .void node => [node]
  | .element node children => node :: foot children
  | .tuple states => allFoot states
  | .either _ state => foot state
  | .list states marker => allFoot states ++ [marker]
  | .any _ state extra => foot state ++ extra.toList

def allFoot : List State → List ℕ
  | [] => []
  | state :: rest => foot state ++ allFoot rest

end

/-- What a node shows, with what its children show. -/
def treeOf : Content → List Tree → Tree
  | .text str, _ => .text str
  | .comment, _ => .comment
  | .element tag, children => .element tag children

mutual

/-- What the nodes of a state show. -/
def trees (d : Dom) : State → List Tree
  | .text node _ => [treeOf (d.content node) []]
  | .placeholder node => [treeOf (d.content node) []]
  | .void node => [treeOf (d.content node) []]
  | .element node children => [treeOf (d.content node) (trees d children)]
  | .tuple states => allTrees d states
  | .either _ state => trees d state
  | .list states marker => allTrees d states ++ [treeOf (d.content marker) []]
  | .any _ state extra => trees d state ++ extra.toList.map fun node => treeOf (d.content node) []

def allTrees (d : Dom) : List State → List Tree
  | [] => []
  | state :: rest => trees d state ++ allTrees d rest

end

mutual

/-- The state is one of a view of the type, and its nodes are as they should be. -/
def Fits (d : Dom) : State → ViewType → Prop
  | .text node str, .text => d.content node = .text str
  | .placeholder node, .unit => d.content node = .comment
  | .void node, .element tag true _ => d.content node = .element tag ∧ d.children node = []
  | .element node children, .element tag false type =>
      d.content node = .element tag ∧ d.children node = children.tops ∧ children.Fits d type
  | .element node children, .custom type =>
      (∃ tag : String, d.content node = .element tag.toLower) ∧ d.children node = children.tops ∧
        children.Fits d type
  | .tuple states, .tuple types => types ≠ .nil ∧ FitsEach d states types.toList
  | .tuple states, .array length type =>
      length ≠ 0 ∧ states.length = length ∧ FitsEach d states (.replicate states.length type)
  | .either branch state, .option type =>
      (branch = 0 ∧ state.Fits d type) ∨ (branch = 1 ∧ state.Fits d .unit)
  | .either branch state, .either types =>
      ∃ type, types.toList[branch]? = some type ∧ state.Fits d type
  | .either branch state, .result type =>
      (branch = 0 ∧ state.Fits d type) ∨ (branch = 1 ∧ state.Fits d .unit)
  | .list states marker, .vec type =>
      FitsEach d states (.replicate states.length type) ∧ d.content marker = .comment
  | .list states marker, .staticVec type =>
      FitsEach d states (.replicate states.length type) ∧ d.content marker = .comment
  | .any type state extra, .any =>
      state.Fits d type ∧ extra.isNone = type.exists ∧
        ∀ node ∈ extra.toList, d.content node = .comment
  | _, _ => False

def FitsEach (d : Dom) : List State → List ViewType → Prop
  | [], [] => True
  | state :: rest, type :: types => state.Fits d type ∧ FitsEach d rest types
  | _, _ => False

end

/-! ## Nodes -/

mutual

theorem tops_sublist (state : State) : state.tops.Sublist state.foot := by
  cases state with
  | text node str => exact .refl _
  | placeholder node => exact .refl _
  | void node => exact .refl _
  | element node children => exact (List.nil_sublist _).cons_cons node
  | tuple states => exact allTops_sublist states
  | either branch state => exact tops_sublist state
  | list states marker => exact (allTops_sublist states).append (.refl _)
  | any type state extra => exact (tops_sublist state).append (.refl _)

theorem allTops_sublist (states : List State) : (allTops states).Sublist (allFoot states) := by
  cases states with
  | nil => exact .refl _
  | cons state rest => exact (tops_sublist state).append (allTops_sublist rest)

end

theorem allTops_append (left right : List State) :
    allTops (left ++ right) = allTops left ++ allTops right := by
  induction left with
  | nil => rfl
  | cons state rest ih => rw [List.cons_append, allTops, allTops, ih, List.append_assoc]

/-! ## Mounting and unmounting -/

variable (parent : ℕ) (anchor : Option ℕ)

mutual

theorem mount_eq (state : State) (d : Dom) : mount parent anchor state d =
    state.tops.foldl (fun d node => d.insertNode parent node anchor) d := by
  cases state with
  | text node str => rfl
  | placeholder node => rfl
  | void node => rfl
  | element node children => rfl
  | tuple states => exact mountAll_eq states d
  | either branch state => exact mount_eq state d
  | list states marker =>
    rw [mount, mountAll_eq states d, tops, List.foldl_append]
    rfl
  | any type state extra =>
    cases extra with
    | none =>
      rw [mount, mount_eq state d, tops, Option.toList_none, List.append_nil]
    | some node =>
      rw [mount, mount_eq state d, tops, Option.toList_some, List.foldl_append]
      rfl

theorem mountAll_eq (states : List State) (d : Dom) : mountAll parent anchor states d =
    (allTops states).foldl (fun d node => d.insertNode parent node anchor) d := by
  cases states with
  | nil => rfl
  | cons state rest =>
    rw [mountAll, mountAll_eq rest, mount_eq state, allTops, List.foldl_append]

end

mutual

theorem unmount_eq (state : State) (d : Dom) : state.unmount d = state.tops.foldl Dom.remove d := by
  cases state with
  | text node str => rfl
  | placeholder node => rfl
  | void node => rfl
  | element node children => rfl
  | tuple states => exact unmountAll_eq states d
  | either branch state => exact unmount_eq state d
  | list states marker =>
    rw [unmount, unmountAll_eq states d, tops, List.foldl_append]
    rfl
  | any type state extra =>
    cases extra with
    | none => rw [unmount, unmount_eq state d, tops, Option.toList_none, List.append_nil]
    | some node =>
      rw [unmount, unmount_eq state d, tops, Option.toList_some, List.foldl_append]
      rfl

theorem unmountAll_eq (states : List State) (d : Dom) :
    unmountAll states d = (allTops states).foldl Dom.remove d := by
  cases states with
  | nil => rfl
  | cons state rest => rw [unmountAll, unmountAll_eq rest, unmount_eq state, allTops, List.foldl_append]

end

mutual

theorem insertBeforeThis_eq (child state : State) (d : Dom) : insertBeforeThis child state d =
    state.tops.findSome? fun node => child.insertBeforeNode node d := by
  cases state with
  | text node str => simp [insertBeforeThis, tops]
  | placeholder node => simp [insertBeforeThis, tops]
  | void node => simp [insertBeforeThis, tops]
  | element node children => simp [insertBeforeThis, tops]
  | tuple states => exact insertBeforeAny_eq child states d
  | either branch state => exact insertBeforeThis_eq child state d
  | list states marker =>
    rw [insertBeforeThis, insertBeforeAny_eq child states d, tops, List.findSome?_append]
    simp
  | any type state extra =>
    cases extra with
    | none => rw [insertBeforeThis, insertBeforeThis_eq child state d, tops, Option.toList_none,
        List.append_nil]
    | some node =>
      rw [insertBeforeThis, insertBeforeThis_eq child state d, tops, Option.toList_some,
        List.findSome?_append]
      simp

theorem insertBeforeAny_eq (child : State) (states : List State) (d : Dom) :
    insertBeforeAny child states d =
      (allTops states).findSome? fun node => child.insertBeforeNode node d := by
  cases states with
  | nil => rfl
  | cons state rest =>
    rw [insertBeforeAny, insertBeforeThis_eq child state d, insertBeforeAny_eq child rest d, allTops,
      List.findSome?_append]

end

/-! ## What a state depends on -/

variable {d d' : Dom}

mutual

theorem Fits.congr {state : State} {type : ViewType} (fits : state.Fits d type)
    (same : ∀ n ∈ state.foot, d'.content n = d.content n ∧ d'.children n = d.children n) :
    state.Fits d' type := by
  cases state with
  | text node str =>
    cases type with
    | text => exact (same node (by simp [foot])).1.trans fits
    | _ => exact fits.elim
  | placeholder node =>
    cases type with
    | unit => exact (same node (by simp [foot])).1.trans fits
    | _ => exact fits.elim
  | void node =>
    obtain ⟨content, children⟩ := same node (by simp [foot])
    cases type with
    | element tag closing type =>
      cases closing with
      | true => exact ⟨content.trans fits.1, children.trans fits.2⟩
      | false => exact fits.elim
    | _ => exact fits.elim
  | element node inner =>
    obtain ⟨content, children⟩ := same node (by simp [foot])
    have inside : ∀ n ∈ inner.foot, d'.content n = d.content n ∧ d'.children n = d.children n :=
      fun n member => same n (List.mem_cons_of_mem _ member)
    cases type with
    | element tag closing type =>
      cases closing with
      | true => exact fits.elim
      | false => exact ⟨content.trans fits.1, children.trans fits.2.1, fits.2.2.congr inside⟩
    | custom type =>
      obtain ⟨⟨tag, is⟩, holds, fits⟩ := fits
      exact ⟨⟨tag, content.trans is⟩, children.trans holds, fits.congr inside⟩
    | _ => exact fits.elim
  | tuple states =>
    cases type with
    | tuple types => exact ⟨fits.1, FitsEach.congr fits.2 same⟩
    | array length type => exact ⟨fits.1, fits.2.1, FitsEach.congr fits.2.2 same⟩
    | _ => exact fits.elim
  | either branch state =>
    cases type with
    | option type => exact fits.imp (And.imp_right (·.congr same)) (And.imp_right (·.congr same))
    | either types =>
      obtain ⟨type, is, fits⟩ := fits
      exact ⟨type, is, fits.congr same⟩
    | result type => exact fits.imp (And.imp_right (·.congr same)) (And.imp_right (·.congr same))
    | _ => exact fits.elim
  | list states marker =>
    have inside : ∀ n ∈ allFoot states, d'.content n = d.content n ∧ d'.children n = d.children n :=
      fun n member => same n (List.mem_append_left _ member)
    have last := (same marker (List.mem_append_right _ List.mem_cons_self)).1
    cases type with
    | vec type => exact ⟨FitsEach.congr fits.1 inside, last.trans fits.2⟩
    | staticVec type => exact ⟨FitsEach.congr fits.1 inside, last.trans fits.2⟩
    | _ => exact fits.elim
  | any held state extra =>
    cases type with
    | any =>
      refine ⟨fits.1.congr fun n member => same n (List.mem_append_left _ member), fits.2.1, ?_⟩
      intro node member
      exact (same node (List.mem_append_right _ member)).1.trans (fits.2.2 node member)
    | _ => exact fits.elim

theorem FitsEach.congr {states : List State} {types : List ViewType} (fits : FitsEach d states types)
    (same : ∀ n ∈ allFoot states, d'.content n = d.content n ∧ d'.children n = d.children n) :
    FitsEach d' states types := by
  cases states with
  | nil =>
    cases types with
    | nil => trivial
    | cons type types => exact fits.elim
  | cons state rest =>
    cases types with
    | nil => exact fits.elim
    | cons type types =>
      exact ⟨fits.1.congr fun n member => same n (List.mem_append_left _ member),
        FitsEach.congr fits.2 fun n member => same n (List.mem_append_right _ member)⟩

end

mutual

theorem trees_congr {state : State} (same : ∀ n ∈ state.foot, d'.content n = d.content n) :
    state.trees d' = state.trees d := by
  cases state with
  | text node str => rw [trees, trees, same node (by simp [foot])]
  | placeholder node => rw [trees, trees, same node (by simp [foot])]
  | void node => rw [trees, trees, same node (by simp [foot])]
  | element node inner =>
    rw [trees, trees, same node (by simp [foot]),
      trees_congr fun n member => same n (List.mem_cons_of_mem _ member)]
  | tuple states => exact allTrees_congr same
  | either branch state => exact @trees_congr state same
  | list states marker =>
    rw [trees, trees, same marker (by simp [foot]),
      allTrees_congr fun n member => same n (List.mem_append_left _ member)]
  | any type state extra =>
    rw [trees, trees, trees_congr fun n member => same n (List.mem_append_left _ member)]
    congr 1
    apply List.map_congr_left
    intro node member
    rw [same node (List.mem_append_right _ member)]

theorem allTrees_congr {states : List State} (same : ∀ n ∈ allFoot states, d'.content n = d.content n) :
    allTrees d' states = allTrees d states := by
  cases states with
  | nil => rfl
  | cons state rest =>
    rw [allTrees, allTrees, trees_congr fun n member => same n (List.mem_append_left _ member),
      allTrees_congr fun n member => same n (List.mem_append_right _ member)]

end

mutual

/-- A state of a view has a node under its parent. -/
theorem Fits.tops_ne_nil {state : State} {type : ViewType} (fits : state.Fits d type) :
    state.tops ≠ [] := by
  cases state with
  | text node str => simp [tops]
  | placeholder node => simp [tops]
  | void node => simp [tops]
  | element node inner => simp [tops]
  | tuple states =>
    cases type with
    | tuple types =>
      obtain ⟨some, fits⟩ := fits
      apply FitsEach.tops_ne_nil fits
      cases types with
      | nil => exact absurd rfl some
      | cons type rest => simp [ViewTypes.toList]
    | array length type =>
      obtain ⟨some, long, fits⟩ := fits
      apply FitsEach.tops_ne_nil fits
      rw [long]
      simp [some]
    | _ => exact fits.elim
  | either branch state =>
    cases type with
    | option type => exact fits.elim (·.2.tops_ne_nil) (·.2.tops_ne_nil)
    | either types =>
      obtain ⟨type, -, fits⟩ := fits
      exact fits.tops_ne_nil
    | result type => exact fits.elim (·.2.tops_ne_nil) (·.2.tops_ne_nil)
    | _ => exact fits.elim
  | list states marker => simp [tops]
  | any held state extra =>
    cases type with
    | any => simp [tops, fits.1.tops_ne_nil]
    | _ => exact fits.elim

theorem FitsEach.tops_ne_nil {states : List State} {types : List ViewType}
    (fits : FitsEach d states types) (some : types ≠ []) : allTops states ≠ [] := by
  cases states with
  | nil =>
    cases types with
    | nil => exact absurd rfl some
    | cons type types => exact fits.elim
  | cons state rest =>
    cases types with
    | nil => exact fits.elim
    | cons type types => simp [allTops, fits.1.tops_ne_nil]

end

end State

end Halyard.Rebuild
