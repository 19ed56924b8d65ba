import Halyard.Rebuild.Build

/-!
# Putting states in the place of others

`Placed` says where states stand.  `Rebuilt` says what has become of them: other states stand in their
place, of the same nodes and of new ones, and nothing else has changed.

* `Rebuilt.append`: states that stand after one another are rebuilt in turn.
* `Rebuilt.replace`: what was built takes the place of an old state.
-/

namespace Halyard.Rebuild

open State

variable {d d₁ d₂ : Dom} {parent : ℕ} {before after : List ℕ}

/-- The states stand under `parent`, between `before` and `after`. -/
structure Placed (d : Dom) (parent : ℕ) (before after : List ℕ) (states : List State) : Prop where
  wf : d.Wf
  nodup : (allFoot states).Nodup
  bound : ∀ n ∈ allFoot states, n < d.next
  children : d.children parent = before ++ allTops states ++ after
  outside : parent ∉ allFoot states
  there : parent < d.next

/-- From `d` to `d'`, states of the types have taken the place of the old ones. -/
structure Rebuilt (d : Dom) (parent : ℕ) (before after : List ℕ) (old : List State)
    (types : List ViewType) (shown : List Tree) (states : List State) (d' : Dom) : Prop where
  placed : Placed d' parent before after states
  fits : FitsEach d' states types
  trees : allTrees d' states = shown
  nodes : ∀ n ∈ allFoot states, n ∈ allFoot old ∨ d.next ≤ n
  le : d.next ≤ d'.next
  kept : ∀ n < d.next, n ∉ allFoot old →
    d'.content n = d.content n ∧ (n ≠ parent → d'.children n = d.children n)

namespace Placed

variable {old old' : List State}

theorem left (placed : Placed d parent before after (old ++ old')) :
    Placed d parent before (allTops old' ++ after) old where
  wf := placed.wf
  nodup := by
    have nodup := placed.nodup
    rw [allFoot_append] at nodup
    exact (List.nodup_append.mp nodup).1
  bound := by
    intro n member
    apply placed.bound
    rw [allFoot_append]
    exact List.mem_append_left _ member
  children := by rw [placed.children, allTops_append]; simp
  outside := by
    have outside := placed.outside
    rw [allFoot_append] at outside
    exact fun member => outside (List.mem_append_left _ member)
  there := placed.there

theorem congr (placed : Placed d parent before after old) (foot : allFoot old' = allFoot old)
    (tops : allTops old' = allTops old) : Placed d parent before after old' where
  wf := placed.wf
  nodup := by rw [foot]; exact placed.nodup
  bound := by rw [foot]; exact placed.bound
  children := by rw [tops]; exact placed.children
  outside := by rw [foot]; exact placed.outside
  there := placed.there

/-- A list's states stand before its marker. -/
theorem list {marker : ℕ} (placed : Placed d parent before after [.list old marker]) :
    Placed d parent before after (old ++ [.placeholder marker]) := by
  apply placed.congr
  · rw [allFoot_append, allFoot_one, allFoot_one, foot, foot]
  · rw [allTops_append, allTops_one, allTops_one, tops, tops]

theorem any {type : ViewType} {state : State} {extra : Option ℕ}
    (placed : Placed d parent before after [.any type state extra]) :
    Placed d parent before (extra.toList ++ after) [state] := by
  have children := placed.children
  rw [allTops_one, tops] at children
  have nodup := placed.nodup
  have bound := placed.bound
  have outside := placed.outside
  rw [allFoot_one, foot] at nodup bound outside
  exact {
    wf := placed.wf
    nodup := by rw [allFoot_one]; exact (List.nodup_append.mp nodup).1
    bound := by rw [allFoot_one]; exact fun n member => bound n (List.mem_append_left _ member)
    children := by rw [children, allTops_one]; simp
    outside := by rw [allFoot_one]; exact fun member => outside (List.mem_append_left _ member)
    there := placed.there }

/-- The later states have other nodes than the earlier ones. -/
theorem apart (placed : Placed d parent before after (old ++ old')) {n : ℕ} (member : n ∈ allFoot old') :
    n ∉ allFoot old ∧ n < d.next ∧ n ≠ parent := by
  have nodup := placed.nodup
  rw [allFoot_append] at nodup
  have all : n ∈ allFoot (old ++ old') := by
    rw [allFoot_append]
    exact List.mem_append_right _ member
  refine ⟨?_, placed.bound n all, ?_⟩
  · exact fun member' => (List.nodup_append.mp nodup).2.2 n member' n member rfl
  · rintro rfl
    exact placed.outside all

end Placed

namespace Rebuilt

variable {old old' states states' : List State} {types types' : List ViewType}
  {shown shown' : List Tree}

theorem refl (placed : Placed d parent before after states) (fits : FitsEach d states types) :
    Rebuilt d parent before after states types (allTrees d states) states d where
  placed := placed
  fits := fits
  trees := rfl
  nodes := fun _ => .inl
  le := Nat.le_refl _
  kept := fun _ _ _ => ⟨rfl, fun _ => rfl⟩

/-- What was built has been put between `before` and `after`. -/
theorem of_edits (placed : Placed d parent before after old) (built : Built d types shown states d₁)
    (wf : d₂.Wf) (edits : Dom.Edits d₁ d₂ parent (before ++ allTops states ++ after)) :
    Rebuilt d parent before after old types shown states d₂ := by
  have apart : parent ∉ allFoot states :=
    fun member => Nat.not_lt.mpr (built.new parent member).1 placed.there
  have other : ∀ n, n ≠ parent → d₂.children n = d₁.children n := by
    intro n ne
    rw [edits.children, Function.update_of_ne ne]
  have inside : ∀ n ∈ allFoot states, d₂.content n = d₁.content n ∧ d₂.children n = d₁.children n := by
    intro n member
    refine ⟨by rw [edits.content], other n ?_⟩
    rintro rfl
    exact apart member
  exact {
    placed := {
      wf := wf
      nodup := built.nodup
      bound := fun n member => by rw [edits.next]; exact (built.new n member).2
      children := by rw [edits.children, Function.update_self]
      outside := apart
      there := by rw [edits.next]; exact placed.there.trans_le built.le }
    fits := built.fits.congr inside
    trees := by rw [allTrees_congr fun n member => (inside n member).1, built.trees]
    nodes := fun n member => .inr (built.new n member).1
    le := by rw [edits.next]; exact built.le
    kept := by
      intro n below _
      obtain ⟨content, children, -⟩ := built.kept n below
      refine ⟨by rw [edits.content, content], fun ne => ?_⟩
      rw [other n ne, children] }

/-! ## One after another -/

section Append

variable (placed : Placed d parent before after (old ++ old'))
  (first : Rebuilt d parent before (allTops old' ++ after) old types shown states d₁)

include placed first

/-- The states after those that are rebuilt stay where they are. -/
theorem rest : Placed d₁ parent (before ++ allTops states) after old' where
  wf := first.placed.wf
  nodup := by
    have nodup := placed.nodup
    rw [allFoot_append] at nodup
    exact (List.nodup_append.mp nodup).2.1
  bound := fun n member => (placed.apart member).2.1.trans_le first.le
  children := by rw [first.placed.children]; simp
  outside := fun member => (placed.apart member).2.2 rfl
  there := first.placed.there

theorem rest_fits (fits : FitsEach d old' types') : FitsEach d₁ old' types' := by
  apply fits.congr
  intro n member
  obtain ⟨apart, below, ne⟩ := placed.apart member
  obtain ⟨content, children⟩ := first.kept n below apart
  exact ⟨content, children ne⟩

theorem append
    (second : Rebuilt d₁ parent (before ++ allTops states) after old' types' shown' states' d₂) :
    Rebuilt d parent before after (old ++ old') (types ++ types') (shown ++ shown')
      (states ++ states') d₂ := by
  have apart : ∀ n ∈ allFoot states, n ∉ allFoot old' ∧ n < d₁.next ∧ n ≠ parent := by
    intro n member
    refine ⟨?_, first.placed.bound n member, ?_⟩
    · intro member'
      obtain ⟨other, below, -⟩ := placed.apart member'
      cases first.nodes n member with
      | inl held => exact other held
      | inr above => exact Nat.not_lt.mpr above below
    · rintro rfl
      exact first.placed.outside member
  have inside : ∀ n ∈ allFoot states, d₂.content n = d₁.content n ∧ d₂.children n = d₁.children n := by
    intro n member
    obtain ⟨other, below, ne⟩ := apart n member
    obtain ⟨content, children⟩ := second.kept n below other
    exact ⟨content, children ne⟩
  exact {
    placed := {
      wf := second.placed.wf
      nodup := by
        rw [allFoot_append]
        refine List.nodup_append.mpr ⟨first.placed.nodup, second.placed.nodup, ?_⟩
        rintro n member _ member' rfl
        obtain ⟨other, below, -⟩ := apart n member
        cases second.nodes n member' with
        | inl held => exact other held
        | inr above => exact Nat.not_lt.mpr above below
      bound := by
        intro n member
        rw [allFoot_append, List.mem_append] at member
        cases member with
        | inl member => exact (first.placed.bound n member).trans_le second.le
        | inr member => exact second.placed.bound n member
      children := by rw [second.placed.children, allTops_append]; simp
      outside := by
        rw [allFoot_append, List.mem_append]
        exact not_or.mpr ⟨first.placed.outside, second.placed.outside⟩
      there := second.placed.there }
    fits := (first.fits.congr inside).append second.fits
    trees := by
      rw [allTrees_append, second.trees, allTrees_congr fun n member => (inside n member).1, first.trees]
    nodes := by
      intro n member
      rw [allFoot_append, List.mem_append] at member
      rw [allFoot_append, List.mem_append]
      cases member with
      | inl member => exact (first.nodes n member).imp_left .inl
      | inr member => exact (second.nodes n member).imp .inr first.le.trans
    le := first.le.trans second.le
    kept := by
      intro n below absent
      rw [allFoot_append, List.mem_append, not_or] at absent
      obtain ⟨content, children⟩ := first.kept n below absent.1
      obtain ⟨content', children'⟩ := second.kept n (below.trans_le first.le) absent.2
      exact ⟨content'.trans content, fun ne => (children' ne).trans (children ne)⟩ }

end Append

/-! ## Insertion, removal and replacement -/

/-- What was built is mounted between `before` and what follows. -/
theorem mounted (built : Built d types shown states d₁) (there : parent < d.next) {follows : List ℕ}
    (children : d.children parent = before ++ follows) :
    ((allTops states).foldl (fun d node => d.insertNode parent node follows.head?) d₁).Wf ∧
      Dom.Edits d₁ ((allTops states).foldl (fun d node => d.insertNode parent node follows.head?) d₁)
        parent (before ++ allTops states ++ follows) := by
  apply Dom.insertAll_edits _ built.wf
  · exact fun n member => ⟨built.free n member, (built.new n (allTops_subset member)).2⟩
  · exact built.nodup.sublist (allTops_sublist states)
  · exact there.trans_le built.le
  · rw [(built.kept parent there).2.1, children]

theorem insert (placed : Placed d parent before after []) (built : Built d types shown states d₁) :
    Rebuilt d parent before after [] types shown states
      ((allTops states).foldl (fun d node => d.insertNode parent node after.head?) d₁) := by
  have children := placed.children
  rw [allTops, List.append_nil] at children
  obtain ⟨wf, edits⟩ := mounted built placed.there children
  exact of_edits placed built wf edits

theorem remove (placed : Placed d parent before after old) :
    Rebuilt d parent before after old [] [] [] (unmountAll old d) := by
  rw [unmountAll_eq]
  obtain ⟨wf, edits⟩ := Dom.removeAll_edits (allTops old) placed.wf placed.children
  refine of_edits placed (.nil placed.wf) wf ?_
  rw [allTops, List.append_nil]
  exact edits

/-- An old state finds its place by its first node. -/
theorem insertBeforeThis_first {state new : State} {first : ℕ} {others : List ℕ}
    (tops : state.tops = first :: others) (held : d.parent first = some parent) :
    insertBeforeThis new state d =
      some (new.tops.foldl (fun d node => d.insertNode parent node (some first)) d) := by
  rw [insertBeforeThis_eq, tops, List.findSome?_cons, insertBeforeNode, held, Option.map_some, mount_eq]

theorem replace {state new : State} (placed : Placed d parent before after [state])
    (shows : state.tops ≠ []) (built : Built d types shown [new] d₁) :
    Rebuilt d parent before after [state] types shown [(state.replace (new, d₁)).1]
      (state.replace (new, d₁)).2 := by
  obtain ⟨first, others, tops⟩ := List.exists_cons_of_ne_nil shows
  have children := placed.children
  rw [allTops_one, List.append_assoc] at children
  obtain ⟨wf, edits⟩ := mounted built placed.there children
  have held : d₁.parent first = some parent := by
    rw [← built.wf.linked, (built.kept parent placed.there).2.1, children, tops]
    simp
  rw [State.replace]
  simp only
  rw [insertBeforeThis_first tops held, Option.getD_some, unmount_eq]
  rw [allTops_one] at wf edits
  have head : (state.tops ++ after).head? = some first := by rw [tops]; rfl
  rw [head] at wf edits
  have children' : (new.tops.foldl (fun d node => d.insertNode parent node (some first)) d₁).children
      parent = (before ++ new.tops) ++ state.tops ++ after := by
    rw [edits.children, Function.update_self, List.append_assoc _ state.tops]
  have children' : (new.tops.foldl (fun d node => d.insertNode parent node (some first)) d₁).children
      parent = (before ++ new.tops) ++ state.tops ++ after := by
    rw [edits.children, Function.update_self, List.append_assoc _ state.tops]
  obtain ⟨wf', edits'⟩ := Dom.removeAll_edits state.tops wf children'
  refine of_edits placed built wf' ?_
  rw [allTops_one]
  exact edits.trans edits'

/-! ## Before a marker -/

theorem mountBefore_eq {state : State} {marker : ℕ} (held : d.parent marker = some parent) :
    state.mountBefore marker d =
      state.tops.foldl (fun d node => d.insertNode parent node (some marker)) d := by
  rw [mountBefore, insertBeforeNode, held, Option.map_some, Option.getD_some, mount_eq]

theorem parent_foldl {marker : ℕ} (nodes : List ℕ) (absent : marker ∉ nodes) (d : Dom) :
    (nodes.foldl (fun d node => d.insertNode parent node (some marker)) d).parent marker =
      d.parent marker := by
  induction nodes generalizing d with
  | nil => rfl
  | cons node rest ih =>
    rw [List.mem_cons, not_or] at absent
    rw [List.foldl_cons, ih absent.2, Dom.insertNode_parent absent.1]

theorem mountAllBefore_eq {marker : ℕ} (states : List State) (absent : marker ∉ allTops states) (d : Dom)
    (held : d.parent marker = some parent) :
    states.foldl (fun d state => state.mountBefore marker d) d =
      (allTops states).foldl (fun d node => d.insertNode parent node (some marker)) d := by
  induction states generalizing d with
  | nil => rfl
  | cons state rest ih =>
    rw [allTops, List.mem_append, not_or] at absent
    rw [List.foldl_cons, allTops, List.foldl_append, mountBefore_eq held]
    exact ih absent.2 _ ((parent_foldl state.tops absent.1 d).trans held)

/-- What was built is mounted before the marker that comes next. -/
theorem insertBefore {marker : ℕ} (placed : Placed d parent before (marker :: after) [])
    (built : Built d types shown states d₁) :
    Rebuilt d parent before (marker :: after) [] types shown states
      (states.foldl (fun d state => state.mountBefore marker d) d₁) := by
  have here : marker ∈ d.children parent := by rw [placed.children]; simp
  have below := placed.wf.lt_next here
  have held : d₁.parent marker = some parent := by
    rw [(built.kept marker below).2.2, ← placed.wf.linked]
    exact here
  have absent : marker ∉ allTops states := fun member =>
    Nat.not_lt.mpr (built.new marker (allTops_subset member)).1 below
  rw [mountAllBefore_eq states absent d₁ held]
  exact insert placed built

/-- An `AnyView` with a placeholder gives its place to one of another type. -/
theorem replaceExtra {type : ViewType} {state new : State} {extra : ℕ}
    (placed : Placed d parent before after [.any type state (some extra)])
    (built : Built d types shown [new] d₁) :
    Rebuilt d parent before after [.any type state (some extra)] types shown
      [(View.replaceAny (new, d₁) type state (some extra)).1]
      (View.replaceAny (new, d₁) type state (some extra)).2 := by
  have children : d.children parent = (before ++ state.tops) ++ ([extra] ++ after) := by
    rw [placed.children, allTops_one, tops]
    simp
  obtain ⟨wf, edits⟩ := mounted built placed.there children
  have held : d₁.parent extra = some parent := by
    rw [← built.wf.linked, (built.kept parent placed.there).2.1, children]
    simp
  rw [allTops_one] at wf edits
  simp only [List.singleton_append, List.head?_cons] at wf edits
  have inserted : ((insertBeforeNode new extra d₁).getD d₁) =
      new.tops.foldl (fun d node => d.insertNode parent node (some extra)) d₁ := by
    rw [insertBeforeNode, held, Option.map_some, Option.getD_some, mount_eq]
  obtain ⟨wf', edits'⟩ := Dom.remove_edits wf
    (show _ = (before ++ state.tops ++ new.tops) ++ extra :: after by
      rw [edits.children, Function.update_self])
  have both := edits.trans edits'
  rw [← inserted] at wf' both
  set d₃ := ((insertBeforeNode new extra d₁).getD d₁).remove extra with removed
  obtain ⟨wf'', edits''⟩ := Dom.removeAll_edits state.tops wf'
    (show _ = before ++ state.tops ++ (new.tops ++ after) by
      rw [both.children, Function.update_self]
      simp)
  have free : (state.tops.foldl Dom.remove d₃).parent extra = none :=
    Dom.removeAll_free state.tops Dom.remove_parent
  rw [View.replaceAny]
  simp only [unmount, ← removed]
  rw [unmount_eq, Dom.remove_of_free free]
  refine of_edits placed built wf'' ?_
  rw [allTops_one, List.append_assoc]
  exact both.trans edits''

/-! ## Together and inside -/

/-- States that were kept together are kept together again. -/
theorem wrap (rebuilt : Rebuilt d parent before after old types shown states d₁) {state state' : State}
    {type : ViewType} (oldFoot : state.foot = allFoot old) (foot : state'.foot = allFoot states)
    (tops : state'.tops = allTops states) (fits : state'.Fits d₁ type)
    (trees : state'.trees d₁ = shown) :
    Rebuilt d parent before after [state] [type] shown [state'] d₁ where
  placed := {
    wf := rebuilt.placed.wf
    nodup := by rw [allFoot_one, foot]; exact rebuilt.placed.nodup
    bound := by rw [allFoot_one, foot]; exact rebuilt.placed.bound
    children := by rw [allTops_one, tops]; exact rebuilt.placed.children
    outside := by rw [allFoot_one, foot]; exact rebuilt.placed.outside
    there := rebuilt.placed.there }
  fits := ⟨fits, trivial⟩
  trees := by rw [allTrees_one, trees]
  nodes := by rw [allFoot_one, foot, allFoot_one, oldFoot]; exact rebuilt.nodes
  le := rebuilt.le
  kept := by rw [allFoot_one, oldFoot]; exact rebuilt.kept

/-- The states of a list are rebuilt before its marker, which stays. -/
theorem list {marker : ℕ} (placed : Placed d parent before after [.list old marker])
    (is : d.content marker = .comment) {type : ViewType}
    (rebuilt : Rebuilt d parent before (marker :: after) old types shown states d₁)
    (fits : FitsEach d₁ states types → d₁.content marker = .comment →
      (State.list states marker).Fits d₁ type) :
    Rebuilt d parent before after [.list old marker] [type] (shown ++ [.comment])
      [.list states marker] d₁ := by
  have apart := placed.list
  have last : FitsEach d₁ [.placeholder marker] [.unit] := rest_fits apart rebuilt ⟨is, trivial⟩
  have all := append apart rebuilt (.refl (rest apart rebuilt) last)
  have shows : State.trees d₁ (.list states marker) = shown ++ [.comment] := by
    rw [State.trees, rebuilt.trees, show d₁.content marker = _ from last.1]
    rfl
  rw [allTrees_one, State.trees, show d₁.content marker = _ from last.1] at all
  refine all.wrap ?_ ?_ ?_ (fits rebuilt.fits last.1) shows
  · rw [allFoot_append, allFoot_one, foot, foot]
  · rw [allFoot_append, allFoot_one, foot, foot]
  · rw [allTops_append, allTops_one, tops, tops]

theorem either {branch branch' : ℕ} {state state' : State} {type type' : ViewType}
    (rebuilt : Rebuilt d parent before after [state] [type] shown [state'] d₁)
    (fits : state'.Fits d₁ type → (State.either branch' state').Fits d₁ type') :
    Rebuilt d parent before after [.either branch state] [type'] shown [.either branch' state'] d₁ := by
  have shows := rebuilt.trees
  rw [allTrees_one] at shows
  refine rebuilt.wrap ?_ ?_ ?_ (fits rebuilt.fits.1) shows
  · rw [allFoot_one, foot]
  · rw [allFoot_one, foot]
  · rw [allTops_one, tops]

/-- A value of the same type in an `AnyView`; the placeholder stays. -/
theorem any {state state' : State} {type : ViewType} {extra : Option ℕ}
    (placed : Placed d parent before after [.any type state extra])
    (fits : (State.any type state extra).Fits d .any)
    (rebuilt : Rebuilt d parent before (extra.toList ++ after) [state] [type] shown [state'] d₁) :
    Rebuilt d parent before after [.any type state extra] [.any]
      (shown ++ if type.exists then [] else [.comment]) [.any type state' extra] d₁ := by
  obtain ⟨-, none?, comment⟩ := fits
  cases extra with
  | none =>
    have shows := rebuilt.trees
    rw [allTrees_one] at shows
    rw [← none?, Option.isNone_none, if_pos rfl, List.append_nil]
    refine rebuilt.wrap ?_ ?_ ?_ ⟨rebuilt.fits.1, none?, by simp⟩ ?_
    · simp [foot]
    · simp [foot]
    · simp [tops]
    · simpa [State.trees] using shows
  | some node =>
    have apart : Placed d parent before after ([state] ++ [.placeholder node]) := by
      apply placed.congr
      · rw [allFoot_append, allFoot_one, allFoot_one, allFoot_one, foot, foot, Option.toList_some]
      · rw [allTops_append, allTops_one, allTops_one, allTops_one, tops, tops, Option.toList_some]
    have last : FitsEach d₁ [.placeholder node] [.unit] :=
      rest_fits apart rebuilt ⟨comment node (by simp), trivial⟩
    have all := append apart rebuilt (.refl (rest apart rebuilt) last)
    have comment' : ∀ n ∈ (some node).toList, d₁.content n = .comment := by
      intro n member
      rw [Option.toList_some, List.mem_singleton] at member
      subst member
      exact last.1
    rw [← none?, Option.isNone_some, if_neg Bool.false_ne_true]
    rw [allTrees_one, State.trees, show d₁.content node = _ from last.1] at all
    refine all.wrap (.refl _) (.refl _) (.refl _) ⟨rebuilt.fits.1, none?, comment'⟩ ?_
    rw [← all.trees]
    rfl

end Rebuilt

/-- The children of an element stand in it alone. -/
theorem Placed.inside {node : ℕ} {child : State}
    (placed : Placed d parent before after [.element node child])
    (holds : d.children node = child.tops) :
    Placed d node [] [] [child] := by
  have nodup := placed.nodup
  have bound := placed.bound
  rw [allFoot_one, foot] at nodup bound
  exact {
    wf := placed.wf
    nodup := by rw [allFoot_one]; exact (List.nodup_cons.mp nodup).2
    bound := by rw [allFoot_one]; exact fun n member => bound n (List.mem_cons_of_mem _ member)
    children := by rw [allTops_one, holds]; simp
    outside := by rw [allFoot_one]; exact (List.nodup_cons.mp nodup).1
    there := bound node List.mem_cons_self }

theorem Rebuilt.element {node : ℕ} {child child' : State} {types : List ViewType} {shown : List Tree}
    (placed : Placed d parent before after [.element node child])
    (rebuilt : Rebuilt d node [] [] [child] types shown [child'] d₁) {type : ViewType} {tag : String}
    (is : d.content node = .element tag)
    (fits : d₁.content node = .element tag → d₁.children node = child'.tops →
      (State.element node child').Fits d₁ type) :
    Rebuilt d parent before after [.element node child] [type] [.element tag shown]
      [.element node child'] d₁ := by
  have outside := placed.outside
  have nodup := placed.nodup
  have bound := placed.bound
  rw [allFoot_one, foot, List.mem_cons, not_or] at outside
  rw [allFoot_one, foot] at nodup bound
  have below := bound node List.mem_cons_self
  have apart := (List.nodup_cons.mp nodup).1
  have content : d₁.content node = .element tag := by
    rw [← is]
    exact (rebuilt.kept node below (by rwa [allFoot_one])).1
  have children : d₁.children node = child'.tops := by
    rw [rebuilt.placed.children, allTops_one]
    simp
  have shows := rebuilt.trees
  rw [allTrees_one] at shows
  have nodes := rebuilt.nodes
  have nodup' := rebuilt.placed.nodup
  have bound' := rebuilt.placed.bound
  have outside' := rebuilt.placed.outside
  rw [allFoot_one, allFoot_one] at nodes
  rw [allFoot_one] at nodup' bound' outside'
  exact {
    placed := {
      wf := rebuilt.placed.wf
      nodup := by rw [allFoot_one, foot]; exact List.nodup_cons.mpr ⟨outside', nodup'⟩
      bound := by
        intro n member
        rw [allFoot_one, foot] at member
        cases member with
        | head => exact below.trans_le rebuilt.le
        | tail _ member => exact bound' n member
      children := by
        rw [(rebuilt.kept parent placed.there (by rw [allFoot_one]; exact outside.2)).2 outside.1,
          placed.children]
        rfl
      outside := by
        rw [allFoot_one, foot, List.mem_cons, not_or]
        refine ⟨outside.1, fun member => ?_⟩
        cases nodes parent member with
        | inl held => exact outside.2 held
        | inr above => exact Nat.not_lt.mpr above placed.there
      there := placed.there.trans_le rebuilt.le }
    fits := ⟨fits content children, trivial⟩
    trees := by
      rw [allTrees_one, State.trees, content, shows]
      rfl
    nodes := by
      intro n member
      rw [allFoot_one, foot] at member
      rw [allFoot_one, foot]
      cases member with
      | head => exact .inl List.mem_cons_self
      | tail _ member => exact (nodes n member).imp_left (List.mem_cons_of_mem _)
    le := rebuilt.le
    kept := by
      intro n below' absent
      rw [allFoot_one, foot, List.mem_cons, not_or] at absent
      obtain ⟨content, children⟩ := rebuilt.kept n below' (by rw [allFoot_one]; exact absent.2)
      exact ⟨content, fun _ => children absent.1⟩ }

end Halyard.Rebuild
