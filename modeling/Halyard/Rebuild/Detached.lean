import Halyard.Rebuild.Parents
import Halyard.Rebuild.Sequence

/-!
# Rebuilding what is not in the document

A view that is kept while it is not shown is rebuilt all the same: what would be put beside or before
its nodes is put nowhere, and the nodes in its elements come and go as usual.

* `rebuild_apart`: what rebuilding with one value makes of a state that stands nowhere.
-/

namespace Halyard.Rebuild

open State

variable {d d₁ d₂ : Dom}

/-- The states stand nowhere. -/
structure Apart (d : Dom) (states : List State) : Prop where
  wf : d.Wf
  nodup : (allFoot states).Nodup
  bound : ∀ n ∈ allFoot states, n < d.next
  free : ∀ n ∈ allTops states, d.parent n = none

/-- From `d` to `d'`, states of the types have taken the place of old ones that stand nowhere. -/
structure RebuiltApart (d : Dom) (old : List State) (types : List ViewType) (shown : List Tree)
    (states : List State) (d' : Dom) : Prop where
  apart : Apart d' states
  fits : FitsEach d' states types
  trees : allTrees d' states = shown
  nodes : ∀ n ∈ allFoot states, n ∈ allFoot old ∨ d.next ≤ n
  le : d.next ≤ d'.next
  kept : ∀ n < d.next, n ∉ allFoot old →
    d'.content n = d.content n ∧ d'.children n = d.children n ∧ d'.parent n = d.parent n

namespace Apart

variable {old old' : List State}

theorem congr (apart : Apart d old) (foot : allFoot old' = allFoot old) (tops : allTops old' = allTops old) :
    Apart d old' where
  wf := apart.wf
  nodup := by rw [foot]; exact apart.nodup
  bound := by rw [foot]; exact apart.bound
  free := by rw [tops]; exact apart.free

theorem left (apart : Apart d (old ++ old')) : Apart d old where
  wf := apart.wf
  nodup := by
    have nodup := apart.nodup
    rw [allFoot_append] at nodup
    exact (List.nodup_append.mp nodup).1
  bound := fun n member => apart.bound n (by rw [allFoot_append]; exact List.mem_append_left _ member)
  free := fun n member => apart.free n (by rw [allTops_append]; exact List.mem_append_left _ member)

/-- The later states have other nodes than the earlier ones. -/
theorem other (apart : Apart d (old ++ old')) {n : ℕ} (member : n ∈ allFoot old') :
    n ∉ allFoot old ∧ n < d.next := by
  have nodup := apart.nodup
  rw [allFoot_append] at nodup
  refine ⟨fun member' => (List.nodup_append.mp nodup).2.2 n member' n member rfl, ?_⟩
  exact apart.bound n (by rw [allFoot_append]; exact List.mem_append_right _ member)

theorem list {marker : ℕ} (apart : Apart d [.list old marker]) : Apart d (old ++ [.placeholder marker]) := by
  apply apart.congr
  · rw [allFoot_append, allFoot_one, allFoot_one, foot, foot]
  · rw [allTops_append, allTops_one, allTops_one, tops, tops]

theorem marker_free {marker : ℕ} (apart : Apart d (old ++ [.placeholder marker])) : d.parent marker = none :=
  apart.free marker (by simp [allTops_append, tops])

theorem marker_below {marker : ℕ} (apart : Apart d (old ++ [.placeholder marker])) : marker < d.next :=
  apart.bound marker (by simp [allFoot_append, foot])

theorem any {type : ViewType} {state : State} {extra : Option ℕ} (apart : Apart d [.any type state extra]) :
    Apart d ([state] ++ extra.toList.map .placeholder) := by
  cases extra with
  | none =>
    apply apart.congr
    · simp [foot]
    · simp [tops]
  | some node =>
    apply apart.congr
    · simp [foot, allFoot]
    · simp [tops, allTops]

/-! ### What does nothing -/

theorem removeAll_eq {nodes : List ℕ} (free : ∀ n ∈ nodes, d.parent n = none) : nodes.foldl Dom.remove d = d := by
  induction nodes with
  | nil => rfl
  | cons node rest ih =>
    rw [List.foldl_cons, Dom.remove_of_free (free node List.mem_cons_self)]
    exact ih fun n member => free n (List.mem_cons_of_mem _ member)

theorem insertBeforeNode_eq {new : State} {node : ℕ} (free : d.parent node = none) :
    (insertBeforeNode new node d).getD d = d := by
  rw [insertBeforeNode, free]
  rfl

theorem mountBefore_eq {marker : ℕ} (states : List State) (free : d.parent marker = none) :
    states.foldl (fun d state => state.mountBefore marker d) d = d := by
  induction states with
  | nil => rfl
  | cons state rest ih =>
    rw [List.foldl_cons, State.mountBefore, insertBeforeNode_eq free]
    exact ih

theorem insertBeforeThis_eq {state new : State} (free : ∀ n ∈ state.tops, d.parent n = none) :
    (State.insertBeforeThis new state d).getD d = d := by
  have none : State.insertBeforeThis new state d = none := by
    rw [State.insertBeforeThis_eq, List.findSome?_eq_none_iff]
    intro node member
    rw [insertBeforeNode, free node member]
    rfl
  rw [none]
  rfl

/-- What has no place cannot give it to another. -/
theorem replace_eq {state new : State} (free : ∀ n ∈ state.tops, d.parent n = none) :
    state.replace (new, d) = (new, d) := by
  rw [State.replace]
  simp only
  rw [insertBeforeThis_eq free, unmount_eq, removeAll_eq free]

end Apart

namespace RebuiltApart

variable {old old' states states' : List State} {types types' : List ViewType} {shown shown' : List Tree}

theorem refl (apart : Apart d states) (fits : FitsEach d states types) :
    RebuiltApart d states types (allTrees d states) states d where
  apart := apart
  fits := fits
  trees := rfl
  nodes := fun _ => .inl
  le := Nat.le_refl _
  kept := fun _ _ _ => ⟨rfl, rfl, rfl⟩

/-- What was built stands nowhere. -/
theorem of_built (built : Built d types shown states d₁) : RebuiltApart d old types shown states d₁ where
  apart := ⟨built.wf, built.nodup, fun n member => (built.new n member).2, built.free⟩
  fits := built.fits
  trees := built.trees
  nodes := fun n member => .inr (built.new n member).1
  le := built.le
  kept := fun n below _ => built.kept n below

/-! ## One after another -/

section Append

variable (apart : Apart d (old ++ old')) (first : RebuiltApart d old types shown states d₁)

include apart first

theorem rest : Apart d₁ old' where
  wf := first.apart.wf
  nodup := by
    have nodup := apart.nodup
    rw [allFoot_append] at nodup
    exact (List.nodup_append.mp nodup).2.1
  bound := fun n member => (apart.other member).2.trans_le first.le
  free := by
    intro n member
    obtain ⟨other, below⟩ := apart.other (allTops_subset member)
    rw [(first.kept n below other).2.2]
    exact apart.free n (by rw [allTops_append]; exact List.mem_append_right _ member)

theorem rest_fits (fits : FitsEach d old' types') : FitsEach d₁ old' types' := by
  apply fits.congr
  intro n member
  obtain ⟨other, below⟩ := apart.other member
  obtain ⟨content, children, -⟩ := first.kept n below other
  exact ⟨content, children⟩

theorem append (second : RebuiltApart d₁ old' types' shown' states' d₂) :
    RebuiltApart d (old ++ old') (types ++ types') (shown ++ shown') (states ++ states') d₂ := by
  have other : ∀ n ∈ allFoot states, n ∉ allFoot old' ∧ n < d₁.next := by
    intro n member
    refine ⟨fun member' => ?_, first.apart.bound n member⟩
    obtain ⟨other, below⟩ := apart.other member'
    cases first.nodes n member with
    | inl held => exact other held
    | inr above => exact Nat.not_lt.mpr above below
  have inside : ∀ n ∈ allFoot states, d₂.content n = d₁.content n ∧ d₂.children n = d₁.children n ∧
      d₂.parent n = d₁.parent n := by
    intro n member
    obtain ⟨other, below⟩ := other n member
    exact second.kept n below other
  exact {
    apart := {
      wf := second.apart.wf
      nodup := by
        rw [allFoot_append]
        refine List.nodup_append.mpr ⟨first.apart.nodup, second.apart.nodup, ?_⟩
        rintro n member _ member' rfl
        obtain ⟨other, below⟩ := other n member
        cases second.nodes n member' with
        | inl held => exact other held
        | inr above => exact Nat.not_lt.mpr above below
      bound := by
        intro n member
        rw [allFoot_append, List.mem_append] at member
        cases member with
        | inl member => exact (first.apart.bound n member).trans_le second.le
        | inr member => exact second.apart.bound n member
      free := by
        intro n member
        rw [allTops_append, List.mem_append] at member
        cases member with
        | inl member =>
          rw [(inside n (allTops_subset member)).2.2]
          exact first.apart.free n member
        | inr member => exact second.apart.free n member }
    fits := (first.fits.congr fun n member => ⟨(inside n member).1, (inside n member).2.1⟩).append second.fits
    trees := by
      rw [allTrees_append, second.trees, allTrees_congr fun n member => (inside n member).1, first.trees]
    nodes := by
      intro n member
      rw [allFoot_append, List.mem_append] at member
      rw [allFoot_append, List.mem_append]
      cases member with
      | inl member => exact (first.nodes n member).imp_left .inl
      | inr member => exact (second.nodes n member).imp .inr first.le.trans
    le := first.le.trans second.le
    kept := by
      intro n below absent
      rw [allFoot_append, List.mem_append, not_or] at absent
      obtain ⟨content, children, parent⟩ := first.kept n below absent.1
      obtain ⟨content', children', parent'⟩ := second.kept n (below.trans_le first.le) absent.2
      exact ⟨content'.trans content, children'.trans children, parent'.trans parent⟩ }

end Append

/-! ## Together -/

/-- States that were kept together are kept together again. -/
theorem wrap (rebuilt : RebuiltApart d old types shown states d₁) {state state' : State} {type : ViewType}
    (oldFoot : state.foot = allFoot old) (foot : state'.foot = allFoot states)
    (tops : state'.tops = allTops states) (fits : state'.Fits d₁ type) (trees : state'.trees d₁ = shown) :
    RebuiltApart d [state] [type] shown [state'] d₁ where
  apart := rebuilt.apart.congr (by rw [allFoot_one, foot]) (by rw [allTops_one, tops])
  fits := ⟨fits, trivial⟩
  trees := by rw [allTrees_one, trees]
  nodes := by rw [allFoot_one, foot, allFoot_one, oldFoot]; exact rebuilt.nodes
  le := rebuilt.le
  kept := by rw [allFoot_one, oldFoot]; exact rebuilt.kept

theorem list {marker : ℕ} (apart : Apart d [.list old marker]) (is : d.content marker = .comment)
    {type : ViewType} (rebuilt : RebuiltApart d old types shown states d₁)
    (fits : FitsEach d₁ states types → d₁.content marker = .comment → (State.list states marker).Fits d₁ type) :
    RebuiltApart d [.list old marker] [type] (shown ++ [.comment]) [.list states marker] d₁ := by
  have last : FitsEach d₁ [.placeholder marker] [.unit] := rest_fits apart.list rebuilt ⟨is, trivial⟩
  have all := append apart.list rebuilt (.refl (rest apart.list rebuilt) last)
  have shows : State.trees d₁ (.list states marker) = shown ++ [.comment] := by
    rw [State.trees, rebuilt.trees, show d₁.content marker = _ from last.1]
    rfl
  rw [allTrees_one, State.trees, show d₁.content marker = _ from last.1] at all
  refine all.wrap ?_ ?_ ?_ (fits rebuilt.fits last.1) shows
  · rw [allFoot_append, allFoot_one, foot, foot]
  · rw [allFoot_append, allFoot_one, foot, foot]
  · rw [allTops_append, allTops_one, tops, tops]

theorem either {branch branch' : ℕ} {state state' : State} {type type' : ViewType}
    (rebuilt : RebuiltApart d [state] [type] shown [state'] d₁)
    (fits : state'.Fits d₁ type → (State.either branch' state').Fits d₁ type') :
    RebuiltApart d [.either branch state] [type'] shown [.either branch' state'] d₁ := by
  have shows := rebuilt.trees
  rw [allTrees_one] at shows
  refine rebuilt.wrap ?_ ?_ ?_ (fits rebuilt.fits.1) shows
  · rw [allFoot_one, foot]
  · rw [allFoot_one, foot]
  · rw [allTops_one, tops]

/-- A value of the same type in an `AnyView`; the placeholder stays. -/
theorem any {state state' : State} {type : ViewType} {extra : Option ℕ}
    (apart : Apart d [.any type state extra]) (fits : (State.any type state extra).Fits d .any)
    (rebuilt : RebuiltApart d [state] [type] shown [state'] d₁) :
    RebuiltApart d [.any type state extra] [.any] (shown ++ if type.exists then [] else [.comment])
      [.any type state' extra] d₁ := by
  obtain ⟨-, none?, comment⟩ := fits
  cases extra with
  | none =>
    have shows := rebuilt.trees
    rw [allTrees_one] at shows
    rw [← none?, Option.isNone_none, if_pos rfl, List.append_nil]
    refine rebuilt.wrap ?_ ?_ ?_ ⟨rebuilt.fits.1, none?, by simp⟩ ?_
    · simp [foot]
    · simp [foot]
    · simp [tops]
    · simpa [State.trees] using shows
  | some node =>
    have apart : Apart d ([state] ++ [.placeholder node]) := apart.any
    have last : FitsEach d₁ [.placeholder node] [.unit] :=
      rest_fits apart rebuilt ⟨comment node (by simp), trivial⟩
    have all := append apart rebuilt (.refl (rest apart rebuilt) last)
    have comment' : ∀ n ∈ (some node).toList, d₁.content n = .comment := by
      intro n member
      rw [Option.toList_some, List.mem_singleton] at member
      subst member
      exact last.1
    rw [← none?, Option.isNone_some, if_neg Bool.false_ne_true]
    rw [allTrees_one, State.trees, show d₁.content node = _ from last.1] at all
    refine all.wrap (.refl _) (.refl _) (.refl _) ⟨rebuilt.fits.1, none?, comment'⟩ ?_
    rw [← all.trees]
    rfl

/-- An element that stands nowhere has its children in it all the same. -/
theorem inside {node : ℕ} {child : State} (apart : Apart d [.element node child])
    (holds : d.children node = child.tops) : Placed d node [] [] [child] := by
  have nodup := apart.nodup
  have bound := apart.bound
  rw [allFoot_one, foot] at nodup bound
  exact {
    wf := apart.wf
    nodup := by rw [allFoot_one]; exact (List.nodup_cons.mp nodup).2
    bound := by rw [allFoot_one]; exact fun n member => bound n (List.mem_cons_of_mem _ member)
    children := by rw [allTops_one, holds]; simp
    outside := by rw [allFoot_one]; exact (List.nodup_cons.mp nodup).1
    there := bound node List.mem_cons_self }

theorem element {node : ℕ} {child child' : State} (apart : Apart d [.element node child])
    (rebuilt : Rebuilt d node [] [] [child] types shown [child'] d₁) (spares : Spares d d₁ child.foot)
    {type : ViewType} {tag : String} (is : d.content node = .element tag)
    (fits : d₁.content node = .element tag → d₁.children node = child'.tops →
      (State.element node child').Fits d₁ type) :
    RebuiltApart d [.element node child] [type] [.element tag shown] [.element node child'] d₁ := by
  have nodup := apart.nodup
  have bound := apart.bound
  rw [allFoot_one, foot] at nodup bound
  have below := bound node List.mem_cons_self
  have outside := (List.nodup_cons.mp nodup).1
  have content : d₁.content node = .element tag := by
    rw [← is]
    exact (rebuilt.kept node below (by rwa [allFoot_one])).1
  have children : d₁.children node = child'.tops := by
    rw [rebuilt.placed.children, allTops_one]
    simp
  have shows := rebuilt.trees
  rw [allTrees_one] at shows
  have nodes := rebuilt.nodes
  have placed := rebuilt.placed
  rw [allFoot_one, allFoot_one] at nodes
  exact {
    apart := {
      wf := placed.wf
      nodup := by
        rw [allFoot_one, foot]
        have nodup' := placed.nodup
        have outside' := placed.outside
        rw [allFoot_one] at nodup' outside'
        exact List.nodup_cons.mpr ⟨outside', nodup'⟩
      bound := by
        intro n member
        rw [allFoot_one, foot] at member
        cases member with
        | head => exact below.trans_le rebuilt.le
        | tail _ member => exact placed.bound n (by rwa [allFoot_one])
      free := by
        intro n member
        rw [allTops_one, tops, List.mem_singleton] at member
        subst member
        rw [spares.parent _ below outside]
        exact apart.free _ (by simp [tops]) }
    fits := ⟨fits content children, trivial⟩
    trees := by
      rw [allTrees_one, State.trees, content, shows]
      rfl
    nodes := by
      intro n member
      rw [allFoot_one, foot] at member
      rw [allFoot_one, foot]
      cases member with
      | head => exact .inl List.mem_cons_self
      | tail _ member => exact (nodes n member).imp_left (List.mem_cons_of_mem _)
    le := rebuilt.le
    kept := by
      intro n below' absent
      rw [allFoot_one, foot, List.mem_cons, not_or] at absent
      obtain ⟨content, children⟩ := rebuilt.kept n below' (by rw [allFoot_one]; exact absent.2)
      exact ⟨content, children absent.1, spares.parent n below' absent.2⟩ }

/-! ## What is put nowhere -/

/-- What was built takes the place of a state that has none. -/
theorem replace {state new : State} (apart : Apart d [state]) (built : Built d types shown [new] d₁) :
    RebuiltApart d [state] types shown [(state.replace (new, d₁)).1] (state.replace (new, d₁)).2 := by
  have free : ∀ n ∈ state.tops, d₁.parent n = none := by
    intro n member
    rw [← allTops_one] at member
    rw [(built.kept n (apart.bound n (allTops_subset member))).2.2]
    exact apart.free n member
  rw [Apart.replace_eq free]
  exact .of_built built

/-- What was built is put before a marker that stands nowhere. -/
theorem insertBefore {marker : ℕ} (free : d.parent marker = none) (below : marker < d.next)
    (built : Built d types shown states d₁) :
    RebuiltApart d [] types shown states (states.foldl (fun d state => state.mountBefore marker d) d₁) := by
  rw [Apart.mountBefore_eq states ((built.kept marker below).2.2.trans free)]
  exact .of_built built

theorem remove (apart : Apart d old) : RebuiltApart d old [] [] [] (unmountAll old d) := by
  rw [unmountAll_eq, Apart.removeAll_eq apart.free]
  exact .of_built (.nil apart.wf)

theorem replaceExtra {type : ViewType} {state new : State} {extra : ℕ}
    (apart : Apart d [.any type state (some extra)]) (built : Built d types shown [new] d₁) :
    RebuiltApart d [.any type state (some extra)] types shown
      [(View.replaceAny (new, d₁) type state (some extra)).1]
      (View.replaceAny (new, d₁) type state (some extra)).2 := by
  have free : ∀ n ∈ (State.any type state (some extra)).tops, d₁.parent n = none := by
    intro n member
    rw [← allTops_one] at member
    rw [(built.kept n (apart.bound n (allTops_subset member))).2.2]
    exact apart.free n member
  have here : d₁.parent extra = none := free extra (by simp [tops])
  have same : View.replaceAny (new, d₁) type state (some extra) = (new, d₁) := by
    rw [View.replaceAny]
    simp only
    rw [Apart.insertBeforeNode_eq here, Dom.remove_of_free here, unmount_eq, Apart.removeAll_eq free]
  rw [same]
  exact .of_built built

end RebuiltApart

/-! ## The kinds of rebuilding -/

namespace View

theorem rebuildEither_apart {new branch : ℕ} {view : View} {rebuild : State → Dom → State × Dom}
    {state : State} {type type' : ViewType} (ofType : view.OfType type) (apart : Apart d [.either branch state])
    (same : new = branch → Apart d [state] →
      RebuiltApart d [state] [type] view.trees [(rebuild state d).1] (rebuild state d).2)
    (fits : ∀ (d' : Dom) (s : State), s.Fits d' type → (State.either new s).Fits d' type') :
    RebuiltApart d [.either branch state] [type'] view.trees
      [(rebuildEither new view rebuild branch state d).1]
      (rebuildEither new view rebuild branch state d).2 := by
  have inner : Apart d [state] := apart.congr rfl rfl
  unfold rebuildEither
  by_cases here : new = branch
  · rw [if_pos here]
    exact (same here inner).either (fits _ _)
  · rw [if_neg here]
    exact (RebuiltApart.replace inner (build_spec view ofType d apart.wf)).either (fits _ _)

theorem rebuildList_apart {views : List View} {loop : List State → Dom → List State × Dom}
    {states : List State} {marker : ℕ} {type type' : ViewType}
    (ofTypes : EachOfType views (.replicate views.length type)) (apart : Apart d [.list states marker])
    (is : d.content marker = .comment)
    (turns : Apart d (states ++ [.placeholder marker]) →
      RebuiltApart d states (.replicate views.length type) (allTrees views) (loop states d).1 (loop states d).2)
    (fits : ∀ (d' : Dom) (new : List State), FitsEach d' new (.replicate new.length type) →
      d'.content marker = .comment → (State.list new marker).Fits d' type') :
    RebuiltApart d [.list states marker] [type'] (allTrees views ++ [.comment])
      [(rebuildList views loop states marker d).1] (rebuildList views loop states marker d).2 := by
  have fits' : ∀ (d' : Dom) (new : List State), FitsEach d' new (.replicate views.length type) →
      d'.content marker = .comment → (State.list new marker).Fits d' type' := by
    intro d' new each comment
    apply fits d' new _ comment
    rw [each.length_eq, List.length_replicate]
    exact each
  have inner : Apart d states := apart.list.left
  unfold rebuildList
  split
  next none =>
    rw [List.isEmpty_iff] at none
    subst none
    have built := (buildAll_spec views ofTypes _ (apart.wf.create .comment)).create
    exact (RebuiltApart.insertBefore apart.list.marker_free apart.list.marker_below built).list apart is (fits' _ _)
  next =>
    split
    next none =>
      rw [List.isEmpty_iff] at none
      subst none
      exact (RebuiltApart.remove inner).list apart is (fits' _ _)
    next => exact (turns apart.list).list apart is (fits' _ _)

end View

theorem RebuiltApart.same {state : State} {type : ViewType} {shown : List Tree} (apart : Apart d [state])
    (fits : state.Fits d type) (trees : state.trees d = shown) :
    RebuiltApart d [state] [type] shown [state] d := by
  have all := RebuiltApart.refl apart (show FitsEach d [state] [type] from ⟨fits, trivial⟩)
  rwa [allTrees_one, trees] at all

theorem unit_apart {state : State} (fits : state.Fits d .unit) (apart : Apart d [state]) :
    RebuiltApart d [state] [.unit] [.comment] [state] d := by
  cases state with
  | placeholder node => exact .same apart fits (by rw [State.trees, show d.content node = _ from fits]; rfl)
  | _ => exact fits.elim

/-- `None` and `Err`. -/
theorem none_apart {branch : ℕ} {state : State} {type type' : ViewType} (apart : Apart d [.either branch state])
    (stands : (branch = 0 ∧ state.Fits d type) ∨ (branch = 1 ∧ state.Fits d .unit))
    (fits : ∀ (d' : Dom) (s : State), s.Fits d' .unit → (State.either 1 s).Fits d' type') :
    RebuiltApart d [.either branch state] [type'] [.comment]
      [(View.rebuildEither 1 .unit (fun state d => (state, d)) branch state d).1]
      (View.rebuildEither 1 .unit (fun state d => (state, d)) branch state d).2 := by
  have unit : View.unit.OfType .unit := trivial
  refine View.rebuildEither_apart unit apart (fun here inner => ?_) fits
  cases stands with
  | inl stands => exact absurd (here.trans stands.1) Nat.one_ne_zero
  | inr stands => exact unit_apart stands.2 inner

/-- `Some` and `Ok`. -/
theorem some_apart {view : View} {branch : ℕ} {state : State} {type type' : ViewType}
    (ofType : view.OfType type) (apart : Apart d [.either branch state])
    (stands : (branch = 0 ∧ state.Fits d type) ∨ (branch = 1 ∧ state.Fits d .unit))
    (same : state.Fits d type → Apart d [state] →
      RebuiltApart d [state] [type] view.trees [(view.rebuild state d).1] (view.rebuild state d).2)
    (fits : ∀ (d' : Dom) (s : State), s.Fits d' type → (State.either 0 s).Fits d' type') :
    RebuiltApart d [.either branch state] [type'] view.trees
      [(View.rebuildEither 0 view view.rebuild branch state d).1]
      (View.rebuildEither 0 view view.rebuild branch state d).2 := by
  refine View.rebuildEither_apart ofType apart (fun here inner => ?_) fits
  cases stands with
  | inl stands => exact same stands.2 inner
  | inr stands => exact absurd (here.trans stands.1) Nat.zero_ne_one

theorem setText_apart {node : ℕ} {str : String} (apart : Apart d [.text node str]) (new : String) :
    RebuiltApart d [.text node str] [.text] [.text new] [.text node new] (d.setText node new) := by
  have is : (d.setText node new).content node = .text new := Function.update_self ..
  exact {
    apart := ⟨apart.wf.setText new, apart.nodup, apart.bound, apart.free⟩
    fits := ⟨is, trivial⟩
    trees := by
      rw [allTrees_one, State.trees, is]
      rfl
    nodes := fun _ => .inl
    le := Nat.le_refl _
    kept := by
      intro n _ absent
      rw [allFoot_one, foot, List.mem_singleton] at absent
      exact ⟨Function.update_of_ne absent .., rfl, rfl⟩ }

mutual

/-- What rebuilding a state that stands nowhere makes. -/
theorem rebuild_apart (view : View) {type : ViewType} (ofType : view.OfType type) (state : State) (d : Dom)
    (fits : state.Fits d type) (apart : Apart d [state]) :
    RebuiltApart d [state] [type] view.trees [(view.rebuild state d).1] (view.rebuild state d).2 := by
  cases view with
  | text new =>
    cases type with
    | text =>
      cases state with
      | text node str =>
        rw [View.rebuild]
        split
        next => exact setText_apart apart new
        next same =>
          rw [not_not.mp same]
          exact .same apart fits (by rw [State.trees, show d.content node = _ from fits]; rfl)
      | _ => exact fits.elim
    | _ => exact ofType.elim
  | unit =>
    cases type with
    | unit => exact unit_apart fits apart
    | _ => exact ofType.elim
  | element tag closing child =>
    cases type with
    | element tag' closing' type =>
      obtain ⟨rfl, rfl, ofType⟩ := ofType
      cases state with
      | void node =>
        cases closing with
        | true => exact .same apart fits (by rw [State.trees, fits.1]; rfl)
        | false => exact fits.elim
      | element node inner =>
        cases closing with
        | true => exact fits.elim
        | false =>
          obtain ⟨is, holds, fits⟩ := fits
          have rebuilt := rebuild_spec child ofType inner d node [] [] fits (RebuiltApart.inside apart holds)
          exact .element apart rebuilt (rebuild_spares child inner d) is
            fun is holds => ⟨is, holds, rebuilt.fits.1⟩
      | _ => exact fits.elim
    | _ => exact ofType.elim
  | custom tag child =>
    cases type with
    | custom type =>
      cases state with
      | element node inner =>
        obtain ⟨⟨tag', is⟩, holds, fits⟩ := fits
        rw [View.rebuild]
        split
        next =>
          have ofType' : (View.custom tag child).OfType (.custom type) := ofType
          exact .replace apart (build_spec _ ofType' d apart.wf)
        next same =>
          have is := content_of_tagName is (not_not.mp same)
          have rebuilt := rebuild_spec child ofType inner d node [] [] fits (RebuiltApart.inside apart holds)
          exact .element apart rebuilt (rebuild_spares child inner d) is
            fun is holds => ⟨⟨tag, is⟩, holds, rebuilt.fits.1⟩
      | _ => exact fits.elim
    | _ => exact ofType.elim
  | tuple views =>
    cases type with
    | tuple types =>
      cases state with
      | tuple states =>
        have inner : Apart d states := apart.congr (List.append_nil _).symm (List.append_nil _).symm
        have rebuilt := rebuildEach_apart views ofType.2 states d fits.2 inner
        exact rebuilt.wrap rfl rfl rfl ⟨ofType.1, rebuilt.fits⟩ rebuilt.trees
      | _ => exact fits.elim
    | _ => exact ofType.elim
  | array views =>
    cases type with
    | array length type =>
      cases state with
      | tuple states =>
        obtain ⟨some, long, ofTypes⟩ := ofType
        obtain ⟨-, long', fits⟩ := fits
        have inner : Apart d states := apart.congr (List.append_nil _).symm (List.append_nil _).symm
        rw [long', ← long] at fits
        have rebuilt := rebuildEach_apart views ofTypes states d fits inner
        have long'' := rebuilt.fits.length_eq
        rw [List.length_replicate] at long''
        refine rebuilt.wrap rfl rfl rfl ⟨some, long''.trans long, ?_⟩ rebuilt.trees
        rw [long'']
        exact rebuilt.fits
      | _ => exact fits.elim
    | _ => exact ofType.elim
  | optionNone =>
    cases type with
    | option type =>
      cases state with
      | either branch state => exact none_apart apart fits fun _ _ fits => Or.inr ⟨rfl, fits⟩
      | _ => exact fits.elim
    | _ => exact ofType.elim
  | optionSome view =>
    cases type with
    | option type =>
      cases state with
      | either branch state =>
        have ofType : view.OfType type := ofType
        exact some_apart ofType apart fits (rebuild_apart view ofType state d)
          fun _ _ fits => Or.inl ⟨rfl, fits⟩
      | _ => exact fits.elim
    | _ => exact ofType.elim
  | either new view =>
    cases type with
    | either types =>
      cases state with
      | either branch state =>
        obtain ⟨type, is, ofType⟩ := ofType
        obtain ⟨held, is', fits⟩ := fits
        refine View.rebuildEither_apart ofType apart ?_ fun _ _ fits => ⟨type, is, fits⟩
        intro here inner
        rw [← here, is, Option.some.injEq] at is'
        subst is'
        exact rebuild_apart view ofType state d fits inner
      | _ => exact fits.elim
    | _ => exact ofType.elim
  | vec views =>
    cases type with
    | vec type =>
      cases state with
      | list states marker =>
        exact View.rebuildList_apart ofType apart fits.2
          (rebuildItems_apart views ofType states d marker fits.1) fun _ _ fits is => ⟨fits, is⟩
      | _ => exact fits.elim
    | _ => exact ofType.elim
  | staticVec views =>
    cases type with
    | staticVec type =>
      cases state with
      | list states marker =>
        exact View.rebuildList_apart ofType apart fits.2
          (rebuildItems_apart views ofType states d marker fits.1) fun _ _ fits is => ⟨fits, is⟩
      | _ => exact fits.elim
    | _ => exact ofType.elim
  | any type' view =>
    cases type with
    | any =>
      cases state with
      | any held state extra =>
        rw [View.rebuild]
        split
        next same =>
          subst same
          exact .any apart fits (rebuild_apart view ofType state d fits.1 apart.any.left)
        next =>
          have ofType' : (View.any type' view).OfType .any := ofType
          have built := build_spec _ ofType' d apart.wf
          cases extra with
          | none => exact .replace apart built
          | some node => exact .replaceExtra apart built
      | _ => exact fits.elim
    | _ => exact ofType.elim
  | resultErr =>
    cases type with
    | result type =>
      cases state with
      | either branch state => exact none_apart apart fits fun _ _ fits => Or.inr ⟨rfl, fits⟩
      | _ => exact fits.elim
    | _ => exact ofType.elim
  | resultOk view =>
    cases type with
    | result type =>
      cases state with
      | either branch state =>
        have ofType : view.OfType type := ofType
        exact some_apart ofType apart fits (rebuild_apart view ofType state d)
          fun _ _ fits => Or.inl ⟨rfl, fits⟩
      | _ => exact fits.elim
    | _ => exact ofType.elim

theorem rebuildEach_apart (views : List View) {types : List ViewType} (ofTypes : View.EachOfType views types)
    (states : List State) (d : Dom) (fits : FitsEach d states types) (apart : Apart d states) :
    RebuiltApart d states types (View.allTrees views) (View.rebuildEach views states d).1
      (View.rebuildEach views states d).2 := by
  cases views with
  | nil =>
    cases types with
    | nil =>
      cases states with
      | nil => exact .refl apart fits
      | cons state states => exact fits.elim
    | cons type types => exact ofTypes.elim
  | cons view rest =>
    cases types with
    | nil => exact ofTypes.elim
    | cons type types =>
      cases states with
      | nil => exact fits.elim
      | cons state states =>
        have both : Apart d ([state] ++ states) := apart
        have first := rebuild_apart view ofTypes.1 state d fits.1 both.left
        have others := rebuildEach_apart rest ofTypes.2 states _ (RebuiltApart.rest_fits both first fits.2)
          (RebuiltApart.rest both first)
        exact .append both first others

theorem rebuildItems_apart (views : List View) {type : ViewType}
    (ofTypes : View.EachOfType views (.replicate views.length type)) (states : List State) (d : Dom)
    (marker : ℕ) (fits : FitsEach d states (.replicate states.length type))
    (apart : Apart d (states ++ [.placeholder marker])) :
    RebuiltApart d states (.replicate views.length type) (View.allTrees views)
      (View.rebuildItems marker views states d).1 (View.rebuildItems marker views states d).2 := by
  cases views with
  | nil => exact .remove apart.left
  | cons view rest =>
    cases states with
    | nil =>
      have both : Apart d ([] ++ []) := apart.left
      have first := RebuiltApart.insertBefore apart.marker_free apart.marker_below
        (build_spec view ofTypes.1 d apart.wf)
      have others := rebuildItems_apart rest ofTypes.2 [] _ marker trivial (RebuiltApart.rest apart first)
      exact .append both first others
    | cons state states =>
      have both : Apart d ([state] ++ (states ++ [.placeholder marker])) := apart
      have each : Apart d ([state] ++ states) := apart.left
      have first := rebuild_apart view ofTypes.1 state d fits.1 both.left
      have others := rebuildItems_apart rest ofTypes.2 states _ marker
        (RebuiltApart.rest_fits each first fits.2) (RebuiltApart.rest both first)
      exact .append each first others

end

end Halyard.Rebuild
