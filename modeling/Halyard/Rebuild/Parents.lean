import Halyard.Rebuild.Build

/-!
# Which nodes get another parent

Building gives parents to new nodes only, and rebuilding a state to its own nodes and to new ones.

* `build_spares`, `rebuild_spares`
-/

namespace Halyard.Rebuild

open State

/-- Apart from some nodes and from new ones, all keep their parents. -/
structure Spares (d d' : Dom) (touched : List ℕ) : Prop where
  le : d.next ≤ d'.next
  parent : ∀ n < d.next, n ∉ touched → d'.parent n = d.parent n

namespace Spares

variable {d d' d'' : Dom} {touched touched' : List ℕ}

theorem refl (d : Dom) : Spares d d touched := ⟨le_rfl, fun _ _ _ => rfl⟩

theorem trans (first : Spares d d' touched) (second : Spares d' d'' touched')
    (within : ∀ n ∈ touched', n ∈ touched ∨ d.next ≤ n) : Spares d d'' touched where
  le := first.le.trans second.le
  parent n below absent := by
    have absent' : n ∉ touched' := fun member =>
      (within n member).elim absent fun above => Nat.not_lt.mpr above below
    exact (second.parent n (below.trans_le first.le) absent').trans (first.parent n below absent)

theorem mono (spares : Spares d d' touched) (within : ∀ n ∈ touched, n ∈ touched') : Spares d d' touched' :=
  ⟨spares.le, fun n below absent => spares.parent n below fun member => absent (within n member)⟩

theorem create (content : Content) : Spares d (d.create content).2 touched :=
  ⟨Nat.le_succ _, fun _ _ _ => rfl⟩

theorem setText {node : ℕ} {text : String} : Spares d (d.setText node text) touched :=
  ⟨le_rfl, fun _ _ _ => rfl⟩

theorem insertNode {parent node : ℕ} {anchor : Option ℕ} : Spares d (d.insertNode parent node anchor) [node] where
  le := by
    have removed : (d.remove node).next = d.next := by
      unfold Dom.remove
      split <;> rfl
    unfold Dom.insertNode
    cases anchor with
    | none => exact removed.ge
    | some before =>
      dsimp only
      split
      · exact removed.ge
      · exact le_rfl
  parent n _ absent := Dom.insertNode_parent (List.ne_of_not_mem_cons absent)

theorem remove {node : ℕ} : Spares d (d.remove node) [node] where
  le := by
    unfold Dom.remove
    split <;> exact le_rfl
  parent n _ absent := by
    unfold Dom.remove
    split
    · rfl
    · exact Function.update_of_ne (List.ne_of_not_mem_cons absent) ..

/-- What is done to nodes in turn. -/
theorem foldl {act : Dom → ℕ → Dom} (nodes : List ℕ) (each : ∀ d node, Spares d (act d node) [node]) (d : Dom) :
    Spares d (nodes.foldl act d) nodes := by
  induction nodes generalizing d with
  | nil => exact .refl d
  | cons node rest ih =>
    have first : Spares d (act d node) (node :: rest) :=
      (each d node).mono fun n member => List.mem_cons.mpr (.inl (List.mem_singleton.mp member))
    exact first.trans (ih _) fun n member => .inl (List.mem_cons_of_mem _ member)

theorem mount (parent : ℕ) (anchor : Option ℕ) (state : State) (d : Dom) :
    Spares d (state.mount parent anchor d) state.tops := by
  rw [mount_eq]
  exact foldl _ (fun _ _ => insertNode) d

theorem unmount (state : State) (d : Dom) : Spares d (state.unmount d) state.tops := by
  rw [unmount_eq]
  exact foldl _ (fun _ _ => remove) d

theorem unmountAll (states : List State) (d : Dom) : Spares d (State.unmountAll states d) (allTops states) := by
  rw [unmountAll_eq]
  exact foldl _ (fun _ _ => remove) d

theorem insertBeforeNode (child : State) (node : ℕ) (d : Dom) :
    Spares d ((child.insertBeforeNode node d).getD d) child.tops := by
  unfold State.insertBeforeNode
  cases d.parent node with
  | none => exact .refl d
  | some parent => exact mount parent (some node) child d

theorem insertBeforeThis (child state : State) (d : Dom) :
    Spares d ((State.insertBeforeThis child state d).getD d) child.tops := by
  rw [insertBeforeThis_eq]
  induction state.tops with
  | nil => exact .refl d
  | cons node rest ih =>
    have here := insertBeforeNode child node d
    rw [List.findSome?_cons]
    cases found : State.insertBeforeNode child node d with
    | none => exact ih
    | some inserted =>
      rw [found] at here
      exact here

theorem mountBefore (marker : ℕ) (states : List State) (d : Dom) :
    Spares d (states.foldl (fun d state => state.mountBefore marker d) d) (allTops states) := by
  induction states generalizing d with
  | nil => exact .refl d
  | cons state rest ih =>
    have first : Spares d (state.mountBefore marker d) (allTops (state :: rest)) :=
      (insertBeforeNode state marker d).mono fun n member => List.mem_append_left _ member
    exact first.trans (ih _) fun n member => .inl (List.mem_append_right _ member)

end Spares

/-! ## Building -/

/-- New states have new nodes, and no other node gets a parent. -/
structure New (d : Dom) (states : List State) (d' : Dom) : Prop where
  spares : Spares d d' []
  new : ∀ n ∈ allFoot states, d.next ≤ n

namespace New

variable {d d' d'' : Dom} {states : List State} {state : State}

/-- The states are kept together as one state. -/
theorem wrap (new : New d states d') (foot : state.foot = allFoot states) : New d [state] d' :=
  ⟨new.spares, by rw [allFoot_one, foot]; exact new.new⟩

theorem leaf {content : Content} (foot : state.foot = [d.next]) : New d [state] (d.create content).2 := by
  refine ⟨.create content, fun n member => ?_⟩
  rw [allFoot_one, foot, List.mem_singleton] at member
  exact member.ge

theorem mounted {nodes : List ℕ} (new : New d [state] d')
    (mounts : Spares d' d'' state.tops) : Spares d d'' nodes := by
  have all : Spares d d' nodes := new.spares.mono nofun
  refine all.trans mounts fun n member => .inr (new.new n ?_)
  rw [allFoot_one]
  exact (tops_sublist state).subset member

theorem element {tag : String} {node : ℕ} (here : node = d.next) (new : New (d.create (.element tag)).2 [state] d') :
    New d [.element node state] (state.mount node none d') := by
  have mounted : Spares (d.create (.element tag)).2 (state.mount node none d') [] :=
    new.mounted (.mount node none state d')
  refine ⟨(Spares.create _).trans mounted nofun, fun n member => ?_⟩
  rw [allFoot_one, foot, List.mem_cons] at member
  cases member with
  | inl same => exact (same.trans here).ge
  | inr member => exact Nat.le_of_succ_le (new.new n (by rw [allFoot_one]; exact member))

/-- A list's marker is made before its states. -/
theorem list {marker : ℕ} (here : marker = d.next) (new : New (d.create .comment).2 states d') :
    New d [.list states marker] d' := by
  refine ⟨(Spares.create .comment).trans new.spares nofun, fun n member => ?_⟩
  rw [allFoot_one, foot, List.mem_append, List.mem_singleton] at member
  cases member with
  | inl member => exact Nat.le_of_succ_le (new.new n member)
  | inr same => exact (same.trans here).ge

theorem anyExtra {type : ViewType} (new : New d [state] d') :
    New d [.any type state (some d'.next)] (d'.create .comment).2 := by
  refine ⟨new.spares.trans (.create .comment : Spares d' _ []) nofun, fun n member => ?_⟩
  rw [allFoot_one, foot, Option.toList_some, List.mem_append, List.mem_singleton] at member
  cases member with
  | inl member => exact new.new n (by rw [allFoot_one]; exact member)
  | inr same => exact new.spares.le.trans same.ge

end New

mutual

theorem build_new (view : View) (d : Dom) : New d [(view.build d).1] (view.build d).2 := by
  cases view with
  | text str => exact .leaf rfl
  | unit => exact .leaf rfl
  | element tag closing child =>
    cases closing with
    | true => exact .leaf rfl
    | false => exact (build_new child _).element rfl
  | custom tag child => exact (build_new child _).element rfl
  | tuple views => exact (buildAll_new views d).wrap rfl
  | array views => exact (buildAll_new views d).wrap rfl
  | optionNone => exact .leaf rfl
  | optionSome view => exact (build_new view d).wrap (allFoot_one _).symm
  | either branch view => exact (build_new view d).wrap (allFoot_one _).symm
  | vec views => exact (buildAll_new views _).list rfl
  | staticVec views => exact (buildAll_new views _).list rfl
  | any type view =>
    have built := build_new view d
    rw [View.build]
    split
    · exact built.wrap rfl
    · exact built.anyExtra
  | resultErr => exact .leaf rfl
  | resultOk view => exact (build_new view d).wrap (allFoot_one _).symm

theorem buildAll_new (views : List View) (d : Dom) : New d (View.buildAll views d).1 (View.buildAll views d).2 := by
  cases views with
  | nil => exact ⟨.refl d, nofun⟩
  | cons view rest =>
    have first := build_new view d
    have others := buildAll_new rest (view.build d).2
    refine ⟨first.spares.trans others.spares nofun, fun n member => ?_⟩
    rw [View.buildAll, allFoot, List.mem_append] at member
    cases member with
    | inl member => exact first.new n (by rw [allFoot_one]; exact member)
    | inr member => exact first.spares.le.trans (others.new n member)

end

/-! ## Rebuilding -/

theorem tops_subset {state : State} {n : ℕ} (member : n ∈ state.tops) : n ∈ state.foot :=
  (tops_sublist state).subset member

namespace Spares

variable {d d₁ : Dom}

theorem replace {state new : State} (built : New d [new] d₁) :
    Spares d (state.replace (new, d₁)).2 state.foot := by
  have inserted : Spares d ((State.insertBeforeThis new state d₁).getD d₁) state.foot :=
    built.mounted (.insertBeforeThis new state d₁)
  exact inserted.trans (.unmount state _) fun n member => .inl (tops_subset member)

theorem rebuildEither {new branch : ℕ} {view : View} {rebuild : State → Dom → State × Dom} {state : State}
    (same : Spares d (rebuild state d).2 state.foot) :
    Spares d (View.rebuildEither new view rebuild branch state d).2 state.foot := by
  unfold View.rebuildEither
  split
  · exact same
  · exact .replace (build_new view d)

theorem rebuildList {views : List View} {loop : List State → Dom → List State × Dom} {states : List State}
    {marker : ℕ} (turns : Spares d (loop states d).2 (allFoot states)) :
    Spares d (View.rebuildList views loop states marker d).2 (State.list states marker).foot := by
  unfold View.rebuildList
  split
  · have built := buildAll_new views (d.create .comment).2
    have made : Spares d (View.buildAll views (d.create .comment).2).2 [] :=
      (Spares.create .comment).trans built.spares nofun
    refine (made.mono nofun).trans (.mountBefore marker _ _) fun n member => .inr ?_
    exact Nat.le_of_succ_le (built.new n (allTops_subset member))
  · split
    · exact (Spares.unmountAll states d).mono fun n member => List.mem_append_left _ (allTops_subset member)
    · exact turns.mono fun n member => List.mem_append_left _ member

theorem replaceAny {old : ViewType} {state new : State} {extra : Option ℕ} (built : New d [new] d₁) :
    Spares d (View.replaceAny (new, d₁) old state extra).2 (State.any old state extra).foot := by
  cases extra with
  | none => exact .replace built
  | some node =>
    have inserted : Spares d ((State.insertBeforeNode new node d₁).getD d₁) (State.any old state (some node)).foot :=
      built.mounted (.insertBeforeNode new node d₁)
    have removed := inserted.trans (.remove : Spares _ (Dom.remove _ node) [node]) fun n member => .inl (by
      rw [List.mem_singleton.mp member, foot]
      simp)
    exact removed.trans (.unmount (.any old state (some node)) _) fun n member => .inl (tops_subset member)

end Spares

mutual

/-- Rebuilding gives parents only to the nodes of the state and to new ones. -/
theorem rebuild_spares (view : View) (state : State) (d : Dom) : Spares d (view.rebuild state d).2 state.foot := by
  cases view with
  | text new =>
    cases state with
    | text node str =>
      rw [View.rebuild]
      split
      · exact .setText
      · exact .refl d
    | _ => exact .refl d
  | unit => cases state <;> exact .refl d
  | element tag closing child =>
    cases state with
    | element node children =>
      exact (rebuild_spares child children d).mono fun n member => List.mem_cons_of_mem _ member
    | _ => exact .refl d
  | custom tag child =>
    cases state with
    | element node children =>
      rw [View.rebuild]
      split
      · exact .replace (build_new (.custom tag child) d)
      · exact (rebuild_spares child children d).mono fun n member => List.mem_cons_of_mem _ member
    | _ => exact .refl d
  | tuple views =>
    cases state with
    | tuple states => exact rebuildEach_spares views states d
    | _ => exact .refl d
  | array views =>
    cases state with
    | tuple states => exact rebuildEach_spares views states d
    | _ => exact .refl d
  | optionNone =>
    cases state with
    | either branch state => exact .rebuildEither (.refl d)
    | _ => exact .refl d
  | optionSome view =>
    cases state with
    | either branch state => exact .rebuildEither (rebuild_spares view state d)
    | _ => exact .refl d
  | either new view =>
    cases state with
    | either branch state => exact .rebuildEither (rebuild_spares view state d)
    | _ => exact .refl d
  | vec views =>
    cases state with
    | list states marker => exact .rebuildList (rebuildItems_spares marker views states d)
    | _ => exact .refl d
  | staticVec views =>
    cases state with
    | list states marker => exact .rebuildList (rebuildItems_spares marker views states d)
    | _ => exact .refl d
  | any type view =>
    cases state with
    | any held state extra =>
      rw [View.rebuild]
      split
      · exact (rebuild_spares view state d).mono fun n member => List.mem_append_left _ member
      · exact .replaceAny (build_new (.any type view) d)
    | _ => exact .refl d
  | resultErr =>
    cases state with
    | either branch state => exact .rebuildEither (.refl d)
    | _ => exact .refl d
  | resultOk view =>
    cases state with
    | either branch state => exact .rebuildEither (rebuild_spares view state d)
    | _ => exact .refl d

theorem rebuildEach_spares (views : List View) (states : List State) (d : Dom) :
    Spares d (View.rebuildEach views states d).2 (allFoot states) := by
  cases views with
  | nil => cases states <;> exact .refl d
  | cons view rest =>
    cases states with
    | nil => exact .refl d
    | cons state states =>
      have first := (rebuild_spares view state d).mono fun n (member : n ∈ state.foot) =>
        (List.mem_append_left (allFoot states) member : n ∈ allFoot (state :: states))
      exact first.trans (rebuildEach_spares rest states _) fun n member => .inl (List.mem_append_right _ member)

theorem rebuildItems_spares (marker : ℕ) (views : List View) (states : List State) (d : Dom) :
    Spares d (View.rebuildItems marker views states d).2 (allFoot states) := by
  cases views with
  | nil => exact (Spares.unmountAll states d).mono fun n member => allTops_subset member
  | cons view rest =>
    cases states with
    | nil =>
      have built := build_new view d
      have mounted : Spares d ((view.build d).1.mountBefore marker (view.build d).2) [] :=
        built.mounted (.insertBeforeNode _ marker _)
      exact mounted.trans (rebuildItems_spares marker rest [] _) fun n member => .inl member
    | cons state states =>
      have first := (rebuild_spares view state d).mono fun n (member : n ∈ state.foot) =>
        (List.mem_append_left (allFoot states) member : n ∈ allFoot (state :: states))
      exact first.trans (rebuildItems_spares marker rest states _) fun n member =>
        .inl (List.mem_append_right _ member)

end

end Halyard.Rebuild
