import Halyard.Rebuild.Fits

/-!
# Building

`Built` says what a built view has made: new nodes that fit its type, show what the view shows and
stand nowhere yet; the nodes that were there before are as they were.

* `build_spec`: so it is for every view.
-/

namespace Halyard.Rebuild

open State

variable {d d₁ d₂ : Dom}

/-! ## Lists of states -/

namespace State

theorem allFoot_append (left right : List State) :
    allFoot (left ++ right) = allFoot left ++ allFoot right := by
  induction left with
  | nil => rfl
  | cons state rest ih => rw [List.cons_append, allFoot, allFoot, ih, List.append_assoc]

theorem allTrees_append (left right : List State) :
    allTrees d (left ++ right) = allTrees d left ++ allTrees d right := by
  induction left with
  | nil => rfl
  | cons state rest ih => rw [List.cons_append, allTrees, allTrees, ih, List.append_assoc]

theorem FitsEach.append {left right : List State} {types types' : List ViewType}
    (first : FitsEach d left types) (second : FitsEach d right types') :
    FitsEach d (left ++ right) (types ++ types') := by
  induction left generalizing types with
  | nil =>
    cases types with
    | nil => exact second
    | cons type types => exact first.elim
  | cons state rest ih =>
    cases types with
    | nil => exact first.elim
    | cons type types => exact ⟨first.1, ih first.2⟩

theorem FitsEach.length_eq {states : List State} {types : List ViewType}
    (fits : FitsEach d states types) : states.length = types.length := by
  induction states generalizing types with
  | nil =>
    cases types with
    | nil => rfl
    | cons type types => exact fits.elim
  | cons state rest ih =>
    cases types with
    | nil => exact fits.elim
    | cons type types => exact congrArg Nat.succ (ih fits.2)

@[simp] theorem allFoot_one (state : State) : allFoot [state] = state.foot := by
  rw [allFoot, allFoot, List.append_nil]

@[simp] theorem allTops_one (state : State) : allTops [state] = state.tops := by
  rw [allTops, allTops, List.append_nil]

@[simp] theorem allTrees_one (state : State) : allTrees d [state] = state.trees d := by
  rw [allTrees, allTrees, List.append_nil]

theorem allTops_subset {states : List State} {n : ℕ} (member : n ∈ allTops states) :
    n ∈ allFoot states :=
  (allTops_sublist states).subset member

end State

/-! ## What building makes -/

/-- From `d` to `d'`, the states of new views of the types are built. -/
structure Built (d : Dom) (types : List ViewType) (shown : List Tree) (states : List State)
    (d' : Dom) : Prop where
  wf : d'.Wf
  fits : FitsEach d' states types
  trees : allTrees d' states = shown
  nodup : (allFoot states).Nodup
  new : ∀ n ∈ allFoot states, d.next ≤ n ∧ n < d'.next
  free : ∀ n ∈ allTops states, d'.parent n = none
  le : d.next ≤ d'.next
  kept : ∀ n < d.next,
    d'.content n = d.content n ∧ d'.children n = d.children n ∧ d'.parent n = d.parent n

namespace Built

variable {types types' : List ViewType} {shown shown' : List Tree} {states states' : List State}

theorem nil (wf : d.Wf) : Built d [] [] [] d where
  wf := wf
  fits := trivial
  trees := rfl
  nodup := List.nodup_nil
  new := by simp [allFoot]
  free := by simp [allTops]
  le := Nat.le_refl _
  kept := fun _ _ => ⟨rfl, rfl, rfl⟩

/-- A node without children. -/
theorem leaf (wf : d.Wf) (content : Content) (state : State) (type : ViewType)
    (foot : state.foot = [d.next]) (fits : state.Fits (d.create content).2 type)
    (trees : state.trees (d.create content).2 = shown) :
    Built d [type] shown [state] (d.create content).2 where
  wf := wf.create content
  fits := ⟨fits, trivial⟩
  trees := by rw [allTrees_one, trees]
  nodup := by rw [allFoot_one, foot]; exact List.nodup_singleton _
  new := by
    intro n member
    rw [allFoot_one, foot, List.mem_singleton] at member
    subst member
    exact ⟨Nat.le_refl _, Nat.lt_succ_self _⟩
  free := by
    intro n member
    have member := allTops_subset member
    rw [allFoot_one, foot, List.mem_singleton] at member
    subst member
    exact (wf.fresh d.next (Nat.le_refl _)).1
  le := Nat.le_succ _
  kept := fun _ below => ⟨Function.update_of_ne (Nat.ne_of_lt below) .., rfl, rfl⟩

theorem append (first : Built d types shown states d₁) (second : Built d₁ types' shown' states' d₂) :
    Built d (types ++ types') (shown ++ shown') (states ++ states') d₂ where
  wf := second.wf
  fits := by
    refine (first.fits.congr ?_).append second.fits
    intro n member
    obtain ⟨content, children, -⟩ := second.kept n (first.new n member).2
    exact ⟨content, children⟩
  trees := by
    rw [allTrees_append, second.trees, ← first.trees,
      allTrees_congr fun n member => (second.kept n (first.new n member).2).1]
  nodup := by
    rw [allFoot_append]
    refine List.nodup_append.mpr ⟨first.nodup, second.nodup, ?_⟩
    rintro n member _ member' rfl
    exact absurd (first.new n member).2 (Nat.not_lt.mpr (second.new n member').1)
  new := by
    intro n member
    rw [allFoot_append, List.mem_append] at member
    cases member with
    | inl member =>
      obtain ⟨le, lt⟩ := first.new n member
      exact ⟨le, lt.trans_le second.le⟩
    | inr member =>
      obtain ⟨le, lt⟩ := second.new n member
      exact ⟨first.le.trans le, lt⟩
  free := by
    intro n member
    rw [allTops_append, List.mem_append] at member
    cases member with
    | inl member =>
      rw [(second.kept n (first.new n (allTops_subset member)).2).2.2]
      exact first.free n member
    | inr member => exact second.free n member
  le := first.le.trans second.le
  kept := by
    intro n below
    obtain ⟨content, children, parent⟩ := first.kept n below
    obtain ⟨content', children', parent'⟩ := second.kept n (below.trans_le first.le)
    exact ⟨content'.trans content, children'.trans children, parent'.trans parent⟩

/-- States are kept together as one state. -/
theorem wrap (built : Built d types shown states d₁) {state : State} {type : ViewType}
    (foot : state.foot.Perm (allFoot states)) (tops : ∀ n ∈ state.tops, n ∈ allTops states)
    (fits : state.Fits d₁ type) (trees : state.trees d₁ = shown') :
    Built d [type] shown' [state] d₁ where
  wf := built.wf
  fits := ⟨fits, trivial⟩
  trees := by rw [allTrees_one, trees]
  nodup := by
    rw [allFoot_one]
    exact foot.nodup_iff.mpr built.nodup
  new := by
    intro n member
    rw [allFoot_one] at member
    exact built.new n (foot.mem_iff.mp member)
  free := by
    intro n member
    rw [allTops_one] at member
    exact built.free n (tops n member)
  le := built.le
  kept := built.kept

/-- More nodes than the states have may have been made before. -/
theorem create {content : Content} (built : Built (d.create content).2 types shown states d₁) :
    Built d types shown states d₁ where
  wf := built.wf
  fits := built.fits
  trees := built.trees
  nodup := built.nodup
  new := fun n member => ⟨Nat.le_of_succ_le (built.new n member).1, (built.new n member).2⟩
  free := built.free
  le := Nat.le_of_succ_le built.le
  kept := by
    intro n below
    obtain ⟨same, rest⟩ := built.kept n (Nat.lt_succ_of_lt below)
    exact ⟨same.trans (Function.update_of_ne (Nat.ne_of_lt below) ..), rest⟩

/-- An element is made before its children, which are mounted in it. -/
theorem element (wf : d.Wf) {tag : String} {child : State}
    (built : Built (d.create (.element tag)).2 types shown [child] d₁) {type : ViewType}
    (fits : ∀ d' : Dom, d'.content d.next = .element tag → d'.children d.next = child.tops →
      FitsEach d' [child] types → (State.element d.next child).Fits d' type) :
    Built d [type] [.element tag shown] [.element d.next child] (child.mount d.next none d₁) := by
  rw [mount_eq]
  obtain ⟨content, children, parent⟩ := built.kept d.next (Nat.lt_succ_self _)
  have made : d.next < d₁.next := built.le
  have empty : d₁.children d.next = [] ++ [] := children.trans (wf.fresh d.next (Nat.le_refl _)).2
  have new : ∀ n ∈ child.foot, d.next < n ∧ n < d₁.next := by
    have new := built.new
    rw [allFoot_one] at new
    exact new
  have free := built.free
  have nodup := built.nodup
  rw [allFoot_one] at nodup
  rw [allTops_one] at free
  have above : ∀ n ∈ child.tops, d.next < n ∧ n < d₁.next :=
    fun n member => new n ((tops_sublist child).subset member)
  obtain ⟨wf', edits⟩ := Dom.insertAll_edits child.tops built.wf
    (fun n member => ⟨free n member, (above n member).2⟩) (nodup.sublist (tops_sublist child)) made
    empty
  simp only [List.head?_nil, List.nil_append, List.append_nil] at wf' edits
  set d₂ := child.tops.foldl (fun d' node => d'.insertNode d.next node none) d₁
  have here : d₂.children d.next = child.tops := by rw [edits.children, Function.update_self]
  have other : ∀ n, n ≠ d.next → d₂.children n = d₁.children n := by
    intro n ne
    rw [edits.children, Function.update_of_ne ne]
  have is : d₂.content d.next = .element tag := by
    rw [edits.content, content]
    exact Function.update_self ..
  have stays : ∀ n ≤ d.next, d₂.parent n = d₁.parent n := by
    intro n below
    apply edits.parent_eq built.wf wf'
    rw [empty]
    simpa using fun member => Nat.not_lt.mpr below (above n member).1
  have inside : ∀ n ∈ allFoot [child], d₂.content n = d₁.content n ∧ d₂.children n = d₁.children n := by
    intro n member
    rw [allFoot_one] at member
    exact ⟨by rw [edits.content], other n (new n member).1.ne'⟩
  have shows : allTrees d₂ [child] = shown := by
    rw [allTrees_congr fun n member => (inside n member).1, built.trees]
  rw [allTrees_one] at shows
  exact {
    wf := wf'
    fits := ⟨fits d₂ is here (built.fits.congr inside), trivial⟩
    trees := by
      rw [allTrees_one, State.trees, is, shows]
      rfl
    nodup := by
      rw [allFoot_one, foot]
      exact List.nodup_cons.mpr ⟨fun member => (new _ member).1.ne rfl, nodup⟩
    new := by
      intro n member
      rw [allFoot_one, foot] at member
      rw [edits.next]
      cases member with
      | head => exact ⟨Nat.le_refl _, made⟩
      | tail _ member => exact ⟨(new n member).1.le, (new n member).2⟩
    free := by
      intro n member
      rw [allTops_one, tops, List.mem_singleton] at member
      subst member
      rw [stays _ (Nat.le_refl _), parent]
      exact (wf.fresh d.next (Nat.le_refl _)).1
    le := by rw [edits.next]; exact made.le
    kept := by
      intro n below
      obtain ⟨content, children, parent⟩ := built.kept n (Nat.lt_succ_of_lt below)
      refine ⟨?_, ?_, ?_⟩
      · rw [edits.content, content]
        exact Function.update_of_ne below.ne ..
      · rw [other n below.ne, children]
        rfl
      · rw [stays n below.le, parent]
        rfl }

theorem placeholder (wf : d.Wf) :
    Built d [.unit] [.comment] [.placeholder d.next] (d.create .comment).2 := by
  have is : (d.create .comment).2.content d.next = .comment := Function.update_self ..
  apply leaf wf .comment (.placeholder d.next) .unit rfl is
  rw [State.trees, is]
  rfl

/-- The states of a list stand before its marker, which is made first. -/
theorem list (wf : d.Wf) {type : ViewType}
    (built : Built (d.create .comment).2 types shown states d₁)
    (fits : ∀ d' : Dom, FitsEach d' states types → d'.content d.next = .comment →
      (State.list states d.next).Fits d' type) :
    Built d [type] (shown ++ [.comment]) [.list states d.next] d₁ := by
  have all := (placeholder wf).append built
  have is := all.fits.1
  refine all.wrap ?_ ?_ (fits d₁ built.fits is) ?_
  · exact List.perm_append_singleton ..
  · intro n member
    rw [List.cons_append, allTops]
    exact List.mem_append.mpr ((List.mem_append.mp member).symm)
  · rw [State.trees, built.trees, is]
    rfl

theorem either {type type' : ViewType} {state : State} (built : Built d [type] shown [state] d₁)
    {branch : ℕ} (fits : state.Fits d₁ type → (State.either branch state).Fits d₁ type') :
    Built d [type'] shown [.either branch state] d₁ := by
  have shows := built.trees
  rw [allTrees_one] at shows
  refine built.wrap ?_ ?_ (fits built.fits.1) shows
  · rw [allFoot_one]
    exact .refl _
  · intro n member
    rw [allTops_one]
    exact member

theorem any {type : ViewType} {state : State} (built : Built d [type] shown [state] d₁)
    (shows : type.exists = true) : Built d [.any] shown [.any type state none] d₁ := by
  have trees := built.trees
  rw [allTrees_one] at trees
  refine built.wrap ?_ ?_ ⟨built.fits.1, shows.symm, by simp⟩ ?_
  · simp [foot]
  · simp [tops]
  · simpa [State.trees] using trees

/-- A type that writes nothing of its own has a placeholder after it. -/
theorem anyExtra {type : ViewType} {state : State} (built : Built d [type] shown [state] d₁)
    (shows : type.exists = false) : Built d [.any] (shown ++ [.comment])
      [.any type state (some d₁.next)] (d₁.create .comment).2 := by
  have all := built.append (placeholder built.wf)
  obtain ⟨fits, is, -⟩ := all.fits
  refine all.wrap (.refl _) (fun _ => id) ⟨fits, shows.symm, ?_⟩ ?_
  · intro node member
    rw [Option.toList_some, List.mem_singleton] at member
    subst member
    exact is
  · rw [← all.trees]
    rfl

end Built

/-! ## Every view -/

mutual

/-- What building a view makes. -/
theorem build_spec (view : View) {type : ViewType} (ofType : view.OfType type) (d : Dom) (wf : d.Wf) :
    Built d [type] view.trees [(view.build d).1] (view.build d).2 := by
  cases view with
  | text str =>
    cases type with
    | text =>
      have is : (d.create (.text str)).2.content d.next = .text str := Function.update_self ..
      apply Built.leaf wf (.text str) (.text d.next str) .text rfl is
      rw [State.trees, is]
      rfl
    | _ => exact ofType.elim
  | unit =>
    cases type with
    | unit => exact .placeholder wf
    | _ => exact ofType.elim
  | element tag closing child =>
    cases type with
    | element tag' closing' type =>
      obtain ⟨rfl, rfl, ofType⟩ := ofType
      cases closing with
      | true =>
        have is : (d.create (.element tag)).2.content d.next = .element tag := Function.update_self ..
        refine Built.leaf wf (.element tag) (.void d.next) (.element tag true type) rfl
          ⟨is, (wf.fresh d.next (Nat.le_refl _)).2⟩ ?_
        rw [State.trees, is]
        rfl
      | false =>
        have built := build_spec child ofType _ (wf.create (.element tag))
        exact built.element wf fun _ is here fits => ⟨is, here, fits.1⟩
    | _ => exact ofType.elim
  | custom tag child =>
    cases type with
    | custom type =>
      have built := build_spec child ofType _ (wf.create (.element tag.toLower))
      exact built.element wf fun _ is here fits => ⟨⟨tag, is⟩, here, fits.1⟩
    | _ => exact ofType.elim
  | tuple views =>
    cases type with
    | tuple types =>
      have built := buildAll_spec views ofType.2 d wf
      exact built.wrap (.refl _) (fun _ => id) ⟨ofType.1, built.fits⟩ built.trees
    | _ => exact ofType.elim
  | array views =>
    cases type with
    | array length type =>
      have built := buildAll_spec views ofType.2.2 d wf
      have long : (View.buildAll views d).1.length = views.length := by
        rw [built.fits.length_eq, List.length_replicate]
      refine built.wrap (.refl _) (fun _ => id) ⟨ofType.1, long.trans ofType.2.1, ?_⟩ built.trees
      rw [long]
      exact built.fits
    | _ => exact ofType.elim
  | optionNone =>
    cases type with
    | option type => exact (Built.placeholder wf).either fun fits => .inr ⟨rfl, fits⟩
    | _ => exact ofType.elim
  | optionSome view =>
    cases type with
    | option type => exact (build_spec view ofType d wf).either fun fits => .inl ⟨rfl, fits⟩
    | _ => exact ofType.elim
  | either branch view =>
    cases type with
    | either types =>
      obtain ⟨type, is, ofType⟩ := ofType
      exact (build_spec view ofType d wf).either fun fits => ⟨type, is, fits⟩
    | _ => exact ofType.elim
  | vec views =>
    cases type with
    | vec type =>
      have built := buildAll_spec views ofType _ (wf.create .comment)
      refine built.list wf fun _ fits is => ⟨?_, is⟩
      rw [built.fits.length_eq, List.length_replicate]
      exact fits
    | _ => exact ofType.elim
  | staticVec views =>
    cases type with
    | staticVec type =>
      have built := buildAll_spec views ofType _ (wf.create .comment)
      refine built.list wf fun _ fits is => ⟨?_, is⟩
      rw [built.fits.length_eq, List.length_replicate]
      exact fits
    | _ => exact ofType.elim
  | any type' view =>
    cases type with
    | any =>
      have built := build_spec view ofType d wf
      rw [View.build, View.trees]
      cases exists? : type'.exists with
      | true =>
        rw [if_pos rfl, if_pos rfl, List.append_nil]
        exact built.any exists?
      | false => exact built.anyExtra exists?
    | _ => exact ofType.elim
  | resultErr =>
    cases type with
    | result type => exact (Built.placeholder wf).either fun fits => .inr ⟨rfl, fits⟩
    | _ => exact ofType.elim
  | resultOk view =>
    cases type with
    | result type => exact (build_spec view ofType d wf).either fun fits => .inl ⟨rfl, fits⟩
    | _ => exact ofType.elim

theorem buildAll_spec (views : List View) {types : List ViewType} (ofTypes : View.EachOfType views types)
    (d : Dom) (wf : d.Wf) :
    Built d types (View.allTrees views) (View.buildAll views d).1 (View.buildAll views d).2 := by
  cases views with
  | nil =>
    cases types with
    | nil => exact .nil wf
    | cons type types => exact ofTypes.elim
  | cons view rest =>
    cases types with
    | nil => exact ofTypes.elim
    | cons type types =>
      have first := build_spec view ofTypes.1 d wf
      exact first.append (buildAll_spec rest ofTypes.2 _ first.wf)

end

end Halyard.Rebuild
