import Halyard.Rebuild.Replace

/-!
# Values one after another

A view that is mounted once and rebuilt with every further value shows what its last value shows when
it is mounted alone.

* `rebuild_spec`: what rebuilding with one value makes of what stands there.
* `Alike`: two nodes have the same text, the same tag and the same children, in order.
-/

namespace Halyard.Rebuild

open State

variable {d d₁ : Dom} {parent : ℕ} {before after : List ℕ}

/-! ## The kinds of rebuilding -/

namespace View

/-- Another branch is built and takes the place of the old one; the same branch is rebuilt. -/
theorem rebuildEither_spec {new branch : ℕ} {view : View} {rebuild : State → Dom → State × Dom}
    {state : State} {type type' : ViewType} (ofType : view.OfType type)
    (placed : Placed d parent before after [.either branch state]) (stands : state.tops ≠ [])
    (same : new = branch → Placed d parent before after [state] →
      Rebuilt d parent before after [state] [type] view.trees [(rebuild state d).1] (rebuild state d).2)
    (fits : ∀ (d' : Dom) (s : State), s.Fits d' type → (State.either new s).Fits d' type') :
    Rebuilt d parent before after [.either branch state] [type'] view.trees
      [(rebuildEither new view rebuild branch state d).1]
      (rebuildEither new view rebuild branch state d).2 := by
  have inner : Placed d parent before after [state] := placed.congr rfl rfl
  unfold rebuildEither
  by_cases here : new = branch
  · rw [if_pos here]
    exact (same here inner).either (fits _ _)
  · rw [if_neg here]
    have built := build_spec view ofType d placed.wf
    exact (Rebuilt.replace inner stands built).either (fits _ _)

theorem rebuildList_spec {views : List View} {loop : List State → Dom → List State × Dom}
    {states : List State} {marker : ℕ} {type type' : ViewType}
    (ofTypes : EachOfType views (.replicate views.length type))
    (placed : Placed d parent before after [.list states marker]) (is : d.content marker = .comment)
    (turns : Placed d parent before (marker :: after) states →
      Rebuilt d parent before (marker :: after) states (.replicate views.length type) (allTrees views)
        (loop states d).1 (loop states d).2)
    (fits : ∀ (d' : Dom) (new : List State), FitsEach d' new (.replicate new.length type) →
      d'.content marker = .comment → (State.list new marker).Fits d' type') :
    Rebuilt d parent before after [.list states marker] [type'] (allTrees views ++ [.comment])
      [(rebuildList views loop states marker d).1] (rebuildList views loop states marker d).2 := by
  have fits' : ∀ (d' : Dom) (new : List State), FitsEach d' new (.replicate views.length type) →
      d'.content marker = .comment → (State.list new marker).Fits d' type' := by
    intro d' new each comment
    apply fits d' new _ comment
    rw [each.length_eq, List.length_replicate]
    exact each
  have inner : Placed d parent before (marker :: after) states := placed.list.left
  unfold rebuildList
  split
  next none =>
    rw [List.isEmpty_iff] at none
    subst none
    have built := (buildAll_spec views ofTypes _ (placed.wf.create .comment)).create
    exact (Rebuilt.insertBefore inner built).list placed is (fits' _ _)
  next =>
    split
    next none =>
      rw [List.isEmpty_iff] at none
      subst none
      exact (Rebuilt.remove inner).list placed is (fits' _ _)
    next => exact (turns inner).list placed is (fits' _ _)

end View

/-! ### Tag names -/

theorem char_toLower_toUpper (c : Char) : c.toLower.toUpper.toLower = c.toLower := by
  by_cases ascii : c.toNat < 128
  · have all : ∀ n < 128, (Char.ofNat n).toLower.toUpper.toLower = (Char.ofNat n).toLower := by
      decide
    have this := all c.toNat ascii
    rwa [Char.ofNat_toNat] at this
  · have above : 128 ≤ c.val.toNat := Nat.le_of_not_lt ascii
    have lower : c.toLower = c := by
      apply dif_neg
      rintro ⟨-, le⟩
      exact absurd (above.trans (UInt32.le_iff_toNat_le.mp le)) (by decide)
    have upper : c.toUpper = c := by
      apply dif_neg
      rintro ⟨-, le⟩
      exact absurd (above.trans (UInt32.le_iff_toNat_le.mp le)) (by decide)
    rw [lower, upper, lower]

/-- An element with this tag name is as good as a new one with this tag. -/
theorem content_of_tagName {node : ℕ} {tag tag' : String}
    (is : d.content node = .element tag'.toLower) (same : tag = d.tagName node) :
    d.content node = .element tag.toLower := by
  rw [Dom.tagName, is] at same
  rw [is, same]
  unfold String.toLower String.toUpper
  rw [String.map_map, String.map_map]
  congr 2
  funext c
  exact (char_toLower_toUpper c).symm

/-! ## One value -/

theorem Rebuilt.same {state : State} {type : ViewType} {shown : List Tree}
    (placed : Placed d parent before after [state]) (fits : state.Fits d type)
    (trees : state.trees d = shown) : Rebuilt d parent before after [state] [type] shown [state] d := by
  have all := Rebuilt.refl placed (show FitsEach d [state] [type] from ⟨fits, trivial⟩)
  rwa [allTrees_one, trees] at all

theorem unit_spec {state : State} (fits : state.Fits d .unit)
    (placed : Placed d parent before after [state]) :
    Rebuilt d parent before after [state] [.unit] [.comment] [state] d := by
  cases state with
  | placeholder node =>
    exact .same placed fits (by rw [State.trees, show d.content node = _ from fits]; rfl)
  | _ => exact fits.elim

/-- `None` and `Err`. -/
theorem none_spec {branch : ℕ} {state : State} {type type' : ViewType}
    (placed : Placed d parent before after [.either branch state])
    (stands : (branch = 0 ∧ state.Fits d type) ∨ (branch = 1 ∧ state.Fits d .unit))
    (fits : ∀ (d' : Dom) (s : State), s.Fits d' .unit → (State.either 1 s).Fits d' type') :
    Rebuilt d parent before after [.either branch state] [type'] [.comment]
      [(View.rebuildEither 1 .unit (fun state d => (state, d)) branch state d).1]
      (View.rebuildEither 1 .unit (fun state d => (state, d)) branch state d).2 := by
  have unit : View.unit.OfType .unit := trivial
  refine View.rebuildEither_spec unit placed (stands.elim (·.2.tops_ne_nil) (·.2.tops_ne_nil)) ?_ fits
  intro here inner
  cases stands with
  | inl stands => exact absurd (here.trans stands.1) Nat.one_ne_zero
  | inr stands => exact unit_spec stands.2 inner

/-- `Some` and `Ok`. -/
theorem some_spec {view : View} {branch : ℕ} {state : State} {type type' : ViewType}
    (ofType : view.OfType type) (placed : Placed d parent before after [.either branch state])
    (stands : (branch = 0 ∧ state.Fits d type) ∨ (branch = 1 ∧ state.Fits d .unit))
    (same : state.Fits d type → Placed d parent before after [state] →
      Rebuilt d parent before after [state] [type] view.trees [(view.rebuild state d).1]
        (view.rebuild state d).2)
    (fits : ∀ (d' : Dom) (s : State), s.Fits d' type → (State.either 0 s).Fits d' type') :
    Rebuilt d parent before after [.either branch state] [type'] view.trees
      [(View.rebuildEither 0 view view.rebuild branch state d).1]
      (View.rebuildEither 0 view view.rebuild branch state d).2 := by
  refine View.rebuildEither_spec ofType placed (stands.elim (·.2.tops_ne_nil) (·.2.tops_ne_nil)) ?_ fits
  intro here inner
  cases stands with
  | inl stands => exact same stands.2 inner
  | inr stands => exact absurd (here.trans stands.1) Nat.zero_ne_one

theorem setText_spec {node : ℕ} {str : String} (placed : Placed d parent before after [.text node str])
    (new : String) : Rebuilt d parent before after [.text node str] [.text] [.text new]
      [.text node new] (d.setText node new) := by
  have is : (d.setText node new).content node = .text new := Function.update_self ..
  exact {
    placed := ⟨placed.wf.setText new, placed.nodup, placed.bound, placed.children, placed.outside,
      placed.there⟩
    fits := ⟨is, trivial⟩
    trees := by
      rw [allTrees_one, State.trees, is]
      rfl
    nodes := fun _ => .inl
    le := Nat.le_refl _
    kept := by
      intro n _ absent
      rw [allFoot_one, foot, List.mem_singleton] at absent
      exact ⟨Function.update_of_ne absent .., fun _ => rfl⟩ }

mutual

/-- What rebuilding with a value of the same type makes. -/
theorem rebuild_spec (view : View) {type : ViewType} (ofType : view.OfType type) (state : State)
    (d : Dom) (parent : ℕ) (before after : List ℕ) (fits : state.Fits d type)
    (placed : Placed d parent before after [state]) :
    Rebuilt d parent before after [state] [type] view.trees [(view.rebuild state d).1]
      (view.rebuild state d).2 := by
  cases view with
  | text new =>
    cases type with
    | text =>
      cases state with
      | text node str =>
        rw [View.rebuild]
        split
        next => exact setText_spec placed new
        next same =>
          rw [not_not.mp same]
          exact .same placed fits (by rw [State.trees, show d.content node = _ from fits]; rfl)
      | _ => exact fits.elim
    | _ => exact ofType.elim
  | unit =>
    cases type with
    | unit => exact unit_spec fits placed
    | _ => exact ofType.elim
  | element tag closing child =>
    cases type with
    | element tag' closing' type =>
      obtain ⟨rfl, rfl, ofType⟩ := ofType
      cases state with
      | void node =>
        cases closing with
        | true => exact .same placed fits (by rw [State.trees, fits.1]; rfl)
        | false => exact fits.elim
      | element node inner =>
        cases closing with
        | true => exact fits.elim
        | false =>
          obtain ⟨is, holds, fits⟩ := fits
          have rebuilt := rebuild_spec child ofType inner d node [] [] fits (placed.inside holds)
          exact .element placed rebuilt is fun is holds => ⟨is, holds, rebuilt.fits.1⟩
      | _ => exact fits.elim
    | _ => exact ofType.elim
  | custom tag child =>
    cases type with
    | custom type =>
      cases state with
      | element node inner =>
        have stands := fits.tops_ne_nil
        obtain ⟨⟨tag', is⟩, holds, fits⟩ := fits
        rw [View.rebuild]
        split
        next =>
          have ofType' : (View.custom tag child).OfType (.custom type) := ofType
          exact .replace placed stands (build_spec _ ofType' d placed.wf)
        next same =>
          have is := content_of_tagName is (not_not.mp same)
          have rebuilt := rebuild_spec child ofType inner d node [] [] fits (placed.inside holds)
          exact .element placed rebuilt is fun is holds => ⟨⟨tag, is⟩, holds, rebuilt.fits.1⟩
      | _ => exact fits.elim
    | _ => exact ofType.elim
  | tuple views =>
    cases type with
    | tuple types =>
      cases state with
      | tuple states =>
        have inner : Placed d parent before after states :=
          placed.congr (List.append_nil _).symm (List.append_nil _).symm
        have rebuilt := rebuildEach_spec views ofType.2 states d parent before after fits.2 inner
        exact rebuilt.wrap rfl rfl rfl ⟨ofType.1, rebuilt.fits⟩ rebuilt.trees
      | _ => exact fits.elim
    | _ => exact ofType.elim
  | array views =>
    cases type with
    | array length type =>
      cases state with
      | tuple states =>
        obtain ⟨some, long, ofTypes⟩ := ofType
        obtain ⟨-, long', fits⟩ := fits
        have inner : Placed d parent before after states :=
          placed.congr (List.append_nil _).symm (List.append_nil _).symm
        rw [long', ← long] at fits
        have rebuilt := rebuildEach_spec views ofTypes states d parent before after fits inner
        have long'' := rebuilt.fits.length_eq
        rw [List.length_replicate] at long''
        refine rebuilt.wrap rfl rfl rfl ⟨some, long''.trans long, ?_⟩ rebuilt.trees
        rw [long'']
        exact rebuilt.fits
      | _ => exact fits.elim
    | _ => exact ofType.elim
  | optionNone =>
    cases type with
    | option type =>
      cases state with
      | either branch state => exact none_spec placed fits fun _ _ fits => Or.inr ⟨rfl, fits⟩
      | _ => exact fits.elim
    | _ => exact ofType.elim
  | optionSome view =>
    cases type with
    | option type =>
      cases state with
      | either branch state =>
        have ofType : view.OfType type := ofType
        exact some_spec ofType placed fits (rebuild_spec view ofType state d parent before after)
          fun _ _ fits => Or.inl ⟨rfl, fits⟩
      | _ => exact fits.elim
    | _ => exact ofType.elim
  | either new view =>
    cases type with
    | either types =>
      cases state with
      | either branch state =>
        obtain ⟨type, is, ofType⟩ := ofType
        obtain ⟨held, is', fits⟩ := fits
        refine View.rebuildEither_spec ofType placed fits.tops_ne_nil ?_
          fun _ _ fits => ⟨type, is, fits⟩
        intro here inner
        rw [← here, is, Option.some.injEq] at is'
        subst is'
        exact rebuild_spec view ofType state d parent before after fits inner
      | _ => exact fits.elim
    | _ => exact ofType.elim
  | vec views =>
    cases type with
    | vec type =>
      cases state with
      | list states marker =>
        refine View.rebuildList_spec ofType placed fits.2 ?_ fun _ _ fits is => ⟨fits, is⟩
        exact rebuildItems_spec views ofType states d parent before after marker fits.1
      | _ => exact fits.elim
    | _ => exact ofType.elim
  | staticVec views =>
    cases type with
    | staticVec type =>
      cases state with
      | list states marker =>
        refine View.rebuildList_spec ofType placed fits.2 ?_ fun _ _ fits is => ⟨fits, is⟩
        exact rebuildItems_spec views ofType states d parent before after marker fits.1
      | _ => exact fits.elim
    | _ => exact ofType.elim
  | any type' view =>
    cases type with
    | any =>
      cases state with
      | any held state extra =>
        rw [View.rebuild]
        split
        next same =>
          subst same
          have rebuilt := rebuild_spec view ofType state d parent before _ fits.1 placed.any
          exact .any placed fits rebuilt
        next =>
          have ofType' : (View.any type' view).OfType .any := ofType
          have built := build_spec _ ofType' d placed.wf
          cases extra with
          | none => exact .replace placed fits.tops_ne_nil built
          | some node => exact .replaceExtra placed built
      | _ => exact fits.elim
    | _ => exact ofType.elim
  | resultErr =>
    cases type with
    | result type =>
      cases state with
      | either branch state => exact none_spec placed fits fun _ _ fits => Or.inr ⟨rfl, fits⟩
      | _ => exact fits.elim
    | _ => exact ofType.elim
  | resultOk view =>
    cases type with
    | result type =>
      cases state with
      | either branch state =>
        have ofType : view.OfType type := ofType
        exact some_spec ofType placed fits (rebuild_spec view ofType state d parent before after)
          fun _ _ fits => Or.inl ⟨rfl, fits⟩
      | _ => exact fits.elim
    | _ => exact ofType.elim

theorem rebuildEach_spec (views : List View) {types : List ViewType}
    (ofTypes : View.EachOfType views types) (states : List State) (d : Dom) (parent : ℕ)
    (before after : List ℕ) (fits : FitsEach d states types)
    (placed : Placed d parent before after states) :
    Rebuilt d parent before after states types (View.allTrees views)
      (View.rebuildEach views states d).1 (View.rebuildEach views states d).2 := by
  cases views with
  | nil =>
    cases types with
    | nil =>
      cases states with
      | nil => exact .refl placed fits
      | cons state states => exact fits.elim
    | cons type types => exact ofTypes.elim
  | cons view rest =>
    cases types with
    | nil => exact ofTypes.elim
    | cons type types =>
      cases states with
      | nil => exact fits.elim
      | cons state states =>
        have apart : Placed d parent before after ([state] ++ states) := placed
        have first := rebuild_spec view ofTypes.1 state d parent _ _ fits.1 apart.left
        have others := rebuildEach_spec rest ofTypes.2 states _ parent _ after
          (Rebuilt.rest_fits apart first fits.2) (Rebuilt.rest apart first)
        exact .append apart first others

theorem rebuildItems_spec (views : List View) {type : ViewType}
    (ofTypes : View.EachOfType views (.replicate views.length type)) (states : List State) (d : Dom)
    (parent : ℕ) (before after : List ℕ) (marker : ℕ)
    (fits : FitsEach d states (.replicate states.length type))
    (placed : Placed d parent before (marker :: after) states) :
    Rebuilt d parent before (marker :: after) states (.replicate views.length type)
      (View.allTrees views) (View.rebuildItems marker views states d).1
      (View.rebuildItems marker views states d).2 := by
  cases views with
  | nil => exact .remove placed
  | cons view rest =>
    cases states with
    | nil =>
      have apart : Placed d parent before (marker :: after) ([] ++ []) := placed
      have built := build_spec view ofTypes.1 d placed.wf
      have first := Rebuilt.insertBefore placed built
      have others := rebuildItems_spec rest ofTypes.2 [] _ parent _ after marker trivial
        (Rebuilt.rest apart first)
      exact .append apart first others
    | cons state states =>
      have apart : Placed d parent before (marker :: after) ([state] ++ states) := placed
      have first := rebuild_spec view ofTypes.1 state d parent _ _ fits.1 apart.left
      have others := rebuildItems_spec rest ofTypes.2 states _ parent _ after marker
        (Rebuilt.rest_fits apart first fits.2) (Rebuilt.rest apart first)
      exact .append apart first others

end

end Halyard.Rebuild
