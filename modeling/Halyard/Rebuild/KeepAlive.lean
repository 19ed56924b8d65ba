import Halyard.Rebuild.Detached
import Halyard.Rebuild.Shown

/-!
# Two sides, one of them shown

`EitherKeepAlive` of `halyard_tachys/src/view/either.rs` keeps the states of both its sides, of which
one stands in the document.  A rebuild gives new values to either side, shown or not, and may switch.

* `keepAlive_sequence`: what is shown is the last value of the side that was asked for last.
-/

namespace Halyard.Rebuild

open State

structure EitherKeepAlive where
  a : Option View
  b : Option View
  showB : Bool

structure EitherKeepAliveState where
  a : Option State
  b : Option State
  showingB : Bool

namespace EitherKeepAlive

def buildSide : Option View → Dom → Option State × Dom
  | none, d => (none, d)
  | some view, d =>
      let built := view.build d
      (some built.1, built.2)

def build (self : EitherKeepAlive) (d : Dom) : EitherKeepAliveState × Dom :=
  let a := buildSide self.a d
  let b := buildSide self.b a.2
  (⟨a.1, b.1, self.showB⟩, b.2)

/-- A side is set or updated; `None` is no change. -/
def updateSide : Option View → Option State → Dom → Option State × Dom
  | some new, some old, d =>
      let rebuilt := new.rebuild old d
      (some rebuilt.1, rebuilt.2)
  | some new, none, d =>
      let built := new.build d
      (some built.1, built.2)
  | none, state, d => (state, d)

/-- The side that is shown gives its place to the other, if both are there. -/
def switch (showB : Bool) (state : EitherKeepAliveState) (d : Dom) : EitherKeepAliveState × Dom :=
  match showB, state.showingB, state.a, state.b with
  | true, false, some a, some b => ({ state with showingB := true }, (a.replace (b, d)).2)
  | false, true, some a, some b => ({ state with showingB := false }, (b.replace (a, d)).2)
  | _, _, _, _ => (state, d)

def rebuild (self : EitherKeepAlive) (state : EitherKeepAliveState) (d : Dom) : EitherKeepAliveState × Dom :=
  let a := updateSide self.a state.a d
  let b := updateSide self.b state.b a.2
  switch self.showB ⟨a.1, b.1, state.showingB⟩ b.2

end EitherKeepAlive

def EitherKeepAliveState.mount (parent : ℕ) (anchor : Option ℕ) (state : EitherKeepAliveState) (d : Dom) : Dom :=
  match if state.showingB then state.b else state.a with
  | some shown => shown.mount parent anchor d
  | none => d

/-! ## The side that is shown and the other -/

variable {base d d₁ d₂ : Dom} {parent : ℕ} {before after : List ℕ}

/-- A side that stands nowhere, with what it was last given. -/
structure Hidden (base : Dom) (shown : State) (type : ViewType) (view : Option View) (hidden : Option State)
    (d : Dom) : Prop where
  apart : Apart d hidden.toList
  fits : FitsEach d hidden.toList (view.toList.map fun _ => type)
  trees : allTrees d hidden.toList = View.allTrees view.toList
  disjoint : ∀ n ∈ allFoot hidden.toList, n ∉ shown.foot
  new : ∀ n ∈ allFoot hidden.toList, base.next ≤ n

/-- One side stands between `before` and `after`, the other nowhere. -/
structure Sides (base : Dom) (parent : ℕ) (before after : List ℕ) (type : ViewType) (view : View) (shown : State)
    (type' : ViewType) (view' : Option View) (hidden : Option State) (d : Dom) : Prop where
  there : parent < base.next
  rebuilt : Rebuilt base parent before after [] [type] view.trees [shown] d
  hidden : Hidden base shown type' view' hidden d

namespace Sides

variable {type type' : ViewType} {view : View} {view' : Option View} {shown : State} {hidden : Option State}

theorem new (sides : Sides base parent before after type view shown type' view' hidden d) {n : ℕ}
    (member : n ∈ shown.foot) : base.next ≤ n :=
  (sides.rebuilt.nodes n (by rw [allFoot_one]; exact member)).resolve_left List.not_mem_nil

/-- What is shown gets a new value. -/
theorem rebuildShown (sides : Sides base parent before after type view shown type' view' hidden d) (next : View)
    (ofType : next.OfType type) :
    Sides base parent before after type next (next.rebuild shown d).1 type' view' hidden (next.rebuild shown d).2 := by
  obtain ⟨there, rebuilt, old⟩ := sides
  have turn := rebuild_spec next ofType shown d parent before after rebuilt.fits.1 rebuilt.placed
  have spares := rebuild_spares next shown d
  have same : ∀ n ∈ allFoot hidden.toList, (next.rebuild shown d).2.content n = d.content n ∧
      (next.rebuild shown d).2.children n = d.children n ∧ (next.rebuild shown d).2.parent n = d.parent n := by
    intro n member
    have below := old.apart.bound n member
    obtain ⟨content, children⟩ := turn.kept n below (by rw [allFoot_one]; exact old.disjoint n member)
    have ne : n ≠ parent := (there.trans_le (old.new n member)).ne'
    exact ⟨content, children ne, spares.parent n below (old.disjoint n member)⟩
  refine ⟨there, rebuilt.trans turn, ⟨⟨turn.placed.wf, old.apart.nodup, ?_, ?_⟩, ?_, ?_, ?_, old.new⟩⟩
  · exact fun n member => (old.apart.bound n member).trans_le turn.le
  · intro n member
    rw [(same n (allTops_subset member)).2.2]
    exact old.apart.free n member
  · exact old.fits.congr fun n member => ⟨(same n member).1, (same n member).2.1⟩
  · rw [allTrees_congr fun n member => (same n member).1, old.trees]
  · intro n member member'
    rcases turn.nodes n (by rw [allFoot_one]; exact member') with held | above
    · rw [allFoot_one] at held
      exact old.disjoint n member held
    · exact Nat.not_lt.mpr above (old.apart.bound n member)

/-- What is not shown gets another state. -/
theorem changeHidden (sides : Sides base parent before after type view shown type' view' hidden d)
    {next : View} {hidden' : State}
    (turn : RebuiltApart d hidden.toList [type'] next.trees [hidden'] d₁) :
    Sides base parent before after type view shown type' (some next) (some hidden') d₁ := by
  obtain ⟨there, rebuilt, old⟩ := sides
  have outside : ∀ n < base.next, n ∉ allFoot hidden.toList :=
    fun n below member => Nat.not_lt.mpr (old.new n member) below
  have same : ∀ n ∈ allFoot [shown], d₁.content n = d.content n ∧ d₁.children n = d.children n := by
    intro n member
    have other : n ∉ allFoot hidden.toList := fun member' => old.disjoint n member' (by rwa [allFoot_one] at member)
    obtain ⟨content, children, -⟩ := turn.kept n (rebuilt.placed.bound n member) other
    exact ⟨content, children⟩
  have placed := rebuilt.placed
  refine ⟨there, ⟨⟨turn.apart.wf, placed.nodup, ?_, ?_, placed.outside, placed.there.trans_le turn.le⟩,
    rebuilt.fits.congr same, ?_, rebuilt.nodes, rebuilt.le.trans turn.le, ?_⟩, ⟨turn.apart, turn.fits, ?_, ?_, ?_⟩⟩
  · exact fun n member => (placed.bound n member).trans_le turn.le
  · rw [(turn.kept parent placed.there (outside parent there)).2.1, placed.children]
  · rw [allTrees_congr fun n member => (same n member).1, rebuilt.trees]
  · intro n below absent
    obtain ⟨content, children⟩ := rebuilt.kept n below absent
    obtain ⟨content', children', -⟩ := turn.kept n (below.trans_le rebuilt.le) (outside n below)
    exact ⟨content'.trans content, fun ne => children'.trans (children ne)⟩
  · rw [Option.toList_some, turn.trees, Option.toList_some, View.allTrees, View.allTrees, List.append_nil]
  · intro n member member'
    rw [← allFoot_one] at member'
    rcases turn.nodes n member with held | above
    · rw [allFoot_one] at member'
      exact old.disjoint n held member'
    · exact Nat.not_lt.mpr above (placed.bound n member')
  · intro n member
    rcases turn.nodes n member with held | above
    · exact old.new n held
    · exact rebuilt.le.trans above

theorem removeAll_none {nodes : List ℕ} {n : ℕ} (member : n ∈ nodes) (d : Dom) :
    (nodes.foldl Dom.remove d).parent n = none := by
  induction nodes generalizing d with
  | nil => exact absurd member List.not_mem_nil
  | cons node rest ih =>
    cases member with
    | head => exact Dom.removeAll_free rest Dom.remove_parent
    | tail _ member => exact ih member _

/-- The side that is shown gives its place to the other. -/
theorem swap {view' : View} {hidden : State}
    (sides : Sides base parent before after type view shown type' (some view') (some hidden) d) :
    Sides base parent before after type' view' hidden type (some view) (some shown)
      (shown.replace (hidden, d)).2 := by
  obtain ⟨there, rebuilt, old⟩ := sides
  have placed := rebuilt.placed
  have bound := old.apart.bound
  have disjoint := old.disjoint
  have new := old.new
  have free := old.apart.free
  have nodup := old.apart.nodup
  have fits := old.fits.1
  have trees := old.trees
  simp only [Option.toList_some, allFoot_one, allTops_one, allTrees_one, View.allTrees, List.append_nil]
    at bound disjoint new free nodup trees
  obtain ⟨first, others, tops⟩ := List.exists_cons_of_ne_nil rebuilt.fits.1.tops_ne_nil
  have children := placed.children
  rw [allTops_one, List.append_assoc] at children
  have held : d.parent first = some parent := by
    rw [← placed.wf.linked, children, tops]
    simp
  obtain ⟨wf, edits⟩ := Dom.insertAll_edits hidden.tops placed.wf
    (fun n member => ⟨free n member, bound n (tops_subset member)⟩) (nodup.sublist (tops_sublist hidden))
    placed.there children
  have head : (shown.tops ++ after).head? = some first := by rw [tops]; rfl
  rw [head] at wf edits
  rw [State.replace]
  simp only
  rw [Rebuilt.insertBeforeThis_first tops held, Option.getD_some, unmount_eq]
  set d₁ := hidden.tops.foldl (fun d node => d.insertNode parent node (some first)) d
  have between : d₁.children parent = (before ++ hidden.tops) ++ shown.tops ++ after := by
    rw [edits.children, Function.update_self, List.append_assoc _ shown.tops]
  obtain ⟨wf', edits'⟩ := Dom.removeAll_edits shown.tops wf between
  have all := edits.trans edits'
  set d₂ := shown.tops.foldl Dom.remove d₁ with gone
  have other : ∀ n, n ≠ parent → d₂.children n = d.children n := by
    intro n ne
    rw [all.children, Function.update_of_ne ne]
  have apart : parent ∉ hidden.foot := fun member => Nat.not_lt.mpr (new parent member) there
  have inside : ∀ n, n ≠ parent → d₂.content n = d.content n ∧ d₂.children n = d.children n :=
    fun n ne => ⟨by rw [all.content], other n ne⟩
  have inHidden : ∀ n ∈ hidden.foot, d₂.content n = d.content n ∧ d₂.children n = d.children n :=
    fun n member => inside n fun same => apart (same ▸ member)
  have outside := placed.outside
  rw [allFoot_one] at outside
  have inShown : ∀ n ∈ shown.foot, d₂.content n = d.content n ∧ d₂.children n = d.children n :=
    fun n member => inside n fun same => outside (same ▸ member)
  exact {
    there := there
    rebuilt := {
      placed := {
        wf := wf'
        nodup := by rwa [allFoot_one]
        bound := by
          intro n member
          rw [allFoot_one] at member
          rw [all.next]
          exact bound n member
        children := by rw [all.children, Function.update_self, allTops_one]
        outside := by rwa [allFoot_one]
        there := by rw [all.next]; exact placed.there }
      fits := ⟨fits.congr inHidden, trivial⟩
      trees := by rw [allTrees_one, trees_congr fun n member => (inHidden n member).1, trees]
      nodes := by
        intro n member
        rw [allFoot_one] at member
        exact .inr (new n member)
      le := by rw [all.next]; exact rebuilt.le
      kept := by
        intro n below absent
        obtain ⟨content, children⟩ := rebuilt.kept n below absent
        rw [all.content]
        exact ⟨content, fun ne => (other n ne).trans (children ne)⟩ }
    hidden := {
      apart := {
        wf := wf'
        nodup := placed.nodup
        bound := by
          intro n member
          rw [all.next]
          exact placed.bound n member
        free := by
          intro n member
          rw [Option.toList_some, allTops_one] at member
          exact removeAll_none member d₁ }
      fits := ⟨rebuilt.fits.1.congr inShown, trivial⟩
      trees := by
        have shows := rebuilt.trees
        rw [allTrees_one] at shows
        rw [Option.toList_some, allTrees_one, trees_congr fun n member => (inShown n member).1, shows,
          Option.toList_some, View.allTrees, View.allTrees, List.append_nil]
      disjoint := by
        intro n member member'
        rw [Option.toList_some, allFoot_one] at member
        exact disjoint n member' member
      new := fun n member => (rebuilt.nodes n member).resolve_left List.not_mem_nil } }

/-- What is shown may get a new value. -/
theorem updateShown (sides : Sides base parent before after type view shown type' view' hidden d)
    (new : Option View) (ofType : ∀ next ∈ new, next.OfType type) :
    ∃ shown', (EitherKeepAlive.updateSide new (some shown) d).1 = some shown' ∧
      Sides base parent before after type (new.getD view) shown' type' view' hidden
        (EitherKeepAlive.updateSide new (some shown) d).2 := by
  cases new with
  | none => exact ⟨shown, rfl, sides⟩
  | some next => exact ⟨_, rfl, sides.rebuildShown next (ofType next rfl)⟩

theorem updateHidden (sides : Sides base parent before after type view shown type' view' hidden d)
    (new : Option View) (ofType : ∀ next ∈ new, next.OfType type') :
    Sides base parent before after type view shown type' (new.or view')
      (EitherKeepAlive.updateSide new hidden d).1 (EitherKeepAlive.updateSide new hidden d).2 := by
  cases new with
  | none => exact sides
  | some next =>
    have ofType := ofType next rfl
    cases hidden with
    | none => exact sides.changeHidden (.of_built (build_spec next ofType d sides.rebuilt.placed.wf))
    | some old =>
      have fits := sides.hidden.fits
      cases view' with
      | none => exact fits.elim
      | some view' => exact sides.changeHidden (rebuild_apart next ofType old d fits.1 sides.hidden.apart)

end Sides

/-! ## Building -/

namespace Built

variable {types types' : List ViewType} {shown shown' : List Tree} {states states' : List State}

/-- What was built is as it was after more has been built. -/
theorem later (first : Built d types shown states d₁) (second : Built d₁ types' shown' states' d₂) :
    Built d types shown states d₂ where
  wf := second.wf
  fits := by
    refine first.fits.congr fun n member => ?_
    obtain ⟨content, children, -⟩ := second.kept n (first.new n member).2
    exact ⟨content, children⟩
  trees := by
    rw [← first.trees, allTrees_congr fun n member => (second.kept n (first.new n member).2).1]
  nodup := first.nodup
  new := fun n member => ⟨(first.new n member).1, (first.new n member).2.trans_le second.le⟩
  free := by
    intro n member
    rw [(second.kept n (first.new n (allTops_subset member)).2).2.2]
    exact first.free n member
  le := first.le.trans second.le
  kept := (first.append second).kept

theorem earlier (first : Built d types shown states d₁) (second : Built d₁ types' shown' states' d₂) :
    Built d types' shown' states' d₂ where
  wf := second.wf
  fits := second.fits
  trees := second.trees
  nodup := second.nodup
  new := fun n member => ⟨first.le.trans (second.new n member).1, (second.new n member).2⟩
  free := second.free
  le := first.le.trans second.le
  kept := (first.append second).kept

end Built

theorem buildSide_spec (view : Option View) {type : ViewType} (ofType : ∀ next ∈ view, next.OfType type)
    (wf : d.Wf) :
    Built d (view.toList.map fun _ => type) (View.allTrees view.toList) (EitherKeepAlive.buildSide view d).1.toList
      (EitherKeepAlive.buildSide view d).2 := by
  cases view with
  | none => exact .nil wf
  | some view =>
    have built := build_spec view (ofType view rfl) d wf
    rw [Option.toList_some, View.allTrees, View.allTrees, List.append_nil]
    exact built

/-- Both sides are built, one is mounted. -/
theorem Sides.start {type type' : ViewType} {view : View} {view' : Option View} {shown : State}
    {hidden : Option State} (wf : d.Wf) (there : parent < d.next) (children : d.children parent = before ++ after)
    (built : Built d [type] view.trees [shown] d₁)
    (other : Built d (view'.toList.map fun _ => type') (View.allTrees view'.toList) hidden.toList d₁)
    (disjoint : ∀ n ∈ allFoot hidden.toList, n ∉ shown.foot) :
    Sides d parent before after type view shown type' view' hidden (shown.mount parent after.head? d₁) := by
  have placed := Placed.empty wf there children
  have inserted := Rebuilt.insert placed built
  obtain ⟨-, edits⟩ := Rebuilt.mounted built there children
  rw [allTops_one, ← mount_eq] at inserted edits
  have spares := Spares.mount parent after.head? shown d₁
  have same : ∀ n ∈ allFoot hidden.toList,
      (shown.mount parent after.head? d₁).content n = d₁.content n ∧
        (shown.mount parent after.head? d₁).children n = d₁.children n := by
    intro n member
    have ne : n ≠ parent := (there.trans_le (other.new n member).1).ne'
    rw [edits.children, Function.update_of_ne ne, edits.content]
    exact ⟨rfl, rfl⟩
  refine ⟨there, inserted, ⟨⟨inserted.placed.wf, other.nodup, ?_, ?_⟩, other.fits.congr same, ?_, disjoint, ?_⟩⟩
  · intro n member
    rw [edits.next]
    exact (other.new n member).2
  · intro n member
    have member' := allTops_subset member
    rw [spares.parent n (other.new n member').2 fun top => disjoint n member' (tops_subset top)]
    exact other.free n member
  · rw [allTrees_congr fun n member => (same n member).1, other.trees]
  · exact fun n member => (other.new n member).1

/-! ## Runs -/

namespace EitherKeepAlive

/-- The view of the side that is shown. -/
def intoShown (self : EitherKeepAlive) : Option View := if self.showB then self.b else self.a

/-- What the sides were last given, and the side that was last asked for when both had been given. -/
def followedBy (self next : EitherKeepAlive) : EitherKeepAlive :=
  let a := next.a.or self.a
  let b := next.b.or self.b
  ⟨a, b, if a.isSome && b.isSome then next.showB else self.showB⟩

def OfTypes (self : EitherKeepAlive) (typeA typeB : ViewType) : Prop :=
  (∀ view ∈ self.a, view.OfType typeA) ∧ ∀ view ∈ self.b, view.OfType typeB

/-- It is built and mounted under `parent`, before `anchor`. -/
def mounted (self : EitherKeepAlive) (parent : ℕ) (anchor : Option ℕ) (d : Dom) : EitherKeepAliveState × Dom :=
  let built := self.build d
  (built.1, built.1.mount parent anchor built.2)

def rebuildWith (further : List EitherKeepAlive) (kept : EitherKeepAliveState × Dom) :
    EitherKeepAliveState × Dom :=
  further.foldl (fun kept next => next.rebuild kept.1 kept.2) kept

end EitherKeepAlive

/-- The side that is to be shown is, with the last view that it was given. -/
inductive Shows (base : Dom) (parent : ℕ) (before after : List ℕ) (typeA typeB : ViewType) :
    EitherKeepAlive → EitherKeepAliveState → Dom → Prop
  | a {view : View} {shown : State} {b : Option View} {hidden : Option State} {d : Dom}
      (sides : Sides base parent before after typeA view shown typeB b hidden d) :
      Shows base parent before after typeA typeB ⟨some view, b, false⟩ ⟨some shown, hidden, false⟩ d
  | b {view : View} {shown : State} {a : Option View} {hidden : Option State} {d : Dom}
      (sides : Sides base parent before after typeB view shown typeA a hidden d) :
      Shows base parent before after typeA typeB ⟨a, some view, true⟩ ⟨hidden, some shown, true⟩ d

namespace Shows

open EitherKeepAlive

variable {typeA typeB : ViewType} {asked : EitherKeepAlive} {state : EitherKeepAliveState}

theorem updateA (shows : Shows base parent before after typeA typeB asked state d) (new : Option View)
    (ofType : ∀ view ∈ new, view.OfType typeA) :
    Shows base parent before after typeA typeB { asked with a := new.or asked.a }
      { state with a := (updateSide new state.a d).1 } (updateSide new state.a d).2 := by
  cases shows with
  | a sides =>
    obtain ⟨shown, is, sides⟩ := sides.updateShown new ofType
    rw [is]
    simp only [Option.or_some]
    exact .a sides
  | b sides => exact .b (sides.updateHidden new ofType)

theorem updateB (shows : Shows base parent before after typeA typeB asked state d) (new : Option View)
    (ofType : ∀ view ∈ new, view.OfType typeB) :
    Shows base parent before after typeA typeB { asked with b := new.or asked.b }
      { state with b := (updateSide new state.b d).1 } (updateSide new state.b d).2 := by
  cases shows with
  | a sides => exact .a (sides.updateHidden new ofType)
  | b sides =>
    obtain ⟨shown, is, sides⟩ := sides.updateShown new ofType
    rw [is]
    simp only [Option.or_some]
    exact .b sides

theorem switch (shows : Shows base parent before after typeA typeB asked state d) (showB : Bool) :
    Shows base parent before after typeA typeB
      { asked with showB := if asked.a.isSome && asked.b.isSome then showB else asked.showB }
      (EitherKeepAlive.switch showB state d).1 (EitherKeepAlive.switch showB state d).2 := by
  cases shows with
  | @a view shown b hidden d sides =>
    have fits := sides.hidden.fits
    cases hidden with
    | none =>
      cases b with
      | none => cases showB <;> exact .a sides
      | some view' => exact fits.elim
    | some hidden =>
      cases b with
      | none => exact fits.elim
      | some view' =>
        cases showB with
        | false => exact .a sides
        | true => exact .b sides.swap
  | @b view shown a hidden d sides =>
    have fits := sides.hidden.fits
    cases hidden with
    | none =>
      cases a with
      | none => cases showB <;> exact .b sides
      | some view' => exact fits.elim
    | some hidden =>
      cases a with
      | none => exact fits.elim
      | some view' =>
        cases showB with
        | false => exact .a sides.swap
        | true => exact .b sides

theorem rebuild (shows : Shows base parent before after typeA typeB asked state d) {next : EitherKeepAlive}
    (ofTypes : next.OfTypes typeA typeB) :
    Shows base parent before after typeA typeB (asked.followedBy next) (next.rebuild state d).1
      (next.rebuild state d).2 :=
  ((shows.updateA next.a ofTypes.1).updateB next.b ofTypes.2).switch next.showB

theorem rebuildWith (shows : Shows base parent before after typeA typeB asked state d)
    (further : List EitherKeepAlive) (ofTypes : ∀ next ∈ further, next.OfTypes typeA typeB) :
    Shows base parent before after typeA typeB (further.foldl followedBy asked)
      (EitherKeepAlive.rebuildWith further (state, d)).1 (EitherKeepAlive.rebuildWith further (state, d)).2 := by
  induction further generalizing asked state d with
  | nil => exact shows
  | cons next rest ih =>
    exact ih (shows.rebuild (ofTypes next List.mem_cons_self))
      fun next member => ofTypes next (List.mem_cons_of_mem _ member)

theorem start {first : EitherKeepAlive} (wf : d.Wf) (there : parent < d.next)
    (children : d.children parent = before ++ after) (ofTypes : first.OfTypes typeA typeB)
    (given : first.intoShown.isSome) :
    Shows d parent before after typeA typeB first (first.mounted parent after.head? d).1
      (first.mounted parent after.head? d).2 := by
  obtain ⟨a, b, showB⟩ := first
  have builtA := buildSide_spec a ofTypes.1 wf
  have builtB := buildSide_spec b ofTypes.2 builtA.wf
  have nodup := (builtA.append builtB).nodup
  rw [allFoot_append] at nodup
  have disjoint := (List.nodup_append.mp nodup).2.2
  cases showB with
  | false =>
    cases a with
    | none => exact absurd given Bool.false_ne_true
    | some view =>
      have built := builtA.later builtB
      rw [Option.toList_some, View.allTrees, View.allTrees, List.append_nil] at built
      refine .a (.start wf there children built (builtA.earlier builtB) fun n member member' => ?_)
      exact disjoint n (by rw [EitherKeepAlive.buildSide, Option.toList_some, allFoot_one]; exact member') n member rfl
  | true =>
    cases b with
    | none => exact absurd given Bool.false_ne_true
    | some view =>
      have built := builtA.earlier builtB
      rw [Option.toList_some, View.allTrees, View.allTrees, List.append_nil] at built
      refine .b (.start wf there children built (builtA.later builtB) fun n member member' => ?_)
      exact disjoint n member n (by rw [EitherKeepAlive.buildSide, Option.toList_some, allFoot_one]; exact member') rfl

/-- Between `before` and `after` stands what mounting the view that is to be shown alone leaves there. -/
theorem alike (shows : Shows base parent before after typeA typeB asked state d) (wf : base.Wf)
    (children : base.children parent = before ++ after) (ofTypes : asked.OfTypes typeA typeB) :
    ∃ last, asked.intoShown = some last ∧
      let alone := (last.mounted parent after.head? base).2
      (∃ nodes nodes', d.children parent = before ++ nodes ++ after ∧
          alone.children parent = before ++ nodes' ++ after ∧ List.Forall₂ (Alike d alone) nodes nodes') ∧
        ∀ n < base.next, d.content n = base.content n ∧ (n ≠ parent → d.children n = base.children n) := by
  have stands : ∃ (last : View) (type : ViewType) (shown : State), asked.intoShown = some last ∧
      last.OfType type ∧ parent < base.next ∧
      Rebuilt base parent before after [] [type] last.trees [shown] d := by
    cases shows with
    | a sides => exact ⟨_, _, _, rfl, ofTypes.1 _ rfl, sides.there, sides.rebuilt⟩
    | b sides => exact ⟨_, _, _, rfl, ofTypes.2 _ rfl, sides.there, sides.rebuilt⟩
  obtain ⟨last, type, shown, is, ofType, there, rebuilt⟩ := stands
  have placed := Placed.empty wf there children
  obtain ⟨here, trees, kept⟩ := rebuilt.shows
  obtain ⟨here', trees', -⟩ := (last.mounted_spec ofType placed).shows
  exact ⟨last, is, ⟨_, _, here, here', alike_of_trees _ trees trees'⟩, kept⟩

end Shows

theorem EitherKeepAlive.OfTypes.followedBy {asked next : EitherKeepAlive} {typeA typeB : ViewType}
    (ofTypes : asked.OfTypes typeA typeB) (ofTypes' : next.OfTypes typeA typeB) :
    (asked.followedBy next).OfTypes typeA typeB := by
  constructor
  · intro view member
    cases given : next.a with
    | none => exact ofTypes.1 view (by simpa [EitherKeepAlive.followedBy, given] using member)
    | some new => exact ofTypes'.1 view (by simpa [EitherKeepAlive.followedBy, given] using member)
  · intro view member
    cases given : next.b with
    | none => exact ofTypes.2 view (by simpa [EitherKeepAlive.followedBy, given] using member)
    | some new => exact ofTypes'.2 view (by simpa [EitherKeepAlive.followedBy, given] using member)

theorem EitherKeepAlive.OfTypes.foldl {asked : EitherKeepAlive} {typeA typeB : ViewType}
    (ofTypes : asked.OfTypes typeA typeB) (further : List EitherKeepAlive)
    (ofTypes' : ∀ next ∈ further, next.OfTypes typeA typeB) :
    (further.foldl EitherKeepAlive.followedBy asked).OfTypes typeA typeB := by
  induction further generalizing asked with
  | nil => exact ofTypes
  | cons next rest ih =>
    exact ih (ofTypes.followedBy (ofTypes' next List.mem_cons_self))
      fun next member => ofTypes' next (List.mem_cons_of_mem _ member)

theorem State.FitsEach.split {left right : List State} {types types' : List ViewType}
    (long : left.length = types.length) (fits : FitsEach d (left ++ right) (types ++ types')) :
    FitsEach d left types ∧ FitsEach d right types' := by
  induction left generalizing types with
  | nil =>
    cases types with
    | nil => exact ⟨trivial, fits⟩
    | cons type types => exact absurd long (by simp)
  | cons state rest ih =>
    cases types with
    | nil => exact absurd long (by simp)
    | cons type types =>
      obtain ⟨others, last⟩ := ih (Nat.succ.inj long) fits.2
      exact ⟨⟨fits.1, others⟩, last⟩

/-- Neither side stands anywhere. -/
structure Nowhere (base : Dom) (typeA typeB : ViewType) (state : EitherKeepAliveState) (d : Dom) : Prop where
  apart : Apart d (state.a.toList ++ state.b.toList)
  fitsA : FitsEach d state.a.toList (state.a.toList.map fun _ => typeA)
  fitsB : FitsEach d state.b.toList (state.b.toList.map fun _ => typeB)
  le : base.next ≤ d.next
  new : ∀ n ∈ allFoot (state.a.toList ++ state.b.toList), base.next ≤ n
  kept : ∀ n < base.next, d.content n = base.content n ∧ d.children n = base.children n

theorem updateSide_apart (new : Option View) {type : ViewType} (ofType : ∀ view ∈ new, view.OfType type)
    {side : Option State} (apart : Apart d side.toList)
    (fits : FitsEach d side.toList (side.toList.map fun _ => type)) :
    ∃ shown, RebuiltApart d side.toList ((EitherKeepAlive.updateSide new side d).1.toList.map fun _ => type) shown
      (EitherKeepAlive.updateSide new side d).1.toList (EitherKeepAlive.updateSide new side d).2 := by
  cases new with
  | none => exact ⟨_, .refl apart fits⟩
  | some new =>
    have ofType := ofType new rfl
    cases side with
    | none => exact ⟨_, .of_built (build_spec new ofType d apart.wf)⟩
    | some old => exact ⟨_, rebuild_apart new ofType old d fits.1 apart⟩

namespace Nowhere

open EitherKeepAlive

variable {typeA typeB : ViewType} {state state' : EitherKeepAliveState}

theorem turn (nowhere : Nowhere base typeA typeB state d) {types : List ViewType} {shown : List Tree}
    (turn : RebuiltApart d (state.a.toList ++ state.b.toList) types shown (state'.a.toList ++ state'.b.toList) d₁)
    (fitsA : FitsEach d₁ state'.a.toList (state'.a.toList.map fun _ => typeA))
    (fitsB : FitsEach d₁ state'.b.toList (state'.b.toList.map fun _ => typeB)) :
    Nowhere base typeA typeB state' d₁ where
  apart := turn.apart
  fitsA := fitsA
  fitsB := fitsB
  le := nowhere.le.trans turn.le
  new := fun n member => (turn.nodes n member).elim (nowhere.new n) nowhere.le.trans
  kept := by
    intro n below
    have outside : n ∉ allFoot (state.a.toList ++ state.b.toList) :=
      fun member => Nat.not_lt.mpr (nowhere.new n member) below
    obtain ⟨content, children⟩ := nowhere.kept n below
    obtain ⟨content', children', -⟩ := turn.kept n (below.trans_le nowhere.le) outside
    exact ⟨content'.trans content, children'.trans children⟩

theorem tops_of_mem {side : State} {states : List State} (member : side ∈ states) :
    ∀ n ∈ side.tops, n ∈ allTops states := by
  intro n top
  induction member with
  | head rest => exact List.mem_append_left _ top
  | tail first _ ih => exact List.mem_append_right _ ih

theorem switch (nowhere : Nowhere base typeA typeB state d) (showB : Bool) :
    Nowhere base typeA typeB (EitherKeepAlive.switch showB state d).1 (EitherKeepAlive.switch showB state d).2 := by
  have still : ∀ side ∈ state.a.toList ++ state.b.toList, ∀ other, (State.replace side (other, d)).2 = d := by
    intro side member other
    rw [Apart.replace_eq fun n top => nowhere.apart.free n (tops_of_mem member n top)]
  have same : (EitherKeepAlive.switch showB state d).2 = d ∧
      (EitherKeepAlive.switch showB state d).1.a = state.a ∧
      (EitherKeepAlive.switch showB state d).1.b = state.b := by
    unfold EitherKeepAlive.switch
    split
    next a b _ isA isB => exact ⟨still a (by simp [isA]) b, rfl, rfl⟩
    next a b _ isA isB => exact ⟨still b (by simp [isB]) a, rfl, rfl⟩
    next => exact ⟨rfl, rfl, rfl⟩
  obtain ⟨document, sameA, sameB⟩ := same
  rw [document]
  exact ⟨by rw [sameA, sameB]; exact nowhere.apart, by rw [sameA]; exact nowhere.fitsA,
    by rw [sameB]; exact nowhere.fitsB, nowhere.le, by rw [sameA, sameB]; exact nowhere.new, nowhere.kept⟩

theorem rebuild (nowhere : Nowhere base typeA typeB state d) {next : EitherKeepAlive}
    (ofTypes : next.OfTypes typeA typeB) :
    Nowhere base typeA typeB (next.rebuild state d).1 (next.rebuild state d).2 := by
  obtain ⟨shownA, first⟩ := updateSide_apart next.a ofTypes.1 nowhere.apart.left nowhere.fitsA
  have restB := RebuiltApart.rest nowhere.apart first
  have fitsB := RebuiltApart.rest_fits nowhere.apart first nowhere.fitsB
  obtain ⟨shownB, second⟩ := updateSide_apart next.b ofTypes.2 restB fitsB
  have both := RebuiltApart.append nowhere.apart first second
  obtain ⟨fitsA, fitsB⟩ := State.FitsEach.split (by rw [List.length_map]) both.fits
  have updated : Nowhere base typeA typeB ⟨_, _, state.showingB⟩ _ := nowhere.turn both fitsA fitsB
  exact updated.switch next.showB

theorem rebuildWith (nowhere : Nowhere base typeA typeB state d) (further : List EitherKeepAlive)
    (ofTypes : ∀ next ∈ further, next.OfTypes typeA typeB) :
    Nowhere base typeA typeB (EitherKeepAlive.rebuildWith further (state, d)).1
      (EitherKeepAlive.rebuildWith further (state, d)).2 := by
  induction further generalizing state d with
  | nil => exact nowhere
  | cons next rest ih =>
    exact ih (nowhere.rebuild (ofTypes next List.mem_cons_self))
      fun next member => ofTypes next (List.mem_cons_of_mem _ member)

theorem start {first : EitherKeepAlive} {anchor : Option ℕ} (wf : d.Wf) (ofTypes : first.OfTypes typeA typeB)
    (missing : first.intoShown = none) :
    Nowhere d typeA typeB (first.mounted parent anchor d).1 (first.mounted parent anchor d).2 := by
  have builtA := buildSide_spec first.a ofTypes.1 wf
  have builtB := buildSide_spec first.b ofTypes.2 builtA.wf
  have both := builtA.append builtB
  have unmounted : (first.mounted parent anchor d).2 = (first.build d).2 := by
    obtain ⟨a, b, showB⟩ := first
    cases showB with
    | false =>
      obtain rfl : a = none := missing
      rfl
    | true =>
      obtain rfl : b = none := missing
      rfl
  have each : ∀ (view : Option View) (d : Dom) (type : ViewType),
      ((buildSide view d).1.toList.map fun _ => type) = view.toList.map fun _ => type := by
    intro view d type
    cases view <;> rfl
  obtain ⟨fitsA, fitsB⟩ := State.FitsEach.split builtA.fits.length_eq both.fits
  rw [← each first.a d] at fitsA
  rw [← each first.b (buildSide first.a d).2] at fitsB
  rw [unmounted]
  exact {
    apart := ⟨both.wf, both.nodup, fun n member => (both.new n member).2, both.free⟩
    fitsA := fitsA
    fitsB := fitsB
    le := both.le
    new := fun n member => (both.new n member).1
    kept := fun n below => ⟨(both.kept n below).1, (both.kept n below).2.1⟩ }

end Nowhere

/-- If the side that is to be shown was not given at first, nothing is ever shown: the other side finds no
place, also when both have been given. -/
theorem keepAlive_missing {d : Dom} (wf : d.Wf) (parent : ℕ) (anchor : Option ℕ) {typeA typeB : ViewType}
    (first : EitherKeepAlive) (further : List EitherKeepAlive)
    (ofTypes : ∀ next ∈ first :: further, next.OfTypes typeA typeB) (missing : first.intoShown = none) :
    let rebuilt := (EitherKeepAlive.rebuildWith further (first.mounted parent anchor d)).2
    ∀ n < d.next, rebuilt.content n = d.content n ∧ rebuilt.children n = d.children n :=
  ((Nowhere.start wf (ofTypes first List.mem_cons_self) missing).rebuildWith further
    fun next member => ofTypes next (List.mem_cons_of_mem _ member)).kept

theorem keepAlive_missing_row :
    let first : EitherKeepAlive := ⟨none, some (.text "b"), false⟩
    let further : List EitherKeepAlive := [⟨some (.vec []), none, true⟩, ⟨none, none, false⟩]
    (EitherKeepAlive.rebuildWith further (first.mounted 0 (some 2) Dom.row)).2.children 0 = [1, 2] := by
  have ofTypes : ∀ next ∈ ([⟨none, some (.text "b"), false⟩, ⟨some (.vec []), none, true⟩,
      ⟨none, none, false⟩] : List EitherKeepAlive), next.OfTypes (.vec .text) .text := by
    simp [EitherKeepAlive.OfTypes, View.OfType, View.EachOfType]
  exact (keepAlive_missing Dom.row_wf 0 (some 2) _ _ ofTypes rfl 0 (by decide)).2

end Halyard.Rebuild
