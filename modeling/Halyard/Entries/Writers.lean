import Halyard.Entries.Lists

/-!
# Writers to shared entries

Several writers share one target: each writes it as a whole, or one entry of it, or nothing.  When a
writer changes what it writes, it undoes what it wrote itself and does not look at the others.

* `rebuildAll_inPlace`: changes in place, with nothing taken away.
* `rebuildAll_again`: changes after the whole target has been written.
-/

namespace Halyard.Entries

variable {Text Name Value State : Type}

/-- What one of the writers of a text writes: nothing, the whole text, or an entry. -/
inductive Write (Text Name Value : Type)
  | off
  | text (text : Text)
  | entry (name : Name) (value : Value)
  deriving DecidableEq

namespace Write

def isText : Write Text Name Value → Bool
  | .text _ => true
  | _ => false

def name : Write Text Name Value → Option Name
  | .entry name _ => some name
  | _ => none

end Write

/-- What a writer wrote before, and what it is to write now. -/
structure Change (Text Name Value : Type) where
  old : Write Text Name Value
  new : Write Text Name Value
  deriving DecidableEq

namespace Change

variable [DecidableEq Name]

/-- The entry that goes away with a change. -/
def taken (change : Change Text Name Value) : Option Name :=
  if change.new.name = change.old.name then none else change.old.name

/-- The entry that comes with a change. -/
def added (change : Change Text Name Value) : Option Name :=
  if change.new.name = change.old.name then none else change.new.name

/-- The entry that gets another value in a change. -/
def replaced [DecidableEq Text] [DecidableEq Value] (change : Change Text Name Value) : Option Name :=
  if change.new.name = change.old.name ∧ change.old ≠ change.new then change.old.name else none

/-- A whole text stays as it is. -/
def KeepsText (change : Change Text Name Value) : Prop :=
  change.old.isText = true ∨ change.new.isText = true → change.old = change.new

omit [DecidableEq Name] in
theorem KeepsText.eq_off {change : Change Text Name Value} (keeps : change.KeepsText)
    (differ : change.old ≠ change.new) (name : change.old.name = none) : change.old = .off := by
  rcases change with ⟨old, new⟩
  cases old with
  | off => rfl
  | text text => exact absurd (keeps (Or.inl rfl)) differ
  | entry name' value => cases name

omit [DecidableEq Name] in
theorem KeepsText.noText {change : Change Text Name Value} (keeps : change.KeepsText)
    (differ : change.old ≠ change.new) : change.old.isText = false := by
  by_contra text
  exact differ (keeps (Or.inl (by simpa using text)))

omit [DecidableEq Name] in
theorem entries_of_name {change : Change Text Name Value} (keeps : change.KeepsText)
    (differ : change.old ≠ change.new) (names : change.new.name = change.old.name) :
    ∃ name value value', change.old = .entry name value ∧ change.new = .entry name value' := by
  rcases change with ⟨old, new⟩
  cases old with
  | off =>
    cases new with
    | off => exact absurd rfl differ
    | text text => exact absurd (keeps (Or.inr rfl)) differ
    | entry name value => cases names
  | text text => exact absurd (keeps (Or.inl rfl)) differ
  | entry name value =>
    cases new with
    | off => cases names
    | text text => cases names
    | entry name' value' =>
      cases names
      exact ⟨name, value, value', rfl, rfl⟩

/-- A writer that adds its entry, or writes nothing, had nothing before. -/
theorem old_eq_off {change : Change Text Name Value} (keeps : change.KeepsText)
    (stay : change.taken = none) (come : change.new = .off ∨ change.added ≠ none) :
    change.old = .off := by
  by_cases same : change.old = change.new
  · rcases come with off | added
    · exact same.trans off
    · simp [Change.added, same] at added
  · refine keeps.eq_off same ?_
    by_cases names : change.new.name = change.old.name
    · rcases come with off | added
      · rw [← names, off]
        rfl
      · exact absurd (if_pos names) added
    · rwa [taken, if_neg names] at stay

/-- A change whose old entry has gone already. -/
def emptied (change : Change Text Name Value) : Change Text Name Value :=
  if change.taken = none then change else ⟨.off, change.new⟩

theorem emptied_new (change : Change Text Name Value) : change.emptied.new = change.new := by
  unfold emptied
  split <;> rfl

theorem emptied_added (change : Change Text Name Value) : change.emptied.added = change.added := by
  unfold emptied
  split
  next => rfl
  next goes =>
    have names : change.new.name ≠ change.old.name := fun same => goes (if_pos same)
    rw [added, added, if_neg names]
    by_cases none : change.new.name = none
    · rw [none]
      rfl
    · exact if_neg none

theorem emptied_taken (change : Change Text Name Value) : change.emptied.taken = none := by
  unfold emptied
  split
  next stay => exact stay
  next => exact ite_self none

theorem emptied_old (change : Change Text Name Value) :
    change.emptied.old = change.old ∨ change.emptied.old = .off := by
  unfold emptied
  split
  next => exact Or.inl rfl
  next => exact Or.inr rfl

theorem emptied_keepsText {change : Change Text Name Value} (keeps : change.KeepsText) :
    change.emptied.KeepsText := by
  unfold emptied
  split
  next => exact keeps
  next goes =>
    rintro (text | text)
    · cases text
    · have same := keeps (Or.inr text)
      exact absurd (if_pos (by rw [same])) goes

theorem emptied_replaced [DecidableEq Text] [DecidableEq Value] {change : Change Text Name Value}
    {name : Name} (other : change.emptied.replaced = some name) : change.replaced = some name := by
  unfold emptied at other
  split at other
  next => exact other
  next =>
    rw [replaced] at other
    split at other
    next => cases other
    next => cases other

end Change

/-- What writers write to. -/
structure Target (Text Name Value State : Type) where
  set : Text → State
  unset : State
  put : Name → Value → State → State
  take : Name → State → State

namespace Target

variable (target : Target Text Name Value State)

def build (state : State) : Write Text Name Value → State
  | .off => state
  | .text text => target.set text
  | .entry name value => target.put name value state

def buildAll (writes : List (Write Text Name Value)) (state : State) : State :=
  writes.foldl target.build state

@[simp] theorem buildAll_cons (write : Write Text Name Value) (rest : List (Write Text Name Value))
    (state : State) :
    target.buildAll (write :: rest) state = target.buildAll rest (target.build state write) := rfl

theorem buildAll_append (before after : List (Write Text Name Value)) (state : State) :
    target.buildAll (before ++ after) state = target.buildAll after (target.buildAll before state) :=
  List.foldl_append

theorem buildAll_off {writes : List (Write Text Name Value)} (off : ∀ write ∈ writes, write = .off)
    (state : State) : target.buildAll writes state = state := by
  induction writes with
  | nil => rfl
  | cons write rest ih =>
    rw [buildAll_cons, off write List.mem_cons_self]
    exact ih fun later there => off later (List.mem_cons_of_mem _ there)

variable [DecidableEq Name]

/-- What a writer wrote is undone. -/
def clear (change : Change Text Name Value) (state : State) : State :=
  if change.old.isText then target.unset
  else match change.taken with
    | none => state
    | some name => target.take name state

variable [DecidableEq Text] [DecidableEq Value]

/-- A writer only undoes what it wrote itself, and does not look at the others. -/
def rebuild (state : State) (change : Change Text Name Value) : State :=
  if change.old = change.new then state else target.build (target.clear change state) change.new

def rebuildAll (changes : List (Change Text Name Value)) (state : State) : State :=
  changes.foldl target.rebuild state

theorem rebuild_of_eq {change : Change Text Name Value} (same : change.old = change.new)
    (state : State) : target.rebuild state change = state :=
  if_pos same

theorem rebuild_of_ne {change : Change Text Name Value} (differ : change.old ≠ change.new)
    (text : change.old.isText = false) (state : State) :
    target.rebuild state change =
      target.build ((change.taken.map target.take).elim state fun undo => undo state) change.new := by
  rw [rebuild, if_neg differ, clear, text, if_neg Bool.false_ne_true]
  cases change.taken <;> rfl

@[simp] theorem rebuildAll_cons (change : Change Text Name Value)
    (rest : List (Change Text Name Value)) (state : State) :
    target.rebuildAll (change :: rest) state =
      target.rebuildAll rest (target.rebuild state change) := rfl

theorem rebuildAll_append (before after : List (Change Text Name Value)) (state : State) :
    target.rebuildAll (before ++ after) state =
      target.rebuildAll after (target.rebuildAll before state) :=
  List.foldl_append

/-- A later value of an entry replaces an earlier one in its place. -/
def Overwrites : Prop :=
  ∀ (name : Name) (value value' : Value) (writes : List (Write Text Name Value)) (state : State),
    (∀ write ∈ writes, write.isText = false ∧ write.name ≠ some name) →
      target.put name value' (target.buildAll writes (target.put name value state)) =
        target.buildAll writes (target.put name value' state)

/-- Nothing is taken away: entries that come, come last, and entries that change, change in place. -/
theorem rebuildAll_inPlace {changes : List (Change Text Name Value)} (state : State)
    (texts : ∀ change ∈ changes, change.KeepsText) (stay : ∀ change ∈ changes, change.taken = none)
    (added : changes.Pairwise fun change later =>
      change.added ≠ none → later.new = .off ∨ later.added ≠ none)
    (replaced : changes.Pairwise fun change later => ∀ name, change.replaced = some name →
      later.old.isText = false ∧ later.old.name ≠ some name)
    (overwrites : (∀ change ∈ changes, change.replaced = none) ∨ target.Overwrites) :
    target.rebuildAll changes (target.buildAll (changes.map Change.old) state) =
      target.buildAll (changes.map Change.new) state := by
  induction changes generalizing state with
  | nil => rfl
  | cons change rest ih =>
    rw [List.pairwise_cons] at added replaced
    have next := fun state => ih state
      (fun later there => texts later (List.mem_cons_of_mem _ there))
      (fun later there => stay later (List.mem_cons_of_mem _ there)) added.2 replaced.2
      (overwrites.imp_left fun none later there => none later (List.mem_cons_of_mem _ there))
    have keeps := texts change List.mem_cons_self
    have nothing := stay change List.mem_cons_self
    rw [List.map_cons, List.map_cons, buildAll_cons, buildAll_cons, rebuildAll_cons]
    by_cases same : change.old = change.new
    · rw [target.rebuild_of_eq same, same]
      exact next _
    have noText := keeps.noText same
    rw [target.rebuild_of_ne same noText, nothing]
    change target.rebuildAll rest (target.build _ change.new) = _
    by_cases names : change.new.name = change.old.name
    · obtain ⟨name, value, value', old, new⟩ := Change.entries_of_name keeps same names
      have other : change.replaced = some name := by
        rw [Change.replaced, if_pos ⟨names, same⟩, old]
        rfl
      have law : target.Overwrites := overwrites.resolve_left fun none => by
        rw [none change List.mem_cons_self] at other
        cases other
      have moved := law name value value' (rest.map Change.old) state (by
        intro write mem
        obtain ⟨later, there, rfl⟩ := List.mem_map.mp mem
        exact replaced.1 later there name other)
      rw [old, new]
      exact (congrArg (target.rebuildAll rest) moved).trans (next _)
    · have off : change.old = .off := keeps.eq_off same (by rwa [Change.taken, if_neg names] at nothing)
      have comes : change.added ≠ none := by
        rw [Change.added, if_neg names]
        exact fun none => names (none.trans (by rw [off]; rfl))
      -- what is still to come is not there yet
      have still : ∀ write ∈ rest.map Change.old, write = .off := by
        intro write mem
        obtain ⟨later, there, rfl⟩ := List.mem_map.mp mem
        exact Change.old_eq_off (texts later (List.mem_cons_of_mem _ there))
          (stay later (List.mem_cons_of_mem _ there)) (added.1 later there comes)
      rw [off]
      have rebuilt := next (target.build state change.new)
      rw [target.buildAll_off still] at rebuilt ⊢
      exact rebuilt

/-- After a whole text is written: what is still wanted is written again. -/
theorem rebuildAll_again (Holds : State → Prop) {changes : List (Change Text Name Value)}
    {state : State} (holds : Holds state) (texts : ∀ change ∈ changes, change.KeepsText)
    (again : ∀ change ∈ changes, change.new ≠ .off → change.old ≠ change.new)
    (step : ∀ state, Holds state → ∀ change ∈ changes, Holds (target.build state change.new))
    (skip : ∀ state, Holds state → ∀ change ∈ changes, ∀ name, change.taken = some name →
      target.take name state = state) :
    target.rebuildAll changes state = target.buildAll (changes.map Change.new) state := by
  induction changes generalizing state with
  | nil => rfl
  | cons change rest ih =>
    rw [List.map_cons, buildAll_cons, rebuildAll_cons]
    have first : target.rebuild state change = target.build state change.new := by
      by_cases same : change.old = change.new
      · have off : change.new = .off := by
          by_contra on
          exact again change List.mem_cons_self on same
        rw [target.rebuild_of_eq same, off]
        rfl
      · rw [target.rebuild_of_ne same ((texts change List.mem_cons_self).noText same)]
        cases gone : change.taken with
        | none => rfl
        | some name =>
          have undone := skip state holds change List.mem_cons_self name gone
          exact congrArg (target.build · change.new) undone
    rw [first]
    exact ih (step state holds change List.mem_cons_self)
      (fun later there => texts later (List.mem_cons_of_mem _ there))
      (fun later there => again later (List.mem_cons_of_mem _ there))
      (fun state holds later there => step state holds later (List.mem_cons_of_mem _ there))
      (fun state holds later there => skip state holds later (List.mem_cons_of_mem _ there))

end Target

end Halyard.Entries
