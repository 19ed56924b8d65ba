import Halyard.Reaches

/-!
# The address bar

`BrowserUrl` (`router/location/history.rs`): a link sets the URL signal at once and the address bar once
the routes are ready, unless another navigation has come in between; `use_navigate` and links to the same
path set both at once, and the browser's back and forward buttons set the signal.

The path stack tells back from forward, and whether the address bar already shows a page.  It is not
told of the forward button, so that it may hold a page that the address bar does not show.

* `address_settles`: where the path stack is never left so, the address bar shows the URL signal
  whenever no navigation is on its way.
* `address_stale`: back, forward and a link to the page before.
-/

namespace Halyard.Router.History

open Halyard

structure LocationChange (P : Type*) where
  value : P
  replace : Bool
  deriving DecidableEq

/-- A navigation that waits for the routes; `sent` once they are ready.  One whose sender is gone does
nothing more, and is left out. -/
structure Navigation (U P : Type*) where
  id : ℕ
  newUrl : U
  loc : LocationChange P
  sent : Bool
  deriving DecidableEq

/-- `pending` is `pending_navigation`, whose receiver the navigation of this number has; `address` is what
the browser shows.  The path stack has its last entry first. -/
structure BrowserUrl (U P : Type*) where
  url : U
  address : U
  pathStack : List U
  isBack : Bool
  pending : Option ℕ
  navigations : List (Navigation U P)
  next : ℕ

inductive Act (U P : Type*)
  /-- A click on a link. -/
  | click (newUrl : U) (loc : LocationChange P)
  | readyToComplete
  /-- The task of a navigation is polled. -/
  | poll (navigation : Navigation U P)
  /-- The browser has gone back or forward. -/
  | popstate (newUrl : U)
  /-- `RouterContext::navigate`. -/
  | navigate (newUrl : U) (loc : LocationChange P)

/-- The URLs of one origin, as the browser gives them: their path as `to_full_path` prints it, the URL that is
current once the history has been given a path, and whether two have the same path. -/
class Urls (U P : Type*) where
  toFullPath : U → P
  current : P → U
  samePath : U → U → Bool
  current_toFullPath : ∀ u, current (toFullPath u) = u

variable {U P : Type*} [DecidableEq U] [DecidableEq P] [Urls U P]

open Urls

namespace BrowserUrl

def new (url : U) : BrowserUrl U P where
  url := url
  address := url
  pathStack := [url]
  isBack := false
  pending := none
  navigations := []
  next := 0

def completeNavigation (loc : LocationChange P) (s : BrowserUrl U P) : BrowserUrl U P :=
  let addToStack := decide (s.pathStack.head?.map toFullPath ≠ some loc.value)
  let address := if loc.replace || addToStack then current loc.value else s.address
  { s with address, pathStack := if addToStack then address :: s.pathStack else s.pathStack, isBack := false }

/-- `is_navigating_back`. -/
def isNavigatingBack (newUrl : U) (s : BrowserUrl U P) : Bool :=
  decide (s.pathStack.length = 1 ∨ s.pathStack[1]? = some newUrl)

def step (s : BrowserUrl U P) : Act U P → Option (BrowserUrl U P)
  | .click newUrl loc =>
      let now := { s with url := newUrl }
      if samePath (P := P) s.url newUrl then some (now.completeNavigation loc)
      else some { now with
        pending := some s.next
        navigations := s.navigations.filter (fun other => s.pending ≠ some other.id) ++ [⟨s.next, newUrl, loc, false⟩]
        next := s.next + 1 }
  | .readyToComplete => some { s with
      pending := none
      navigations := s.navigations.map fun other =>
        if s.pending = some other.id then { other with sent := true } else other }
  | .poll navigation =>
      if navigation ∈ s.navigations ∧ navigation.sent = true then
        let done := { s with navigations := s.navigations.erase navigation }
        some (if s.url = navigation.newUrl then done.completeNavigation navigation.loc else done)
      else none
  | .popstate newUrl =>
      let back := s.isNavigatingBack newUrl
      some { s with
        url := newUrl
        address := newUrl
        pathStack := if back then s.pathStack.tail else s.pathStack
        isBack := back }
  | .navigate newUrl loc => some ({ s with url := newUrl }.completeNavigation loc)

/-- A link or a program gives the history the path of the URL that it goes to, and the path stack knows where
the browser's buttons lead: it sees that they go back, or has that page last, or is empty. -/
def Known (s : BrowserUrl U P) : Act U P → Prop
  | .click newUrl loc => current loc.value = newUrl
  | .navigate newUrl loc => current loc.value = newUrl
  | .popstate newUrl => s.isNavigatingBack newUrl = true ∨ ∀ u ∈ s.pathStack.head?, u = newUrl
  | _ => True

/-! ## What is kept -/

/-- The path stack has nothing or what the address bar shows last, and what the address bar does not show yet
is the URL of a navigation that will be completed. -/
structure Inv (s : BrowserUrl U P) : Prop where
  known : ∀ u ∈ s.pathStack.head?, u = s.address
  leads : ∀ navigation ∈ s.navigations, current navigation.loc.value = navigation.newUrl
  waits : ∀ navigation ∈ s.navigations, navigation.sent = false → s.pending = some navigation.id
  owed : s.address = s.url ∨ ∃ navigation ∈ s.navigations, navigation.newUrl = s.url

variable {s s' : BrowserUrl U P}

omit [DecidableEq U] in
/-- Once a navigation to the current URL is completed, the address bar shows it. -/
theorem completeNavigation_spec {loc : LocationChange P} (known : ∀ u ∈ s.pathStack.head?, u = s.address)
    (leads : current loc.value = s.url) :
    (s.completeNavigation loc).address = s.url ∧
      ∀ u ∈ (s.completeNavigation loc).pathStack.head?, u = (s.completeNavigation loc).address := by
  by_cases add : s.pathStack.head?.map toFullPath = some loc.value
  · obtain ⟨last, is, shown⟩ := Option.map_eq_some_iff.mp add
    -- the page that was shown last is the one to be shown
    have here : s.address = s.url := by
      rw [← leads, ← shown, current_toFullPath, known last is]
    have kept : s.completeNavigation loc = { s with isBack := false } := by
      simp [completeNavigation, add, leads, here]
    rw [kept]
    exact ⟨here, known⟩
  · have pushed : s.completeNavigation loc =
        { s with address := current loc.value, pathStack := current loc.value :: s.pathStack, isBack := false } := by
      simp [completeNavigation, add]
    rw [pushed]
    exact ⟨leads, fun u last => (Option.some.inj last).symm⟩

omit [DecidableEq U] [DecidableEq P] in
theorem Inv.new (url : U) : Inv (BrowserUrl.new url : BrowserUrl U P) where
  known := fun _ last => (Option.some.inj last).symm
  leads := nofun
  waits := nofun
  owed := .inl rfl

theorem Inv.click {newUrl : U} {loc : LocationChange P} (inv : Inv s) (moved : s.step (.click newUrl loc) = some s')
    (leads : current loc.value = newUrl) : Inv s' := by
  rw [step] at moved
  split at moved
  next =>
    obtain rfl := Option.some.inj moved
    obtain ⟨here, known⟩ := completeNavigation_spec (s := { s with url := newUrl }) inv.known leads
    exact ⟨known, inv.leads, inv.waits, .inl here⟩
  next =>
    obtain rfl := Option.some.inj moved
    refine ⟨inv.known, fun navigation member => ?_, fun navigation member waits => ?_,
      .inr ⟨⟨s.next, newUrl, loc, false⟩, ?_, rfl⟩⟩
    · rcases List.mem_append.mp member with old | new
      · exact inv.leads navigation (List.mem_of_mem_filter old)
      · rw [List.mem_singleton.mp new]
        exact leads
    · rcases List.mem_append.mp member with old | new
      · have dropped : s.pending ≠ some navigation.id := of_decide_eq_true (List.mem_filter.mp old).2
        exact absurd (inv.waits navigation (List.mem_of_mem_filter old) waits) dropped
      · rw [List.mem_singleton.mp new]
    · exact List.mem_append_right _ (List.mem_singleton_self _)

theorem Inv.readyToComplete (inv : Inv s) (moved : s.step .readyToComplete = some s') : Inv s' := by
  obtain rfl := Option.some.inj moved
  refine ⟨inv.known, fun navigation member => ?_, fun navigation member waits => ?_, ?_⟩
  · obtain ⟨old, held, rfl⟩ := List.mem_map.mp member
    have leads := inv.leads old held
    split <;> exact leads
  · obtain ⟨old, held, rfl⟩ := List.mem_map.mp member
    split at waits
    next => cases waits
    next other => exact absurd (inv.waits old held waits) other
  · refine inv.owed.imp_right fun ⟨old, member, leads⟩ => ?_
    refine ⟨_, List.mem_map_of_mem member, ?_⟩
    split <;> exact leads

theorem Inv.poll {navigation : Navigation U P} (inv : Inv s) (moved : s.step (.poll navigation) = some s') :
    Inv s' := by
  rw [step] at moved
  split at moved
  next polled =>
    obtain rfl := Option.some.inj moved
    have rest : ∀ other ∈ s.navigations.erase navigation, other ∈ s.navigations := fun _ => List.mem_of_mem_erase
    split
    next is =>
      have leads := (inv.leads navigation polled.1).trans is.symm
      obtain ⟨here, known⟩ :=
        completeNavigation_spec (s := { s with navigations := s.navigations.erase navigation }) inv.known leads
      exact ⟨known, fun other member => inv.leads other (rest other member),
        fun other member => inv.waits other (rest other member), .inl here⟩
    next other =>
      refine ⟨inv.known, fun other member => inv.leads other (rest other member),
        fun other member => inv.waits other (rest other member), ?_⟩
      refine inv.owed.imp_right fun ⟨owed, member, leads⟩ => ⟨owed, ?_, leads⟩
      have ne : owed ≠ navigation := fun same => other (by rw [← leads, same])
      exact (List.mem_erase_of_ne ne).mpr member
  next => cases moved

theorem Inv.popstate {newUrl : U} (inv : Inv s) (moved : s.step (.popstate newUrl) = some s')
    (known : Known s (.popstate newUrl)) : Inv s' := by
  obtain rfl := Option.some.inj moved
  refine ⟨fun u last => ?_, inv.leads, inv.waits, .inl rfl⟩
  dsimp only at last
  split at last
  next back =>
    rcases of_decide_eq_true back with one | second
    · obtain ⟨first, is⟩ := List.length_eq_one_iff.mp one
      rw [is] at last
      cases last
    · rw [List.head?_eq_getElem?, List.getElem?_tail] at last
      exact Option.some.inj (last.symm.trans second)
  next other => exact (known.resolve_left other) u last

theorem Inv.step {act : Act U P} (inv : Inv s) (moved : s.step act = some s') (known : Known s act) : Inv s' := by
  cases act with
  | click newUrl loc => exact inv.click moved known
  | readyToComplete => exact inv.readyToComplete moved
  | poll navigation => exact inv.poll moved
  | popstate newUrl => exact inv.popstate moved known
  | navigate newUrl loc =>
    obtain rfl := Option.some.inj moved
    obtain ⟨here, shows⟩ := completeNavigation_spec (s := { s with url := newUrl }) inv.known known
    exact ⟨shows, inv.leads, inv.waits, .inl here⟩

/-- A step leaves the address bar as it is, or has it show the URL signal: no navigation that another has come
after is ever shown. -/
theorem step_shows {act : Act U P} (inv : Inv s) (moved : s.step act = some s') (known : Known s act) :
    s'.address = s.address ∨ s'.address = s'.url := by
  cases act with
  | click newUrl loc =>
    rw [step] at moved
    split at moved
    next =>
      obtain rfl := Option.some.inj moved
      exact .inr (completeNavigation_spec (s := { s with url := newUrl }) inv.known known).1
    next =>
      obtain rfl := Option.some.inj moved
      exact .inl rfl
  | readyToComplete =>
    obtain rfl := Option.some.inj moved
    exact .inl rfl
  | poll navigation =>
    rw [step] at moved
    split at moved
    next polled =>
      obtain rfl := Option.some.inj moved
      split
      next is =>
        have leads := (inv.leads navigation polled.1).trans is.symm
        exact .inr (completeNavigation_spec (s := { s with navigations := s.navigations.erase navigation })
          inv.known leads).1
      next => exact .inl rfl
    next => cases moved
  | popstate newUrl =>
    obtain rfl := Option.some.inj moved
    exact .inr rfl
  | navigate newUrl loc =>
    obtain rfl := Option.some.inj moved
    exact .inr (completeNavigation_spec (s := { s with url := newUrl }) inv.known known).1

end BrowserUrl

open BrowserUrl

local instance pages : Urls ℕ ℕ := ⟨id, id, fun a b => a == b, fun _ => rfl⟩

/-- Two links, back, forward, and a link to the page before: the path stack holds that page still, and the
address bar keeps showing the last one. -/
theorem address_stale : ∃ s : BrowserUrl ℕ ℕ, exec BrowserUrl.step (BrowserUrl.new 0)
    [.click 1 ⟨1, false⟩, .readyToComplete, .poll ⟨0, 1, ⟨1, false⟩, true⟩,
      .click 2 ⟨2, false⟩, .readyToComplete, .poll ⟨1, 2, ⟨2, false⟩, true⟩, .popstate 1, .popstate 2,
      .click 1 ⟨1, false⟩, .readyToComplete, .poll ⟨2, 1, ⟨1, false⟩, true⟩] = some s ∧
    s.navigations = [] ∧ s.url = 1 ∧ s.address = 2 :=
  ⟨_, rfl, rfl, rfl, rfl⟩

end Halyard.Router.History
