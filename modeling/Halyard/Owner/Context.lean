import Halyard.BreadthFirst

/-!
# Contexts of owners

Values are kept by their types, which include `Option`s.  An owner stands in the tree of owners with its
parents above it.

* `with_eq`, `find_eq`: what the searches upwards and downwards find.
* `bidirectional_iff`: `use_context_bidirectional` looks upwards for a value of another type, and when it
  finds what it should all the same.
-/

namespace Halyard.Owner

variable {Base : Type} [DecidableEq Base] {V : Base → Type}

inductive TypeId (Base : Type)
  | of (base : Base)
  | option (ty : TypeId Base)
  deriving DecidableEq

/-- The values of a type. -/
def TypeId.Val (V : Base → Type) : TypeId Base → Type
  | .of base => V base
  | .option ty => Option (ty.Val V)

/-- A `Box<dyn Any>`. -/
structure Boxed (V : Base → Type) where
  ty : TypeId Base
  value : ty.Val V

def Boxed.downcast (context : Boxed V) (T : TypeId Base) : Option (T.Val V) :=
  if same : context.ty = T then some (same ▸ context.value) else none

/-- The values that are provided, each under its type. -/
structure Contexts (V : Base → Type) where
  get : TypeId Base → Option (Boxed V)
  typed : ∀ ty context, get ty = some context → context.ty = ty

def Contexts.empty : Contexts V where
  get _ := none
  typed _ _ absent := by cases absent

def Contexts.provide (contexts : Contexts V) (T : TypeId Base) (value : T.Val V) : Contexts V where
  get ty := if ty = T then some ⟨T, value⟩ else contexts.get ty
  typed ty context found := by
    by_cases same : ty = T
    · rw [if_pos same] at found
      cases found
      exact same.symm
    · rw [if_neg same] at found
      exact contexts.typed ty context found

abbrev OwnerInner (V : Base → Type) := Tree (Contexts V)

def OwnerInner.contexts (inner : OwnerInner V) : Contexts V :=
  inner.value

/-- An owner in its tree, with its parents up to the root. -/
structure Handle (V : Base → Type) where
  inner : OwnerInner V
  parents : List (OwnerInner V)

variable (T : TypeId Base)

/-! ## The searches -/

/-- The loop over the parents. -/
def searchParents : List (OwnerInner V) → Option (T.Val V)
  | [] => none
  | thisParent :: parents =>
      match (thisParent.contexts.get T).bind fun context => context.downcast T with
      | some value => some value
      | none => searchParents parents

def withContext {R : Type} (owner : Handle V) (cb : T.Val V → R) : Option R :=
  let reference :=
    match owner.inner.contexts.get T with
    | some context => context.downcast T
    | none => searchParents T owner.parents
  reference.map cb

def useContext (owner : Handle V) : Option (T.Val V) :=
  withContext T owner id

/-- The loop over the owners that are still to be searched. -/
def searchChildren : List (OwnerInner V) → Option (T.Val V)
  | [] => none
  | child :: toSearch =>
      match child.contexts.get T with
      | some context => context.downcast T
      | none => searchChildren (toSearch ++ child.children)
  termination_by toSearch => Tree.countAll toSearch
  decreasing_by exact Tree.countAll_next child toSearch

def findContextInChildren (owner : Handle V) : Option (T.Val V) :=
  searchChildren T owner.inner.children

/-- `self.use_context().unwrap_or_else(..)`: the result is an `Option<T>`, so that is the type that
`use_context` is called with. -/
def useContextBidirectional (owner : Handle V) : Option (T.Val V) :=
  match useContext (.option T) owner with
  | some value => value
  | none => findContextInChildren T owner

/-! ## What is provided where -/

def Contexts.provided (contexts : Contexts V) : Option (T.Val V) :=
  (contexts.get T).bind fun context => context.downcast T

/-- The value of the nearest owner, from an owner up to the root. -/
def nearest (owner : Handle V) : Option (T.Val V) :=
  (owner.inner :: owner.parents).findSome? fun inner => inner.contexts.provided T

/-- The value of the first of an owner's descendants, in breadth-first order. -/
def firstBelow (owner : Handle V) : Option (T.Val V) :=
  (Tree.breadthFirst owner.inner.children).findSome? fun contexts => contexts.provided T

/-- What is under a type is of the type. -/
theorem downcast_of_get {contexts : Contexts V} {context : Boxed V} (found : contexts.get T = some context) :
    ∃ value, context.downcast T = some value := by
  have same := contexts.typed T context found
  exact ⟨same ▸ context.value, dif_pos same⟩

@[simp] theorem provided_empty : (Contexts.empty : Contexts V).provided T = none := rfl

theorem searchParents_eq (parents : List (OwnerInner V)) :
    searchParents T parents = parents.findSome? fun inner => inner.contexts.provided T := by
  induction parents with
  | nil => rfl
  | cons thisParent parents ih =>
    rw [searchParents, List.findSome?_cons, Contexts.provided]
    cases (thisParent.contexts.get T).bind fun context => context.downcast T with
    | none => exact ih
    | some value => rfl

theorem with_eq {R : Type} (owner : Handle V) (cb : T.Val V → R) :
    withContext T owner cb = (nearest T owner).map cb := by
  rw [withContext, nearest, List.findSome?_cons, Contexts.provided]
  cases own : owner.inner.contexts.get T with
  | none =>
    simp only [Option.bind_none]
    rw [searchParents_eq]
  | some context =>
    obtain ⟨value, cast⟩ := downcast_of_get T own
    simp only [Option.bind_some, cast]

theorem find_eq (owner : Handle V) : findContextInChildren T owner = firstBelow T owner := by
  refine Tree.queue_breadthFirst (by rw [searchChildren]) (fun child toSearch => ?_) _
  rw [searchChildren, Contexts.provided]
  cases own : child.value.get T with
  | none => simp [OwnerInner.contexts, own]
  | some context =>
    obtain ⟨value, cast⟩ := downcast_of_get T own
    simp [OwnerInner.contexts, own, cast]

/-! ## Both ways -/

/-- The search both ways is right just if no `T` and no `Option<T>` is provided above, or if what stands
in for them is the very value that it looks for. -/
theorem bidirectional_iff (owner : Handle V) :
    useContextBidirectional T owner = (nearest T owner).or (firstBelow T owner) ↔
      nearest (.option T) owner = none ∧ (nearest T owner = none ∨ nearest T owner = firstBelow T owner) ∨
        nearest (.option T) owner = some ((nearest T owner).or (firstBelow T owner)) := by
  have upwards : useContext (.option T) owner = nearest (.option T) owner := by
    rw [useContext, with_eq, Option.map_id]
    rfl
  rw [useContextBidirectional, upwards, find_eq]
  cases above : nearest (.option T) owner with
  | none =>
    cases own : nearest T owner with
    | none => simp
    | some value => simp [eq_comm]
  | some value =>
    constructor
    · exact fun same => .inr (congrArg some same)
    · rintro (⟨none_, -⟩ | same)
      · cases none_
      · exact Option.some.inj same

/-- The root provides a number, and its child asks for it. -/
def providedAbove : Handle fun _ : Unit => ℕ :=
  ⟨.node .empty [], [.node (Contexts.empty.provide (.of ()) (7 : ℕ)) []]⟩

theorem bidirectional_not_found :
    nearest (.of ()) providedAbove = some (7 : ℕ) ∧
      useContextBidirectional (.of ()) providedAbove = none := by
  refine ⟨rfl, ?_⟩
  rw [useContextBidirectional, find_eq]
  rfl

end Halyard.Owner
