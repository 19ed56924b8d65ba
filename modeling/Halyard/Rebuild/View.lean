import Halyard.Rebuild.Dom

/-!
# Views and their states

The view types of `halyard_tachys/src/view` that are made of text, elements without attributes, `()`,
tuples, arrays, `Option`, `Either` and `EitherOf`, `Vec`, `StaticVec`, `AnyView` and `Result`: what
`Render` and `Mountable` do for them.

* `View.trees`: what a view shows.
-/

namespace Halyard.Rebuild

/-! ## Views -/

mutual

/-- A view type.  An element's tag is part of its type, a custom element's is not. -/
inductive ViewType where
  | text
  | unit
  | element (tag : String) (selfClosing : Bool) (child : ViewType)
  | custom (child : ViewType)
  | tuple (types : ViewTypes)
  | array (length : ℕ) (type : ViewType)
  | option (type : ViewType)
  | either (types : ViewTypes)
  | vec (type : ViewType)
  | staticVec (type : ViewType)
  | any
  | result (type : ViewType)
  deriving DecidableEq

inductive ViewTypes where
  | nil
  | cons (type : ViewType) (rest : ViewTypes)
  deriving DecidableEq

end

def ViewTypes.toList : ViewTypes → List ViewType
  | .nil => []
  | .cons type rest => type :: rest.toList

/-- A value of a view type.  `Either` is `either` with the branches 0 and 1. -/
inductive View where
  | text (text : String)
  | unit
  | element (tag : String) (selfClosing : Bool) (child : View)
  | custom (tag : String) (child : View)
  | tuple (views : List View)
  | array (views : List View)
  | optionNone
  | optionSome (view : View)
  | either (branch : ℕ) (view : View)
  | vec (views : List View)
  | staticVec (views : List View)
  /-- The value in an `AnyView`, with its type. -/
  | any (type : ViewType) (view : View)
  | resultErr
  | resultOk (view : View)

mutual

/-- The value has the type; tuples and arrays are not empty. -/
def View.OfType : View → ViewType → Prop
  | .text _, .text => True
  | .unit, .unit => True
  | .element tag closing child, .element tag' closing' type =>
      tag = tag' ∧ closing = closing' ∧ child.OfType type
  | .custom _ child, .custom type => child.OfType type
  | .tuple views, .tuple types => types ≠ .nil ∧ View.EachOfType views types.toList
  | .array views, .array length type =>
      length ≠ 0 ∧ views.length = length ∧ View.EachOfType views (.replicate views.length type)
  | .optionNone, .option _ => True
  | .optionSome view, .option type => view.OfType type
  | .either branch view, .either types =>
      ∃ type, types.toList[branch]? = some type ∧ view.OfType type
  | .vec views, .vec type => View.EachOfType views (.replicate views.length type)
  | .staticVec views, .staticVec type => View.EachOfType views (.replicate views.length type)
  | .any type view, .any => view.OfType type
  | .resultErr, .result _ => True
  | .resultOk view, .result type => view.OfType type
  | _, _ => False

def View.EachOfType : List View → List ViewType → Prop
  | [], [] => True
  | view :: rest, type :: types => view.OfType type ∧ View.EachOfType rest types
  | _, _ => False

end

mutual

/-- `EXISTS`. -/
def ViewType.exists : ViewType → Bool
  | .unit => false
  | .tuple types => types.exists
  | _ => true

def ViewTypes.exists : ViewTypes → Bool
  | .nil => false
  | .cons type rest => type.exists || rest.exists

end

/-! ### What a view shows -/

inductive Tree where
  | text (text : String)
  | comment
  | element (tag : String) (children : List Tree)

mutual

def View.trees : View → List Tree
  | .text str => [.text str]
  | .unit => [.comment]
  | .element tag closing child => [.element tag (if closing then [] else child.trees)]
  | .custom tag child => [.element tag.toLower child.trees]
  | .tuple views => View.allTrees views
  | .array views => View.allTrees views
  | .optionNone => [.comment]
  | .optionSome view => view.trees
  | .either _ view => view.trees
  | .vec views => View.allTrees views ++ [.comment]
  | .staticVec views => View.allTrees views ++ [.comment]
  | .any type view => view.trees ++ (if type.exists then [] else [.comment])
  | .resultErr => [.comment]
  | .resultOk view => view.trees

def View.allTrees : List View → List Tree
  | [] => []
  | view :: rest => view.trees ++ View.allTrees rest

end

/-! ## States -/

/-- The state that is kept of a view, with its nodes. -/
inductive State where
  | text (node : ℕ) (str : String)
  | placeholder (node : ℕ)
  /-- An element without children. -/
  | void (node : ℕ)
  | element (node : ℕ) (children : State)
  /-- Of a tuple or an array. -/
  | tuple (states : List State)
  /-- Of an `Either`, an `EitherOf`, an `Option` or a `Result`. -/
  | either (branch : ℕ) (state : State)
  /-- `VecState` and `StaticVecState`. -/
  | list (states : List State) (marker : ℕ)
  /-- `AnyViewState`. -/
  | any (type : ViewType) (state : State) (placeholder : Option ℕ)

namespace State

mutual

/-- `Mountable::mount`. -/
def mount (parent : ℕ) (anchor : Option ℕ) : State → Dom → Dom
  | .text node _, d => d.insertNode parent node anchor
  | .placeholder node, d => d.insertNode parent node anchor
  | .void node, d => d.insertNode parent node anchor
  | .element node _, d => d.insertNode parent node anchor
  | .tuple states, d => mountAll parent anchor states d
  | .either _ state, d => mount parent anchor state d
  | .list states marker, d => (mountAll parent anchor states d).insertNode parent marker anchor
  | .any _ state none, d => mount parent anchor state d
  | .any _ state (some extra), d =>
      (mount parent anchor state d).insertNode parent extra anchor

def mountAll (parent : ℕ) (anchor : Option ℕ) : List State → Dom → Dom
  | [], d => d
  | state :: rest, d => mountAll parent anchor rest (mount parent anchor state d)

end

mutual

/-- `Mountable::unmount`. -/
def unmount : State → Dom → Dom
  | .text node _, d => d.remove node
  | .placeholder node, d => d.remove node
  | .void node, d => d.remove node
  | .element node _, d => d.remove node
  | .tuple states, d => unmountAll states d
  | .either _ state, d => unmount state d
  | .list states marker, d => (unmountAll states d).remove marker
  | .any _ state none, d => unmount state d
  | .any _ state (some extra), d => (unmount state d).remove extra

def unmountAll : List State → Dom → Dom
  | [], d => d
  | state :: rest, d => unmountAll rest (unmount state d)

end

/-- `insert_before_this` of a node: `child` is mounted before it, unless it has no parent. -/
def insertBeforeNode (child : State) (node : ℕ) (d : Dom) : Option Dom :=
  (d.parent node).map fun parent => child.mount parent (some node) d

mutual

/-- `Mountable::insert_before_this`; none if nothing was mounted. -/
def insertBeforeThis (child : State) : State → Dom → Option Dom
  | .text node _, d => insertBeforeNode child node d
  | .placeholder node, d => insertBeforeNode child node d
  | .void node, d => insertBeforeNode child node d
  | .element node _, d => insertBeforeNode child node d
  | .tuple states, d => insertBeforeAny child states d
  | .either _ state, d => insertBeforeThis child state d
  | .list states marker, d => (insertBeforeAny child states d).or (insertBeforeNode child marker d)
  | .any _ state none, d => insertBeforeThis child state d
  | .any _ state (some extra), d =>
      (insertBeforeThis child state d).or (insertBeforeNode child extra d)

def insertBeforeAny (child : State) : List State → Dom → Option Dom
  | [], _ => none
  | state :: rest, d => (insertBeforeThis child state d).or (insertBeforeAny child rest d)

end

end State

/-! ## Building -/

mutual

/-- `Render::build`. -/
def View.build : View → Dom → State × Dom
  | .text str, d => (.text d.next str, (d.create (.text str)).2)
  | .unit, d => (.placeholder d.next, (d.create .comment).2)
  | .element tag true _, d => (.void d.next, (d.create (.element tag)).2)
  | .element tag false child, d =>
      let built := child.build (d.create (.element tag)).2
      (.element d.next built.1, built.1.mount d.next none built.2)
  | .custom tag child, d =>
      let built := child.build (d.create (.element tag.toLower)).2
      (.element d.next built.1, built.1.mount d.next none built.2)
  | .tuple views, d =>
      let built := View.buildAll views d
      (.tuple built.1, built.2)
  | .array views, d =>
      let built := View.buildAll views d
      (.tuple built.1, built.2)
  | .optionNone, d => (.either 1 (.placeholder d.next), (d.create .comment).2)
  | .optionSome view, d =>
      let built := view.build d
      (.either 0 built.1, built.2)
  | .either branch view, d =>
      let built := view.build d
      (.either branch built.1, built.2)
  | .vec views, d =>
      let built := View.buildAll views (d.create .comment).2
      (.list built.1 d.next, built.2)
  | .staticVec views, d =>
      let built := View.buildAll views (d.create .comment).2
      (.list built.1 d.next, built.2)
  | .any type view, d =>
      let built := view.build d
      if type.exists then (.any type built.1 none, built.2)
      else (.any type built.1 (some built.2.next), (built.2.create .comment).2)
  | .resultErr, d => (.either 1 (.placeholder d.next), (d.create .comment).2)
  | .resultOk view, d =>
      let built := view.build d
      (.either 0 built.1, built.2)

def View.buildAll : List View → Dom → List State × Dom
  | [], d => ([], d)
  | view :: rest, d =>
      let built := view.build d
      let others := View.buildAll rest built.2
      (built.1 :: others.1, others.2)

end

/-! ## Rebuilding -/

/-- What was built takes the place of an old state, which is unmounted. -/
def State.replace (old : State) (built : State × Dom) : State × Dom :=
  (built.1, old.unmount ((insertBeforeThis built.1 old built.2).getD built.2))

/-- `Rndr::mount_before` and `try_mount_before`. -/
def State.mountBefore (state : State) (marker : ℕ) (d : Dom) : Dom :=
  (state.insertBeforeNode marker d).getD d

/-- The tag name of an HTML element. -/
def Dom.tagName (d : Dom) (node : ℕ) : String :=
  match d.content node with
  | .element tag => tag.toUpper
  | _ => ""

/-- `rebuild` of `Either` and `EitherOf`, which those of `Option` and `Result` are too: a new value in
the branch `new`, with its `rebuild`. -/
def View.rebuildEither (new : ℕ) (view : View) (rebuild : State → Dom → State × Dom) (branch : ℕ)
    (state : State) (d : Dom) : State × Dom :=
  if new = branch then
    let rebuilt := rebuild state d
    (.either new rebuilt.1, rebuilt.2)
  else
    let replaced := state.replace (view.build d)
    (.either new replaced.1, replaced.2)

/-- `rebuild` of `Vec` and of `StaticVec`, with the loop over the items. -/
def View.rebuildList (views : List View) (loop : List State → Dom → List State × Dom)
    (states : List State) (marker : ℕ) (d : Dom) : State × Dom :=
  if states.isEmpty then
    let new := View.buildAll views (d.create .comment).2
    (.list new.1 marker, new.1.foldl (fun d state => state.mountBefore marker d) new.2)
  else if views.isEmpty then (.list [] marker, State.unmountAll states d)
  else
    let rebuilt := loop states d
    (.list rebuilt.1 marker, rebuilt.2)

/-- `rebuild` of an `AnyView` of another type. -/
def View.replaceAny (new : State × Dom) (old : ViewType) (state : State) (extra : Option ℕ) :
    State × Dom :=
  match extra with
  | some node =>
      (new.1, (State.any old state extra).unmount
        (((new.1.insertBeforeNode node new.2).getD new.2).remove node))
  | none => (State.any old state extra).replace new

mutual

/-- `Render::rebuild`. -/
def View.rebuild : View → State → Dom → State × Dom
  | .text new, .text node str, d =>
      if new ≠ str then (.text node new, d.setText node new) else (.text node str, d)
  | .unit, state, d => (state, d)
  | .element _ _ child, .element node children, d =>
      let rebuilt := child.rebuild children d
      (.element node rebuilt.1, rebuilt.2)
  | .custom tag child, .element node children, d =>
      if tag ≠ d.tagName node then
        (State.element node children).replace ((View.custom tag child).build d)
      else
        let rebuilt := child.rebuild children d
        (.element node rebuilt.1, rebuilt.2)
  | .tuple views, .tuple states, d =>
      let rebuilt := View.rebuildEach views states d
      (.tuple rebuilt.1, rebuilt.2)
  | .array views, .tuple states, d =>
      let rebuilt := View.rebuildEach views states d
      (.tuple rebuilt.1, rebuilt.2)
  | .optionNone, .either branch state, d =>
      View.rebuildEither 1 .unit (fun state d => (state, d)) branch state d
  | .optionSome view, .either branch state, d => View.rebuildEither 0 view view.rebuild branch state d
  | .either new view, .either branch state, d =>
      View.rebuildEither new view view.rebuild branch state d
  | .vec views, .list states marker, d =>
      View.rebuildList views (View.rebuildItems marker views) states marker d
  | .staticVec views, .list states marker, d =>
      View.rebuildList views (View.rebuildItems marker views) states marker d
  | .any type view, .any old state extra, d =>
      if type = old then
        let rebuilt := view.rebuild state d
        (.any type rebuilt.1 extra, rebuilt.2)
      else View.replaceAny ((View.any type view).build d) old state extra
  | .resultErr, .either branch state, d =>
      View.rebuildEither 1 .unit (fun state d => (state, d)) branch state d
  | .resultOk view, .either branch state, d => View.rebuildEither 0 view view.rebuild branch state d
  | _, state, d => (state, d)

/-- The states of a tuple or an array, one by one. -/
def View.rebuildEach : List View → List State → Dom → List State × Dom
  | view :: rest, state :: states, d =>
      let first := view.rebuild state d
      let others := View.rebuildEach rest states first.2
      (first.1 :: others.1, others.2)
  | _, states, d => (states, d)

/-- The loop of `zip_longest`. -/
def View.rebuildItems (marker : ℕ) : List View → List State → Dom → List State × Dom
  | view :: rest, state :: states, d =>
      let first := view.rebuild state d
      let others := View.rebuildItems marker rest states first.2
      (first.1 :: others.1, others.2)
  | view :: rest, [], d =>
      let first := view.build d
      let others := View.rebuildItems marker rest [] (first.1.mountBefore marker first.2)
      (first.1 :: others.1, others.2)
  -- the states that are left are unmounted one by one
  | [], states, d => ([], State.unmountAll states d)

end

end Halyard.Rebuild
