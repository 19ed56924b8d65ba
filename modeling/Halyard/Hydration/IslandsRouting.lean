import Mathlib

/-!
# Islands routing

`diffPages` of `islands_routing.js`, which makes the page that is shown like the page of a new document.
Both are trees of nodes with identities; a node that has been removed, and a fragment, are trees of their
own.  What the browser does to move nodes is a parameter (`Dom`), while the walkers, texts and attributes are
followed.  A walker is the node that it stands on, as the roots here are always the roots of trees.

* `diffLoop`: the walk, with a bound on its turns.
* `Node.flat`: the nodes of a tree in the order in which a walker meets them.
-/

namespace Halyard.IslandsRouting

/-- The attributes of an element. -/
abbrev Attributes := AList fun _ : String => String

/-- What a node is, with the data that belongs to that. -/
inductive Kind
  | document
  | doctype (name : String)
  | fragment
  | element (tagName : String) (attributes : Attributes)
  | text (content : List Char)
  | comment (content : List Char)

def Kind.nodeType : Kind → ℕ
  | .element _ _ => 1
  | .text _ => 3
  | .comment _ => 8
  | .document => 9
  | .doctype _ => 10
  | .fragment => 11

inductive Node
  | mk (id : ℕ) (kind : Kind) (children : List Node)

/-- A node as a walker finds it. -/
structure Entry where
  id : ℕ
  kind : Kind
  children : ℕ

mutual

/-- The nodes of a tree in document order. -/
def Node.flat : Node → List Entry
  | .mk id kind children => ⟨id, kind, children.length⟩ :: flats children

def flats : List Node → List Entry
  | [] => []
  | node :: nodes => node.flat ++ flats nodes

end

mutual

/-- Changes a node's data. -/
def Node.update (id : ℕ) (change : Kind → Kind) : Node → Node
  | .mk i kind children => .mk i (if i = id then change kind else kind) (updates id change children)

def updates (id : ℕ) (change : Kind → Kind) : List Node → List Node
  | [] => []
  | node :: nodes => node.update id change :: updates id change nodes

end

mutual

/-- The sibling after a node that is below the given one. -/
def Node.siblingAfter (id : ℕ) : Node → Option ℕ
  | .mk _ _ children => siblingAmong id children

/-- The sibling after a node that is one of these, or below. -/
def siblingAmong (id : ℕ) : List Node → Option ℕ
  | [] => none
  | node :: nodes =>
      if (node.flat.head?.map Entry.id) = some id then (flats nodes).head?.map Entry.id
      else (node.siblingAfter id).orElse fun _ => siblingAmong id nodes

end

def Node.ids (node : Node) : List ℕ :=
  node.flat.map Entry.id

/-- The trees that there are. -/
structure Page where
  trees : List Node

/-- What comes after an element of a list. -/
def after (id : ℕ) : List ℕ → Option ℕ
  | [] => none
  | i :: ids => if i = id then ids.head? else after id ids

namespace Page

variable (page : Page)

def kind (id : ℕ) : Option Kind :=
  ((flats page.trees).find? fun entry => entry.id = id).map Entry.kind

def update (id : ℕ) (change : Kind → Kind) : Page :=
  ⟨updates id change page.trees⟩

/-- `TreeWalker.nextNode`; where it is `none`, the walker stays. -/
def nextNode (id : ℕ) : Option ℕ :=
  (page.trees.find? fun tree => id ∈ tree.ids).bind fun tree => after id tree.ids

/-- `TreeWalker.nextSibling`, which does not leave the parent as all nodes are accepted. -/
def nextSibling (id : ℕ) : Option ℕ :=
  page.trees.findSome? (Node.siblingAfter id)

end Page

/-- An end of a `Range`, next to a node. -/
inductive Boundary
  | after (node : ℕ)
  | before (node : ℕ)

/-- What a browser does to move nodes; `none` where it throws.  A range that has been emptied is where it
started, so that the place of `insertNode` is the start of the range. -/
structure Dom where
  replaceWith : Page → ℕ → ℕ → Option Page
  extractContents : Page → Boundary → Boundary → Option (ℕ × Page)
  deleteContents : Page → Boundary → Boundary → Option Page
  insertNode : Page → Boundary → ℕ → Option Page

/-- Why there is no result: the turns did not suffice, or something was thrown. -/
inductive Stop
  | turns
  | thrown

def orThrow {α : Type} : Option α → Except Stop α
  | some a => .ok a
  | none => .error .thrown

def startsWith (text : List Char) (pattern : String) : Bool :=
  pattern.toList.isPrefixOf text

/-- `replace` of the first place where a pattern is by nothing. -/
def removeFirst (pattern : List Char) : List Char → List Char
  | [] => []
  | c :: text =>
      if pattern.isPrefixOf (c :: text) then (c :: text).drop pattern.length
      else c :: removeFirst pattern text

/-- The markers around an item. -/
structure Item where
  opened : ℕ
  close : Option ℕ

/-- An object with the items by their keys, in the order in which they were added.  Keys are taken not to be
names of properties that all objects have. -/
abbrev Items := List (List Char × Item)

def Items.set (key : List Char) (item : Item) : Items → Items
  | [] => [(key, item)]
  | (k, i) :: items => if k = key then (k, item) :: items else (k, i) :: Items.set key item items

/-- The key is an array index, which an object has before its other keys, in their order. -/
def isIndex (key : List Char) : Bool :=
  (key ≠ []) && key.all Char.isDigit && (key.head? ≠ some '0' || key = ['0']) &&
    (String.ofList key).toNat! < 2 ^ 32 - 1

def Items.inOrder (items : Items) : Items :=
  (items.filter fun entry => isIndex entry.1).mergeSort
      (fun a b => (String.ofList a.1).toNat! ≤ (String.ofList b.1).toNat!) ++
    items.filter fun entry => !isIndex entry.1

/-- The loops over the markers of a `For`, with the number of lists that are open. -/
def scanFor (page : Page) : ℕ → ℕ → ℕ → Items → Except Stop (ℕ × Items)
  | _, current, 0, items => .ok (current, items)
  | 0, _, _ + 1, _ => .error .turns
  | turns + 1, current, branches + 1, items =>
      let next := (page.nextNode current).getD current
      match page.kind current with
      | some (.comment text) =>
          if startsWith text "bo-for" then scanFor page turns next (branches + 2) items
          else if startsWith text "bc-for" then scanFor page turns next branches items
          else if startsWith text "bo-item" then
            let key := removeFirst "bo-item-".toList text
            scanFor page turns next (branches + 1) (items.set key ⟨current, none⟩)
          else if startsWith text "bc-item" then
            let key := removeFirst "bc-item-".toList text
            match items.lookup key with
            | some item => scanFor page turns next (branches + 1) (items.set key ⟨item.opened, some current⟩)
            | none => .error .thrown
          else scanFor page turns next (branches + 1) items
      | _ => scanFor page turns next (branches + 1) items

/-- The loops to the end of a branch; they go on where there is no next node. -/
def scanBranch (page : Page) : ℕ → ℕ → ℕ → Except Stop ℕ
  | _, current, 0 => .ok current
  | 0, _, _ + 1 => .error .turns
  | turns + 1, current, branches + 1 =>
      match page.nextNode current with
      | none => scanBranch page turns current (branches + 1)
      | some next =>
          match page.kind next with
          | some (.comment text) =>
              if startsWith text "bo" then scanBranch page turns next (branches + 2)
              else if startsWith text "bc" then scanBranch page turns next branches
              else scanBranch page turns next (branches + 1)
          | _ => scanBranch page turns next (branches + 1)

/-- What `replaceFor` and `replaceBranch` try at their ends; what is thrown is reported, and ends it. -/
def swapRanges (dom : Dom) (page : Page) (oldNode newNode oldLast newLast : ℕ) : Page :=
  match dom.extractContents page (.after newNode) (.after newLast) with
  | none => page
  | some (newContents, page) =>
      match dom.deleteContents page (.after oldNode) (.before oldLast) with
      | none => page
      | some page =>
          match dom.insertNode page (.after oldNode) newContents with
          | none => page
          | some page =>
              match dom.replaceWith page oldNode newNode with
              | none => page
              | some page => (dom.replaceWith page oldLast newLast).getD page

/-- An item that both lists have: its old nodes are compared with the new ones, and put into the new list. -/
def keepItem (dom : Dom) (diffRange : Page → ℕ → ℕ → Option ℕ → Option ℕ → Except Stop Page)
    (page : Page) (oldOne newOne : Item) : Except Stop Page := do
  let oldClose ← orThrow oldOne.close
  let newClose ← orThrow newOne.close
  let (oldContents, page) ← orThrow (dom.extractContents page (.after oldOne.opened) (.before oldClose))
  let (newContents, page) ← orThrow (dom.extractContents page (.after newOne.opened) (.before newClose))
  let page ← diffRange page oldContents newContents (some oldClose) (some newClose)
  let page ← orThrow (dom.insertNode page (.after newOne.opened) oldContents)
  let page ← orThrow (dom.replaceWith page newOne.opened oldOne.opened)
  orThrow (dom.replaceWith page newClose oldClose)

/-- With the nodes on which the walkers are left. -/
def replaceFor (dom : Dom) (diffRange : Page → ℕ → ℕ → Option ℕ → Option ℕ → Except Stop Page)
    (turns : ℕ) (page : Page) (oldNode newNode : ℕ) : Except Stop (ℕ × ℕ × Page) := do
  let (oldLast, oldKeys) ← scanFor page turns ((page.nextNode oldNode).getD oldNode) 1 []
  let (newLast, newKeys) ← scanFor page turns ((page.nextNode newNode).getD newNode) 1 []
  let page ← oldKeys.inOrder.foldlM (fun page (key, oldOne) =>
    match newKeys.lookup key with
    | some newOne => keepItem dom diffRange page oldOne newOne
    | none => .ok page) page
  return (oldLast, newLast, swapRanges dom page oldNode newNode oldLast newLast)

/-- With the nodes on which the walkers are left. -/
def replaceBranch (dom : Dom) (turns : ℕ) (page : Page) (oldNode newNode : ℕ) :
    Except Stop (ℕ × ℕ × Page) := do
  let oldLast ← scanBranch page turns ((page.nextNode oldNode).getD oldNode) 1
  let newLast ← scanBranch page turns ((page.nextNode newNode).getD newNode) 1
  return (oldLast, newLast, swapRanges dom page oldNode newNode oldLast newLast)

/-- Sets the attributes of a new element on the old one. -/
def Kind.setAttributes (new : Attributes) : Kind → Kind
  | .element tagName attributes =>
      .element tagName (new.foldl (fun attributes name value => attributes.insert name value) attributes)
  | kind => kind

/-- A turn of the walk, at two nodes; with the nodes on which the walkers are left. -/
def diffNodes (dom : Dom) (diffRange : Page → ℕ → ℕ → Option ℕ → Option ℕ → Except Stop Page)
    (turns : ℕ) (page : Page) (oldNode newNode : ℕ) (old new : Kind) : Except Stop (ℕ × ℕ × Page) :=
  if old.nodeType ≠ new.nodeType then do
    return (oldNode, newNode, ← orThrow (dom.replaceWith page oldNode newNode))
  else
    match old, new with
    | .text _, .text content => .ok (oldNode, newNode, page.update oldNode fun _ => .text content)
    | .element oldTag _, .element newTag attributes =>
        if oldTag = "HALYARD-ISLAND" then
          .ok ((page.nextSibling oldNode).getD oldNode, (page.nextSibling newNode).getD newNode, page)
        else if oldTag ≠ newTag then do
          return (oldNode, newNode, ← orThrow (dom.replaceWith page oldNode newNode))
        else .ok (oldNode, newNode, page.update oldNode (Kind.setAttributes attributes))
    | .comment oldText, .comment newText =>
        if startsWith oldText "bo-for" then replaceFor dom diffRange turns page oldNode newNode
        else if startsWith oldText "bo-item" then .ok (oldNode, newNode, page)
        else if startsWith oldText "bo" ∧ newText ≠ oldText then
          replaceBranch dom turns page oldNode newNode
        else .ok (oldNode, newNode, page)
    | _, _ => .ok (oldNode, newNode, page)

/-- The loop of `diffRange`, with the nodes on which the walkers are. -/
def diffLoop (dom : Dom) : ℕ → Page → ℕ → ℕ → Option ℕ → Option ℕ → Except Stop Page
  | 0, _, _, _, _, _ => .error .turns
  | turns + 1, page, oldNode, newNode, oldEnd, newEnd =>
      match page.nextNode oldNode with
      | none => .ok page
      | some oldNode =>
          match page.nextNode newNode with
          | none => .ok page
          | some newNode =>
              if some oldNode = oldEnd ∨ some newNode = newEnd then .ok page
              else
                match page.kind oldNode, page.kind newNode with
                | some old, some new => do
                    let (oldNode, newNode, page) ←
                      diffNodes dom (diffLoop dom turns) turns page oldNode newNode old new
                    diffLoop dom turns page oldNode newNode oldEnd newEnd
                | _, _ => .error .thrown

/-- `diffPages`, where both documents are there. -/
def diffPages (dom : Dom) (turns : ℕ) (page : Page) (document doc : ℕ) : Except Stop Page :=
  diffLoop dom turns page document doc none none

end Halyard.IslandsRouting
