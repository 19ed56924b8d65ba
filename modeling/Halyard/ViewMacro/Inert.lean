import Halyard.ViewMacro.Tokens

/-!
# Static parts of a view

* `inert_same`: whether the static parts are written as HTML or as elements, the page has the same elements
  and texts in the same order, with the same attributes, if these parts are `tidy`.
* `inner_html_inert`: the `inner_html` of an element in a static part is not set.
-/

namespace Halyard.ViewMacro

variable {keyOf : Text → Text}

/-! ## Static parts -/

mutual

def Node.static : Node → Bool
  | .text _ => true
  | .element _ attributes children => attributes.all KeyedAttribute.isStatic && allStatic children
  | _ => false

def allStatic : List Node → Bool
  | [] => true
  | node :: nodes => node.static && allStatic nodes

end

theorem allStatic_append (nodes more : List Node) : allStatic (nodes ++ more) = (allStatic nodes && allStatic more) := by
  induction nodes with
  | nil => rfl
  | cons node nodes ih => rw [List.cons_append, allStatic, allStatic, ih, Bool.and_assoc]

/-- The loop goes through the nodes by levels. -/
theorem allInert_eq (nodes : List Node) : allInert nodes = allStatic nodes := by
  induction nodes using allInert.induct with
  | case1 => simp [allInert, allStatic]
  | case2 value nodes ih => rw [allInert, allStatic, ih, Node.static, Bool.true_and]
  | case3 name attributes children nodes ih =>
    rw [allInert, ih, allStatic_append, allStatic, Node.static, Bool.and_comm (allStatic nodes), Bool.and_assoc]
  | case4 node nodes other other' =>
    cases node with
    | text value => exact (other value rfl).elim
    | element name attributes children => exact (other' name attributes children rfl).elim
    | comment => simp [allInert, allStatic, Node.static]
    | fragment children => simp [allInert, allStatic, Node.static]
    | dynamic toHtml => simp [allInert, allStatic, Node.static]

theorem static_of_isInert {node : Node} (inert : isInertElement node = true) : node.static = true := by
  cases node with
  | element name attributes children =>
    rw [isInertElement, allInert_eq, Bool.and_eq_true] at inert
    rw [allStatic, allStatic, Bool.and_true] at inert
    exact inert.2
  | text value => cases inert
  | comment => cases inert
  | fragment children => cases inert
  | dynamic toHtml => cases inert

/-- An attribute as it stands in the macro's input. -/
def KeyedAttribute.own (attr : KeyedAttribute) : Text × Option Text :=
  (trimRaw attr.key, match attr.value with
    | .lit value => some value
    | _ => none)

mutual

/-- The page of a static part, if every text is written as it is. -/
def Node.tokens : (escape : Bool) → Node → List Html
  | escape, .text value => [.text value escape]
  | _, .element name attributes children =>
      .tag name (attributes.map KeyedAttribute.own) ::
        if isSelfClosing name then [] else allTokens (escapesInert name) children ++ [.closing name]
  | _, _ => []

def allTokens (escape : Bool) : List Node → List Html
  | [] => []
  | node :: nodes => node.tokens escape ++ allTokens escape nodes

end

def KeyedAttribute.hasValue (attr : KeyedAttribute) : Bool :=
  match attr.value with
  | .lit _ => true
  | _ => false

/-- An attribute that has the same name in a tag as in the macro's input, or is a `class` or `style` with a
value. -/
def KeyedAttribute.tidy (keyOf : Text → Text) (element : Text) (attr : KeyedAttribute) : Bool :=
  if attr.first then attr.hasValue
  else
    !(⟨trimRaw attr.key, attr.value⟩ : KeyedAttribute).first && trimRaw attr.key ≠ "inner_html".toList &&
      plainName keyOf element attr.key = trimRaw attr.key

mutual

/-- A static part that is written as HTML as it would be built: no `noscript`, `textarea` or `param`, no empty
text, no `inner_html`, and no attribute twice. -/
def Node.tidy (keyOf : Text → Text) : (escape : Bool) → Node → Bool
  | escape, .text value => value ≠ [] || !escape
  | _, .element name attributes children =>
      escapesInert name == escapeChildren name && isSelfClosing name == selfClosing name &&
        attributes.all (KeyedAttribute.tidy keyOf name) &&
        decide (attributes.map KeyedAttribute.key).Nodup && allTidy keyOf (escapesInert name) children
  | _, _ => true

def allTidy (keyOf : Text → Text) (escape : Bool) : List Node → Bool
  | [] => true
  | node :: nodes => node.tidy keyOf escape && allTidy keyOf escape nodes

end

/-! ## What the loop writes -/

theorem inertAttribute_eq {element : Text} {attr : KeyedAttribute} (tidy : attr.tidy keyOf element = true) :
    inertAttribute attr = printAttribute attr.own := by
  have valued : trimRaw attr.key = "class".toList → attr.hasValue = true := by
    intro same
    rw [KeyedAttribute.tidy] at tidy
    split at tidy
    next => exact tidy
    next => simp [KeyedAttribute.first, same] at tidy
  obtain ⟨key, value⟩ := attr
  rw [inertAttribute, printAttribute, KeyedAttribute.own]
  dsimp only at valued ⊢
  split
  next same =>
    cases value with
    | lit value =>
      rw [same]
      rfl
    | absent => cases valued same
    | expr value => cases valued same
  next =>
    cases value with
    | lit value => simp
    | absent => simp
    | expr value => simp

theorem flatMap_inertAttribute {element : Text} {attributes : List KeyedAttribute}
    (tidy : attributes.all (KeyedAttribute.tidy keyOf element) = true) :
    attributes.flatMap inertAttribute = (attributes.map KeyedAttribute.own).flatMap printAttribute := by
  rw [List.flatMap_map]
  exact List.flatMap_congr fun attr member => inertAttribute_eq (List.all_eq_true.mp tidy attr member)

def Item.tokens : Item → List Html
  | .node it escape => it.tokens escape
  | .closingTag name => [.closing name]

def Item.tidy (keyOf : Text → Text) : Item → Bool
  | .node it escape => it.tidy keyOf escape
  | .closingTag _ => true

theorem tokens_childItems (escape : Bool) (children : List Node) :
    (childItems escape children).flatMap Item.tokens = allTokens escape children := by
  induction children with
  | nil => rfl
  | cons child children ih =>
    rw [allTokens, ← ih]
    rfl

theorem tidy_childItems (escape : Bool) (children : List Node) :
    (childItems escape children).all (Item.tidy keyOf) = allTidy keyOf escape children := by
  induction children with
  | nil => rfl
  | cons child children ih =>
    rw [allTidy, ← ih]
    rfl

/-- The items are written in turn, each as its tokens are printed. -/
theorem writeInert_eq (items : List Item) (html : Text) (tidy : items.all (Item.tidy keyOf) = true) :
    writeInert items html = html ++ (items.flatMap Item.tokens).flatMap Html.print := by
  induction items, html using writeInert.induct with
  | case1 html => simp [writeInert]
  | case2 name items html ih =>
    rw [List.all_cons, Bool.and_eq_true] at tidy
    rw [writeInert, ih tidy.2]
    simp [Item.tokens, Html.print]
  | case3 value escape items html ih =>
    rw [List.all_cons, Bool.and_eq_true] at tidy
    rw [writeInert, ih tidy.2]
    simp [Item.tokens, Node.tokens, Html.print]
  | case4 name attributes children escape items html closing ih =>
    rw [List.all_cons, Bool.and_eq_true, Item.tidy, Node.tidy] at tidy
    simp only [Bool.and_eq_true] at tidy
    rw [writeInert, if_pos closing, ih tidy.2, inertTag, flatMap_inertAttribute tidy.1.1.1.2]
    simp [Item.tokens, Node.tokens, Html.print, closing]
  | case5 name attributes children escape items html closing ih =>
    rw [List.all_cons, Bool.and_eq_true, Item.tidy, Node.tidy] at tidy
    simp only [Bool.and_eq_true] at tidy
    rw [writeInert, if_neg closing, ih, inertTag, flatMap_inertAttribute tidy.1.1.1.2]
    · simp [Item.tokens, Node.tokens, Html.print, closing, ← tokens_childItems]
    · rw [List.all_append, tidy_childItems, List.all_cons, tidy.1.2, tidy.2]
      rfl
  | case6 node escape items html other other' ih =>
    rw [List.all_cons, Bool.and_eq_true] at tidy
    cases node with
    | text value => exact (other value rfl).elim
    | element name attributes children => exact (other' name attributes children rfl).elim
    | comment => simp [writeInert, ih tidy.2, Item.tokens, Node.tokens]
    | fragment children => simp [writeInert, ih tidy.2, Item.tokens, Node.tokens]
    | dynamic toHtml => simp [writeInert, ih tidy.2, Item.tokens, Node.tokens]

/-- What is written as HTML is the static part's tokens. -/
theorem inertElement_eq {node : Node} (tidy : node.tidy keyOf true = true) :
    writeInert [.node node true] [] = (node.tokens true).flatMap Html.print := by
  rw [writeInert_eq _ _ (by rw [List.all_cons, Item.tidy, tidy]; rfl)]
  simp [Item.tokens]

/-! ## The attributes of a tag -/

/-- An attribute as the builder writes it: a `class` and a `style` are trimmed, a `style` ends with `;`. -/
def builtAttribute (attr : Text × Option Text) : Text × Option Text :=
  if attr.1 = "class".toList then (attr.1, attr.2.map fun value => trim (' ' :: value))
  else if attr.1 = "style".toList then (attr.1, attr.2.map fun value => trim (value ++ [';']))
  else attr

def isClass (attr : KeyedAttribute) : Bool := attr.key = "class".toList

def isStyle (attr : KeyedAttribute) : Bool := attr.key = "style".toList

theorem first_eq (attr : KeyedAttribute) : attr.first = (isClass attr || isStyle attr) := rfl

theorem writeAttribute_eq {element : Text} {attr : KeyedAttribute} (tidy : attr.tidy keyOf element = true)
    (static : attr.isStatic = true) (written : Written) :
    writeAttribute keyOf element written attr =
      ⟨written.tag ++ (if attr.first then [] else [attr.own]),
        if isClass attr then ' ' :: attr.own.2.getD [] else written.classes,
        written.styles ++ (if isStyle attr then attr.own.2.getD [] ++ [';'] else []), written.innerHtml⟩ := by
  obtain ⟨key, value⟩ := attr
  by_cases first : (⟨key, value⟩ : KeyedAttribute).first = true
  · rw [KeyedAttribute.tidy, if_pos first] at tidy
    cases value with
    | absent => cases tidy
    | expr value => cases tidy
    | lit value =>
      rw [first_eq, Bool.or_eq_true, isClass, isStyle, decide_eq_true_iff, decide_eq_true_iff] at first
      rcases first with rfl | rfl
      · simp [writeAttribute, AttributeValue.inTag, KeyedAttribute.first, isClass, isStyle, KeyedAttribute.own]
      · simp [writeAttribute, AttributeValue.inTag, KeyedAttribute.first, isClass, isStyle, KeyedAttribute.own]
  · rw [KeyedAttribute.tidy, if_neg first] at tidy
    simp only [Bool.and_eq_true, decide_eq_true_eq] at tidy
    rw [Bool.not_eq_true, first_eq, Bool.or_eq_false_iff] at first
    have notClass : key ≠ "class".toList := by simpa [isClass] using first.1
    have notStyle : key ≠ "style".toList := by simpa [isStyle] using first.2
    have notInner : key ≠ "inner_html".toList := by
      rintro rfl
      exact tidy.1.2 rfl
    rw [first_eq, first.1, first.2, writeAttribute, if_neg notClass, if_neg notStyle, if_neg fun both => notInner both.1]
    cases value with
    | absent => simp [AttributeValue.inTag, KeyedAttribute.own, tidy.2]
    | expr value => cases static
    | lit value => simp [AttributeValue.inTag, KeyedAttribute.own, tidy.2]

theorem foldl_writeAttribute {element : Text} {attributes : List KeyedAttribute}
    (tidy : ∀ attr ∈ attributes, attr.tidy keyOf element = true) (static : ∀ attr ∈ attributes, attr.isStatic = true)
    (written : Written) :
    attributes.foldl (writeAttribute keyOf element) written =
      ⟨written.tag ++ (attributes.filter fun attr => !attr.first).map KeyedAttribute.own,
        ((attributes.filter isClass).map fun attr => ' ' :: attr.own.2.getD []).getLast?.getD written.classes,
        written.styles ++ (attributes.filter isStyle).flatMap fun attr => attr.own.2.getD [] ++ [';'],
        written.innerHtml⟩ := by
  induction attributes generalizing written with
  | nil => simp
  | cons attr attributes ih =>
    rw [List.foldl_cons, ih (fun other member => tidy other (List.mem_cons_of_mem _ member))
      fun other member => static other (List.mem_cons_of_mem _ member),
      writeAttribute_eq (tidy attr List.mem_cons_self) (static attr List.mem_cons_self)]
    cases isFirst : attr.first <;> cases ofClass : isClass attr <;> cases ofStyle : isStyle attr <;>
      simp [isFirst, ofClass, ofStyle, List.getLast?_cons]

theorem filter_perm (attributes : List KeyedAttribute) :
    ((attributes.filter fun attr => !attr.first) ++ (attributes.filter isClass ++ attributes.filter isStyle)).Perm
      attributes := by
  have classes : (attributes.filter KeyedAttribute.first).filter isClass = attributes.filter isClass := by
    rw [List.filter_filter]
    refine List.filter_congr fun attr _ => ?_
    rw [first_eq]
    cases isClass attr <;> simp
  have styles : ((attributes.filter KeyedAttribute.first).filter fun attr => !isClass attr) =
      attributes.filter isStyle := by
    rw [List.filter_filter]
    refine List.filter_congr fun attr _ => ?_
    rw [first_eq, isClass, isStyle]
    by_cases same : attr.key = "class".toList
    · rw [same]
      rfl
    · rw [decide_eq_false same]
      rfl
  have both := List.filter_append_perm isClass (attributes.filter KeyedAttribute.first)
  rw [classes, styles] at both
  exact List.perm_append_comm.trans ((both.append_right _).trans (List.filter_append_perm _ attributes))

theorem sort_perm (attributes : List KeyedAttribute) : (sortAttributes attributes).Perm attributes :=
  List.filter_append_perm KeyedAttribute.first attributes

theorem one_of_key {attributes : List KeyedAttribute} (nodup : (attributes.map KeyedAttribute.key).Nodup) {key : Text}
    (all : ∀ attr ∈ attributes, attr.key = key) : attributes = [] ∨ ∃ attr, attributes = [attr] := by
  cases attributes with
  | nil => exact .inl rfl
  | cons first rest =>
    cases rest with
    | nil => exact .inr ⟨first, rfl⟩
    | cons second rest =>
      rw [List.map_cons, List.nodup_cons] at nodup
      refine absurd ?_ nodup.1
      rw [all first List.mem_cons_self, ← all second (List.mem_cons_of_mem _ List.mem_cons_self)]
      exact List.mem_cons_self

theorem own_of_first {element : Text} {attr : KeyedAttribute} (tidy : attr.tidy keyOf element = true)
    (first : attr.first = true) : ∃ value, attr.own = (attr.key, some value) := by
  obtain ⟨key, value⟩ := attr
  rw [KeyedAttribute.tidy, if_pos first] at tidy
  rw [first_eq, Bool.or_eq_true, isClass, isStyle, decide_eq_true_iff, decide_eq_true_iff] at first
  cases value with
  | absent => cases tidy
  | expr value => cases tidy
  | lit value =>
    refine ⟨value, ?_⟩
    rcases first with rfl | rfl <;> rfl

theorem built_of_not_first {element : Text} {attr : KeyedAttribute} (tidy : attr.tidy keyOf element = true)
    (first : attr.first = false) : builtAttribute attr.own = attr.own := by
  rw [KeyedAttribute.tidy, first, if_neg Bool.false_ne_true] at tidy
  simp only [Bool.and_eq_true, Bool.not_eq_true', first_eq, Bool.or_eq_false_iff, isClass, isStyle,
    decide_eq_false_iff_not] at tidy
  rw [builtAttribute, KeyedAttribute.own, if_neg tidy.1.1.1, if_neg tidy.1.1.2]

/-- The tag has the attributes of the input, in another order. -/
theorem attributesToHtml_perm {element : Text} {attributes : List KeyedAttribute}
    (tidy : attributes.all (KeyedAttribute.tidy keyOf element) = true)
    (nodup : (attributes.map KeyedAttribute.key).Nodup) (static : attributes.all KeyedAttribute.isStatic = true) :
    (attributesToHtml keyOf element (sortAttributes attributes)).1.Perm
        ((attributes.map KeyedAttribute.own).map builtAttribute) ∧
      (attributesToHtml keyOf element (sortAttributes attributes)).2 = [] := by
  have perm := sort_perm attributes
  have tidy : ∀ attr ∈ sortAttributes attributes, attr.tidy keyOf element = true := fun attr member =>
    List.all_eq_true.mp tidy attr (perm.mem_iff.mp member)
  have static : ∀ attr ∈ sortAttributes attributes, attr.isStatic = true := fun attr member =>
    List.all_eq_true.mp static attr (perm.mem_iff.mp member)
  have nodup : ((sortAttributes attributes).map KeyedAttribute.key).Nodup := (perm.map _).nodup_iff.mpr nodup
  rw [attributesToHtml, foldl_writeAttribute tidy static]
  refine ⟨List.Perm.trans ?_ ((perm.map KeyedAttribute.own).map builtAttribute), rfl⟩
  generalize sortAttributes attributes = sorted at tidy nodup
  have filtered (p : KeyedAttribute → Bool) : ((sorted.filter p).map KeyedAttribute.key).Nodup :=
    (List.filter_sublist.map _).nodup nodup
  have classes := one_of_key (filtered isClass) fun attr member => by simpa [isClass] using (List.mem_filter.mp member).2
  have styles := one_of_key (filtered isStyle) fun attr member => by simpa [isStyle] using (List.mem_filter.mp member).2
  have whole := ((filter_perm sorted).map KeyedAttribute.own).map builtAttribute
  refine List.Perm.trans (List.Perm.of_eq ?_) whole
  have others : ((sorted.filter fun attr => !attr.first).map KeyedAttribute.own).map builtAttribute =
      (sorted.filter fun attr => !attr.first).map KeyedAttribute.own := by
    rw [List.map_map]
    refine List.map_congr_left fun attr member => ?_
    obtain ⟨member, notFirst⟩ := List.mem_filter.mp member
    exact built_of_not_first (tidy attr member) (by simpa using notFirst)
  simp only [List.map_append, others, List.nil_append, List.append_assoc]
  congr 1
  have ofClass : ∀ attr, sorted.filter isClass = [attr] → ∃ value, attr.own = ("class".toList, some value) := by
    intro attr one
    obtain ⟨member, is⟩ := List.mem_filter.mp (one ▸ List.mem_cons_self : attr ∈ sorted.filter isClass)
    obtain ⟨value, own⟩ := own_of_first (tidy attr member) (by rw [first_eq, is]; rfl)
    exact ⟨value, by rw [own, show attr.key = "class".toList by simpa [isClass] using is]⟩
  have ofStyle : ∀ attr, sorted.filter isStyle = [attr] → ∃ value, attr.own = ("style".toList, some value) := by
    intro attr one
    obtain ⟨member, is⟩ := List.mem_filter.mp (one ▸ List.mem_cons_self : attr ∈ sorted.filter isStyle)
    obtain ⟨value, own⟩ := own_of_first (tidy attr member) (by rw [first_eq, is, Bool.or_true])
    exact ⟨value, by rw [own, show attr.key = "style".toList by simpa [isStyle] using is]⟩
  congr 1
  · rcases classes with none | ⟨attr, one⟩
    · simp [none]
    · obtain ⟨value, own⟩ := ofClass attr one
      simp [one, own, builtAttribute]
  · rcases styles with none | ⟨attr, one⟩
    · simp [none]
    · obtain ⟨value, own⟩ := ofStyle attr one
      simp [one, own, builtAttribute]

/-! ## Views that are written together -/

theorem allToHtml_append (views more : List Expr) (escape : Bool) (position : Position) :
    allToHtml keyOf (views ++ more) escape position =
      ((allToHtml keyOf views escape position).1 ++
          (allToHtml keyOf more escape (allToHtml keyOf views escape position).2).1,
        (allToHtml keyOf more escape (allToHtml keyOf views escape position).2).2) := by
  induction views generalizing position with
  | nil => rfl
  | cons view views ih => simp [allToHtml, ih]

theorem allToHtml_chunks (views : List Expr) (escape : Bool) (position : Position) :
    allToHtml keyOf (chunks views) escape position = allToHtml keyOf views escape position := by
  induction views using chunks.induct generalizing position with
  | case1 => rw [chunks, if_pos rfl]
  | case2 views some_ ih =>
    conv_rhs => rw [← List.take_append_drop 16 views]
    rw [chunks, if_neg some_, allToHtml, Expr.toHtml, ih, allToHtml_append]

/-- However they are put together, views are written one after the other. -/
theorem together_toHtml (views : List Expr) (escape : Bool) (position : Position) :
    allToHtml keyOf (together views).toList escape position = allToHtml keyOf views escape position := by
  unfold together
  split
  next => rfl
  next => rfl
  next =>
    rw [Option.toList_some, allToHtml, allToHtml, Expr.toHtml, List.append_nil]
    split
    next => exact allToHtml_chunks _ escape position
    next => rfl

theorem inside_toHtml (views : List Expr) (escape : Bool) (position : Position) :
    ((together views).getD (.tuple [])).toHtml keyOf escape position = allToHtml keyOf views escape position := by
  rw [← together_toHtml]
  cases together views with
  | none => rfl
  | some view => simp [allToHtml]

/-! ## The same page -/

def Html.isSeparator : Html → Bool
  | .comment [] => true
  | _ => false

/-- The page without the comments that keep texts apart. -/
def unseparated (html : List Html) : List Html := html.filter fun piece => !piece.isSeparator

/-- A piece of a static part, in the macro's input and as it is built. -/
inductive Html.Alike : Html → Html → Prop
  | tag {name : Text} {own built : List (Text × Option Text)} :
    built.Perm (own.map builtAttribute) → Alike (.tag name own) (.tag name built)
  | closing (name : Text) : Alike (.closing name) (.closing name)
  | text (content : Text) (escape : Bool) : Alike (.text content escape) (.text content escape)

theorem unseparated_separator (position : Position) : unseparated (separator position) = [] := by
  cases position <;> rfl

theorem unseparated_append (html more : List Html) : unseparated (html ++ more) = unseparated html ++ unseparated more :=
  List.filter_append ..

/-- The element is built, where it is not written as HTML. -/
theorem nodeToTokens_built {disableInertHtml topLevel : Bool} {name : Text} {attributes : List KeyedAttribute}
    {children : List Node}
    (built : disableInertHtml = true ∨ (!topLevel && isInertElement (.element name attributes children)) = false) :
    nodeToTokens disableInertHtml topLevel (.element name attributes children) =
      some (.element name (sortAttributes attributes) (if isSelfClosing name then .tuple []
        else (together (childrenToTokens disableInertHtml false children)).getD (.tuple []))) := by
  have elements : (!topLevel && !disableInertHtml && isInertElement (.element name attributes children)) = false := by
    rcases built with rfl | no
    · simp
    · rw [Bool.and_right_comm, no, Bool.false_and]
  rw [nodeToTokens, elements, if_neg Bool.false_ne_true]

mutual

/-- A static part is built as it stands. -/
theorem built_alike {node : Node} (static : node.static = true) {escape : Bool} (tidy : node.tidy keyOf escape = true)
    (topLevel : Bool) (position : Position) :
    List.Forall₂ Html.Alike (node.tokens escape)
      (unseparated (allToHtml keyOf (nodeToTokens true topLevel node).toList escape position).1) := by
  cases node with
  | text value =>
    have written : ¬ (value = [] ∧ escape = true) := by
      rintro ⟨rfl, rfl⟩
      cases tidy
    simp only [Node.tokens, nodeToTokens, Option.toList_some, allToHtml, Expr.toHtml, if_neg written, List.append_nil,
      unseparated_append, unseparated_separator, List.nil_append]
    exact .cons (.text value escape) .nil
  | element name attributes children =>
    rw [Node.static, Bool.and_eq_true] at static
    simp only [Node.tidy, Bool.and_eq_true, beq_iff_eq, decide_eq_true_eq] at tidy
    obtain ⟨⟨⟨⟨escapes, closes⟩, tidyAttributes⟩, nodup⟩, inside⟩ := tidy
    obtain ⟨perm, noHtml⟩ := attributesToHtml_perm tidyAttributes nodup static.1
    rw [nodeToTokens_built (.inl rfl), Option.toList_some, allToHtml, allToHtml, Expr.toHtml, Node.tokens, List.append_nil]
    by_cases closed : isSelfClosing name = true
    · have closing : selfClosing name = true := by rw [← closes, closed]
      rw [if_pos closed, if_pos closing]
      exact .cons (.tag perm) .nil
    · have closing : ¬ selfClosing name = true := by
        rw [← closes]
        exact closed
      have children_alike := built_all_alike static.2 inside false .firstChild
      simp only [if_neg closed, if_neg closing, noHtml, if_true, inside_toHtml, ← escapes]
      rw [List.cons_append, show unseparated (_ :: _) = _ :: unseparated _ from rfl, unseparated_append]
      exact .cons (.tag perm) (List.rel_append children_alike (.cons (.closing name) .nil))
  | comment => cases static
  | fragment children => cases static
  | dynamic toHtml => cases static

theorem built_all_alike {nodes : List Node} (static : allStatic nodes = true) {escape : Bool}
    (tidy : allTidy keyOf escape nodes = true) (topLevel : Bool) (position : Position) :
    List.Forall₂ Html.Alike (allTokens escape nodes)
      (unseparated (allToHtml keyOf (childrenToTokens true topLevel nodes) escape position).1) := by
  cases nodes with
  | nil => exact .nil
  | cons node nodes =>
    rw [allStatic, Bool.and_eq_true] at static
    rw [allTidy, Bool.and_eq_true] at tidy
    rw [childrenToTokens, allToHtml_append, allTokens, unseparated_append]
    exact List.rel_append (built_alike static.1 tidy.1 topLevel position)
      (built_all_alike static.2 tidy.2 topLevel _)

end

/-- `html` writes the page that `built` builds: piece by piece the same, but for static parts, each of which is
one piece, the text of its tokens. -/
inductive Same : (built html : List Html) → Prop
  | nil : Same [] []
  | cons (piece : Html) {built html : List Html} : Same built html → Same (piece :: built) (piece :: html)
  | inert {tokens part built html : List Html} :
    List.Forall₂ Html.Alike tokens (unseparated part) → Same built html →
    Same (part ++ built) (.raw (tokens.flatMap Html.print) :: html)

namespace Same

theorem refl (html : List Html) : Same html html := by
  induction html with
  | nil => exact .nil
  | cons piece html ih => exact .cons piece ih

theorem append {built html built' html' : List Html} (same : Same built html) (same' : Same built' html') :
    Same (built ++ built') (html ++ html') := by
  induction same with
  | nil => exact same'
  | cons piece _ ih => exact .cons piece ih
  | inert alike _ ih =>
    rw [List.append_assoc]
    exact .inert alike ih

end Same

mutual

/-- What is written as HTML is tidy. -/
def Node.inertTidy (keyOf : Text → Text) : (topLevel : Bool) → Node → Bool
  | topLevel, .element name attributes children =>
      if !topLevel && isInertElement (.element name attributes children) then
        Node.tidy keyOf true (.element name attributes children)
      else allInertTidy keyOf false children
  | _, .fragment children => allInertTidy keyOf true children
  | _, _ => true

def allInertTidy (keyOf : Text → Text) (topLevel : Bool) : List Node → Bool
  | [] => true
  | node :: nodes => node.inertTidy keyOf topLevel && allInertTidy keyOf topLevel nodes

end

/-- The same is written, and the next part stands at the same place. -/
def SamePlace (built html : List Html × Position) : Prop := Same built.1 html.1 ∧ built.2 = html.2

theorem SamePlace.refl (html : List Html × Position) : SamePlace html html := ⟨.refl _, rfl⟩

mutual

theorem node_same {node : Node} {topLevel : Bool} (tidy : node.inertTidy keyOf topLevel = true) (escape : Bool)
    (position : Position) :
    SamePlace (allToHtml keyOf (nodeToTokens true topLevel node).toList escape position)
      (allToHtml keyOf (nodeToTokens false topLevel node).toList escape position) := by
  cases node with
  | text value => exact .refl _
  | comment => exact .refl _
  | dynamic toHtml => exact .refl _
  | fragment children =>
    rw [nodeToTokens, nodeToTokens, together_toHtml, together_toHtml]
    exact nodes_same tidy escape position
  | element name attributes children =>
    rw [Node.inertTidy] at tidy
    by_cases inert : (!topLevel && isInertElement (.element name attributes children)) = true
    · rw [if_pos inert] at tidy
      rw [Bool.and_eq_true] at inert
      have tidy' : Node.tidy keyOf escape (.element name attributes children) = true := by
        rw [Node.tidy] at tidy ⊢
        exact tidy
      have alike := built_alike (static_of_isInert inert.2) tidy' topLevel position
      have tokens : (Node.element name attributes children).tokens escape =
          (Node.element name attributes children).tokens true := by rw [Node.tokens, Node.tokens]
      have html : nodeToTokens false topLevel (.element name attributes children) =
          some (.inertElement (((Node.element name attributes children).tokens true).flatMap Html.print)) := by
        rw [nodeToTokens, inert.1, inert.2, inertElementToTokens, inertElement_eq tidy]
        rfl
      rw [html, ← tokens]
      refine ⟨List.append_nil (allToHtml _ _ _ _).1 ▸ .inert alike .nil, ?_⟩
      rw [nodeToTokens_built (.inl rfl), Option.toList_some, allToHtml, allToHtml, Expr.toHtml]
      split <;> rfl
    · rw [if_neg inert] at tidy
      rw [Bool.not_eq_true] at inert
      rw [nodeToTokens_built (.inl rfl), nodeToTokens_built (.inr inert)]
      simp only [Option.toList_some, allToHtml, Expr.toHtml, List.append_nil]
      by_cases closing : selfClosing name = true
      · simp only [if_pos closing]
        exact .refl _
      · simp only [if_neg closing]
        refine ⟨.append (.cons _ ?_) (.refl _), rfl⟩
        split
        next =>
          split
          next => exact .refl _
          next =>
            rw [inside_toHtml, inside_toHtml]
            exact (nodes_same tidy _ _).1
        next => exact .refl _

theorem nodes_same {nodes : List Node} {topLevel : Bool} (tidy : allInertTidy keyOf topLevel nodes = true)
    (escape : Bool) (position : Position) :
    SamePlace (allToHtml keyOf (childrenToTokens true topLevel nodes) escape position)
      (allToHtml keyOf (childrenToTokens false topLevel nodes) escape position) := by
  cases nodes with
  | nil => exact .refl _
  | cons node nodes =>
    rw [allInertTidy, Bool.and_eq_true] at tidy
    obtain ⟨same, place⟩ := node_same tidy.1 escape position
    rw [childrenToTokens, childrenToTokens, allToHtml_append, allToHtml_append, place]
    obtain ⟨same', place'⟩ := nodes_same tidy.2 escape
      (allToHtml keyOf (nodeToTokens false topLevel node).toList escape position).2
    exact ⟨same.append same', place'⟩

end

/-- What a view of the nodes writes, where it stands. -/
def viewHtml (keyOf : Text → Text) (disableInertHtml : Bool) (nodes : List Node) (escape : Bool)
    (position : Position) : List Html × Position :=
  allToHtml keyOf (renderView disableInertHtml nodes).toList escape position

/-- A view whose static parts are written as HTML writes what it writes if all elements are built, and leaves
the same place for the next part: apart from separators between texts, static parts are the text of the
same elements with the same attributes. -/
theorem inert_same (keyOf : Text → Text) (nodes : List Node) (tidy : allInertTidy keyOf true nodes = true)
    (escape : Bool) (position : Position) :
    SamePlace (viewHtml keyOf true nodes escape position) (viewHtml keyOf false nodes escape position) := by
  unfold viewHtml renderView
  split
  next => exact .refl _
  next node =>
    rw [allInertTidy, Bool.and_eq_true] at tidy
    exact node_same tidy.1 escape position
  next =>
    rw [together_toHtml, together_toHtml]
    exact nodes_same tidy escape position

/-- A paragraph with two texts, in an element with a block. -/
theorem inert_same_paragraph :
    let paragraph : Node := .element ['p'] [⟨"id".toList, .lit ['1']⟩, ⟨"class".toList, .lit ['a']⟩]
      [.text ['<'], .text ['b']]
    let nodes : List Node := [.element ['d'] [] [paragraph, .dynamic fun _ _ => ([.text ['x'] true], .nextChildAfterText)]]
    SamePlace (viewHtml id true nodes true .firstChild) (viewHtml id false nodes true .firstChild) := by
  refine inert_same id _ ?_ _ _
  simp [allInertTidy, Node.inertTidy, isInertElement, allInert_eq, allStatic, Node.static, KeyedAttribute.isStatic,
    staticKey, startsWith, Node.tidy, allTidy, KeyedAttribute.tidy, KeyedAttribute.first, KeyedAttribute.hasValue, trimRaw,
    plainName, escapesInert, escapeChildren, selfClosing, isSelfClosing, selfClosingNames]

/-- As HTML, a paragraph has its `inner_html` as an attribute. -/
theorem inner_html_inert :
    let nodes : List Node := [.element ['d'] [] [.element ['p'] [⟨"inner_html".toList, .lit ['<']⟩] []]]
    (viewHtml id true nodes true .firstChild).1.flatMap Html.print = "<d><p><</p></d>".toList ∧
      (viewHtml id false nodes true .firstChild).1.flatMap Html.print =
        "<d><p inner_html=\"&lt;\"></p></d>".toList := by
  have inert : isInertElement (.element ['p'] [⟨"inner_html".toList, .lit ['<']⟩] []) = true := by
    rw [isInertElement, allInert_eq]
    rfl
  have html : writeInert [.node (.element ['p'] [⟨"inner_html".toList, .lit ['<']⟩] []) true] [] =
      "<p inner_html=\"&lt;\"></p>".toList := by
    simp [writeInert, childItems, isSelfClosing, selfClosingNames]
    rfl
  refine ⟨?_, ?_⟩
  · simp only [viewHtml, renderView, nodeToTokens, Bool.not_true, Bool.false_and]
    rfl
  · simp only [viewHtml, renderView, nodeToTokens, childrenToTokens, inert, inertElementToTokens, html]
    rfl

end Halyard.ViewMacro
