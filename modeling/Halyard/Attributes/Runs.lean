import Halyard.Attributes.Writers

/-!
# Attribute values over runs

An element is built with a list of values and rebuilt with further ones.  Values that share an attribute
can undo or wipe what another one wrote (`wiped_toggle`); where every step's changes follow
(`Follows`), the element is always as it is freshly built (`faithful_of_follows`).
-/

namespace Halyard.Attributes

open Entries

/-! ## Lists of writers -/

def classWrites : (kinds : List Kind) → Values kinds → List (Write (List Char) (List Char) Unit)
  | [], _ => []
  | kind :: rest, values => kind.classWrite values.1 :: classWrites rest values.2

def styleWrites : (kinds : List Kind) → Values kinds → List (Write (List Char) (List Char) (List Char))
  | [], _ => []
  | kind :: rest, values => kind.styleWrite values.1 :: styleWrites rest values.2

def statesOf : (kinds : List Kind) → Values kinds → States kinds
  | [], _ => ()
  | kind :: rest, values => (kind.stateOf values.1, statesOf rest values.2)

def KeepsAll : (kinds : List Kind) → Values kinds → Values kinds → Prop
  | [], _, _ => True
  | kind :: rest, old, new => kind.Keeps old.1 new.1 ∧ KeepsAll rest old.2 new.2

/-- The writes of two lists of values, position by position. -/
def changes {Name Value : Type} (old new : List (Write (List Char) Name Value)) :
    List (Change (List Char) Name Value) :=
  List.zipWith Change.mk old new

theorem map_old_changes {Name Value : Type} {old new : List (Write (List Char) Name Value)}
    (lengths : old.length = new.length) : (changes old new).map Change.old = old := by
  induction old generalizing new with
  | nil => rfl
  | cons write rest ih =>
    cases new with
    | nil => cases lengths
    | cons write' rest' => exact congrArg (write :: ·) (ih (Nat.succ.inj lengths))

theorem map_new_changes {Name Value : Type} {old new : List (Write (List Char) Name Value)}
    (lengths : old.length = new.length) : (changes old new).map Change.new = new := by
  induction old generalizing new with
  | nil =>
    cases new with
    | nil => rfl
    | cons write' rest' => cases lengths
  | cons write rest ih =>
    cases new with
    | nil => cases lengths
    | cons write' rest' => exact congrArg (write' :: ·) (ih (Nat.succ.inj lengths))

theorem length_classWrites (kinds : List Kind) (values : Values kinds) :
    (classWrites kinds values).length = kinds.length := by
  induction kinds with
  | nil => rfl
  | cons kind rest ih => exact congrArg (· + 1) (ih values.2)

theorem length_styleWrites (kinds : List Kind) (values : Values kinds) :
    (styleWrites kinds values).length = kinds.length := by
  induction kinds with
  | nil => rfl
  | cons kind rest ih => exact congrArg (· + 1) (ih values.2)

section Lists

variable (css : Css)

theorem buildList_eq (kinds : List Kind) (values : Values kinds) (el : Element) :
    buildList css kinds values el =
      (⟨classList.onText.buildAll (classWrites kinds values) el.classAttr,
        css.onStyle.buildAll (styleWrites kinds values) el.styleAttr⟩, statesOf kinds values) := by
  induction kinds generalizing el with
  | nil => rfl
  | cons kind rest ih =>
    simp only [buildList, kind.build_eq, ih, classWrites, styleWrites, statesOf, Target.buildAll_cons]

theorem rebuildList_eq (kinds : List Kind) (old new : Values kinds) (keeps : KeepsAll kinds old new)
    (el : Element) :
    rebuildList css kinds new (el, statesOf kinds old) =
      (⟨classList.onText.rebuildAll (changes (classWrites kinds old) (classWrites kinds new))
          el.classAttr,
        css.onStyle.rebuildAll (changes (styleWrites kinds old) (styleWrites kinds new))
          el.styleAttr⟩, statesOf kinds new) := by
  induction kinds generalizing el with
  | nil => rfl
  | cons kind rest ih =>
    simp only [rebuildList, statesOf, kind.rebuild_eq css old.1 new.1 keeps.1, ih old.2 new.2 keeps.2]
    rfl

end Lists

/-! ## Style declarations -/

/-- What is documented of `CssStyleDeclaration`: a value that is read as one declaration of its property
is put among the declarations of the `style` attribute, and the property is taken out of them again.
The format carries the declarations that no shorthand covers. -/
structure Declarations (css : Css) (Decl : Type) [DecidableEq Decl] where
  format : Format (List Char) (List Char) Decl
  read : List Char → List Char → Option Decl
  setProperty_eq : ∀ name value decl held, read name value = some decl →
    css.setProperty name value held = format.onText.put name decl held
  removeProperty_eq : ∀ name value decl held, read name value = some decl →
    css.removeProperty name held = format.onText.take name held

namespace Declarations

variable {css : Css} {Decl : Type} [DecidableEq Decl] (declarations : Declarations css Decl)

def readWrite : Write (List Char) (List Char) (List Char) → Write (List Char) (List Char) Decl
  | .off => .off
  | .text text => .text text
  | .entry name value =>
      match declarations.read name value with
      | some decl => .entry name decl
      | none => .off

def readChange (change : Change (List Char) (List Char) (List Char)) :
    Change (List Char) (List Char) Decl :=
  ⟨declarations.readWrite change.old, declarations.readWrite change.new⟩

/-- A property's value is read as a declaration. -/
def Reads : Write (List Char) (List Char) (List Char) → Prop
  | .off => True
  | .text _ => True
  | .entry name value => declarations.read name value ≠ none

/-- Both values of a change are read, and as different ones if they are. -/
structure ReadsChange (change : Change (List Char) (List Char) (List Char)) : Prop where
  old : declarations.Reads change.old
  new : declarations.Reads change.new
  differ : change.old ≠ change.new →
    declarations.readWrite change.old ≠ declarations.readWrite change.new

variable {declarations}

theorem readWrite_entry {name value : List Char}
    (reads : declarations.Reads (.entry name value)) :
    ∃ decl, declarations.read name value = some decl ∧
      declarations.readWrite (.entry name value) = .entry name decl := by
  obtain ⟨decl, read⟩ := Option.ne_none_iff_exists'.mp reads
  exact ⟨decl, read, by rw [readWrite, read]⟩

theorem readWrite_name {write : Write (List Char) (List Char) (List Char)}
    (reads : declarations.Reads write) : (declarations.readWrite write).name = write.name := by
  cases write with
  | off => rfl
  | text text => rfl
  | entry name value =>
    obtain ⟨decl, _, same⟩ := readWrite_entry reads
    rw [same]
    rfl

theorem readWrite_isText (write : Write (List Char) (List Char) (List Char)) :
    (declarations.readWrite write).isText = write.isText := by
  cases write with
  | off => rfl
  | text text => rfl
  | entry name value =>
    rw [readWrite]
    split <;> rfl

theorem build_read {write : Write (List Char) (List Char) (List Char)}
    (reads : declarations.Reads write) (held : Option (List Char)) :
    css.onStyle.build held write =
      declarations.format.onText.build held (declarations.readWrite write) := by
  cases write with
  | off => rfl
  | text text => rfl
  | entry name value =>
    obtain ⟨decl, read, same⟩ := readWrite_entry reads
    rw [same]
    exact declarations.setProperty_eq name value decl held read

theorem rebuild_read {change : Change (List Char) (List Char) (List Char)}
    (reads : declarations.ReadsChange change) (held : Option (List Char)) :
    css.onStyle.rebuild held change =
      declarations.format.onText.rebuild held (declarations.readChange change) := by
  by_cases same : change.old = change.new
  · rw [Target.rebuild_of_eq _ same, Target.rebuild_of_eq]
    exact congrArg declarations.readWrite same
  have taken : (declarations.readChange change).taken = change.taken := by
    simp only [Change.taken, readChange, readWrite_name reads.old, readWrite_name reads.new]
  have cleared : css.onStyle.clear change held =
      declarations.format.onText.clear (declarations.readChange change) held := by
    rw [Target.clear, Target.clear, taken]
    change _ = if (declarations.readWrite change.old).isText = true then _ else _
    rw [readWrite_isText]
    split
    next => rfl
    next =>
      cases goes : change.taken with
      | none => rfl
      | some name =>
        have named : change.old.name = some name := by
          rw [Change.taken] at goes
          split at goes
          next => cases goes
          next => exact goes
        have old := reads.old
        cases write : change.old with
        | off => rw [write] at named; cases named
        | text text => rw [write] at named; cases named
        | entry name' value =>
          rw [write] at named old
          cases named
          obtain ⟨decl, read, _⟩ := readWrite_entry old
          exact declarations.removeProperty_eq name value decl held read
  have differ : (declarations.readChange change).old ≠ (declarations.readChange change).new :=
    reads.differ same
  rw [Target.rebuild, if_neg same, Target.rebuild, if_neg differ, cleared]
  exact build_read reads.new _

theorem buildAll_read {writes : List (Write (List Char) (List Char) (List Char))}
    (reads : ∀ write ∈ writes, declarations.Reads write) (held : Option (List Char)) :
    css.onStyle.buildAll writes held =
      declarations.format.onText.buildAll (writes.map declarations.readWrite) held := by
  induction writes generalizing held with
  | nil => rfl
  | cons write rest ih =>
    rw [List.map_cons, Target.buildAll_cons, Target.buildAll_cons,
      build_read (reads write List.mem_cons_self)]
    exact ih (fun later there => reads later (List.mem_cons_of_mem _ there)) _

theorem rebuildAll_read {changes : List (Change (List Char) (List Char) (List Char))}
    (reads : ∀ change ∈ changes, declarations.ReadsChange change) (held : Option (List Char)) :
    css.onStyle.rebuildAll changes held =
      declarations.format.onText.rebuildAll (changes.map declarations.readChange) held := by
  induction changes generalizing held with
  | nil => rfl
  | cons change rest ih =>
    rw [List.map_cons, Target.rebuildAll_cons, Target.rebuildAll_cons,
      rebuild_read (reads change List.mem_cons_self)]
    exact ih (fun later there => reads later (List.mem_cons_of_mem _ there)) _

end Declarations

/-! ## Runs -/

section Runs

variable {css : Css} {Decl : Type} [DecidableEq Decl] (declarations : Declarations css Decl)

/-- The style values do not change, or they are all read as declarations and follow one another. -/
def StyleFollows (old new : List (Write (List Char) (List Char) (List Char))) : Prop :=
  old = new ∨ (∀ change ∈ changes old new, declarations.ReadsChange change) ∧
    declarations.format.Follows ((changes old new).map declarations.readChange)

/-- The values that an element's attributes can be rebuilt with. -/
structure Follows (kinds : List Kind) (old new : Values kinds) : Prop where
  keeps : KeepsAll kinds old new
  classes : classList.Follows (changes (classWrites kinds old) (classWrites kinds new))
  styles : StyleFollows declarations (styleWrites kinds old) (styleWrites kinds new)

variable {declarations}

theorem rebuildAll_of_unchanged (target : Target (List Char) (List Char) (List Char) (Option (List Char)))
    (writes : List (Write (List Char) (List Char) (List Char))) (held : Option (List Char)) :
    target.rebuildAll (changes writes writes) held = held := by
  induction writes with
  | nil => rfl
  | cons write rest ih => exact (congrArg (target.rebuildAll _) (target.rebuild_of_eq rfl held)).trans ih

theorem StyleFollows.rebuildAll {old new : List (Write (List Char) (List Char) (List Char))}
    (lengths : old.length = new.length) (follows : StyleFollows declarations old new) :
    css.onStyle.rebuildAll (changes old new) (css.onStyle.buildAll old none) =
      css.onStyle.buildAll new none := by
  rcases follows with rfl | ⟨reads, follows⟩
  · exact rebuildAll_of_unchanged _ old _
  have readOld : ∀ write ∈ old, declarations.Reads write := by
    intro write there
    rw [← map_old_changes lengths] at there
    obtain ⟨change, mem, rfl⟩ := List.mem_map.mp there
    exact (reads change mem).old
  have readNew : ∀ write ∈ new, declarations.Reads write := by
    intro write there
    rw [← map_new_changes lengths] at there
    obtain ⟨change, mem, rfl⟩ := List.mem_map.mp there
    exact (reads change mem).new
  have rebuilt := follows.rebuildAll
  have olds : ((changes old new).map declarations.readChange).map Change.old =
      old.map declarations.readWrite := by
    rw [← congrArg (List.map declarations.readWrite) (map_old_changes lengths), List.map_map,
      List.map_map]
    rfl
  have news : ((changes old new).map declarations.readChange).map Change.new =
      new.map declarations.readWrite := by
    rw [← congrArg (List.map declarations.readWrite) (map_new_changes lengths), List.map_map,
      List.map_map]
    rfl
  rw [olds, news] at rebuilt
  rw [Declarations.rebuildAll_read reads, Declarations.buildAll_read readOld,
    Declarations.buildAll_read readNew]
  exact rebuilt

/-- One rebuild: the element and the states are those of a fresh build with the new values. -/
theorem Follows.rebuildList {kinds : List Kind} {old new : Values kinds}
    (follows : Follows declarations kinds old new) :
    rebuildList css kinds new (buildList css kinds old Element.empty) =
      buildList css kinds new Element.empty := by
  have classLengths := (length_classWrites kinds old).trans (length_classWrites kinds new).symm
  have styleLengths := (length_styleWrites kinds old).trans (length_styleWrites kinds new).symm
  have classes := follows.classes.rebuildAll
  rw [map_old_changes classLengths, map_new_changes classLengths] at classes
  have styles := follows.styles.rebuildAll styleLengths
  rw [buildList_eq, rebuildList_eq css kinds old new follows.keeps, buildList_eq]
  simp only [Element.empty, classes, styles]

/-- The element that is built and rebuilt is the one freshly built with the last values. -/
def Faithful (css : Css) (kinds : List Kind) (first : Values kinds) (further : List (Values kinds)) :
    Prop :=
  (run css kinds first further).1 = fresh css kinds (further.getLastD first)

theorem run_eq {kinds : List Kind} {first : Values kinds} {further : List (Values kinds)}
    (follows : List.IsChain (Follows declarations kinds) (first :: further)) :
    run css kinds first further =
      buildList css kinds (further.getLastD first) Element.empty := by
  induction further generalizing first with
  | nil => rfl
  | cons next rest ih =>
    obtain ⟨step, later⟩ := List.isChain_cons_cons.mp follows
    have moved := ih later
    rw [run, List.foldl_cons, step.rebuildList, List.getLastD_cons]
    exact moved

/-- Rebuilt with values that follow one another, the element is always as freshly built. -/
theorem faithful_of_follows (declarations : Declarations css Decl) (kinds : List Kind)
    (first : Values kinds) (further : List (Values kinds))
    (follows : List.IsChain (Follows declarations kinds) (first :: further)) :
    Faithful css kinds first further :=
  congrArg Prod.fst (run_eq follows)

/-- The texts of two declarations. -/
def parseColor (text : List Char) : List (List Char × Bool) :=
  if text = "color: red;".toList then [("color".toList, true)]
  else if text = "color: blue;".toList then [("color".toList, false)]
  else []

def printColor : List (List Char × Bool) → List Char
  | [] => []
  | (_, red) :: _ => if red then "color: red;".toList else "color: blue;".toList

theorem nodup_parseColor (text : List Char) : (names (parseColor text)).Nodup := by
  unfold parseColor
  split
  next => exact List.nodup_singleton _
  next =>
    split
    next => exact List.nodup_singleton _
    next => exact List.nodup_nil

theorem parseColor_printColor (entries : List (List Char × Bool)) (nodup : (names entries).Nodup)
    (fits : ∀ entry ∈ entries, entry.1 = "color".toList) : parseColor (printColor entries) = entries := by
  rcases entries with _ | ⟨⟨name, red⟩, rest⟩
  · rfl
  have color : name = "color".toList := fits _ List.mem_cons_self
  rcases rest with _ | ⟨second, rest⟩
  · subst color
    cases red <;> rfl
  · have same : second.1 = name :=
      (fits second (List.mem_cons_of_mem _ List.mem_cons_self)).trans color.symm
    simp [names, same] at nodup

def colorFormat : Format (List Char) (List Char) Bool where
  parse := parseColor
  print := printColor
  Fits entry := entry.1 = "color".toList
  eager := false
  nodup_parse := nodup_parseColor
  parse_print := parseColor_printColor

def readColor (name value : List Char) : Option Bool :=
  if name = "color".toList then
    if value = "red".toList then some true else if value = "blue".toList then some false else none
  else none

def setColor (name value : List Char) (held : Option (List Char)) : Option (List Char) :=
  match readColor name value with
  | some decl => colorFormat.onText.put name decl held
  | none => held

def colors : Css := ⟨setColor, colorFormat.onText.take⟩

theorem setColor_eq (name value : List Char) (decl : Bool) (held : Option (List Char))
    (read : readColor name value = some decl) :
    colors.setProperty name value held = colorFormat.onText.put name decl held := by
  change setColor name value held = _
  rw [setColor, read]

def colorDeclarations : Declarations colors Bool where
  format := colorFormat
  read := readColor
  setProperty_eq := setColor_eq
  removeProperty_eq _ _ _ _ _ := rfl

/-- A text that changes wipes the classes that were added to it. -/
theorem wiped_toggle : ¬∀ (css : Css) (kinds : List Kind) (first : Values kinds)
    (further : List (Values kinds)), Faithful css kinds first further := by
  intro all
  have wrong : (⟨some ['b'], none⟩ : Element) = ⟨some ['b', ' ', 'x'], none⟩ :=
    all colors [.text .classes, .toggle] (['a'], (['x'], true), ()) [(['b'], (['x'], true), ())]
  cases wrong

theorem inPlace_on : classList.InPlace
    [⟨.text ['a'], .text ['a']⟩, ⟨.off, .entry ['x'] ()⟩, ⟨.off, .off⟩] where
  texts := by simp [Change.KeepsText, Write.isText]
  added := by simp [Change.added, Write.name]
  replaced := by simp [Change.replaced, Write.name]
  taken := by simp [Change.taken, Write.name]
  leaves := by simp [Change.taken, Change.replaced, Write.name]

theorem inPlace_color : colorFormat.InPlace
    [⟨.off, .off⟩, ⟨.off, .off⟩, ⟨.entry "color".toList true, .entry "color".toList false⟩] where
  texts := by simp [Change.KeepsText, Write.isText]
  added := by simp [Change.added, Write.name]
  replaced := by simp [Change.replaced, Write.name]
  taken := by simp [Change.taken, Write.name]
  leaves _ :=
    { present := by simp
      settles := by simp [Format.settles]
      carries := by simp [Format.Carries, colorFormat] }

theorem anew_text : classList.Anew [] ⟨.text ['a'], .text ['b']⟩
    [⟨.entry ['x'] (), .off⟩, ⟨.off, .off⟩] where
  changed := by simp
  whole := Or.inl rfl
  texts := by simp [Change.KeepsText, Write.isText]
  again := by simp
  taken := by simp [Change.taken, Write.name, Format.Holds, classList]; decide
  leaves _ := by
    have read : addWords (words ['b']) [] = [(['b'], ())] := by decide
    simp [Format.Carries, Format.settles, Format.Printed, classList, read, names]
    decide

theorem faithful_colors : Faithful colors [.text .classes, .toggle, .property]
    (['a'], (['x'], false), ("color".toList, some "red".toList), ())
    [(['a'], (['x'], true), ("color".toList, some "blue".toList), ()),
      (['b'], (['x'], false), ("color".toList, some "blue".toList), ())] := by
  refine faithful_of_follows colorDeclarations _ _ _ (List.isChain_cons_cons.mpr
    ⟨⟨⟨trivial, trivial, rfl, trivial⟩, Or.inl inPlace_on, Or.inr ⟨?_, Or.inl inPlace_color⟩⟩,
      List.isChain_cons_cons.mpr ⟨⟨⟨trivial, trivial, rfl, trivial⟩,
        Or.inr ⟨[], _, _, rfl, anew_text⟩, Or.inl rfl⟩, List.IsChain.singleton _⟩⟩)
  intro change there
  have color : change = ⟨.off, .off⟩ ∨ change =
      ⟨.entry "color".toList "red".toList, .entry "color".toList "blue".toList⟩ := by
    simpa [changes, styleWrites, Kind.styleWrite] using there
  rcases color with rfl | rfl
  · exact ⟨trivial, trivial, fun differ => absurd rfl differ⟩
  · have red : readColor "color".toList "red".toList ≠ none := by decide
    have blue : readColor "color".toList "blue".toList ≠ none := by decide
    exact ⟨red, blue, by decide⟩

end Runs

end Halyard.Attributes
