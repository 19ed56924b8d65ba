import Halyard.Insertions
import Halyard.Text

/-!
# What is put into the first chunk of a page

`inject_into_first_chunk` of `meta/mod.rs`, and `meta/inject.rs`.

* `splitOnce_first`: the first occurrence of a pattern that starts with its only `<`.
* `insertHeadContent_eq`: the head content goes to an offset in the chunk that it does not change.
-/

namespace Halyard.Meta

open Insertions

/-! ## The source -/

/-- The parts before and after the first occurrence. -/
def splitOnce (pattern : List Char) : List Char → Option (List Char × List Char)
  | [] => if pattern = [] then some ([], []) else none
  | c :: text =>
      if pattern.isPrefixOf (c :: text) then some ([], (c :: text).drop pattern.length)
      else (splitOnce pattern text).map fun parts => (c :: parts.1, parts.2)

def headMarker : List Char := "<!--HEAD-->".toList

def headEnd : List Char := "</head>".toList

def bodyOpen : List Char := "<body".toList

def doctypeStart : List Char := "<!doctype".toList

inductive HeadPlacement
  | afterMarker
  | beforeHeadEnd
  | beforeBody
  | documentStart
  deriving DecidableEq

/-- `White_Space`, which `trim_start` takes off. -/
def isWhiteSpace (c : Char) : Bool :=
  (9 ≤ c.toNat && c.toNat ≤ 13) || c.toNat == 0x20 || c.toNat == 0x85 || c.toNat == 0xA0 ||
    c.toNat == 0x1680 || (0x2000 ≤ c.toNat && c.toNat ≤ 0x200A) || c.toNat == 0x2028 ||
    c.toNat == 0x2029 || c.toNat == 0x202F || c.toNat == 0x205F || c.toNat == 0x3000

/-- `rest.get(.."<!doctype".len())`, compared without regard to case. -/
def startsWithDoctype (rest : List Char) : Bool :=
  ((Text.splitAtChecked rest doctypeStart.length).map fun parts => parts.1.map Char.toLower) ==
    some doctypeStart

def insertHeadContent (chunk head : List Char) : List Char × HeadPlacement :=
  match splitOnce headMarker chunk with
  | some (before, after) => (before ++ headMarker ++ head ++ after, .afterMarker)
  | none =>
      match splitOnce headEnd chunk with
      | some (before, after) => (before ++ head ++ headEnd ++ after, .beforeHeadEnd)
      | none =>
          match splitOnce bodyOpen chunk with
          | some (before, after) => (before ++ head ++ bodyOpen ++ after, .beforeBody)
          | none =>
              let rest := chunk.dropWhile isWhiteSpace
              let leadingSpace := chunk.takeWhile isWhiteSpace
              if startsWithDoctype rest then
                match splitOnce ['>'] rest with
                | some (doctype, after) =>
                    (leadingSpace ++ doctype ++ ['>'] ++ head ++ after, .documentStart)
                | none => (head ++ chunk, .documentStart)
              else (head ++ chunk, .documentStart)

def insertAttributes (chunk tag attributes : List Char) : Option (List Char) :=
  let open_ := '<' :: tag
  (splitOnce open_ chunk).map fun parts => parts.1 ++ open_ ++ attributes ++ parts.2

/-- `with_attributes`, without its warning. -/
def withAttributes (page tag attributes : List Char) : List Char :=
  if attributes = [] then page else (insertAttributes page tag attributes).getD page

/-- What the components of the page have registered. -/
structure ServerMetaContextOutput where
  elements : List (List Char)
  title : Option (List Char)
  html : List (List Char)
  body : List (List Char)

/-- The head content, with `encodeText` of the `html_escape` crate. -/
def ServerMetaContextOutput.head (encodeText : List Char → List Char) (output : ServerMetaContextOutput) :
    List Char :=
  output.elements.flatten ++
    (output.title.map fun title => "<title>".toList ++ encodeText title ++ "</title>".toList).getD []

def htmlTag : List Char := "html".toList

def bodyTag : List Char := "body".toList

def injectIntoFirstChunk (encodeText : List Char → List Char) (output : ServerMetaContextOutput)
    (firstChunk : List Char) : List Char :=
  let head := output.head encodeText
  let page := if head = [] then firstChunk else (insertHeadContent firstChunk head).1
  let page := withAttributes page htmlTag output.html.flatten
  withAttributes page bodyTag output.body.flatten

/-! ## First occurrences -/

theorem splitOnce_some {pattern text before after : List Char}
    (found : splitOnce pattern text = some (before, after)) : text = before ++ pattern ++ after := by
  induction text generalizing before with
  | nil =>
    unfold splitOnce at found
    split at found
    next empty =>
      cases found
      rw [empty]
      rfl
    next => cases found
  | cons c text ih =>
    unfold splitOnce at found
    split at found
    next here =>
      cases found
      obtain ⟨rest, whole⟩ := List.isPrefixOf_iff_prefix.mp here
      rw [← whole, List.drop_left]
      rfl
    next =>
      obtain ⟨⟨front, back⟩, later, same⟩ := Option.map_eq_some_iff.mp found
      cases same
      exact congrArg (c :: ·) (ih later)

theorem splitOnce_none {pattern text : List Char} :
    splitOnce pattern text = none ↔ ¬pattern <:+: text := by
  induction text with
  | nil =>
    rw [splitOnce, List.infix_nil]
    split
    next empty => simp [empty]
    next some_ => simp [some_]
  | cons c text ih =>
    rw [splitOnce, List.infix_cons_iff, ← List.isPrefixOf_iff_prefix]
    split
    next here => simp [here]
    next absent => rw [Option.map_eq_none_iff, ih, or_iff_right absent]

/-- A pattern that has `<` at its start only. -/
structure IsOpen (pattern name : List Char) : Prop where
  whole : pattern = '<' :: name
  noLess : '<' ∉ name
  noGreater : '>' ∉ name

/-- No occurrence of it reaches into the next one. -/
theorem IsOpen.prefix_within {pattern name before after : List Char} (isOpen : IsOpen pattern name)
    (some_ : before ≠ []) (here : pattern <+: before ++ pattern ++ after) : pattern <+: before := by
  have also : before <+: before ++ pattern ++ after := by
    rw [List.append_assoc]
    exact List.prefix_append _ _
  by_contra short
  obtain ⟨tail, parts⟩ : before <+: pattern :=
    (List.prefix_or_prefix_of_prefix also here).resolve_right short
  have more : tail ≠ [] := by
    rintro rfl
    rw [List.append_nil] at parts
    exact short (parts ▸ List.prefix_rfl)
  rw [← parts, List.append_assoc, List.prefix_append_right_inj] at here
  obtain ⟨d, tail, rfl⟩ := List.exists_cons_of_ne_nil more
  obtain ⟨c, before, rfl⟩ := List.exists_cons_of_ne_nil some_
  obtain ⟨rfl, noLess, -⟩ := isOpen
  obtain ⟨rfl, -⟩ := List.cons_prefix_cons.mp (parts ▸ here)
  have name_ := (List.cons.inj parts).2
  rw [← name_] at noLess
  exact noLess (List.mem_append_right _ List.mem_cons_self)

theorem splitOnce_first {pattern name before : List Char} (isOpen : IsOpen pattern name)
    (first : ¬pattern <:+: before) (after : List Char) :
    splitOnce pattern (before ++ pattern ++ after) = some (before, after) := by
  induction before with
  | nil =>
    obtain ⟨rfl, -, -⟩ := isOpen
    rw [List.nil_append, List.cons_append, splitOnce, if_pos, ← List.cons_append, List.drop_left]
    exact List.isPrefixOf_iff_prefix.mpr (List.prefix_append _ after)
  | cons c before ih =>
    rw [List.infix_cons_iff, not_or] at first
    have apart : ¬pattern.isPrefixOf (c :: (before ++ pattern ++ after)) = true := fun here =>
      first.1 (isOpen.prefix_within (List.cons_ne_nil c before) (List.isPrefixOf_iff_prefix.mp here))
    rw [List.cons_append, List.cons_append, splitOnce, if_neg apart, ih first.2]
    rfl

/-- An occurrence in a part is found there or before. -/
theorem splitOnce_of_infix {pattern text : List Char} (some_ : pattern ≠ []) (there : pattern <:+: text)
    (after : List Char) : ∃ before rest, splitOnce pattern (text ++ after) = some (before, rest) ∧
      before.length + pattern.length ≤ text.length := by
  induction text with
  | nil => exact absurd (List.infix_nil.mp there) some_
  | cons c text ih =>
    rw [List.cons_append, splitOnce]
    split
    next here => exact ⟨[], _, rfl, (Nat.zero_add _).trans_le there.length_le⟩
    next absent =>
      have later : pattern <:+: text := by
        refine (List.infix_cons_iff.mp there).resolve_left fun first => absent ?_
        exact List.isPrefixOf_iff_prefix.mpr (first.trans (List.prefix_append _ after))
      obtain ⟨before, rest, found, short⟩ := ih later
      rw [found]
      exact ⟨c :: before, rest, rfl, by rw [List.length_cons, List.length_cons]; omega⟩

/-! ## Offsets -/

/-- Where the head content goes. -/
def headOffset (chunk : List Char) : ℕ :=
  match splitOnce headMarker chunk with
  | some (before, _) => before.length + headMarker.length
  | none =>
      match splitOnce headEnd chunk with
      | some (before, _) => before.length
      | none =>
          match splitOnce bodyOpen chunk with
          | some (before, _) => before.length
          | none =>
              let rest := chunk.dropWhile isWhiteSpace
              let leadingSpace := chunk.takeWhile isWhiteSpace
              if startsWithDoctype rest then
                match splitOnce ['>'] rest with
                | some (doctype, _) => leadingSpace.length + doctype.length + 1
                | none => 0
              else 0

/-- Where an insertion can go without coming inside a tag's name: at the start, after a `>` or before a
`<`. -/
inductive Between (chunk : List Char) : ℕ → Prop
  | start : Between chunk 0
  | after {before rest : List Char} : chunk = before ++ '>' :: rest → Between chunk (before.length + 1)
  | before {before rest : List Char} : chunk = before ++ '<' :: rest → Between chunk before.length

/-- A page with the head content between two parts of the chunk. -/
theorem placed {chunk page head front back : List Char} {offset : ℕ} (whole : chunk = front ++ back)
    (at_ : offset = front.length) (page_eq : page = front ++ head ++ back) (between : Between chunk offset) :
    page = insertAt offset head chunk ∧ Between chunk offset ∧ offset ≤ chunk.length := by
  refine ⟨?_, between, ?_⟩
  · rw [page_eq, whole, at_, insertAt_append]
  · rw [whole, at_, List.length_append]
    exact Nat.le_add_right _ _

theorem placed_start (chunk head : List Char) :
    head ++ chunk = insertAt 0 head chunk ∧ Between chunk 0 ∧ 0 ≤ chunk.length :=
  placed (List.nil_append chunk).symm rfl rfl .start

/-- The head content goes where the chunk has it, and nowhere inside the name of a tag. -/
theorem insertHeadContent_eq (chunk head : List Char) :
    (insertHeadContent chunk head).1 = insertAt (headOffset chunk) head chunk ∧
      Between chunk (headOffset chunk) ∧ headOffset chunk ≤ chunk.length := by
  unfold insertHeadContent headOffset
  split
  next before after found =>
    have whole := splitOnce_some found
    have last : headMarker = "<!--HEAD--".toList ++ ['>'] := by decide
    have between : Between chunk ((before ++ "<!--HEAD--".toList).length + 1) := by
      refine @Between.after _ _ after ?_
      rw [whole, last]
      simp only [List.append_assoc, List.singleton_append]
    have length : before.length + headMarker.length = (before ++ "<!--HEAD--".toList).length + 1 := by
      rw [last, List.length_append, List.length_append]
      rfl
    refine placed whole List.length_append.symm rfl ?_
    rwa [length]
  next =>
    split
    next before after found =>
      have whole := splitOnce_some found
      rw [List.append_assoc] at whole
      exact placed whole rfl (List.append_assoc _ _ _) (.before whole)
    next =>
      split
      next before after found =>
        have whole := splitOnce_some found
        rw [List.append_assoc] at whole
        exact placed whole rfl (List.append_assoc _ _ _) (.before whole)
      next =>
        dsimp only
        split
        next =>
          split
          next doctype after found =>
            have whole : chunk = (chunk.takeWhile isWhiteSpace ++ doctype ++ ['>']) ++ after := by
              have rest := splitOnce_some found
              rw [List.append_assoc, List.append_assoc, ← List.append_assoc doctype, ← rest,
                List.takeWhile_append_dropWhile]
            have between : Between chunk ((chunk.takeWhile isWhiteSpace ++ doctype).length + 1) := by
              refine @Between.after _ _ after (whole.trans ?_)
              rw [List.append_assoc]
              rfl
            refine placed whole ?_ rfl ?_
            · rw [List.length_append, List.length_append]
              rfl
            · rwa [List.length_append] at between
          next => exact placed_start chunk head
        next => exact placed_start chunk head

end Halyard.Meta
