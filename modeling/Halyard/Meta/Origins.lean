import Halyard.Meta.Inject

/-!
# Where the characters of a first chunk come from

`injectMarked` does what `inject_into_first_chunk` does to characters that keep their origin, and
`rightPage` puts the texts in at the places that the chunk has for them: the attributes in its own tags.

* `text_injectMarked`: without the origins, it is what the code makes of the chunk.
* `onlyAdds_iff`: the texts are put in at these places just if no text that is put in before makes a tag
  in front of the chunk's own.
* `head_captures_body`: a head content with `<body` in a script takes the attributes of `<body>`.
-/

namespace Halyard.Meta

open Insertions

inductive Origin
  | chunk
  | head
  | htmlAttributes
  | bodyAttributes
  deriving DecidableEq

abbrev Marked := Char × Origin

def mark (origin : Origin) (text : List Char) : List Marked :=
  text.map fun c => (c, origin)

def textOf (page : List Marked) : List Char :=
  page.map Prod.fst

/-- The end of `<tag` in its first occurrence. -/
def tagEnd (tag page : List Char) : Option ℕ :=
  (splitOnce ('<' :: tag) page).map fun parts => parts.1.length + ('<' :: tag).length

def markedAttributes (page : List Marked) (tag : List Char) (attributes : List Marked) : List Marked :=
  if attributes = [] then page
  else
    match tagEnd tag (textOf page) with
    | some offset => insertAt offset attributes page
    | none => page

def injectMarked (chunk head html body : List Char) : List Marked :=
  let page := mark .chunk chunk
  let page := if head = [] then page else insertAt (headOffset chunk) (mark .head head) page
  let page := markedAttributes page htmlTag (mark .htmlAttributes html)
  markedAttributes page bodyTag (mark .bodyAttributes body)

/-! ## The code on characters -/

theorem textOf_mark (origin : Origin) (text : List Char) : textOf (mark origin text) = text := by
  rw [textOf, mark, List.map_map]
  exact List.map_id text

theorem textOf_insertAt (offset : ℕ) (new page : List Marked) :
    textOf (insertAt offset new page) = insertAt offset (textOf new) (textOf page) := by
  simp only [textOf, insertAt, List.map_append, List.map_take, List.map_drop]

theorem mark_eq_nil {origin : Origin} {text : List Char} : mark origin text = [] ↔ text = [] :=
  List.map_eq_nil_iff

theorem insertAttributes_eq (chunk tag attributes : List Char) :
    insertAttributes chunk tag attributes =
      (tagEnd tag chunk).map fun offset => insertAt offset attributes chunk := by
  rw [insertAttributes, tagEnd, Option.map_map]
  cases found : splitOnce ('<' :: tag) chunk with
  | none => rfl
  | some parts =>
    have whole := splitOnce_some found
    have put := insertAt_append attributes (parts.1 ++ '<' :: tag) parts.2
    rw [List.length_append] at put
    refine congrArg some ?_
    rw [Function.comp_apply, whole]
    exact put.symm

theorem textOf_markedAttributes (page : List Marked) (tag attributes : List Char) (origin : Origin) :
    textOf (markedAttributes page tag (mark origin attributes)) =
      withAttributes (textOf page) tag attributes := by
  rw [markedAttributes, withAttributes, insertAttributes_eq]
  simp only [mark_eq_nil]
  by_cases none : attributes = []
  · rw [if_pos none, if_pos none]
  · rw [if_neg none, if_neg none]
    cases tagEnd tag (textOf page) with
    | none => rfl
    | some offset =>
      change textOf (insertAt offset (mark origin attributes) page) = _
      rw [textOf_insertAt, textOf_mark]
      rfl

theorem text_injectMarked (encodeText : List Char → List Char) (output : ServerMetaContextOutput)
    (chunk : List Char) :
    textOf (injectMarked chunk (output.head encodeText) output.html.flatten output.body.flatten) =
      injectIntoFirstChunk encodeText output chunk := by
  have withHead : textOf (if output.head encodeText = [] then mark .chunk chunk
      else insertAt (headOffset chunk) (mark .head (output.head encodeText)) (mark .chunk chunk)) =
      if output.head encodeText = [] then chunk
      else (insertHeadContent chunk (output.head encodeText)).1 := by
    split
    next => exact textOf_mark _ _
    next => rw [textOf_insertAt, textOf_mark, textOf_mark, (insertHeadContent_eq chunk _).1]
  rw [injectMarked, textOf_markedAttributes, textOf_markedAttributes, withHead]
  rfl

/-! ## The places that the chunk has -/

def attributeInserts {α : Type} (tag chunk : List Char) (attributes : List α) : List (ℕ × List α) :=
  ((tagEnd tag chunk).map fun offset => (offset, attributes)).toList

def headInserts {α : Type} (chunk : List Char) (head : List α) : List (ℕ × List α) :=
  [(headOffset chunk, head)]

def htmlInserts {α : Type} (chunk : List Char) (head html : List α) : List (ℕ × List α) :=
  attributeInserts htmlTag chunk html ++ headInserts chunk head

/-- The attributes in the chunk's own first tags, and the head content at its place. -/
def rightPage (chunk head html body : List Char) : List Marked :=
  weave (attributeInserts bodyTag chunk (mark .bodyAttributes body) ++
    htmlInserts chunk (mark .head head) (mark .htmlAttributes html)) (mark .chunk chunk)

/-- The part of a chunk before its own tag, or all of it. -/
def beforeTag (tag chunk : List Char) : List Char :=
  match splitOnce ('<' :: tag) chunk with
  | some (before, _) => before
  | none => chunk

/-- A tag in front of the chunk's own, made by what is put in. -/
def Captured (tag chunk : List Char) (inserts : List (ℕ × List Char)) : Prop :=
  '<' :: tag <:+: weave inserts (beforeTag tag chunk)

/-- The page is the chunk with the texts put in, each at the place that the chunk has for it. -/
structure OnlyAdds (chunk head html body : List Char) (page : List Marked) : Prop where
  deleted : textOf (page.filter fun marked => marked.2 = .chunk) = chunk
  placed : page = rightPage chunk head html body

/-! ## One tag -/

theorem splitOnce_before {tag chunk before after : List Char}
    (found : splitOnce ('<' :: tag) chunk = some (before, after)) : beforeTag tag chunk = before := by
  rw [beforeTag, found]

theorem mark_append (origin : Origin) (text more : List Char) :
    mark origin (text ++ more) = mark origin text ++ mark origin more :=
  List.map_append

theorem length_mark (origin : Origin) (text : List Char) : (mark origin text).length = text.length :=
  List.length_map _

/-- The first tag of a page, if what is put in leaves the chunk's own tag together. -/
theorem tagEnd_weave {tag chunk before after : List Char} {inserts : List (ℕ × List Char)}
    (isOpen : IsOpen ('<' :: tag) tag) (found : splitOnce ('<' :: tag) chunk = some (before, after))
    (apart : Apart inserts before.length (before.length + ('<' :: tag).length)) :
    (¬Captured tag chunk inserts →
        tagEnd tag (weave inserts chunk) =
          some ((weave inserts before).length + ('<' :: tag).length)) ∧
      (Captured tag chunk inserts → ∃ offset, tagEnd tag (weave inserts chunk) = some offset ∧
        offset ≤ (weave inserts before).length) := by
  have whole := weave_within apart (List.cons_ne_nil '<' tag) after
  rw [← splitOnce_some found] at whole
  unfold Captured
  rw [splitOnce_before found, tagEnd, whole]
  constructor
  · intro first
    rw [splitOnce_first isOpen first]
    rfl
  · intro there
    rw [List.append_assoc]
    obtain ⟨front, rest, split_, short⟩ := splitOnce_of_infix (List.cons_ne_nil '<' tag) there _
    rw [split_]
    exact ⟨_, rfl, short⟩

theorem textOf_weave (inserts : List (ℕ × List Marked)) (chunk : List Char) :
    textOf (weave inserts (mark .chunk chunk)) = weave (mapInserts Prod.fst inserts) chunk := by
  rw [textOf, map_weave, ← textOf, textOf_mark]

theorem apart_mapInserts {α β : Type} {f : α → β} {inserts : List (ℕ × List α)} {first last : ℕ}
    (apart : Apart inserts first last) : Apart (mapInserts f inserts) first last := by
  intro insert mem
  obtain ⟨original, there, rfl⟩ := List.mem_map.mp mem
  exact apart original there

theorem mapInserts_length {inserts : List (ℕ × List Marked)} {text : List Char} :
    (weave (mapInserts Prod.fst inserts) text).length = (weave inserts (mark .chunk text)).length := by
  rw [← textOf_weave, textOf, List.length_map]

theorem attributeInserts_none {α : Type} {tag chunk : List Char} (attributes : List α)
    (absent : splitOnce ('<' :: tag) chunk = none) : attributeInserts tag chunk attributes = [] := by
  rw [attributeInserts, tagEnd, absent]
  rfl

theorem attributeInserts_some {α : Type} {tag chunk before after : List Char} (attributes : List α)
    (found : splitOnce ('<' :: tag) chunk = some (before, after)) :
    attributeInserts tag chunk attributes = [(before.length + ('<' :: tag).length, attributes)] := by
  rw [attributeInserts, tagEnd, found]
  rfl

/-- The page with attributes in the chunk's own tag. -/
theorem weave_attributes {tag chunk before after : List Char} {inserts : List (ℕ × List Marked)}
    (found : splitOnce ('<' :: tag) chunk = some (before, after))
    (apart : Apart inserts before.length (before.length + ('<' :: tag).length)) (attributes : List Marked) :
    weave (attributeInserts tag chunk attributes ++ inserts) (mark .chunk chunk) =
        insertAt ((weave inserts (mark .chunk before)).length + ('<' :: tag).length) attributes
          (weave inserts (mark .chunk chunk)) ∧
      (weave inserts (mark .chunk before)).length + ('<' :: tag).length ≤
        (weave inserts (mark .chunk chunk)).length := by
  have some_ : mark .chunk ('<' :: tag) ≠ [] := List.cons_ne_nil _ _
  have lengths : (mark .chunk before).length + (mark .chunk ('<' :: tag)).length =
      before.length + ('<' :: tag).length := by rw [length_mark, length_mark]
  have apart' : Apart inserts (mark .chunk before).length
      ((mark .chunk before).length + (mark .chunk ('<' :: tag)).length) := by
    rwa [lengths, length_mark]
  have whole : mark .chunk chunk = mark .chunk before ++ mark .chunk ('<' :: tag) ++ mark .chunk after := by
    rw [splitOnce_some found, mark_append, mark_append]
  have page := weave_within apart' some_ (mark .chunk after)
  have more := weave_at_end apart' some_ attributes (mark .chunk after)
  rw [attributeInserts_some attributes found, List.singleton_append, whole, ← lengths, more, page]
  have size : (weave inserts (mark .chunk before)).length + (mark .chunk ('<' :: tag)).length =
      (weave inserts (mark .chunk before) ++ mark .chunk ('<' :: tag)).length := List.length_append.symm
  rw [← length_mark .chunk ('<' :: tag), size]
  constructor
  · rw [insertAt_append]
  · exact (List.prefix_append _ _).length_le

theorem markedAttributes_none {page : List Marked} {tag : List Char} {attributes : List Marked}
    (absent : tagEnd tag (textOf page) = none) : markedAttributes page tag attributes = page := by
  rw [markedAttributes, absent]
  exact ite_self page

theorem markedAttributes_some {page : List Marked} {tag : List Char} {attributes : List Marked} {offset : ℕ}
    (some_ : attributes ≠ []) (found : tagEnd tag (textOf page) = some offset) :
    markedAttributes page tag attributes = insertAt offset attributes page := by
  rw [markedAttributes, if_neg some_, found]

theorem markedAttributes_empty {page : List Marked} {tag : List Char} {origin : Origin} :
    markedAttributes page tag (mark origin []) = page :=
  if_pos rfl

theorem weave_attributeInserts_empty {tag chunk : List Char} {origin : Origin}
    (inserts : List (ℕ × List Marked)) (list : List Marked) :
    weave (attributeInserts tag chunk (mark origin []) ++ inserts) list = weave inserts list := by
  rw [attributeInserts]
  cases tagEnd tag chunk with
  | none => rfl
  | some offset => exact weave_empty offset inserts list

/-- Whether a character is of another origin. -/
def unlike (origin : Origin) (marked : Marked) : Bool :=
  decide (marked.2 ≠ origin)

theorem unlike_mark (origin : Origin) (text : List Char) :
    ∀ marked ∈ mark origin text, unlike origin marked = false := by
  intro marked mem
  obtain ⟨c, _, rfl⟩ := List.mem_map.mp mem
  exact decide_eq_false fun ne => ne rfl

/-- Attributes go into the chunk's own tag just if nothing that was put in before captures them. -/
theorem markedAttributes_weave_iff {tag chunk attributes : List Char} {inserts : List (ℕ × List Marked)}
    {origin : Origin} (isOpen : IsOpen ('<' :: tag) tag)
    (fresh : ∀ marked ∈ weave inserts (mark .chunk chunk), marked.2 ≠ origin)
    (apart : ∀ before after, splitOnce ('<' :: tag) chunk = some (before, after) →
      Apart inserts before.length (before.length + ('<' :: tag).length)) :
    markedAttributes (weave inserts (mark .chunk chunk)) tag (mark origin attributes) =
        weave (attributeInserts tag chunk (mark origin attributes) ++ inserts) (mark .chunk chunk) ↔
      (attributes ≠ [] → ¬Captured tag chunk (mapInserts Prod.fst inserts)) := by
  by_cases none : attributes = []
  · rw [none]
    exact iff_of_true (markedAttributes_empty.trans (weave_attributeInserts_empty _ _).symm)
      fun some_ => absurd rfl some_
  have some_ : mark origin attributes ≠ [] := fun empty => none (mark_eq_nil.mp empty)
  rw [imp_iff_right none]
  cases found : splitOnce ('<' :: tag) chunk with
  | none =>
    rw [attributeInserts_none _ found, List.nil_append, Captured, beforeTag, found]
    dsimp only
    rw [← textOf_weave, ← splitOnce_none]
    cases there : splitOnce ('<' :: tag) (textOf (weave inserts (mark .chunk chunk))) with
    | none =>
      refine iff_of_true (markedAttributes_none ?_) rfl
      rw [tagEnd, there]
      rfl
    | some parts =>
      refine iff_of_false (fun same => ?_) (Option.some_ne_none parts)
      rw [markedAttributes_some some_ (by rw [tagEnd, there]; rfl)] at same
      have lengths := congrArg List.length same
      have positive := List.length_pos_of_ne_nil some_
      rw [length_insertAt] at lengths
      omega
  | some parts =>
    obtain ⟨before, after⟩ := parts
    obtain ⟨right, within⟩ := weave_attributes found (apart before after found) (mark origin attributes)
    obtain ⟨own, other⟩ := tagEnd_weave isOpen found (apart_mapInserts (apart before after found))
    rw [← textOf_weave, mapInserts_length] at own other
    rw [right]
    constructor
    · intro same captured
      obtain ⟨offset, elsewhere, short⟩ := other captured
      rw [markedAttributes_some some_ elsewhere] at same
      have positive : 0 < ('<' :: tag).length := Nat.succ_pos _
      have equal := insertAt_inj some_ (unlike_mark origin attributes)
        (fun marked mem => decide_eq_true (fresh marked mem)) (by omega) within same
      omega
    · intro free
      exact markedAttributes_some some_ (own free)

/-! ## Insertions outside the tags' names -/

theorem getElem?_middle {chunk before pattern after : List Char} (whole : chunk = before ++ pattern ++ after)
    {index : ℕ} (low : before.length ≤ index) (high : index < before.length + pattern.length) :
    chunk[index]? = pattern[index - before.length]? := by
  rw [whole, List.append_assoc, List.getElem?_append_right low, List.getElem?_append_left (by omega)]

/-- Only the first character of an occurrence is a `<`. -/
theorem IsOpen.less_first {pattern name chunk before after : List Char} (isOpen : IsOpen pattern name)
    (whole : chunk = before ++ pattern ++ after) {index : ℕ} (less : chunk[index]? = some '<')
    (low : before.length ≤ index) (high : index < before.length + pattern.length) :
    index = before.length := by
  by_contra other
  rw [getElem?_middle whole low high, isOpen.whole] at less
  obtain ⟨n, position⟩ : ∃ n, index - before.length = n + 1 := ⟨index - before.length - 1, by omega⟩
  rw [position, List.getElem?_cons_succ] at less
  exact isOpen.noLess (List.mem_of_getElem? less)

theorem IsOpen.no_greater {pattern name chunk before after : List Char} (isOpen : IsOpen pattern name)
    (whole : chunk = before ++ pattern ++ after) {index : ℕ} (greater : chunk[index]? = some '>')
    (low : before.length ≤ index) : before.length + pattern.length ≤ index := by
  by_contra high
  rw [getElem?_middle whole low (by omega), isOpen.whole] at greater
  rcases List.mem_cons.mp (List.mem_of_getElem? greater) with same | mem
  · exact absurd same (by decide)
  · exact isOpen.noGreater mem

/-- A tag's name is not where the head content goes. -/
theorem Between.apart {chunk pattern name before after : List Char} {offset : ℕ}
    (between : Between chunk offset) (isOpen : IsOpen pattern name)
    (whole : chunk = before ++ pattern ++ after) :
    offset ≤ before.length ∨ before.length + pattern.length ≤ offset := by
  cases between with
  | start => exact Or.inl (Nat.zero_le _)
  | @after front rest chunk_eq =>
    by_cases low : before.length ≤ front.length
    · have greater : chunk[front.length]? = some '>' := by
        rw [chunk_eq, List.getElem?_append_right le_rfl, Nat.sub_self]
        rfl
      exact Or.inr (Nat.le_succ_of_le (isOpen.no_greater whole greater low))
    · exact Or.inl (by omega)
  | @before front rest chunk_eq =>
    have less : chunk[front.length]? = some '<' := by
      rw [chunk_eq, List.getElem?_append_right le_rfl, Nat.sub_self]
      rfl
    by_cases low : front.length ≤ before.length
    · exact Or.inl low
    · right
      by_contra high
      exact low (isOpen.less_first whole less (by omega) (by omega)).le

theorem isOpen_html : IsOpen ('<' :: htmlTag) htmlTag := ⟨rfl, by decide, by decide⟩

theorem isOpen_body : IsOpen ('<' :: bodyTag) bodyTag := ⟨rfl, by decide, by decide⟩

/-- Nor where the attributes of `<html` go, for `<body`. -/
theorem html_apart {chunk before after front rest : List Char}
    (html : chunk = before ++ '<' :: htmlTag ++ after) (body : chunk = front ++ '<' :: bodyTag ++ rest) :
    before.length + ('<' :: htmlTag).length ≤ front.length ∨
      front.length + ('<' :: bodyTag).length ≤ before.length + ('<' :: htmlTag).length := by
  have sizes : ('<' :: htmlTag).length = 5 ∧ ('<' :: bodyTag).length = 5 := ⟨rfl, rfl⟩
  have htmlLess : chunk[before.length]? = some '<' := by
    rw [getElem?_middle html le_rfl (by omega), Nat.sub_self]
    rfl
  have bodyLess : chunk[front.length]? = some '<' := by
    rw [getElem?_middle body le_rfl (by omega), Nat.sub_self]
    rfl
  by_contra! overlap
  rw [sizes.1, sizes.2] at overlap
  by_cases first : before.length ≤ front.length
  · have same := isOpen_html.less_first html bodyLess first (by omega)
    omega
  · have same := isOpen_body.less_first body htmlLess (by omega) (by omega)
    omega

/-! ## The whole page -/

theorem withHead_eq (chunk head : List Char) :
    (if head = [] then mark .chunk chunk
      else insertAt (headOffset chunk) (mark .head head) (mark .chunk chunk)) =
      weave (headInserts chunk (mark .head head)) (mark .chunk chunk) := by
  split
  next none =>
    rw [none]
    exact ((weave_empty (headOffset chunk) [] (mark .chunk chunk)).trans (weaveFrom_nil 0 _)).symm
  next =>
    have within : headOffset chunk ≤ (mark .chunk chunk).length :=
      (insertHeadContent_eq chunk head).2.2.trans_eq (length_mark _ _).symm
    have woven := weave_single (mark .head head) ((mark .chunk chunk).take (headOffset chunk))
      ((mark .chunk chunk).drop (headOffset chunk))
    rw [List.take_append_drop, List.length_take_of_le within] at woven
    exact woven.symm

theorem apart_head {tag chunk before after : List Char} {head : List Marked}
    (isOpen : IsOpen ('<' :: tag) tag) (found : splitOnce ('<' :: tag) chunk = some (before, after)) :
    Apart (headInserts chunk head) before.length (before.length + ('<' :: tag).length) := by
  have between := (insertHeadContent_eq chunk []).2.1
  exact List.forall_mem_singleton.mpr (between.apart isOpen (splitOnce_some found))

theorem apart_html {chunk before after : List Char} {head html : List Marked}
    (found : splitOnce ('<' :: bodyTag) chunk = some (before, after)) :
    Apart (htmlInserts chunk head html) before.length (before.length + ('<' :: bodyTag).length) := by
  cases there : splitOnce ('<' :: htmlTag) chunk with
  | none =>
    rw [htmlInserts, attributeInserts_none _ there]
    exact apart_head isOpen_body found
  | some parts =>
    rw [htmlInserts, attributeInserts_some _ there]
    exact List.forall_mem_cons.mpr ⟨html_apart (splitOnce_some there) (splitOnce_some found),
      apart_head isOpen_body found⟩

theorem unlike_other {origin other : Origin} (ne : other ≠ origin) (text : List Char) :
    ∀ marked ∈ mark other text, unlike origin marked = true := by
  intro marked mem
  obtain ⟨c, _, rfl⟩ := List.mem_map.mp mem
  exact decide_eq_true ne

theorem mapInserts_head (chunk head : List Char) :
    mapInserts Prod.fst (headInserts chunk (mark .head head)) = headInserts chunk head :=
  congrArg (fun text => [(headOffset chunk, text)]) (textOf_mark .head head)

theorem mapInserts_html (chunk head html : List Char) :
    mapInserts Prod.fst (htmlInserts chunk (mark .head head) (mark .htmlAttributes html)) =
      htmlInserts chunk head html := by
  rw [htmlInserts, htmlInserts, mapInserts, List.map_append, ← mapInserts, ← mapInserts, mapInserts_head]
  refine congrArg (· ++ _) ?_
  rw [attributeInserts, attributeInserts]
  cases tagEnd htmlTag chunk with
  | none => rfl
  | some offset => exact congrArg (fun text => [(offset, text)]) (textOf_mark .htmlAttributes html)

theorem mem_headInserts {chunk head : List Char} {marked : Marked}
    (mem : marked ∈ weave (headInserts chunk (mark .head head)) (mark .chunk chunk)) :
    marked.2 = .chunk ∨ marked.2 = .head := by
  rcases mem_weave mem with mem | ⟨insert, there, mem⟩
  · obtain ⟨c, _, rfl⟩ := List.mem_map.mp mem
    exact Or.inl rfl
  · rw [List.mem_singleton.mp there] at mem
    obtain ⟨c, _, rfl⟩ := List.mem_map.mp mem
    exact Or.inr rfl

theorem mem_htmlInserts {chunk head html : List Char} {marked : Marked}
    (mem : marked ∈ weave (htmlInserts chunk (mark .head head) (mark .htmlAttributes html))
      (mark .chunk chunk)) : marked.2 = .chunk ∨ marked.2 = .head ∨ marked.2 = .htmlAttributes := by
  rcases mem_weave mem with mem | ⟨insert, there, mem⟩
  · obtain ⟨c, _, rfl⟩ := List.mem_map.mp mem
    exact Or.inl rfl
  · rcases List.mem_append.mp there with there | there
    · obtain ⟨offset, -, rfl⟩ := Option.map_eq_some_iff.mp (Option.mem_toList.mp there)
      obtain ⟨c, _, rfl⟩ := List.mem_map.mp mem
      exact Or.inr (Or.inr rfl)
    · rw [List.mem_singleton.mp there] at mem
      obtain ⟨c, _, rfl⟩ := List.mem_map.mp mem
      exact Or.inr (Or.inl rfl)

/-! ## What is put in, and where -/

/-- Nothing of the chunk is changed or left out. -/
theorem markedAttributes_deleted {page : List Marked} {tag text : List Char} {origin : Origin}
    (other : origin ≠ .chunk) :
    (markedAttributes page tag (mark origin text)).filter (fun marked => marked.2 = .chunk) =
      page.filter fun marked => marked.2 = .chunk := by
  have gone : ∀ marked ∈ mark origin text, decide (marked.2 = .chunk) = false := by
    intro marked mem
    obtain ⟨c, _, rfl⟩ := List.mem_map.mp mem
    exact decide_eq_false other
  unfold markedAttributes
  split
  next => rfl
  next =>
    split
    next offset _ => exact filter_insertAt gone offset page
    next => rfl

theorem injectMarked_deleted (chunk head html body : List Char) :
    textOf ((injectMarked chunk head html body).filter fun marked => marked.2 = .chunk) = chunk := by
  have own : (mark .chunk chunk).filter (fun marked => marked.2 = .chunk) = mark .chunk chunk := by
    refine List.filter_eq_self.mpr fun marked mem => ?_
    obtain ⟨c, _, rfl⟩ := List.mem_map.mp mem
    rfl
  have gone : ∀ marked ∈ mark .head head, decide (marked.2 = .chunk) = false := by
    intro marked mem
    obtain ⟨c, _, rfl⟩ := List.mem_map.mp mem
    rfl
  have withHead : (if head = [] then mark .chunk chunk
      else insertAt (headOffset chunk) (mark .head head) (mark .chunk chunk)).filter
        (fun marked => marked.2 = .chunk) = mark .chunk chunk := by
    split
    next => exact own
    next => rw [filter_insertAt gone, own]
  rw [injectMarked, markedAttributes_deleted (by decide), markedAttributes_deleted (by decide), withHead,
    textOf_mark]

/-- Taking the attributes of `<body>` away again. -/
theorem markedAttributes_unlike {page : List Marked} {tag text : List Char} {origin : Origin}
    (fresh : ∀ marked ∈ page, marked.2 ≠ origin) :
    (markedAttributes page tag (mark origin text)).filter (unlike origin) = page := by
  have own : page.filter (unlike origin) = page :=
    List.filter_eq_self.mpr fun marked mem => decide_eq_true (fresh marked mem)
  unfold markedAttributes
  split
  next => exact own
  next =>
    split
    next offset _ => rw [filter_insertAt (unlike_mark origin text), own]
    next => exact own

theorem mem_markedAttributes {page : List Marked} {tag text : List Char} {origin : Origin} {marked : Marked}
    (mem : marked ∈ markedAttributes page tag (mark origin text)) : marked ∈ page ∨ marked.2 = origin := by
  have put : ∀ offset, marked ∈ insertAt offset (mark origin text) page → marked ∈ page ∨ marked.2 = origin := by
    intro offset mem
    rcases List.mem_append.mp mem with mem | mem
    · rcases List.mem_append.mp mem with mem | mem
      · exact Or.inl (List.mem_of_mem_take mem)
      · obtain ⟨c, _, rfl⟩ := List.mem_map.mp mem
        exact Or.inr rfl
    · exact Or.inl (List.mem_of_mem_drop mem)
  unfold markedAttributes at mem
  split at mem
  next => exact Or.inl mem
  next =>
    split at mem
    next offset _ => exact put offset mem
    next => exact Or.inl mem

theorem filterInserts_html (chunk head html : List Char) :
    filterInserts (unlike .bodyAttributes) (htmlInserts chunk (mark .head head) (mark .htmlAttributes html)) =
      htmlInserts chunk (mark .head head) (mark .htmlAttributes html) := by
  have kept : ∀ {other : Origin} (text : List Char), other ≠ .bodyAttributes →
      (mark other text).filter (unlike .bodyAttributes) = mark other text :=
    fun text ne => List.filter_eq_self.mpr (unlike_other ne text)
  refine (List.map_congr_left fun insert mem => ?_).trans (List.map_id _)
  rcases List.mem_append.mp mem with mem | mem
  · obtain ⟨offset, -, rfl⟩ := Option.map_eq_some_iff.mp (Option.mem_toList.mp mem)
    exact congrArg (fun text => (offset, text)) (kept html (by decide))
  · rw [List.mem_singleton.mp mem]
    exact congrArg (fun text => (headOffset chunk, text)) (kept head (by decide))

/-- The right page, without the attributes of `<body>`. -/
theorem rightPage_unlike (chunk head html body : List Char) :
    (rightPage chunk head html body).filter (unlike .bodyAttributes) =
      weave (htmlInserts chunk (mark .head head) (mark .htmlAttributes html)) (mark .chunk chunk) := by
  have gone : (mark .bodyAttributes body).filter (unlike .bodyAttributes) = [] := by
    rw [List.filter_eq_nil_iff]
    intro marked mem
    rw [unlike_mark _ _ marked mem]
    exact Bool.false_ne_true
  rw [rightPage, filter_weave _ (unlike_other (by decide) chunk), filterInserts, List.map_append,
    ← filterInserts, ← filterInserts, filterInserts_html, attributeInserts]
  cases tagEnd bodyTag chunk with
  | none => rfl
  | some offset =>
    change weave ((offset, (mark .bodyAttributes body).filter (unlike .bodyAttributes)) :: _) _ = _
    rw [gone]
    exact weave_empty offset _ _

/-- The texts are put in at the chunk's own places just if none of them captures the attributes that are
put in after it. -/
theorem placed_iff (chunk head html body : List Char) :
    injectMarked chunk head html body = rightPage chunk head html body ↔
      (html ≠ [] → ¬Captured htmlTag chunk (headInserts chunk head)) ∧
        (body ≠ [] → ¬Captured bodyTag chunk (htmlInserts chunk head html)) := by
  have freshHtml : ∀ marked ∈ weave (headInserts chunk (mark .head head)) (mark .chunk chunk),
      marked.2 ≠ .htmlAttributes := by
    intro marked mem
    rcases mem_headInserts mem with origin | origin
    all_goals
      rw [origin]
      decide
  have freshBody : ∀ marked ∈ weave (htmlInserts chunk (mark .head head) (mark .htmlAttributes html))
      (mark .chunk chunk), marked.2 ≠ .bodyAttributes := by
    intro marked mem
    rcases mem_htmlInserts mem with origin | origin | origin
    all_goals
      rw [origin]
      decide
  have htmlIff := @markedAttributes_weave_iff htmlTag chunk html _ _ isOpen_html freshHtml
    fun before after found => apart_head isOpen_html found
  have bodyIff := @markedAttributes_weave_iff bodyTag chunk body _ _ isOpen_body freshBody
    fun before after found => apart_html found
  rw [mapInserts_head] at htmlIff
  rw [mapInserts_html] at bodyIff
  rw [injectMarked, withHead_eq]
  constructor
  · intro same
    have fresh : ∀ marked ∈ markedAttributes (weave (headInserts chunk (mark .head head)) (mark .chunk chunk))
        htmlTag (mark .htmlAttributes html), marked.2 ≠ .bodyAttributes := by
      intro marked mem
      rcases mem_markedAttributes mem with mem | origin
      · rcases mem_headInserts mem with origin | origin
        all_goals
          rw [origin]
          decide
      · rw [origin]
        decide
    have first := congrArg (List.filter (unlike .bodyAttributes)) same
    rw [markedAttributes_unlike fresh, rightPage_unlike] at first
    exact ⟨htmlIff.mp first, bodyIff.mp (first ▸ same)⟩
  · rintro ⟨freeHtml, freeBody⟩
    rw [htmlIff.mpr freeHtml]
    exact bodyIff.mpr freeBody

/-- What `inject_into_first_chunk` makes of a chunk only adds to it, at the chunk's own places, just if no
text that it puts in makes a tag in front of the chunk's own. -/
theorem onlyAdds_iff (encodeText : List Char → List Char) (output : ServerMetaContextOutput)
    (chunk : List Char) :
    let head := output.head encodeText
    let html := output.html.flatten
    let body := output.body.flatten
    textOf (injectMarked chunk head html body) = injectIntoFirstChunk encodeText output chunk ∧
      (OnlyAdds chunk head html body (injectMarked chunk head html body) ↔
        (html ≠ [] → ¬Captured htmlTag chunk (headInserts chunk head)) ∧
          (body ≠ [] → ¬Captured bodyTag chunk (htmlInserts chunk head html))) := by
  intro head html body
  refine ⟨text_injectMarked encodeText output chunk, fun adds => ?_, fun free => ?_⟩
  · exact (placed_iff chunk head html body).mp adds.placed
  · exact ⟨injectMarked_deleted chunk head html body, (placed_iff chunk head html body).mpr free⟩

/-! ## A tag in the head content -/

def scriptWithBody : ServerMetaContextOutput where
  elements := ["<script>'<body>'</script>".toList]
  title := none
  html := []
  body := [" class=a".toList]

/-- The script takes the attributes. -/
theorem head_captures_body : ¬∀ (output : ServerMetaContextOutput) (chunk : List Char),
    OnlyAdds chunk (output.head id) output.html.flatten output.body.flatten
      (injectMarked chunk (output.head id) output.html.flatten output.body.flatten) := by
  intro all
  have placed := (placed_iff _ _ _ _).mp (all scriptWithBody "<head></head><body></body>".toList).placed
  refine placed.2 (by decide) ?_
  unfold Captured
  decide

end Halyard.Meta
