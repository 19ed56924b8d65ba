import Halyard.Router.Segments
import Mathlib.Data.List.TakeWhile

/-!
# What segments take from a path

`Takes` is what segments read from a text, whatever comes of trying again with fewer optional fields.

* `turn_follows`: a turn of a tuple's loop that matches is a reading of its fields one after another.
* `test_sound`: what `Segments.test` reports of a path, its segments take from the part alone.
-/

namespace Halyard.Router

open String Text

/-! ## What segments take -/

/-- The path has a value for a param. -/
def HasValue : Path → Prop
  | c :: d :: _ => c = '/' ∧ d ≠ '/'
  | _ => False

mutual

/-- The segments read `params` from the text and leave the rest. -/
inductive Takes : Segments → Path → Path → Params → Prop
  | empty {path : Path} : atBoundary path → Takes (.staticSegment []) path path []
  | slash {rest : Path} : Takes (.staticSegment ['/']) ('/' :: rest) ('/' :: rest) []
  | static {segment : List Char} {rest : Path} : segment ≠ [] → segment ≠ ['/'] →
      '/' ∉ staticName segment → atBoundary rest →
      Takes (.staticSegment segment) ('/' :: (staticName segment ++ rest)) rest []
  | param {name : String} {value : List Char} {rest : Path} : value ≠ [] → '/' ∉ value →
      atBoundary rest → Takes (.paramSegment name) ('/' :: (value ++ rest)) rest [(name, value)]
  | optional {name : String} {value : List Char} {rest : Path} : value ≠ [] → '/' ∉ value →
      atBoundary rest → Takes (.optionalParamSegment name) ('/' :: (value ++ rest)) rest [(name, value)]
  | absent {name : String} {path : Path} : ¬HasValue path → Takes (.optionalParamSegment name) path path []
  | wildcard {name : String} {value : List Char} {rest : Path} :
      Takes (.wildcardSegment name) ('/' :: (value ++ rest)) rest [(name, value)]
  | nothing {name : String} {path : Path} : Takes (.wildcardSegment name) path path [(name, [])]
  | tuple {fields : List Segments} {path rest : Path} {params : Params} (kept : ℕ) :
      TakesFields kept fields path rest params → Takes (.tuple fields) path rest params

/-- The fields of a tuple, of whose optional ones only the first `kept` are read. -/
inductive TakesFields : ℕ → List Segments → Path → Path → Params → Prop
  | nil {kept : ℕ} {path : Path} : TakesFields kept [] path path []
  | always {kept : ℕ} {field : Segments} {fields : List Segments} {path middle rest : Path}
      {params others : Params} : field.optional = false → Takes field path middle params →
      TakesFields kept fields middle rest others →
      TakesFields kept (field :: fields) path rest (params ++ others)
  | kept {kept : ℕ} {field : Segments} {fields : List Segments} {path middle rest : Path}
      {params others : Params} : field.optional = true → Takes field path middle params →
      TakesFields kept fields middle rest others →
      TakesFields (kept + 1) (field :: fields) path rest (params ++ others)
  | dropped {field : Segments} {fields : List Segments} {path rest : Path} {params : Params} :
      field.optional = true → TakesFields 0 fields path rest params →
      TakesFields 0 (field :: fields) path rest params

end

/-- A route hands on nothing, or the slash that what is left begins with. -/
def Hands (handed below : Path) : Prop :=
  handed = [] ∨ handed = ['/'] ∧ handed <+: below

theorem Hands.starts {handed below : Path} (hands : Hands handed below) : handed <+: below := by
  rcases hands with rfl | ⟨-, pre⟩
  · exact List.nil_prefix
  · exact pre

theorem Hands.length_le {handed below : Path} (hands : Hands handed below) : handed.length ≤ 1 := by
  rcases hands with rfl | ⟨rfl, -⟩ <;> simp

/-- The reported match is a part of the path and perhaps a slash that it leaves, and the segments take
its params from any text that holds the part and goes on like the path. -/
structure Sound (segments : Segments) (path taken handed : Path) (partialMatch : PartialPathMatch) :
    Prop where
  path : path = taken ++ partialMatch.remaining
  matched : partialMatch.matched = taken ++ handed
  hands : Hands handed partialMatch.remaining
  takes : ∀ next, next <+: partialMatch.remaining → handed.length ≤ next.length →
    Takes segments (taken ++ next) next partialMatch.params
  -- only a wildcard takes a slash at the end of its part, and it takes everything
  ends : taken.getLast? = some '/' → partialMatch.remaining = []
  reported : handed ≠ [] → .staticSegment ['/'] ∈ segments.leaves

/-! ## One segment -/

theorem stripPrefix_eq {pre path rest : Path} (stripped : stripPrefix pre path = some rest) :
    path = pre ++ rest := by
  induction pre generalizing path with
  | nil => simpa [stripPrefix] using stripped
  | cons c pre ih =>
    cases path with
    | nil => simp [stripPrefix] at stripped
    | cons d path =>
      simp only [stripPrefix] at stripped
      split at stripped
      next same => rw [same, ih stripped, List.cons_append]
      next => cases stripped

theorem atBoundary_left {next rest : Path} (pre : next <+: rest) (boundary : atBoundary rest) :
    atBoundary next := by
  obtain ⟨more, rfl⟩ := pre
  cases next with
  | nil => rfl
  | cons c next => exact boundary

theorem hasValue_left {next rest : Path} (pre : next <+: rest) (value : HasValue next) :
    HasValue rest := by
  obtain ⟨more, rfl⟩ := pre
  rcases next with _ | ⟨c, _ | ⟨d, next⟩⟩
  · exact value.elim
  · exact value.elim
  · exact value

theorem take_sub (taken rest : Path) :
    (taken ++ rest).take ((taken ++ rest).length - rest.length) = taken := by
  simp

theorem staticName_ne_nil {segment : List Char} (some_ : segment ≠ []) (name : segment ≠ ['/']) :
    staticName segment ≠ [] := by
  unfold staticName
  split
  · rintro rfl
    exact name rfl
  · exact some_

/-- A slash and a name without one do not end with a slash. -/
theorem getLast?_name {name : List Char} (some_ : name ≠ []) (plain : '/' ∉ name) :
    ('/' :: name).getLast? ≠ some '/' := by
  rw [List.getLast?_cons_of_ne_nil some_]
  exact fun last => plain (List.mem_of_getLast? last)

theorem staticTest_sound {segment : List Char} {path : Path} {partialMatch : PartialPathMatch}
    (tested : staticTest segment path = some partialMatch) :
    ∃ taken handed, Sound (.staticSegment segment) path taken handed partialMatch := by
  unfold staticTest at tested
  split at tested
  next empty =>
    subst empty
    split at tested
    next boundary =>
      cases tested
      exact ⟨[], [], rfl, rfl, .inl rfl,
        fun next pre _ => .empty (atBoundary_left pre boundary), by simp, by simp⟩
    next => cases tested
  next some_ =>
    split at tested
    next slash =>
      subst slash
      split at tested
      next starts =>
        cases tested
        obtain ⟨rest, rfl⟩ : ∃ rest, path = '/' :: rest := by
          cases path with
          | nil => cases starts
          | cons c rest => exact ⟨rest, by simpa using starts⟩
        refine ⟨[], ['/'], rfl, rfl, .inr ⟨rfl, by simp⟩, fun next pre long => ?_, by simp,
          fun _ => List.mem_singleton_self _⟩
        obtain ⟨more, rfl⟩ : ∃ more, next = '/' :: more := by
          cases next with
          | nil => simp at long
          | cons c more => exact ⟨more, by rw [(List.cons_prefix_cons.mp pre).1]⟩
        exact .slash
      next => cases tested
    next name =>
      obtain ⟨rest, stripped, tested⟩ := Option.bind_eq_some_iff.mp tested
      have whole := stripPrefix_eq stripped
      split at tested
      next => cases tested
      next plain =>
        obtain ⟨remaining, named, tested⟩ := Option.bind_eq_some_iff.mp tested
        have split_ : path = ('/' :: staticName segment) ++ remaining := by
          rw [whole, stripPrefix_eq named]
          rfl
        split at tested
        next boundary =>
          cases tested
          refine ⟨'/' :: staticName segment, [], split_, ?_, .inl rfl,
            fun next pre _ => .static some_ name plain (atBoundary_left pre boundary), ?_, by simp⟩
          · rw [split_, take_sub, List.append_nil]
          · exact fun last => absurd last (getLast?_name (staticName_ne_nil some_ name) plain)
        next => cases tested

/-- A text is cut before its first slash, which is never within a character. -/
theorem splitValue_eq (rest : Path) :
    splitValue rest = some (rest.takeWhile (· ≠ '/'), rest.dropWhile (· ≠ '/')) := by
  unfold splitValue
  cases found : find '/' rest with
  | some mid => exact splitAtChecked_find found
  | none =>
    have absent : '/' ∉ rest := by
      intro present
      rw [find_eq_some present] at found
      cases found
    have plain : ∀ c ∈ rest, decide (c ≠ '/') = true := fun c member =>
      decide_eq_true fun same => absent (same ▸ member)
    rw [List.takeWhile_eq_self_iff.mpr plain, List.dropWhile_eq_nil_iff.mpr plain]

theorem firstSegment_eq {path matched : Path} {value : List Char} {remaining : Path}
    (first : firstSegment path = some (matched, value, remaining)) :
    path = '/' :: (value ++ remaining) ∧ matched = '/' :: value ∧ '/' ∉ value ∧
      atBoundary remaining := by
  obtain ⟨rest, stripped, first⟩ := Option.bind_eq_some_iff.mp first
  obtain ⟨parts, cut, whole⟩ := Option.bind_eq_some_iff.mp first
  rw [splitValue_eq, Option.some.injEq] at cut
  obtain ⟨taken, named, left⟩ : path.take (path.length - (rest.dropWhile (· ≠ '/')).length) = matched ∧
      rest.takeWhile (· ≠ '/') = value ∧ rest.dropWhile (· ≠ '/') = remaining := by
    simpa [← cut] using whole
  have split_ : path = ('/' :: value) ++ remaining := by
    rw [stripPrefix_eq stripped, ← named, ← left]
    simp
  refine ⟨split_, ?_, ?_, ?_⟩
  · rw [← taken, left, split_, take_sub]
  · intro slash
    rw [← named] at slash
    simpa using List.mem_takeWhile_imp slash
  · cases rest_ : remaining with
    | nil => rfl
    | cons c more =>
      have head := List.head?_dropWhile_not (· ≠ '/') rest
      rw [left, rest_] at head
      simpa [atBoundary] using head

theorem paramTest_sound {name : String} {path : Path} {partialMatch : PartialPathMatch}
    (tested : paramTest name path = some partialMatch) :
    ∃ taken handed, Sound (.paramSegment name) path taken handed partialMatch := by
  obtain ⟨⟨matched, value, remaining⟩, first, found⟩ := Option.bind_eq_some_iff.mp tested
  obtain ⟨whole, rfl, plain, boundary⟩ := firstSegment_eq first
  dsimp only at found
  split at found
  next => cases found
  next some_ =>
    cases found
    exact ⟨'/' :: value, [], whole, (List.append_nil _).symm, .inl rfl,
      fun next pre _ => .param some_ plain (atBoundary_left pre boundary),
      fun last => absurd last (getLast?_name some_ plain), by simp⟩

theorem not_hasValue {path matched : Path} {remaining : Path}
    (first : firstSegment path = some (matched, [], remaining)) : ¬HasValue path := by
  obtain ⟨rfl, -, -, boundary⟩ := firstSegment_eq first
  cases remaining with
  | nil => exact id
  | cons c more =>
    intro value
    exact value.2 (by simpa [atBoundary] using boundary)

theorem not_hasValue_of_none {path : Path} (first : firstSegment path = none) : ¬HasValue path := by
  rcases path with _ | ⟨c, _ | ⟨d, path⟩⟩
  · exact id
  · exact id
  · rintro ⟨rfl, -⟩
    simp [firstSegment, stripPrefix, splitValue_eq] at first

theorem optionalParamTest_sound {name : String} {path : Path} {partialMatch : PartialPathMatch}
    (tested : optionalParamTest name path = some partialMatch) :
    ∃ taken handed, Sound (.optionalParamSegment name) path taken handed partialMatch := by
  have absent (none_ : ¬HasValue path) :
      Sound (.optionalParamSegment name) path [] [] ⟨path, [], []⟩ :=
    ⟨rfl, rfl, .inl rfl, fun next pre _ => .absent fun value => none_ (hasValue_left pre value),
      by simp, by simp⟩
  unfold optionalParamTest at tested
  split at tested
  next matched value remaining first =>
    split at tested
    next empty =>
      cases tested
      exact ⟨[], [], absent (not_hasValue (empty ▸ first))⟩
    next some_ =>
      cases tested
      obtain ⟨whole, rfl, plain, boundary⟩ := firstSegment_eq first
      exact ⟨'/' :: value, [], whole, (List.append_nil _).symm, .inl rfl,
        fun next pre _ => .optional some_ plain (atBoundary_left pre boundary),
        fun last => absurd last (getLast?_name some_ plain), by simp⟩
  next first =>
    cases tested
    exact ⟨[], [], absent (not_hasValue_of_none first)⟩

theorem wildcardTest_sound {name : String} {path : Path} {partialMatch : PartialPathMatch}
    (tested : wildcardTest name path = some partialMatch) :
    ∃ taken handed, Sound (.wildcardSegment name) path taken handed partialMatch := by
  obtain ⟨value, valued, rfl⟩ := Option.map_eq_some_iff.mp tested
  refine ⟨path, [], (List.append_nil _).symm, (List.append_nil _).symm, .inl rfl,
    fun next pre _ => ?_, fun _ => rfl, by simp⟩
  have end_ : next = [] := List.prefix_nil.mp pre
  subst end_
  split at valued
  next empty =>
    subst empty
    cases valued
    exact .nothing
  next =>
    rw [stripPrefix_eq valued]
    exact @Takes.wildcard name value []

/-! ## Tuples of segments -/

/-- The matched prefix ends where the fields so far have, or after the slash that comes next. -/
def MatchedPrefix.At (pre : MatchedPrefix) (before r : Path) : Prop :=
  pre.path = before ++ r ∧
    (pre.end = utf8Len before ∨ pre.end = utf8Len before + 1 ∧ r.head? = some '/')

theorem MatchedPrefix.At.cut {pre : MatchedPrefix} {before r : Path} (at_ : pre.At before r) :
    ∃ handed, Hands handed r ∧
      splitAtChecked pre.path pre.end = some (before ++ handed, r.drop handed.length) ∧
      pre.end = utf8Len before + utf8Len handed := by
  obtain ⟨whole, ends⟩ := at_
  rcases ends with ends | ⟨ends, head⟩
  · refine ⟨[], .inl rfl, ?_, by simpa using ends⟩
    rw [whole, ends, splitAtChecked_append]
    simp
  · obtain ⟨rest, rfl⟩ : ∃ rest, r = '/' :: rest := by
      cases r with
      | nil => cases head
      | cons c rest => exact ⟨rest, by simpa using head⟩
    have size : pre.end = utf8Len (before ++ ['/']) := by
      rw [ends, utf8Len_append]
      rfl
    refine ⟨['/'], .inr ⟨rfl, by simp⟩, ?_, by rw [size, utf8Len_append]⟩
    have cut := splitAtChecked_append (before ++ ['/']) rest
    rwa [List.append_assoc, List.singleton_append, ← whole, ← size] at cut

theorem MatchedPrefix.At.matched {pre : MatchedPrefix} {before r matched : Path} (at_ : pre.At before r)
    (found : pre.matched = some matched) :
    ∃ handed, matched = before ++ handed ∧ Hands handed r ∧
      pre.end = utf8Len before + utf8Len handed := by
  obtain ⟨handed, hands, cut, ends⟩ := at_.cut
  rw [MatchedPrefix.matched, cut] at found
  exact ⟨handed, (Option.some.inj found).symm, hands, ends⟩

/-- What a segment hands on is not longer than a text that covers it. -/
theorem Hands.covered {handed below text : Path} (hands : Hands handed below)
    (size : utf8Len handed ≤ utf8Len text) : handed.length ≤ text.length := by
  cases text with
  | nil =>
    have none_ : handed = [] := by simpa using size
    rw [none_]
  | cons c text =>
    have := hands.length_le
    rw [List.length_cons]
    omega

theorem MatchedPrefix.At.record {pre pre' : MatchedPrefix} {before r : Path} (at_ : pre.At before r)
    {segments : Segments} {taken handed : Path} {part : PartialPathMatch}
    (sound : Sound segments r taken handed part)
    (recorded : pre.record r part.matched part.remaining = some pre') :
    pre'.At (before ++ taken) part.remaining ∧ pre.end ≤ pre'.end ∧
      utf8Len before + utf8Len taken + utf8Len handed ≤ pre'.end ∧
      (utf8Len (before ++ taken) < pre'.end → utf8Len before < pre.end ∨ handed ≠ []) := by
  obtain ⟨whole, ends⟩ := at_
  unfold MatchedPrefix.record at recorded
  split at recorded
  next => cases recorded
  next =>
    cases recorded
    have sizes : utf8Len pre.path = utf8Len before + utf8Len taken + utf8Len part.remaining := by
      rw [whole, sound.path]
      simp only [utf8Len_append]
      omega
    have input : utf8Len r = utf8Len taken + utf8Len part.remaining := by
      rw [sound.path, utf8Len_append]
    have reported : utf8Len part.matched = utf8Len taken + utf8Len handed := by
      rw [sound.matched, utf8Len_append]
    refine ⟨⟨?_, ?_⟩, ?_, ?_, ?_⟩
    · rw [List.append_assoc, ← sound.path]
      exact whole
    · simp only [utf8Len_append]
      rcases sound.hands with rfl | ⟨rfl, more, left⟩
      · by_cases empty : taken = []
        · subst empty
          have same : r = part.remaining := sound.path
          rcases ends with ends | ⟨ends, head⟩
          · left
            simp only [utf8Len_nil] at reported input sizes ⊢
            omega
          · right
            refine ⟨?_, same ▸ head⟩
            simp only [utf8Len_nil] at reported input sizes ⊢
            omega
        · left
          have : utf8Len taken ≠ 0 := fun size => empty (utf8Len_eq_zero.mp size)
          simp only [utf8Len_nil] at reported
          omega
      · right
        have one : utf8Len ['/'] = 1 := rfl
        refine ⟨?_, by rw [← left]; rfl⟩
        omega
    · dsimp only
      omega
    · dsimp only
      omega
    · intro beyond
      by_cases none_ : handed = []
      · left
        subst none_
        simp only [utf8Len_append, utf8Len_nil] at beyond reported
        omega
      · exact .inr none_

/-- What a turn makes of the fields that are left: they take `own` from `taken`. -/
structure Follows (kept : ℕ) (fields : List Segments) (pre : MatchedPrefix) (before r : Path)
    (p : Params) (partialMatch : PartialPathMatch) (taken handed : Path) (own : Params) : Prop where
  path : r = taken ++ partialMatch.remaining
  matched : partialMatch.matched = before ++ taken ++ handed
  hands : Hands handed partialMatch.remaining
  params : partialMatch.params = p ++ own
  reaches : pre.end ≤ utf8Len before + utf8Len taken + utf8Len handed
  takes : ∀ next, next <+: partialMatch.remaining → handed.length ≤ next.length →
    TakesFields kept fields (taken ++ next) next own
  ends : taken.getLast? = some '/' → partialMatch.remaining = []
  reported : handed ≠ [] →
    utf8Len before < pre.end ∨ .staticSegment ['/'] ∈ Segments.allLeaves fields

/-- A turn that matches has gone on to the next field, over this one or without it. -/
theorem turn_cons {includeOptionals : ℕ} {field : Field} {fields : List Field} {first : Bool} {nth : ℕ}
    {pre : MatchedPrefix} {r : Path} {p : Params} {partialMatch : PartialPathMatch}
    (turned : turn includeOptionals (field :: fields) first nth pre r p = .matched partialMatch) :
    (∃ nth' part pre', (field.optional = false ∧ nth' = nth ∨
          field.optional = true ∧ nth' = nth + 1 ∧ nth + 1 ≤ includeOptionals) ∧
        field.test r = some part ∧ pre.record r part.matched part.remaining = some pre' ∧
        turn includeOptionals fields false nth' pre' part.remaining (p ++ part.params) =
          .matched partialMatch) ∨
      field.optional = true ∧ includeOptionals < nth + 1 ∧
        turn includeOptionals fields false (nth + 1) pre r p = .matched partialMatch := by
  cases optional : field.optional with
  | false =>
    cases tested : field.test r with
    | none => cases first <;> simp [turn, optional, tested] at turned
    | some part =>
      cases recorded : pre.record r part.matched part.remaining with
      | none => simp [turn, optional, tested, recorded] at turned
      | some pre' =>
        exact .inl ⟨nth, part, pre', .inl ⟨rfl, rfl⟩, rfl, recorded,
          by simpa [turn, optional, tested, recorded] using turned⟩
  | true =>
    by_cases early : nth + 1 ≤ includeOptionals
    · cases tested : field.test r with
      | none => simp [turn, optional, early, tested] at turned
      | some part =>
        cases recorded : pre.record r part.matched part.remaining with
        | none => simp [turn, optional, early, tested, recorded] at turned
        | some pre' =>
          exact .inl ⟨nth + 1, part, pre', .inr ⟨rfl, rfl, early⟩, rfl, recorded,
            by simpa [turn, optional, early, tested, recorded] using turned⟩
    · exact .inr ⟨rfl, by omega, by simpa [turn, optional, early] using turned⟩

theorem turn_follows {includeOptionals : ℕ} {fields : List Segments}
    (sound : ∀ field ∈ fields, ∀ path partialMatch, field.test path = some partialMatch →
      ∃ taken handed, Sound field path taken handed partialMatch)
    {first : Bool} {nth : ℕ} {pre : MatchedPrefix} {before r : Path} {p : Params}
    {partialMatch : PartialPathMatch} (at_ : pre.At before r)
    (turned : turn includeOptionals (Segments.fields fields) first nth pre r p = .matched partialMatch) :
    ∃ taken handed own,
      Follows (includeOptionals - nth) fields pre before r p partialMatch taken handed own := by
  induction fields generalizing first nth pre before r p with
  | nil =>
    simp only [Segments.fields, turn] at turned
    split at turned
    next matched found =>
      cases turned
      obtain ⟨handed, rfl, hands, ends⟩ := at_.matched found
      refine ⟨[], handed, [], rfl, by simp, hands, by simp, by simpa using ends.le,
        fun next _ _ => .nil, by simp, fun some_ => .inl ?_⟩
      have : utf8Len handed ≠ 0 := fun size => some_ (utf8Len_eq_zero.mp size)
      omega
    next => cases turned
  | cons field fields ih =>
    have soundRest := fun other member => sound other (List.mem_cons_of_mem field member)
    simp only [Segments.fields] at turned
    rcases turn_cons turned with ⟨nth', part, pre', counted, tested, recorded, turned⟩ |
      ⟨optional, late, turned⟩
    · obtain ⟨taken, handed, fieldSound⟩ := sound field List.mem_cons_self r part tested
      obtain ⟨at', grows, covers, beyond⟩ := at_.record fieldSound recorded
      obtain ⟨others, handed', own, rest⟩ := ih soundRest at' turned
      have reaches := rest.reaches
      simp only [utf8Len_append] at reaches
      refine ⟨taken ++ others, handed', part.params ++ own, ?_, ?_, rest.hands, ?_, ?_, ?_, ?_, ?_⟩
      · rw [fieldSound.path, rest.path, List.append_assoc]
      · rw [rest.matched]
        simp only [List.append_assoc]
      · rw [rest.params, List.append_assoc]
      · simp only [utf8Len_append]
        omega
      · intro next pre_ long
        have fieldTakes : Takes field (taken ++ (others ++ next)) (others ++ next) part.params := by
          refine fieldSound.takes _ ?_ ?_
          · rw [rest.path]
            exact (List.prefix_append_right_inj others).mpr pre_
          · have short : handed.length ≤ (others ++ handed').length :=
              fieldSound.hands.covered (by rw [utf8Len_append]; omega)
            rw [List.length_append] at short ⊢
            omega
        have restTakes := rest.takes next pre_ long
        rw [List.append_assoc]
        rcases counted with ⟨always, rfl⟩ | ⟨optional, rfl, early⟩
        · exact .always always fieldTakes restTakes
        · have count : includeOptionals - nth = (includeOptionals - (nth + 1)) + 1 := by omega
          rw [count]
          exact .kept optional fieldTakes restTakes
      · intro last
        cases others with
        | nil =>
          have none_ := fieldSound.ends (by simpa using last)
          rw [rest.path] at none_
          exact none_
        | cons c others =>
          refine rest.ends ?_
          rw [List.getLast?_append_of_ne_nil taken (by simp)] at last
          exact last
      · intro some_
        rcases rest.reported some_ with told | member
        · rcases beyond told with told | own
          · exact .inl told
          · exact .inr (List.mem_append_left _ (fieldSound.reported own))
        · exact .inr (List.mem_append_right _ member)
    · obtain ⟨taken, handed, own, rest⟩ := ih soundRest at_ turned
      refine ⟨taken, handed, own, rest.path, rest.matched, rest.hands, rest.params, rest.reaches,
        fun next pre_ long => ?_, rest.ends, fun some_ => (rest.reported some_).imp_right
          (List.mem_append_right _)⟩
      have restTakes := rest.takes next pre_ long
      have none_ : includeOptionals - nth = 0 := by omega
      have none' : includeOptionals - (nth + 1) = 0 := by omega
      rw [none'] at restTakes
      rw [none_]
      exact .dropped optional restTakes

theorem tupleTestFrom_matched {fields : List Field} {path : Path} {includeOptionals : ℕ}
    {partialMatch : PartialPathMatch}
    (tested : tupleTestFrom fields path includeOptionals = some partialMatch) :
    ∃ included, turn included fields true 0 ⟨path, 0⟩ path [] = .matched partialMatch := by
  induction includeOptionals with
  | zero =>
    simp only [tupleTestFrom] at tested
    split at tested
    next found =>
      cases tested
      exact ⟨0, found⟩
    next => cases tested
  | succ fewer ih =>
    simp only [tupleTestFrom] at tested
    split at tested
    next found =>
      cases tested
      exact ⟨fewer + 1, found⟩
    next => cases tested
    next => exact ih tested

mutual

/-- What the segments report of a path they take from the part alone. -/
theorem test_sound (segments : Segments) {path : Path} {partialMatch : PartialPathMatch}
    (tested : segments.test path = some partialMatch) :
    ∃ taken handed, Sound segments path taken handed partialMatch := by
  cases segments with
  | staticSegment segment => exact staticTest_sound tested
  | paramSegment name => exact paramTest_sound tested
  | optionalParamSegment name => exact optionalParamTest_sound tested
  | wildcardSegment name => exact wildcardTest_sound tested
  | tuple fields =>
    obtain ⟨included, turned⟩ := tupleTestFrom_matched tested
    obtain ⟨taken, handed, params, follows⟩ :=
      turn_follows (fields_sound fields) ⟨(List.nil_append path).symm, .inl rfl⟩ turned
    have own : partialMatch.params = params := follows.params
    exact ⟨taken, handed, follows.path, follows.matched, follows.hands,
      fun next pre long => own ▸ .tuple included (follows.takes next pre long), follows.ends,
      fun some_ => (follows.reported some_).resolve_left (Nat.lt_irrefl 0)⟩

theorem fields_sound (fields : List Segments) :
    ∀ field ∈ fields, ∀ path partialMatch, field.test path = some partialMatch →
      ∃ taken handed, Sound field path taken handed partialMatch := by
  cases fields with
  | nil => simp
  | cons field fields =>
    intro other member path partialMatch tested
    rcases List.mem_cons.mp member with same | member
    · rw [same] at tested ⊢
      exact test_sound field tested
    · exact fields_sound fields other member path partialMatch tested

end

end Halyard.Router
