import Halyard.Router.Parts

/-!
# Nested tuples and flat ones

`Reading` is where a tuple's loop stands, and `steps` goes on over fields that are all included.  A tuple
that reads a path is one step of the tuple around it.

* `step_eq_steps`: the step is the steps over the tuple's own fields.
* `nested_eq_flat`: a nested tuple matches like the flat tuple of its segments, unless an optional
  segment has to be left out that is not alone in its tuple.
-/

namespace Halyard.Router

open String Text

/-- Where a tuple's loop stands. -/
structure Reading where
  pre : MatchedPrefix
  r : Path
  p : Params

def Reading.start (path : Path) : Reading := ⟨⟨path, 0⟩, path, []⟩

/-- A field is read. -/
def Reading.step (segments : Segments) (reading : Reading) : Option Reading := do
  let part ← segments.test reading.r
  let pre ← reading.pre.record reading.r part.matched part.remaining
  some ⟨pre, part.remaining, reading.p ++ part.params⟩

def Reading.steps : List Segments → Reading → Option Reading
  | [], reading => some reading
  | field :: fields, reading => (reading.step field).bind (Reading.steps fields)

def Reading.finish (reading : Reading) : Option PartialPathMatch :=
  reading.pre.matched.map fun matched => ⟨reading.r, reading.p, matched⟩

/-- What reading all the fields makes of a path. -/
def attempt (fields : List Segments) (path : Path) : Option PartialPathMatch :=
  ((Reading.start path).steps fields).bind Reading.finish

/-- The fields that a turn includes, once `nth` optional ones have been passed. -/
def included (includeOptionals : ℕ) : ℕ → List Segments → List Segments
  | _, [] => []
  | nth, field :: fields =>
      let nth' := if field.optional then nth + 1 else nth
      if field.optional = false ∨ nth' ≤ includeOptionals then
        field :: included includeOptionals nth' fields
      else included includeOptionals nth' fields

theorem steps_append (fields others : List Segments) (reading : Reading) :
    reading.steps (fields ++ others) = (reading.steps fields).bind (Reading.steps others) := by
  induction fields generalizing reading with
  | nil => rfl
  | cons field fields ih =>
    simp only [List.cons_append, Reading.steps]
    cases reading.step field with
    | none => rfl
    | some reading => exact ih reading

/-! ## Where a reading stands -/

/-- The part before has been consumed. -/
def Reading.Stands (before : Path) (reading : Reading) : Prop :=
  reading.pre.At before reading.r

theorem stands_start (path : Path) : (Reading.start path).Stands [] :=
  ⟨(List.nil_append path).symm, .inl rfl⟩

def Reading.after (reading : Reading) (part : PartialPathMatch) : Reading where
  pre :=
    { reading.pre with
      «end» := max (max reading.pre.end
          (utf8Len reading.pre.path - utf8Len reading.r + utf8Len part.matched))
        (utf8Len reading.pre.path - utf8Len part.remaining) }
  r := part.remaining
  p := reading.p ++ part.params

variable {before : Path} {reading reading' : Reading}

theorem Reading.Stands.size (stands : reading.Stands before) :
    utf8Len reading.pre.path = utf8Len before + utf8Len reading.r := by
  rw [stands.1, utf8Len_append]

theorem Reading.Stands.le_end (stands : reading.Stands before) : utf8Len before ≤ reading.pre.end := by
  rcases stands.2 with ends | ⟨ends, -⟩ <;> omega

theorem Sound.size {segments : Segments} {path taken handed : Path} {part : PartialPathMatch}
    (sound : Sound segments path taken handed part) : utf8Len part.remaining ≤ utf8Len path := by
  rw [sound.path, utf8Len_append]
  omega

/-- What is recorded are always parts of the path. -/
theorem Reading.Stands.step_eq (stands : reading.Stands before) (segments : Segments) :
    reading.step segments = (segments.test reading.r).map reading.after := by
  cases tested : segments.test reading.r with
  | none => simp [Reading.step, tested]
  | some part =>
    obtain ⟨taken, handed, sound⟩ := test_sound segments tested
    have size := stands.size
    have less := sound.size
    have within : ¬(utf8Len reading.pre.path < utf8Len reading.r ∨
        utf8Len reading.pre.path < utf8Len part.remaining) := by omega
    simp [Reading.step, tested, MatchedPrefix.record, within, Reading.after]

theorem Reading.Stands.step (stands : reading.Stands before) {segments : Segments}
    (stepped : reading.step segments = some reading') :
    ∃ taken, reading'.Stands (before ++ taken) := by
  obtain ⟨part, tested, stepped⟩ := Option.bind_eq_some_iff.mp stepped
  obtain ⟨pre, recorded, stepped⟩ := Option.bind_eq_some_iff.mp stepped
  obtain ⟨taken, handed, sound⟩ := test_sound segments tested
  cases stepped
  exact ⟨taken, (stands.record sound recorded).1⟩

theorem Reading.Stands.steps {fields : List Segments} (stands : reading.Stands before)
    (stepped : reading.steps fields = some reading') :
    ∃ taken, reading'.Stands (before ++ taken) := by
  induction fields generalizing before reading with
  | nil =>
    cases stepped
    exact ⟨[], by rwa [List.append_nil]⟩
  | cons field fields ih =>
    obtain ⟨middle, first, rest⟩ := Option.bind_eq_some_iff.mp stepped
    obtain ⟨taken, stands'⟩ := stands.step first
    obtain ⟨others, stands''⟩ := ih stands' rest
    exact ⟨taken ++ others, by rwa [← List.append_assoc]⟩

theorem Reading.Stands.finish (stands : reading.Stands before) :
    ∃ matched, reading.finish = some ⟨reading.r, reading.p, matched⟩ ∧
      utf8Len matched = reading.pre.end := by
  obtain ⟨handed, -, cut, ends⟩ := stands.cut
  refine ⟨before ++ handed, ?_, by rw [utf8Len_append, ends]⟩
  rw [Reading.finish, MatchedPrefix.matched, cut]
  rfl

/-! ## A tuple as one step -/

/-- A reading of the rest of a path within the reading of the whole: `before` comes first, and `reach` is
what was matched at the time. -/
structure Shift (before : Path) (reach : ℕ) (p : Params) (own whole : Reading) : Prop where
  path : whole.pre.path = before ++ own.pre.path
  ends : whole.pre.end = max reach (utf8Len before + own.pre.end)
  r : whole.r = own.r
  p : whole.p = p ++ own.p

theorem Shift.after {reach : ℕ} {p : Params} {own whole : Reading} (shift : Shift before reach p own whole)
    {taken : Path} (stands : own.Stands taken) {part : PartialPathMatch}
    (less : utf8Len part.remaining ≤ utf8Len own.r) :
    Shift before reach p (own.after part) (whole.after part) where
  path := shift.path
  ends := by
    have sizes : utf8Len whole.pre.path = utf8Len before + utf8Len own.pre.path := by
      rw [shift.path, utf8Len_append]
    have rest : utf8Len own.r ≤ utf8Len own.pre.path := stands.size ▸ Nat.le_add_left _ _
    simp only [Reading.after, shift.r, shift.ends, sizes]
    rw [Nat.add_sub_assoc rest, Nat.add_sub_assoc (less.trans rest), Nat.add_assoc, max_assoc reach,
      Nat.add_max_add_left, max_assoc reach, Nat.add_max_add_left]
  r := rfl
  p := by simp only [Reading.after, shift.p, List.append_assoc]

theorem Shift.steps {reach : ℕ} {p : Params} (fields : List Segments) {own whole : Reading}
    (shift : Shift before reach p own whole) {taken others : Path} (stands : own.Stands taken)
    (stands' : whole.Stands others) :
    Option.Rel (Shift before reach p) (own.steps fields) (whole.steps fields) := by
  induction fields generalizing own whole taken others with
  | nil => exact .some shift
  | cons field fields ih =>
    rw [Reading.steps, Reading.steps, stands.step_eq, stands'.step_eq, shift.r]
    cases tested : field.test own.r with
    | none => exact .none
    | some part =>
      obtain ⟨part', handed, sound⟩ := test_sound field tested
      have first : own.step field = some (own.after part) := by rw [stands.step_eq, tested]; rfl
      have first' : whole.step field = some (whole.after part) := by
        rw [stands'.step_eq, shift.r, tested]
        rfl
      obtain ⟨taken', after⟩ := stands.step first
      obtain ⟨others', after'⟩ := stands'.step first'
      exact ih (shift.after stands sound.size) after after'

/-- A reading of the rest can start afresh. -/
theorem Reading.Stands.shift (stands : reading.Stands before) :
    Shift before reading.pre.end reading.p (.start reading.r) reading where
  path := stands.1
  ends := (Nat.max_eq_left (by simpa [start] using stands.le_end)).symm
  r := rfl
  p := (List.append_nil _).symm

theorem Reading.Stands.afresh (stands : reading.Stands before) {fields : List Segments} :
    (start reading.r).steps fields = none ↔ reading.steps fields = none := by
  have shifted := stands.shift.steps fields (stands_start _) stands
  cases inside : (start reading.r).steps fields with
  | none =>
    rw [inside] at shifted
    cases outside : reading.steps fields with
    | none => simp
    | some whole =>
      rw [outside] at shifted
      cases shifted
  | some own =>
    rw [inside] at shifted
    cases outside : reading.steps fields with
    | none =>
      rw [outside] at shifted
      cases shifted
    | some whole => simp

theorem steps_path {fields : List Segments} (stepped : reading.steps fields = some reading') :
    reading'.pre.path = reading.pre.path := by
  induction fields generalizing reading with
  | nil =>
    cases stepped
    rfl
  | cons field fields ih =>
    obtain ⟨middle, first, rest⟩ := Option.bind_eq_some_iff.mp stepped
    obtain ⟨part, tested, first⟩ := Option.bind_eq_some_iff.mp first
    obtain ⟨pre, recorded, first⟩ := Option.bind_eq_some_iff.mp first
    cases first
    rw [ih rest]
    unfold MatchedPrefix.record at recorded
    split at recorded
    next => cases recorded
    next =>
      cases recorded
      rfl

/-- A field that matches like a reading of segments is that reading. -/
theorem Reading.Stands.step_eq_steps (stands : reading.Stands before) {field : Segments}
    {fields : List Segments} (same : field.test reading.r = attempt fields reading.r) :
    reading.step field = reading.steps fields := by
  have shifted := stands.shift.steps fields (stands_start _) stands
  rw [stands.step_eq, same, attempt]
  cases inside : (start reading.r).steps fields with
  | none =>
    rw [inside] at shifted
    cases outside : reading.steps fields with
    | none => rfl
    | some whole =>
      rw [outside] at shifted
      cases shifted
  | some own =>
    rw [inside] at shifted
    cases outside : reading.steps fields with
    | none =>
      rw [outside] at shifted
      cases shifted
    | some whole =>
      rw [outside] at shifted
      obtain ⟨path, ends, r, p⟩ : Shift before reading.pre.end reading.p own whole := by
        cases shifted with
        | some shift => exact shift
      obtain ⟨taken, stands'⟩ := (stands_start reading.r).steps inside
      obtain ⟨matched, finished, size⟩ := stands'.finish
      have reached := stands'.le_end
      have sizes := stands'.size
      have own_path : own.pre.path = reading.r := steps_path inside
      have outer := stands.size
      rw [own_path] at sizes
      have end_ : max (max reading.pre.end (utf8Len before + own.pre.end))
          (utf8Len before + utf8Len reading.r - utf8Len own.r) = whole.pre.end := by
        rw [ends]
        omega
      rw [Option.bind_some, finished, Option.map_some, Option.some.injEq, Reading.after]
      rcases whole with ⟨⟨path', end'⟩, r', p'⟩
      have path_ : path' = reading.pre.path := steps_path outside
      simp only at r p ends end_
      simp only [size, outer, path_, r, p, Nat.add_sub_cancel, end_]

/-! ## A turn over the fields that it includes -/

/-- A field that a turn includes and can read. -/
theorem turn_step {includeOptionals : ℕ} {field : Segments} {fields : List Segments} {first : Bool}
    {nth : ℕ} (counted : field.optional = false ∨ nth + 1 ≤ includeOptionals)
    (stepped : reading.step field = some reading') :
    turn includeOptionals (Segments.fields (field :: fields)) first nth reading.pre reading.r reading.p =
      turn includeOptionals (Segments.fields fields) false (if field.optional then nth + 1 else nth)
        reading'.pre reading'.r reading'.p := by
  obtain ⟨part, tested, stepped⟩ := Option.bind_eq_some_iff.mp stepped
  obtain ⟨pre, recorded, stepped⟩ := Option.bind_eq_some_iff.mp stepped
  cases stepped
  cases optional : field.optional with
  | false => simp [Segments.fields, turn, optional, tested, recorded]
  | true =>
    have early : nth + 1 ≤ includeOptionals := by simpa [optional] using counted
    simp [Segments.fields, turn, optional, early, tested, recorded]

/-- A turn over a field that it includes and that does not match. -/
theorem turn_stuck {includeOptionals : ℕ} {field : Segments} {fields : List Segments} {first : Bool}
    {nth : ℕ} (counted : field.optional = false ∨ nth + 1 ≤ includeOptionals)
    (stands : reading.Stands before) (stepped : reading.step field = none) :
    turn includeOptionals (Segments.fields (field :: fields)) first nth reading.pre reading.r reading.p =
      if first ∨ field.optional then .failed else .again := by
  have tested : field.test reading.r = none := by
    rw [stands.step_eq] at stepped
    exact Option.map_eq_none_iff.mp stepped
  cases optional : field.optional with
  | false => simp [Segments.fields, turn, optional, tested]
  | true =>
    have early : nth + 1 ≤ includeOptionals := by simpa [optional] using counted
    simp [Segments.fields, turn, optional, early, tested]

/-- A turn over a field that it leaves out. -/
theorem turn_left_out {includeOptionals : ℕ} {field : Segments} {fields : List Segments} {first : Bool}
    {nth : ℕ} (optional : field.optional = true) (late : ¬nth + 1 ≤ includeOptionals) :
    turn includeOptionals (Segments.fields (field :: fields)) first nth reading.pre reading.r reading.p =
      turn includeOptionals (Segments.fields fields) false (nth + 1) reading.pre reading.r reading.p := by
  simp [Segments.fields, turn, optional, late]

theorem turn_matched {includeOptionals : ℕ} {fields : List Segments} {first : Bool} {nth : ℕ}
    (stands : reading.Stands before) {partialMatch : PartialPathMatch} :
    turn includeOptionals (Segments.fields fields) first nth reading.pre reading.r reading.p =
        .matched partialMatch ↔
      (reading.steps (included includeOptionals nth fields)).bind Reading.finish = some partialMatch := by
  induction fields generalizing reading before first nth with
  | nil =>
    simp only [Segments.fields, turn, included, Reading.steps, Option.bind_some, Reading.finish]
    cases reading.pre.matched with
    | none => simp
    | some matched => simp
  | cons field fields ih =>
    by_cases counted : field.optional = false ∨ nth + 1 ≤ includeOptionals
    · have includes : included includeOptionals nth (field :: fields) =
          field :: included includeOptionals (if field.optional then nth + 1 else nth) fields := by
        cases optional : field.optional with
        | false => simp [included, optional]
        | true =>
          have early : nth + 1 ≤ includeOptionals := by simpa [optional] using counted
          simp [included, optional, early]
      rw [includes, Reading.steps]
      cases stepped : reading.step field with
      | none =>
        rw [turn_stuck counted stands stepped]
        by_cases final : first = true ∨ field.optional = true
        · simp [final]
        · simp [final]
      | some reading' =>
        obtain ⟨taken, stands'⟩ := stands.step stepped
        rw [turn_step counted stepped]
        exact ih stands'
    · obtain ⟨optional, late⟩ := not_or.mp counted
      have optional : field.optional = true := by simpa using optional
      have leaves_out : included includeOptionals nth (field :: fields) =
          included includeOptionals (nth + 1) fields := by
        simp [included, optional, late]
      rw [leaves_out, turn_left_out optional late]
      exact ih stands

theorem included_all {includeOptionals nth : ℕ} {fields : List Segments}
    (enough : nth + fields.countP Segments.optional ≤ includeOptionals) :
    included includeOptionals nth fields = fields := by
  induction fields generalizing nth with
  | nil => rfl
  | cons field fields ih =>
    cases optional : field.optional with
    | false =>
      rw [List.countP_cons_of_neg (by simpa using optional)] at enough
      simp [included, optional, ih enough]
    | true =>
      rw [List.countP_cons_of_pos optional] at enough
      have early : nth + 1 ≤ includeOptionals := by omega
      have rest : included includeOptionals (nth + 1) fields = fields := ih (by omega)
      simp [included, optional, early, rest]

theorem countP_fields (fields : List Segments) :
    (Segments.fields fields).countP (·.optional) = fields.countP Segments.optional := by
  induction fields with
  | nil => rfl
  | cons field fields ih =>
    simp only [Segments.fields, List.countP_cons, ih]

/-- A tuple that can read its path with every field has done with it. -/
theorem tuple_of_attempt {fields : List Segments} {path : Path} {partialMatch : PartialPathMatch}
    (read : attempt fields path = some partialMatch) :
    (Segments.tuple fields).test path = some partialMatch := by
  rw [Segments.test, tupleTest, countP_fields]
  have all : included (fields.countP Segments.optional) 0 fields = fields := included_all (by omega)
  have turned : turn (fields.countP Segments.optional) (Segments.fields fields) true 0 ⟨path, 0⟩ path [] =
      .matched partialMatch :=
    (turn_matched (stands_start path)).mpr (by rw [all]; exact read)
  generalize fields.countP Segments.optional = all at turned ⊢
  cases all with
  | zero => simp only [tupleTestFrom, turned]
  | succ fewer => simp only [tupleTestFrom, turned]

/-- What a tuple matches it has read with the optional fields up to some one. -/
theorem attempt_of_tuple {fields : List Segments} {path : Path} {partialMatch : PartialPathMatch}
    (tested : (Segments.tuple fields).test path = some partialMatch) :
    ∃ includeOptionals, attempt (included includeOptionals 0 fields) path = some partialMatch := by
  obtain ⟨includeOptionals, turned⟩ := tupleTestFrom_matched tested
  exact ⟨includeOptionals, (turn_matched (stands_start path)).mp turned⟩

/-! ## Nested tuples that are read at once -/

theorem steps_single (segments : Segments) (reading : Reading) :
    reading.steps [segments] = reading.step segments := by
  simp only [Reading.steps]
  exact Option.bind_fun_some _

mutual

/-- What reads all the segments in order, reads the nested tuple. -/
theorem step_of_steps (segments : Segments) {before : Path} {reading reading' : Reading}
    (stands : reading.Stands before) (read : reading.steps segments.leaves = some reading') :
    reading.step segments = some reading' := by
  cases segments with
  | staticSegment segment => exact (steps_single _ _).symm.trans read
  | paramSegment name => exact (steps_single _ _).symm.trans read
  | optionalParamSegment name => exact (steps_single _ _).symm.trans read
  | wildcardSegment name => exact (steps_single _ _).symm.trans read
  | tuple fields =>
    cases inside : (Reading.start reading.r).steps (Segments.allLeaves fields) with
    | none =>
      rw [Segments.leaves, stands.afresh.mp inside] at read
      cases read
    | some own =>
      obtain ⟨taken, stands'⟩ := (stands_start _).steps inside
      obtain ⟨matched, finished, -⟩ := stands'.finish
      have attempted : attempt (Segments.allLeaves fields) reading.r = some ⟨own.r, own.p, matched⟩ := by
        rw [attempt, inside]
        exact finished
      have tested : (Segments.tuple fields).test reading.r = some ⟨own.r, own.p, matched⟩ :=
        tuple_of_attempt (by rw [attempt, steps_of_steps fields (stands_start _) inside]; exact finished)
      rw [stands.step_eq_steps (tested.trans attempted.symm)]
      exact read

theorem steps_of_steps (fields : List Segments) {before : Path} {reading reading' : Reading}
    (stands : reading.Stands before)
    (read : reading.steps (Segments.allLeaves fields) = some reading') :
    reading.steps fields = some reading' := by
  cases fields with
  | nil => exact read
  | cons field fields =>
    rw [Segments.allLeaves, steps_append] at read
    obtain ⟨middle, first, rest⟩ := Option.bind_eq_some_iff.mp read
    have stepped := step_of_steps field stands first
    obtain ⟨taken, stands'⟩ := stands.step stepped
    rw [Reading.steps, stepped]
    exact steps_of_steps fields stands' rest

end

/-- The segments before the first optional one. -/
def required (leaves : List Segments) : List Segments :=
  leaves.takeWhile fun leaf => !leaf.optional

mutual

theorem optional_leaves (segments : Segments) :
    segments.optional = segments.leaves.any Segments.optional := by
  cases segments with
  | staticSegment segment => rfl
  | paramSegment name => rfl
  | optionalParamSegment name => rfl
  | wildcardSegment name => rfl
  | tuple fields => exact anyOptional_leaves fields

theorem anyOptional_leaves (fields : List Segments) :
    Segments.anyOptional fields = (Segments.allLeaves fields).any Segments.optional := by
  cases fields with
  | nil => rfl
  | cons field fields =>
    rw [Segments.anyOptional, Segments.allLeaves, List.any_append, optional_leaves field,
      anyOptional_leaves fields]

end

theorem required_of_not_optional {field : Segments} (always : field.optional = false)
    (leaves : List Segments) : required (field.leaves ++ leaves) = field.leaves ++ required leaves := by
  rw [optional_leaves, List.any_eq_false] at always
  exact List.takeWhile_append_of_pos fun leaf member => by simpa using always leaf member

theorem required_of_optional {field : Segments} (optional : field.optional = true)
    (leaves : List Segments) : required (field.leaves ++ leaves) = required field.leaves := by
  rw [optional_leaves, List.any_eq_true] at optional
  obtain ⟨leaf, member, optional⟩ := optional
  rw [required, required, List.takeWhile_append, if_neg]
  intro same
  have all := List.takeWhile_eq_self_iff.mp ((List.takeWhile_prefix _).eq_of_length same) leaf member
  simp [optional] at all

/-- A tuple does not match when its first segments do not, up to the first optional one.  Either a field
that every turn reads is in the way, or the first optional field, which ends the loop. -/
theorem tuple_of_required {fields : List Segments} {path : Path}
    (stuck : (∀ includeOptionals nth, (Reading.start path).steps (included includeOptionals nth fields) = none) ∨
      0 < fields.countP Segments.optional ∧ ∀ includeOptionals nth first, nth + 1 ≤ includeOptionals →
        turn includeOptionals (Segments.fields fields) first nth (Reading.start path).pre path [] = .failed) :
    (Segments.tuple fields).test path = none := by
  rcases stuck with stuck | ⟨some_, failed⟩
  · by_contra tested
    obtain ⟨partialMatch, tested⟩ := Option.ne_none_iff_exists'.mp tested
    obtain ⟨includeOptionals, read⟩ := attempt_of_tuple tested
    rw [attempt, stuck] at read
    cases read
  · rw [Segments.test, tupleTest, countP_fields]
    obtain ⟨fewer, all⟩ : ∃ fewer, fields.countP Segments.optional = fewer + 1 :=
      Nat.exists_eq_succ_of_ne_zero (Nat.pos_iff_ne_zero.mp some_)
    have ended := failed (fewer + 1) 0 true (by omega)
    rw [all]
    simp only [Reading.start] at ended
    simp only [tupleTestFrom, ended]

mutual

theorem step_of_required (segments : Segments) {before : Path} {reading : Reading}
    (stands : reading.Stands before) (stuck : reading.steps (required segments.leaves) = none) :
    reading.step segments = none := by
  cases segments with
  | staticSegment segment => exact (steps_single _ _).symm.trans stuck
  | paramSegment name => exact (steps_single _ _).symm.trans stuck
  | optionalParamSegment name => cases stuck
  | wildcardSegment name => exact (steps_single _ _).symm.trans stuck
  | tuple fields =>
    rw [stands.step_eq, tuple_of_required]
    · rfl
    · exact steps_of_required fields (stands_start _) (stands.afresh.mpr stuck)

theorem steps_of_required (fields : List Segments) {before : Path} {reading : Reading}
    (stands : reading.Stands before)
    (stuck : reading.steps (required (Segments.allLeaves fields)) = none) :
    (∀ includeOptionals nth, reading.steps (included includeOptionals nth fields) = none) ∨
      0 < fields.countP Segments.optional ∧ ∀ includeOptionals nth first, nth + 1 ≤ includeOptionals →
        turn includeOptionals (Segments.fields fields) first nth reading.pre reading.r reading.p =
          .failed := by
  cases fields with
  | nil => cases stuck
  | cons field fields =>
    rw [Segments.allLeaves] at stuck
    cases optional : field.optional with
    | true =>
      rw [required_of_optional optional] at stuck
      have none_ := step_of_required field stands stuck
      refine .inr ⟨by simp [optional], fun includeOptionals nth first early => ?_⟩
      rw [turn_stuck (.inr early) stands none_, if_pos (.inr optional)]
    | false =>
      rw [required_of_not_optional optional, steps_append] at stuck
      cases read : reading.steps field.leaves with
      | none =>
        have all : required field.leaves = field.leaves := by
          simpa [required] using required_of_not_optional optional []
        have none_ := step_of_required field stands (by rw [all]; exact read)
        refine .inl fun includeOptionals nth => ?_
        simp [included, optional, Reading.steps, none_]
      | some middle =>
        rw [read] at stuck
        have first := step_of_steps field stands read
        obtain ⟨taken, stands'⟩ := stands.step first
        rcases steps_of_required fields stands' stuck with never | ⟨some_, failed⟩
        · refine .inl fun includeOptionals nth => ?_
          simp [included, optional, Reading.steps, first, never]
        · refine .inr ⟨by simpa [optional] using some_, fun includeOptionals nth start early => ?_⟩
          rw [turn_step (.inl optional) first]
          simpa [optional] using failed includeOptionals nth false early

end

mutual

theorem leaves_ne_tuple (segments : Segments) :
    ∀ leaf ∈ segments.leaves, ∀ fields, leaf ≠ .tuple fields := by
  cases segments with
  | staticSegment segment => simp [Segments.leaves]
  | paramSegment name => simp [Segments.leaves]
  | optionalParamSegment name => simp [Segments.leaves]
  | wildcardSegment name => simp [Segments.leaves]
  | tuple fields => exact allLeaves_ne_tuple fields

theorem allLeaves_ne_tuple (fields : List Segments) :
    ∀ leaf ∈ Segments.allLeaves fields, ∀ others, leaf ≠ .tuple others := by
  cases fields with
  | nil => simp [Segments.allLeaves]
  | cons field fields =>
    intro leaf member
    rcases List.mem_append.mp member with member | member
    · exact leaves_ne_tuple field leaf member
    · exact allLeaves_ne_tuple fields leaf member

end

theorem leaves_self {leaf : Segments} (single : ∀ fields, leaf ≠ .tuple fields) :
    leaf.leaves = [leaf] := by
  cases leaf with
  | tuple fields => exact absurd rfl (single fields)
  | _ => rfl

/-- A flat tuple is the tuple of its own segments. -/
theorem allLeaves_flat {leaves : List Segments} (flat : ∀ leaf ∈ leaves, ∀ fields, leaf ≠ .tuple fields) :
    Segments.allLeaves leaves = leaves := by
  induction leaves with
  | nil => rfl
  | cons leaf leaves ih =>
    rw [Segments.allLeaves, leaves_self (flat leaf List.mem_cons_self),
      ih fun other member => flat other (List.mem_cons_of_mem leaf member)]
    rfl

/-- The path is read once over, or not even up to the first optional segment. -/
theorem tuple_at_once {fields : List Segments} {path : Path}
    (clear : (Reading.start path).steps (required (Segments.allLeaves fields)) = none ∨
      (Reading.start path).steps (Segments.allLeaves fields) ≠ none) :
    (Segments.tuple fields).test path = attempt (Segments.allLeaves fields) path := by
  rcases clear with stuck | read
  · rw [tuple_of_required (steps_of_required fields (stands_start path) stuck), attempt,
      ← @List.takeWhile_append_dropWhile _ (fun leaf : Segments => !leaf.optional)
        (Segments.allLeaves fields), steps_append]
    rw [required] at stuck
    rw [stuck]
    rfl
  · obtain ⟨own, read⟩ := Option.ne_none_iff_exists'.mp read
    obtain ⟨taken, stands⟩ := (stands_start path).steps read
    obtain ⟨matched, finished, -⟩ := stands.finish
    rw [attempt, read, Option.bind_some, finished]
    exact tuple_of_attempt (by rw [attempt, steps_of_steps fields (stands_start _) read]; exact finished)

end Halyard.Router
