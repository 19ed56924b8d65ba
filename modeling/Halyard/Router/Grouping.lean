import Halyard.Router.Flatten

/-!
# When the grouping of segments does not matter

* `tuple_firstOf`: what a tuple makes of a path, its optional fields alone in their tuples.
* `plain_eq`: the same of tuples that end with their only nested tuple of optional segments.
* `nested_eq_flat`: such a tuple matches like the flat tuple of its segments, and every tuple does on a
  path for which no optional segment has to be left out.
-/

namespace Halyard.Router

open String Text

/-- The first of the tries, from a number down, that has a result. -/
def firstOf {α : Type} (tries : ℕ → Option α) : ℕ → Option α
  | 0 => tries 0
  | fewer + 1 => (tries (fewer + 1)).or (firstOf tries fewer)

/-- A segment or nested tuple that an optional segment, if there is one, has to itself. -/
def Segments.single (segments : Segments) : Bool :=
  !segments.optional || segments.leaves.length == 1

mutual

/-- Leaving out fields of the tuples leaves out single segments. -/
def Segments.plain : Segments → Bool
  | .tuple fields => fields.all Segments.single || Segments.lastPlain fields
  | _ => true

/-- The only field with optional segments is the last one. -/
def Segments.lastPlain : List Segments → Bool
  | [] => false
  | field :: fields =>
      if field.optional then field.plain && (Segments.allLeaves fields).isEmpty
      else Segments.lastPlain fields

end

/-- What is left after segments that are read one after another, each optional one if it has a value. -/
def leftAfter : List Segments → Path → Option Path
  | [], path => some path
  | leaf :: leaves, path => (leaf.test path).bind fun part => leftAfter leaves part.remaining

/-- The segments up to the first optional one can be read, and then one that is required cannot. -/
def Segments.triesAgain (segments : Segments) (path : Path) : Bool :=
  (leftAfter (required segments.leaves) path).isSome && (leftAfter segments.leaves path).isNone

variable {before : Path} {reading reading' : Reading}

/-! ## Fields that are single segments -/

theorem required_self {field : Segments} (always : field.optional = false) :
    required field.leaves = field.leaves := by
  simpa [required] using required_of_not_optional always []

/-- A nested tuple of required segments is its segments. -/
theorem step_of_not_optional {field : Segments} (always : field.optional = false)
    (stands : reading.Stands before) : reading.step field = reading.steps field.leaves := by
  cases read : reading.steps field.leaves with
  | none => exact step_of_required field stands (by rw [required_self always]; exact read)
  | some reading' => exact step_of_steps field stands read

theorem optional_leaf {leaf : Segments} (single : ∀ fields, leaf ≠ .tuple fields)
    (optional : leaf.optional = true) : ∃ name, leaf = .optionalParamSegment name := by
  cases leaf with
  | staticSegment segment => cases optional
  | paramSegment name => cases optional
  | optionalParamSegment name => exact ⟨name, rfl⟩
  | wildcardSegment name => cases optional
  | tuple fields => exact absurd rfl (single fields)

/-- An optional param always matches. -/
theorem optionalParam_step (name : String) (stands : reading.Stands before) :
    ∃ reading', reading.step (.optionalParamSegment name) = some reading' := by
  have tested : ∃ part, (Segments.optionalParamSegment name).test reading.r = some part := by
    rw [Segments.test, optionalParamTest]
    split
    next =>
      split
      next => exact ⟨_, rfl⟩
      next => exact ⟨_, rfl⟩
    next => exact ⟨_, rfl⟩
  obtain ⟨part, tested⟩ := tested
  exact ⟨_, by rw [stands.step_eq, tested]; rfl⟩

theorem single_leaves {field : Segments} (single : field.single = true) (optional : field.optional = true) :
    ∃ name, field.leaves = [.optionalParamSegment name] := by
  obtain ⟨leaf, one⟩ : ∃ leaf, field.leaves = [leaf] := by
    simpa [Segments.single, optional, List.length_eq_one_iff] using single
  have chosen := optional
  rw [optional_leaves, one, List.any_cons, List.any_nil, Bool.or_false] at chosen
  obtain ⟨name, rfl⟩ := optional_leaf (leaves_ne_tuple field leaf (by simp [one])) chosen
  exact ⟨name, one⟩

theorem single_step {field : Segments} (single : field.single = true) (stands : reading.Stands before) :
    reading.step field = reading.steps field.leaves := by
  cases optional : field.optional with
  | false => exact step_of_not_optional optional stands
  | true =>
    obtain ⟨name, one⟩ := single_leaves single optional
    obtain ⟨reading', read⟩ := optionalParam_step name stands
    have all : reading.steps field.leaves = some reading' := by rw [one, steps_single, read]
    rw [all]
    exact step_of_steps field stands all

theorem included_required {leaves : List Segments} (always : ∀ leaf ∈ leaves, leaf.optional = false)
    (includeOptionals nth : ℕ) (others : List Segments) :
    included includeOptionals nth (leaves ++ others) = leaves ++ included includeOptionals nth others := by
  induction leaves with
  | nil => rfl
  | cons leaf leaves ih =>
    have rest := ih fun other member => always other (List.mem_cons_of_mem leaf member)
    simp [included, always leaf List.mem_cons_self, rest]

theorem always_leaves {field : Segments} (always : field.optional = false) :
    ∀ leaf ∈ field.leaves, leaf.optional = false := by
  rw [optional_leaves, List.any_eq_false] at always
  exact fun leaf member => by simpa using always leaf member

/-- A turn reads the same segments whether single ones are in tuples of their own or not. -/
theorem single_steps {includeOptionals nth : ℕ} {fields : List Segments}
    (single : ∀ field ∈ fields, field.single = true) (stands : reading.Stands before) :
    reading.steps (included includeOptionals nth fields) =
      reading.steps (included includeOptionals nth (Segments.allLeaves fields)) := by
  induction fields generalizing before reading nth with
  | nil => rfl
  | cons field fields ih =>
    have rest := fun other member => single other (List.mem_cons_of_mem field member)
    have own := single_step (single field List.mem_cons_self) stands
    cases optional : field.optional with
    | false =>
      rw [Segments.allLeaves, included_required (always_leaves optional), steps_append, ← own]
      simp only [included, optional]
      cases stepped : reading.step field with
      | none => simp [Reading.steps, stepped]
      | some reading' =>
        obtain ⟨taken, stands'⟩ := stands.step stepped
        simp [Reading.steps, stepped, ih rest stands']
    | true =>
      obtain ⟨name, one⟩ := single_leaves (single field List.mem_cons_self) optional
      have param : (Segments.optionalParamSegment name).optional = true := rfl
      rw [one, steps_single] at own
      rw [Segments.allLeaves, one, List.singleton_append]
      by_cases early : nth + 1 ≤ includeOptionals
      · simp only [included, optional, param, early, or_true, if_true, Reading.steps, own]
        cases stepped : reading.step (.optionalParamSegment name) with
        | none => rfl
        | some reading' =>
          obtain ⟨taken, stands'⟩ := stands.step stepped
          exact ih rest stands'
      · simp [included, optional, param, early, ih rest stands]

theorem single_count {fields : List Segments} (single : ∀ field ∈ fields, field.single = true) :
    (Segments.allLeaves fields).countP Segments.optional = fields.countP Segments.optional := by
  induction fields with
  | nil => rfl
  | cons field fields ih =>
    rw [Segments.allLeaves, List.countP_append, List.countP_cons,
      ih fun other member => single other (List.mem_cons_of_mem field member)]
    cases optional : field.optional with
    | false =>
      have none_ : field.leaves.countP Segments.optional = 0 :=
        List.countP_eq_zero.mpr fun leaf member => by simp [always_leaves optional leaf member]
      simp [none_]
    | true =>
      obtain ⟨name, one⟩ := single_leaves (single field List.mem_cons_self) optional
      have param : (Segments.optionalParamSegment name).optional = true := rfl
      simp [one, param, Nat.add_comm]

/-! ## Trying again with fewer optional segments -/

theorem firstOf_none {α : Type} {tries : ℕ → Option α} (none_ : ∀ n, tries n = none) (n : ℕ) :
    firstOf tries n = none := by
  induction n with
  | zero => exact none_ 0
  | succ fewer ih => rw [firstOf, none_, ih, Option.or_none]

theorem attempt_none {fields : List Segments} {path : Path} :
    attempt fields path = none ↔ (Reading.start path).steps fields = none := by
  rw [attempt]
  cases read : (Reading.start path).steps fields with
  | none => simp
  | some own =>
    obtain ⟨taken, stands⟩ := (stands_start path).steps read
    obtain ⟨matched, finished, -⟩ := stands.finish
    simp [finished]

theorem turn_nil {includeOptionals nth : ℕ} {first : Bool} (stands : reading.Stands before) :
    turn includeOptionals (Segments.fields []) first nth reading.pre reading.r reading.p ≠ .failed := by
  obtain ⟨matched, finished, -⟩ := stands.finish
  obtain ⟨own, found, -⟩ := Option.map_eq_some_iff.mp finished
  simp [Segments.fields, turn, found]

/-- An optional field that is a single segment does not end the loop. -/
theorem single_turn {includeOptionals nth : ℕ} {fields : List Segments}
    (single : ∀ field ∈ fields, field.single = true) (stands : reading.Stands before) :
    turn includeOptionals (Segments.fields fields) false nth reading.pre reading.r reading.p ≠
      .failed := by
  induction fields generalizing before reading nth with
  | nil => exact turn_nil stands
  | cons field fields ih =>
    have rest := fun other member => single other (List.mem_cons_of_mem field member)
    by_cases counted : field.optional = false ∨ nth + 1 ≤ includeOptionals
    · cases stepped : reading.step field with
      | none =>
        rw [turn_stuck counted stands stepped]
        cases optional : field.optional with
        | false => simp
        | true =>
          obtain ⟨name, one⟩ := single_leaves (single field List.mem_cons_self) optional
          obtain ⟨reading', read⟩ := optionalParam_step name stands
          rw [single_step (single field List.mem_cons_self) stands, one, steps_single, read] at stepped
          cases stepped
      | some reading' =>
        obtain ⟨taken, stands'⟩ := stands.step stepped
        rw [turn_step counted stepped]
        exact ih rest stands'
    · obtain ⟨optional, late⟩ := not_or.mp counted
      rw [turn_left_out (by simpa using optional) late]
      exact ih rest stands

/-- The loop ends early only if the first segment is required and does not match. -/
theorem single_failed {includeOptionals : ℕ} {fields : List Segments} {path : Path}
    (single : ∀ field ∈ fields, field.single = true)
    (failed : turn includeOptionals (Segments.fields fields) true 0 (Reading.start path).pre path [] =
      .failed) (n : ℕ) : attempt (included n 0 fields) path = none := by
  have stands := stands_start path
  cases fields with
  | nil => exact absurd failed (turn_nil stands)
  | cons field fields =>
    have rest := fun other member => single other (List.mem_cons_of_mem field member)
    by_cases counted : field.optional = false ∨ 0 + 1 ≤ includeOptionals
    · cases stepped : (Reading.start path).step field with
      | none =>
        cases optional : field.optional with
        | false =>
          rw [attempt_none]
          simp [included, optional, Reading.steps, stepped]
        | true =>
          obtain ⟨name, one⟩ := single_leaves (single field List.mem_cons_self) optional
          obtain ⟨reading', read⟩ := optionalParam_step name stands
          rw [single_step (single field List.mem_cons_self) stands, one, steps_single, read] at stepped
          cases stepped
      | some reading' =>
        obtain ⟨taken, stands'⟩ := stands.step stepped
        exact absurd ((turn_step counted stepped).symm.trans failed) (single_turn rest stands')
    · obtain ⟨optional, late⟩ := not_or.mp counted
      have optional : field.optional = true := by simpa using optional
      have left := @turn_left_out (.start path) includeOptionals field fields true 0 optional late
      exact absurd (left.symm.trans failed) (single_turn rest stands)

/-- A tuple whose optional fields are single segments reads as many of them as it can. -/
theorem single_firstOf {fields : List Segments} (single : ∀ field ∈ fields, field.single = true)
    (path : Path) :
    (Segments.tuple fields).test path =
      firstOf (fun includeOptionals => attempt (included includeOptionals 0 fields) path)
        (fields.countP Segments.optional) := by
  rw [Segments.test, tupleTest, countP_fields]
  have ends (n : ℕ) (m : PartialPathMatch) :
      turn n (Segments.fields fields) true 0 ⟨path, 0⟩ path [] = .matched m ↔
        attempt (included n 0 fields) path = some m := turn_matched (stands_start path)
  have failed (n : ℕ) (failed : turn n (Segments.fields fields) true 0 ⟨path, 0⟩ path [] = .failed) :=
    single_failed single failed
  induction fields.countP Segments.optional with
  | zero =>
    rw [tupleTestFrom, firstOf]
    cases turned : turn 0 (Segments.fields fields) true 0 ⟨path, 0⟩ path [] with
    | matched partialMatch => exact ((ends 0 partialMatch).mp turned).symm
    | failed => exact (failed 0 turned 0).symm
    | again =>
      cases tried : attempt (included 0 0 fields) path with
      | none => rfl
      | some m => cases turned.symm.trans ((ends 0 m).mpr tried)
  | succ fewer ih =>
    rw [tupleTestFrom, firstOf]
    cases turned : turn (fewer + 1) (Segments.fields fields) true 0 ⟨path, 0⟩ path [] with
    | matched partialMatch => rw [(ends _ _).mp turned, Option.some_or]
    | failed =>
      rw [failed _ turned, Option.none_or, firstOf_none]
      exact failed _ turned
    | again =>
      cases tried : attempt (included (fewer + 1) 0 fields) path with
      | none => rw [Option.none_or, ih]
      | some m => cases turned.symm.trans ((ends _ m).mpr tried)

/-! ## A nested tuple at the end -/

theorem attempt_one (segments : Segments) (path : Path) : attempt [segments] path = segments.test path := by
  rw [attempt, steps_single, (stands_start path).step_eq]
  cases tested : segments.test path with
  | none => simp [Reading.start, tested]
  | some part =>
    obtain ⟨taken, handed, sound⟩ := test_sound segments tested
    obtain ⟨after, left⟩ := sound.hands.starts
    have whole : path = part.matched ++ after := by
      rw [sound.matched, List.append_assoc, left]
      exact sound.path
    have cut : splitAtChecked path (utf8Len part.matched) = some (part.matched, after) := by
      rw [whole]
      exact splitAtChecked_append _ _
    have reach : utf8Len path ≤ utf8Len part.matched + utf8Len part.remaining := by
      rw [sound.matched, sound.path, utf8Len_append, utf8Len_append]
      omega
    have ends : max (utf8Len part.matched) (utf8Len path - utf8Len part.remaining) =
        utf8Len part.matched := by
      omega
    simp [Reading.start, tested, Reading.after, Reading.finish, MatchedPrefix.matched, ends, cut]

theorem firstOf_shift (stands : reading.Stands before) {field : Segments} {fields : ℕ → List Segments}
    {n : ℕ} (same : field.test reading.r = firstOf (fun k => attempt (fields k) reading.r) n) :
    (reading.step field).bind Reading.finish =
      firstOf (fun k => (reading.steps (fields k)).bind Reading.finish) n := by
  induction n with
  | zero =>
    rw [stands.step_eq_steps same]
    rfl
  | succ fewer ih =>
    rw [firstOf] at same ⊢
    cases tried : attempt (fields (fewer + 1)) reading.r with
    | none =>
      rw [tried, Option.none_or] at same
      rw [stands.afresh.mp (attempt_none.mp tried), Option.bind_none, Option.none_or]
      exact ih same
    | some m =>
      rw [tried, Option.some_or, ← tried] at same
      rw [stands.step_eq_steps same]
      cases read : reading.steps (fields (fewer + 1)) with
      | none =>
        rw [attempt_none.mpr (stands.afresh.mpr read)] at tried
        cases tried
      | some own =>
        obtain ⟨taken, stands'⟩ := stands.steps read
        obtain ⟨matched, finished, -⟩ := stands'.finish
        rw [Option.bind_some, finished, Option.some_or]

theorem steps_empty {fields : List Segments} (empty : Segments.allLeaves fields = [])
    (stands : reading.Stands before) : reading.steps fields = some reading :=
  steps_of_steps fields stands (by rw [empty]; rfl)

/-- The loop over fields of which only the last is optional ends when they do not match. -/
theorem lastPlain_stuck {fields : List Segments} (plain : Segments.lastPlain fields = true)
    (stands : reading.Stands before) (stuck : reading.steps fields = none) :
    (∀ includeOptionals nth, reading.steps (included includeOptionals nth fields) = none) ∨
      0 < fields.countP Segments.optional ∧ ∀ includeOptionals nth first, nth + 1 ≤ includeOptionals →
        turn includeOptionals (Segments.fields fields) first nth reading.pre reading.r reading.p =
          .failed := by
  induction fields generalizing before reading with
  | nil => cases plain
  | cons field fields ih =>
    rw [Segments.lastPlain] at plain
    rw [Reading.steps] at stuck
    cases optional : field.optional with
    | true =>
      rw [optional, if_pos rfl, Bool.and_eq_true, List.isEmpty_iff] at plain
      cases stepped : reading.step field with
      | none =>
        refine .inr ⟨by simp [optional], fun includeOptionals nth first early => ?_⟩
        rw [turn_stuck (.inr early) stands stepped, if_pos (.inr optional)]
      | some reading' =>
        obtain ⟨taken, stands'⟩ := stands.step stepped
        rw [stepped, Option.bind_some, steps_empty plain.2 stands'] at stuck
        cases stuck
    | false =>
      rw [optional] at plain
      cases stepped : reading.step field with
      | none =>
        refine .inl fun includeOptionals nth => ?_
        simp [included, optional, Reading.steps, stepped]
      | some reading' =>
        obtain ⟨taken, stands'⟩ := stands.step stepped
        rw [stepped] at stuck
        rcases ih plain stands' stuck with never | ⟨some_, failed⟩
        · refine .inl fun includeOptionals nth => ?_
          simp [included, optional, Reading.steps, stepped, never]
        · refine .inr ⟨by simpa [optional] using some_, fun includeOptionals nth start early => ?_⟩
          rw [turn_step (.inl optional) stepped]
          simpa [optional] using failed includeOptionals nth false early

theorem tuple_of_lastPlain {fields : List Segments} (plain : Segments.lastPlain fields = true)
    (path : Path) : (Segments.tuple fields).test path = attempt fields path := by
  cases tried : attempt fields path with
  | none => exact tuple_of_required (lastPlain_stuck plain (stands_start path) (attempt_none.mp tried))
  | some m => exact tuple_of_attempt tried

mutual

/-- A plain tuple reads as many of its optional segments as it can. -/
theorem plain_eq (segments : Segments) (plain : segments.plain = true) (path : Path) :
    segments.test path =
      firstOf (fun includeOptionals => attempt (included includeOptionals 0 segments.leaves) path)
        (segments.leaves.countP Segments.optional) := by
  cases segments with
  | staticSegment segment => exact (attempt_one _ path).symm
  | paramSegment name => exact (attempt_one _ path).symm
  | optionalParamSegment name =>
    obtain ⟨reading', read⟩ := optionalParam_step name (stands_start path)
    obtain ⟨part, tested, -⟩ := Option.bind_eq_some_iff.mp read
    have tested : (Segments.optionalParamSegment name).test path = some part := tested
    have all : attempt (included 1 0 [.optionalParamSegment name]) path = some part :=
      (attempt_one _ path).trans tested
    have count : (Segments.optionalParamSegment name).leaves.countP Segments.optional = 1 := rfl
    rw [count, firstOf, Segments.leaves, all, Option.some_or]
    · exact tested
    · simp
  | wildcardSegment name => exact (attempt_one _ path).symm
  | tuple fields =>
    rw [Segments.plain, Bool.or_eq_true] at plain
    by_cases single : fields.all Segments.single = true
    · have single := List.all_eq_true.mp single
      rw [single_firstOf single, Segments.leaves, single_count single]
      congr 1
      funext includeOptionals
      rw [attempt, attempt, single_steps single (stands_start path)]
    · have last := plain.resolve_left single
      rw [tuple_of_lastPlain last]
      exact lastPlain_eq fields last (stands_start path)

theorem lastPlain_eq (fields : List Segments) (plain : Segments.lastPlain fields = true) {before : Path}
    {reading : Reading} (stands : reading.Stands before) :
    (reading.steps fields).bind Reading.finish =
      firstOf (fun includeOptionals =>
          (reading.steps (included includeOptionals 0 (Segments.allLeaves fields))).bind Reading.finish)
        ((Segments.allLeaves fields).countP Segments.optional) := by
  cases fields with
  | nil => cases plain
  | cons field fields =>
    rw [Segments.lastPlain] at plain
    cases optional : field.optional with
    | true =>
      rw [optional, if_pos rfl, Bool.and_eq_true, List.isEmpty_iff] at plain
      rw [Segments.allLeaves, plain.2, List.append_nil, ← firstOf_shift stands
        (plain_eq field plain.1 reading.r), Reading.steps]
      cases stepped : reading.step field with
      | none => rfl
      | some reading' =>
        obtain ⟨taken, stands'⟩ := stands.step stepped
        rw [Option.bind_some, steps_empty plain.2 stands']
    | false =>
      rw [optional] at plain
      have none_ : field.leaves.countP Segments.optional = 0 :=
        List.countP_eq_zero.mpr fun leaf member => by simp [always_leaves optional leaf member]
      rw [Segments.allLeaves, List.countP_append, none_, Nat.zero_add]
      simp only [included_required (always_leaves optional), steps_append, Reading.steps,
        step_of_not_optional optional stands]
      cases stepped : reading.steps field.leaves with
      | none =>
        rw [firstOf_none]
        · rfl
        · exact fun _ => rfl
      | some reading' =>
        obtain ⟨taken, stands'⟩ := stands.steps stepped
        exact lastPlain_eq fields plain stands'

end

/-! ## Nested tuples and flat ones -/

theorem leftAfter_eq (leaves : List Segments) (stands : reading.Stands before) :
    leftAfter leaves reading.r = (reading.steps leaves).map (·.r) := by
  induction leaves generalizing before reading with
  | nil => rfl
  | cons leaf leaves ih =>
    rw [leftAfter, Reading.steps, stands.step_eq]
    cases tested : leaf.test reading.r with
    | none => rfl
    | some part =>
      have stepped : reading.step leaf = some (reading.after part) := by
        rw [stands.step_eq, tested]
        rfl
      obtain ⟨taken, stands'⟩ := stands.step stepped
      exact ih stands'

/-- What a path that is read at once gives, the grouping of the segments apart. -/
theorem tuple_not_again {fields : List Segments} {path : Path}
    (once : (Segments.tuple fields).triesAgain path = false) :
    (Segments.tuple fields).test path = attempt (Segments.allLeaves fields) path := by
  refine tuple_at_once ?_
  rw [Segments.triesAgain, Segments.leaves, Bool.and_eq_false_iff] at once
  have left (leaves : List Segments) := leftAfter_eq leaves (stands_start path)
  simp only [Reading.start] at left ⊢
  rw [left, left] at once
  rcases once with stuck | read
  · exact .inl (by simpa using stuck)
  · refine .inr fun none_ => ?_
    simp [none_] at read

end Halyard.Router
