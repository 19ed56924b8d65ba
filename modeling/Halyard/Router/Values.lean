import Halyard.Router.Parts

/-!
# Where the values of a match stand

* `takes_fills`: what segments read, they read one after another from the text that they take.
* `test_divides`: a match cuts its path in two, at the ends of characters, and its values stand in the
  first part in the order of the segments.
-/

namespace Halyard.Router

open String Text

/-- The name that a segment gives its value. -/
def Segments.paramName : Segments → Option String
  | .staticSegment _ => none
  | .paramSegment name => some name
  | .optionalParamSegment name => some name
  | .wildcardSegment name => some name
  | .tuple _ => none

/-- The text is made of the segments' parts in their order, and the params' values stand in them. -/
inductive Fills : List Segments → Params → Path → Prop
  | nil : Fills [] [] []
  | pass {leaf : Segments} {leaves : List Segments} {params : Params} {part text : Path} :
      Fills leaves params text → Fills (leaf :: leaves) params (part ++ text)
  | value {leaf : Segments} {leaves : List Segments} {params : Params} {name : String}
      {before value text : Path} : leaf.paramName = some name → Fills leaves params text →
      Fills (leaf :: leaves) ((name, value) :: params) (before ++ value ++ text)

theorem Fills.append {leaves others : List Segments} {params more : Params} {text after : Path}
    (fills : Fills leaves params text) (rest : Fills others more after) :
    Fills (leaves ++ others) (params ++ more) (text ++ after) := by
  induction fills with
  | nil => exact rest
  | pass _ ih =>
    rw [List.append_assoc]
    exact .pass ih
  | value named _ ih =>
    rw [List.append_assoc]
    exact .value named ih

/-- Segments that are left out have an empty part. -/
theorem Fills.none (leaves : List Segments) : Fills leaves [] [] := by
  induction leaves with
  | nil => exact .nil
  | cons leaf leaves ih => exact @Fills.pass leaf leaves [] [] [] ih

theorem Fills.infix {leaves : List Segments} {params : Params} {text : Path}
    (fills : Fills leaves params text) : ∀ param ∈ params, param.2 <:+: text := by
  induction fills with
  | nil => simp
  | pass _ ih => exact fun param member => (ih param member).trans (List.suffix_append _ _).isInfix
  | @value _ _ _ name before value text _ _ ih =>
    intro param member
    rcases List.mem_cons.mp member with rfl | member
    · exact ⟨before, text, rfl⟩
    · exact (ih param member).trans (List.suffix_append _ _).isInfix

theorem Fills.part (leaf : Segments) (part : Path) : Fills [leaf] [] part := by
  have fills := @Fills.pass leaf [] [] part [] .nil
  rwa [List.append_nil] at fills

theorem Fills.afterSlash {leaf : Segments} {name : String} (named : leaf.paramName = some name)
    (value : Path) : Fills [leaf] [(name, value)] ('/' :: value) := by
  have fills := @Fills.value leaf [] [] name ['/'] value [] named .nil
  rwa [List.append_nil] at fills

mutual

/-- What segments read stands in the text before the rest, in their order. -/
theorem takes_fills {segments : Segments} {path rest : Path} {params : Params}
    (takes : Takes segments path rest params) :
    ∃ taken, path = taken ++ rest ∧ Fills segments.leaves params taken := by
  cases takes with
  | empty _ => exact ⟨[], rfl, .none _⟩
  | slash => exact ⟨[], rfl, .none _⟩
  | @static segment _ _ _ _ _ => exact ⟨'/' :: staticName segment, rfl, .part _ _⟩
  | @param name value _ _ _ _ => exact ⟨'/' :: value, rfl, .afterSlash rfl value⟩
  | @optional name value _ _ _ _ => exact ⟨'/' :: value, rfl, .afterSlash rfl value⟩
  | absent _ => exact ⟨[], rfl, .none _⟩
  | @wildcard name value _ => exact ⟨'/' :: value, rfl, .afterSlash rfl value⟩
  | @nothing name _ => exact ⟨[], rfl, @Fills.value _ [] [] name [] [] [] rfl .nil⟩
  | tuple kept fields => exact takesFields_fills fields

theorem takesFields_fills {kept : ℕ} {fields : List Segments} {path rest : Path} {params : Params}
    (takes : TakesFields kept fields path rest params) :
    ∃ taken, path = taken ++ rest ∧ Fills (Segments.allLeaves fields) params taken := by
  cases takes with
  | nil => exact ⟨[], rfl, .nil⟩
  | always _ field rest =>
    obtain ⟨taken, rfl, fills⟩ := takes_fills field
    obtain ⟨others, rfl, fills'⟩ := takesFields_fills rest
    exact ⟨taken ++ others, (List.append_assoc _ _ _).symm, fills.append fills'⟩
  | kept _ field rest =>
    obtain ⟨taken, rfl, fills⟩ := takes_fills field
    obtain ⟨others, rfl, fills'⟩ := takesFields_fills rest
    exact ⟨taken ++ others, (List.append_assoc _ _ _).symm, fills.append fills'⟩
  | @dropped field _ _ _ _ _ rest =>
    obtain ⟨others, whole, fills⟩ := takesFields_fills rest
    exact ⟨others, whole, (Fills.none field.leaves).append fills⟩

end

/-- A match divides its path into the part that was consumed and the rest. -/
theorem test_divides {segments : Segments} {path : Path} {partialMatch : PartialPathMatch}
    (tested : segments.test path = some partialMatch) :
    ∃ consumed handed : Path,
      path = consumed ++ partialMatch.remaining ∧ partialMatch.matched <+: path ∧
        partialMatch.matched = consumed ++ handed ∧
        (handed = [] ∨ handed = ['/'] ∧ handed <+: partialMatch.remaining ∧
          .staticSegment ['/'] ∈ segments.leaves) ∧
        Fills segments.leaves partialMatch.params consumed ∧
        (∀ param ∈ partialMatch.params, param.2 <:+: consumed) ∧
        splitAtChecked path (utf8Len consumed) = some (consumed, partialMatch.remaining) ∧
        ∃ after, splitAtChecked path (utf8Len partialMatch.matched) = some (partialMatch.matched, after) := by
  obtain ⟨consumed, handed, sound⟩ := test_sound segments tested
  obtain ⟨after, left⟩ := sound.hands.starts
  have whole : path = partialMatch.matched ++ after := by
    rw [sound.matched, List.append_assoc, left]
    exact sound.path
  obtain ⟨taken, same, fills⟩ := takes_fills (sound.takes handed sound.hands.starts le_rfl)
  rw [← List.append_cancel_right same] at fills
  refine ⟨consumed, handed, sound.path, ⟨after, whole.symm⟩, sound.matched, ?_, fills, fills.infix, ?_,
    after, ?_⟩
  · by_cases none_ : handed = []
    · exact .inl none_
    · obtain ⟨slash, starts⟩ := sound.hands.resolve_left none_
      exact .inr ⟨slash, starts, sound.reported none_⟩
  · rw [sound.path]
    exact splitAtChecked_append _ _
  · rw [whole]
    exact splitAtChecked_append _ _

/-- A param between slashes that are left for what comes next, in a path with longer characters. -/
theorem test_divides_slashes :
    ∃ consumed handed : Path,
      ['/', 'é', '/', 'x'] = consumed ++ ['/', 'x'] ∧ ['/', 'é', '/'] <+: ['/', 'é', '/', 'x'] ∧
        ['/', 'é', '/'] = consumed ++ handed ∧
        (handed = [] ∨ handed = ['/'] ∧ handed <+: ['/', 'x'] ∧
          .staticSegment ['/'] ∈ [Segments.staticSegment ['/'], .paramSegment "id", .staticSegment ['/']]) ∧
        Fills [.staticSegment ['/'], .paramSegment "id", .staticSegment ['/']] [("id", ['é'])] consumed ∧
        (∀ param ∈ [("id", ['é'])], param.2 <:+: consumed) ∧
        splitAtChecked ['/', 'é', '/', 'x'] (utf8Len consumed) = some (consumed, ['/', 'x']) ∧
        ∃ after, splitAtChecked ['/', 'é', '/', 'x'] (utf8Len ['/', 'é', '/']) =
          some (['/', 'é', '/'], after) :=
  @test_divides (.tuple [.tuple [.staticSegment ['/'], .paramSegment "id"], .staticSegment ['/']])
    ['/', 'é', '/', 'x'] ⟨['/', 'x'], [("id", ['é'])], ['/', 'é', '/']⟩ rfl

end Halyard.Router
