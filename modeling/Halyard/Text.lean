import Mathlib.Data.String.Basic
import Mathlib.Data.List.TakeWhile

/-!
# Texts cut at byte offsets

A text is the list of its characters, and an offset into it counts the bytes of their UTF-8 encoding.
A cut is at the size of an initial part of the text, or it is within a character and fails.
-/

namespace Halyard.Text

open String

/-- The parts before and after a byte offset; `none` if it is past the end or within a character. -/
def splitAtChecked : List Char → ℕ → Option (List Char × List Char)
  | text, 0 => some ([], text)
  | [], _ + 1 => none
  | c :: text, mid + 1 =>
      if c.utf8Size ≤ mid + 1 then
        (splitAtChecked text (mid + 1 - c.utf8Size)).map fun parts => (c :: parts.1, parts.2)
      else none

/-- The byte offset of a character's first occurrence. -/
def find (c : Char) : List Char → Option ℕ
  | [] => none
  | d :: text => if d = c then some 0 else (find c text).map (· + d.utf8Size)

theorem splitAtChecked_append (before after : List Char) :
    splitAtChecked (before ++ after) (utf8Len before) = some (before, after) := by
  induction before with
  | nil => simp [splitAtChecked]
  | cons c before ih =>
    obtain ⟨mid, size⟩ : ∃ mid, utf8Len (c :: before) = mid + 1 :=
      Nat.exists_eq_succ_of_ne_zero (by simp [c.utf8Size_pos.ne'])
    have rest : mid + 1 - c.utf8Size = utf8Len before := by
      rw [← size, utf8Len_cons, Nat.add_sub_cancel]
    have fits : c.utf8Size ≤ mid + 1 := by
      rw [← size, utf8Len_cons]
      exact Nat.le_add_left _ _
    rw [size, List.cons_append, splitAtChecked, if_pos fits, rest, ih]
    rfl

theorem splitAtChecked_eq_some {text before after : List Char} {mid : ℕ}
    (cut : splitAtChecked text mid = some (before, after)) :
    text = before ++ after ∧ mid = utf8Len before := by
  induction text generalizing before after mid with
  | nil =>
    cases mid with
    | zero =>
      cases cut
      exact ⟨rfl, rfl⟩
    | succ mid => cases cut
  | cons c text ih =>
    cases mid with
    | zero =>
      cases cut
      exact ⟨rfl, rfl⟩
    | succ mid =>
      simp only [splitAtChecked] at cut
      split at cut
      next fits =>
        obtain ⟨parts, inner, whole⟩ := Option.map_eq_some_iff.mp cut
        obtain ⟨rfl, size⟩ := ih inner
        cases whole
        refine ⟨rfl, ?_⟩
        rw [utf8Len_cons]
        omega
      next => cases cut

theorem find_eq_none {c : Char} {text : List Char} (absent : c ∉ text) : find c text = none := by
  induction text with
  | nil => rfl
  | cons d text ih =>
    rw [List.mem_cons, not_or] at absent
    rw [find, if_neg (Ne.symm absent.1), ih absent.2]
    rfl

theorem find_eq_some {c : Char} {text : List Char} (present : c ∈ text) :
    find c text = some (utf8Len (text.takeWhile (· ≠ c))) := by
  induction text with
  | nil => cases present
  | cons d text ih =>
    by_cases same : d = c
    · simp [find, same]
    · have later : c ∈ text := (List.mem_cons.mp present).resolve_left (Ne.symm same)
      rw [find, if_neg same, ih later, List.takeWhile_cons_of_pos (by simpa using same)]
      rfl

/-- A text cut at a character's first occurrence. -/
theorem splitAtChecked_find {c : Char} {text : List Char} {mid : ℕ} (found : find c text = some mid) :
    splitAtChecked text mid = some (text.takeWhile (· ≠ c), text.dropWhile (· ≠ c)) := by
  have present : c ∈ text := by
    by_contra absent
    rw [find_eq_none absent] at found
    cases found
  rw [find_eq_some present, Option.some.injEq] at found
  have cut := splitAtChecked_append (text.takeWhile (· ≠ c)) (text.dropWhile (· ≠ c))
  rwa [List.takeWhile_append_dropWhile, found] at cut

end Halyard.Text
