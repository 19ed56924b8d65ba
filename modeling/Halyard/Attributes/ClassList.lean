import Halyard.Entries.Format

/-!
# The class list

A `class` attribute as the tokens between its white space, in the order in which they first occur.
-/

namespace Halyard.Attributes

open Entries

def isSpace (c : Char) : Bool :=
  c = '\t' ∨ c = '\n' ∨ c = '\x0c' ∨ c = '\r' ∨ c = ' '

def words (text : List Char) : List (List Char) :=
  (text.splitOnP isSpace).filter fun word => word ≠ []

def addWords (words : List (List Char)) (entries : List (List Char × Unit)) :
    List (List Char × Unit) :=
  words.foldl (fun entries word => put word () entries) entries

/-- A name that `DOMTokenList` takes: the others make `add` and `remove` throw. -/
def IsToken (word : List Char) : Prop :=
  word ≠ [] ∧ word.all (fun c => !isSpace c) = true

instance (word : List Char) : Decidable (IsToken word) :=
  inferInstanceAs (Decidable (_ ∧ _))

theorem IsToken.noSpace {word : List Char} (token : IsToken word) : ∀ c ∈ word, isSpace c = false := by
  simpa using token.2

theorem nodup_addWords {words : List (List Char)} {entries : List (List Char × Unit)}
    (nodup : (names entries).Nodup) : (names (addWords words entries)).Nodup := by
  induction words generalizing entries with
  | nil => exact nodup
  | cons word rest ih => exact ih (nodup_put nodup)

theorem put_of_not_mem {word : List Char} {entries : List (List Char × Unit)}
    (absent : word ∉ names entries) : put word () entries = entries ++ [(word, ())] := by
  induction entries with
  | nil => rfl
  | cons entry rest ih =>
    have differ : entry.1 ≠ word := by
      rintro rfl
      exact absent List.mem_cons_self
    rw [put, if_neg differ, ih fun there => absent (List.mem_cons_of_mem _ there)]
    rfl

theorem addWords_names {entries before : List (List Char × Unit)}
    (nodup : (names (before ++ entries)).Nodup) :
    addWords (names entries) before = before ++ entries := by
  induction entries generalizing before with
  | nil => exact (List.append_nil before).symm
  | cons entry rest ih =>
    have absent : entry.1 ∉ names before := by
      intro there
      rw [names, List.map_append] at nodup
      exact (List.nodup_append.mp nodup).2.2 entry.1 there entry.1 List.mem_cons_self rfl
    have first : put entry.1 () before = before ++ [entry] := put_of_not_mem absent
    change addWords (names rest) (put entry.1 () before) = _
    rw [first, ih (by simpa using nodup), List.append_assoc, List.singleton_append]

theorem words_cons {word text : List Char} (token : IsToken word) :
    words (word ++ ' ' :: text) = word :: words text := by
  rw [words, List.splitOnP_append_cons_of_forall_mem token.noSpace ' ' rfl, List.filter_cons,
    if_pos (by simpa using token.1)]
  rfl

theorem words_of_token {word : List Char} (token : IsToken word) : words word = [word] := by
  rw [words, List.splitOnP_eq_singleton token.noSpace]
  simp [token.1]

theorem words_intercalate {tokens : List (List Char)} (fits : ∀ word ∈ tokens, IsToken word) :
    words ([' '].intercalate tokens) = tokens := by
  induction tokens with
  | nil => rfl
  | cons word rest ih =>
    have token := fits word List.mem_cons_self
    have next := ih fun later there => fits later (List.mem_cons_of_mem _ there)
    cases rest with
    | nil => simpa using words_of_token token
    | cons second rest =>
      rw [List.intercalate_cons_cons, List.append_assoc, List.singleton_append, words_cons token, next]

theorem token_of_mem {entries : List (List Char × Unit)} (fits : ∀ entry ∈ entries, IsToken entry.1) :
    ∀ word ∈ names entries, IsToken word := by
  intro word there
  obtain ⟨entry, mem, rfl⟩ := List.mem_map.mp there
  exact fits entry mem

/-- `DOMTokenList`: every `add` and `remove` writes the attribute again. -/
def classList : Format (List Char) (List Char) Unit where
  parse text := addWords (words text) []
  print entries := [' '].intercalate (names entries)
  Fits entry := IsToken entry.1
  eager := true
  nodup_parse _ := nodup_addWords List.nodup_nil
  parse_print _ nodup fits :=
    (congrArg (addWords · []) (words_intercalate (token_of_mem fits))).trans (addWords_names nodup)

end Halyard.Attributes
