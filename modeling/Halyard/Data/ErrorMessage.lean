import Halyard.Data.Resource

/-!
# The message of an error, in the page

`SsrSharedContext::pending_data` and `AsyncDataStream::poll_next` write an error as
`[boundary, error, message]`, the message formatted with `{:?}` and every `<` of that replaced by an escape.

* `messages_arrive_iff`: which messages JavaScript reads back.
-/

namespace Halyard.Data

open JavaScript

variable (unicode : Unicode)

/-! ## What is written -/

/-- The literal of a message: first `{:?}`, then the replacement. -/
def messageLiteral (message : List Char) : List Char :=
  replaceLt (debug unicode message)

/-- Where errors are written: in the array of the initial chunk, or pushed to it by a later one. -/
inductive ErrorChunk where
  | initial
  | later
  deriving DecidableEq, Repr

/-- What the chunk has before the message. -/
def ErrorChunk.before (chunk : ErrorChunk) (boundary error : ℕ) : List Char :=
  let ids := "[".toList ++ Nat.toDigits 10 boundary ++ ", ".toList ++ Nat.toDigits 10 error ++ ", ".toList
  match chunk with
  | .initial => ids
  | .later => "__SERIALIZED_ERRORS.push(".toList ++ ids

/-- What it has behind it. -/
def ErrorChunk.behind : ErrorChunk → List Char
  | .initial => "],".toList
  | .later => "]);".toList

/-- An error, as the chunk has it. -/
def ErrorChunk.entry (chunk : ErrorChunk) (boundary error : ℕ) (message : List Char) : List Char :=
  chunk.before boundary error ++ messageLiteral unicode message ++ chunk.behind

/-! ## What JavaScript reads -/

/-- What is written for a character of a message. -/
def escapeMessage (c : Char) : List Char :=
  if c = '<' then ['\\', 'u', '0', '0', '3', 'c'] else escapeDebug unicode c

theorem replaceLt_of_not_mem {text : List Char} (absent : '<' ∉ text) : replaceLt text = text := by
  induction text with
  | nil => rfl
  | cons c rest ih =>
    rw [List.mem_cons, not_or] at absent
    rw [replaceLt_cons (Ne.symm absent.1), ih absent.2]

theorem replaceLt_append (first second : List Char) :
    replaceLt (first ++ second) = replaceLt first ++ replaceLt second := by
  simp [replaceLt]

theorem escapeDebug_lt : escapeDebug unicode '<' = ['<'] := by
  have printable : unicode.printable '<' = true := (unicode.ascii '<' (by decide)).mpr (by decide)
  unfold escapeDebug
  rw [if_neg (by decide), if_neg (by decide), if_neg (by decide), if_neg (by decide), if_neg (by decide),
    if_neg (by decide), if_pos printable]

theorem replaceLt_escapeDebug (c : Char) : replaceLt (escapeDebug unicode c) = escapeMessage unicode c := by
  unfold escapeMessage
  split
  next is =>
    rw [is, escapeDebug_lt]
    rfl
  next other => exact replaceLt_of_not_mem (lt_not_mem_escapeDebug unicode other)

/-- The replacement acts on each character of the message. -/
theorem messageLiteral_eq (message : List Char) :
    messageLiteral unicode message = '"' :: (message.flatMap (escapeMessage unicode) ++ ['"']) := by
  have body : replaceLt (message.flatMap (escapeDebug unicode)) = message.flatMap (escapeMessage unicode) := by
    induction message with
    | nil => rfl
    | cons c rest ih =>
      rw [List.flatMap_cons, List.flatMap_cons, replaceLt_append, replaceLt_escapeDebug, ih]
  rw [messageLiteral, debug, replaceLt_cons (by decide), replaceLt_append, body]
  rfl

theorem escapes_escapeMessage : Escapes (escapeMessage unicode) where
  octal c digit octal := by
    rw [escapeMessage, if_neg (ne_lt_of_octal octal), printable_of_octal unicode octal]
  other c other := by
    unfold escapeMessage
    split
    · exact ⟨'\\', _, rfl, by decide⟩
    · exact escapeDebug_of_not_octal unicode other
  read c notNul turns rest := by
    unfold escapeMessage
    split
    next is =>
      subst is
      rfl
    next => exact stringBody_escapeDebug unicode notNul turns rest
  nul := by
    rw [escapeMessage, if_neg (by decide)]
    rfl

theorem stringLiteral_message (message rest : List Char) :
    stringLiteral (messageLiteral unicode message ++ rest) = some (utf16 (seen message), rest) := by
  have read := (escapes_escapeMessage unicode).stringLiteral_text message rest
  rw [messageLiteral_eq]
  simpa using read

/-! ## Which messages arrive -/

theorem lt_not_mem_messageLiteral (message : List Char) : '<' ∉ messageLiteral unicode message :=
  lt_not_mem_replaceLt _

theorem utf16_inj {first second : List Char} (same : utf16 first = utf16 second) : first = second := by
  rw [← decodeUtf16_utf16 first, same, decodeUtf16_utf16]

/-- The literal of the chunk's entry evaluates to the very message, and has no `<`. -/
def Arrives (chunk : ErrorChunk) (boundary error : ℕ) (message : List Char) : Prop :=
  stringLiteral ((chunk.entry unicode boundary error message).drop (chunk.before boundary error).length) =
      some (utf16 message, chunk.behind) ∧
    '<' ∉ messageLiteral unicode message

/-- In the initial chunk and in later ones, a message arrives exactly when no octal digit stands directly behind
a NUL in it. -/
theorem messages_arrive_iff (chunk : ErrorChunk) (boundary error : ℕ) (message : List Char) :
    Arrives unicode chunk boundary error message ↔ NulClean message := by
  have literal : (chunk.entry unicode boundary error message).drop (chunk.before boundary error).length =
      messageLiteral unicode message ++ chunk.behind := by
    rw [ErrorChunk.entry, List.append_assoc, List.drop_left]
  rw [← seen_eq_iff, Arrives, literal, stringLiteral_message]
  constructor
  · rintro ⟨read, -⟩
    rw [Option.some.injEq, Prod.mk.injEq] at read
    exact utf16_inj read.1
  · intro back
    rw [back]
    exact ⟨rfl, lt_not_mem_messageLiteral unicode message⟩

/-- A NUL before a `7` arrives as the one character U+0007. -/
theorem nul_seven_arrives_bell :
    stringLiteral ((ErrorChunk.initial.entry ascii 1 2 ['\x00', '7']).drop
        (ErrorChunk.initial.before 1 2).length) = some ([7], ErrorChunk.initial.behind) ∧
      ¬ Arrives ascii .initial 1 2 ['\x00', '7'] := by
  have literal : (ErrorChunk.initial.entry ascii 1 2 ['\x00', '7']).drop
      (ErrorChunk.initial.before 1 2).length =
        messageLiteral ascii ['\x00', '7'] ++ ErrorChunk.initial.behind := by
    rw [ErrorChunk.entry, List.append_assoc, List.drop_left]
  have arrives : stringLiteral ((ErrorChunk.initial.entry ascii 1 2 ['\x00', '7']).drop
      (ErrorChunk.initial.before 1 2).length) = some ([7], ErrorChunk.initial.behind) := by
    rw [literal, stringLiteral_message]
    rfl
  refine ⟨arrives, ?_⟩
  rintro ⟨read, -⟩
  rw [arrives] at read
  exact absurd (congrArg (Option.map Prod.fst) read) (by decide)

end Halyard.Data
