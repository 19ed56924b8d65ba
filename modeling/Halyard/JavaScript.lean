import Mathlib

/-!
# ECMAScript string literals

The value of a double-quoted string literal in a classic script (not strict, so with the legacy octal
escapes), and UTF-16.  The value of a string is a list of code units.

* `decodeUtf16_utf16`: decoding the code units of a text gives it back.
-/

namespace Halyard.JavaScript

/-! ## UTF-16 -/

/-- `UTF16EncodeCodePoint`. -/
def encodeCodePoint (c : ℕ) : List ℕ :=
  if c < 0x10000 then [c]
  else [(c - 0x10000) / 0x400 + 0xD800, (c - 0x10000) % 0x400 + 0xDC00]

def utf16 (text : List Char) : List ℕ :=
  text.flatMap fun c => encodeCodePoint c.toNat

/-- The character of a code unit that is no part of a pair. -/
def ofUnit (unit : ℕ) : Char :=
  if 0xD800 ≤ unit ∧ unit < 0xE000 then Char.ofNat 0xFFFD else Char.ofNat unit

/-- The text of code units; what is left of a pair becomes U+FFFD. -/
def decodeUtf16 : List ℕ → List Char
  | [] => []
  | [unit] => [ofUnit unit]
  | high :: low :: rest =>
      if (0xD800 ≤ high ∧ high < 0xDC00) ∧ 0xDC00 ≤ low ∧ low < 0xE000 then
        Char.ofNat ((high - 0xD800) * 0x400 + (low - 0xDC00) + 0x10000) :: decodeUtf16 rest
      else ofUnit high :: decodeUtf16 (low :: rest)

/-! ## String literals -/

def hexDigit? (c : Char) : Option ℕ :=
  if '0' ≤ c ∧ c ≤ '9' then some (c.toNat - '0'.toNat)
  else if 'a' ≤ c ∧ c ≤ 'f' then some (c.toNat - 'a'.toNat + 10)
  else if 'A' ≤ c ∧ c ≤ 'F' then some (c.toNat - 'A'.toNat + 10)
  else none

def octalDigit? (c : Char) : Option ℕ :=
  if '0' ≤ c ∧ c ≤ '7' then some (c.toNat - '0'.toNat) else none

/-- `CodePoint }`, after `\u{`. -/
def codePoint (value : Option ℕ) : List Char → Option (List ℕ × List Char)
  | [] => none
  | c :: rest =>
      if c = '}' then
        value.bind fun n => if n ≤ 0x10FFFF then some (encodeCodePoint n, rest) else none
      else (hexDigit? c).bind fun digit => codePoint (some (value.getD 0 * 16 + digit)) rest

/-- `LegacyOctalEscapeSequence`, after its first digit: up to three digits, up to `377`. -/
def legacyOctal (first : ℕ) : List Char → List ℕ × List Char
  | [] => ([first], [])
  | c :: rest =>
      match octalDigit? c with
      | none => ([first], c :: rest)
      | some second =>
          match rest with
          | [] => ([first * 8 + second], [])
          | d :: rest =>
              match octalDigit? d with
              | none => ([first * 8 + second], d :: rest)
              | some third =>
                  if first ≤ 3 then ([(first * 8 + second) * 8 + third], rest)
                  else ([first * 8 + second], d :: rest)

/-- The value of hexadecimal digits. -/
def hexValue : List Char → Option ℕ
  | [] => some 0
  | digits =>
      digits.foldl (fun value c => value.bind fun n => (hexDigit? c).map fun d => n * 16 + d) (some 0)

/-- What stands behind a backslash: its code units, and the rest. -/
def escapeSequence : List Char → Option (List ℕ × List Char)
  | [] => none
  | 'b' :: rest => some ([8], rest)
  | 't' :: rest => some ([9], rest)
  | 'n' :: rest => some ([10], rest)
  | 'v' :: rest => some ([11], rest)
  | 'f' :: rest => some ([12], rest)
  | 'r' :: rest => some ([13], rest)
  | 'x' :: rest => (hexValue (rest.take 2)).bind fun n =>
      if 2 ≤ rest.length then some ([n], rest.drop 2) else none
  | 'u' :: '{' :: rest => codePoint none rest
  | 'u' :: rest => (hexValue (rest.take 4)).bind fun n =>
      if 4 ≤ rest.length then some ([n], rest.drop 4) else none
  -- `LineContinuation`
  | '\r' :: '\n' :: rest => some ([], rest)
  | c :: rest =>
      if c = '\r' ∨ c = '\n' ∨ c.toNat = 0x2028 ∨ c.toNat = 0x2029 then some ([], rest)
      else
        match octalDigit? c with
        | some digit => some (legacyOctal digit rest)
        -- quotes, the backslash, `8`, `9` and every other character
        | none => some (encodeCodePoint c.toNat, rest)

/-- The rest of a literal, behind its opening quote.  Each turn consumes a character, so the length
of the source is enough turns. -/
def stringBody : ℕ → List Char → Option (List ℕ × List Char)
  | 0, _ => none
  | _ + 1, [] => none
  | turns + 1, c :: rest =>
      if c = '"' then some ([], rest)
      else if c = '\\' then
        (escapeSequence rest).bind fun (units, rest) =>
          (stringBody turns rest).map fun (more, rest) => (units ++ more, rest)
      else if c = '\n' ∨ c = '\r' then none
      else (stringBody turns rest).map fun (more, rest) => (encodeCodePoint c.toNat ++ more, rest)

/-- The value of the string literal that a source begins with, and the source behind it. -/
def stringLiteral : List Char → Option (List ℕ × List Char)
  | '"' :: rest => stringBody rest.length rest
  | _ => none

/-! ## Facts -/

theorem toNat_lt_surrogates (c : Char) :
    c.toNat < 0xD800 ∨ (0xE000 ≤ c.toNat ∧ c.toNat < 0x110000) := by
  have valid := c.valid
  simp only [UInt32.isValidChar, Nat.isValidChar] at valid
  change c.val.toNat < _ ∨ (_ ≤ c.val.toNat ∧ c.val.toNat < _)
  omega

theorem decodeUtf16_encodeCodePoint (c : Char) (rest : List ℕ)
    (restHead : ∀ unit ∈ rest.head?, ¬ (0xDC00 ≤ unit ∧ unit < 0xE000)) :
    decodeUtf16 (encodeCodePoint c.toNat ++ rest) = c :: decodeUtf16 rest := by
  have range := toNat_lt_surrogates c
  unfold encodeCodePoint
  split
  · rename_i small
    have unit : ofUnit c.toNat = c := by
      unfold ofUnit
      rw [if_neg (by omega), Char.ofNat_toNat]
    cases rest with
    | nil => simp [decodeUtf16, unit]
    | cons next rest =>
      have next' := restHead next (by simp)
      simp only [List.singleton_append, decodeUtf16]
      rw [if_neg (by tauto), unit]
  · rename_i large
    simp only [List.cons_append, List.nil_append, decodeUtf16]
    rw [if_pos (by omega)]
    have whole : ((c.toNat - 0x10000) / 0x400 + 0xD800 - 0xD800) * 0x400 +
        ((c.toNat - 0x10000) % 0x400 + 0xDC00 - 0xDC00) + 0x10000 = c.toNat := by
      omega
    rw [whole, Char.ofNat_toNat]

theorem head_utf16 (text : List Char) :
    ∀ unit ∈ (utf16 text).head?, ¬ (0xDC00 ≤ unit ∧ unit < 0xE000) := by
  intro unit first
  cases text with
  | nil => simp [utf16] at first
  | cons c rest =>
    have range := toNat_lt_surrogates c
    simp only [utf16, List.flatMap_cons, encodeCodePoint] at first
    split at first <;> simp only [List.cons_append, List.head?_cons, Option.mem_def,
      Option.some.injEq] at first <;> omega

theorem decodeUtf16_utf16 (text : List Char) : decodeUtf16 (utf16 text) = text := by
  induction text with
  | nil => rfl
  | cons c rest ih =>
    have step := decodeUtf16_encodeCodePoint c (utf16 rest) (head_utf16 rest)
    rw [ih] at step
    simpa [utf16] using step

end Halyard.JavaScript
