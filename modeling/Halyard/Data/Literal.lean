import Halyard.JavaScript

/-!
# Text in a data script

A text that the server writes into a data script as a JavaScript string: Rust's `{:?}` of it, with
every `<` replaced by a JavaScript escape, before or after `{:?}`.

* `stringLiteral_debug`: JavaScript reads the `{:?}` of a text as `seen` of it, which is the text
  where no octal digit follows a NUL.
-/

namespace Halyard.Data

open JavaScript

/-! ## Rust's `{:?}` of a string -/

/-- The characters that `char::escape_debug_ext` leaves as they are: printable ones that do not
extend a grapheme.  Which they are depends on the version of Unicode. -/
structure Unicode where
  printable : Char → Bool
  /-- All ASCII characters but the controls are. -/
  ascii : ∀ c : Char, c.toNat < 0x80 → (printable c = true ↔ 0x20 ≤ c.toNat ∧ c.toNat ≠ 0x7F)

variable (unicode : Unicode)

/-- One character of `{:?}` of a string, where `'` is not escaped. -/
def escapeDebug (c : Char) : List Char :=
  if c = '\x00' then ['\\', '0']
  else if c = '\t' then ['\\', 't']
  else if c = '\r' then ['\\', 'r']
  else if c = '\n' then ['\\', 'n']
  else if c = '\\' then ['\\', '\\']
  else if c = '"' then ['\\', '"']
  else if unicode.printable c then [c]
  else ['\\', 'u', '{'] ++ Nat.toDigits 16 c.toNat ++ ['}']

/-- `format!("{text:?}")`. -/
def debug (text : List Char) : List Char :=
  '"' :: (text.flatMap (escapeDebug unicode) ++ ['"'])

/-- `text.replace('<', "\\u003c")`. -/
def replaceLt (text : List Char) : List Char :=
  text.flatMap fun c => if c = '<' then ['\\', 'u', '0', '0', '3', 'c'] else [c]

/-! ## What JavaScript reads -/

/-- The value, as a text, that JavaScript gives the `{:?}` of a text: a NUL takes the octal digits
behind it as a legacy octal escape. -/
def seen : List Char → List Char
  | [] => []
  | c :: rest =>
      if c = '\x00' then
        match rest with
        | [] => ['\x00']
        | d :: more =>
            match octalDigit? d with
            | none => '\x00' :: seen (d :: more)
            | some second =>
                match more with
                | [] => [Char.ofNat second]
                | e :: others =>
                    match octalDigit? e with
                    | none => Char.ofNat second :: seen (e :: others)
                    | some third => Char.ofNat (second * 8 + third) :: seen others
      else c :: seen rest

theorem utf16_cons (c : Char) (text : List Char) :
    utf16 (c :: text) = encodeCodePoint c.toNat ++ utf16 text := by
  simp [utf16]

theorem octalDigit?_lt {c : Char} {digit : ℕ} (octal : octalDigit? c = some digit) : digit < 8 := by
  unfold octalDigit? at octal
  split at octal
  · rename_i range
    have low : '0'.toNat ≤ c.toNat := range.1
    have high : c.toNat ≤ '7'.toNat := range.2
    have zero : '0'.toNat = 48 := rfl
    have seven : '7'.toNat = 55 := rfl
    cases octal
    omega
  · cases octal

/-! ## Hexadecimal digits -/

theorem hexDigit?_digitChar {n : ℕ} (small : n < 16) : hexDigit? n.digitChar = some n := by
  interval_cases n <;> decide

theorem digitChar_ne_brace {n : ℕ} (small : n < 16) : n.digitChar ≠ '}' := by
  interval_cases n <;> decide

theorem digitChar_ne_lt {n : ℕ} (small : n < 16) : n.digitChar ≠ '<' := by
  interval_cases n <;> decide

/-- Digits come in front of what `codePoint` has read. -/
theorem codePoint_toDigits (n : ℕ) (rest : List Char) :
    codePoint none (Nat.toDigits 16 n ++ rest) = codePoint (some n) rest := by
  induction n using Nat.strong_induction_on generalizing rest with
  | _ n ih =>
    by_cases small : n < 16
    · rw [Nat.toDigits_of_lt_base small]
      simp [codePoint, digitChar_ne_brace small, hexDigit?_digitChar small]
    · have last : n % 16 < 16 := by omega
      rw [Nat.toDigits_of_base_le (by omega) (by omega), List.append_assoc, ih (n / 16) (by omega)]
      simp only [List.singleton_append, codePoint, if_neg (digitChar_ne_brace last),
        hexDigit?_digitChar last, Option.bind_some, Option.getD_some]
      congr 2
      omega

/-- `\u{..}` of a character is read as the character. -/
theorem escapeSequence_unicode (c : Char) (rest : List Char) :
    escapeSequence ('u' :: '{' :: (Nat.toDigits 16 c.toNat ++ '}' :: rest)) =
      some (encodeCodePoint c.toNat, rest) := by
  have range := toNat_lt_surrogates c
  have fits : c.toNat ≤ 0x10FFFF := by omega
  simp only [escapeSequence]
  rw [codePoint_toDigits]
  simp [codePoint, fits]

/-! ### The ways `seen` goes on -/

theorem seen_cons {c : Char} (notNul : c ≠ '\x00') (rest : List Char) :
    seen (c :: rest) = c :: seen rest := by
  rw [seen.eq_def]
  exact if_neg notNul

theorem seen_nul_other {d : Char} (other : octalDigit? d = none) (rest : List Char) :
    seen ('\x00' :: d :: rest) = '\x00' :: seen (d :: rest) := by
  rw [seen, if_pos rfl]
  simp only [other]

theorem seen_nul_one {d : Char} {second : ℕ} (octal : octalDigit? d = some second) :
    seen ['\x00', d] = [Char.ofNat second] := by
  rw [seen, if_pos rfl]
  simp only [octal]

theorem seen_nul_one_other {d e : Char} {second : ℕ} (octal : octalDigit? d = some second)
    (other : octalDigit? e = none) (rest : List Char) :
    seen ('\x00' :: d :: e :: rest) = Char.ofNat second :: seen (e :: rest) := by
  rw [seen, if_pos rfl]
  simp only [octal, other]

theorem seen_nul_two {d e : Char} {second third : ℕ} (octal : octalDigit? d = some second)
    (octal' : octalDigit? e = some third) (rest : List Char) :
    seen ('\x00' :: d :: e :: rest) = Char.ofNat (second * 8 + third) :: seen rest := by
  rw [seen, if_pos rfl]
  simp only [octal, octal']

/-! ## Reading `{:?}` -/

theorem printable_of_octal {c : Char} {digit : ℕ} (octal : octalDigit? c = some digit) :
    escapeDebug unicode c = [c] := by
  unfold octalDigit? at octal
  split at octal
  · rename_i range
    have low : 48 ≤ c.toNat := range.1
    have high : c.toNat ≤ 55 := range.2
    have printable : unicode.printable c = true :=
      (unicode.ascii c (by omega)).mpr ⟨by omega, by omega⟩
    have other : ∀ d : Char, d.toNat < 48 ∨ 55 < d.toNat → c ≠ d := by
      intro d out eq
      subst eq
      omega
    unfold escapeDebug
    rw [if_neg (other _ (by decide)), if_neg (other _ (by decide)), if_neg (other _ (by decide)),
      if_neg (other _ (by decide)), if_neg (other _ (by decide)), if_neg (other _ (by decide)),
      if_pos printable]
  · cases octal

/-- What stands first in the `{:?}` of a character that is no octal digit is none either. -/
theorem escapeDebug_of_not_octal {c : Char} (other : octalDigit? c = none) :
    ∃ first rest, escapeDebug unicode c = first :: rest ∧ octalDigit? first = none := by
  have slash : octalDigit? '\\' = none := by decide
  unfold escapeDebug
  split_ifs
  · exact ⟨_, _, rfl, slash⟩
  · exact ⟨_, _, rfl, slash⟩
  · exact ⟨_, _, rfl, slash⟩
  · exact ⟨_, _, rfl, slash⟩
  · exact ⟨_, _, rfl, slash⟩
  · exact ⟨_, _, rfl, slash⟩
  · exact ⟨_, _, rfl, other⟩
  · exact ⟨_, _, rfl, slash⟩

/-- A character other than NUL is read back. -/
theorem stringBody_escapeDebug {c : Char} (notNul : c ≠ '\x00') (turns : ℕ) (rest : List Char) :
    stringBody (turns + 1) (escapeDebug unicode c ++ rest) =
      (stringBody turns rest).map fun (more, rest) => (encodeCodePoint c.toNat ++ more, rest) := by
  unfold escapeDebug
  rw [if_neg notNul]
  split_ifs with tab cr lf slash quote printable
  · subst tab
    rfl
  · subst cr
    rfl
  · subst lf
    rfl
  · subst slash
    rfl
  · subst quote
    rfl
  · simp [stringBody, quote, slash, lf, cr]
  · simp only [List.append_assoc, List.cons_append, List.nil_append, stringBody]
    rw [if_neg (by decide), if_pos trivial, escapeSequence_unicode]
    rfl

theorem utf16_octal {n : ℕ} (small : n < 64) (text : List Char) :
    utf16 (Char.ofNat n :: text) = [n] ++ utf16 text := by
  have valid : n.isValidChar := .inl (by omega)
  have value : (Char.ofNat n).toNat = n := by rw [Char.toNat_ofNat, if_pos valid]
  rw [utf16_cons, value, encodeCodePoint, if_pos (by omega)]

/-! ### Any way of escaping that keeps octal digits -/

/-- What is written for a character is read as it, unless it is NUL, which may take octal digits behind it;
octal digits stay as they are, and nothing else begins with one. -/
structure Escapes (escape : Char → List Char) : Prop where
  octal : ∀ c digit, octalDigit? c = some digit → escape c = [c]
  other : ∀ c, octalDigit? c = none → ∃ first rest, escape c = first :: rest ∧ octalDigit? first = none
  read : ∀ c, c ≠ '\x00' → ∀ turns rest, stringBody (turns + 1) (escape c ++ rest) =
    (stringBody turns rest).map fun (more, rest) => (encodeCodePoint c.toNat ++ more, rest)
  nul : escape '\x00' = ['\\', '0']

theorem escapes_escapeDebug : Escapes (escapeDebug unicode) where
  octal _ _ := printable_of_octal unicode
  other _ := escapeDebug_of_not_octal unicode
  read _ := stringBody_escapeDebug unicode
  nul := rfl

section Escapes

variable {escape : Char → List Char} (escapes : Escapes escape)

include escapes

theorem Escapes.cons_of_octal {c : Char} {digit : ℕ} (octal : octalDigit? c = some digit)
    (text rest : List Char) :
    (c :: text).flatMap escape ++ rest = c :: (text.flatMap escape ++ rest) := by
  simp [escapes.octal c digit octal]

/-- `legacyOctal` stops at a character that is no octal digit. -/
theorem Escapes.legacyOctal_of_not_octal (first : ℕ) {c : Char} (other : octalDigit? c = none)
    (text rest : List Char) :
    legacyOctal first ((c :: text).flatMap escape ++ rest) =
      ([first], (c :: text).flatMap escape ++ rest) := by
  obtain ⟨d, more, escaped, octal⟩ := escapes.other c other
  simp [escaped, legacyOctal, octal]

/-- A NUL is read together with what `legacyOctal` takes. -/
theorem Escapes.stringBody_nul (turns : ℕ) (rest : List Char) :
    stringBody (turns + 1) (escape '\x00' ++ rest) =
      (stringBody turns (legacyOctal 0 rest).2).map fun (more, tail) =>
        ((legacyOctal 0 rest).1 ++ more, tail) := by
  rw [escapes.nul]
  rfl

/-- JavaScript reads an escaped text, up to the closing quote, as `seen` of it. -/
theorem Escapes.stringBody_text (text rest : List Char) (turns : ℕ) (enough : text.length < turns) :
    stringBody turns (text.flatMap escape ++ '"' :: rest) = some (utf16 (seen text), rest) := by
  have quote : octalDigit? '"' = none := by decide
  obtain ⟨turns, rfl⟩ := Nat.exists_eq_succ_of_ne_zero (Nat.ne_of_gt (Nat.zero_lt_of_lt enough))
  induction text using seen.induct generalizing turns with
  | case1 => rfl
  | case2 =>
    obtain ⟨turns, rfl⟩ := Nat.exists_eq_succ_of_ne_zero (show turns ≠ 0 by simp at enough; omega)
    rw [List.flatMap_cons, List.append_assoc, escapes.stringBody_nul]
    rfl
  | case3 d others other ih =>
    obtain ⟨turns, rfl⟩ := Nat.exists_eq_succ_of_ne_zero (show turns ≠ 0 by simp at enough; omega)
    have rest' := ih turns (by simp at enough ⊢; omega)
    rw [List.flatMap_cons, List.append_assoc, escapes.stringBody_nul,
      escapes.legacyOctal_of_not_octal 0 other, rest', seen_nul_other other]
    rfl
  | case4 d second octal =>
    obtain ⟨turns, rfl⟩ := Nat.exists_eq_succ_of_ne_zero (show turns ≠ 0 by simp at enough; omega)
    rw [List.flatMap_cons, List.append_assoc, escapes.stringBody_nul, escapes.cons_of_octal octal,
      seen_nul_one octal, utf16_octal (by have := octalDigit?_lt octal; omega)]
    simp [legacyOctal, octal, quote, stringBody, utf16]
  | case5 d second octal e others other ih =>
    obtain ⟨turns, rfl⟩ := Nat.exists_eq_succ_of_ne_zero (show turns ≠ 0 by simp at enough; omega)
    have rest' := ih turns (by simp at enough ⊢; omega)
    obtain ⟨first, more, escaped, stops⟩ := escapes.other e other
    rw [List.flatMap_cons, List.append_assoc, escapes.stringBody_nul, escapes.cons_of_octal octal,
      seen_nul_one_other octal other, utf16_octal (by have := octalDigit?_lt octal; omega)]
    simp only [List.flatMap_cons, escaped, List.cons_append, List.append_assoc] at rest' ⊢
    simp [legacyOctal, octal, stops, rest']
  | case6 d second octal e others third octal' ih =>
    obtain ⟨turns, rfl⟩ := Nat.exists_eq_succ_of_ne_zero (show turns ≠ 0 by simp at enough; omega)
    have rest' := ih turns (by simp at enough ⊢; omega)
    have small : second * 8 + third < 64 := by
      have := octalDigit?_lt octal
      have := octalDigit?_lt octal'
      omega
    rw [List.flatMap_cons, List.append_assoc, escapes.stringBody_nul, escapes.cons_of_octal octal,
      escapes.cons_of_octal octal', seen_nul_two octal octal', utf16_octal small]
    simp [legacyOctal, octal, octal', rest']
  | case7 c others notNul ih =>
    obtain ⟨turns, rfl⟩ := Nat.exists_eq_succ_of_ne_zero (show turns ≠ 0 by simp at enough; omega)
    have rest' := ih turns (by simp at enough ⊢; omega)
    rw [List.flatMap_cons, List.append_assoc, escapes.read c notNul, rest', seen_cons notNul, utf16_cons]
    rfl

theorem Escapes.length_le (text : List Char) : text.length ≤ (text.flatMap escape).length := by
  induction text with
  | nil => simp
  | cons c rest ih =>
    have one : 1 ≤ (escape c).length := by
      cases octal : octalDigit? c with
      | some digit => rw [escapes.octal c digit octal, List.length_singleton]
      | none =>
        obtain ⟨first, more, escaped, -⟩ := escapes.other c octal
        rw [escaped, List.length_cons]
        omega
    rw [List.flatMap_cons, List.length_append, List.length_cons]
    omega

/-- The literal that a source begins with is read, and the source behind it is left. -/
theorem Escapes.stringLiteral_text (text rest : List Char) :
    stringLiteral ('"' :: (text.flatMap escape ++ '"' :: rest)) = some (utf16 (seen text), rest) := by
  have long := escapes.length_le text
  have body := escapes.stringBody_text text rest (text.flatMap escape ++ '"' :: rest).length
    (by simp only [List.length_append, List.length_cons]; omega)
  exact body

end Escapes

theorem stringLiteral_debug (text rest : List Char) :
    stringLiteral (debug unicode text ++ rest) = some (utf16 (seen text), rest) := by
  have read := (escapes_escapeDebug unicode).stringLiteral_text text rest
  simpa [debug] using read

/-! ## Which texts are read back -/

/-- No octal digit stands directly behind a NUL. -/
def NulClean (text : List Char) : Prop :=
  ¬ ∃ c, (octalDigit? c).isSome = true ∧ ['\x00', c] <:+: text

theorem length_seen_le (text : List Char) : (seen text).length ≤ text.length := by
  induction text using seen.induct with
  | case1 => exact le_rfl
  | case2 => exact le_rfl
  | case3 d others other ih =>
    rw [seen_nul_other other, List.length_cons, List.length_cons]
    omega
  | case4 d second octal =>
    rw [seen_nul_one octal]
    simp
  | case5 d second octal e others other ih =>
    rw [seen_nul_one_other octal other]
    simp only [List.length_cons] at ih ⊢
    omega
  | case6 d second octal e others third octal' ih =>
    rw [seen_nul_two octal octal']
    simp only [List.length_cons] at ih ⊢
    omega
  | case7 c others notNul ih =>
    rw [seen_cons notNul, List.length_cons, List.length_cons]
    omega

theorem nulClean_cons {c : Char} (notNul : c ≠ '\x00') (rest : List Char) :
    NulClean (c :: rest) ↔ NulClean rest := by
  have behind : ∀ d, ['\x00', d] <:+: c :: rest ↔ ['\x00', d] <:+: rest := by
    intro d
    simp [List.infix_cons_iff, notNul.symm]
  simp only [NulClean, behind]

theorem nulClean_nul_other {d : Char} (other : octalDigit? d = none) (rest : List Char) :
    NulClean ('\x00' :: d :: rest) ↔ NulClean (d :: rest) := by
  refine not_congr (exists_congr fun c => and_congr_right fun octal => ?_)
  rw [List.infix_cons_iff, or_iff_right]
  intro first
  have eq : c = d := by simpa using first
  rw [eq, other] at octal
  cases octal

theorem not_nulClean {d : Char} {second : ℕ} (octal : octalDigit? d = some second) (rest : List Char) :
    ¬ NulClean ('\x00' :: d :: rest) :=
  fun clean => clean ⟨d, by simp [octal], [], rest, rfl⟩

/-- A NUL that takes digits makes the text shorter. -/
theorem seen_eq_iff (text : List Char) : seen text = text ↔ NulClean text := by
  induction text using seen.induct with
  | case1 => simp [seen, NulClean]
  | case2 =>
    have back : seen ['\x00'] = ['\x00'] := by decide
    simp [back, NulClean, List.infix_cons_iff]
  | case3 d others other ih =>
    rw [seen_nul_other other, nulClean_nul_other other, List.cons.injEq, ih]
    simp
  | case4 d second octal =>
    rw [seen_nul_one octal, iff_false_right (not_nulClean octal [])]
    simp
  | case5 d second octal e others other _ =>
    rw [seen_nul_one_other octal other, iff_false_right (not_nulClean octal _)]
    intro same
    have shorter := length_seen_le (e :: others)
    have lengths := congrArg List.length same
    simp only [List.length_cons] at shorter lengths
    omega
  | case6 d second octal e others third octal' _ =>
    rw [seen_nul_two octal octal', iff_false_right (not_nulClean octal _)]
    intro same
    have shorter := length_seen_le others
    have lengths := congrArg List.length same
    simp only [List.length_cons] at shorter lengths
    omega
  | case7 c others notNul ih =>
    rw [nulClean_cons notNul, seen_cons notNul, List.cons.injEq, ih]
    simp

end Halyard.Data
