import Mathlib

/-!
# Percent-encoding

A text is the list of its characters, and what is encoded is its UTF-8.  `percentDecode` takes `%` and
two hex digits for a byte, and leaves every other byte as it is.

* `percentDecode_percentEncode`: the bytes come back.
* `Lossy.decoded_eq_self_iff`: decoding leaves a text as it is just if there is no escape in it.
* `parseForm_joined`: the pairs of a form come back.
-/

namespace Halyard.PercentEncoding

def utf8 (text : List Char) : List UInt8 :=
  text.flatMap String.utf8EncodeChar

def percent : UInt8 := 37

/-- `0` to `9`, `A` to `F`, and `a` to `f`. -/
def hexValue (digit : UInt8) : Option UInt8 :=
  if 48 ≤ digit ∧ digit ≤ 57 then some (digit - 48)
  else if 65 ≤ digit ∧ digit ≤ 70 then some (digit - 55)
  else if 97 ≤ digit ∧ digit ≤ 102 then some (digit - 87)
  else none

def hexDigit (value : UInt8) : UInt8 :=
  if value < 10 then value + 48 else value + 55

def isAlphanumeric (byte : UInt8) : Bool :=
  (48 ≤ byte && byte ≤ 57) || (65 ≤ byte && byte ≤ 90) || (97 ≤ byte && byte ≤ 122)

def encodeByte (byte : UInt8) : List UInt8 :=
  if isAlphanumeric byte then [byte] else [percent, hexDigit (byte / 16), hexDigit (byte % 16)]

def percentEncode (bytes : List UInt8) : List UInt8 :=
  bytes.flatMap encodeByte

/-- The byte that three bytes are the escape of. -/
def escaped (byte high low : UInt8) : Option UInt8 :=
  if byte = percent then do
    let high ← hexValue high
    let low ← hexValue low
    some (high * 16 + low)
  else none

def percentDecode : List UInt8 → List UInt8
  | byte :: high :: low :: rest =>
      match escaped byte high low with
      | some value => value :: percentDecode rest
      | none => byte :: percentDecode (high :: low :: rest)
  | few => few

/-- There is `%` with two hex digits after it. -/
def hasEscape : List UInt8 → Bool
  | byte :: high :: low :: rest => (escaped byte high low).isSome || hasEscape (high :: low :: rest)
  | _ => false

def isAscii (byte : UInt8) : Bool := byte < 128

/-! ## Escapes -/

theorem hexValue_ascii {digit value : UInt8} (hex : hexValue digit = some value) :
    isAscii digit = true := by
  unfold hexValue at hex
  unfold isAscii
  split_ifs at hex with decimal upper lower
  · exact decide_eq_true (UInt8.lt_of_le_of_lt decimal.2 (show (57 : UInt8) < 128 by decide))
  · exact decide_eq_true (UInt8.lt_of_le_of_lt upper.2 (show (70 : UInt8) < 128 by decide))
  · exact decide_eq_true (UInt8.lt_of_le_of_lt lower.2 (show (102 : UInt8) < 128 by decide))

theorem escaped_some {byte high low value : UInt8} (escape : escaped byte high low = some value) :
    byte = percent ∧ isAscii high = true ∧ isAscii low = true := by
  unfold escaped at escape
  split_ifs at escape with start
  obtain ⟨first, highHex, escape⟩ := Option.bind_eq_some_iff.mp escape
  obtain ⟨second, lowHex, _⟩ := Option.bind_eq_some_iff.mp escape
  exact ⟨start, hexValue_ascii highHex, hexValue_ascii lowHex⟩

theorem percentDecode_cons {byte : UInt8} (other : byte ≠ percent) (rest : List UInt8) :
    percentDecode (byte :: rest) = byte :: percentDecode rest := by
  match rest with
  | [] => rfl
  | [_] => rfl
  | high :: low :: rest => rw [percentDecode, escaped, if_neg other]

theorem percentDecode_escape {byte high low value : UInt8} (escape : escaped byte high low = some value)
    (rest : List UInt8) : percentDecode (byte :: high :: low :: rest) = value :: percentDecode rest := by
  rw [percentDecode, escape]

theorem percentDecode_eq_self {bytes : List UInt8} (plain : hasEscape bytes = false) :
    percentDecode bytes = bytes := by
  fun_induction percentDecode bytes with
  | case1 byte high low rest value escape =>
    rw [hasEscape, escape] at plain
    cases plain
  | case2 byte high low rest none ih =>
    rw [hasEscape, none] at plain
    rw [ih plain]
  | case3 few => rfl

theorem countP_percentDecode_le (bytes : List UInt8) :
    (percentDecode bytes).countP isAscii ≤ bytes.countP isAscii := by
  fun_induction percentDecode bytes with
  | case1 byte high low rest value escape ih =>
    obtain ⟨rfl, highAscii, lowAscii⟩ := escaped_some escape
    have start : isAscii percent = true := rfl
    simp only [List.countP_cons, highAscii, lowAscii, start, if_true]
    split <;> omega
  | case2 byte high low rest none ih =>
    rw [List.countP_cons, List.countP_cons (l := high :: low :: rest)]
    exact Nat.add_le_add_right ih _
  | case3 few => exact le_rfl

/-- An escape is three ASCII characters, and what it is decoded to is one at most. -/
theorem countP_percentDecode_lt {bytes : List UInt8} (escape : hasEscape bytes = true) :
    (percentDecode bytes).countP isAscii < bytes.countP isAscii := by
  fun_induction percentDecode bytes with
  | case1 byte high low rest value here ih =>
    obtain ⟨rfl, highAscii, lowAscii⟩ := escaped_some here
    have start : isAscii percent = true := rfl
    have later := countP_percentDecode_le rest
    simp only [List.countP_cons, highAscii, lowAscii, start, if_true]
    split <;> omega
  | case2 byte high low rest none ih =>
    rw [hasEscape, none] at escape
    rw [List.countP_cons, List.countP_cons (l := high :: low :: rest)]
    exact Nat.add_lt_add_right (ih escape) _
  | case3 few short =>
    rw [hasEscape] at escape
    · cases escape
    · exact short

/-! ## Encoding -/

theorem hexValue_hexDigit (value : UInt8) (digit : value < 16) : hexValue (hexDigit value) = some value := by
  have all : ∀ n < 16, hexValue (hexDigit (UInt8.ofNat n)) = some (UInt8.ofNat n) := by decide
  have same := all value.toNat digit
  rwa [UInt8.ofNat_toNat] at same

theorem high_lt (byte : UInt8) : byte / 16 < 16 := by
  rw [UInt8.lt_iff_toNat_lt, UInt8.toNat_div]
  exact Nat.div_lt_of_lt_mul byte.toNat_lt

theorem low_lt (byte : UInt8) : byte % 16 < 16 := by
  rw [UInt8.lt_iff_toNat_lt, UInt8.toNat_mod]
  exact Nat.mod_lt _ (by decide)

theorem escaped_hexDigits (byte : UInt8) :
    escaped percent (hexDigit (byte / 16)) (hexDigit (byte % 16)) = some byte := by
  have whole : byte / 16 * 16 + byte % 16 = byte := by
    apply UInt8.toNat_inj.mp
    have bound := byte.toNat_lt
    simp only [UInt8.toNat_add, UInt8.toNat_mul, UInt8.toNat_div, UInt8.toNat_mod, UInt8.toNat_ofNat,
      Nat.reducePow, Nat.reduceMod]
    omega
  rw [escaped, if_pos rfl, hexValue_hexDigit _ (high_lt byte),
    hexValue_hexDigit _ (low_lt byte)]
  exact congrArg some whole

theorem percentDecode_encodeByte (byte : UInt8) (rest : List UInt8) :
    percentDecode (encodeByte byte ++ rest) = byte :: percentDecode rest := by
  unfold encodeByte
  split
  next kept =>
    refine percentDecode_cons ?_ rest
    rintro rfl
    cases kept
  next => exact percentDecode_escape (escaped_hexDigits byte) rest

theorem percentDecode_percentEncode (bytes : List UInt8) :
    percentDecode (percentEncode bytes) = bytes := by
  induction bytes with
  | nil => rfl
  | cons byte bytes ih =>
    rw [percentEncode, List.flatMap_cons, percentDecode_encodeByte]
    exact congrArg (byte :: ·) ih

/-- What encoded bytes are made of. -/
def isEncoded (byte : UInt8) : Bool :=
  isAlphanumeric byte || byte == percent

theorem isAscii_encoded {byte : UInt8} (encoded : isEncoded byte = true) : isAscii byte = true := by
  simp only [isEncoded, isAlphanumeric, Bool.or_eq_true, Bool.and_eq_true, decide_eq_true_eq,
    beq_iff_eq] at encoded
  rcases encoded with ((⟨_, decimal⟩ | ⟨_, upper⟩) | ⟨_, lower⟩) | rfl
  · exact decide_eq_true (UInt8.lt_of_le_of_lt decimal (show (57 : UInt8) < 128 by decide))
  · exact decide_eq_true (UInt8.lt_of_le_of_lt upper (show (90 : UInt8) < 128 by decide))
  · exact decide_eq_true (UInt8.lt_of_le_of_lt lower (show (122 : UInt8) < 128 by decide))
  · rfl

theorem isAlphanumeric_hexDigit (value : UInt8) (digit : value < 16) :
    isAlphanumeric (hexDigit value) = true := by
  have all : ∀ n < 16, isAlphanumeric (hexDigit (UInt8.ofNat n)) = true := by decide
  have same := all value.toNat digit
  rwa [UInt8.ofNat_toNat] at same

theorem isEncoded_percentEncode {bytes : List UInt8} {byte : UInt8} (mem : byte ∈ percentEncode bytes) :
    isEncoded byte = true := by
  obtain ⟨original, _, mem⟩ := List.mem_flatMap.mp mem
  unfold encodeByte at mem
  split at mem
  next kept =>
    rw [List.mem_singleton.mp mem, isEncoded, kept]
    rfl
  next =>
    rcases List.mem_cons.mp mem with rfl | mem
    · rfl
    · rcases List.mem_cons.mp mem with rfl | mem
      · rw [isEncoded, isAlphanumeric_hexDigit _ (high_lt original)]
        rfl
      · rw [List.mem_singleton.mp mem, isEncoded, isAlphanumeric_hexDigit _ (low_lt original)]
        rfl

/-! ## Texts -/

/-- Decoding UTF-8 that may be invalid, by a function that puts other characters for what is not. -/
structure Lossy (decodeLossy : List UInt8 → List Char) : Prop where
  valid : ∀ text, decodeLossy (utf8 text) = text
  ascii : ∀ bytes, (decodeLossy bytes).countP (fun c => c.toNat < 128) = bytes.countP isAscii

variable {decodeLossy : List UInt8 → List Char}

/-- An escaped text, as the text of its bytes. -/
def encodeText (text : List Char) : List Char :=
  (percentEncode (utf8 text)).map Char.ofUInt8

def decodeText (decodeLossy : List UInt8 → List Char) (text : List Char) : List Char :=
  decodeLossy (percentDecode (utf8 text))

theorem Lossy.decoded_eq_self_iff (lossy : Lossy decodeLossy) (text : List Char) :
    decodeText decodeLossy text = text ↔ hasEscape (utf8 text) = false := by
  constructor
  · intro same
    by_contra escape
    rw [Bool.not_eq_false] at escape
    have fewer := countP_percentDecode_lt escape
    rw [← lossy.ascii (utf8 text), lossy.valid, ← lossy.ascii] at fewer
    unfold decodeText at same
    rw [same] at fewer
    exact lt_irrefl _ fewer
  · intro plain
    rw [decodeText, percentDecode_eq_self plain, lossy.valid]

theorem utf8EncodeChar_ascii {byte : UInt8} (ascii : isAscii byte = true) :
    String.utf8EncodeChar (Char.ofUInt8 byte) = [byte] := by
  have value : (Char.ofUInt8 byte).val.toNat = byte.toNat := rfl
  have small : byte.toNat ≤ 0x7f := Nat.le_of_lt_succ (of_decide_eq_true ascii)
  simp only [String.utf8EncodeChar, value]
  rw [if_pos small, UInt8.ofNat_toNat]

theorem utf8_ascii {bytes : List UInt8} (ascii : ∀ byte ∈ bytes, isAscii byte = true) :
    utf8 (bytes.map Char.ofUInt8) = bytes := by
  induction bytes with
  | nil => rfl
  | cons byte bytes ih =>
    obtain ⟨first, later⟩ := List.forall_mem_cons.mp ascii
    rw [List.map_cons, utf8, List.flatMap_cons, utf8EncodeChar_ascii first]
    exact congrArg (byte :: ·) (ih later)

/-! ## Forms -/

def ampersand : UInt8 := 38

def equalsSign : UInt8 := 61

def plus : UInt8 := 43

def space : UInt8 := 32

def formText (decodeLossy : List UInt8 → List Char) (bytes : List UInt8) : List Char :=
  decodeLossy (percentDecode (bytes.map fun byte => if byte = plus then space else byte))

def beforeValue (byte : UInt8) : Bool := byte != equalsSign

def isSequence (bytes : List UInt8) : Bool := !bytes.isEmpty

def formPair (decodeLossy : List UInt8 → List Char) (sequence : List UInt8) : List Char × List Char :=
  (formText decodeLossy (sequence.takeWhile beforeValue),
    formText decodeLossy ((sequence.dropWhile beforeValue).drop 1))

/-- The pairs of an `application/x-www-form-urlencoded` query. -/
def parseForm (decodeLossy : List UInt8 → List Char) (query : List UInt8) :
    List (List Char × List Char) :=
  ((query.splitOn ampersand).filter isSequence).map (formPair decodeLossy)

def encodedPair (pair : List Char × List Char) : List UInt8 :=
  percentEncode (utf8 pair.1) ++ equalsSign :: percentEncode (utf8 pair.2)

/-- Pairs with `&` between them. -/
def joinForm : List (List Char × List Char) → List UInt8
  | [] => []
  | [pair] => encodedPair pair
  | pair :: next :: rest => encodedPair pair ++ ampersand :: joinForm (next :: rest)

theorem not_mem_percentEncode {byte : UInt8} (other : isEncoded byte = false) (bytes : List UInt8) :
    byte ∉ percentEncode bytes := by
  intro mem
  rw [isEncoded_percentEncode mem] at other
  cases other

theorem formText_percentEncode (lossy : Lossy decodeLossy) (text : List Char) :
    formText decodeLossy (percentEncode (utf8 text)) = text := by
  have same : (percentEncode (utf8 text)).map (fun byte => if byte = plus then space else byte) =
      percentEncode (utf8 text) := by
    refine (List.map_congr_left fun byte mem => if_neg ?_).trans (List.map_id _)
    rintro rfl
    exact not_mem_percentEncode rfl _ mem
  rw [formText, same, percentDecode_percentEncode, lossy.valid]

theorem formPair_encodedPair (lossy : Lossy decodeLossy) (pair : List Char × List Char) :
    formPair decodeLossy (encodedPair pair) = pair := by
  have noEquals : ∀ byte ∈ percentEncode (utf8 pair.1), beforeValue byte = true := by
    intro byte mem
    refine bne_iff_ne.mpr ?_
    rintro rfl
    exact not_mem_percentEncode rfl _ mem
  have stop : ¬beforeValue equalsSign = true := by decide
  rw [formPair, encodedPair, List.takeWhile_append_of_pos noEquals, List.dropWhile_append_of_pos noEquals,
    List.takeWhile_cons_of_neg stop, List.dropWhile_cons_of_neg stop, List.append_nil, List.drop_one,
    List.tail_cons, formText_percentEncode lossy, formText_percentEncode lossy]

theorem ampersand_not_mem (pair : List Char × List Char) : ampersand ∉ encodedPair pair := by
  intro mem
  rcases List.mem_append.mp mem with mem | mem
  · exact not_mem_percentEncode rfl _ mem
  · rcases List.mem_cons.mp mem with same | mem
    · cases same
    · exact not_mem_percentEncode rfl _ mem

theorem encodedPair_ne_nil (pair : List Char × List Char) : encodedPair pair ≠ [] :=
  List.append_ne_nil_of_right_ne_nil _ (List.cons_ne_nil _ _)

theorem parseForm_joined (lossy : Lossy decodeLossy) (pairs : List (List Char × List Char)) :
    parseForm decodeLossy (joinForm pairs) = pairs := by
  unfold parseForm
  induction pairs with
  | nil => rfl
  | cons pair rest ih =>
    have keep : isSequence (encodedPair pair) = true := by
      rw [isSequence, List.isEmpty_eq_false_iff.mpr (encodedPair_ne_nil pair)]
      rfl
    cases rest with
    | nil =>
      rw [joinForm, List.splitOn_eq_singleton (ampersand_not_mem pair), List.filter_cons_of_pos keep,
        List.map_cons, formPair_encodedPair lossy]
      rfl
    | cons next rest =>
      rw [joinForm, List.splitOn_append_cons_self_of_not_mem (ampersand_not_mem pair),
        List.filter_cons_of_pos keep, List.map_cons, formPair_encodedPair lossy, ih]

/-! ## A decoder -/

/-- The character that the bytes start with. -/
def firstChar (bytes : List UInt8) : Option Char :=
  (bytes.toByteArray.utf8DecodeChar? 0).filter fun c => (String.utf8EncodeChar c).isPrefixOf bytes

/-- Puts U+FFFD for each byte that starts no character. -/
def replaceFrom : ℕ → List UInt8 → List Char
  | 0, _ => []
  | _ + 1, [] => []
  | fuel + 1, byte :: rest =>
      match firstChar (byte :: rest) with
      | some c => c :: replaceFrom fuel ((byte :: rest).drop c.utf8Size)
      | none => '\uFFFD' :: replaceFrom fuel rest

def replaceInvalid (bytes : List UInt8) : List Char :=
  replaceFrom bytes.length bytes

theorem firstChar_utf8EncodeChar (c : Char) (rest : List UInt8) :
    firstChar (String.utf8EncodeChar c ++ rest) = some c := by
  have decoded : (String.utf8EncodeChar c ++ rest).toByteArray.utf8DecodeChar? 0 = some c := by
    rw [List.toByteArray_append]
    exact ByteArray.utf8DecodeChar?_utf8EncodeChar_append
  rw [firstChar, decoded, Option.filter_some, if_pos]
  exact List.isPrefixOf_iff_prefix.mpr (List.prefix_append _ rest)

theorem firstChar_some {bytes : List UInt8} {c : Char} (first : firstChar bytes = some c) :
    ∃ rest, bytes = String.utf8EncodeChar c ++ rest := by
  obtain ⟨rest, whole⟩ := List.isPrefixOf_iff_prefix.mp (Option.filter_eq_some_iff.mp first).2
  exact ⟨rest, whole.symm⟩

theorem isAscii_utf8EncodeChar {c : Char} (large : ¬c.val.toNat ≤ 0x7f) {byte : UInt8}
    (mem : byte ∈ String.utf8EncodeChar c) : isAscii byte = false := by
  refine decide_eq_false fun small => ?_
  rw [UInt8.lt_iff_toNat_lt] at small
  simp only [String.utf8EncodeChar, if_neg large] at mem
  split_ifs at mem
  all_goals
    simp only [List.mem_cons, List.not_mem_nil, or_false] at mem
  · rcases mem with rfl | rfl
    all_goals
      simp only [UInt8.toNat_ofNat, UInt8.toNat_ofNat'] at small
      omega
  · rcases mem with rfl | rfl | rfl
    all_goals
      simp only [UInt8.toNat_ofNat, UInt8.toNat_ofNat'] at small
      omega
  · rcases mem with rfl | rfl | rfl | rfl
    all_goals
      simp only [UInt8.toNat_ofNat, UInt8.toNat_ofNat'] at small
      omega

theorem countP_utf8EncodeChar (c : Char) :
    (String.utf8EncodeChar c).countP isAscii = if c.toNat < 128 then 1 else 0 := by
  by_cases small : c.val.toNat ≤ 0x7f
  · have byteAscii : isAscii (UInt8.ofNat c.val.toNat) = true := by
      refine decide_eq_true (UInt8.lt_iff_toNat_lt.mpr ?_)
      rw [UInt8.toNat_ofNat']
      exact (Nat.mod_le _ _).trans_lt (Nat.lt_succ_of_le small)
    have bytes : String.utf8EncodeChar c = [UInt8.ofNat c.val.toNat] := by
      simp only [String.utf8EncodeChar, if_pos small]
    have less : c.toNat < 128 := Nat.lt_succ_of_le small
    rw [bytes, if_pos less, List.countP_singleton, if_pos byteAscii]
  · have large : ¬c.toNat < 128 := fun less => small (Nat.le_of_lt_succ less)
    rw [if_neg large, List.countP_eq_zero]
    intro byte mem
    rw [isAscii_utf8EncodeChar small mem]
    exact Bool.false_ne_true

theorem replaceFrom_utf8EncodeChar (fuel : ℕ) (c : Char) (rest : List UInt8) :
    replaceFrom (fuel + 1) (String.utf8EncodeChar c ++ rest) = c :: replaceFrom fuel rest := by
  have first := firstChar_utf8EncodeChar c rest
  have dropped : (String.utf8EncodeChar c ++ rest).drop c.utf8Size = rest :=
    List.drop_left' (String.length_utf8EncodeChar c)
  cases whole : String.utf8EncodeChar c ++ rest with
  | nil =>
    have size := congrArg List.length whole
    rw [List.length_append, String.length_utf8EncodeChar] at size
    exact absurd size (Nat.ne_of_gt (Nat.add_pos_left c.utf8Size_pos _))
  | cons byte more =>
    rw [whole] at first dropped
    rw [replaceFrom, first]
    exact congrArg (fun left => c :: replaceFrom fuel left) dropped

theorem replaceFrom_utf8 (text : List Char) {fuel : ℕ} (enough : (utf8 text).length ≤ fuel) :
    replaceFrom fuel (utf8 text) = text := by
  induction text generalizing fuel with
  | nil => cases fuel <;> rfl
  | cons c text ih =>
    rw [utf8, List.flatMap_cons, List.length_append, String.length_utf8EncodeChar] at enough
    have positive := c.utf8Size_pos
    obtain ⟨fewer, rfl⟩ : ∃ fewer, fuel = fewer + 1 := Nat.exists_eq_succ_of_ne_zero (by omega)
    rw [utf8, List.flatMap_cons, replaceFrom_utf8EncodeChar]
    exact congrArg (c :: ·) (ih (by rw [utf8]; omega))

theorem countP_replaceFrom (fuel : ℕ) {bytes : List UInt8} (enough : bytes.length ≤ fuel) :
    (replaceFrom fuel bytes).countP (fun c => c.toNat < 128) = bytes.countP isAscii := by
  induction fuel generalizing bytes with
  | zero => rw [List.eq_nil_of_length_eq_zero (Nat.le_zero.mp enough), replaceFrom]; rfl
  | succ fuel ih =>
    cases bytes with
    | nil => rfl
    | cons byte rest =>
      cases first : firstChar (byte :: rest) with
      | some c =>
        obtain ⟨after, whole⟩ := firstChar_some first
        have positive := c.utf8Size_pos
        rw [whole, List.length_append, String.length_utf8EncodeChar] at enough
        rw [whole, replaceFrom_utf8EncodeChar, List.countP_append, countP_utf8EncodeChar,
          List.countP_cons, ih (by omega), Nat.add_comm]
        simp only [decide_eq_true_eq]
      | none =>
        have high : isAscii byte = false := by
          by_contra ascii
          rw [Bool.not_eq_false] at ascii
          have some := firstChar_utf8EncodeChar (Char.ofUInt8 byte) rest
          rw [utf8EncodeChar_ascii ascii, List.singleton_append, first] at some
          cases some
        rw [replaceFrom, first]
        change ('\uFFFD' :: replaceFrom fuel rest).countP _ = _
        rw [List.countP_cons, List.countP_cons, high, ih (Nat.le_of_succ_le_succ enough)]
        rfl

theorem lossy_replaceInvalid : Lossy replaceInvalid :=
  ⟨fun text => replaceFrom_utf8 text le_rfl, fun _ => countP_replaceFrom _ le_rfl⟩

end Halyard.PercentEncoding
