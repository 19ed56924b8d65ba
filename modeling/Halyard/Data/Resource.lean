import Halyard.Data.Literal

/-!
# The value of a resource, in the page

What the data stream writes for a resource, what a browser reads there, and what it makes of it.
The stream replaces `<` before it formats the text with `{:?}`, which then doubles the backslash of
the replacement.

* `carried_eq_iff`: which texts come back.
* `lt_not_mem_script`: no script has a `<`.
-/

namespace Halyard.Data

open JavaScript

/-! ## Server -/

/-- What a resource could not do.  Each has the id of the resource and where it was created. -/
inductive ResourceError (Location : Type)
  | encode (id : ℕ) (createdAt : Location) (reason : String)
  | noValue (id : ℕ) (createdAt : Location)
  | notSent (id : ℕ) (createdAt : Location)
  | decode (id : ℕ) (createdAt : Location) (reason : String)

/-- A codec whose encoded form is a string, with the `Debug` texts of its errors. -/
structure Codec (V : Type) where
  encode : V → Except String (List Char)
  decode : List Char → Except String V
  decode_encode : ∀ value text, encode value = .ok text → decode text = .ok value

def notSent : List Char :=
  "!halyard: the server sent no value for this resource".toList

section Server

variable {V Location : Type} (codec : Codec V) (id : ℕ) (createdAt : Location)

/-- `hydration_data::encode`. -/
def encode (value : Option V) : Except (ResourceError Location) (List Char) :=
  match value with
  | none => .error (.noValue id createdAt)
  | some value =>
      match codec.encode value with
      | .ok text => .ok text
      | .error reason => .error (.encode id createdAt reason)

/-- `hydration_data::for_the_page`. -/
def forThePage (encoded : Except (ResourceError Location) (List Char)) : List Char :=
  match encoded with
  | .ok text => text
  | .error _ => notSent

/-- `hydration_data::decode`.  A string is its own encoded form. -/
def decode (data : List Char) : Except (ResourceError Location) V :=
  if data = notSent then .error (.notSent id createdAt)
  else
    match codec.decode data with
    | .ok value => .ok value
    | .error reason => .error (.decode id createdAt reason)

end Server

variable (unicode : Unicode)

/-- The literal in the statement that `AsyncDataStream::poll_next` writes for a resource. -/
def resourceLiteral (data : List Char) : List Char :=
  debug unicode (replaceLt data)

/-- The statement. -/
def resourceScript (id : ℕ) (data : List Char) : List Char :=
  "__RESOLVED_RESOURCES[".toList ++ Nat.toDigits 10 id ++ "] = ".toList ++
    resourceLiteral unicode data ++ [';']

/-! ## Browser -/

/-- The string that a literal evaluates to, as Rust gets it. -/
def evaluate (source : List Char) : Option (List Char) :=
  (stringLiteral source).map fun (units, _) => decodeUtf16 units

/-- What comes back of the data of a resource. -/
def carried (data : List Char) : List Char :=
  seen (replaceLt data)

theorem evaluate_resourceLiteral (data : List Char) :
    evaluate (resourceLiteral unicode data ++ [';']) = some (carried data) := by
  rw [evaluate, resourceLiteral, stringLiteral_debug, Option.map_some]
  simp only [decodeUtf16_utf16, carried]

/-! ### The ways `carried` goes on -/

theorem replaceLt_cons {c : Char} (other : c ≠ '<') (rest : List Char) :
    replaceLt (c :: rest) = c :: replaceLt rest := by
  simp [replaceLt, other]

theorem replaceLt_lt (rest : List Char) :
    replaceLt ('<' :: rest) = ['\\', 'u', '0', '0', '3', 'c'] ++ replaceLt rest := by
  simp [replaceLt]

theorem ne_lt_of_octal {c : Char} {digit : ℕ} (octal : octalDigit? c = some digit) : c ≠ '<' := by
  intro eq
  subst eq
  have none : octalDigit? '<' = none := by decide
  rw [none] at octal
  cases octal

theorem carried_cons {c : Char} (notNul : c ≠ '\x00') (other : c ≠ '<') (rest : List Char) :
    carried (c :: rest) = c :: carried rest := by
  rw [carried, replaceLt_cons other, seen_cons notNul, carried]

theorem carried_lt (rest : List Char) :
    carried ('<' :: rest) = ['\\', 'u', '0', '0', '3', 'c'] ++ carried rest := by
  unfold carried
  rw [replaceLt_lt]
  simp only [List.cons_append, List.nil_append]
  rw [seen_cons (by decide), seen_cons (by decide), seen_cons (by decide), seen_cons (by decide),
    seen_cons (by decide), seen_cons (by decide)]

theorem carried_nul_other {d : Char} (other : octalDigit? d = none) (rest : List Char) :
    carried ('\x00' :: d :: rest) = '\x00' :: carried (d :: rest) := by
  unfold carried
  rw [replaceLt_cons (by decide)]
  by_cases lt : d = '<'
  · subst lt
    rw [replaceLt_lt]
    exact seen_nul_other (by decide) _
  · rw [replaceLt_cons lt, seen_nul_other other]

theorem carried_nul_one {d : Char} {second : ℕ} (octal : octalDigit? d = some second) :
    carried ['\x00', d] = [Char.ofNat second] := by
  unfold carried
  rw [replaceLt_cons (by decide), replaceLt_cons (ne_lt_of_octal octal)]
  exact seen_nul_one octal

theorem carried_nul_one_other {d e : Char} {second : ℕ} (octal : octalDigit? d = some second)
    (other : octalDigit? e = none) (rest : List Char) :
    carried ('\x00' :: d :: e :: rest) = Char.ofNat second :: carried (e :: rest) := by
  unfold carried
  rw [replaceLt_cons (by decide), replaceLt_cons (ne_lt_of_octal octal)]
  by_cases lt : e = '<'
  · subst lt
    rw [replaceLt_lt]
    exact seen_nul_one_other octal (by decide) _
  · rw [replaceLt_cons lt, seen_nul_one_other octal other]

theorem carried_nul_two {d e : Char} {second third : ℕ} (octal : octalDigit? d = some second)
    (octal' : octalDigit? e = some third) (rest : List Char) :
    carried ('\x00' :: d :: e :: rest) = Char.ofNat (second * 8 + third) :: carried rest := by
  unfold carried
  rw [replaceLt_cons (by decide), replaceLt_cons (ne_lt_of_octal octal),
    replaceLt_cons (ne_lt_of_octal octal'), seen_nul_two octal octal']

/-! ### Which texts come back -/

/-- Where the rest of a text does not come back longer, with more in front of it, neither does the
text, whose `read` came back as one character. -/
theorem cons_ne_append {c : Char} {back front : List Char} (read rest : List Char)
    (before : ∀ more ≠ [], back ≠ more ++ rest) (one : read ≠ []) (some : front ≠ []) :
    c :: back ≠ front ++ (read ++ rest) := by
  intro eq
  cases front with
  | nil => exact some rfl
  | cons first front =>
    rw [List.cons_append, List.cons.injEq, ← List.append_assoc] at eq
    exact before (front ++ read) (by simp [one]) eq.2

/-- A text never comes back with something in front of it. -/
theorem carried_ne_append (data front : List Char) (some : front ≠ []) :
    carried data ≠ front ++ data := by
  induction data using seen.induct generalizing front with
  | case1 => simpa [carried, replaceLt, seen] using some
  | case2 =>
    have back : carried ['\x00'] = ['\x00'] := by decide
    rw [back]
    exact cons_ne_append ['\x00'] [] (by simp) (by simp) some
  | case3 d others other ih =>
    rw [carried_nul_other other]
    exact cons_ne_append ['\x00'] _ ih (by simp) some
  | case4 d second octal =>
    rw [carried_nul_one octal]
    exact cons_ne_append ['\x00', d] [] (by simp) (by simp) some
  | case5 d second octal e others other ih =>
    rw [carried_nul_one_other octal other]
    exact cons_ne_append ['\x00', d] _ ih (by simp) some
  | case6 d second octal e others third octal' ih =>
    rw [carried_nul_two octal octal']
    exact cons_ne_append ['\x00', d, e] _ ih (by simp) some
  | case7 c others notNul ih =>
    by_cases lt : c = '<'
    · subst lt
      rw [carried_lt]
      intro eq
      -- the `<` stands behind the six characters that came back for it
      rcases List.append_eq_append_iff.mp eq with ⟨more, front_eq, back⟩ | ⟨more, escape, back⟩
      · rw [← List.singleton_append, ← List.append_assoc] at back
        exact ih (more ++ ['<']) (by simp) back
      · cases more with
        | nil => exact ih ['<'] (by simp) back.symm
        | cons first more =>
          rw [List.cons_append, List.cons.injEq] at back
          have within : '<' ∈ ['\\', 'u', '0', '0', '3', 'c'] := by
            rw [escape, back.1]
            simp
          exact absurd within (by decide)
    · rw [carried_cons notNul lt]
      exact cons_ne_append [c] _ ih (by simp) some

/-- No `<`, and no octal digit directly behind a NUL. -/
def Clean (data : List Char) : Prop :=
  '<' ∉ data ∧ ¬ ∃ c, (octalDigit? c).isSome = true ∧ ['\x00', c] <:+: data

theorem clean_iff (data : List Char) : Clean data ↔ '<' ∉ data ∧ NulClean data := Iff.rfl

theorem clean_cons {c : Char} (notNul : c ≠ '\x00') (rest : List Char) :
    Clean (c :: rest) ↔ c ≠ '<' ∧ Clean rest := by
  rw [clean_iff, clean_iff, nulClean_cons notNul, List.mem_cons, not_or, and_assoc, ne_comm]

theorem clean_nul_other {d : Char} (other : octalDigit? d = none) (rest : List Char) :
    Clean ('\x00' :: d :: rest) ↔ Clean (d :: rest) := by
  rw [clean_iff, clean_iff, nulClean_nul_other other]
  simp

theorem not_clean_nul {d : Char} {second : ℕ} (octal : octalDigit? d = some second)
    (rest : List Char) : ¬ Clean ('\x00' :: d :: rest) :=
  fun clean => not_nulClean octal rest clean.2

/-- Exactly these texts come back. -/
theorem carried_eq_iff (data : List Char) : carried data = data ↔ Clean data := by
  induction data using seen.induct with
  | case1 => simp [carried, replaceLt, seen, Clean]
  | case2 =>
    have back : carried ['\x00'] = ['\x00'] := by decide
    simp [back, Clean, List.infix_cons_iff]
  | case3 d others other ih =>
    rw [carried_nul_other other, clean_nul_other other, List.cons.injEq, ih]
    simp
  | case4 d second octal =>
    rw [carried_nul_one octal, iff_false_right (not_clean_nul octal [])]
    simp
  | case5 d second octal e others other _ =>
    rw [carried_nul_one_other octal other, iff_false_right (not_clean_nul octal _), List.cons.injEq]
    rintro ⟨-, back⟩
    exact carried_ne_append (e :: others) [d] (by simp) back
  | case6 d second octal e others third octal' _ =>
    rw [carried_nul_two octal octal', iff_false_right (not_clean_nul octal _), List.cons.injEq]
    rintro ⟨-, back⟩
    exact carried_ne_append others [d, e] (by simp) back
  | case7 c others notNul ih =>
    rw [clean_cons notNul]
    by_cases lt : c = '<'
    · subst lt
      simp [carried_lt]
    · rw [carried_cons notNul lt, List.cons.injEq, ih]
      simp [lt]

/-! ### No script has a `<` -/

theorem lt_not_mem_toDigits (n : ℕ) : '<' ∉ Nat.toDigits 16 n := by
  induction n using Nat.strong_induction_on with
  | _ n ih =>
    by_cases small : n < 16
    · rw [Nat.toDigits_of_lt_base small, List.mem_singleton]
      exact (digitChar_ne_lt small).symm
    · rw [Nat.toDigits_of_base_le (by omega) (by omega), List.mem_append, List.mem_singleton, not_or]
      exact ⟨ih (n / 16) (by omega), (digitChar_ne_lt (Nat.mod_lt n (by omega))).symm⟩

theorem lt_not_mem_escapeDebug {c : Char} (other : c ≠ '<') : '<' ∉ escapeDebug unicode c := by
  have digits := lt_not_mem_toDigits c.toNat
  unfold escapeDebug
  split_ifs <;> simp [digits, other.symm]

theorem lt_not_mem_replaceLt (data : List Char) : '<' ∉ replaceLt data := by
  intro within
  obtain ⟨c, -, within⟩ := List.mem_flatMap.mp within
  split at within
  · exact absurd within (by decide)
  · rename_i other
    exact other (List.mem_singleton.mp within).symm

theorem lt_not_mem_literal (data : List Char) : '<' ∉ resourceLiteral unicode data := by
  intro within
  unfold resourceLiteral debug at within
  rw [List.mem_cons, List.mem_append, List.mem_flatMap] at within
  rcases within with quote | ⟨c, source, within⟩ | quote
  · exact absurd quote (by decide)
  · apply lt_not_mem_escapeDebug unicode _ within
    rintro rfl
    exact lt_not_mem_replaceLt data source
  · exact absurd quote (by decide)

theorem lt_not_mem_script (id : ℕ) (data : List Char) : '<' ∉ resourceScript unicode id data := by
  have literal := lt_not_mem_literal unicode data
  have digits : '<' ∉ Nat.toDigits 10 id := by
    intro within
    exact absurd (Nat.isDigit_of_mem_toDigits (by omega) (by omega) within) (by decide)
  unfold resourceScript
  simp [literal, digits]

/-! ### The round trip -/

section RoundTrip

variable {V Location : Type} (codec : Codec V) (id : ℕ) (createdAt : Location)

/-- What the page carries for a resource with this value. -/
def sent (value : V) : List Char :=
  forThePage (encode codec id createdAt (some value))

/-- The literal evaluates to the very text that was encoded, of which the browser makes the value
(unless it is the marker, for which it loads the resource itself), and the script has no `<`. -/
def RoundTrips (value : V) (text : List Char) : Prop :=
  (∃ data, evaluate (resourceLiteral unicode (sent codec id createdAt value) ++ [';']) = some data ∧
      data = text ∧ (data ≠ notSent → decode codec id createdAt data = .ok value)) ∧
    '<' ∉ resourceScript unicode id (sent codec id createdAt value)

theorem sent_of_encode {value : V} {text : List Char} (encoded : codec.encode value = .ok text) :
    sent codec id createdAt value = text := by
  simp only [sent, encode, encoded, forThePage]

theorem decode_of_encode {value : V} {text : List Char} (encoded : codec.encode value = .ok text)
    (unmarked : text ≠ notSent) : decode codec id createdAt text = .ok value := by
  rw [decode, if_neg unmarked]
  simp only [codec.decode_encode value text encoded]

/-- A value makes the round trip exactly when its encoded text is clean. -/
theorem roundTrips_iff (value : V) (text : List Char) (encoded : codec.encode value = .ok text) :
    RoundTrips unicode codec id createdAt value text ↔ Clean text := by
  rw [← carried_eq_iff, RoundTrips, sent_of_encode codec id createdAt encoded]
  constructor
  · rintro ⟨⟨data, read, rfl, -⟩, -⟩
    rw [evaluate_resourceLiteral, Option.some.injEq] at read
    exact read
  · intro back
    refine ⟨⟨text, ?_, rfl, ?_⟩, lt_not_mem_script unicode id text⟩
    · rw [evaluate_resourceLiteral, back]
    · exact decode_of_encode codec id createdAt encoded

end RoundTrip

/-- `FromToStringCodec`, of strings. -/
def fromToString : Codec (List Char) where
  encode text := .ok text
  decode text := .ok text
  decode_encode value text encoded := by
    cases encoded
    rfl

/-- ASCII only. -/
def ascii : Unicode where
  printable c := decide (0x20 ≤ c.toNat ∧ c.toNat < 0x7F)
  ascii c small := by
    rw [decide_eq_true_iff]
    omega

theorem roundTrips_iff_quote :
    RoundTrips ascii fromToString 3 () ['"', '\x00'] ['"', '\x00'] ↔ Clean ['"', '\x00'] :=
  roundTrips_iff ascii fromToString 3 () _ _ rfl

/-- The string `<` arrives as the six characters of the escape. -/
theorem lt_arrives_escaped :
    evaluate (resourceLiteral ascii (sent fromToString 3 () ['<']) ++ [';']) =
        some ['\\', 'u', '0', '0', '3', 'c'] ∧
      ¬ RoundTrips ascii fromToString 3 () ['<'] ['<'] := by
  have arrives : evaluate (resourceLiteral ascii (sent fromToString 3 () ['<']) ++ [';']) =
      some ['\\', 'u', '0', '0', '3', 'c'] := by
    have encoded : fromToString.encode ['<'] = .ok ['<'] := rfl
    rw [sent_of_encode fromToString 3 () encoded, evaluate_resourceLiteral]
    decide
  refine ⟨arrives, ?_⟩
  rintro ⟨⟨data, read, rfl, -⟩, -⟩
  rw [arrives] at read
  exact absurd read (by decide)

end Halyard.Data
