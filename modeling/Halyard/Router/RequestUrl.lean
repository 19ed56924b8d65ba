import Halyard.PercentEncoding
import Halyard.Router.ParamsMap

/-!
# The query of a request's URL

`RequestUrl::parse` collects the pairs of the query into a `ParamsMap`.  The pairs that the `url` crate
gives are decoded, and `ParamsMap::insert` unescapes their values again.

* `searchParams_iff`: a map is read back from its own query string just if no value of it looks escaped.
* `escaped_value_lost`: a value `%41` is read back as `A`.
-/

namespace Halyard.Router

open PercentEncoding Entries

/-- What is used of the crates `url`, whose URLs are `U`, and `percent_encoding`. -/
structure Crates (U : Type) where
  /-- `url::Url::parse`. -/
  parseUrl : List Char → Option U
  /-- `options().base_url(..).parse(..)`. -/
  parseWithBase : U → List Char → Option U
  origin : U → List Char
  path : U → List Char
  query : U → Option (List Char)
  queryPairs : U → List (List Char × List Char)
  /-- `utf8_percent_encode(s, NON_ALPHANUMERIC)`. -/
  utf8PercentEncode : List Char → List Char
  /-- `percent_decode_str(s).decode_utf8_lossy()`. -/
  percentDecodeStr : List Char → List Char

/-- A character that a query keeps as it is. -/
def isQueryChar (c : Char) : Prop :=
  ∃ byte, (isEncoded byte = true ∨ byte = ampersand ∨ byte = equalsSign) ∧ c = Char.ofUInt8 byte

/-- What the crates document. -/
structure Crates.Documented {U : Type} (crates : Crates U) (decodeLossy : List UInt8 → List Char) :
    Prop where
  lossy : Lossy decodeLossy
  encode : ∀ text, crates.utf8PercentEncode text = encodeText text
  decode : ∀ text, crates.percentDecodeStr text = decodeText decodeLossy text
  pairs : ∀ url, crates.queryPairs url = parseForm decodeLossy (utf8 ((crates.query url).getD []))
  /-- The query stands after the first `?`. -/
  query : ∀ {base path query url}, '?' ∉ path → '#' ∉ path → (∀ c ∈ query, isQueryChar c) →
    crates.parseWithBase base (path ++ '?' :: query) = some url → crates.query url = some query
  noQuery : ∀ {text url}, '?' ∉ text → '#' ∉ text → crates.parseUrl text = some url →
    crates.query url = none
  noQueryWithBase : ∀ {base path url}, '?' ∉ path → '#' ∉ path → crates.query base = none →
    crates.parseWithBase base path = some url → crates.query url = none

/-- `Url`, as `RequestUrl` makes it. -/
structure RequestedUrl where
  origin : List Char
  path : List Char
  search : List Char
  searchParams : ParamsMap (List Char)
  hash : List Char

def baseUrl : List Char := "https://leptos.dev".toList

variable {U : Type} (crates : Crates U)

def parseRequestWithBase (base request : List Char) : Option RequestedUrl := do
  let base ← crates.parseUrl base
  let url ← crates.parseWithBase base request
  some {
    origin := crates.origin url
    path := crates.path url
    search := (crates.query url).getD []
    searchParams := ParamsMap.fromIter crates.percentDecodeStr (crates.queryPairs url)
    hash := [] }

/-- `RequestUrl::parse`. -/
def parseRequest (request : List Char) : Option RequestedUrl :=
  parseRequestWithBase crates baseUrl request

variable {crates} {decodeLossy : List UInt8 → List Char}

/-! ## The query string of a map -/

theorem isEncodedPair {pair : List Char × List Char} {byte : UInt8} (mem : byte ∈ encodedPair pair) :
    isEncoded byte = true ∨ byte = equalsSign := by
  rcases List.mem_append.mp mem with mem | mem
  · exact Or.inl (isEncoded_percentEncode mem)
  · rcases List.mem_cons.mp mem with same | mem
    · exact Or.inr same
    · exact Or.inl (isEncoded_percentEncode mem)

theorem isQueryByte_joinForm {pairs : List (List Char × List Char)} {byte : UInt8}
    (mem : byte ∈ joinForm pairs) :
    isEncoded byte = true ∨ byte = ampersand ∨ byte = equalsSign := by
  fun_induction joinForm pairs with
  | case1 => cases mem
  | case2 pair => exact (isEncodedPair mem).imp_right Or.inr
  | case3 pair next rest ih =>
    rcases List.mem_append.mp mem with mem | mem
    · exact (isEncodedPair mem).imp_right Or.inr
    · rcases List.mem_cons.mp mem with same | mem
      · exact Or.inr (Or.inl same)
      · exact ih mem

theorem isAscii_queryByte {byte : UInt8}
    (query : isEncoded byte = true ∨ byte = ampersand ∨ byte = equalsSign) : isAscii byte = true := by
  rcases query with encoded | rfl | rfl
  · exact isAscii_encoded encoded
  · rfl
  · rfl

/-- A value with its key, and `&`. -/
def queryPiece (pair : List Char × List Char) : List Char :=
  encodeText pair.1 ++ '=' :: encodeText pair.2 ++ ['&']

theorem queryPiece_eq (pair : List Char × List Char) :
    queryPiece pair = (encodedPair pair ++ [ampersand]).map Char.ofUInt8 := by
  rw [List.map_append, encodedPair, List.map_append, List.map_cons]
  rfl

theorem dropLast_pieces {pairs : List (List Char × List Char)} (some_ : pairs ≠ []) :
    (pairs.flatMap queryPiece).dropLast = (joinForm pairs).map Char.ofUInt8 := by
  fun_induction joinForm pairs with
  | case1 => exact absurd rfl some_
  | case2 pair =>
    rw [List.flatMap_singleton, queryPiece_eq, List.map_append]
    exact List.dropLast_concat
  | case3 pair next rest ih =>
    have more : (next :: rest).flatMap queryPiece ≠ [] := by
      rw [List.flatMap_cons, queryPiece]
      simp
    rw [List.flatMap_cons, List.dropLast_append_of_ne_nil more, ih (List.cons_ne_nil next rest),
      queryPiece_eq, ← List.map_append, List.append_assoc]
    rfl

theorem pieces_eq (map : ParamsMap (List Char)) :
    (map.entries.flatMap fun entry => entry.2.flatMap fun value =>
      encodeText entry.1 ++ '=' :: encodeText value ++ ['&']) = map.intoIter.flatMap queryPiece := by
  rw [ParamsMap.intoIter, List.flatMap_assoc]
  simp only [List.flatMap_map]
  rfl

theorem toQueryString_eq {map : ParamsMap (List Char)} (some_ : map.intoIter ≠ []) :
    map.toQueryString encodeText = '?' :: (joinForm map.intoIter).map Char.ofUInt8 := by
  have entries : map.entries ≠ [] := by
    intro none
    rw [ParamsMap.intoIter, none] at some_
    exact some_ rfl
  have pieces : map.intoIter.flatMap queryPiece ≠ [] := by
    obtain ⟨pair, rest, whole⟩ := List.exists_cons_of_ne_nil some_
    rw [whole, List.flatMap_cons, queryPiece]
    simp
  have long : 1 < ('?' :: map.intoIter.flatMap queryPiece).length :=
    Nat.succ_lt_succ (List.length_pos_of_ne_nil pieces)
  rw [ParamsMap.toQueryString, if_neg entries, pieces_eq]
  simp only [if_pos long]
  rw [List.dropLast_cons_of_ne_nil pieces, dropLast_pieces some_]

theorem intoIter_eq_nil_iff {map : ParamsMap (List Char)} (filled : ∀ entry ∈ map.entries, entry.2 ≠ []) :
    map.intoIter = [] ↔ map.entries = [] := by
  constructor
  · intro none
    by_contra entries
    obtain ⟨entry, rest, whole⟩ := List.exists_cons_of_ne_nil entries
    have there : entry ∈ map.entries := whole ▸ List.mem_cons_self
    exact filled entry there (List.map_eq_nil_iff.mp (List.flatMap_eq_nil_iff.mp none entry there))
  · intro entries
    rw [ParamsMap.intoIter, entries]
    rfl

/-- The query of a map's query string is read back as the map's pairs. -/
theorem Crates.Documented.queryPairs_eq (documented : crates.Documented decodeLossy)
    {map : ParamsMap (List Char)} (filled : ∀ entry ∈ map.entries, entry.2 ≠ []) {path : List Char}
    (noQuery : '?' ∉ path) (noFragment : '#' ∉ path) {base url : U}
    (baseParsed : crates.parseUrl baseUrl = some base)
    (parsed : crates.parseWithBase base (path ++ map.toQueryString crates.utf8PercentEncode) = some url) :
    crates.queryPairs url = map.intoIter := by
  rw [funext documented.encode] at parsed
  by_cases empty : map.intoIter = []
  · rw [ParamsMap.toQueryString, if_pos ((intoIter_eq_nil_iff filled).mp empty), List.append_nil] at parsed
    have baseQuery := documented.noQuery (by decide) (by decide) baseParsed
    rw [documented.pairs, documented.noQueryWithBase noQuery noFragment baseQuery parsed, empty]
    rfl
  · rw [toQueryString_eq empty] at parsed
    have plain : ∀ c ∈ (joinForm map.intoIter).map Char.ofUInt8, isQueryChar c := by
      intro c mem
      obtain ⟨byte, there, rfl⟩ := List.mem_map.mp mem
      exact ⟨byte, isQueryByte_joinForm there, rfl⟩
    rw [documented.pairs, documented.query noQuery noFragment plain parsed, Option.getD_some,
      utf8_ascii fun byte mem => isAscii_queryByte (isQueryByte_joinForm mem),
      parseForm_joined documented.lossy]

theorem map_eq_self_iff {α : Type} {f : α → α} {list : List α} : list.map f = list ↔ ∀ a ∈ list, f a = a := by
  conv_lhs => rhs; rw [← List.map_id list]
  exact List.map_eq_map_iff

/-- Every value has been unescaped once more. -/
theorem Crates.Documented.searchParams_entries (documented : crates.Documented decodeLossy)
    {map : ParamsMap (List Char)} (filled : ∀ entry ∈ map.entries, entry.2 ≠ []) {path : List Char}
    (noQuery : '?' ∉ path) (noFragment : '#' ∉ path) {url : RequestedUrl}
    (parsed : parseRequest crates (path ++ map.toQueryString crates.utf8PercentEncode) = some url) :
    url.searchParams.entries =
      map.entries.map fun entry => (entry.1, entry.2.map (decodeText decodeLossy)) := by
  obtain ⟨base, baseParsed, rest⟩ := Option.bind_eq_some_iff.mp parsed
  obtain ⟨inner, innerParsed, made⟩ := Option.bind_eq_some_iff.mp rest
  cases made
  rw [documented.queryPairs_eq filled noQuery noFragment baseParsed innerParsed,
    ParamsMap.fromIter_intoIter _ filled, funext documented.decode]

/-- A map is read back from its query string just if no value of it looks escaped. -/
theorem searchParams_iff (documented : crates.Documented decodeLossy) {map : ParamsMap (List Char)}
    (filled : ∀ entry ∈ map.entries, entry.2 ≠ []) {path : List Char} (noQuery : '?' ∉ path)
    (noFragment : '#' ∉ path) {url : RequestedUrl}
    (parsed : parseRequest crates (path ++ map.toQueryString crates.utf8PercentEncode) = some url) :
    url.searchParams = map ↔
      ∀ entry ∈ map.entries, ∀ value ∈ entry.2, hasEscape (utf8 value) = false := by
  have decoded := documented.lossy.decoded_eq_self_iff
  rw [ParamsMap.ext_iff, documented.searchParams_entries filled noQuery noFragment parsed]
  constructor
  · intro same entry mem value valueMem
    have kept := map_eq_self_iff.mp same entry mem
    exact (decoded value).mp (map_eq_self_iff.mp (congrArg Prod.snd kept) value valueMem)
  · intro plain
    refine map_eq_self_iff.mpr fun entry mem => Prod.ext rfl ?_
    exact map_eq_self_iff.mpr fun value valueMem => (decoded value).mpr (plain entry mem value valueMem)

/-! ## A request -/

def isPathChar (c : Char) : Bool := c != '?'

/-- Crates that take a text apart at `?`, with the decoder that replaces invalid bytes. -/
def splitCrates : Crates (List Char × Option (List Char)) where
  parseUrl text := some (text, none)
  parseWithBase _ text :=
    some (text.takeWhile isPathChar,
      if '?' ∈ text then some ((text.dropWhile isPathChar).drop 1) else none)
  origin _ := []
  path := Prod.fst
  query := Prod.snd
  queryPairs url := parseForm replaceInvalid (utf8 (url.2.getD []))
  utf8PercentEncode := encodeText
  percentDecodeStr := decodeText replaceInvalid

theorem splitCrates_documented : splitCrates.Documented replaceInvalid where
  lossy := lossy_replaceInvalid
  encode _ := rfl
  decode _ := rfl
  pairs _ := rfl
  query := by
    intro base path query url noQuery noFragment plain parsed
    have before : ∀ c ∈ path, isPathChar c = true := by
      intro c mem
      refine bne_iff_ne.mpr ?_
      rintro rfl
      exact noQuery mem
    have stop : ¬isPathChar '?' = true := by decide
    cases parsed
    change (if '?' ∈ path ++ '?' :: query then
      some (((path ++ '?' :: query).dropWhile isPathChar).drop 1) else none) = some query
    rw [if_pos (List.mem_append_right path List.mem_cons_self), List.dropWhile_append_of_pos before,
      List.dropWhile_cons_of_neg stop]
    rfl
  noQuery := by
    intro text url noQuery noFragment parsed
    cases parsed
    rfl
  noQueryWithBase := by
    intro base path url noQuery noFragment none parsed
    cases parsed
    exact if_neg noQuery

/-- A map with one key and one value. -/
def oneParam (key value : List Char) : ParamsMap (List Char) :=
  ⟨[(key, [value])], List.nodup_singleton key⟩

theorem oneParam_filled (key value : List Char) : ∀ entry ∈ (oneParam key value).entries, entry.2 ≠ [] := by
  intro entry mem
  rw [List.mem_singleton.mp mem]
  exact List.cons_ne_nil value []

/-- `/?q=100%25` -/
theorem searchParams_iff_percent :
    ∃ url, parseRequest splitCrates
        ("/".toList ++ (oneParam "q".toList "100%".toList).toQueryString splitCrates.utf8PercentEncode) =
          some url ∧
      (url.searchParams = oneParam "q".toList "100%".toList ↔
        ∀ entry ∈ (oneParam "q".toList "100%".toList).entries, ∀ value ∈ entry.2,
          hasEscape (utf8 value) = false) :=
  ⟨_, rfl, searchParams_iff splitCrates_documented (oneParam_filled _ _) (by decide) (by decide) rfl⟩

/-- A value `%41` is read back as `A`. -/
theorem escaped_value_lost : ¬∀ (map : ParamsMap (List Char)) (url : RequestedUrl),
    (∀ entry ∈ map.entries, entry.2 ≠ []) →
      parseRequest splitCrates ("/".toList ++ map.toQueryString splitCrates.utf8PercentEncode) = some url →
        url.searchParams = map := by
  intro all
  have filled := oneParam_filled "q".toList "%41".toList
  have same := all _ _ filled rfl
  have entries := @Crates.Documented.searchParams_entries _ _ _ splitCrates_documented _ filled "/".toList
    (by decide) (by decide) _ rfl
  rw [same] at entries
  have value : ["%41".toList] = ["%41".toList].map (decodeText replaceInvalid) :=
    congrArg Prod.snd (List.head_eq_of_cons_eq entries)
  have kept := List.head_eq_of_cons_eq value
  exact absurd ((lossy_replaceInvalid.decoded_eq_self_iff _).mp kept.symm) (by decide)

end Halyard.Router
