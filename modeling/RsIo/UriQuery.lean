import RsIo.Splitting
import RsIo.UriGetters

/-!
# Escapes and Queries

`Uri::encode` escapes the characters that a URI cannot hold, and `Uri::make_query` builds a
query from encoded keys and values with `=` and a delimiter between them. Since none of
these characters survives the encoding, a query falls apart where it was put together.

## Main results

* `decode_encode`: decoding gives back what was encoded, and what an encoded string consists of.
* `parseQuery_makeQuery`: a query that was made from pairs is parsed into them.
-/

namespace RsIo

open StdString

/-- What the formatting library says of the two ends of an escape: `to_uint8` in base sixteen
reads what `hex` of a byte wrote. -/
structure UriCodecLibs extends UriGetterLibs where
  toUint8_hex : ∀ c, toUint8 (hex c) = c

/-- What the query functions call of the formatting library: `split`, which breaks a string
at each of the given characters and drops empty pieces, and `partition_at`, which cuts it at
the first occurrence of a delimiter. -/
structure UriQueryLibs extends UriCodecLibs where
  split : Bytes → Bytes → List Bytes
  partitionAt : Bytes → Bytes → Bytes × Bytes
  split_eq : ∀ s delimiters,
    split s delimiters = (s.splitOnP delimiters.contains).filter (! ·.isEmpty)
  partitionAt_eq : ∀ s delimiter,
    partitionAt s delimiter =
      (find delimiter s 0).elim (s, []) fun i => (s.take i, s.drop (i + delimiter.length))

/-- A byte is read back from its two digits. -/
theorem toUint8_hex_ascii (c : UInt8) :
    UriGetterLibs.ascii.toUint8 (UriGetterLibs.ascii.hex c) = c := by
  have hall : ∀ n < 256, UriGetterLibs.ascii.toUint8 (UriGetterLibs.ascii.hex (.ofNat n)) =
      UInt8.ofNat n := by decide +kernel
  have hc := hall c.toNat c.toNat_lt
  rwa [UInt8.ofNat_toNat] at hc

/-- The functions as their documentation describes them. -/
def UriCodecLibs.ascii : UriCodecLibs where
  toUriGetterLibs := .ascii
  toUint8_hex := toUint8_hex_ascii

/-- The functions as their documentation describes them. -/
def UriQueryLibs.ascii : UriQueryLibs where
  toUriCodecLibs := .ascii
  split s delimiters := (s.splitOnP delimiters.contains).filter (! ·.isEmpty)
  partitionAt s delimiter :=
    (find delimiter s 0).elim (s, []) fun i => (s.take i, s.drop (i + delimiter.length))
  split_eq _ _ := rfl
  partitionAt_eq _ _ := rfl

namespace Uri

/-- The character `=`. -/
def equals : UInt8 := 61

/-- The character `&`. -/
def ampersand : UInt8 := 38

/-- The character `;`. -/
def semicolon : UInt8 := 59

/-- `Uri::lone_keys`. -/
def loneKeys : BitVec 32 := 1

/-- `Uri::make_query`. -/
def makeQuery (lib : UriLibs) (range : List (Bytes × Bytes)) (delimiter : UInt8 := ampersand)
    (flags : BitVec 32 := 0) : Bytes :=
  let lone := flags &&& loneKeys != 0
  let q := range.foldl (fun q kv =>
    q ++ encode lib kv.1 ++ (if ! lone || ! kv.2.isEmpty then [equals] else []) ++
      encode lib kv.2 ++ [delimiter]) []
  if ! q.isEmpty then q.dropLast else q

/-- The delimiter of `Uri::parse_query`: the first one in the query, if none is given. -/
def queryDelimiter (query : Bytes) (delimiter : UInt8) : UInt8 :=
  if delimiter == 0 then
    ((findIf (fun c => c == ampersand || c == semicolon) query 0).bind (query[·]?)).getD ampersand
  else delimiter

/-- `Uri::parse_query`. -/
def parseQuery (lib : UriQueryLibs) (query : Bytes) (delimiter : UInt8 := 0) :
    List (Bytes × Bytes) :=
  (lib.split query [queryDelimiter query delimiter]).map fun entry =>
    let kv := lib.partitionAt entry [equals]
    (decode lib.toUriGetterLibs kv.1, decode lib.toUriGetterLibs kv.2)

/-! ### Escapes -/

/-- Letters, digits, `-`, `.`, `_`, `~` and the exempt characters. -/
def isPlain (exempt : Bytes) (c : UInt8) : Bool :=
  isAlnum c || c == 45 || c == dot || c == 95 || c == 126 || exempt.contains c

/-- A string of plain characters and escapes. -/
inductive Encoded (exempt : Bytes) : Bytes → Prop
  | nil : Encoded exempt []
  | plain {c : UInt8} {s : Bytes} (h : isPlain exempt c = true) (hs : Encoded exempt s) :
      Encoded exempt (c :: s)
  | escape {x y : UInt8} {s : Bytes} (hx : isHexDigit x = true) (hy : isHexDigit y = true)
      (hs : Encoded exempt s) : Encoded exempt (percent :: x :: y :: s)

/-- The two digits of an escape. -/
theorem exists_hex (lib : UriLibs) (c : UInt8) :
    ∃ x y, lib.hex c = [x, y] ∧ isHexDigit x = true ∧ isHexDigit y = true := by
  obtain ⟨x, y, hxy⟩ := List.length_eq_two.mp (lib.hex_length c)
  have hmem := lib.isHexDigit_hex c
  rw [hxy] at hmem
  exact ⟨x, y, hxy, hmem x (by simp), hmem y (by simp)⟩

/-- A character is safe if it is plain. -/
theorem isSafe_eq_isPlain (lib : UriLibs) (exempt : Bytes) (c : UInt8) :
    isSafe lib exempt c = isPlain exempt c := by
  rw [isSafe, isPlain, lib.asciiIsalnumW_eq]
  generalize isAlnum c = a
  generalize exempt.contains c = e
  generalize (c == 95) = u
  generalize (c == 45) = m
  generalize (c == dot) = d
  generalize (c == 126) = t
  revert a e u m d t
  decide

/-- What encoding does to one character. -/
theorem encode_cons (lib : UriLibs) (c : UInt8) (s exempt : Bytes) :
    encode lib (c :: s) exempt =
      (if isPlain exempt c then [c] else percent :: lib.hex c) ++ encode lib s exempt := by
  rw [encode, encode, encodeLoop_eq_flatMap, encodeLoop_eq_flatMap, List.flatMap_cons,
    isSafe_eq_isPlain]

/-- Encoding gives an encoded text. -/
theorem encoded_encode (lib : UriLibs) (s exempt : Bytes) :
    Encoded exempt (encode lib s exempt) := by
  induction s with
  | nil =>
      rw [encode_nil]
      exact .nil
  | cons c s ih =>
      rw [encode_cons]
      split
      · rename_i hc
        exact .plain hc ih
      · obtain ⟨x, y, hxy, hx, hy⟩ := exists_hex lib c
        rw [hxy]
        exact .escape hx hy ih

/-- A percent sign is not plain. -/
theorem not_isPlain_percent {exempt : Bytes} (h : percent ∉ exempt) :
    isPlain exempt percent = false := by
  simpa [isPlain, isAlnum, percent, dot] using h

/-- Decoding reads the escapes of an encoded string and nothing else. -/
theorem unescape_encode (lib : UriCodecLibs) {exempt : Bytes} (h : percent ∉ exempt) (s : Bytes) :
    unescape lib.toUriGetterLibs (encode lib.toUriLibs s exempt) = s := by
  induction s with
  | nil =>
      rw [encode_nil]
      rfl
  | cons c s ih =>
      rw [encode_cons]
      split
      · rename_i hc
        rw [List.singleton_append, unescape_cons, ih]
        rintro x y r rfl
        rw [not_isPlain_percent h] at hc
        simp at hc
      · obtain ⟨x, y, hxy, hx, hy⟩ := exists_hex lib.toUriLibs c
        have hc := lib.toUint8_hex c
        rw [hxy] at hc ⊢
        simp [unescape, hx, hy, hc, ih]

/-- **Escapes.** Decoding gives back what was encoded if `%` was not exempt, and an encoded
string consists of plain characters and escapes. -/
theorem decode_encode (lib : UriCodecLibs) (s : Bytes) {exempt : Bytes} (h : percent ∉ exempt) :
    decode lib.toUriGetterLibs (encode lib.toUriLibs s exempt) = s ∧
      Encoded exempt (encode lib.toUriLibs s exempt) := by
  refine ⟨?_, encoded_encode lib.toUriLibs s exempt⟩
  rw [decode_eq]
  exact unescape_encode lib h s

/-- An escape at the end of a short string. -/
theorem decode_encode_percent :
    decode .ascii (encode .ascii (bytes "%") (bytes "/:")) = bytes "%" ∧
      Encoded (bytes "/:") (encode .ascii (bytes "%") (bytes "/:")) :=
  decode_encode .ascii (bytes "%") (by decide)

/-! ### Queries -/

/-- What an encoded text consists of. -/
theorem mem_encoded {exempt s : Bytes} (h : Encoded exempt s) {c : UInt8} (hc : c ∈ s) :
    isPlain exempt c = true ∨ isHexDigit c = true ∨ c = percent := by
  induction h with
  | nil => simp at hc
  | plain hp _ ih =>
      rcases List.mem_cons.mp hc with rfl | hc
      · exact .inl hp
      · exact ih hc
  | escape hx hy _ ih =>
      simp only [List.mem_cons] at hc
      rcases hc with rfl | rfl | rfl | hc
      · exact .inr (.inr rfl)
      · exact .inr (.inl hx)
      · exact .inr (.inl hy)
      · exact ih hc

/-- The characters that give a query its form. -/
def isQueryMark (c : UInt8) : Bool := c == ampersand || c == semicolon || c == equals

/-- An encoded string has none of them. -/
theorem notMem_encode (lib : UriLibs) {c : UInt8} (hc : isQueryMark c = true) (s : Bytes) :
    c ∉ encode lib s := by
  intro hmem
  have hnot : ¬ (isPlain [] c = true ∨ isHexDigit c = true ∨ c = percent) := by
    simp only [isQueryMark, Bool.or_eq_true, beq_iff_eq] at hc
    rcases hc with (rfl | rfl) | rfl <;> decide
  exact hnot (mem_encoded (encoded_encode lib s []) hmem)

section Query

variable (lib : UriQueryLibs) {d : UInt8} (flags : BitVec 32)

/-- What a pair contributes to a query. -/
def entryText (lib : UriLibs) (flags : BitVec 32) (kv : Bytes × Bytes) : Bytes :=
  encode lib kv.1 ++
    (if ! (flags &&& loneKeys != 0) || ! kv.2.isEmpty then [equals] else []) ++ encode lib kv.2

/-- The query is the entries with delimiters between them. -/
theorem makeQuery_eq (lib : UriLibs) (range : List (Bytes × Bytes)) (d : UInt8) :
    makeQuery lib range d flags = [d].intercalate (range.map (entryText lib flags)) := by
  have hfold : range.foldl (fun q kv => q ++ encode lib kv.1 ++
      (if ! (flags &&& loneKeys != 0) || ! kv.2.isEmpty then [equals] else []) ++
        encode lib kv.2 ++ [d]) [] = (range.map (entryText lib flags)).flatMap (· ++ [d]) := by
    rw [List.flatMap_map, List.flatMap_eq_foldl]
    simp only [entryText, List.append_assoc]
  rw [makeQuery, hfold, ← Splitting.dropLast_flatMap_concat]
  cases (range.map (entryText lib flags)).flatMap (· ++ [d]) <;> rfl

/-- The only mark in an entry is the equals sign. -/
theorem mem_entryText {lib : UriLibs} {kv : Bytes × Bytes} {c : UInt8}
    (h : c ∈ entryText lib flags kv) (hc : isQueryMark c = true) : c = equals := by
  rw [entryText, List.mem_append, List.mem_append] at h
  rcases h with (h | h) | h
  · exact absurd h (notMem_encode lib hc _)
  · split at h
    · exact List.mem_singleton.mp h
    · simp at h
  · exact absurd h (notMem_encode lib hc _)

/-- An entry is empty if its key and its value are and lone keys stand alone. -/
theorem isEmpty_entryText (lib : UriLibs) (kv : Bytes × Bytes) :
    (entryText lib flags kv).isEmpty =
      (flags &&& loneKeys != 0 && kv.1.isEmpty && kv.2.isEmpty) := by
  have hencode (s : Bytes) : (encode lib s).isEmpty = s.isEmpty := by
    cases s with
    | nil => rw [encode_nil]
    | cons c s =>
        rw [List.isEmpty_eq_false_iff.mpr (encode_ne_nil lib (List.cons_ne_nil c s) [])]
        rfl
  have happend (s t : Bytes) : (s ++ t).isEmpty = (s.isEmpty && t.isEmpty) := by
    cases s <;> rfl
  rw [entryText, happend, happend, hencode, hencode]
  cases flags &&& loneKeys != 0 <;> cases kv.1.isEmpty <;> cases kv.2.isEmpty <;> rfl

/-- The first `=` of an entry stands behind its key. -/
theorem partitionAt_entryText (kv : Bytes × Bytes) :
    lib.partitionAt (entryText lib.toUriLibs flags kv) [equals] =
      (encode lib.toUriLibs kv.1, encode lib.toUriLibs kv.2) := by
  have hkey : equals ∉ encode lib.toUriLibs kv.1 := notMem_encode lib.toUriLibs rfl kv.1
  rw [lib.partitionAt_eq, find_singleton, entryText]
  split
  · have hfind := findIf_separator hkey (encode lib.toUriLibs kv.2)
    simp [hfind]
  · rename_i hlone
    have hvalue : kv.2 = [] := by
      simp only [Bool.or_eq_true, not_or, Bool.not_eq_true', List.isEmpty_eq_false_iff,
        not_not] at hlone
      exact hlone.2
    have hfind := findIf_zero_none (beq_false_of_notMem hkey)
    simp [hvalue, hfind]

/-- A query that was made with a delimiter has no other one. -/
theorem mem_makeQuery {lib : UriLibs} {range : List (Bytes × Bytes)} {c : UInt8}
    (h : c ∈ makeQuery lib range d flags) (hc : c = ampersand ∨ c = semicolon) : c = d := by
  rw [makeQuery_eq, ← Splitting.dropLast_flatMap_concat] at h
  obtain ⟨e, he, hmem⟩ := List.mem_flatMap.mp (List.mem_of_mem_dropLast h)
  obtain ⟨kv, -, rfl⟩ := List.mem_map.mp he
  rcases List.mem_append.mp hmem with hmem | hmem
  · have heq := mem_entryText flags hmem (by rcases hc with rfl | rfl <;> rfl)
    rw [heq] at hc
    exact absurd hc (by decide)
  · exact List.mem_singleton.mp hmem

/-- There are two delimiters, and one of them is chosen. -/
theorem queryDelimiter_zero (query : Bytes) :
    queryDelimiter query 0 = ampersand ∨ queryDelimiter query 0 = semicolon := by
  rw [queryDelimiter, if_pos (beq_self_eq_true 0)]
  cases hfind : findIf (fun c => c == ampersand || c == semicolon) query 0 with
  | none => exact .inl rfl
  | some i =>
      obtain ⟨c, hc, hmark⟩ := findIf_some hfind
      rw [Option.bind_some, hc, Option.getD_some]
      simpa using hmark

/-- The delimiter of a query that has one is found. -/
theorem queryDelimiter_makeQuery {lib : UriLibs} {range : List (Bytes × Bytes)}
    (hd : d = ampersand ∨ d = semicolon) (hmem : d ∈ makeQuery lib range d flags) :
    queryDelimiter (makeQuery lib range d flags) 0 = d := by
  obtain ⟨a, b, hab, hnot⟩ := List.eq_append_cons_of_mem hmem
  have hmark : ∀ c ∈ a, (c == ampersand || c == semicolon) = false := by
    intro c hc
    by_contra hmark
    rw [Bool.not_eq_false, Bool.or_eq_true, beq_iff_eq, beq_iff_eq] at hmark
    have hcd := mem_makeQuery flags (by rw [hab]; exact List.mem_append_left _ hc) hmark
    exact hnot (hcd ▸ hc)
  have hfind := findIf_zero_cons b hmark (by simpa using hd)
  simp [queryDelimiter, hab, hfind]

/-- The entries of a query, split at its delimiter. -/
theorem split_makeQuery (range : List (Bytes × Bytes)) (hd : d = ampersand ∨ d = semicolon)
    {delimiter : UInt8} (hdelimiter : delimiter = d ∨ delimiter = 0) :
    let q := makeQuery lib.toUriLibs range d flags
    lib.split q [queryDelimiter q delimiter] =
      (range.map (entryText lib.toUriLibs flags)).filter (! ·.isEmpty) := by
  intro q
  have hpieces : ∀ e ∈ range.map (entryText lib.toUriLibs flags), d ∉ e := by
    rintro e he hmem
    obtain ⟨kv, -, rfl⟩ := List.mem_map.mp he
    have heq := mem_entryText flags hmem (by rcases hd with rfl | rfl <;> rfl)
    rw [heq] at hd
    exact absurd hd (by decide)
  have hcontains (c : UInt8) : [c].contains = (· == c) := by
    funext b
    rw [List.contains_cons, List.contains_nil, Bool.or_false]
  have hsplit : (q.splitOn d).filter (! ·.isEmpty) =
      (range.map (entryText lib.toUriLibs flags)).filter (! ·.isEmpty) := by
    rw [← Splitting.filter_splitOn_intercalate hpieces, ← makeQuery_eq]
  rw [lib.split_eq, hcontains, ← List.splitOn_eq_splitOnP]
  by_cases hmem : d ∈ q
  · rcases hdelimiter with rfl | rfl
    · rw [queryDelimiter, if_neg, hsplit]
      rcases hd with rfl | rfl <;> decide
    · rw [queryDelimiter_makeQuery flags hd hmem, hsplit]
  · -- without a delimiter in the query it does not matter which one is taken
    have hnone : queryDelimiter q delimiter ∉ q := by
      rcases hdelimiter with rfl | rfl
      · rwa [queryDelimiter, if_neg]
        rcases hd with rfl | rfl <;> decide
      · exact fun hq => hmem (mem_makeQuery flags hq (queryDelimiter_zero q) ▸ hq)
    rw [List.splitOn_eq_singleton hnone, ← hsplit, List.splitOn_eq_singleton hmem]

/-- **Queries.** A query that was made from pairs with `&` or `;` is parsed into them, whether
the delimiter is given or found. With lone keys the pairs that are empty are lost. -/
theorem parseQuery_makeQuery (range : List (Bytes × Bytes))
    (hd : d = ampersand ∨ d = semicolon) :
    let q := makeQuery lib.toUriLibs range d flags
    let kept := if flags &&& loneKeys = 0 then range
      else range.filter fun kv => ! (kv.1.isEmpty && kv.2.isEmpty)
    parseQuery lib q d = kept ∧ parseQuery lib q = kept := by
  intro q kept
  have hparse {delimiter : UInt8} (hdelimiter : delimiter = d ∨ delimiter = 0) :
      parseQuery lib q delimiter = kept := by
    have hdecode (s : Bytes) :
        decode lib.toUriGetterLibs (encode lib.toUriLibs s) = s := by
      rw [decode_eq]
      exact unescape_encode lib.toUriCodecLibs (by simp) s
    have hkept : range.filter (fun kv => ! (entryText lib.toUriLibs flags kv).isEmpty) = kept := by
      simp only [isEmpty_entryText, kept]
      split
      · rename_i hlone
        simp [hlone]
      · rename_i hlone
        simp only [bne_iff_ne.mpr hlone, Bool.true_and]
    rw [parseQuery, split_makeQuery lib flags range hd hdelimiter, List.filter_map, List.map_map]
    simp only [Function.comp_def, partitionAt_entryText, hdecode, hkept, List.map_id']
  exact ⟨hparse (.inl rfl), hparse (.inr rfl)⟩

/-- A lone key at the end, and a pair that is lost. -/
theorem parseQuery_makeQuery_lone :
    let range := [(bytes "a;b", bytes "=&"), ([], []), (bytes "k", [])]
    let q := makeQuery .ascii range semicolon loneKeys
    let kept := if loneKeys &&& loneKeys = 0 then range
      else range.filter fun kv => ! (kv.1.isEmpty && kv.2.isEmpty)
    parseQuery .ascii q semicolon = kept ∧ parseQuery .ascii q = kept :=
  parseQuery_makeQuery .ascii loneKeys _ (.inr rfl)

end Query

end Uri

end RsIo
