import RsIo.UriSegments

/-!
# Parsing URIs

What the two regular expressions of the class match, and with it the segments that the
parser finds.
-/

namespace RsIo

namespace Uri

/-! ### The scheme of a setter -/

/-- `[a-z][a-z0-9.+-]*`: the name of a scheme, in lower case. -/
def SchemeName (name : Bytes) : Prop :=
  ∃ c t, name = c :: t ∧ isLower c = true ∧ ∀ d ∈ t, isSchemeChar d = true

/-- What the regular expression of `Uri::set_scheme` matches. -/
theorem matches_schemePattern {t : Bytes} {m : Regex.Captures UInt8}
    (h : schemePattern.Matches t m) :
    ∃ name, SchemeName name ∧
      ((m.matched 1 = false ∧ m.matched 2 = false ∧ t = name) ∨
        (m.matched 1 = true ∧ m.matched 2 = false ∧ t = name ++ [colon]) ∨
        (m.matched 1 = true ∧ m.matched 2 = true ∧ t = name ++ [colon, slash, slash])) := by
  simp only [schemePattern, Regex.Matches, Regex.literal, List.foldr_cons, List.foldr_nil] at h
  obtain ⟨_, _, _, _, ⟨c, hc, rfl, rfl⟩, ⟨cs, _, end', m', ⟨hcs, rfl⟩, hend, rfl, rfl⟩,
    rfl, rfl⟩ := h
  refine ⟨c :: cs, ⟨c, cs, rfl, hc, hcs⟩, ?_⟩
  simp only [beq_iff_eq] at hend
  rcases hend with ⟨m', ⟨_, _, slashes, m₂, ⟨_, _, _, _, ⟨d, rfl, rfl, rfl⟩, ⟨rfl, rfl⟩, rfl, rfl⟩,
    hslashes, rfl, rfl⟩, rfl⟩ | ⟨rfl, rfl⟩
  · right
    rcases hslashes with ⟨m₃, ⟨_, _, _, _, ⟨d, rfl, rfl, rfl⟩, ⟨_, _, _, _, ⟨e, rfl, rfl, rfl⟩,
      ⟨rfl, rfl⟩, rfl, rfl⟩, rfl, rfl⟩, rfl⟩ | ⟨rfl, rfl⟩
    · exact .inr ⟨rfl, rfl, by simp⟩
    · exact .inl ⟨rfl, rfl, by simp⟩
  · exact .inl ⟨rfl, rfl, by simp⟩

/-- The text that replaces a scheme is a name with a colon, or with a colon and two
slashes. -/
theorem schemeText_eq {lib : UriLibs} {newScheme t : Bytes} {smart : Bool}
    (h : schemeText lib newScheme smart = some t) :
    ∃ name, SchemeName name ∧ (t = name ++ [colon] ∨ t = name ++ [colon, slash, slash]) := by
  obtain ⟨m, hm, rfl⟩ := Option.map_eq_some_iff.mp h
  rw [lib.fullMatch_eq] at hm
  obtain ⟨name, hname, hcases⟩ := matches_schemePattern (Regex.fullMatch_sound hm)
  refine ⟨name, hname, ?_⟩
  rcases hcases with ⟨h1, h2, ht⟩ | ⟨h1, h2, ht⟩ | ⟨h1, h2, ht⟩
  all_goals simp only [h1, h2, ht, Bool.false_eq_true, if_false, if_true]
  · split
    · exact .inr (by simp)
    · exact .inl rfl
  · split
    · exact .inr (by simp)
    · exact .inl rfl
  · simp

/-! ### The parser -/

/-- The scheme at the front of what the parser accepts. -/
theorem matches_parseScheme {t : Bytes} {m : Regex.Captures UInt8} (h : parseScheme.Matches t m) :
    (∃ name, colon ∉ name ∧ (t = name ++ [colon] ∨ t = name ++ [colon, slash, slash])) ∧
      m = Regex.capture 1 t := by
  obtain ⟨_, ⟨_, _, _, _, ⟨c, hc, rfl, rfl⟩, ⟨cs, _, _, _, ⟨hcs, rfl⟩, ⟨_, _, _, _, hcolon,
    hslashes, rfl, rfl⟩, rfl, rfl⟩, rfl, rfl⟩, rfl⟩ := h
  obtain ⟨rfl, rfl⟩ := Regex.matches_literal hcolon
  have hname : colon ∉ c :: cs := by
    rw [List.mem_cons, not_or]
    constructor
    · rintro rfl
      exact absurd hc (by decide)
    · exact fun hmem => absurd (hcs colon hmem) (by decide)
  rcases hslashes with hslashes | ⟨rfl, rfl⟩
  · obtain ⟨rfl, rfl⟩ := Regex.matches_literal hslashes
    exact ⟨⟨c :: cs, hname, .inr (by simp)⟩, rfl⟩
  · exact ⟨⟨c :: cs, hname, .inl (by simp)⟩, rfl⟩

/-- What the groups for user and password can match. -/
structure UserShape (user password : Bytes) : Prop where
  user_chars : ∀ c ∈ user, isHostChar c = true
  password_eq : password = [] ∨
    ∃ p, password = p ++ [atSign] ∧ ∀ c ∈ p, isPasswordChar c = true
  user_iff : user = [] ↔ password = []

/-- What the group for the port can match. -/
def PortShape (port : Bytes) : Prop :=
  port = [] ∨ ∃ d, port = colon :: d ∧ d ≠ [] ∧ ∀ c ∈ d, isDigit c = true

/-- A part that starts with `first`, all of whose other characters are of a class. -/
def TailShape (first : UInt8) (p : UInt8 → Bool) (part : Bytes) : Prop :=
  part = [] ∨ ∃ t, part = first :: t ∧ ∀ c ∈ t, p c = true

/-- What the pattern of the user matches. -/
theorem matches_parseUser {t : Bytes} {m : Regex.Captures UInt8}
    (h : (Regex.opt parseUser).Matches t m) :
    ∃ user password, UserShape user password ∧ t = user ++ password ∧
      m = Regex.capture 2 user ++ Regex.capture 3 password := by
  rcases h with ⟨user, _, password, _, ⟨_, huser, rfl⟩, ⟨_, ⟨p, _, _, _, ⟨hp, rfl⟩, hat, rfl, rfl⟩,
    rfl⟩, rfl, rfl⟩ | ⟨rfl, rfl⟩
  · obtain ⟨hne, hall, rfl⟩ := Regex.matches_many1 huser
    obtain ⟨rfl, rfl⟩ := Regex.matches_literal hat
    refine ⟨user, p ++ [atSign], ⟨hall, .inr ⟨p, rfl, hp⟩, by simp [hne]⟩, rfl, ?_⟩
    rw [Regex.capture_of_ne_nil 2 hne, Regex.capture_of_ne_nil 3 (by simp)]
  · exact ⟨[], [], ⟨by simp, .inl rfl, by simp⟩, rfl, rfl⟩

/-- What the pattern of the port matches. -/
theorem matches_parsePort {t : Bytes} {m : Regex.Captures UInt8}
    (h : (Regex.opt (Regex.group 5 (Regex.seq (Regex.literal [colon])
      (Regex.many1 isDigit)))).Matches t m) :
    PortShape t ∧ m = Regex.capture 5 t := by
  rcases h with ⟨_, ⟨_, _, digits, _, hcolon, hdigits, rfl, rfl⟩, rfl⟩ | ⟨rfl, rfl⟩
  · obtain ⟨rfl, rfl⟩ := Regex.matches_literal hcolon
    obtain ⟨hne, hall, rfl⟩ := Regex.matches_many1 hdigits
    exact ⟨.inr ⟨digits, rfl, hne, hall⟩, rfl⟩
  · exact ⟨.inl rfl, rfl⟩

/-- The optional part with the host. -/
theorem matches_parseAuthority {t : Bytes} {m : Regex.Captures UInt8}
    (h : (Regex.opt parseAuthority).Matches t m) :
    ∃ user password host port, UserShape user password ∧ (∀ c ∈ host, isHostChar c = true) ∧
      PortShape port ∧ (host = [] → user = [] ∧ port = []) ∧
      t = user ++ (password ++ (host ++ port)) ∧
      m = Regex.capture 2 user ++ (Regex.capture 3 password ++ (Regex.capture 4 host ++
        Regex.capture 5 port)) := by
  rcases h with ⟨_, _, _, _, huser, ⟨host, _, port, _, ⟨_, hhost, rfl⟩, hport, rfl, rfl⟩, rfl,
    rfl⟩ | ⟨rfl, rfl⟩
  · obtain ⟨user, password, hshape, rfl, rfl⟩ := matches_parseUser huser
    obtain ⟨hne, hall, rfl⟩ := Regex.matches_many1 hhost
    obtain ⟨hdigits, rfl⟩ := matches_parsePort hport
    refine ⟨user, password, host, port, hshape, hall, hdigits, fun h => absurd h hne,
      by rw [List.append_assoc], ?_⟩
    rw [Regex.capture_of_ne_nil 4 hne, List.append_assoc]
  · exact ⟨[], [], [], [], ⟨by simp, .inl rfl, by simp⟩, by simp, .inl rfl, by simp, rfl, rfl⟩

/-- What the pattern of a part with a mark matches. -/
theorem matches_tailGroup {n : ℕ} {first : UInt8} {p : UInt8 → Bool} {t : Bytes}
    {m : Regex.Captures UInt8}
    (h : (Regex.opt (Regex.group n (Regex.seq (Regex.literal [first])
      (Regex.many p)))).Matches t m) :
    TailShape first p t ∧ m = Regex.capture n t := by
  rcases h with ⟨_, ⟨_, _, rest, _, hfirst, ⟨hall, rfl⟩, rfl, rfl⟩, rfl⟩ | ⟨rfl, rfl⟩
  · obtain ⟨rfl, rfl⟩ := Regex.matches_literal hfirst
    exact ⟨.inr ⟨rest, rfl, hall⟩, rfl⟩
  · exact ⟨.inl rfl, rfl⟩

/-- The path, the query and the fragment. -/
theorem matches_parseTail {t : Bytes} {m : Regex.Captures UInt8} (h : parseTail.Matches t m) :
    ∃ path query fragment, TailShape slash isPathChar path ∧
      TailShape question isQueryChar query ∧ TailShape hash isAny fragment ∧
      t = path ++ (query ++ fragment) ∧
      m = Regex.capture 6 path ++ (Regex.capture 7 query ++ Regex.capture 8 fragment) := by
  obtain ⟨path, _, _, _, hpath, ⟨query, _, fragment, _, hquery, hfragment, rfl, rfl⟩, rfl, rfl⟩ := h
  obtain ⟨hp, rfl⟩ := matches_tailGroup hpath
  obtain ⟨hq, rfl⟩ := matches_tailGroup hquery
  obtain ⟨hf, rfl⟩ := matches_tailGroup hfragment
  exact ⟨path, query, fragment, hp, hq, hf, rfl, rfl⟩

/-- The captures that stand for segments. -/
def captures (s : Segments) : Regex.Captures UInt8 :=
  Regex.capture 1 s.scheme ++ (Regex.capture 2 s.user ++ (Regex.capture 3 s.password ++
    (Regex.capture 4 s.host ++ (Regex.capture 5 s.port ++ (Regex.capture 6 s.path ++
      (Regex.capture 7 s.query ++ Regex.capture 8 s.fragment))))))

/-- The capture of a part is its segment. -/
theorem lookup_captures (s : Segments) (part : Part) :
    ((captures s).lookup (part.index + 1)).getD [] = s.get part := by
  rw [captures]
  cases part <;> simp only [Regex.lookup_capture_append, Regex.lookup_capture, Part.index] <;>
    simp [Segments.get]

/-- The capture is as long as the segment. -/
theorem count_captures (s : Segments) (part : Part) :
    (captures s).count (part.index + 1) = (s.get part).length :=
  congrArg List.length (lookup_captures s part)

/-- Such captures give the offsets of the segments. -/
theorem parsed_captures (s : Segments) : parsed s.text (captures s) = assemble s := by
  have h := count_captures s
  have h1 := h .scheme
  have h2 := h .user
  have h3 := h .password
  have h4 := h .host
  have h5 := h .port
  have h6 := h .path
  have h7 := h .query
  simp only [Part.index, Nat.zero_add, Nat.reduceAdd, Segments.get] at h1 h2 h3 h4 h5 h6 h7
  simp only [parsed, assemble, h1, h2, h3, h4, h5, h6, h7]

/-- What the groups of the regular expression can match. -/
structure Parsed (s : Segments) : Prop where
  scheme : ∃ name, s.scheme = name ++ [colon] ∨ s.scheme = name ++ [colon, slash, slash]
  user : UserShape s.user s.password
  host : ∀ c ∈ s.host, isHostChar c = true
  port : PortShape s.port
  no_host : s.host = [] → s.user = [] ∧ s.port = []
  path : TailShape slash isPathChar s.path
  query : TailShape question isQueryChar s.query
  fragment : TailShape hash isAny s.fragment

/-- **Parsing.** What the regular expression matches are segments of that kind. -/
theorem matches_parsePattern {t : Bytes} {m : Regex.Captures UInt8}
    (h : parsePattern.Matches t m) : ∃ s, Parsed s ∧ t = s.text ∧ m = captures s := by
  obtain ⟨scheme, _, _, _, hscheme, ⟨_, _, _, _, hauthority, htail, rfl, rfl⟩, rfl, rfl⟩ := h
  obtain ⟨hname, rfl⟩ := matches_parseScheme hscheme
  obtain ⟨user, password, host, port, huser, hhost, hport, hno, rfl, rfl⟩ :=
    matches_parseAuthority hauthority
  obtain ⟨path, query, fragment, hpath, hquery, hfragment, rfl, rfl⟩ := matches_parseTail htail
  refine ⟨⟨scheme, user, password, host, port, path, query, fragment⟩,
    ⟨hname.imp fun _ h => h.2, huser, hhost, hport, hno, hpath, hquery, hfragment⟩, ?_, ?_⟩
  · simp [Segments.text, Segments.toList]
  · simp [captures]

/-- All characters of the part are of the class if the first one is. -/
theorem TailShape.all {first : UInt8} {p : UInt8 → Bool} {part : Bytes}
    (h : TailShape first p part) (hfirst : p first = true) : ∀ c ∈ part, p c = true := by
  rcases h with rfl | ⟨w, rfl, hw⟩
  · simp
  · intro c hc
    rcases List.mem_cons.mp hc with rfl | hc
    · exact hfirst
    · exact hw c hc

/-- A part that is not empty begins with its mark. -/
theorem TailShape.isPrefix {first : UInt8} {p : UInt8 → Bool} {part : Bytes}
    (h : TailShape first p part) : part = [] ∨ [first] <+: part := by
  rcases h with h | ⟨t, rfl, -⟩
  · exact .inl h
  · exact .inr (by simp)

/-- What was parsed is well formed. -/
theorem Parsed.wf {s : Segments} (h : Parsed s) : s.Wf where
  scheme := by
    obtain ⟨name, hname | hname⟩ := h.scheme
    · exact .inr (.inl ⟨name, hname.symm⟩)
    · exact .inr (.inr ⟨name, hname.symm⟩)
  password := by
    rcases h.user.password_eq with hnil | ⟨p, hp, -⟩
    · exact .inl hnil
    · exact .inr ⟨p, hp.symm⟩
  port := by
    rcases h.port with hnil | ⟨d, hd, -⟩
    · exact .inl hnil
    · exact .inr ⟨d, hd.symm⟩
  path := h.path.isPrefix
  query := h.query.isPrefix
  fragment := h.fragment.isPrefix
  user_iff := h.user.user_iff

/-- What a successful parse has found. -/
theorem tryParse_captures {lib : UriLibs} {u u' : Uri} {t : Bytes}
    (h : tryParse lib u t = (true, u')) :
    ∃ s, Parsed s ∧ t = s.text ∧ u' = assemble s ∧
      Regex.fullMatch parsePattern t = some (captures s) ∧ ∀ c ∈ t, isCntrl c = false := by
  rw [tryParse] at h
  split at h
  · simp at h
  rename_i hclean
  simp only [List.any_eq_true, not_exists, not_and, Bool.not_eq_true, lib.asciiIscntrl_eq] at hclean
  split at h
  · simp at h
  rename_i m hm
  rw [lib.fullMatch_eq] at hm
  obtain ⟨s, hs, rfl, rfl⟩ := matches_parsePattern (Regex.fullMatch_sound hm)
  rw [parsed_captures] at h
  exact ⟨s, hs, rfl, (Prod.mk.inj h).2.symm, hm, hclean⟩

/-- A successful parse splits the string into such segments. -/
theorem tryParse_true {lib : UriLibs} {u u' : Uri} {t : Bytes}
    (h : tryParse lib u t = (true, u')) : ∃ s, Parsed s ∧ t = s.text ∧ u' = assemble s := by
  obtain ⟨s, hs, ht, hu', -⟩ := tryParse_captures h
  exact ⟨s, hs, ht, hu'⟩

/-- A parse that fails leaves the object as it was. -/
theorem tryParse_false {lib : UriLibs} {u u' : Uri} {t : Bytes}
    (h : tryParse lib u t = (false, u')) : u' = u := by
  rw [tryParse] at h
  split at h
  · exact (Prod.mk.inj h).2.symm
  split at h
  · exact (Prod.mk.inj h).2.symm
  · simp at h

end Uri

end RsIo
