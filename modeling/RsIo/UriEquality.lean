import RsIo.UriHost
import RsIo.UriSlashes
import RsIo.UriText

/-!
# Equal URIs

`operator==` compares two texts, while the observers and the hash look at the offsets as
well. Two equal objects look the same if their text determines the offsets, which holds for
plain segments. `KeepsReading` excludes the events that make other segments: a query with a
hash in it, a parse that takes a question mark or a hash for a part of the host, the user or
the password, and whatever puts a path that starts with two slashes behind a bare scheme.

## Main results

* `plain_of_reach`: without these events all segments are plain.
* `equal_observe`: equal objects look the same.
-/

namespace RsIo

namespace Uri

/-- What the observers and `hash` return. -/
structure Observed where
  scheme : Bytes
  user : Bytes
  password : Bytes
  host : Bytes
  port : UInt16
  path : Bytes
  query : Bytes
  fragment : Bytes
  hash : UInt64
  deriving DecidableEq, Repr

/-- The observers and `hash`. -/
def observe (lib : UriGetterLibs) (u : Uri) : Observed where
  scheme := u.scheme lib
  user := u.user lib
  password := u.password lib
  host := u.host lib
  port := u.port
  path := u.path lib
  query := u.query lib
  fragment := u.fragment lib
  hash := u.hash lib

/-- The call leaves nothing between a scheme without slashes and a path that starts like two
slashes and what may follow them. -/
def Exposes (lib : UriLibs) (s : Segments) : Op → Prop
  | .setScheme newScheme smart =>
      ∃ scheme, schemeText lib newScheme smart = some scheme ∧ { s with scheme := scheme }.Exposed
  | .setUser newUser => newUser = [] ∧ { s with user := [] }.Exposed
  | .setHost newHost => newHost = [] ∧ { s with host := [] }.Exposed
  | .setPort newPort => newPort = 0 ∧ { s with port := [] }.Exposed
  | .clearUser => { s with user := [] }.Exposed
  | .clearHost => { s with host := [] }.Exposed
  | .clearPort => { s with port := [] }.Exposed
  | .parent => { s with path := Segments.parentPath s.path }.Exposed
  | _ => False

/-- A string with two slashes behind the scheme that do not belong to it, and that could be
followed by what is behind them if some of it were not there. -/
def Uncovered (t : Bytes) : Prop :=
  ∃ name a rest, t = name ++ colon :: slash :: slash :: (a ++ rest) ∧ colon ∉ name ∧
    AuthorityLike a ∧ TailStart rest ∧ ¬ BehindSlashes (a ++ rest)

/-- In a string that is parsed no start of a query or a fragment may belong to the user, the
password or the host, none is put into a query, and no path is exposed. -/
def KeepsReading (lib : UriLibs) (u : Uri) : Event → Prop
  | .parse t => (tryParse lib u t).1 = true → ¬ Marked t ∧ ¬ Uncovered t
  | .call (.setQuery newQuery) => u.text = [] ∨ RsIo.hash ∉ newQuery
  | .call op => ¬ Exposes lib u.segments op

/-! ### Strings that are parsed -/

/-- A query and a fragment start with a character that no path has. -/
theorem head?_queryFragment {s : Segments} (h : Parsed s) {c : UInt8}
    (hc : (s.query ++ s.fragment).head? = some c) : isPathChar c = false := by
  rcases h.query.head? (t := s.fragment) with ⟨hhead, -⟩ | hhead
  · rw [hhead] at hc
    rcases h.fragment with hnil | ⟨w, hw, -⟩
    · simp [hnil] at hc
    · obtain rfl : hash = c := by simpa [hw] using hc
      rfl
  · obtain rfl := Option.some.inj (hhead.symm.trans hc)
    rfl

/-- What may follow two slashes up to the end of the path, if it is followed by what may
follow an authority. -/
theorem authorityPath_of_split {s : Segments} (hs : Parsed s) {a rest w : Bytes}
    (hpath : s.path = slash :: slash :: w) (ha : AuthorityLike a) (hrest : TailStart rest)
    (heq : w ++ (s.query ++ s.fragment) = a ++ rest) : AuthorityPath s.path := by
  rcases List.append_eq_append_iff.mp heq with ⟨b, rfl, hb⟩ | ⟨b, rfl, rfl⟩
  · cases b with
    | nil => exact ⟨w, [], by simpa using hpath, by simpa using ha, .inl rfl⟩
    | cons c b =>
        -- a part of the authority would start the query or the fragment
        have hfront := ha.isFrontChar c (by simp)
        rw [isFrontChar, head?_queryFragment hs (by rw [hb]; rfl)] at hfront
        cases hfront
  · refine ⟨a, b, hpath, ha, ?_⟩
    cases b with
    | nil => exact .inl rfl
    | cons c b =>
        have hc : isPathChar c = true := hs.path.all (by decide) c (by rw [hpath]; simp)
        rcases hrest with hnil | hhead | hhead | hhead
        · simp at hnil
        · exact .inr hhead
        · obtain rfl : c = question := by simpa using hhead
          cases hc
        · obtain rfl : c = hash := by simpa using hhead
          cases hc

/-- The parser exposes a path exactly if the string is such a one. -/
theorem exposed_iff {lib : UriLibs} {u v : Uri} {t : Bytes} (h : tryParse lib u t = (true, v)) :
    v.segments.Exposed ↔ Uncovered t := by
  constructor
  · rintro ⟨hslashes, ⟨huser, hhost, hport⟩, a, rest, hpath, ha, hrest⟩
    obtain ⟨s, hs, rfl, ⟨name, hname, hscheme⟩, -⟩ := tryParse_front h
    obtain ⟨s', -, ht, hsame⟩ := tryParse_true h
    rw [segments_assemble] at hslashes huser hhost hport hpath
    have hscheme' : s.scheme = name ++ [colon] :=
      hscheme.resolve_right fun hlong => hslashes ⟨name ++ [colon], by rw [hlong]; simp⟩
    obtain rfl : s = s' := by
      rw [← segments_assemble s, hsame, segments_assemble]
    have htext : t = name ++ colon :: slash :: slash ::
        (a ++ (rest ++ (s.query ++ s.fragment))) := by
      rw [ht]
      simp [Segments.text, Segments.toList, hscheme', huser, hs.user.user_iff.mp huser, hhost,
        hport, hpath]
    have htail : TailShape slash isPathChar rest := by
      have hall := hs.path.all (by decide)
      rcases hrest with rfl | hrest
      · exact .inl rfl
      · obtain ⟨w, rfl⟩ := List.head?_eq_some_iff.mp hrest
        exact .inr ⟨w, rfl, fun c hc => hall c (by rw [hpath]; simp [hc])⟩
    refine ⟨name, a, _, htext, hname, ha, tailStart_append htail hs.query hs.fragment, ?_⟩
    intro hbehind
    rw [htext] at h
    have hlong := scheme_of_behindSlashes h hname hbehind
    rw [segments_assemble] at hlong
    exact hslashes ⟨name ++ [colon], by rw [hlong]; simp⟩
  · rintro ⟨name, a, rest, rfl, hname, ha, hrest, hnot⟩
    obtain ⟨-, hhost, hpath⟩ := tryParse_slashes_path h hname hnot
    obtain ⟨s, hs, rfl, -, -, -, hcases⟩ := tryParse_slashes_cases h hname
    rcases hcases with ⟨-, hbehind⟩ | ⟨hscheme, hbehind⟩
    · exact absurd (hbehind ▸ behindSlashes_behindScheme hs) hnot
    have hhost' : s.host = [] := by simpa using hhost
    obtain ⟨huser, hport⟩ := hs.no_host hhost'
    rw [segments_assemble] at hpath ⊢
    obtain ⟨w, hw⟩ := hpath
    have hpath' : s.path = slash :: slash :: w := by simpa using hw.symm
    rw [Segments.behindScheme, Segments.behindHost, huser, hs.user.user_iff.mp huser, hhost',
      hport, hpath'] at hbehind
    refine ⟨?_, ⟨huser, hhost', hport⟩, authorityPath_of_split hs hpath' ha hrest ?_⟩
    · rintro ⟨x, hx⟩
      have hlast := congrArg List.getLast? (hx.trans hscheme)
      simp [slash, colon] at hlast
    · simpa using hbehind

/-! ### Paths that start with two slashes -/

/-- A part with its mark in front and with characters that it may have. -/
theorem TailShape.of_isPrefix {first : UInt8} {p : UInt8 → Bool} {part : Bytes}
    (h : [first] <+: part) (hall : ∀ c ∈ part, p c = true) : TailShape first p part := by
  obtain ⟨t, rfl⟩ := h
  exact .inr ⟨t, rfl, fun c hc => hall c (List.mem_cons_of_mem _ hc)⟩

/-- A shorter part has its shape too. -/
theorem TailShape.of_prefix {first : UInt8} {p : UInt8 → Bool} {part whole : Bytes}
    (h : TailShape first p whole) (hpart : part <+: whole) : TailShape first p part := by
  obtain ⟨rest, rfl⟩ := hpart
  rcases h with hnil | ⟨t, ht, hall⟩
  · exact .inl (List.append_eq_nil_iff.mp hnil).1
  · cases part with
    | nil => exact .inl rfl
    | cons c part =>
        rw [List.cons_append, List.cons.injEq] at ht
        obtain ⟨rfl, rfl⟩ := ht
        exact .inr ⟨part, rfl, fun d hd => hall d (List.mem_append_left _ hd)⟩

/-- Nothing is no path that could be taken for an authority. -/
theorem not_authorityPath_nil : ¬ AuthorityPath [] := by
  rintro ⟨a, t, h, -⟩
  cases h

/-- A slash is no path that could be taken for an authority. -/
theorem not_authorityPath_slash : ¬ AuthorityPath [slash] := by
  rintro ⟨a, t, h, -⟩
  simp at h

/-- A path that was set begins with one slash, and is not taken for an authority. -/
theorem not_authorityPath_pathText {lib : UriLibs} {newPath : Bytes}
    (h : hasDoubleSlash newPath = false) : ¬ AuthorityPath (pathText lib newPath) := by
  rintro ⟨a, t, hpath, -⟩
  exact pathText_slash h hpath rfl

/-- Appending to a path does not change what is behind its two slashes up to the next one. -/
theorem AuthorityPath.of_append {path rest : Bytes} (hlen : 1 < path.length)
    (hslash : path.getLast? = some slash ∨ rest.head? = some slash)
    (h : AuthorityPath (path ++ rest)) : AuthorityPath path := by
  obtain ⟨a, t, heq, ha, ht⟩ := h
  match path, hlen with
  | c :: d :: path, _ =>
    simp only [List.cons_append, List.cons.injEq] at heq
    obtain ⟨rfl, rfl, heq⟩ := heq
    have hnot := slash_notMem_of_isFrontChar ha.isFrontChar
    rcases List.append_eq_append_iff.mp heq with ⟨b, rfl, hrest⟩ | ⟨b, rfl, rfl⟩
    · -- what is between the slashes ends behind the path
      rcases hslash with hslash | hslash
      · have hpath : path = [] := by
          by_contra hne
          have hmem := List.mem_of_getLast? (a := slash) (l := path) (by
            rw [List.getLast?_cons_cons, List.getLast?_cons] at hslash
            rw [List.getLast?_eq_some_getLast hne] at hslash ⊢
            simpa using hslash)
          exact hnot (List.mem_append_left _ hmem)
        rw [hpath]
        exact ⟨[], [], rfl, authorityLike_nil, .inl rfl⟩
      · cases b with
        | nil => exact ⟨path, [], by simp, by simpa using ha, .inl rfl⟩
        | cons e b =>
            rw [hrest] at hslash
            obtain rfl : e = slash := by simpa using hslash
            simp at hnot
    · refine ⟨a, b, rfl, ha, ?_⟩
      cases b with
      | nil => exact .inl rfl
      | cons e b => exact .inr (by simpa using ht)

namespace Segments

variable {lib : UriLibs} {s s' : Segments}

/-- A path that cannot be taken for an authority is not exposed. -/
theorem not_exposed_of_path (h : ¬ AuthorityPath s.path) : ¬ s.Exposed := fun hs => h hs.2.2

namespace Plain

/-- The segments of an empty object. -/
theorem empty : Plain {} where
  scheme := .inl rfl
  user := by simp
  password := .inl rfl
  user_iff := by simp
  host := by simp
  port := .inl rfl
  path := .inl rfl
  query := .inl rfl
  fragment := .inl rfl
  covered := not_exposed_of_path not_authorityPath_nil

/-- The scheme of segments that are not empty. -/
theorem scheme_of_ne (h : s.Plain) (hs : s.scheme ≠ []) (hscheme : s'.scheme = s.scheme) :
    s' = {} ∨ ∃ name, colon ∉ name ∧
      (s'.scheme = name ++ [colon] ∨ s'.scheme = name ++ [colon, slash, slash]) :=
  .inr (hscheme ▸ h.scheme.resolve_left fun heq => hs (heq ▸ rfl))

/-- A new scheme keeps the segments apart if the path is covered. -/
theorem setScheme (h : s.Plain) {newScheme scheme : Bytes} {smart : Bool}
    (hscheme : schemeText lib newScheme smart = some scheme)
    (hcovered : ¬ { s with scheme := scheme }.Exposed) : { s with scheme := scheme }.Plain := by
  refine { h with scheme := .inr ?_, covered := hcovered }
  obtain ⟨name, ⟨c, t, rfl, hc, ht⟩, hname⟩ := schemeText_eq hscheme
  refine ⟨c :: t, ?_, hname⟩
  rw [List.mem_cons, not_or]
  constructor
  · rintro rfl
    exact absurd hc (by decide)
  · exact fun hmem => absurd (ht _ hmem) (by decide)

/-- The user can be cleared if the path is covered. -/
theorem clearUser (h : s.Plain) (hs : s.scheme ≠ []) (hcovered : ¬ { s with user := [] }.Exposed) :
    s.clearUser.Plain :=
  { h with
    scheme := h.scheme_of_ne hs rfl
    user := by simp [Segments.clearUser]
    password := .inl rfl
    user_iff := iff_of_true rfl rfl
    covered := hcovered }

/-- The password can be cleared. -/
theorem clearPassword (h : s.Plain) (hs : s.scheme ≠ []) : s.clearPassword.Plain := by
  refine { h with scheme := h.scheme_of_ne hs rfl, password := ?_, user_iff := ?_ }
  · rw [Segments.clearPassword]
    dsimp only
    split
    · exact .inr ⟨[], rfl, by simp, .inl rfl⟩
    · exact h.password
  · refine h.user_iff.trans ?_
    rw [Segments.clearPassword]
    dsimp only
    split
    next hlen =>
      refine iff_of_false ?_ (by simp)
      intro hnil
      simp [hnil] at hlen
    next => rfl

/-- An encoded text has characters of a host and of a path. -/
theorem isEncoded_encode (newText : Bytes) :
    ∀ c ∈ encode lib newText, isHostChar c = true ∧ isPathChar c = true := fun _ hc =>
  ⟨isHostChar_of_isEncoded (isEncoded_of_mem_encode hc),
    isPathChar_of_isEncoded (isEncoded_of_mem_encode hc)⟩

/-- A user can be set. -/
theorem setUser (h : s.Plain) (hs : s.scheme ≠ []) {newUser : Bytes} (hne : newUser ≠ []) :
    (s.setUser (encode lib newUser)).Plain := by
  have huser : encode lib newUser ≠ [] := encode_ne_nil lib hne []
  refine { h with
    scheme := h.scheme_of_ne hs rfl
    user := isEncoded_encode newUser
    password := ?_
    user_iff := iff_of_false huser ?_
    covered := fun hexposed => huser hexposed.2.1.1 }
  · rw [Segments.setUser]
    dsimp only
    split
    · exact .inr ⟨[], rfl, by simp, .inl rfl⟩
    · exact h.password
  · rw [Segments.setUser]
    dsimp only
    split
    next => simp
    next hold => exact mt h.user_iff.mpr (by simpa using hold)

/-- A password can be set for a user. -/
theorem setPassword (h : s.Plain) (hs : s.scheme ≠ []) (huser : s.user ≠ []) (newPassword : Bytes) :
    { s with password := colon :: encode lib newPassword ++ [atSign] }.Plain := by
  refine { h with
    scheme := h.scheme_of_ne hs rfl
    password := .inr ⟨colon :: encode lib newPassword, rfl, ?_, .inr rfl⟩
    user_iff := iff_of_false huser (by simp) }
  intro c hc
  rcases List.mem_cons.mp hc with rfl | hc
  · decide
  · obtain ⟨hhost, hpath⟩ := isEncoded_encode newPassword c hc
    exact ⟨isPasswordChar_of_isHostChar hhost, hpath⟩

/-- A host can be set. -/
theorem setHost (h : s.Plain) (hs : s.scheme ≠ []) {newHost : Bytes} (hne : newHost ≠ []) :
    { s with host := encode lib newHost }.Plain :=
  { h with
    scheme := h.scheme_of_ne hs rfl
    host := isEncoded_encode newHost
    covered := fun hexposed => encode_ne_nil lib hne [] hexposed.2.1.2.1 }

/-- The host can be cleared if the path is covered. -/
theorem clearHost (h : s.Plain) (hs : s.scheme ≠ []) (hcovered : ¬ { s with host := [] }.Exposed) :
    { s with host := [] }.Plain :=
  { h with scheme := h.scheme_of_ne hs rfl, host := by simp, covered := hcovered }

/-- A port can be set. -/
theorem setPort (h : s.Plain) (hs : s.scheme ≠ []) (newPort : ℕ) :
    { s with port := colon :: toDecimal newPort }.Plain :=
  { h with
    scheme := h.scheme_of_ne hs rfl
    port := .inr ⟨_, rfl, toDecimal_ne_nil newPort, fun _ hc => isDigit_of_mem_toDecimal hc⟩
    covered := fun hexposed => by
      have hport := hexposed.2.1.2.2
      cases hport }

/-- The port can be cleared if the path is covered. -/
theorem clearPort (h : s.Plain) (hs : s.scheme ≠ []) (hcovered : ¬ { s with port := [] }.Exposed) :
    { s with port := [] }.Plain :=
  { h with scheme := h.scheme_of_ne hs rfl, port := .inl rfl, covered := hcovered }

/-- Segments with a path that cannot be exposed. -/
theorem setPath (h : s.Plain) (hs : s.scheme ≠ []) {path : Bytes}
    (hshape : TailShape slash isPathChar path) (hpath : ¬ { s with path := path }.Exposed) :
    { s with path := path }.Plain :=
  { h with scheme := h.scheme_of_ne hs rfl, path := hshape, covered := hpath }

/-- The path can be cleared. -/
theorem clearPath (h : s.Plain) (hs : s.scheme ≠ []) : s.clearPath.Plain := by
  rw [Segments.clearPath]
  split
  next => exact h.setPath hs (.inl rfl) (not_exposed_of_path not_authorityPath_nil)
  next => exact h

/-- A path can be made longer, behind a slash. -/
theorem appendPath (h : s.Plain) (hs : s.scheme ≠ []) (hlen : 1 < s.path.length) {rest : Bytes}
    (hslash : s.path.getLast? = some slash ∨ rest.head? = some slash)
    (hrest : ∀ c ∈ rest, isPathChar c = true) : { s with path := s.path ++ rest }.Plain := by
  refine h.setPath hs ?_ fun hexposed =>
    h.covered ⟨hexposed.1, hexposed.2.1, hexposed.2.2.of_append hlen hslash⟩
  rcases h.path with hnil | ⟨t, ht, hall⟩
  · simp [hnil] at hlen
  · refine .inr ⟨t ++ rest, by rw [ht, List.cons_append], fun c hc => ?_⟩
    exact (List.mem_append.mp hc).elim (hall c) (hrest c)

/-- A query can be set if it could be read back. -/
theorem setQuery (h : s.Plain) (hs : s.scheme ≠ []) {query : Bytes}
    (hshape : TailShape question isQueryChar query) : { s with query := query }.Plain :=
  { h with scheme := h.scheme_of_ne hs rfl, query := hshape }

/-- A fragment can be set. -/
theorem setFragment (h : s.Plain) (hs : s.scheme ≠ []) {fragment : Bytes}
    (hshape : fragment = [] ∨ [RsIo.hash] <+: fragment) : { s with fragment := fragment }.Plain :=
  { h with scheme := h.scheme_of_ne hs rfl, fragment := hshape }

/-- The document and the query go. -/
theorem base (h : s.Plain) (hs : s.scheme ≠ []) : { s with query := [], fragment := [] }.Plain :=
  (h.setQuery hs (.inl rfl)).setFragment hs (.inl rfl)

/-- The only call that changes an empty URI sets the scheme. -/
theorem apply_empty {op : Op} (happly : op.apply lib {} = .ok s') : s'.Plain := by
  cases op with
  | setScheme newScheme smart =>
      exact setScheme_cases happly fun scheme hscheme =>
        empty.setScheme hscheme (not_exposed_of_path not_authorityPath_nil)
  | appendPath newPath =>
      refine appendPath_cases happly empty (fun hset => ?_) fun hlong => absurd hlong (by decide)
      simp [applySetPath, setter, Segments.text, toList] at hset
  | setUser _ | setPassword _ | setHost _ | setPort _ | setPath _ | setQuery _ | setFragment _ =>
      simp [Op.apply, setter, applySetPath, Segments.text, toList] at happly
  | _ =>
      cases happly
      exact empty

/-- What `set_path` does keeps the segments apart. -/
theorem apply_setPath (h : s.Plain) (hs : s.scheme ≠ []) {newPath : Bytes}
    (hset : applySetPath lib s newPath = .ok s') : s'.Plain := by
  refine setter_cases hset (fun _ => h.clearPath hs) fun hne hset => ?_
  split at hset
  next => cases hset
  next hdouble =>
    cases hset
    refine h.setPath hs (.of_isPrefix (pathText_isPrefix lib hne) fun _ =>
      isPathChar_of_mem_pathText) ?_
    exact not_exposed_of_path (not_authorityPath_pathText (by simpa using hdouble))

/-- What `append_path` appends. -/
theorem isPathChar_of_mem_encode {newPath : Bytes} :
    ∀ c ∈ encode lib newPath [colon, slash], isPathChar c = true := by
  intro c hc
  rcases mem_encode hc with hc | hc
  · exact isPathChar_of_isEncoded hc
  · rw [List.mem_cons, List.mem_singleton] at hc
    rcases hc with rfl | rfl <;> decide

/-- What `append_path` does keeps the segments apart. -/
theorem apply_appendPath (h : s.Plain) (hs : s.scheme ≠ []) {newPath : Bytes}
    (happly : (Op.appendPath newPath).apply lib s = .ok s') : s'.Plain := by
  refine appendPath_cases happly h (h.apply_setPath hs) fun hlong => h.appendPath hs hlong ?_ ?_
  · split
    next hlast => exact .inl hlast
    next => exact .inr rfl
  · split
    next => exact isPathChar_of_mem_encode
    next =>
      intro c hc
      rcases List.mem_cons.mp hc with rfl | hc
      · decide
      · exact isPathChar_of_mem_encode c hc

/-- A call that keeps to `KeepsReading` keeps segments plain. -/
theorem apply {op : Op} (h : s.Plain) (happly : op.apply lib s = .ok s')
    (hkeep : KeepsReading lib (assemble s) (.call op)) : s'.Plain := by
  rcases h.scheme with rfl | ⟨name, -, hname⟩
  · exact apply_empty happly
  have hs : s.scheme ≠ [] := by rcases hname with hname | hname <;> simp [hname]
  cases op with
  | setScheme newScheme smart =>
      refine setScheme_cases happly fun scheme hscheme =>
        h.setScheme hscheme fun hexposed => hkeep ⟨scheme, hscheme, ?_⟩
      rwa [segments_assemble]
  | setUser newUser =>
      refine setter_cases happly (fun hnil => ?_) fun hne hset => ?_
      · refine h.clearUser hs fun hexposed => hkeep ⟨hnil, ?_⟩
        rwa [segments_assemble]
      · split at hset
        next => cases hset
        next =>
          cases hset
          exact h.setUser hs hne
  | setPassword newPassword =>
      refine setter_cases happly (fun _ => h.clearPassword hs) fun hne hset => ?_
      split at hset
      next => cases hset
      next huser =>
        cases hset
        exact h.setPassword hs (by simpa using huser) newPassword
  | setHost newHost =>
      refine setter_cases happly (fun hnil => ?_) fun hne hset => ?_
      · refine h.clearHost hs fun hexposed => hkeep ⟨hnil, ?_⟩
        rwa [segments_assemble]
      · cases hset
        exact h.setHost hs hne
  | setPort newPort =>
      refine setPort_cases happly (fun hzero => ?_) fun _ _ => h.setPort hs newPort.toNat
      refine h.clearPort hs fun hexposed => hkeep ⟨hzero, ?_⟩
      rwa [segments_assemble]
  | setPath newPath => exact h.apply_setPath hs happly
  | setQuery newQuery =>
      refine setter_cases happly (fun _ => h.setQuery hs (.inl rfl)) fun hne hset => ?_
      cases hset
      refine h.setQuery hs (.inr ⟨newQuery, rfl, fun c hc => ?_⟩)
      rw [isQueryChar, bne_iff_ne]
      rintro rfl
      exact hkeep.elim (text_ne_nil .scheme hs) fun hhash => hhash hc
  | setFragment newFragment =>
      refine setter_cases happly (fun _ => h.setFragment hs (.inl rfl)) fun hne hset => ?_
      cases hset
      exact h.setFragment hs (.inr (by simp))
  | clearUser =>
      cases happly
      refine h.clearUser hs fun hexposed => hkeep ?_
      rwa [Exposes, segments_assemble]
  | clearPassword =>
      cases happly
      exact h.clearPassword hs
  | clearHost =>
      cases happly
      refine h.clearHost hs fun hexposed => hkeep ?_
      rwa [Exposes, segments_assemble]
  | clearPort =>
      cases happly
      refine h.clearPort hs fun hexposed => hkeep ?_
      rwa [Exposes, segments_assemble]
  | clearPath =>
      cases happly
      exact h.clearPath hs
  | clearQuery =>
      cases happly
      exact h.setQuery hs (.inl rfl)
  | clearFragment =>
      cases happly
      exact h.setFragment hs (.inl rfl)
  | appendPath newPath => exact h.apply_appendPath hs happly
  | clear =>
      cases happly
      exact empty
  | doc =>
      cases happly
      exact h.setFragment hs (.inl rfl)
  | base =>
      cases happly
      exact h.base hs
  | parent =>
      cases happly
      refine (h.base hs).setPath hs (h.path.of_prefix (parentPath_isPrefix s.path))
        fun hexposed => hkeep ?_
      rwa [Exposes, segments_assemble]
  | root =>
      cases happly
      refine (h.base hs).setPath hs ?_ (not_exposed_of_path ?_)
      · split
        next => exact .inl rfl
        next => exact .inr ⟨[], rfl, by simp⟩
      · dsimp only
        split
        next => exact not_authorityPath_nil
        next => exact not_authorityPath_slash

end Plain

end Segments

/-! ### Every run -/

/-- A path that is not there is never exposed. -/
theorem keepsReading_of_path {lib : UriLibs} {u : Uri} {op : Op} (h : u.segments.path = [])
    (hquery : ∀ q, op = .setQuery q → RsIo.hash ∉ q) : KeepsReading lib u (.call op) := by
  have hpath {s : Segments} (hs : s.path = []) : ¬ s.Exposed :=
    Segments.not_exposed_of_path (hs ▸ not_authorityPath_nil)
  cases op with
  | setScheme newScheme smart => exact fun ⟨_, _, hexposed⟩ => hpath (by exact h) hexposed
  | setUser newUser => exact fun hexposed => hpath (by exact h) hexposed.2
  | setHost newHost => exact fun hexposed => hpath (by exact h) hexposed.2
  | setPort newPort => exact fun hexposed => hpath (by exact h) hexposed.2
  | setQuery newQuery => exact .inr (hquery newQuery rfl)
  | clearUser => exact hpath h
  | clearHost => exact hpath h
  | clearPort => exact hpath h
  | parent => exact hpath (by rw [h]; rfl)
  | _ => exact id

/-- Everything that is reached without the excluded events stands for plain segments. -/
theorem plain_of_reach {lib : UriLibs} {u : Uri} (h : (objects lib).Reach (KeepsReading lib) u) :
    ∃ s : Segments, s.Plain ∧ s.Wf ∧ u = assemble s := by
  refine h.invariant (I := fun u => ∃ s : Segments, s.Plain ∧ s.Wf ∧ u = assemble s)
    ⟨{}, .empty, Segments.wf_empty, rfl⟩ ?_
  rintro u e u' ⟨s, hs, hwf, rfl⟩ hkeep hnext
  obtain rfl : after lib (assemble s) e = u' := Option.some.inj hnext
  cases e with
  | parse t =>
      rw [after]
      cases hp : tryParse lib (assemble s) t with
      | mk ok v =>
          cases ok with
          | false => exact ⟨s, hs, hwf, tryParse_false hp⟩
          | true =>
              obtain ⟨hmarks, hcovered⟩ := hkeep (congrArg Prod.fst hp)
              rw [marked_iff hp] at hmarks
              rw [← exposed_iff hp] at hcovered
              simp only [not_exists, not_and, Bool.not_eq_false] at hmarks
              obtain ⟨s', hs', -, rfl⟩ := tryParse_true hp
              refine ⟨s', ?_, hs'.wf, rfl⟩
              rw [← segments_assemble s']
              exact plain_of_tryParse hp hmarks hcovered
  | call op =>
      rw [after, run_assemble lib hwf op]
      cases happly : op.apply lib s with
      | error error => exact ⟨s, hs, hwf, rfl⟩
      | ok s' => exact ⟨s', hs.apply happly hkeep, apply_wf happly hwf, rfl⟩

/-- **Equal URIs.** Two objects of runs without the excluded events that are equal look the
same and have the same hash. -/
theorem equal_observe (lib : UriGetterLibs) {u v : Uri}
    (hu : (objects lib.toUriLibs).Reach (KeepsReading lib.toUriLibs) u)
    (hv : (objects lib.toUriLibs).Reach (KeepsReading lib.toUriLibs) v)
    (h : equal u v = true) : observe lib u = observe lib v := by
  obtain ⟨s, hs, -, rfl⟩ := plain_of_reach hu
  obtain ⟨s', hs', -, rfl⟩ := plain_of_reach hv
  obtain rfl : s = s' := hs.text_inj hs' (beq_iff_eq.mp h)
  rfl

/-- A URI may be parsed, or put together with the query before the host and the path. -/
theorem equal_observe_order :
    let u := after .ascii (after .ascii {} (.parse (bytes "http://h/p")))
      (.call (.setQuery (bytes "q")))
    let v := [.setScheme (bytes "http") true, .setQuery (bytes "q"), .setHost (bytes "h"),
      .setPath (bytes "/p")].foldl (fun u op => after .ascii u (.call op)) {}
    observe .ascii u = observe .ascii v := by
  have hcall {u : Uri} (op : Op) (hu : (objects .ascii).Reach (KeepsReading .ascii) u)
      (hpath : u.segments.path = []) (hquery : ∀ q, op = .setQuery q → RsIo.hash ∉ q) :
      (objects .ascii).Reach (KeepsReading .ascii) (after .ascii u (.call op)) :=
    hu.step (keepsReading_of_path hpath hquery) rfl
  have hparse : tryParse .ascii {} (bytes "http://h/p") =
      (true, ⟨bytes "http://h/p", 7, 7, 7, 8, 8, 10, 10⟩) := by decide +kernel
  have hkeeps : KeepsReading .ascii {} (.parse (bytes "http://h/p")) := fun _ => by
    rw [marked_iff hparse, ← exposed_iff hparse]
    exact ⟨by decide +kernel, fun hexposed => absurd hexposed.2.1.2.1 (by decide +kernel)⟩
  have hparsed : (objects .ascii).Reach (KeepsReading .ascii)
      (after .ascii {} (.parse (bytes "http://h/p"))) := .step .start hkeeps rfl
  have hscheme := hcall (.setScheme (bytes "http") true) .start (by decide +kernel) (by simp)
  have hquery := hcall (.setQuery (bytes "q")) hscheme (by decide +kernel) (by simp; decide)
  have hhost := hcall (.setHost (bytes "h")) hquery (by decide +kernel) (by simp)
  exact equal_observe .ascii
    (hparsed.step (e := .call (.setQuery (bytes "q"))) (.inr (by decide)) rfl)
    (hhost.step (e := .call (.setPath (bytes "/p"))) id rfl) (by decide +kernel)

/-- A host that the parser has found is not the host and the query that were set. -/
theorem equal_observe_fails :
    ¬ ∀ (lib : UriGetterLibs) (u v : Uri), (objects lib.toUriLibs).Reachable u →
      (objects lib.toUriLibs).Reachable v → equal u v = true → observe lib u = observe lib v := by
  intro h
  have hu : (objects .ascii).Reachable ⟨bytes "http://a?b", 7, 7, 7, 10, 10, 10, 10⟩ :=
    .of_replay [.parse (bytes "http://a?b")] .start (by decide +kernel)
  have hv : (objects .ascii).Reachable ⟨bytes "http://a?b", 7, 7, 7, 8, 8, 8, 10⟩ :=
    .of_replay [.parse (bytes "http://a"), .call (.setQuery (bytes "b"))] .start
      (by decide +kernel)
  have hsame := congrArg Observed.host (h .ascii _ _ hu hv rfl)
  revert hsame
  decide +kernel

end Uri

end RsIo
