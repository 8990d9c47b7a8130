import RsIo.UriReachable
import RsIo.UriReadable

/-!
# Assembling a URI and Parsing It Again

The constructor from the parts joins the segments that its setters make. They encode every
part but the query. What the parser finds in the joined text therefore depends on the raw
query, and on whether there is a path in front of it.

## Main results

* `ofParts_eq`: what the constructor joins.
* `joined_assembled`, `joined_text_iff`, `joined_readable_iff`: the joined segments meet the
  conditions of the parser, except where the query and the missing path break them.
* `ofString_ofParts_iff`: when parsing gives back what the constructor built.
-/

namespace RsIo

namespace Uri

/-! ### The constructor from the parts -/

/-- The segments that the constructor joins, behind the text of the scheme. -/
def joined (lib : UriLibs) (scheme user password host : Bytes) (port : UInt16)
    (path query fragment : Bytes) : Segments where
  scheme := scheme
  user := encode lib user
  password :=
    if password = [] then (if user = [] then [] else [atSign])
    else colon :: encode lib password ++ [atSign]
  host := encode lib host
  port := if port = 0 then [] else colon :: toDecimal port.toNat
  path := if path = [] then [] else pathText lib path
  query := if query = [] then [] else question :: query
  fragment := if fragment = [] then [] else hash :: encode lib fragment

/-- The second call returns if the first one did. -/
theorem andThen_eq_returned {o : Outcome} {call : Uri → Outcome} {u : Uri} :
    o.andThen call = .returned u ↔ ∃ v, o = .returned v ∧ call v = .returned u := by
  cases o with
  | returned v => simp [Outcome.andThen]
  | threw e v => simp [Outcome.andThen]

/-- A call on the segments returns the object of its result. -/
theorem outcome_eq_returned {u v : Uri} {e : Except InvalidArgument Segments} :
    outcome u e = .returned v ↔ ∃ s, e = .ok s ∧ v = assemble s := by
  cases e with
  | error e => simp [outcome]
  | ok s => simp [outcome, eq_comm]

section Setters

variable {lib : UriLibs} {s : Segments} {v : Uri}

/-! Setting a segment that is not there yet. -/

/-- What `assemble` gets from `set_host`. -/
theorem setHost_returned {newHost : Bytes}
    (h : (assemble s).setHost lib newHost = .returned v) :
    v = assemble { s with host := encode lib newHost } := by
  rw [setHost_assemble, outcome_eq_returned] at h
  obtain ⟨s', h, rfl⟩ := h
  refine congrArg assemble (setter_cases (P := fun t => t = _) h (fun hnil => ?_) fun _ hset => ?_)
  · rw [hnil, encode_nil]
  · exact (Except.ok.inj hset).symm

/-- What `assemble` gets from `set_user`. -/
theorem setUser_returned {newUser : Bytes} (hwf : s.Wf) (hs : s.user = [])
    (h : (assemble s).setUser lib newUser = .returned v) :
    v = assemble { s with
        user := encode lib newUser, password := if newUser = [] then [] else [atSign] } ∧
      (newUser ≠ [] → s.host ≠ []) := by
  rw [setUser_assemble lib hwf, outcome_eq_returned] at h
  obtain ⟨s', h, rfl⟩ := h
  refine setter_cases (P := fun t => assemble t = _ ∧ _) h (fun hnil => ?_) fun hne hset => ?_
  · simp [hnil, Segments.clearUser]
  · split at hset
    · simp at hset
    · rename_i hhost
      cases hset
      simpa [Segments.setUser, hs, hne] using hhost

/-- What `assemble` gets from `set_password`, which needs a user. -/
theorem setPassword_returned {newPassword : Bytes} (hs : s.password.length ≤ 1)
    (h : (assemble s).setPassword lib newPassword = .returned v) :
    v = assemble { s with
        password := if newPassword = [] then s.password
          else colon :: encode lib newPassword ++ [atSign] } ∧
      (newPassword ≠ [] → s.user ≠ []) := by
  rw [setPassword_assemble, outcome_eq_returned] at h
  obtain ⟨s', h, rfl⟩ := h
  refine setter_cases (P := fun t => assemble t = _ ∧ _) h (fun hnil => ?_) fun hne hset => ?_
  · simp [hnil, Segments.clearPassword, Nat.not_lt.mpr hs]
  · split at hset
    · simp at hset
    · rename_i hu
      cases hset
      simpa [hne] using hu

/-- What `assemble` gets from `set_port`. -/
theorem setPort_returned (lib : UriLibs) {newPort : UInt16}
    (h : (assemble s).setPort newPort = .returned v) :
    v = assemble { s with
        port := if newPort = 0 then [] else colon :: toDecimal newPort.toNat } ∧
      (newPort ≠ 0 → s.host ≠ []) := by
  rw [setPort_assemble lib, outcome_eq_returned] at h
  obtain ⟨s', h, rfl⟩ := h
  refine setPort_cases (P := fun t => assemble t = _ ∧ _) h (fun hzero => ?_) fun hne hhost => ?_
  · simp [hzero]
  · simpa [hne] using hhost

/-- What `assemble` gets from `set_path`. -/
theorem setPath_returned {newPath : Bytes} (hs : s.path = [])
    (h : (assemble s).setPath lib newPath = .returned v) :
    v = assemble { s with path := if newPath = [] then [] else pathText lib newPath } ∧
      (newPath ≠ [] → hasDoubleSlash newPath = false) := by
  rw [setPath_assemble, outcome_eq_returned] at h
  obtain ⟨s', h, rfl⟩ := h
  refine setter_cases (P := fun t => assemble t = _ ∧ _) h (fun hnil => ?_) fun hne hset => ?_
  · simp [hnil, Segments.clearPath, hs]
  · split at hset
    · simp at hset
    · rename_i hdouble
      cases hset
      simpa [hne] using hdouble

/-- What `assemble` gets from `set_query`. -/
theorem setQuery_returned (lib : UriLibs) {newQuery : Bytes}
    (h : (assemble s).setQuery newQuery = .returned v) :
    v = assemble { s with query := if newQuery = [] then [] else question :: newQuery } := by
  rw [setQuery_assemble lib, outcome_eq_returned] at h
  obtain ⟨s', h, rfl⟩ := h
  refine congrArg assemble (setter_cases (P := fun t => t = _) h (fun hnil => ?_)
    fun hne hset => ?_)
  · simp [hnil]
  · cases hset
    simp [hne]

/-- What `assemble` gets from `set_fragment`. -/
theorem setFragment_returned {newFragment : Bytes}
    (h : (assemble s).setFragment lib newFragment = .returned v) :
    v = assemble { s with
      fragment := if newFragment = [] then [] else hash :: encode lib newFragment } := by
  rw [setFragment_assemble, outcome_eq_returned] at h
  obtain ⟨s', h, rfl⟩ := h
  refine congrArg assemble (setter_cases (P := fun t => t = _) h (fun hnil => ?_)
    fun hne hset => ?_)
  · simp [hnil]
  · cases hset
    simp [hne]

end Setters

/-- **The constructor.** If it does not throw it joins these segments, and then there is a
host if there is a user or a port, a user if there is a password, and no `//` in the path. -/
theorem ofParts_eq {lib : UriLibs} {scheme user password host path query fragment : Bytes}
    {port : UInt16} {u : Uri}
    (h : ofParts lib scheme user password host port path query fragment = .ok u) :
    ∃ t, schemeText lib scheme true = some t ∧
      u = assemble (joined lib t user password host port path query fragment) ∧
      (host = [] → user = [] ∧ port = 0) ∧ (user = [] → password = []) ∧
      (path ≠ [] → hasDoubleSlash path = false) := by
  rw [ofParts] at h
  split at h
  swap
  · simp at h
  rename_i u' hchain
  obtain rfl := Except.ok.inj h
  obtain ⟨u₇, hchain, h₈⟩ := andThen_eq_returned.mp hchain
  obtain ⟨u₆, hchain, h₇⟩ := andThen_eq_returned.mp hchain
  obtain ⟨u₅, hchain, h₆⟩ := andThen_eq_returned.mp hchain
  obtain ⟨u₄, hchain, h₅⟩ := andThen_eq_returned.mp hchain
  obtain ⟨u₃, hchain, h₄⟩ := andThen_eq_returned.mp hchain
  obtain ⟨u₂, hchain, h₃⟩ := andThen_eq_returned.mp hchain
  obtain ⟨u₁, h₁, h₂⟩ := andThen_eq_returned.mp hchain
  change (assemble {}).setScheme lib scheme = _ at h₁
  rw [setScheme_assemble, outcome_eq_returned, Op.apply] at h₁
  obtain ⟨s₁, h₁, rfl⟩ := h₁
  split at h₁
  · simp at h₁
  rename_i t ht
  cases h₁
  have hwf : Segments.Wf { scheme := t, host := encode lib host } := by
    obtain ⟨name, -, rfl | rfl⟩ := schemeText_eq ht
    · exact { Segments.wf_empty with scheme := .inr (.inl ⟨name, rfl⟩) }
    · exact { Segments.wf_empty with scheme := .inr (.inr ⟨name, rfl⟩) }
  obtain rfl := setHost_returned h₂
  obtain ⟨rfl, huser⟩ := setUser_returned hwf rfl h₃
  obtain ⟨rfl, hpassword⟩ := setPassword_returned (by dsimp only; split <;> simp) h₄
  obtain ⟨rfl, hport⟩ := setPort_returned lib h₅
  obtain ⟨rfl, hpath⟩ := setPath_returned rfl h₆
  obtain rfl := setQuery_returned lib h₇
  obtain rfl := setFragment_returned h₈
  refine ⟨t, ht, rfl, fun hhost => ⟨?_, ?_⟩, fun hu => ?_, hpath⟩
  · by_contra hu
    exact huser hu (by simp [hhost])
  · by_contra hp
    exact hport hp (by simp [hhost])
  · by_contra hp
    exact hpassword hp (by simp [hu])

/-! ### The characters of encoded text -/

/-- The characters that encoding leaves alone or produces. -/
def isEncoded (c : UInt8) : Bool :=
  isAlnum c || c == 95 || c == 45 || c == dot || c == 126 || c == percent

/-- Hexadecimal digits are characters of an encoded text. -/
theorem isEncoded_of_isHexDigit {c : UInt8} (h : isHexDigit c = true) : isEncoded c = true := by
  simp only [isHexDigit, isDigit, Bool.or_eq_true, Bool.and_eq_true, decide_eq_true_eq,
    UInt8.le_iff_toNat_le] at h
  have halnum : isAlnum c = true := by
    simp only [isAlnum, Bool.or_eq_true, Bool.and_eq_true, decide_eq_true_eq,
      UInt8.le_iff_toNat_le]
    simp only [UInt8.reduceToNat] at h ⊢
    omega
  simp [isEncoded, halnum]

/-- Encoding leaves encoded characters, and those that are exempt. -/
theorem mem_encode {lib : UriLibs} {s exempt : Bytes} {c : UInt8} (h : c ∈ encode lib s exempt) :
    isEncoded c = true ∨ c ∈ exempt := by
  rw [encode, encodeLoop_eq_flatMap] at h
  obtain ⟨d, -, hd⟩ := List.mem_flatMap.mp h
  split at hd
  · rename_i hsafe
    rw [List.mem_singleton.mp hd]
    simp only [isSafe, lib.asciiIsalnumW_eq, Bool.or_eq_true, List.contains_eq_mem,
      decide_eq_true_eq] at hsafe
    simp only [isEncoded, Bool.or_eq_true]
    tauto
  · rcases List.mem_cons.mp hd with rfl | hd
    · exact .inl rfl
    · exact .inl (isEncoded_of_isHexDigit (lib.isHexDigit_hex d c hd))

/-- No delimiter is a character of an encoded text. -/
theorem ne_of_isEncoded {c d : UInt8} (h : isEncoded c = true) (hd : isEncoded d = false) :
    c ≠ d := by
  rintro rfl
  rw [h] at hd
  simp at hd

/-- An encoded text can stand in a host. -/
theorem isHostChar_of_isEncoded {c : UInt8} (h : isEncoded c = true) : isHostChar c = true := by
  have hslash := ne_of_isEncoded (d := slash) h (by decide)
  have hcolon := ne_of_isEncoded (d := colon) h (by decide)
  have hat := ne_of_isEncoded (d := atSign) h (by decide)
  simp [isHostChar, hslash, hcolon, hat]

/-- An encoded text can stand in a path. -/
theorem isPathChar_of_isEncoded {c : UInt8} (h : isEncoded c = true) : isPathChar c = true := by
  have hhash := ne_of_isEncoded (d := hash) h (by decide)
  have hquestion := ne_of_isEncoded (d := question) h (by decide)
  simp [isPathChar, hhash, hquestion]

/-- An encoded text has no control characters. -/
theorem not_isCntrl_of_isEncoded {c : UInt8} (h : isEncoded c = true) : isCntrl c = false := by
  simp only [isEncoded, isAlnum, isCntrl, Bool.or_eq_true, Bool.and_eq_true, decide_eq_true_eq,
    beq_iff_eq, UInt8.le_iff_toNat_le, Bool.or_eq_false_iff, decide_eq_false_iff_not,
    UInt8.lt_iff_toNat_lt, beq_eq_false_iff_ne, ← UInt8.toNat_inj, dot, percent, ne_eq] at h ⊢
  simp only [UInt8.reduceToNat] at h ⊢
  omega

/-- A scheme has no control characters. -/
theorem not_isCntrl_of_isSchemeChar {c : UInt8} (h : isSchemeChar c = true) :
    isCntrl c = false := by
  simp only [isSchemeChar, isLower, isDigit, isCntrl, Bool.or_eq_true, Bool.and_eq_true,
    decide_eq_true_eq, beq_iff_eq, UInt8.le_iff_toNat_le, Bool.or_eq_false_iff,
    decide_eq_false_iff_not, UInt8.lt_iff_toNat_lt, beq_eq_false_iff_ne, ← UInt8.toNat_inj, dot,
    ne_eq] at h ⊢
  simp only [UInt8.reduceToNat] at h ⊢
  omega

/-! ### The joined segments -/

/-- `:/`, the characters that a path keeps. -/
theorem mem_pathText {lib : UriLibs} {newPath : Bytes} {c : UInt8} (h : c ∈ pathText lib newPath) :
    isEncoded c = true ∨ c = colon ∨ c = slash := by
  have henc {c : UInt8} (h : c ∈ encode lib newPath [colon, slash]) :
      isEncoded c = true ∨ c = colon ∨ c = slash :=
    (mem_encode h).imp_right fun h => by simpa using h
  rw [pathText] at h
  split at h
  · rcases List.mem_cons.mp h with rfl | h
    · exact .inr (.inr rfl)
    · exact henc h
  · exact henc h

/-- A path that was set has only characters of a path. -/
theorem isPathChar_of_mem_pathText {lib : UriLibs} {newPath : Bytes} {c : UInt8}
    (h : c ∈ pathText lib newPath) : isPathChar c = true := by
  rcases mem_pathText h with h | rfl | rfl
  · exact isPathChar_of_isEncoded h
  · decide
  · decide

/-- The path does not start with two slashes. -/
theorem pathText_slash {lib : UriLibs} {newPath t : Bytes} (h : hasDoubleSlash newPath = false)
    (ht : pathText lib newPath = slash :: t) : t.head? ≠ some slash := by
  have hsafe : isSafe lib [colon, slash] slash = true := by simp [isSafe]
  intro hhead
  obtain ⟨v, rfl⟩ := List.head?_eq_some_iff.mp hhead
  have hfirst {s w : Bytes} (hs : encode lib s [colon, slash] = slash :: w) :
      ∃ r, s = slash :: r ∧ encode lib r [colon, slash] = w := by
    cases s with
    | nil => simp at hs
    | cons c r =>
        rw [encode, encodeLoop_eq_flatMap, List.flatMap_cons] at hs
        split at hs
        · rw [List.singleton_append, List.cons.injEq] at hs
          refine ⟨r, by rw [hs.1], ?_⟩
          rw [encode, encodeLoop_eq_flatMap]
          exact hs.2
        · rw [List.cons_append, List.cons.injEq] at hs
          exact absurd hs.1 (by decide)
  rw [pathText] at ht
  split at ht
  · rename_i hne
    rw [List.cons.injEq] at ht
    simp [ht.2] at hne
  · obtain ⟨r, rfl, hr⟩ := hfirst ht
    obtain ⟨r', rfl, -⟩ := hfirst hr
    have hfind := StdString.find_append_self [slash, slash] ([] : Bytes) r'
    simp only [List.nil_append, List.length_nil, List.cons_append] at hfind
    simp [hasDoubleSlash, hfind] at h

section Joined

variable {lib : UriLibs} {scheme user password host path query fragment : Bytes} {port : UInt16}

/-- Only nothing is encoded as nothing. -/
theorem encode_eq_nil_iff (lib : UriLibs) (s : Bytes) : encode lib s = [] ↔ s = [] := by
  constructor
  · intro h
    by_contra hne
    exact encode_ne_nil lib hne [] h
  · rintro rfl
    exact encode_nil lib []

/-- All characters of an encoded text are encoded ones. -/
theorem isEncoded_of_mem_encode {s : Bytes} {c : UInt8} (h : c ∈ encode lib s) :
    isEncoded c = true :=
  (mem_encode h).resolve_right (by simp)

/-- The joined segments have the shape that the parser looks for, up to a hash in the query. -/
theorem joined_assembled {t : Bytes} (ht : schemeText lib scheme true = some t)
    (hhost : host = [] → user = [] ∧ port = 0) (hpassword : user = [] → password = [])
    (hquery : ∀ c ∈ query, c ≠ hash) :
    Assembled (joined lib t user password host port path query fragment) := by
  have hpw : (joined lib t user password host port path query fragment).password = [] ∨
      ∃ p, (joined lib t user password host port path query fragment).password = p ++ [atSign] ∧
        (∀ c ∈ p, isPasswordChar c = true) ∧ (p = [] ∨ p.head? = some colon) := by
    rw [joined]
    dsimp only
    split
    · split
      · exact .inl rfl
      · exact .inr ⟨[], rfl, by simp, .inl rfl⟩
    · refine .inr ⟨colon :: encode lib password, rfl, fun c hc => ?_, .inr rfl⟩
      rcases List.mem_cons.mp hc with rfl | hc
      · decide
      · exact isPasswordChar_of_isHostChar (isHostChar_of_isEncoded (isEncoded_of_mem_encode hc))
  have huser : (joined lib t user password host port path query fragment).user = [] ↔
      (joined lib t user password host port path query fragment).password = [] := by
    by_cases hu : user = []
    · simp [joined, hu, hpassword hu]
    · by_cases hp : password = []
      · simp [joined, encode_eq_nil_iff, hu, hp]
      · simp [joined, encode_eq_nil_iff, hu, hp]
  exact
    { scheme := by
        obtain ⟨name, -, h⟩ := schemeText_eq ht
        exact ⟨name, h⟩
      user :=
        ⟨fun c hc => isHostChar_of_isEncoded (isEncoded_of_mem_encode hc),
          hpw.imp_right fun ⟨p, hp, hchars, _⟩ => ⟨p, hp, hchars⟩, huser⟩
      host := fun c hc => isHostChar_of_isEncoded (isEncoded_of_mem_encode hc)
      port := by
        rw [joined]
        dsimp only
        split
        · exact .inl rfl
        · exact .inr ⟨_, rfl, toDecimal_ne_nil _, fun c hc => isDigit_of_mem_toDecimal hc⟩
      no_host := fun h => by
        obtain ⟨hu, hp⟩ := hhost ((encode_eq_nil_iff lib host).mp h)
        simp [joined, hu, hp]
      path := by
        rw [joined]
        dsimp only
        split
        · exact .inl rfl
        · rename_i hne
          obtain ⟨v, hv⟩ := pathText_isPrefix lib hne
          refine .inr ⟨v, hv.symm, fun c hc =>
            isPathChar_of_mem_pathText (hv ▸ List.mem_append_right [slash] hc)⟩
      query := by
        rw [joined]
        dsimp only
        split
        · exact .inl rfl
        · exact .inr ⟨query, rfl, fun c hc => by simpa [isQueryChar] using hquery c hc⟩
      fragment := by
        rw [joined]
        dsimp only
        split
        · exact .inl rfl
        · exact .inr ⟨_, rfl, fun c hc =>
            isAny_of_not_isCntrl (not_isCntrl_of_isEncoded (isEncoded_of_mem_encode hc))⟩
      password := hpw }

/-- The joined text has control characters only if the query has. -/
theorem joined_text_iff {t : Bytes} (ht : schemeText lib scheme true = some t) :
    (∀ c ∈ (joined lib t user password host port path query fragment).text, isCntrl c = false) ↔
      ∀ c ∈ query, isCntrl c = false := by
  have henc {s : Bytes} {c : UInt8} (h : c ∈ encode lib s) : isCntrl c = false :=
    not_isCntrl_of_isEncoded (isEncoded_of_mem_encode h)
  have hscheme : ∀ c ∈ t, isCntrl c = false := by
    obtain ⟨name, ⟨c, cs, rfl, hc, hcs⟩, htext⟩ := schemeText_eq ht
    have hname : ∀ d ∈ c :: cs, isCntrl d = false := fun d hd => by
      rcases List.mem_cons.mp hd with rfl | hd
      · exact not_isCntrl_of_isSchemeChar (by simp [isSchemeChar, hc])
      · exact not_isCntrl_of_isSchemeChar (hcs d hd)
    have hpunct : ∀ d ∈ [colon, slash, slash], isCntrl d = false := by decide +kernel
    rcases htext with rfl | rfl <;> intro d hd <;> rcases List.mem_append.mp hd with hd | hd
    · exact hname d hd
    · exact hpunct d (by simp_all)
    · exact hname d hd
    · exact hpunct d hd
  rw [Segments.text, Segments.toList]
  simp only [joined, List.flatten_cons, List.flatten_nil, List.append_nil, List.mem_append]
  constructor
  · intro h c hc
    refine h c (.inr (.inr (.inr (.inr (.inr (.inr (.inl ?_)))))))
    rw [if_neg (List.ne_nil_of_mem hc)]
    exact List.mem_cons_of_mem _ hc
  · rintro hquery c (hc | hc | hc | hc | hc | hc | hc | hc)
    · exact hscheme c hc
    · exact henc hc
    · split at hc
      · split at hc
        · simp at hc
        · rw [List.mem_singleton.mp hc]
          decide
      · rcases List.mem_append.mp hc with hc | hc
        · rcases List.mem_cons.mp hc with rfl | hc
          · decide
          · exact henc hc
        · rw [List.mem_singleton.mp hc]
          decide
    · exact henc hc
    · split at hc
      · simp at hc
      · rcases List.mem_cons.mp hc with rfl | hc
        · decide
        · have hdigit := isDigit_of_mem_toDecimal hc
          exact not_isCntrl_of_isEncoded (isEncoded_of_isHexDigit (by simp [isHexDigit, hdigit]))
    · split at hc
      · simp at hc
      · rcases mem_pathText hc with hc | rfl | rfl
        · exact not_isCntrl_of_isEncoded hc
        · decide
        · decide
    · split at hc
      · simp at hc
      · rcases List.mem_cons.mp hc with rfl | hc
        · decide
        · exact hquery c hc
    · split at hc
      · simp at hc
      · rcases List.mem_cons.mp hc with rfl | hc
        · decide
        · exact henc hc

/-- The text behind the path. -/
def behindPath (lib : UriLibs) (query fragment : Bytes) : Bytes :=
  (if query = [] then [] else question :: query) ++
    (if fragment = [] then [] else hash :: encode lib fragment)

/-- Nothing, a question mark or a hash sign stands behind the path. -/
theorem head?_behindPath (lib : UriLibs) (query fragment : Bytes) :
    (behindPath lib query fragment).head? = none ∨
      (behindPath lib query fragment).head? = some question ∨
      (behindPath lib query fragment).head? = some hash := by
  rw [behindPath]
  by_cases hq : query = []
  · by_cases hf : fragment = [] <;> simp [hq, hf]
  · simp [hq]

/-- An encoded text has no slash, so one behind it comes from what follows. -/
theorem head?_encode_ne_slash (s : Bytes) {t : Bytes} (h : (encode lib s ++ t).head? = some slash) :
    s = [] ∧ t.head? = some slash := by
  by_cases hs : s = []
  · refine ⟨hs, ?_⟩
    rwa [hs, encode_nil, List.nil_append] at h
  · have hne := mt (encode_eq_nil_iff lib s).mp hs
    rw [List.head?_append_of_ne_nil _ hne] at h
    have henc := isEncoded_of_mem_encode (List.mem_of_mem_head? h)
    exact absurd henc (by decide)

/-- The scheme of the parts can be read back. -/
theorem joined_scheme {t : Bytes} (ht : schemeText lib scheme true = some t)
    (hhost : host = [] → user = [] ∧ port = 0) (hpassword : user = [] → password = [])
    (hpath : path ≠ [] → hasDoubleSlash path = false) :
    SchemeShape (joined lib t user password host port path query fragment).scheme
      (joined lib t user password host port path query fragment).behindScheme := by
  obtain ⟨name, hname, htext⟩ := schemeText_eq ht
  refine ⟨name, hname, htext.imp_left fun htext => ⟨htext, ?_⟩⟩
  rintro ⟨v, hv⟩
  have hhead : (joined lib t user password host port path query fragment).behindScheme.head? =
      some slash := by rw [← hv]; rfl
  obtain ⟨rfl, hhead⟩ := head?_encode_ne_slash user hhead
  obtain rfl := hpassword rfl
  obtain ⟨rfl, hhead⟩ := head?_encode_ne_slash host hhead
  obtain ⟨-, rfl⟩ := hhost rfl
  have hbehind : (joined lib t [] [] [] 0 path query fragment).behindScheme =
      (if path = [] then [] else pathText lib path) ++ behindPath lib query fragment := by
    simp [Segments.behindScheme, Segments.behindHost, joined, behindPath]
  rw [hbehind] at hv
  by_cases hp : path = []
  · rw [if_pos hp, List.nil_append] at hv
    rcases head?_behindPath lib query fragment with h | h | h <;> rw [← hv] at h <;>
      exact absurd h (by simp [slash, question, hash])
  · obtain ⟨w, hw⟩ := pathText_isPrefix lib hp
    have hnot := pathText_slash (hpath hp) hw.symm
    rw [if_neg hp, ← hw] at hv
    simp only [List.cons_append, List.nil_append, List.cons.injEq, true_and] at hv
    cases w with
    | nil =>
        rw [List.nil_append] at hv
        rcases head?_behindPath lib query fragment with h | h | h <;> rw [← hv] at h <;>
          exact absurd h (by simp [slash, question, hash])
    | cons c w =>
        rw [List.cons_append, List.cons.injEq] at hv
        exact hnot (by rw [← hv.1]; rfl)

/-- What starts with no character of a host is not like one. -/
theorem not_hostLike {t : Bytes} (h : ∀ c, t.head? = some c → isHostChar c = false) :
    ¬ HostLike t := by
  rintro ⟨a, b, hab, hne, hchars, -⟩
  exact not_all_of_head? h hab hne hchars

/-- The user and the password have only characters that a password may have. -/
theorem isPasswordChar_of_mem {user password : Bytes} (huser : ∀ c ∈ user, isHostChar c = true)
    (hpassword : ∀ c ∈ password, isPasswordChar c = true) :
    ∀ c ∈ user ++ password, isPasswordChar c = true := fun c hc =>
  (List.mem_append.mp hc).elim (fun h => isPasswordChar_of_isHostChar (huser c h)) (hpassword c)

/-- Nothing with a slash before the first `@` can be read as a user. -/
theorem not_userLike_slash {y t : Bytes} (hy : ∀ c ∈ y, isPasswordChar c = true) :
    ¬ UserLike (y ++ slash :: t) := by
  rintro ⟨user, password, rest, hsplit, -, huser, hpassword, -⟩
  have hx := isPasswordChar_of_mem huser hpassword
  rw [← List.append_assoc] at hsplit
  rcases List.append_eq_append_iff.mp hsplit with ⟨a, hxa, ha⟩ | ⟨a, hya, ha⟩
  · cases a with
    | nil => exact absurd (List.cons.inj ha).1 (by decide)
    | cons c a =>
        have hc : c = slash := (List.cons.inj ha).1.symm
        have hbad := hx slash (by simp [hxa, hc])
        exact absurd hbad (by decide)
  · cases a with
    | nil => exact absurd (List.cons.inj ha).1 (by decide)
    | cons c a =>
        have hc : c = atSign := (List.cons.inj ha).1.symm
        have hbad := hy atSign (by simp [hya, hc])
        exact absurd hbad (by decide)

/-- A host and a port in front make no difference to the sign that ends a user. -/
theorem userLike_append_iff {y t : Bytes} (hy : ∀ c ∈ y, isPasswordChar c = true)
    (hfirst : y = [] ∨ ∃ c, y.head? = some c ∧ isHostChar c = true)
    (ht : t.head? = none ∨ t.head? = some question ∨ t.head? = some hash) :
    UserLike (y ++ t) ↔ UserLike t := by
  constructor
  · rintro ⟨user, password, rest, hsplit, hne, huser, hpassword, hrest⟩
    have hx := isPasswordChar_of_mem huser hpassword
    rw [← List.append_assoc] at hsplit
    rcases List.append_eq_append_iff.mp hsplit with ⟨a, hxa, ha⟩ | ⟨a, hya, ha⟩
    · have ha' : ∀ c ∈ a, isPasswordChar c = true := fun c hc => hx c (by simp [hxa, hc])
      cases a with
      | nil =>
          rw [ha, List.nil_append] at ht
          exact absurd ht (by simp [atSign, question, hash])
      | cons c a =>
          have hc : isHostChar c = true := by
            rw [ha] at ht
            simp only [List.cons_append, List.head?_cons, reduceCtorEq, Option.some.injEq,
              false_or] at ht
            rcases ht with rfl | rfl <;> decide
          exact ⟨[c], a, rest, ha, by simp, by simpa using hc,
            fun d hd => ha' d (List.mem_cons_of_mem c hd), hrest⟩
    · cases a with
      | nil =>
          rw [List.nil_append] at ha
          rw [← ha] at ht
          exact absurd ht (by simp [atSign, question, hash])
      | cons c a =>
          have hc : c = atSign := (List.cons.inj ha).1.symm
          have hbad := hy atSign (by simp [hya, hc])
          exact absurd hbad (by decide)
  · rintro ⟨user, password, rest, rfl, hne, huser, hpassword, hrest⟩
    rcases hfirst with rfl | ⟨c, hc, hhost⟩
    · exact ⟨user, password, rest, rfl, hne, huser, hpassword, hrest⟩
    · obtain ⟨v, rfl⟩ := List.head?_eq_some_iff.mp hc
      refine ⟨[c], v ++ (user ++ password), rest, by simp, by simp, by simpa using hhost, ?_, hrest⟩
      intro d hd
      rcases List.mem_append.mp hd with hd | hd
      · exact hy d (List.mem_cons_of_mem c hd)
      · exact isPasswordChar_of_mem huser hpassword d hd

/-- When the parts can be read back, in terms of what was passed. -/
theorem joined_readable_iff {t : Bytes} (hhost : host = [] → user = [] ∧ port = 0) :
    (joined lib t user password host port path query fragment).Readable ↔
      (path = [] → (port = 0 → ¬ HostLike (behindPath lib query fragment)) ∧
        (user = [] → ¬ UserLike (behindPath lib query fragment))) := by
  have hbehind : (joined lib t user password host port path query fragment).behindHost =
      (if port = 0 then [] else colon :: toDecimal port.toNat) ++
        ((if path = [] then [] else pathText lib path) ++ behindPath lib query fragment) := rfl
  have huser : (joined lib t user password host port path query fragment).user = [] ↔ user = [] :=
    encode_eq_nil_iff lib user
  -- the host and the port
  have hy : ∀ c ∈ encode lib host ++ (if port = 0 then [] else colon :: toDecimal port.toNat),
      isPasswordChar c = true := by
    intro c hc
    rcases List.mem_append.mp hc with hc | hc
    · exact isPasswordChar_of_isHostChar (isHostChar_of_isEncoded (isEncoded_of_mem_encode hc))
    · split at hc
      · simp at hc
      · rcases List.mem_cons.mp hc with rfl | hc
        · decide
        · have hdigit := isDigit_of_mem_toDecimal hc
          exact isPasswordChar_of_isHostChar (isHostChar_of_isEncoded
            (isEncoded_of_isHexDigit (by simp [isHexDigit, hdigit])))
  have hfirst : encode lib host ++ (if port = 0 then [] else colon :: toDecimal port.toNat) = [] ∨
      ∃ c, (encode lib host ++ (if port = 0 then [] else colon :: toDecimal port.toNat)).head? =
        some c ∧ isHostChar c = true := by
    by_cases hh : host = []
    · simp [hh, (hhost hh).2]
    · right
      cases henc : encode lib host with
      | nil => exact absurd ((encode_eq_nil_iff lib host).mp henc) hh
      | cons c v =>
          have hc : c ∈ encode lib host := by simp [henc]
          exact ⟨c, rfl, isHostChar_of_isEncoded (isEncoded_of_mem_encode hc)⟩
  have hassoc (x : Bytes) : (joined lib t user password host port path query fragment).host ++
      ((if port = 0 then [] else colon :: toDecimal port.toNat) ++ x) =
        (encode lib host ++ (if port = 0 then [] else colon :: toDecimal port.toNat)) ++ x :=
    (List.append_assoc _ _ _).symm
  rw [Segments.Readable, huser, hbehind, hassoc]
  by_cases hp : path = []
  · have huser := userLike_append_iff hy hfirst (head?_behindPath lib query fragment)
    rw [if_pos hp, List.nil_append, huser]
    by_cases hport : port = 0
    · simp [hp, hport]
    · have hnot : ¬ HostLike (colon :: toDecimal port.toNat ++ behindPath lib query fragment) :=
        not_hostLike (by simp [isHostChar])
      simp only [hp, hport, if_false, hnot, not_false_eq_true, true_and, false_implies,
        forall_const]
  · obtain ⟨v, hv⟩ := pathText_isPrefix lib hp
    rw [if_neg hp, ← hv]
    refine iff_of_true ⟨not_hostLike ?_, fun _ => ?_⟩ fun h => absurd h hp
    · by_cases hport : port = 0 <;> simp [hport, isHostChar]
    · exact not_userLike_slash hy

/-- **Round trip.** What the constructor builds from its parts is what parsing its text gives
back, exactly if the query has neither control characters nor a hash and, without a path, what
is behind it cannot be read as more of the host (where there is no port) or as a user and a
host (where there is no user). -/
theorem ofString_ofParts_iff {u : Uri}
    (h : ofParts lib scheme user password host port path query fragment = .ok u) :
    ofString lib u.text = .ok u ↔
      (∀ c ∈ query, c ≠ hash ∧ isCntrl c = false) ∧
        (path = [] → (port = 0 → ¬ HostLike (behindPath lib query fragment)) ∧
          (user = [] → ¬ UserLike (behindPath lib query fragment))) := by
  obtain ⟨t, ht, rfl, hhost, hpassword, hpath⟩ := ofParts_eq h
  by_cases hquery : ∀ c ∈ query, c ≠ hash
  · have hasm : Assembled (joined lib t user password host port path query fragment) :=
      joined_assembled ht hhost hpassword hquery
    have hparse := ofString_text_iff lib hasm (joined_scheme ht hhost hpassword hpath)
    change ofString lib (joined lib t user password host port path query fragment).text = _ ↔ _
    rw [hparse, joined_text_iff ht, joined_readable_iff hhost]
    exact and_congr_left' ⟨fun hc c hm => ⟨hquery c hm, hc c hm⟩, fun hc c hm => (hc c hm).2⟩
  · refine iff_of_false (fun hok => ?_) fun hc => hquery fun c hm => (hc.1 c hm).1
    rw [ofString] at hok
    cases hparse : tryParse lib {} (assemble
        (joined lib t user password host port path query fragment)).text with
    | mk ok v =>
        rw [hparse] at hok
        cases ok with
        | false => simp at hok
        | true =>
            obtain ⟨s, hs, -, rfl⟩ := tryParse_true hparse
            have hsame : s = joined lib t user password host port path query fragment := by
              rw [← segments_assemble s, Except.ok.inj hok, segments_assemble]
            refine hquery fun c hc => ?_
            have hne : query ≠ [] := List.ne_nil_of_mem hc
            rcases hs.query with hnil | ⟨w, hw, hchars⟩
            · simp [hsame, joined, hne] at hnil
            · simp only [hsame, joined, hne, if_false, List.cons.injEq, true_and] at hw
              simpa [isQueryChar] using hchars c (hw ▸ hc)

end Joined

/-- With a path in between, the host and the query are told apart. -/
theorem ofString_ofParts_path :
    (ofParts .ascii (bytes "http") [] [] (bytes "h") 0 (bytes "p") (bytes "a") [] = .ok
        ⟨bytes "http://h/p?a", 7, 7, 7, 8, 8, 10, 12⟩) ∧
      ofString .ascii (bytes "http://h/p?a") =
        .ok ⟨bytes "http://h/p?a", 7, 7, 7, 8, 8, 10, 12⟩ := by
  have hparts : ofParts .ascii (bytes "http") [] [] (bytes "h") 0 (bytes "p") (bytes "a") [] = .ok
      ⟨bytes "http://h/p?a", 7, 7, 7, 8, 8, 10, 12⟩ := by decide +kernel
  exact ⟨hparts, (ofString_ofParts_iff hparts).mpr
    ⟨by decide +kernel, fun h => absurd h (by decide +kernel)⟩⟩

/-- Without a path the query becomes part of the host: `http://h?a`. -/
theorem ofString_ofParts_fails :
    ¬ ∀ (lib : UriLibs) (scheme user password host : Bytes) (port : UInt16)
      (path query fragment : Bytes) (u : Uri),
      ofParts lib scheme user password host port path query fragment = .ok u →
        ofString lib u.text = .ok u := by
  intro h
  have hparts : ofParts .ascii (bytes "http") [] [] (bytes "h") 0 [] (bytes "a") [] = .ok
      ⟨bytes "http://h?a", 7, 7, 7, 8, 8, 8, 10⟩ := by decide +kernel
  have hparse : ofString .ascii (bytes "http://h?a") = .ok
      ⟨bytes "http://h?a", 7, 7, 7, 10, 10, 10, 10⟩ := by decide +kernel
  have hsame := h _ _ _ _ _ _ _ _ _ _ hparts
  rw [hparse] at hsame
  exact absurd hsame (by decide +kernel)

end Uri

end RsIo
