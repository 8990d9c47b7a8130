import RsIo.UriReadable

/-!
# Where the Query and the Fragment Start

The first `#` of a URI starts its fragment and the first `?` before that its query. The
classes of the regular expression keep both characters out of the path, but not out of the
user, the password and the host. Without a path behind the host there may be nothing else
that stops these.

## Main results

* `tryParse_splitsAtMarks_iff`: the parser splits an accepted string at its first `#` and `?`
  exactly if no part before the path can take one of them.
-/

namespace RsIo

namespace Uri

open StdString Regex

/-- The fragment starts at the first `#` of the string, or at its end, and the query at the
first `?` before that, or where the fragment starts. -/
def SplitsAtMarks (u : Uri) (s : Bytes) : Prop :=
  u.ofsFragment = (((findIf (· == hash) s 0).getD s.length : ℕ) : ℤ) ∧
    u.ofsQuery = (((findIf (· == question) (s.take u.ofsFragment.toNat) 0).getD
      u.ofsFragment.toNat : ℕ) : ℤ)

/-- Whether a text is split at its marks can be computed. -/
instance (u : Uri) (s : Bytes) : Decidable (SplitsAtMarks u s) := by
  unfold SplitsAtMarks
  infer_instance

/-- `[a-z][a-z0-9+.-]*:`, and maybe two slashes, in upper or lower case. -/
def SchemeLike (scheme : Bytes) : Prop :=
  ∃ c cs, icase isLower c = true ∧ (∀ d ∈ cs, icase isSchemeChar d = true) ∧
    (scheme = c :: cs ++ [colon] ∨ scheme = c :: cs ++ [colon, slash, slash])

/-- A host with a `?` or `#` in it, and what may follow a host. -/
def MarkedHost (t : Bytes) : Prop :=
  ∃ host rest, t = host ++ rest ∧ (∀ c ∈ host, isHostChar c = true) ∧
    (∃ c ∈ host, isPathChar c = false) ∧ BehindHost rest

/-- A user with its password and a host behind them, and a `?` or `#` in one of them. -/
def MarkedUser (t : Bytes) : Prop :=
  ∃ user password rest, t = user ++ (password ++ (atSign :: rest)) ∧ user ≠ [] ∧
    (∀ c ∈ user, isHostChar c = true) ∧ (∀ c ∈ password, isPasswordChar c = true) ∧
      HostLike rest ∧ ((∃ c ∈ user ++ password, isPathChar c = false) ∨ MarkedHost rest)

/-- A string in which a `?` or `#` may belong to the user, the password or the host. -/
def Marked (s : Bytes) : Prop :=
  ∃ scheme t, s = scheme ++ t ∧ SchemeLike scheme ∧ (MarkedHost t ∨ MarkedUser t)

/-! ### The parts before the path -/

/-- A host with a mark behind it is like a host. -/
theorem MarkedHost.hostLike {t : Bytes} (h : MarkedHost t) : HostLike t := by
  obtain ⟨host, rest, rfl, hhost, ⟨c, hc, -⟩, hrest⟩ := h
  exact ⟨host, rest, rfl, List.ne_nil_of_mem hc, hhost, hrest⟩

/-- A user with a mark behind it is like a user. -/
theorem MarkedUser.userLike {t : Bytes} (h : MarkedUser t) : UserLike t := by
  obtain ⟨user, password, rest, rfl, hne, huser, hpassword, hrest, -⟩ := h
  exact ⟨user, password, rest, rfl, hne, huser, hpassword, hrest⟩

/-- The host that is found has a mark if there is a host with one. -/
theorem exists_mark_host {t host rest : Bytes} (h : MarkedHost t) (hsplit : t = host ++ rest)
    (hmax : ∀ a b, rest = a ++ b → a ≠ [] → (∀ c ∈ a, isHostChar c = true) → ¬ BehindHost b) :
    ∃ c ∈ host, isPathChar c = false := by
  obtain ⟨host', rest', rfl, hchars, ⟨c, hc, hmark⟩, hrest'⟩ := h
  rcases List.append_eq_append_iff.mp hsplit with ⟨a, rfl, rfl⟩ | ⟨a, rfl, rfl⟩
  · exact ⟨c, List.mem_append_left a hc, hmark⟩
  · cases a with
    | nil => exact ⟨c, by simpa using hc, hmark⟩
    | cons d a =>
        exact absurd hrest' (hmax (d :: a) rest' rfl (by simp) fun e he =>
          hchars e (List.mem_append_right _ he))

/-- The first `@` is where the user and the password end. -/
theorem userPassword_unique {user password rest user' password' rest' : Bytes}
    (h : user ++ (password ++ (atSign :: rest)) = user' ++ (password' ++ (atSign :: rest')))
    (huser : ∀ c ∈ user, isHostChar c = true) (hpassword : ∀ c ∈ password, isPasswordChar c = true)
    (huser' : ∀ c ∈ user', isHostChar c = true)
    (hpassword' : ∀ c ∈ password', isPasswordChar c = true) :
    user ++ password = user' ++ password' ∧ rest = rest' := by
  have hall {u p : Bytes} (hu : ∀ c ∈ u, isHostChar c = true)
      (hp : ∀ c ∈ p, isPasswordChar c = true) : ∀ c ∈ u ++ p, isPasswordChar c = true :=
    fun c hc => (List.mem_append.mp hc).elim (fun hc => isPasswordChar_of_isHostChar (hu c hc))
      (hp c)
  have hstop (t : Bytes) : ∀ c, (atSign :: t).head? = some c → isPasswordChar c = false := by
    rintro c hc
    cases hc
    rfl
  rw [← List.append_assoc, ← List.append_assoc] at h
  obtain ⟨hfront, hrest⟩ :=
    span_unique h (hall huser hpassword) (hall huser' hpassword') (hstop rest) (hstop rest')
  exact ⟨hfront, (List.cons.inj hrest).2⟩

/-- The user and the password that are found have a mark if there is one in these parts, and
the host has one otherwise. -/
theorem exists_mark_user {t user password rest : Bytes} (h : MarkedHost t ∨ MarkedUser t)
    (hsplit : t = user ++ (password ++ (atSign :: rest)))
    (huser : ∀ c ∈ user, isHostChar c = true)
    (hpassword : ∀ c ∈ password, isPasswordChar c = true) :
    (∃ c ∈ user ++ password, isPathChar c = false) ∨ MarkedHost rest := by
  rcases h with ⟨host, behind, rfl, hhost, ⟨c, hc, hmark⟩, -⟩ |
    ⟨user', password', rest', rfl, -, huser', hpassword', -, hmark⟩
  · -- a host stops before the sign
    refine .inl ⟨c, ?_, hmark⟩
    rw [← List.append_assoc] at hsplit
    rcases List.append_eq_append_iff.mp hsplit with ⟨a, ha, -⟩ | ⟨a, rfl, ha⟩
    · rw [ha]
      exact List.mem_append_left a hc
    · cases a with
      | nil => simpa using hc
      | cons d a =>
          obtain ⟨rfl, -⟩ := List.cons.inj ha
          exact absurd (hhost atSign (List.mem_append_right _ List.mem_cons_self)) (by decide)
  · obtain ⟨hfront, rfl⟩ := userPassword_unique hsplit huser' hpassword' huser hpassword
    rwa [← hfront]

/-- What a match with a user takes from the front of the text. -/
theorem userCont_split {m₀ y : Captures UInt8} {t : Bytes}
    (h : run parseUser t (hostCont m₀) = some y) :
    ∃ user password rest, t = user ++ (password ++ (atSign :: rest)) ∧
      (∀ c ∈ user, isHostChar c = true) ∧ (∀ c ∈ password, isPasswordChar c = true) ∧
      hostCont m₀ (capture 2 user ++ capture 3 (password ++ [atSign])) rest = some y := by
  obtain ⟨_, rest, _, rfl, ⟨user, _, _, _, ⟨_, huser, rfl⟩, ⟨_, ⟨password, _, _, _, ⟨hp, rfl⟩, hat,
    rfl, rfl⟩, rfl⟩, rfl, rfl⟩, hcont⟩ := run_sound h
  obtain ⟨hne, hall, rfl⟩ := matches_many1 huser
  obtain ⟨rfl, rfl⟩ := matches_literal hat
  refine ⟨user, password, rest, by simp, hall, hp, ?_⟩
  rw [capture_of_ne_nil 2 hne, capture_of_ne_nil 3 (by simp)]
  exact hcont

/-- Behind the scheme a mark is taken by the parts before the path if they can take one. -/
theorem authorityCont_marked (scheme : Bytes) {t : Bytes} (hany : ∀ c ∈ t, isAny c = true)
    (h : MarkedHost t ∨ MarkedUser t) :
    ∃ s : Segments, authorityCont (capture 1 scheme) t = some (captures s) ∧
      ∃ c ∈ s.user ++ (s.password ++ s.host), isPathChar c = false := by
  rw [authorityCont]
  by_cases huser : UserLike t
  · obtain ⟨y, hy⟩ := Option.isSome_iff_exists.mp
      ((userCont_isSome (capture 1 scheme) hany).mpr huser)
    obtain ⟨user, password, rest, rfl, hchars, hpassword, hcont⟩ := userCont_split hy
    have hanyRest : ∀ c ∈ rest, isAny c = true := fun c hc => hany c (by simp [hc])
    obtain ⟨host, behind, port, path, query, fragment, hrest, -, rfl, hmax⟩ :=
      hostCont_some hanyRest hcont
    refine ⟨⟨scheme, user, password ++ [atSign], host, port, path, query, fragment⟩, ?_, ?_⟩
    · rw [hy]
      simp [captures]
    · rcases exists_mark_user h rfl hchars hpassword with ⟨c, hc, hmark⟩ | hmarked
      · refine ⟨c, ?_, hmark⟩
        simp only [List.mem_append] at hc ⊢
        rcases hc with hc | hc
        · exact .inl hc
        · exact .inr (.inl (.inl hc))
      · obtain ⟨c, hc, hmark⟩ := exists_mark_host hmarked hrest hmax
        exact ⟨c, List.mem_append_right _ (List.mem_append_right _ hc), hmark⟩
  · have hmarked : MarkedHost t := h.resolve_right fun hm => huser hm.userLike
    have hnone : run parseUser t (hostCont (capture 1 scheme)) = none := by
      rw [← Option.not_isSome_iff_eq_none, userCont_isSome _ hany]
      exact huser
    obtain ⟨y, hy⟩ := Option.isSome_iff_exists.mp
      ((hostCont_isSome (capture 1 scheme) [] hany).mpr hmarked.hostLike)
    obtain ⟨host, behind, port, path, query, fragment, rfl, -, rfl, hmax⟩ :=
      hostCont_some hany hy
    refine ⟨⟨scheme, [], [], host, port, path, query, fragment⟩, ?_,
      exists_mark_host hmarked rfl hmax⟩
    rw [hnone, Option.none_or, hy]
    simp [captures]

/-! ### The offsets -/

/-- What the pattern matches is like a scheme. -/
theorem schemeLike_of_matches {t : Bytes} {m : Captures UInt8} (h : parseScheme.Matches t m) :
    SchemeLike t ∧ m = capture 1 t := by
  refine ⟨?_, (matches_parseScheme h).2⟩
  obtain ⟨_, ⟨_, _, _, _, ⟨c, hc, rfl, rfl⟩, ⟨cs, _, _, _, ⟨hcs, rfl⟩, ⟨_, _, _, _, hcolon,
    hslashes, rfl, rfl⟩, rfl, rfl⟩, rfl, rfl⟩, rfl⟩ := h
  obtain ⟨rfl, rfl⟩ := matches_literal hcolon
  rcases hslashes with hslashes | ⟨rfl, rfl⟩
  · obtain ⟨rfl, rfl⟩ := matches_literal hslashes
    exact ⟨c, cs, hc, hcs, .inr (by simp)⟩
  · exact ⟨c, cs, hc, hcs, .inl (by simp)⟩

/-- A path ends at one of two marks. -/
theorem eq_mark {c : UInt8} (h : ¬ isPathChar c = true) : c = hash ∨ c = question := by
  by_contra hnot
  rw [not_or] at hnot
  exact h (by simp [isPathChar, hnot.1, hnot.2])

/-- A scheme has only characters of a path. -/
theorem SchemeLike.isPathChar {scheme : Bytes} (h : SchemeLike scheme) :
    ∀ c ∈ scheme, isPathChar c = true := by
  obtain ⟨d, cs, hd, hcs, hform⟩ := h
  intro c hc
  by_contra hnot
  have hclass : icase isLower c = true ∨ icase isSchemeChar c = true ∨ c = colon ∨ c = slash := by
    rcases hform with rfl | rfl <;>
      · simp only [List.cons_append, List.mem_cons, List.mem_append, List.not_mem_nil,
          or_false] at hc
        rcases hc with rfl | hc | hc
        · exact .inl hd
        · exact .inr (.inl (hcs c hc))
        · tauto
  rcases eq_mark hnot with rfl | rfl <;> revert hclass <;> decide

/-- A port has only characters of a path. -/
theorem PortShape.isPathChar {port : Bytes} (h : PortShape port) :
    ∀ c ∈ port, isPathChar c = true := by
  rcases h with rfl | ⟨d, rfl, -, hd⟩
  · simp
  · intro c hc
    rcases List.mem_cons.mp hc with rfl | hc
    · rfl
    · by_contra hnot
      have hdigit := hd c hc
      rcases eq_mark hnot with rfl | rfl <;> exact absurd hdigit (by decide)

/-- What stands before the query. -/
def Segments.beforeQuery (s : Segments) : Bytes :=
  s.scheme ++ (s.user ++ (s.password ++ (s.host ++ (s.port ++ s.path))))

/-- The text is split at its marks if the parts in front of them are as long as they should be. -/
theorem splitsAtMarks_assemble_iff (s : Segments) :
    SplitsAtMarks (assemble s) s.text ↔
      (s.beforeQuery ++ s.query).length = (findIf (· == hash) s.text 0).getD s.text.length ∧
        s.beforeQuery.length = (findIf (· == question) (s.beforeQuery ++ s.query) 0).getD
          (s.beforeQuery ++ s.query).length := by
  have hquery : (assemble s).ofsQuery = (s.beforeQuery.length : ℤ) := by
    simp [assemble, Segments.beforeQuery]
    omega
  have hfragment : (assemble s).ofsFragment = ((s.beforeQuery ++ s.query).length : ℤ) := by
    simp [assemble, Segments.beforeQuery]
    omega
  have htake : s.text.take (s.beforeQuery ++ s.query).length = s.beforeQuery ++ s.query := by
    have htext : s.text = (s.beforeQuery ++ s.query) ++ s.fragment := by
      simp [Segments.text, Segments.toList, Segments.beforeQuery]
    rw [htext, List.take_left]
  rw [SplitsAtMarks, hquery, hfragment, Int.toNat_natCast, htake, Int.natCast_inj, Int.natCast_inj]

/-- There is no mark before the query if there is none before the path. -/
theorem isPathChar_of_mem_beforeQuery {s : Segments} (h : Parsed s) (hscheme : SchemeLike s.scheme)
    (hchars : ∀ c ∈ s.user ++ (s.password ++ s.host), isPathChar c = true) :
    ∀ c ∈ s.beforeQuery, isPathChar c = true := by
  intro c hc
  simp only [Segments.beforeQuery, List.mem_append] at hc hchars
  rcases hc with hc | hc | hc | hc | hc | hc
  · exact hscheme.isPathChar c hc
  · exact hchars c (.inl hc)
  · exact hchars c (.inr (.inl hc))
  · exact hchars c (.inr (.inr hc))
  · exact h.port.isPathChar c hc
  · exact h.path.all rfl c hc

/-- Such segments are split at their marks exactly if there is none before the path. -/
theorem splitsAtMarks_assemble {s : Segments} (h : Parsed s) (hscheme : SchemeLike s.scheme) :
    SplitsAtMarks (assemble s) s.text ↔
      ∀ c ∈ s.user ++ (s.password ++ s.host), isPathChar c = true := by
  rw [splitsAtMarks_assemble_iff]
  have htext : s.text = s.beforeQuery ++ (s.query ++ s.fragment) := by
    simp [Segments.text, Segments.toList, Segments.beforeQuery]
  constructor
  · rintro ⟨hfragment, hquery⟩ c hc
    by_contra hnot
    -- the mark stands before the end of the host
    obtain ⟨a, b, hab⟩ := List.append_of_mem hc
    have hsplit : s.beforeQuery = (s.scheme ++ a) ++ c :: (b ++ (s.port ++ s.path)) := by
      have hassoc : s.beforeQuery =
          s.scheme ++ ((s.user ++ (s.password ++ s.host)) ++ (s.port ++ s.path)) := by
        simp [Segments.beforeQuery]
      rw [hassoc, hab]
      simp
    have hlen : (s.scheme ++ a).length < s.beforeQuery.length := by
      rw [hsplit]
      simp
    rcases eq_mark hnot with rfl | rfl
    · have hle := findIf_zero_le (p := (· == hash)) (s.scheme ++ a)
        (b ++ (s.port ++ s.path) ++ (s.query ++ s.fragment)) (beq_self_eq_true hash) s.text.length
      rw [← List.cons_append, ← List.append_assoc, ← hsplit, ← htext, ← hfragment,
        List.length_append] at hle
      omega
    · have hle := findIf_zero_le (p := (· == question)) (s.scheme ++ a)
        (b ++ (s.port ++ s.path) ++ s.query) (beq_self_eq_true question)
        (s.beforeQuery ++ s.query).length
      rw [← List.cons_append, ← List.append_assoc, ← hsplit, ← hquery] at hle
      omega
  · intro hchars
    have hbefore := isPathChar_of_mem_beforeQuery h hscheme hchars
    have hquestion : ∀ c ∈ s.beforeQuery, (c == question) = false := fun c hc => by
      have := hbefore c hc
      simp only [isPathChar, Bool.and_eq_true, bne_iff_ne] at this
      exact beq_false_of_ne this.2
    have hhash : ∀ c ∈ s.beforeQuery ++ s.query, (c == hash) = false := fun c hc => by
      rcases List.mem_append.mp hc with hc | hc
      · have := hbefore c hc
        simp only [isPathChar, Bool.and_eq_true, bne_iff_ne] at this
        exact beq_false_of_ne this.1
      · have := h.query.all (by decide) c hc
        simpa [isQueryChar] using this
    refine ⟨?_, ?_⟩
    · rw [htext, ← List.append_assoc, findIf_getD_eq hhash]
      intro c hc
      rcases h.fragment with hnil | ⟨w, hw, -⟩
      · simp [hnil] at hc
      · simp_all
    · rw [findIf_getD_eq hquestion]
      intro c hc
      rcases h.query with hnil | ⟨w, hw, -⟩
      · simp [hnil] at hc
      · simp_all

/-! ### The parser -/

/-- The segments that a successful parse finds, and the run that finds them. -/
theorem tryParse_run {lib : UriLibs} {u v : Uri} {t : Bytes} (h : tryParse lib u t = (true, v)) :
    ∃ s, Parsed s ∧ SchemeLike s.scheme ∧ t = s.text ∧ v = assemble s ∧
      run parseScheme t authorityCont = some (captures s) ∧ ∀ c ∈ t, isAny c = true := by
  obtain ⟨s, hs, rfl, rfl, hm, hclean⟩ := tryParse_captures h
  refine ⟨s, hs, ?_, rfl, rfl, fullMatch_parsePattern _ ▸ hm,
    fun c hc => isAny_of_not_isCntrl (hclean c hc)⟩
  obtain ⟨scheme, _, _, m', hscheme, -, -, hcaptures⟩ := fullMatch_sound hm
  obtain ⟨hlike, rfl⟩ := schemeLike_of_matches hscheme
  have hne : scheme ≠ [] := by
    obtain ⟨c, cs, -, -, rfl | rfl⟩ := hlike <;> simp
  have hfirst := lookup_captures s .scheme
  simp only [Part.index, Nat.zero_add, Segments.get] at hfirst
  rw [hcaptures, lookup_capture_append, if_pos ⟨rfl, hne⟩] at hfirst
  exact hfirst ▸ hlike

/-- The captures determine the segments. -/
theorem captures_inj {s s' : Segments} (h : captures s = captures s') (part : Part) :
    s.get part = s'.get part := by
  rw [← lookup_captures, ← lookup_captures, h]

/-- Segments with a mark before the path make a text with one. -/
theorem marked_of_parsed {s : Segments} (h : Parsed s) (hscheme : SchemeLike s.scheme)
    (hmark : ∃ c ∈ s.user ++ (s.password ++ s.host), isPathChar c = false) : Marked s.text := by
  obtain ⟨c, hc, hmark⟩ := hmark
  have hbehind : BehindHost s.behindHost :=
    ⟨s.port, _, rfl, h.port, tailStart_append h.path h.query h.fragment⟩
  refine ⟨s.scheme, s.behindScheme, text_eq s, hscheme, ?_⟩
  rcases eq_or_ne s.user [] with huser | huser
  · have hpassword := h.user.user_iff.mp huser
    rw [huser, hpassword, List.nil_append, List.nil_append] at hc
    refine .inl ⟨s.host, s.behindHost, ?_, h.host, ⟨c, hc, hmark⟩, hbehind⟩
    rw [Segments.behindScheme, huser, hpassword, List.nil_append, List.nil_append]
  · have hhost : s.host ≠ [] := fun hnil => huser (h.no_host hnil).1
    obtain ⟨p, hp, hchars⟩ := h.user.password_eq.resolve_left
      fun hnil => huser (h.user.user_iff.mpr hnil)
    refine .inr ⟨s.user, p, s.host ++ s.behindHost, ?_, huser, h.user.user_chars, hchars,
      ⟨s.host, s.behindHost, rfl, hhost, h.host, hbehind⟩, ?_⟩
    · rw [Segments.behindScheme, hp]
      simp
    · rw [hp, List.mem_append, List.mem_append, List.mem_append, List.mem_singleton] at hc
      rcases hc with hc | (hc | rfl) | hc
      · exact .inl ⟨c, List.mem_append_left p hc, hmark⟩
      · exact .inl ⟨c, List.mem_append_right s.user hc, hmark⟩
      · exact absurd hmark (by decide)
      · exact .inr ⟨s.host, s.behindHost, rfl, h.host, ⟨c, hc, hmark⟩, hbehind⟩

/-- The parser puts a mark before the path if it may stand there. -/
theorem exists_mark_of_marked {s : Segments} {t : Bytes} (h : Marked t)
    (hrun : run parseScheme t authorityCont = some (captures s)) (hany : ∀ c ∈ t, isAny c = true) :
    ∃ c ∈ s.user ++ (s.password ++ s.host), isPathChar c = false := by
  obtain ⟨scheme, behind, rfl, ⟨d, cs, hd, hcs, hform⟩, hmarked⟩ := h
  obtain ⟨s', hs', c, hc, hmark⟩ := authorityCont_marked scheme
    (fun c hc => hany c (List.mem_append_right _ hc)) hmarked
  have hslash : ¬ [slash, slash] <+: behind := by
    rintro ⟨t, rfl⟩
    obtain ⟨e, he, hslash⟩ : ∃ e, ([slash, slash] ++ t).head? = some e ∧ isHostChar e = true := by
      rcases hmarked with hhost | huser
      · obtain ⟨host, rest, hsplit, hne, hchars, -⟩ := hhost.hostLike
        obtain ⟨e, host, rfl⟩ := List.exists_cons_of_ne_nil hne
        exact ⟨e, by rw [hsplit]; rfl, hchars e List.mem_cons_self⟩
      · obtain ⟨user, password, rest, hsplit, hne, hchars, -⟩ := huser
        obtain ⟨e, user, rfl⟩ := List.exists_cons_of_ne_nil hne
        exact ⟨e, by rw [hsplit]; rfl, hchars e List.mem_cons_self⟩
    cases he
    exact absurd hslash (by decide)
  have hfound := run_parseScheme_of_chars hd hcs (hform.imp_left fun h => ⟨h, hslash⟩) hs'
  have hsame := captures_inj (Option.some.inj (hfound.symm.trans hrun))
  have huser := hsame .user
  have hpassword := hsame .password
  have hhost := hsame .host
  simp only [Segments.get] at huser hpassword hhost
  rw [huser, hpassword, hhost] at hc
  exact ⟨c, hc, hmark⟩

/-- The parser puts a mark before the path exactly if the string may have one there. -/
theorem marked_iff {lib : UriLibs} {u v : Uri} {t : Bytes} (h : tryParse lib u t = (true, v)) :
    Marked t ↔ ∃ c ∈ v.segments.user ++ (v.segments.password ++ v.segments.host),
      isPathChar c = false := by
  obtain ⟨s, hparsed, hscheme, rfl, rfl, hrun, hany⟩ := tryParse_run h
  rw [segments_assemble]
  exact ⟨fun hmarked => exists_mark_of_marked hmarked hrun hany, marked_of_parsed hparsed hscheme⟩

/-- **Query and fragment.** An accepted string is split at its first `#` and at the first `?`
before that exactly if neither can be part of the user, the password or the host. -/
theorem tryParse_splitsAtMarks_iff {lib : UriLibs} {u v : Uri} {s : Bytes}
    (h : tryParse lib u s = (true, v)) : SplitsAtMarks v s ↔ ¬ Marked s := by
  rw [marked_iff h]
  obtain ⟨segments, hparsed, hscheme, rfl, rfl, -⟩ := tryParse_run h
  rw [splitsAtMarks_assemble hparsed hscheme, segments_assemble]
  simp only [not_exists, not_and, Bool.not_eq_false]

/-- A path stops the host. -/
theorem tryParse_splitsAtMarks_path :
    SplitsAtMarks ⟨bytes "http://h/p?q#f", 7, 7, 7, 8, 8, 10, 12⟩ (bytes "http://h/p?q#f") ↔
      ¬ Marked (bytes "http://h/p?q#f") :=
  @tryParse_splitsAtMarks_iff .ascii {} _ _ (by decide +kernel)

/-- Without a path the host takes the query. -/
theorem tryParse_splitsAtMarks_fails :
    ¬ ∀ (lib : UriLibs) (u v : Uri) (s : Bytes),
      tryParse lib u s = (true, v) → SplitsAtMarks v s := by
  intro h
  have hparse : tryParse .ascii {} (bytes "http://h?q") =
      (true, ⟨bytes "http://h?q", 7, 7, 7, 10, 10, 10, 10⟩) := by decide +kernel
  exact absurd (h _ _ _ _ hparse) (by decide +kernel)

end Uri

end RsIo
