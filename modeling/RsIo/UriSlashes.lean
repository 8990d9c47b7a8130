import RsIo.UriGetters
import RsIo.UriMarks

/-!
# The Slashes behind the Scheme

In the regular expression of the parser the two slashes behind the scheme are optional, and
a path may start with two slashes. So there is a second way to read a string with slashes
behind the scheme: as a scheme without them, no authority, and a path. The parser gets there
when the rest of the expression does not match what is behind the slashes.

`BehindSlashes` says what it does match: an authority with what may follow it, or what may
follow one.

## Main results

* `tryParse_slashes_iff`: the slashes belong to the scheme exactly if what is behind them is
  of that form.
* `tryParse_slashes_path`: otherwise they start the path.
-/

namespace RsIo

namespace Uri

open StdString Regex

/-- An authority, with a path, a query and a fragment behind it, or these alone. -/
def BehindSlashes (t : Bytes) : Prop := UserLike t ∨ HostLike t ∨ TailStart t

/-! ### What a match captures first -/

theorem tailCont_front {m₀ m y : Captures UInt8} {t : Bytes} (h : tailCont m₀ m t = some y) :
    ∃ m', y = m₀ ++ m' := by
  obtain ⟨_, rest, m', -, -, hacc⟩ := run_sound h
  rw [accept] at hacc
  split at hacc
  · exact ⟨m ++ m', (Option.some.inj hacc).symm⟩
  · cases hacc

theorem hostCont_front {m₀ m y : Captures UInt8} {t : Bytes} (h : hostCont m₀ m t = some y) :
    ∃ m', y = m₀ ++ m' := by
  obtain ⟨_, _, _, -, -, htail⟩ := run_sound h
  exact tailCont_front htail

/-- What is captured behind the scheme comes behind what was captured before. -/
theorem authorityCont_front {m₀ y : Captures UInt8} {t : Bytes}
    (h : authorityCont m₀ t = some y) : ∃ m', y = m₀ ++ m' := by
  rw [authorityCont, Option.or_eq_some_iff, Option.or_eq_some_iff] at h
  rcases h with (huser | ⟨-, hhost⟩) | ⟨-, htail⟩
  · obtain ⟨_, _, _, -, -, hhost⟩ := run_sound huser
    exact hostCont_front hhost
  · exact hostCont_front hhost
  · exact tailCont_front htail

theorem authorityCont_isSome (m₀ : Captures UInt8) {t : Bytes} (hany : ∀ c ∈ t, isAny c = true) :
    (authorityCont m₀ t).isSome = true ↔ BehindSlashes t := by
  rw [authorityCont, Option.isSome_or, Option.isSome_or, Bool.or_eq_true, Bool.or_eq_true,
    userCont_isSome m₀ hany, hostCont_isSome m₀ [] hany, tailCont_isSome m₀ [] hany, or_assoc,
    BehindSlashes]

/-- What the parser finds behind the scheme is of that form. -/
theorem behindSlashes_behindScheme {s : Segments} (h : Parsed s) :
    BehindSlashes s.behindScheme := by
  have hstart : TailStart (s.path ++ (s.query ++ s.fragment)) :=
    tailStart_append h.path h.query h.fragment
  have hbehind : BehindHost s.behindHost := ⟨s.port, _, rfl, h.port, hstart⟩
  rcases eq_or_ne s.host [] with hhost | hhost
  · obtain ⟨huser, hport⟩ := h.no_host hhost
    refine .inr (.inr ?_)
    rw [Segments.behindScheme, Segments.behindHost, huser, h.user.user_iff.mp huser, hhost, hport]
    exact hstart
  have hlike : HostLike (s.host ++ s.behindHost) := ⟨s.host, _, rfl, hhost, h.host, hbehind⟩
  rcases h.user.password_eq with hpassword | ⟨p, hp, hchars⟩
  · refine .inr (.inl ?_)
    rw [Segments.behindScheme, h.user.user_iff.mpr hpassword, hpassword]
    exact hlike
  · have huser : s.user ≠ [] := fun hnil => by
      have hpassword := h.user.user_iff.mp hnil
      rw [hp] at hpassword
      simp at hpassword
    refine .inl ⟨s.user, p, s.host ++ s.behindHost, ?_, huser, h.user.user_chars, hchars, hlike⟩
    rw [Segments.behindScheme, hp]
    simp

/-! ### The two readings -/

section Slashes

variable {lib : UriLibs} {u v : Uri} {name rest : Bytes}

/-- The name of the scheme ends at the first colon. What is behind it is the slashes and more,
so the scheme is the name with or without them. -/
theorem tryParse_slashes_cases
    (h : tryParse lib u (name ++ colon :: slash :: slash :: rest) = (true, v))
    (hname : colon ∉ name) :
    ∃ s, Parsed s ∧ v = assemble s ∧ (∀ c ∈ rest, isAny c = true) ∧
      (∃ c cs, name = c :: cs ∧ icase isLower c = true ∧ ∀ d ∈ cs, icase isSchemeChar d = true) ∧
      run parseScheme (name ++ colon :: slash :: slash :: rest) authorityCont =
        some (captures s) ∧
      (s.scheme = name ++ [colon, slash, slash] ∧ s.behindScheme = rest ∨
        s.scheme = name ++ [colon] ∧ s.behindScheme = slash :: slash :: rest) := by
  obtain ⟨s, hs, ⟨c, cs, hc, hcs, hform⟩, htext, hv, hrun, hany⟩ := tryParse_run h
  have hcolon : colon ∉ c :: cs := by
    rw [List.mem_cons, not_or]
    constructor
    · rintro rfl
      exact absurd hc (by decide)
    · exact fun hmem => absurd (hcs colon hmem) (by decide)
  have hsplit {tail : Bytes} (hscheme : s.scheme = (c :: cs) ++ colon :: tail) :
      name = c :: cs ∧ slash :: slash :: rest = tail ++ s.behindScheme := by
    have heq : name ++ colon :: (slash :: slash :: rest) =
        (c :: cs) ++ colon :: (tail ++ s.behindScheme) := by
      rw [htext, text_eq, hscheme, List.append_assoc, @List.cons_append _ colon tail]
    exact splitAt_unique heq hname hcolon
  refine ⟨s, hs, hv, fun d hd => hany d (by simp [hd]), ?_, hrun, ?_⟩
  · obtain ⟨tail, hscheme⟩ : ∃ tail, s.scheme = (c :: cs) ++ colon :: tail :=
      hform.elim (fun h => ⟨[], h⟩) fun h => ⟨[slash, slash], h⟩
    exact ⟨c, cs, (hsplit hscheme).1, hc, hcs⟩
  · rcases hform with hform | hform
    · obtain ⟨rfl, hrest⟩ := hsplit hform
      exact .inr ⟨hform, hrest.symm⟩
    · obtain ⟨rfl, hrest⟩ := hsplit hform
      exact .inl ⟨hform, by simpa using hrest.symm⟩

theorem hasSlashes_assemble {s : Segments} (h : s.scheme = name ++ [colon, slash, slash]) :
    (assemble s).hasSlashes = true := by
  have hempty : (assemble s).empty = false := by
    rw [empty_assemble, List.isEmpty_eq_false_iff]
    exact text_ne_nil .scheme (by simp [Segments.get, h])
  have hofs : ((assemble s).ofsUser - 1).toNat = name.length + 2 := by
    change ((s.scheme.length : ℤ) - 1).toNat = _
    rw [h, List.length_append, List.length_cons, List.length_cons, List.length_singleton]
    omega
  have htext : (assemble s).text = name ++ [colon, slash, slash] ++ s.behindScheme := by
    change s.text = _
    rw [text_eq, h]
  rw [hasSlashes, hempty, hofs, htext]
  simp

/-- The attempt with the slashes comes first, and succeeds if they may belong to the scheme. -/
theorem scheme_of_behindSlashes
    (h : tryParse lib u (name ++ colon :: slash :: slash :: rest) = (true, v))
    (hname : colon ∉ name) (hbehind : BehindSlashes rest) :
    v.segments.scheme = name ++ [colon, slash, slash] := by
  obtain ⟨s, hs, rfl, hany, ⟨c, cs, rfl, hc, hcs⟩, hrun, -⟩ := tryParse_slashes_cases h hname
  obtain ⟨y, hy⟩ := Option.isSome_iff_exists.mp
    ((authorityCont_isSome (capture 1 (c :: cs ++ [colon, slash, slash])) hany).mpr hbehind)
  obtain ⟨m, rfl⟩ := authorityCont_front hy
  have hfound := run_parseScheme_of_chars hc hcs (.inr rfl) hy
  rw [List.append_assoc] at hfound
  have hsame : captures s = capture 1 (c :: cs ++ [colon, slash, slash]) ++ m :=
    Option.some.inj (hrun.symm.trans hfound)
  have hfirst := lookup_captures s .scheme
  simp only [Part.index, Nat.zero_add, Segments.get] at hfirst
  rw [segments_assemble, ← hfirst, hsame, lookup_capture_append, if_pos ⟨rfl, by simp⟩]

/-- **The slashes.** In an accepted string with two slashes behind the scheme they belong to the
scheme exactly if an authority, or what may follow one, is behind them. -/
theorem tryParse_slashes_iff
    (h : tryParse lib u (name ++ colon :: slash :: slash :: rest) = (true, v))
    (hname : colon ∉ name) :
    (v.ofsUser = ((name.length + 3 : ℕ) : ℤ) ∧ v.hasSlashes = true) ↔ BehindSlashes rest := by
  have hscheme := scheme_of_behindSlashes h hname
  obtain ⟨s, hs, rfl, -, -, -, hcases⟩ := tryParse_slashes_cases h hname
  rw [segments_assemble] at hscheme
  constructor
  · rintro ⟨hofs, -⟩
    rcases hcases with ⟨-, rfl⟩ | ⟨hscheme, -⟩
    · exact behindSlashes_behindScheme hs
    · have hlen : (assemble s).ofsUser = (s.scheme.length : ℤ) := rfl
      rw [hlen, hscheme, List.length_append, List.length_singleton] at hofs
      omega
  · intro hbehind
    refine ⟨?_, hasSlashes_assemble (hscheme hbehind)⟩
    change (s.scheme.length : ℤ) = _
    rw [hscheme hbehind, List.length_append]
    rfl

/-- The second reading: what is not of that form stands in a path that starts with the
slashes. -/
theorem tryParse_slashes_path
    (h : tryParse lib u (name ++ colon :: slash :: slash :: rest) = (true, v))
    (hname : colon ∉ name) (hnot : ¬ BehindSlashes rest) :
    v.ofsUser = ((name.length + 1 : ℕ) : ℤ) ∧ v.hasHost = false ∧
      [slash, slash] <+: v.segments.path := by
  obtain ⟨s, hs, rfl, -, -, -, hcases⟩ := tryParse_slashes_cases h hname
  rcases hcases with ⟨-, rfl⟩ | ⟨hscheme, hbehind⟩
  · exact absurd (behindSlashes_behindScheme hs) hnot
  have hstart {a t : Bytes} (heq : a ++ t = slash :: slash :: rest)
      (ha : ∀ c ∈ a, isHostChar c = true) : a = [] := by
    cases a with
    | nil => rfl
    | cons c a =>
        have hc := ha c List.mem_cons_self
        rw [(List.cons.inj heq).1] at hc
        exact absurd hc (by decide)
  have huser : s.user = [] := hstart hbehind hs.user.user_chars
  rw [Segments.behindScheme, huser, hs.user.user_iff.mp huser] at hbehind
  have hhost : s.host = [] := hstart hbehind hs.host
  rw [hhost, Segments.behindHost, (hs.no_host hhost).2] at hbehind
  refine ⟨?_, ?_, ?_⟩
  · change (s.scheme.length : ℤ) = _
    rw [hscheme, List.length_append, List.length_singleton]
  · rw [hasHost_assemble, hhost]
    rfl
  · -- neither the query nor the fragment starts with a slash
    have hmarks : (s.query ++ s.fragment).head? ≠ some slash := by
      rcases hs.query.head? (t := s.fragment) with ⟨hhead, -⟩ | hhead
      · rw [hhead]
        rcases hs.fragment with hfragment | ⟨w, hfragment, -⟩ <;> simp [hfragment, hash, slash]
      · simp [hhead, question, slash]
    rw [segments_assemble]
    rcases hs.path with hpath | ⟨w, hpath, -⟩
    · rw [hpath] at hbehind
      exact absurd (congrArg List.head? hbehind) hmarks
    · rw [hpath] at hbehind ⊢
      have hw : w ++ (s.query ++ s.fragment) = slash :: rest := (List.cons.inj hbehind).2
      cases w with
      | nil => exact absurd (congrArg List.head? hw) hmarks
      | cons c w =>
          rw [(List.cons.inj hw).1]
          exact ⟨w, rfl⟩

end Slashes

/-- With a host behind them the slashes belong to the scheme. -/
theorem tryParse_slashes_host :
    (Uri.ofsUser ⟨bytes "http://h/p", 7, 7, 7, 8, 8, 10, 10⟩ =
        (((bytes "http").length + 3 : ℕ) : ℤ) ∧
      Uri.hasSlashes ⟨bytes "http://h/p", 7, 7, 7, 8, 8, 10, 10⟩ = true) ↔
        BehindSlashes (bytes "h/p") :=
  @tryParse_slashes_iff .ascii {} _ (bytes "http") (bytes "h/p") (by decide +kernel)
    (by decide +kernel)

/-- A port without a host: `a://:b` is read as a scheme and a path. -/
theorem tryParse_slashes_fails :
    ¬ ∀ (lib : UriLibs) (u v : Uri) (name rest : Bytes),
      tryParse lib u (name ++ colon :: slash :: slash :: rest) = (true, v) → colon ∉ name →
        v.ofsUser = ((name.length + 3 : ℕ) : ℤ) ∧ v.hasSlashes = true := by
  intro h
  have hparse : tryParse .ascii {} (bytes "a" ++ colon :: slash :: slash :: bytes ":b") =
      (true, ⟨bytes "a://:b", 2, 2, 2, 2, 2, 6, 6⟩) := by decide +kernel
  exact absurd (h _ _ _ _ _ hparse (by decide)).1 (by decide)

end Uri

end RsIo
