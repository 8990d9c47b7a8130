import RsIo.UriAssembly
import RsIo.UriReachable

/-!
# The Text Determines the Segments

Two records of segments may be joined to the same text. `Plain` says when segments can be
told apart in it: the user, the password and the host hold none of the characters that
start a query or a fragment, the query holds none that starts a fragment, and a path behind
a scheme without slashes does not start like a host behind two slashes (`Exposed`).

## Main results

* `Plain.text_inj`: plain segments with the same text are the same.
* `plain_of_tryParse`: what the parser finds is plain, if the user, the password and the
  host are and the path is not exposed.
-/

namespace RsIo

open StdString

namespace Uri

open Regex

/-- What stands between the scheme and the path, without the slash, the question mark and the
hash that end it. -/
def isFrontChar (c : UInt8) : Bool := isPathChar c && c != slash

/-- A text that could be a user, a password, a host and a port, not all of which need to be
there. -/
def AuthorityLike (t : Bytes) : Prop :=
  ∃ user password host port, (∀ c ∈ user ++ (password ++ host), isFrontChar c = true) ∧
    UserShape user password ∧ (∀ c ∈ host, isHostChar c = true) ∧ PortShape port ∧
      t = user ++ (password ++ (host ++ port))

/-- A path that starts like two slashes and what may follow them. -/
def AuthorityPath (path : Bytes) : Prop :=
  ∃ a t, path = slash :: slash :: (a ++ t) ∧ AuthorityLike a ∧ (t = [] ∨ t.head? = some slash)

namespace Segments

/-- What stands between the scheme and the path. -/
def authority (s : Segments) : Bytes := s.user ++ (s.password ++ (s.host ++ s.port))

/-- The path and what is behind it. -/
def behindPort (s : Segments) : Bytes := s.path ++ (s.query ++ s.fragment)

/-- The scheme ends with two slashes. -/
def HasSlashes (s : Segments) : Prop := [slash, slash] <:+ s.scheme

/-- There is nothing between a scheme without slashes and the path, which starts like two
slashes and what may follow them. -/
def Exposed (s : Segments) : Prop :=
  ¬ s.HasSlashes ∧ (s.user = [] ∧ s.host = [] ∧ s.port = []) ∧ AuthorityPath s.path

/-- Segments that can be told apart in the text. -/
structure Plain (s : Segments) : Prop where
  scheme : s = {} ∨ ∃ name, colon ∉ name ∧
    (s.scheme = name ++ [colon] ∨ s.scheme = name ++ [colon, slash, slash])
  user : ∀ c ∈ s.user, isHostChar c = true ∧ isPathChar c = true
  password : s.password = [] ∨ ∃ p, s.password = p ++ [atSign] ∧
    (∀ c ∈ p, isPasswordChar c = true ∧ isPathChar c = true) ∧ (p = [] ∨ p.head? = some colon)
  user_iff : s.user = [] ↔ s.password = []
  host : ∀ c ∈ s.host, isHostChar c = true ∧ isPathChar c = true
  port : PortShape s.port
  path : TailShape slash isPathChar s.path
  query : TailShape question isQueryChar s.query
  fragment : s.fragment = [] ∨ [hash] <+: s.fragment
  covered : ¬ s.Exposed

end Segments

/-! ### The characters of the authority -/

/-- A character of a host is no colon. -/
theorem ne_colon_of_isHostChar {c : UInt8} (h : isHostChar c = true) : (c != colon) = true := by
  simp only [isHostChar, Bool.and_eq_true] at h
  exact h.1.2

/-- A character of a host is no `@`. -/
theorem ne_atSign_of_isHostChar {c : UInt8} (h : isHostChar c = true) : (c != atSign) = true := by
  simp only [isHostChar, Bool.and_eq_true] at h
  exact h.2

/-- A character of a password is no `@`. -/
theorem ne_atSign_of_isPasswordChar {c : UInt8} (h : isPasswordChar c = true) :
    (c != atSign) = true := by
  simp only [isPasswordChar, Bool.and_eq_true] at h
  exact h.2

/-- A character of a user may stand in front of the path. -/
theorem isFrontChar_of_isHostChar {c : UInt8} (h : isHostChar c = true ∧ isPathChar c = true) :
    isFrontChar c = true := by
  have hhost := h.1
  simp only [isHostChar, Bool.and_eq_true] at hhost
  rw [isFrontChar, h.2, hhost.1.1]
  rfl

/-- A character of a password may stand in front of the path. -/
theorem isFrontChar_of_isPasswordChar {c : UInt8}
    (h : isPasswordChar c = true ∧ isPathChar c = true) : isFrontChar c = true := by
  have hpassword := h.1
  simp only [isPasswordChar, Bool.and_eq_true] at hpassword
  rw [isFrontChar, h.2, hpassword.1]
  rfl

/-- A digit may stand in a host and in a path. -/
theorem isHostChar_of_isDigit {c : UInt8} (h : isDigit c = true) :
    isHostChar c = true ∧ isPathChar c = true := by
  have hne (d : UInt8) (hd : isDigit d = false) : c ≠ d := by
    rintro rfl
    rw [h] at hd
    cases hd
  simp [isHostChar, isPathChar, hne slash (by decide), hne colon (by decide),
    hne atSign (by decide), hne hash (by decide), hne question (by decide)]

/-- The characters of a port may stand in front of the path. -/
theorem PortShape.isFrontChar {port : Bytes} (h : PortShape port) :
    ∀ c ∈ port, isFrontChar c = true := by
  rcases h with rfl | ⟨d, rfl, -, hd⟩
  · simp
  · intro c hc
    rcases List.mem_cons.mp hc with rfl | hc
    · decide
    · exact isFrontChar_of_isHostChar (isHostChar_of_isDigit (hd c hc))

/-- The characters between the scheme and the path. -/
theorem AuthorityLike.isFrontChar {a : Bytes} (h : AuthorityLike a) :
    ∀ c ∈ a, isFrontChar c = true := by
  obtain ⟨user, password, host, port, hall, -, -, hport, rfl⟩ := h
  intro c hc
  simp only [List.mem_append] at hc hall
  rcases hc with hc | hc | hc | hc
  · exact hall c (.inl hc)
  · exact hall c (.inr (.inl hc))
  · exact hall c (.inr (.inr hc))
  · exact hport.isFrontChar c hc

/-- There is no slash in front of the path. -/
theorem slash_notMem_of_isFrontChar {a : Bytes} (h : ∀ c ∈ a, isFrontChar c = true) :
    slash ∉ a := fun hmem => by
  have hslash := h slash hmem
  revert hslash
  decide

/-- Nothing could be an authority. -/
theorem authorityLike_nil : AuthorityLike [] :=
  ⟨[], [], [], [], by simp, ⟨by simp, .inl rfl, by simp⟩, by simp, .inl rfl, rfl⟩

namespace Segments

variable {s s' : Segments}

namespace Plain

/-- The characters of the user, the password and the host. -/
theorem isFrontChar (h : s.Plain) : ∀ c ∈ s.user ++ (s.password ++ s.host),
    isFrontChar c = true := by
  intro c hc
  simp only [List.mem_append] at hc
  rcases hc with hc | hc | hc
  · exact isFrontChar_of_isHostChar (h.user c hc)
  · rcases h.password with hnil | ⟨p, hp, hchars, -⟩
    · rw [hnil] at hc
      cases hc
    · rw [hp, List.mem_append, List.mem_singleton] at hc
      rcases hc with hc | rfl
      · exact isFrontChar_of_isPasswordChar (hchars c hc)
      · decide
  · exact isFrontChar_of_isHostChar (h.host c hc)

/-- What stands in front of the path could be one. -/
theorem authorityLike (h : s.Plain) : AuthorityLike s.authority := by
  refine ⟨s.user, s.password, s.host, s.port, h.isFrontChar,
    ⟨fun c hc => (h.user c hc).1, ?_, h.user_iff⟩, fun c hc => (h.host c hc).1, h.port, rfl⟩
  exact h.password.imp_right fun ⟨p, hp, hchars, _⟩ => ⟨p, hp, fun c hc => (hchars c hc).1⟩

/-- The query and the fragment start with a question mark or a hash. -/
theorem head?_behindPath (h : s.Plain) :
    ∀ c, (s.query ++ s.fragment).head? = some c → c = question ∨ c = hash := by
  intro c hc
  rcases h.query with hq | ⟨w, hq, -⟩
  · rw [hq, List.nil_append] at hc
    rcases h.fragment with hf | ⟨v, hf⟩
    · rw [hf] at hc
      cases hc
    · rw [← hf] at hc
      exact .inr (Option.some.inj hc).symm
  · rw [hq] at hc
    exact .inl (Option.some.inj hc).symm

/-- A path ends before the query or the fragment. -/
theorem isPathChar_behindPath (h : s.Plain) :
    ∀ c, (s.query ++ s.fragment).head? = some c → isPathChar c = false := by
  intro c hc
  rcases h.head?_behindPath c hc with rfl | rfl <;> decide

/-- What stands in front of the path ends there. -/
theorem isFrontChar_behindPort (h : s.Plain) :
    ∀ c, s.behindPort.head? = some c → Uri.isFrontChar c = false := by
  intro c hc
  rcases h.path with hp | ⟨w, hp, -⟩
  · rw [behindPort, hp, List.nil_append] at hc
    rw [Uri.isFrontChar, h.isPathChar_behindPath c hc, Bool.false_and]
  · rw [behindPort, hp] at hc
    obtain rfl : slash = c := Option.some.inj hc
    decide

/-! ### Splitting the text -/

/-- The user, the password, the host and the port can be told apart. -/
theorem authority_inj (h : s.Plain) (h' : s'.Plain) (heq : s.authority = s'.authority) :
    s.user = s'.user ∧ s.password = s'.password ∧ s.host = s'.host ∧ s.port = s'.port := by
  have hport {port : Bytes} (hport : PortShape port) :
      ∀ c, port.head? = some c → (c != colon) = false := by
    rcases hport with rfl | ⟨d, rfl, -, -⟩ <;> simp
  have hhost {host port : Bytes} (hhost : ∀ c ∈ host, isHostChar c = true ∧ isPathChar c = true)
      (hport : PortShape port) : atSign ∉ host ++ port := by
    rw [List.mem_append, not_or]
    constructor
    · intro hat
      exact absurd (hhost _ hat).1 (by decide)
    · rcases hport with rfl | ⟨d, rfl, -, hd⟩
      · simp
      · rw [List.mem_cons, not_or]
        exact ⟨by decide, fun hat => absurd (hd _ hat) (by decide)⟩
  -- the host and the port behind the same characters
  have hback (heq : s.host ++ s.port = s'.host ++ s'.port) :
      s.host = s'.host ∧ s.port = s'.port := by
    exact span_unique (p := fun c => c != colon) heq
      (fun c hc => ne_colon_of_isHostChar (h.host c hc).1)
      (fun c hc => ne_colon_of_isHostChar (h'.host c hc).1) (hport h.port) (hport h'.port)
  simp only [authority] at heq
  rcases h.password with hp | ⟨p, hp, hchars, hcolon⟩ <;>
    rcases h'.password with hp' | ⟨p', hp', hchars', hcolon'⟩
  · rw [h.user_iff.mpr hp, h'.user_iff.mpr hp', hp, hp'] at heq ⊢
    exact ⟨rfl, rfl, hback heq⟩
  · have hmem : atSign ∈ s.host ++ s.port := by
      rw [h.user_iff.mpr hp, hp, List.nil_append, List.nil_append] at heq
      rw [heq, hp']
      simp
    exact absurd hmem (hhost h.host h.port)
  · have hmem : atSign ∈ s'.host ++ s'.port := by
      rw [h'.user_iff.mpr hp', hp', List.nil_append, List.nil_append] at heq
      rw [← heq, hp]
      simp
    exact absurd hmem (hhost h'.host h'.port)
  · have huser {user p : Bytes} (huser : ∀ c ∈ user, isHostChar c = true ∧ isPathChar c = true)
        (hchars : ∀ c ∈ p, isPasswordChar c = true ∧ isPathChar c = true) :
        ∀ c ∈ user ++ p, (c != atSign) = true := by
      intro c hc
      rcases List.mem_append.mp hc with hc | hc
      · exact ne_atSign_of_isHostChar (huser c hc).1
      · exact ne_atSign_of_isPasswordChar (hchars c hc).1
    have hsplit : (s.user ++ p) ++ atSign :: (s.host ++ s.port) =
        (s'.user ++ p') ++ atSign :: (s'.host ++ s'.port) := by
      rw [hp, hp'] at heq
      simpa using heq
    obtain ⟨hfront, hrest⟩ := span_unique (p := fun c => c != atSign) hsplit
      (huser h.user hchars) (huser h'.user hchars') (by simp) (by simp)
    have hhead {p : Bytes} (hcolon : p = [] ∨ p.head? = some colon) :
        ∀ c, p.head? = some c → (c != colon) = false := by
      rcases hcolon with rfl | hcolon
      · simp
      · intro c hc
        obtain rfl : colon = c := Option.some.inj (hcolon.symm.trans hc)
        decide
    obtain ⟨hsame, rfl⟩ := span_unique hfront
      (fun c hc => ne_colon_of_isHostChar (h.user c hc).1)
      (fun c hc => ne_colon_of_isHostChar (h'.user c hc).1) (hhead hcolon) (hhead hcolon')
    exact ⟨hsame, hp.trans hp'.symm, hback (List.cons.inj hrest).2⟩

/-- The path, the query and the fragment can be told apart. -/
theorem behindPort_inj (h : s.Plain) (h' : s'.Plain) (heq : s.behindPort = s'.behindPort) :
    s.path = s'.path ∧ s.query = s'.query ∧ s.fragment = s'.fragment := by
  have hhash {s : Segments} (h : s.Plain) :
      ∀ c, s.fragment.head? = some c → isQueryChar c = false := by
    intro c hc
    rcases h.fragment with hf | ⟨v, hf⟩
    · rw [hf] at hc
      cases hc
    · rw [← hf] at hc
      obtain rfl : hash = c := Option.some.inj hc
      decide
  obtain ⟨hpath, hrest⟩ := span_unique heq (h.path.all (by decide)) (h'.path.all (by decide))
    h.isPathChar_behindPath h'.isPathChar_behindPath
  exact ⟨hpath, span_unique hrest (h.query.all (by decide)) (h'.query.all (by decide))
    (hhash h) (hhash h')⟩

/-- Behind a scheme without slashes, a text that starts with two slashes exposes the path. -/
theorem exposed_of_slashes (h : s.Plain) (h' : s'.Plain) (hslashes : ¬ s.HasSlashes)
    (heq : s.authority ++ s.behindPort = slash :: slash :: (s'.authority ++ s'.behindPort)) :
    s.Exposed := by
  have hauthority : s.authority = [] := by
    cases ha : s.authority with
    | nil => rfl
    | cons c a =>
        rw [ha, List.cons_append, List.cons.injEq] at heq
        have hc := h.authorityLike.isFrontChar c (ha ▸ List.mem_cons_self)
        rw [heq.1] at hc
        exact absurd hc (by decide)
  simp only [authority, List.append_eq_nil_iff] at hauthority
  obtain ⟨huser, -, hhost, hport⟩ := hauthority
  rw [authority, huser, h.user_iff.mp huser, hhost, hport] at heq
  simp only [List.nil_append, behindPort] at heq
  -- the two slashes are in the path
  have hnot : ∀ t, s.query ++ s.fragment ≠ slash :: t := fun t ht => by
    have hhead := h.head?_behindPath slash (by rw [ht]; rfl)
    revert hhead
    decide
  rcases h.path with hp | ⟨w, hp, hw⟩
  · rw [hp] at heq
    exact absurd heq (hnot _)
  rw [hp, List.cons_append, List.cons.injEq] at heq
  cases w with
  | nil => exact absurd heq.2 (hnot _)
  | cons c w =>
      obtain ⟨rfl, hback⟩ := List.cons.inj heq.2
      have hrest : w ++ (s.query ++ s.fragment) =
          (s'.authority ++ s'.path) ++ (s'.query ++ s'.fragment) := by
        rw [List.append_assoc]
        exact hback
      have hchars : ∀ c ∈ s'.authority ++ s'.path, isPathChar c = true := by
        intro c hc
        rcases List.mem_append.mp hc with hc | hc
        · have hfront := h'.authorityLike.isFrontChar c hc
          simp only [Uri.isFrontChar, Bool.and_eq_true] at hfront
          exact hfront.1
        · exact h'.path.all (by decide) c hc
      obtain ⟨rfl, -⟩ := span_unique hrest (fun c hc => hw c (List.mem_cons_of_mem _ hc)) hchars
        h.isPathChar_behindPath h'.isPathChar_behindPath
      refine ⟨hslashes, ⟨huser, hhost, hport⟩, s'.authority, s'.path, hp, h'.authorityLike, ?_⟩
      exact h'.path.imp_right fun ⟨v, hv, _⟩ => by rw [hv]; rfl

/-- **The text determines the segments.** -/
theorem text_inj (h : s.Plain) (h' : s'.Plain) (heq : s.text = s'.text) : s = s' := by
  have hsplit (s : Segments) : s.text = s.scheme ++ (s.authority ++ s.behindPort) := by
    simp [Segments.text, toList, authority, behindPort]
  have hempty {s : Segments} (h : s.Plain) (heq : s.text = ({} : Segments).text) : s = {} := by
    rcases h.scheme with hs | ⟨name, -, hs | hs⟩
    · exact hs
    all_goals
      rw [hsplit s, hs] at heq
      simp [Segments.text, toList] at heq
  rcases h.scheme with hnil | ⟨name, hname, hs⟩
  · rw [hnil] at heq ⊢
    exact (hempty h' heq.symm).symm
  rcases h'.scheme with hnil' | ⟨name', hname', hs'⟩
  · rw [hnil'] at heq ⊢
    exact hempty h heq
  have hcut {s : Segments} {name : Bytes}
      (hs : s.scheme = name ++ [colon] ∨ s.scheme = name ++ [colon, slash, slash]) :
      ∃ r, s.text = name ++ colon :: r ∧
        (s.scheme = name ++ [colon] ∧ r = s.authority ++ s.behindPort ∨
          s.scheme = name ++ [colon, slash, slash] ∧
            r = slash :: slash :: (s.authority ++ s.behindPort)) := by
    rcases hs with hs | hs
    · exact ⟨_, by rw [hsplit, hs]; simp, .inl ⟨hs, rfl⟩⟩
    · exact ⟨_, by rw [hsplit, hs]; simp, .inr ⟨hs, rfl⟩⟩
  have hbare {s : Segments} {name : Bytes} (hs : s.scheme = name ++ [colon]) : ¬ s.HasSlashes := by
    rintro ⟨w, hw⟩
    have hlast := congrArg List.getLast? (hw.trans hs)
    simp at hlast
    revert hlast
    decide
  obtain ⟨r, htext, hr⟩ := hcut hs
  obtain ⟨r', htext', hr'⟩ := hcut hs'
  rw [htext, htext'] at heq
  obtain ⟨rfl, rfl⟩ := splitAt_unique heq hname hname'
  -- both schemes have slashes, or neither
  have hboth : s.scheme = s'.scheme ∧
      s.authority ++ s.behindPort = s'.authority ++ s'.behindPort := by
    rcases hr with ⟨hs, hr⟩ | ⟨hs, hr⟩ <;> rcases hr' with ⟨hs', hr'⟩ | ⟨hs', hr'⟩
    · exact ⟨hs.trans hs'.symm, hr.symm.trans hr'⟩
    · exact absurd (h.exposed_of_slashes h' (hbare hs) (hr.symm.trans hr')) h.covered
    · exact absurd (h'.exposed_of_slashes h (hbare hs') (hr'.symm.trans hr)) h'.covered
    · have hsame := hr.symm.trans hr'
      rw [List.cons.injEq, List.cons.injEq] at hsame
      exact ⟨hs.trans hs'.symm, hsame.2.2⟩
  obtain ⟨hscheme, hbehind⟩ := hboth
  obtain ⟨hauthority, hbehindPort⟩ := span_unique hbehind h.authorityLike.isFrontChar
    h'.authorityLike.isFrontChar h.isFrontChar_behindPort h'.isFrontChar_behindPort
  obtain ⟨huser, hpassword, hhost, hport⟩ := h.authority_inj h' hauthority
  obtain ⟨hpath, hquery, hfragment⟩ := h.behindPort_inj h' hbehindPort
  cases s
  cases s'
  simp only [mk.injEq] at *
  exact ⟨hscheme, huser, hpassword, hhost, hport, hpath, hquery, hfragment⟩

end Plain

end Segments

/-! ### What the parser finds -/

/-- The scheme and the password that the parser finds: the name of the scheme ends at the first
colon, and the user goes on to a colon or to the sign. -/
theorem tryParse_front {lib : UriLibs} {u v : Uri} {t : Bytes} (h : tryParse lib u t = (true, v)) :
    ∃ s, Parsed s ∧ v = assemble s ∧
      (∃ name, colon ∉ name ∧
        (s.scheme = name ++ [colon] ∨ s.scheme = name ++ [colon, slash, slash])) ∧
      (s.password = [] ∨ ∃ p, s.password = p ++ [atSign] ∧ (p = [] ∨ p.head? = some colon)) := by
  obtain ⟨s, hs, rfl, rfl, hm, hclean⟩ := tryParse_captures h
  refine ⟨s, hs, rfl, ?_⟩
  have hany : ∀ c ∈ s.text, isAny c = true := fun c hc => isAny_of_not_isCntrl (hclean c hc)
  rw [fullMatch_parsePattern] at hm
  obtain ⟨scheme, behind, m₁, hsplit, hscheme, hcont⟩ := run_sound hm
  obtain ⟨hname, rfl⟩ := matches_parseScheme hscheme
  have hbehind : ∀ c ∈ behind, isAny c = true := fun c hc =>
    hany c (by rw [hsplit]; exact List.mem_append_right _ hc)
  have hne : scheme ≠ [] := by
    obtain ⟨name, -, rfl | rfl⟩ := hname <;> simp
  have hfirst := lookup_captures s .scheme
  have hthird := lookup_captures s .password
  simp only [Part.index, Nat.zero_add, Nat.reduceAdd, Segments.get] at hfirst hthird
  -- whatever is captured behind the scheme
  have hfront {m : Captures UInt8} (heq : captures s = capture 1 scheme ++ m)
      (hpassword : (m.lookup 3).getD [] = [] ∨ ∃ p, (m.lookup 3).getD [] = p ++ [atSign] ∧
        (p = [] ∨ p.head? = some colon)) :
      (∃ name, colon ∉ name ∧
        (s.scheme = name ++ [colon] ∨ s.scheme = name ++ [colon, slash, slash])) ∧
      (s.password = [] ∨ ∃ p, s.password = p ++ [atSign] ∧ (p = [] ∨ p.head? = some colon)) := by
    rw [heq, lookup_capture_append, if_pos ⟨rfl, hne⟩] at hfirst
    rw [heq, lookup_capture_append, if_neg (by simp)] at hthird
    rw [← hfirst, ← hthird]
    exact ⟨hname, hpassword⟩
  rw [authorityCont, Option.or_eq_some_iff, Option.or_eq_some_iff] at hcont
  rcases hcont with (huser | ⟨-, hhost⟩) | ⟨-, htail⟩
  · obtain ⟨user, password, host, port, path, query, fragment, -, hcolon, heq⟩ :=
      userCont_some hbehind huser
    refine hfront heq (.inr ⟨password, ?_, hcolon⟩)
    simp only [lookup_capture_append]
    simp
  · obtain ⟨host, rest, port, path, query, fragment, -, -, heq, -⟩ := hostCont_some hbehind hhost
    refine hfront heq (.inl ?_)
    simp only [List.nil_append, lookup_capture_append, lookup_capture]
    simp
  · obtain ⟨tail, rest, m, -, hm, hrest⟩ := run_sound htail
    obtain ⟨path, query, fragment, -, -, -, -, rfl⟩ := matches_parseTail hm
    cases rest with
    | nil =>
        refine hfront (Option.some.inj hrest).symm (.inl ?_)
        simp only [List.nil_append, lookup_capture_append, lookup_capture]
        simp
    | cons c rest => simp [accept] at hrest

/-- What the parser finds is plain if it has not taken the start of a query or a fragment for
a character of the user, the password or the host. -/
theorem plain_of_tryParse {lib : UriLibs} {u v : Uri} {t : Bytes}
    (h : tryParse lib u t = (true, v))
    (hchars : ∀ c ∈ v.segments.user ++ (v.segments.password ++ v.segments.host),
      isPathChar c = true)
    (hcovered : ¬ v.segments.Exposed) : v.segments.Plain := by
  obtain ⟨s, hs, rfl, hscheme, hpassword⟩ := tryParse_front h
  rw [segments_assemble] at hchars hcovered ⊢
  simp only [List.mem_append] at hchars
  refine {
    scheme := .inr hscheme
    user := fun c hc => ⟨hs.user.user_chars c hc, hchars c (.inl hc)⟩
    password := ?_
    user_iff := hs.user.user_iff
    host := fun c hc => ⟨hs.host c hc, hchars c (.inr (.inr hc))⟩
    port := hs.port
    path := hs.path
    query := hs.query
    fragment := hs.wf.fragment
    covered := hcovered }
  refine hpassword.imp_right fun ⟨p, hp, hcolon⟩ => ⟨p, hp, fun c hc => ⟨?_, ?_⟩, hcolon⟩
  · rcases hs.user.password_eq with hnil | ⟨p', hp', hall⟩
    · simp [hp] at hnil
    · obtain rfl := List.append_cancel_right (hp.symm.trans hp')
      exact hall c hc
  · exact hchars c (.inr (.inl (by rw [hp]; exact List.mem_append_left _ hc)))

end Uri

end RsIo
