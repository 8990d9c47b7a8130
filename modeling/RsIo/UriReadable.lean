import RsIo.UriParse

/-!
# Taking Joined Segments Apart

The parser reads the host up to the next `/`, `:` or `@`, and the user before that up to a
`@`. Behind a host without a path it may therefore take the query and the fragment for more
of the host, and behind a host without a user it may take them for a user and a host.
`HostLike` and `UserLike` say which texts it does that to.

The lemmas run the parts of the regular expression on the text of known segments, from the
last part to the first one. Each part either goes as far as its segment does, or there is a
longer attempt that succeeds, which comes first.

## Main results

* `authority_good`, `authority_bad`: what the parser makes of the text behind the scheme.
* `ofString_text_iff`: which joined segments the parser takes apart again.
-/

namespace RsIo

namespace Uri

open Regex

/-! ### Running the parts of the regular expression -/

/-- The continuation of a match of the whole text. -/
def accept (m : Captures UInt8) (s : Bytes) : Option (Captures UInt8) :=
  if s.isEmpty then some m else none

/-- What follows the host, behind the captures `m₀` of the scheme. -/
def tailCont (m₀ m : Captures UInt8) (s : Bytes) : Option (Captures UInt8) :=
  run parseTail s fun m' s => accept (m₀ ++ (m ++ m')) s

/-- The host and the port in the regular expression. -/
def parseHost : Regex UInt8 :=
  seq (group 4 (many1 isHostChar)) (opt (group 5 (seq (literal [colon]) (many1 isDigit))))

/-- What follows the user, or the scheme if there is no user. -/
def hostCont (m₀ m : Captures UInt8) (s : Bytes) : Option (Captures UInt8) :=
  run parseHost s fun m' s => tailCont m₀ (m ++ m') s

/-- What follows the scheme. -/
def authorityCont (m₀ : Captures UInt8) (s : Bytes) : Option (Captures UInt8) :=
  ((run parseUser s (hostCont m₀)).or (hostCont m₀ [] s)).or (tailCont m₀ [] s)

/-- The pattern of `try_parse` is matched part by part. -/
theorem fullMatch_parsePattern (s : Bytes) :
    fullMatch parsePattern s = run parseScheme s authorityCont := rfl

/-- A character of a host may stand in a password. -/
theorem isPasswordChar_of_isHostChar {c : UInt8} (h : isHostChar c = true) :
    isPasswordChar c = true := by
  simp only [isHostChar, isPasswordChar, Bool.and_eq_true] at h ⊢
  exact ⟨h.1.1, h.2⟩

/-- A class cannot go on behind a text that stops it. -/
theorem not_all_of_head? {p : UInt8 → Bool} {t a b : Bytes}
    (hstop : ∀ c, t.head? = some c → p c = false) (ht : t = a ++ b) (hne : a ≠ []) :
    ¬ ∀ c ∈ a, p c = true := by
  intro hall
  cases a with
  | nil => exact hne rfl
  | cons c a =>
      have hc := hstop c (by rw [ht]; rfl)
      rw [hall c List.mem_cons_self] at hc
      simp at hc

/-- A part with its mark is matched as far as it goes. -/
theorem run_tailGroup {n : ℕ} {first : UInt8} {p : UInt8 → Bool} {part t : Bytes}
    {k : Captures UInt8 → Bytes → Option (Captures UInt8)} {x : Captures UInt8}
    (hpart : TailShape first p part) (hfirst : t.head? ≠ some first)
    (hstop : ∀ c, t.head? = some c → p c = false) (hk : k (capture n part) t = some x) :
    run (opt (group n (seq (literal [first]) (many p)))) (part ++ t) k = some x := by
  rcases hpart with rfl | ⟨w, rfl, hw⟩
  · have hnot : ¬ [first] <+: t := by
      rintro ⟨v, rfl⟩
      exact hfirst rfl
    rw [List.nil_append, run, run, run, run_literal_eq_none hnot]
    exact hk
  · have hrun : run (group n (seq (literal [first]) (many p))) (first :: w ++ t) k = some x := by
      rw [run, run]
      change run (literal [first]) ([first] ++ (w ++ t)) _ = some x
      rw [run_literal_append, run]
      refine runMany_eq_some_iff.mpr ⟨w, t, rfl, hw, ?_, fun a b ht hne hall => ?_⟩
      · rw [take_length_sub (first :: w) t]
        exact hk
      · exact absurd hall (not_all_of_head? hstop ht hne)
    rw [run, hrun]
    rfl

/-- A port is matched as far as it goes. -/
theorem run_parsePort {port t : Bytes} {k : Captures UInt8 → Bytes → Option (Captures UInt8)}
    {x : Captures UInt8} (hport : PortShape port) (hcolon : t.head? ≠ some colon)
    (hstop : ∀ c, t.head? = some c → isDigit c = false) (hk : k (capture 5 port) t = some x) :
    run (opt (group 5 (seq (literal [colon]) (many1 isDigit)))) (port ++ t) k = some x := by
  rcases hport with rfl | ⟨d, rfl, hne, hd⟩
  · have hnot : ¬ [colon] <+: t := by
      rintro ⟨v, rfl⟩
      exact hcolon rfl
    rw [List.nil_append, run, run, run, run_literal_eq_none hnot]
    exact hk
  · have hrun : run (group 5 (seq (literal [colon]) (many1 isDigit))) (colon :: d ++ t) k =
        some x := by
      rw [run, run]
      change run (literal [colon]) ([colon] ++ (d ++ t)) _ = some x
      rw [run_literal_append]
      cases d with
      | nil => exact absurd rfl hne
      | cons c d =>
          have hc : isDigit c = true := hd c List.mem_cons_self
          simp only [many1, run, List.cons_append, hc, if_true]
          refine runMany_eq_some_iff.mpr ⟨d, t, rfl,
            fun e he => hd e (List.mem_cons_of_mem c he), ?_, fun a b ht hne hall => ?_⟩
          · have htake := take_length_sub (colon :: c :: d) t
            simp only [List.cons_append] at htake
            rw [htake]
            exact hk
          · exact absurd hall (not_all_of_head? hstop ht hne)
    rw [run, hrun]
    rfl

/-! ### The tail -/

/-- The path, the query and the fragment can start with this text. -/
def TailStart (t : Bytes) : Prop :=
  t = [] ∨ t.head? = some slash ∨ t.head? = some question ∨ t.head? = some hash

/-- What follows decides how an empty part begins. -/
theorem TailShape.head? {first : UInt8} {p : UInt8 → Bool} {part t : Bytes}
    (h : TailShape first p part) :
    (part ++ t).head? = t.head? ∧ part = [] ∨ (part ++ t).head? = some first := by
  rcases h with rfl | ⟨w, rfl, -⟩
  · exact .inl ⟨rfl, rfl⟩
  · exact .inr rfl

/-- The path, the query and the fragment are what stands behind the host. -/
theorem tailStart_append {path query fragment : Bytes} (hpath : TailShape slash isPathChar path)
    (hquery : TailShape question isQueryChar query) (hfragment : TailShape hash isAny fragment) :
    TailStart (path ++ (query ++ fragment)) := by
  rcases hpath with rfl | ⟨w, rfl, -⟩
  · rcases hquery with rfl | ⟨w, rfl, -⟩
    · rcases hfragment with rfl | ⟨w, rfl, -⟩
      · exact .inl rfl
      · exact .inr (.inr (.inr rfl))
    · exact .inr (.inr (.inl rfl))
  · exact .inr (.inl rfl)

/-- They are matched as they are. -/
theorem tailCont_eq (m₀ m : Captures UInt8) {path query fragment : Bytes}
    (hpath : TailShape slash isPathChar path) (hquery : TailShape question isQueryChar query)
    (hfragment : TailShape hash isAny fragment) :
    tailCont m₀ m (path ++ (query ++ fragment)) =
      some (m₀ ++ (m ++ (capture 6 path ++ (capture 7 query ++ capture 8 fragment)))) := by
  have hq : (query ++ fragment).head? = none ∨ (query ++ fragment).head? = some question ∨
      (query ++ fragment).head? = some hash := by
    rcases hquery with rfl | ⟨w, rfl, -⟩
    · rcases hfragment with rfl | ⟨w, rfl, -⟩
      · exact .inl rfl
      · exact .inr (.inr rfl)
    · exact .inr (.inl rfl)
  have hf : fragment.head? = none ∨ fragment.head? = some hash := by
    rcases hfragment with rfl | ⟨w, rfl, -⟩
    · exact .inl rfl
    · exact .inr rfl
  rw [tailCont, parseTail, run]
  refine run_tailGroup hpath ?_ ?_ ?_
  · rcases hq with h | h | h <;> simp [h, hash, question, slash]
  · rcases hq with h | h | h <;> simp [h, isPathChar]
  rw [run]
  refine run_tailGroup hquery ?_ ?_ ?_
  · rcases hf with h | h <;> simp [h, hash, question]
  · rcases hf with h | h <;> simp [h, isQueryChar]
  conv_lhs => arg 2; rw [← List.append_nil fragment]
  refine run_tailGroup hfragment (by simp) (by simp) ?_
  rfl

/-- The characters of a class behind the first one, and what stops them. -/
theorem tailShape_split (first : UInt8) (p : UInt8 → Bool) (t : Bytes) :
    ∃ part rest, first :: t = part ++ rest ∧ TailShape first p part ∧
      ∀ c, rest.head? = some c → p c = false := by
  refine ⟨first :: t.takeWhile p, t.dropWhile p, ?_,
    .inr ⟨_, rfl, fun c hc => List.mem_takeWhile_imp hc⟩, fun c hc => ?_⟩
  · rw [List.cons_append, List.takeWhile_append_dropWhile]
  · have h := List.head?_dropWhile_not p t
    rw [hc] at h
    simpa using h

/-- A text that starts like a tail is one, if no line feed stops the fragment. -/
theorem tailStart_split {t : Bytes} (h : TailStart t) (hany : ∀ c ∈ t, isAny c = true) :
    ∃ path query fragment, TailShape slash isPathChar path ∧
      TailShape question isQueryChar query ∧ TailShape hash isAny fragment ∧
      t = path ++ (query ++ fragment) := by
  have hfragment {t : Bytes} (h : t = [] ∨ t.head? = some hash)
      (hany : ∀ c ∈ t, isAny c = true) : TailShape hash isAny t := by
    rcases h with h | h
    · exact .inl h
    · obtain ⟨v, rfl⟩ := List.head?_eq_some_iff.mp h
      exact .inr ⟨v, rfl, fun c hc => hany c (List.mem_cons_of_mem _ hc)⟩
  have hquery {t : Bytes} (h : t = [] ∨ t.head? = some question ∨ t.head? = some hash)
      (hany : ∀ c ∈ t, isAny c = true) : ∃ query fragment,
        TailShape question isQueryChar query ∧ TailShape hash isAny fragment ∧
          t = query ++ fragment := by
    rcases h with h | h | h
    · exact ⟨[], t, .inl rfl, hfragment (.inl h) hany, rfl⟩
    · obtain ⟨v, rfl⟩ := List.head?_eq_some_iff.mp h
      obtain ⟨query, rest, hsplit, hshape, hstop⟩ := tailShape_split question isQueryChar v
      refine ⟨query, rest, hshape, hfragment ?_ fun c hc => hany c ?_, hsplit⟩
      · cases rest with
        | nil => exact .inl rfl
        | cons c rest => exact .inr (by simpa [isQueryChar] using hstop c rfl)
      · rw [hsplit]
        exact List.mem_append_right _ hc
    · exact ⟨[], t, .inl rfl, hfragment (.inr h) hany, rfl⟩
  by_cases hslash : t.head? = some slash
  · obtain ⟨v, rfl⟩ := List.head?_eq_some_iff.mp hslash
    obtain ⟨path, rest, hsplit, hshape, hstop⟩ := tailShape_split slash isPathChar v
    have hrest : rest = [] ∨ rest.head? = some question ∨ rest.head? = some hash := by
      cases rest with
      | nil => exact .inl rfl
      | cons c rest =>
          have hc := hstop c rfl
          simp only [isPathChar, Bool.and_eq_false_iff, bne_eq_false_iff_eq] at hc
          exact .inr (hc.symm.imp (by simp) (by simp))
    obtain ⟨query, fragment, hq, hf, rfl⟩ := hquery hrest fun c hc => hany c (by
      rw [hsplit]
      exact List.mem_append_right _ hc)
    exact ⟨path, query, fragment, hshape, hq, hf, hsplit⟩
  · obtain ⟨query, fragment, hq, hf, rfl⟩ :=
      hquery (h.imp_right fun h => h.resolve_left hslash) hany
    exact ⟨[], query, fragment, .inl rfl, hq, hf, rfl⟩

/-- The end of the text is matched if it can begin there. -/
theorem tailCont_isSome (m₀ m : Captures UInt8) {t : Bytes} (hany : ∀ c ∈ t, isAny c = true) :
    (tailCont m₀ m t).isSome = true ↔ TailStart t := by
  constructor
  · intro h
    obtain ⟨s₁, s₂, m', rfl, hm, hacc⟩ := run_isSome_iff.mp h
    obtain ⟨path, query, fragment, hp, hq, hf, rfl, -⟩ := matches_parseTail hm
    cases s₂ with
    | nil =>
        rw [List.append_nil]
        exact tailStart_append hp hq hf
    | cons c s => simp [accept] at hacc
  · intro h
    obtain ⟨path, query, fragment, hp, hq, hf, rfl⟩ := tailStart_split h hany
    rw [tailCont_eq m₀ m hp hq hf]
    rfl

/-! ### The host -/

/-- A port and a tail, or just a tail. -/
def BehindHost (t : Bytes) : Prop := ∃ port rest, t = port ++ rest ∧ PortShape port ∧ TailStart rest

/-- A nonempty host, with what may follow it. -/
def HostLike (t : Bytes) : Prop :=
  ∃ host rest, t = host ++ rest ∧ host ≠ [] ∧ (∀ c ∈ host, isHostChar c = true) ∧ BehindHost rest

/-- A port and the end of the text are matched if they can begin there. -/
theorem portCont_isSome {k : Captures UInt8 → Bytes → Option (Captures UInt8)} {t : Bytes}
    (hk : ∀ m s, (∀ c ∈ s, isAny c = true) → ((k m s).isSome = true ↔ TailStart s))
    (hany : ∀ c ∈ t, isAny c = true) :
    (run (opt (group 5 (seq (literal [colon]) (many1 isDigit)))) t k).isSome = true ↔
      BehindHost t := by
  rw [run_isSome_iff]
  constructor
  · rintro ⟨port, rest, m, rfl, hm, hsome⟩
    rw [hk _ _ fun c hc => hany c (List.mem_append_right _ hc)] at hsome
    exact ⟨port, rest, rfl, (matches_parsePort hm).1, hsome⟩
  · rintro ⟨port, rest, rfl, hport, hrest⟩
    have hsome (m : Captures UInt8) : (k m rest).isSome = true :=
      (hk _ _ fun c hc => hany c (List.mem_append_right _ hc)).mpr hrest
    rcases hport with rfl | ⟨d, rfl, hne, hd⟩
    · exact ⟨[], rest, [], rfl, .inr ⟨rfl, rfl⟩, hsome _⟩
    · refine ⟨colon :: d, rest, [(5, colon :: d)], rfl, .inl ⟨[], ?_, rfl⟩, hsome _⟩
      exact ⟨[colon], [], d, [], matches_literal_self [colon], matches_many1_of hne hd, rfl, rfl⟩

/-- What follows a host matches if it is a port and the start of a tail. -/
theorem behindCont_isSome (m₀ m m' : Captures UInt8) {t : Bytes}
    (hany : ∀ c ∈ t, isAny c = true) :
    (run (opt (group 5 (seq (literal [colon]) (many1 isDigit)))) t
        fun m'' s => tailCont m₀ (m ++ (m' ++ m'')) s).isSome = true ↔ BehindHost t :=
  portCont_isSome (fun _ _ h => tailCont_isSome _ _ h) hany

/-- The text behind the user is matched if it is like a host. -/
theorem hostCont_isSome (m₀ m : Captures UInt8) {t : Bytes} (hany : ∀ c ∈ t, isAny c = true) :
    (hostCont m₀ m t).isSome = true ↔ HostLike t := by
  rw [hostCont, parseHost, run, run_isSome_iff]
  constructor
  · rintro ⟨host, rest, m', rfl, ⟨_, hm, rfl⟩, hsome⟩
    obtain ⟨hne, hall, rfl⟩ := matches_many1 hm
    rw [behindCont_isSome _ _ _ fun c hc => hany c (List.mem_append_right _ hc)] at hsome
    exact ⟨host, rest, rfl, hne, hall, hsome⟩
  · rintro ⟨host, rest, rfl, hne, hall, hrest⟩
    refine ⟨host, rest, [(4, host)], rfl, ⟨[], ?_, rfl⟩,
      (behindCont_isSome _ _ _ fun c hc => hany c (List.mem_append_right _ hc)).mpr hrest⟩
    exact matches_many1_of hne hall

/-- What a match behind the user captures: the host is the longest one that lets the rest of
the text match. -/
theorem hostCont_some {m₀ m y : Captures UInt8} {t : Bytes} (hany : ∀ c ∈ t, isAny c = true)
    (h : hostCont m₀ m t = some y) :
    ∃ host rest port path query fragment, t = host ++ rest ∧ host ≠ [] ∧
      y = m₀ ++ (m ++ (capture 4 host ++ (capture 5 port ++ (capture 6 path ++
        (capture 7 query ++ capture 8 fragment))))) ∧
      ∀ a b, rest = a ++ b → a ≠ [] → (∀ c ∈ a, isHostChar c = true) → ¬ BehindHost b := by
  rw [hostCont, parseHost, run, run_group_many1_eq_some_iff] at h
  obtain ⟨host, rest, rfl, hne, hall, hk, hlonger⟩ := h
  have hrest : ∀ c ∈ rest, isAny c = true := fun c hc => hany c (List.mem_append_right _ hc)
  obtain ⟨port, s₂, m', rfl, hm, htail⟩ := run_sound hk
  obtain ⟨-, rfl⟩ := matches_parsePort hm
  obtain ⟨s₁, s₃, m', rfl, hm', hacc⟩ := run_sound htail
  obtain ⟨path, query, fragment, -, -, -, rfl, rfl⟩ := matches_parseTail hm'
  refine ⟨host, _, port, path, query, fragment, rfl, hne, ?_, fun a b hab ha hchars hb => ?_⟩
  · cases s₃ with
    | nil =>
        rw [accept, List.isEmpty_nil, if_pos rfl, Option.some.injEq] at hacc
        rw [← hacc, capture_of_ne_nil 4 hne]
        simp [List.append_assoc]
    | cons c s => simp [accept] at hacc
  · have hbany : ∀ c ∈ b, isAny c = true := fun c hc => hrest c (by
      rw [hab]
      exact List.mem_append_right _ hc)
    have hsome := (behindCont_isSome m₀ m [(4, host ++ a)] hbany).mpr hb
    have hnone := hlonger a b hab ha hchars
    rw [hnone] at hsome
    simp at hsome

/-- The host of segments is found if nothing behind it can be read as more of it. -/
theorem hostCont_eq (m₀ m : Captures UInt8) {host port path query fragment : Bytes}
    (hne : host ≠ []) (hhost : ∀ c ∈ host, isHostChar c = true) (hport : PortShape port)
    (hpath : TailShape slash isPathChar path) (hquery : TailShape question isQueryChar query)
    (hfragment : TailShape hash isAny fragment)
    (hany : ∀ c ∈ port ++ (path ++ (query ++ fragment)), isAny c = true)
    (hlike : ¬ HostLike (port ++ (path ++ (query ++ fragment)))) :
    hostCont m₀ m (host ++ (port ++ (path ++ (query ++ fragment)))) =
      some (m₀ ++ (m ++ (capture 4 host ++ (capture 5 port ++ (capture 6 path ++
        (capture 7 query ++ capture 8 fragment)))))) := by
  rw [hostCont, parseHost, run, run_group_many1_eq_some_iff]
  refine ⟨host, _, rfl, hne, hhost, ?_, fun a b hab ha hchars => ?_⟩
  · have hstart := tailStart_append hpath hquery hfragment
    refine run_parsePort hport ?_ ?_ ?_
    · rcases hstart with h | h | h | h <;> simp [h] <;> decide
    · rcases hstart with h | h | h | h <;> simp [h] <;> decide
    · rw [tailCont_eq _ _ hpath hquery hfragment, capture_of_ne_nil 4 hne]
      simp [List.append_assoc]
  · by_contra hsome
    have hbany : ∀ c ∈ b, isAny c = true := fun c hc => hany c (by
      rw [hab]
      exact List.mem_append_right _ hc)
    refine hlike ⟨a, b, hab, ha, hchars, (behindCont_isSome m₀ m [(4, host ++ a)] hbany).mp ?_⟩
    exact Option.ne_none_iff_isSome.mp hsome

/-! ### The user -/

/-- A user with the sign behind it, with what may follow it. -/
def UserLike (t : Bytes) : Prop :=
  ∃ user password rest, t = user ++ (password ++ (atSign :: rest)) ∧ user ≠ [] ∧
    (∀ c ∈ user, isHostChar c = true) ∧ (∀ c ∈ password, isPasswordChar c = true) ∧ HostLike rest

/-- The text behind the slashes is matched if it is like a user or a host. -/
theorem userCont_isSome (m₀ : Captures UInt8) {t : Bytes} (hany : ∀ c ∈ t, isAny c = true) :
    (run parseUser t (hostCont m₀)).isSome = true ↔ UserLike t := by
  rw [run_isSome_iff]
  constructor
  · rintro ⟨_, rest, _, rfl, ⟨user, _, _, _, ⟨_, huser, rfl⟩, ⟨_, ⟨password, _, _, _, ⟨hp, rfl⟩,
      hat, rfl, rfl⟩, rfl⟩, rfl, rfl⟩, hsome⟩
    obtain ⟨hne, hall, rfl⟩ := matches_many1 huser
    obtain ⟨rfl, rfl⟩ := matches_literal hat
    rw [hostCont_isSome _ _ fun c hc => hany c (List.mem_append_right _ hc)] at hsome
    exact ⟨user, password, rest, by simp, hne, hall, hp, hsome⟩
  · rintro ⟨user, password, rest, rfl, hne, hall, hp, hrest⟩
    refine ⟨user ++ (password ++ [atSign]), rest, [(2, user), (3, password ++ [atSign])],
      by simp, ⟨user, [(2, user)], password ++ [atSign], [(3, password ++ [atSign])],
        ⟨[], ?_, rfl⟩, ⟨[], ⟨password, [], [atSign], [], ⟨hp, rfl⟩,
          matches_literal_self [atSign], rfl, rfl⟩,
          rfl⟩, rfl, rfl⟩, ?_⟩
    · exact matches_many1_of hne hall
    · rw [hostCont_isSome]
      · exact hrest
      · exact fun c hc => hany c (by simp [hc])

/-- A match that starts with a user captures a user that is not empty, and that goes on as
far as it can: behind it there is a colon or the sign. -/
theorem userCont_some {m₀ y : Captures UInt8} {t : Bytes} (hany : ∀ c ∈ t, isAny c = true)
    (h : run parseUser t (hostCont m₀) = some y) :
    ∃ user password host port path query fragment, user ≠ [] ∧
      (password = [] ∨ password.head? = some colon) ∧
      y = m₀ ++ (capture 2 user ++ (capture 3 (password ++ [atSign]) ++ (capture 4 host ++
        (capture 5 port ++ (capture 6 path ++ (capture 7 query ++ capture 8 fragment)))))) := by
  rw [parseUser, run, run_group_many1_eq_some_iff] at h
  obtain ⟨user, _, rfl, hne, -, hk, hlonger⟩ := h
  obtain ⟨_, rest, _, rfl, ⟨_, ⟨password, _, _, _, ⟨hp, rfl⟩, hat, rfl, rfl⟩, rfl⟩, hrest⟩ :=
    run_sound hk
  obtain ⟨rfl, rfl⟩ := matches_literal hat
  have hanyRest : ∀ c ∈ rest, isAny c = true := fun c hc =>
    hany c (List.mem_append_right _ (List.mem_append_right _ hc))
  obtain ⟨host, _, port, path, query, fragment, -, -, rfl, -⟩ := hostCont_some hanyRest hrest
  refine ⟨user, password, host, port, path, query, fragment, hne, ?_, ?_⟩
  · cases password with
    | nil => exact .inl rfl
    | cons c password =>
        by_contra hcolon
        have hc : isHostChar c = true := by
          have hchar := hp c List.mem_cons_self
          simp only [isPasswordChar, isHostChar, Bool.and_eq_true, bne_iff_ne] at hchar ⊢
          exact ⟨⟨hchar.1, fun h => hcolon (.inr (congrArg some h))⟩, hchar.2⟩
        have hnone := hlonger [c] (password ++ [atSign] ++ rest) rfl (by simp) (by simpa using hc)
        have hsome : (run (group 3 (seq (many isPasswordChar) (literal [atSign])))
            (password ++ [atSign] ++ rest)
            fun m s => hostCont m₀ ([(2, user ++ [c])] ++ m) s).isSome = true := by
          refine run_isSome_iff.mpr ⟨password ++ [atSign], rest, [(3, password ++ [atSign])], rfl,
            ⟨[], ⟨password, [], [atSign], [], ⟨fun d hd => hp d (List.mem_cons_of_mem c hd), rfl⟩,
              matches_literal_self [atSign], rfl,
              rfl⟩, rfl⟩, ?_⟩
          rw [hostCont_isSome _ _ hanyRest, ← hostCont_isSome m₀ _ hanyRest, hrest]
          rfl
        rw [hnone] at hsome
        cases hsome
  · rw [capture_of_ne_nil 2 hne, capture_of_ne_nil 3 (by simp)]
    simp

/-- The user of segments is found if the host behind it is. A password starts with a colon. -/
theorem userCont_eq {m₀ y : Captures UInt8} {user password rest : Bytes} (hne : user ≠ [])
    (huser : ∀ c ∈ user, isHostChar c = true) (hpassword : ∀ c ∈ password, isPasswordChar c = true)
    (hcolon : password = [] ∨ password.head? = some colon)
    (h : hostCont m₀ (capture 2 user ++ capture 3 (password ++ [atSign])) rest = some y) :
    run parseUser (user ++ (password ++ (atSign :: rest))) (hostCont m₀) = some y := by
  rw [parseUser, run, run_group_many1_eq_some_iff]
  refine ⟨user, _, rfl, hne, huser, ?_, fun a b hab ha hchars => ?_⟩
  · rw [run, run, run]
    refine runMany_eq_some_iff.mpr ⟨password, atSign :: rest, rfl, hpassword, ?_,
      fun a b hab ha hchars => ?_⟩
    · have hlit := run_literal_append [atSign] rest (fun m s =>
        hostCont m₀ ([(2, user)] ++ (3, (password ++ atSign :: rest).take
          ((password ++ atSign :: rest).length - s.length)) :: ([] ++ m)) s)
      have htake := take_length_sub (password ++ [atSign]) rest
      rw [List.append_assoc, List.singleton_append] at htake
      rw [capture_of_ne_nil 2 hne, capture_of_ne_nil 3 (by simp)] at h
      refine hlit.trans ?_
      rw [htake]
      exact h
    · refine absurd hchars (not_all_of_head? (t := atSign :: rest) ?_ hab ha)
      simp [isPasswordChar]
  · refine absurd hchars (not_all_of_head? ?_ hab ha)
    rcases hcolon with rfl | hcolon
    · simp [isHostChar]
    · obtain ⟨v, rfl⟩ := List.head?_eq_some_iff.mp hcolon
      simp [isHostChar]

/-! ### Behind the scheme -/

namespace Segments

/-- The segments behind the host. -/
def behindHost (s : Segments) : Bytes := s.port ++ (s.path ++ (s.query ++ s.fragment))

/-- The segments behind the scheme. -/
def behindScheme (s : Segments) : Bytes := s.user ++ (s.password ++ (s.host ++ s.behindHost))

/-- The parser can tell the host and the user from what is behind them. -/
def Readable (s : Segments) : Prop :=
  ¬ HostLike s.behindHost ∧ (s.user = [] → ¬ UserLike (s.host ++ s.behindHost))

end Segments

/-- Segments as the setters make them: the regular expression can match them, and a password
starts with a colon. -/
structure Assembled (s : Segments) : Prop extends Parsed s where
  password : s.password = [] ∨ ∃ p, s.password = p ++ [atSign] ∧
    (∀ c ∈ p, isPasswordChar c = true) ∧ (p = [] ∨ p.head? = some colon)

/-- A host can be put in front. -/
theorem HostLike.append {host t : Bytes} (h : HostLike t)
    (hhost : ∀ c ∈ host, isHostChar c = true) : HostLike (host ++ t) := by
  obtain ⟨a, b, rfl, hne, ha, hb⟩ := h
  refine ⟨host ++ a, b, by rw [List.append_assoc], by simp [hne], fun c hc => ?_, hb⟩
  exact (List.mem_append.mp hc).elim (hhost c) (ha c)

/-- **Readable segments.** The parser finds them again behind the scheme. -/
theorem authority_good {s : Segments} (h : Assembled s)
    (hany : ∀ c ∈ s.behindScheme, isAny c = true) (hread : s.Readable) :
    authorityCont (capture 1 s.scheme) s.behindScheme = some (captures s) := by
  have hanyHost : ∀ c ∈ s.host ++ s.behindHost, isAny c = true := fun c hc =>
    hany c (List.mem_append_right _ (List.mem_append_right _ hc))
  have hanyTail : ∀ c ∈ s.behindHost, isAny c = true := fun c hc =>
    hanyHost c (List.mem_append_right _ hc)
  have hfound (m : Captures UInt8) (hne : s.host ≠ []) :=
    hostCont_eq (capture 1 s.scheme) m hne h.host h.port h.path h.query h.fragment hanyTail hread.1
  rw [authorityCont]
  by_cases hu : s.user = []
  · have hp := h.user.user_iff.mp hu
    have hnone : run parseUser s.behindScheme (hostCont (capture 1 s.scheme)) = none := by
      rw [← Option.not_isSome_iff_eq_none, userCont_isSome _ hany, Segments.behindScheme, hu, hp]
      exact hread.2 hu
    rw [hnone, Option.none_or, Segments.behindScheme, hu, hp, List.nil_append, List.nil_append]
    by_cases hh : s.host = []
    · have hport := (h.no_host hh).2
      have hnone : hostCont (capture 1 s.scheme) [] (s.host ++ s.behindHost) = none := by
        rw [← Option.not_isSome_iff_eq_none, hostCont_isSome _ _ hanyHost, hh]
        exact hread.1
      rw [hnone, Option.none_or, hh, Segments.behindHost, hport, List.nil_append,
        List.nil_append, tailCont_eq _ _ h.path h.query h.fragment]
      simp [captures, hu, hp, hh, hport]
    · rw [Segments.behindHost, hfound [] hh]
      simp [captures, hu, hp]
  · have hh : s.host ≠ [] := fun hh => hu (h.no_host hh).1
    rcases h.password with hp | ⟨p, hp, hchars, hcolon⟩
    · exact absurd (h.user.user_iff.mpr hp) hu
    · have hfind := userCont_eq hu h.user.user_chars hchars hcolon (hfound _ hh)
      have hsplit : s.behindScheme = s.user ++ (p ++ (atSign :: (s.host ++ s.behindHost))) := by
        rw [Segments.behindScheme, hp]
        simp
      rw [hsplit, Segments.behindHost, hfind]
      simp [captures, hp]

/-- **Other segments.** The parser finds a user where there is none, or more of a host. -/
theorem authority_bad {s : Segments} (h : Assembled s)
    (hany : ∀ c ∈ s.behindScheme, isAny c = true) (hread : ¬ s.Readable) :
    ∃ s' : Segments, authorityCont (capture 1 s.scheme) s.behindScheme = some (captures s') ∧
      (s'.user.length ≠ s.user.length ∨ s'.host.length ≠ s.host.length) := by
  have hanyHost : ∀ c ∈ s.host ++ s.behindHost, isAny c = true := fun c hc =>
    hany c (List.mem_append_right _ (List.mem_append_right _ hc))
  -- a text that goes on like a host makes the host longer
  have hlonger (user password : Bytes) (hlike : HostLike s.behindHost) : ∃ s' : Segments,
      hostCont (capture 1 s.scheme) (capture 2 user ++ capture 3 password)
          (s.host ++ s.behindHost) = some (captures s') ∧
        s'.host.length ≠ s.host.length := by
    have hsome := (hostCont_isSome (capture 1 s.scheme) (capture 2 user ++ capture 3 password)
      hanyHost).mpr (hlike.append h.host)
    obtain ⟨y, hy⟩ := Option.isSome_iff_exists.mp hsome
    obtain ⟨host, rest, port, path, query, fragment, hsplit, hne, rfl, hmax⟩ :=
      hostCont_some hanyHost hy
    refine ⟨⟨s.scheme, user, password, host, port, path, query, fragment⟩, ?_, fun hlen => ?_⟩
    · rw [hy]
      simp [captures]
    · obtain ⟨a, b, hab, ha, hchars, hb⟩ := hlike
      have hrest := (List.append_inj hsplit hlen.symm).2
      exact hmax a b (hrest.symm.trans hab) ha hchars hb
  rw [authorityCont]
  by_cases hu : s.user = []
  · have hp := h.user.user_iff.mp hu
    have hsplit : s.behindScheme = s.host ++ s.behindHost := by
      rw [Segments.behindScheme, hu, hp]
      rfl
    rw [hsplit]
    by_cases hlike : UserLike (s.host ++ s.behindHost)
    · obtain ⟨y, hy⟩ := Option.isSome_iff_exists.mp
        ((userCont_isSome (capture 1 s.scheme) hanyHost).mpr hlike)
      obtain ⟨user, password, host, port, path, query, fragment, hne, -, rfl⟩ :=
        userCont_some hanyHost hy
      refine ⟨⟨s.scheme, user, password ++ [atSign], host, port, path, query, fragment⟩, ?_,
        .inl ?_⟩
      · rw [hy]
        simp [captures]
      · simpa [hu] using hne
    · have hhost : HostLike s.behindHost := by
        by_contra hnot
        exact hread ⟨hnot, fun _ => hlike⟩
      have hnone : run parseUser (s.host ++ s.behindHost)
          (hostCont (capture 1 s.scheme)) = none := by
        rw [← Option.not_isSome_iff_eq_none, userCont_isSome _ hanyHost]
        exact hlike
      obtain ⟨s', hs', hlen⟩ := hlonger [] [] hhost
      refine ⟨s', ?_, .inr hlen⟩
      rw [hnone, Option.none_or]
      exact (congrArg (Option.or · _) hs').trans rfl
  · have hhost : HostLike s.behindHost := by
      by_contra hnot
      exact hread ⟨hnot, fun hnil => absurd hnil hu⟩
    rcases h.password with hp | ⟨p, hp, hchars, hcolon⟩
    · exact absurd (h.user.user_iff.mpr hp) hu
    · obtain ⟨s', hs', hlen⟩ := hlonger s.user (p ++ [atSign]) hhost
      have hfind := userCont_eq hu h.user.user_chars hchars hcolon hs'
      have hsplit : s.behindScheme = s.user ++ (p ++ (atSign :: (s.host ++ s.behindHost))) := by
        rw [Segments.behindScheme, hp]
        simp
      refine ⟨s', ?_, .inr hlen⟩
      rw [hsplit, hfind]
      rfl

/-! ### The whole text -/

/-- A lower case character is matched also without regard to the case. -/
theorem icase_of_lower {p : UInt8 → Bool} {c : UInt8} (h : p c = true) (hc : toLower c = c) :
    icase p c = true := by
  rw [icase, hc]
  exact h

/-- A lower case letter stays as it is. -/
theorem toLower_of_isLower {c : UInt8} (h : isLower c = true) : toLower c = c := by
  simp only [isLower, Bool.and_eq_true, decide_eq_true_eq, UInt8.le_iff_toNat_le] at h
  rw [toLower, if_neg]
  simp only [Bool.and_eq_true, decide_eq_true_eq, UInt8.le_iff_toNat_le, not_and, Nat.not_le]
  intro _
  exact Nat.lt_of_lt_of_le (by decide) h.1

/-- So does any character of a canonical scheme. -/
theorem toLower_of_isSchemeChar {c : UInt8} (h : isSchemeChar c = true) : toLower c = c := by
  simp only [isSchemeChar, Bool.or_eq_true] at h
  rcases h with (((h | h) | h) | h) | h
  · exact toLower_of_isLower h
  · simp only [isDigit, Bool.and_eq_true, decide_eq_true_eq, UInt8.le_iff_toNat_le] at h
    rw [toLower, if_neg]
    simp only [Bool.and_eq_true, decide_eq_true_eq, UInt8.le_iff_toNat_le, not_and]
    intro hle
    exact absurd (hle.trans h.2) (by decide)
  all_goals
    rw [beq_iff_eq.mp h]
    decide

/-- A scheme as the setter makes it, in front of a text that does not continue it. -/
def SchemeShape (scheme rest : Bytes) : Prop :=
  ∃ name, SchemeName name ∧ (scheme = name ++ [colon] ∧ ¬ [slash, slash] <+: rest ∨
    scheme = name ++ [colon, slash, slash])

/-- The scheme goes on to the slashes behind the colon, if what is behind it matches. -/
theorem run_parseScheme_of_chars {c : UInt8} {cs scheme rest : Bytes} {x : Captures UInt8}
    {k : Captures UInt8 → Bytes → Option (Captures UInt8)} (hfirst : icase isLower c = true)
    (hmany : ∀ d ∈ cs, icase isSchemeChar d = true)
    (hform : scheme = c :: cs ++ [colon] ∧ ¬ [slash, slash] <+: rest ∨
      scheme = c :: cs ++ [colon, slash, slash])
    (hk : k (capture 1 scheme) rest = some x) : run parseScheme (scheme ++ rest) k = some x := by
  obtain ⟨tail, rfl, htail⟩ : ∃ tail, scheme = c :: (cs ++ colon :: tail) ∧
      run (opt (literal [slash, slash])) (tail ++ rest) (fun m s =>
        k [(1, (c :: (cs ++ colon :: (tail ++ rest))).take
          ((c :: (cs ++ colon :: (tail ++ rest))).length - s.length))] s) = some x := by
    rcases hform with ⟨rfl, hnot⟩ | rfl
    · refine ⟨[], by simp, ?_⟩
      rw [List.nil_append, run, run_literal_eq_none hnot]
      have htake := take_length_sub (c :: (cs ++ [colon])) rest
      rw [List.cons_append, List.append_assoc, List.singleton_append] at htake
      change k [(1, _)] rest = some x
      rw [htake]
      exact hk
    · refine ⟨[slash, slash], by simp, ?_⟩
      rw [run, run_literal_append]
      have htake := take_length_sub (c :: (cs ++ [colon, slash, slash])) rest
      rw [List.cons_append, List.append_assoc] at htake
      simp only [List.cons_append, List.nil_append] at htake ⊢
      rw [htake]
      have hk' : k [(1, c :: (cs ++ [colon, slash, slash]))] rest = some x := hk
      rw [hk']
      rfl
  rw [List.cons_append, List.append_assoc, List.cons_append]
  simp only [parseScheme, run, hfirst, if_true]
  refine runMany_eq_some_iff.mpr ⟨cs, colon :: (tail ++ rest), rfl, hmany, ?_,
    fun a b hab ha hchars => ?_⟩
  · exact (run_literal_append [colon] (tail ++ rest) _).trans htail
  · refine absurd hchars (not_all_of_head? (t := colon :: (tail ++ rest)) ?_ hab ha)
    simp only [List.head?_cons, Option.some.injEq, forall_eq']
    decide

/-- The scheme is found if what is behind it matches. -/
theorem run_parseScheme {scheme rest : Bytes} {x : Captures UInt8}
    {k : Captures UInt8 → Bytes → Option (Captures UInt8)} (h : SchemeShape scheme rest)
    (hk : k (capture 1 scheme) rest = some x) :
    run parseScheme (scheme ++ rest) k = some x := by
  obtain ⟨name, ⟨c, cs, rfl, hc, hcs⟩, hform⟩ := h
  exact run_parseScheme_of_chars (icase_of_lower hc (toLower_of_isLower hc))
    (fun d hd => icase_of_lower (hcs d hd) (toLower_of_isSchemeChar (hcs d hd))) hform hk

/-- The text is the scheme and what is behind it. -/
theorem text_eq (s : Segments) : s.text = s.scheme ++ s.behindScheme := by
  simp [Segments.text, Segments.toList, Segments.behindScheme, Segments.behindHost]

/-- A character that is no control character is matched by a dot. -/
theorem isAny_of_not_isCntrl {c : UInt8} (h : isCntrl c = false) : isAny c = true := by
  rw [isAny, bne_iff_ne]
  rintro rfl
  simp [isCntrl] at h

/-- **Parsing joined segments.** The parser takes a text apart as it was joined exactly if
there are no control characters in it and the segments are readable. -/
theorem ofString_text_iff (lib : UriLibs) {s : Segments} (h : Assembled s)
    (hscheme : SchemeShape s.scheme s.behindScheme) :
    ofString lib s.text = .ok (assemble s) ↔
      (∀ c ∈ s.text, isCntrl c = false) ∧ s.Readable := by
  have hcntrl : s.text.any lib.asciiIscntrl = false ↔ ∀ c ∈ s.text, isCntrl c = false := by
    simp [lib.asciiIscntrl_eq]
  by_cases hclean : ∀ c ∈ s.text, isCntrl c = false
  swap
  · have hany : s.text.any lib.asciiIscntrl = true := by
      rwa [← hcntrl, Bool.not_eq_false] at hclean
    simp [ofString, tryParse, hany, hclean]
  have hbehind : ∀ c ∈ s.behindScheme, isAny c = true := fun c hc =>
    isAny_of_not_isCntrl (hclean c (by
      rw [text_eq]
      exact List.mem_append_right _ hc))
  have hmatch {m : Captures UInt8}
      (hm : authorityCont (capture 1 s.scheme) s.behindScheme = some m) :
      ofString lib s.text = .ok (parsed s.text m) := by
    have hrun : lib.fullMatch parsePattern s.text = some m := by
      rw [lib.fullMatch_eq, fullMatch_parsePattern, text_eq]
      exact run_parseScheme hscheme hm
    simp [ofString, tryParse, hcntrl.mpr hclean, hrun]
  rw [and_iff_right hclean]
  by_cases hread : s.Readable
  · rw [hmatch (authority_good h hbehind hread), parsed_captures]
    exact iff_of_true rfl hread
  · obtain ⟨s', hs', hlen⟩ := authority_bad h hbehind hread
    rw [hmatch hs']
    refine iff_of_false (fun heq => ?_) hread
    have h2 := count_captures s' .user
    have h4 := count_captures s' .host
    simp only [Part.index, Nat.reduceAdd, Segments.get] at h2 h4
    simp only [Except.ok.injEq, parsed, assemble, Uri.mk.injEq, h2, h4] at heq
    omega

end Uri

end RsIo
