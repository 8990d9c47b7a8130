import RsIo.SocketAddress

/-!
# Which Strings are Socket Addresses

The constructor of `SocketAddress` from a string looks at the first character, counts colons,
finds the bracket that closes, and gives the parts to `inet_pton()` and `strtoull()`. A string in
one of the documented formats is an IPv4 or IPv6 address, where an IPv6 address with a port
stands in brackets.

## Main results

* `parsePort_verdict`: which strings `parse_port` reads.
* `ofString_verdict`: which strings the constructor reads.
* `ofString_iff`: which strings the constructor takes for what they are.
-/

namespace RsIo

open StdString

/-- A result is a value if `P`, and an `std::invalid_argument` otherwise. -/
def Verdict {α : Type} (r : Except NetError α) (P : Prop) : Prop :=
  (P → ∃ a, r = .ok a) ∧ (¬ P → ∃ what quoted, r = .error (.invalidArgument what quoted))

namespace Verdict

variable {α β : Type} {r : Except NetError α} {f : α → Except NetError β} {P Q : Prop}

/-- A value meets the condition that always holds. -/
theorem ok (a : α) : Verdict (.ok a) True := ⟨fun _ => ⟨a, rfl⟩, fun h => absurd trivial h⟩

/-- An error meets the condition that never holds. -/
theorem invalid (what : String) (quoted : Bytes) :
    Verdict (.error (.invalidArgument what quoted) : Except NetError α) False :=
  ⟨False.elim, fun _ => ⟨what, quoted, rfl⟩⟩

/-- There is one condition for a result. -/
theorem unique (h : Verdict r P) : Verdict r Q ↔ (Q ↔ P) := by
  constructor
  · intro hQ
    constructor
    · intro q
      by_contra hp
      obtain ⟨a, ha⟩ := hQ.1 q
      obtain ⟨what, quoted, herr⟩ := h.2 hp
      rw [ha] at herr
      cases herr
    · intro p
      by_contra hq
      obtain ⟨a, ha⟩ := h.1 p
      obtain ⟨what, quoted, herr⟩ := hQ.2 hq
      rw [ha] at herr
      cases herr
  · intro hiff
    rwa [Verdict, hiff]

/-- The condition stays if the value is mapped. -/
theorem map (h : Verdict r P) (g : α → β) : Verdict (r.map g) P := by
  refine ⟨fun p => ?_, fun p => ?_⟩
  · obtain ⟨a, rfl⟩ := h.1 p
    exact ⟨g a, rfl⟩
  · obtain ⟨what, quoted, rfl⟩ := h.2 p
    exact ⟨what, quoted, rfl⟩

/-- Both calls have to return. -/
theorem bind (h : Verdict r P) (hf : ∀ a, Verdict (f a) Q) : Verdict (r >>= f) (P ∧ Q) := by
  by_cases p : P
  · obtain ⟨a, rfl⟩ := h.1 p
    exact ((hf a).unique).mpr (and_iff_right p)
  · obtain ⟨what, quoted, rfl⟩ := h.2 p
    exact ((invalid what quoted).unique).mpr (iff_of_false (fun hpq => p hpq.1) id)

end Verdict

namespace SocketAddress

/-! ### Ports -/

/-- A decimal number of at most 65535. -/
def IsPort (p : Bytes) : Prop :=
  p ≠ [] ∧ (∀ c ∈ p, isDigit c = true) ∧ decimalValue p ≤ 65535

/-- What `strtoull` reads to the end as a number of at most 65535: nothing at all, or a number
after spaces and a sign. A negative number wraps around. -/
def IsLoosePort (p : Bytes) : Prop :=
  p = [] ∨ ∃ sign digits, p.dropWhile isSpace = sign ++ digits ∧ digits ≠ [] ∧
    (∀ c ∈ digits, isDigit c = true) ∧
    ((sign = [] ∨ sign = [43]) ∧ decimalValue digits ≤ 65535 ∨
      sign = [45] ∧ decimalValue digits ≤ ullongMax ∧
        (2 ^ 64 - decimalValue digits) % 2 ^ 64 ≤ 65535)

/-- A port without leading zeros is a port. -/
theorem IsPort.isLoosePort {p : Bytes} (h : IsPort p) : IsLoosePort p := by
  obtain ⟨hne, hall, hvalue⟩ := h
  refine .inr ⟨[], p, ?_, hne, hall, .inl ⟨.inl rfl, hvalue⟩⟩
  obtain ⟨c, rest, rfl⟩ := List.exists_cons_of_ne_nil hne
  have hspace := (not_sign (hall c List.mem_cons_self)).1
  rw [List.dropWhile_cons_of_neg (by simp [hspace])]
  rfl

/-- A number after spaces and a sign is read to its end. -/
theorem strtoull_signed {p sign digits : Bytes} (hdrop : p.dropWhile isSpace = sign ++ digits)
    (hne : digits ≠ []) (hall : ∀ c ∈ digits, isDigit c = true)
    (hsign : sign = [] ∨ sign = [43] ∨ sign = [45]) :
    strtoull p =
      if decimalValue digits > ullongMax then ⟨ullongMax, p.length, true⟩
      else ⟨if sign = [45] then (2 ^ 64 - decimalValue digits) % 2 ^ 64 else decimalValue digits,
        p.length, false⟩ := by
  have htake : digits.takeWhile isDigit = digits := List.takeWhile_eq_self_iff.mpr hall
  have hlen : sign.length + digits.length ≤ p.length := by
    rw [← List.length_append, ← hdrop]
    exact (List.dropWhile_suffix _).length_le
  have hstop : p.length - digits.length + digits.length = p.length := by omega
  have hempty : ¬ digits.isEmpty = true := by simp [hne]
  rcases hsign with rfl | rfl | rfl
  · obtain ⟨c, rest, hc⟩ := List.exists_cons_of_ne_nil hne
    obtain ⟨-, hplus, hminus⟩ := not_sign (hall c (hc ▸ List.mem_cons_self))
    have hhead : digits.head? = some c := by rw [hc]; rfl
    have hplus' : (digits.head? == some 43) = false := by rw [hhead]; simpa using hplus
    have hminus' : (digits.head? == some 45) = false := by rw [hhead]; simpa using hminus
    simp only [strtoull, hdrop, List.nil_append, hplus', hminus', Bool.or_self, Bool.false_eq_true,
      if_false, htake, hempty, hstop]
    rfl
  · simp only [strtoull, hdrop, List.cons_append, List.nil_append, List.head?_cons, List.tail_cons]
    simp [htake, hne, hstop]
  · simp only [strtoull, hdrop, List.cons_append, List.nil_append, List.head?_cons, List.tail_cons]
    simp [htake, hne, hstop]

/-- A sign and what follows it, in which digits are looked for. -/
theorem strtoull_stop (p : Bytes) : ∃ sign rest,
    p.dropWhile isSpace = sign ++ rest ∧ (sign = [] ∨ sign = [43] ∨ sign = [45]) ∧
      (strtoull p).stop =
        if (rest.takeWhile isDigit).isEmpty then 0
        else p.length - rest.length + (rest.takeWhile isDigit).length := by
  generalize ht : p.dropWhile isSpace = t
  have hstop : (strtoull p).stop =
      let rest := if t.head? == some 43 || t.head? == some 45 then t.tail else t
      if (rest.takeWhile isDigit).isEmpty then 0
      else p.length - rest.length + (rest.takeWhile isDigit).length := by
    rw [strtoull, ht]
    dsimp only
    generalize (if t.head? == some 43 || t.head? == some 45 then t.tail else t) = rest
    split
    · rfl
    · split <;> rfl
  by_cases hsign : (t.head? == some 43 || t.head? == some 45) = true
  · rw [if_pos hsign] at hstop
    obtain ⟨c, rest, rfl⟩ : ∃ c rest, t = c :: rest := by
      cases t with
      | nil => cases hsign
      | cons c rest => exact ⟨c, rest, rfl⟩
    refine ⟨[c], rest, rfl, .inr ?_, hstop⟩
    simpa using hsign
  · rw [if_neg hsign] at hstop
    exact ⟨[], t, rfl, .inl rfl, hstop⟩

/-- What was read to the end has this form. -/
theorem isLoosePort_iff (p : Bytes) :
    IsLoosePort p ↔ ¬ ((strtoull p).isOutOfRange = true ∨ (strtoull p).stop ≠ p.length ∨
      (strtoull p).value > 65535) := by
  constructor
  · rintro (rfl | ⟨sign, digits, hdrop, hne, hall, hvalue⟩)
    · decide
    · rcases hvalue with ⟨hsign, hvalue⟩ | ⟨rfl, hmax, hvalue⟩
      · have hmax : ¬ decimalValue digits > ullongMax := by
          simp only [ullongMax]
          omega
        have hplus : sign ≠ [45] := by
          rintro rfl
          exact absurd hsign (by decide)
        rw [strtoull_signed hdrop hne hall (by tauto), if_neg hmax, if_neg hplus]
        simpa using hvalue
      · rw [strtoull_signed hdrop hne hall (.inr (.inr rfl)), if_neg (Nat.not_lt.mpr hmax),
          if_pos rfl]
        simpa using hvalue
  · intro h
    obtain ⟨hrange, hstop, hvalue⟩ : (strtoull p).isOutOfRange = false ∧
        (strtoull p).stop = p.length ∧ (strtoull p).value ≤ 65535 := by
      simpa using h
    obtain ⟨sign, rest, hdrop, hsign, hscan⟩ := strtoull_stop p
    have hle : rest.length ≤ p.length := by
      have hsuffix := (List.dropWhile_suffix isSpace (l := p)).length_le
      rw [hdrop, List.length_append] at hsuffix
      omega
    by_cases hempty : rest.takeWhile isDigit = []
    · rw [hempty, List.isEmpty_nil, if_pos rfl, hstop] at hscan
      exact .inl (List.length_eq_zero_iff.mp hscan)
    · rw [if_neg (by simpa using hempty), hstop] at hscan
      have hrest : rest.takeWhile isDigit = rest :=
        (List.takeWhile_prefix _).eq_of_length (by omega)
      rw [hrest] at hempty
      have hall := List.takeWhile_eq_self_iff.mp hrest
      rw [strtoull_signed hdrop hempty hall hsign] at hrange hvalue
      refine .inr ⟨sign, rest, hdrop, hempty, hall, ?_⟩
      split at hrange
      next => cases hrange
      next hmax =>
        rw [if_neg hmax] at hvalue
        rcases hsign with rfl | rfl | rfl
        · exact .inl ⟨.inl rfl, hvalue⟩
        · exact .inl ⟨.inr rfl, hvalue⟩
        · exact .inr ⟨rfl, Nat.le_of_not_lt hmax, hvalue⟩

/-- The strings that `parse_port` reads. -/
theorem parsePort_verdict (p : Bytes) : Verdict (parsePort p) (IsLoosePort p) := by
  rw [isLoosePort_iff, parsePort]
  split
  next h => exact ((Verdict.invalid _ _).unique).mpr (iff_of_false (not_not.mpr h) id)
  next h => exact ((Verdict.ok _).unique).mpr (iff_of_true h trivial)

end SocketAddress

/-! ### Address texts -/

/-- What is documented of `inet_pton()`: the families are known, an IPv4 address starts with a
digit and has no colon, and an IPv6 address has colons and no brackets. -/
structure InetLibs.ReadsTexts (lib : InetLibs) : Prop where
  known : ∀ family s, family = afInet ∨ family = afInet6 → ∃ b, lib.inetPton family s = .ok b
  inet : ∀ s b, lib.inetPton afInet s = .ok (some b) →
    (∃ c, s.head? = some c ∧ isDigit c = true) ∧ colon ∉ s
  inet6 : ∀ s b, lib.inetPton afInet6 s = .ok (some b) →
    2 ≤ s.count colon ∧ openBracket ∉ s ∧ closeBracket ∉ s

namespace SocketAddress

/-- The C string of `s` is an address. -/
def Reads (lib : InetLibs) (family : ℕ) (s : Bytes) : Prop :=
  ∃ b, lib.inetPton family (nullTerm s) = .ok (some b)

/-- An address, with no zero in it. -/
def IsText (lib : InetLibs) (family : ℕ) (s : Bytes) : Prop := 0 ∉ s ∧ Reads lib family s

/-- The documented formats. -/
inductive InFormat (lib : InetLibs) : Bytes → Prop
  | inet {s : Bytes} : IsText lib afInet s → InFormat lib s
  | inetPort {t p : Bytes} : IsText lib afInet t → IsPort p → InFormat lib (t ++ colon :: p)
  | bracket {t : Bytes} : IsText lib afInet6 t →
      InFormat lib (openBracket :: (t ++ [closeBracket]))
  | bracketPort {t p : Bytes} : IsText lib afInet6 t → IsPort p →
      InFormat lib (openBracket :: (t ++ closeBracket :: colon :: p))
  | inet6 {s : Bytes} : IsText lib afInet6 s → InFormat lib s

/-- What is skipped and read behind the bracket that closes. -/
def IsLooseTail (r : Bytes) : Prop := r.length ≤ 1 ∨ IsLoosePort r.tail

/-- The strings that the constructor reads. -/
inductive Accepted (lib : InetLibs) : Bytes → Prop
  | inet {s : Bytes} : colon ∉ s → Reads lib afInet s → Accepted lib s
  | inetPort {t p : Bytes} : colon ∉ t → colon ∉ p → Reads lib afInet t → IsLoosePort p →
      Accepted lib (t ++ colon :: p)
  | bracket {t r : Bytes} : closeBracket ∉ t → Reads lib afInet6 t → IsLooseTail r →
      Accepted lib (openBracket :: (t ++ closeBracket :: r))
  | inet6 {s : Bytes} : StartsWithDigit s → 2 ≤ s.count colon → Reads lib afInet6 s →
      Accepted lib s

/-- A separator that is not in what stands in front of it is found there. -/
theorem split_unique {c : UInt8} {a b a' b' : Bytes} (ha : c ∉ a) (ha' : c ∉ a')
    (h : a ++ c :: b = a' ++ c :: b') : a = a' ∧ b = b' := by
  induction a generalizing a' with
  | nil =>
      cases a' with
      | nil => exact ⟨rfl, (List.cons.inj h).2⟩
      | cons d a' =>
          obtain ⟨rfl, -⟩ := List.cons.inj h
          exact absurd List.mem_cons_self ha'
  | cons d a ih =>
      cases a' with
      | nil =>
          obtain ⟨rfl, -⟩ := List.cons.inj h
          exact absurd List.mem_cons_self ha
      | cons e a' =>
          obtain ⟨rfl, hrest⟩ := List.cons.inj h
          obtain ⟨rfl, rfl⟩ := ih (fun hc => ha (List.mem_cons_of_mem _ hc))
            (fun hc => ha' (List.mem_cons_of_mem _ hc)) hrest
          exact ⟨rfl, rfl⟩

section

variable {lib : InetLibs} (hlib : lib.ReadsTexts) {s t p r : Bytes}
include hlib

/-- What reads as an IPv4 address starts with a digit. -/
theorem Reads.startsWithDigit (h : Reads lib afInet t) : StartsWithDigit t := by
  obtain ⟨b, hb⟩ := h
  obtain ⟨⟨c, hc, hdigit⟩, -⟩ := hlib.inet _ b hb
  refine ⟨c, ?_, hdigit⟩
  cases t with
  | nil => cases hc
  | cons d t =>
      rw [nullTerm, List.takeWhile_cons] at hc
      split at hc
      · exact hc
      · cases hc

/-- The text of an IPv4 address has no colon. -/
theorem IsText.colon_notMem (h : IsText lib afInet t) : colon ∉ t := by
  obtain ⟨hzero, b, hb⟩ := h
  rw [nullTerm_of_notMem hzero] at hb
  exact (hlib.inet t b hb).2

/-- The text of an IPv6 address has two colons and no bracket. -/
theorem IsText.inet6 (h : IsText lib afInet6 t) :
    2 ≤ t.count colon ∧ openBracket ∉ t ∧ closeBracket ∉ t := by
  obtain ⟨hzero, b, hb⟩ := h
  rw [nullTerm_of_notMem hzero] at hb
  exact hlib.inet6 t b hb

/-- An address is read exactly if `inet_pton` accepts the string. -/
theorem inetBytes_verdict {family : ℕ} (hfamily : family = afInet ∨ family = afInet6)
    (what : String) (s : Bytes) : Verdict (inetBytes lib family what s) (Reads lib family s) := by
  rw [inetBytes]
  split
  next err hrun =>
    obtain ⟨b, hb⟩ := hlib.known family (nullTerm s) hfamily
    rw [hrun] at hb
    cases hb
  next hrun =>
    refine ((Verdict.invalid what s).unique).mpr (iff_of_false (fun hreads => ?_) id)
    obtain ⟨b, hb⟩ := hreads
    rw [hrun] at hb
    cases hb
  next b hrun => exact ((Verdict.ok _).unique).mpr (iff_of_true ⟨b, hrun⟩ trivial)

/-- An IPv4 address is read exactly if `inet_pton` accepts the string. -/
theorem ofString4_verdict (s : Bytes) : Verdict (IPv4.ofString lib s) (Reads lib afInet s) :=
  (inetBytes_verdict hlib (.inl rfl) _ s).map _

/-- An IPv6 address is read exactly if `inet_pton` accepts the string. -/
theorem ofString6_verdict (s : Bytes) : Verdict (IPv6.ofString lib s) (Reads lib afInet6 s) :=
  (inetBytes_verdict hlib (.inr rfl) _ s).map _

end

/-! ### The constructor -/

/-- A bracket is no digit. -/
theorem not_startsWithDigit_bracket (rest : Bytes) : ¬ StartsWithDigit (openBracket :: rest) := by
  rintro ⟨c, hc, hdigit⟩
  obtain rfl : openBracket = c := Option.some.inj hc
  exact absurd hdigit (by decide)

/-- A text that starts with a digit starts with it also if it goes on. -/
theorem StartsWithDigit.append {t : Bytes} (h : StartsWithDigit t) (rest : Bytes) :
    StartsWithDigit (t ++ rest) := by
  obtain ⟨c, hc, hdigit⟩ := h
  exact ⟨c, by rw [List.head?_append, hc]; rfl, hdigit⟩

/-- A text with one colon has one. -/
theorem count_oneColon {t p : Bytes} (ht : colon ∉ t) (hp : colon ∉ p) :
    (t ++ colon :: p).count colon = 1 := by
  rw [List.count_append, List.count_cons_self, List.count_eq_zero.mpr ht,
    List.count_eq_zero.mpr hp]

/-! ### What is accepted, by the shape of the string -/

section

variable {lib : InetLibs} {s t p r : Bytes}

/-- A text without a colon has to be an IPv4 address. -/
theorem accepted_noColon (hdigit : StartsWithDigit s) (h : colon ∉ s) :
    Accepted lib s ↔ Reads lib afInet s := by
  refine ⟨fun hacc => ?_, .inet h⟩
  cases hacc with
  | inet _ hreads => exact hreads
  | inetPort => exact absurd (List.mem_append_right _ List.mem_cons_self) h
  | bracket => exact absurd hdigit (not_startsWithDigit_bracket _)
  | inet6 _ hcount => exact absurd (List.count_pos_iff.mp (by omega)) h

/-- A text with one colon has to be an IPv4 address and a port. -/
theorem accepted_oneColon (hdigit : StartsWithDigit (t ++ colon :: p)) (ht : colon ∉ t)
    (hp : colon ∉ p) : Accepted lib (t ++ colon :: p) ↔ Reads lib afInet t ∧ IsLoosePort p := by
  refine ⟨fun hacc => ?_, fun h => .inetPort ht hp h.1 h.2⟩
  have hone := count_oneColon ht hp
  generalize hs : t ++ colon :: p = s at hacc hdigit hone
  cases hacc with
  | inet h => exact absurd (List.count_eq_zero.mpr h) (by omega)
  | inetPort ht' _ hreads hport =>
      obtain ⟨rfl, rfl⟩ := split_unique ht ht' hs
      exact ⟨hreads, hport⟩
  | bracket => exact absurd hdigit (not_startsWithDigit_bracket _)
  | inet6 _ hcount => omega

/-- A text with more colons has to be an IPv6 address. -/
theorem accepted_moreColons (hdigit : StartsWithDigit (t ++ colon :: p)) (hp : colon ∈ p) :
    Accepted lib (t ++ colon :: p) ↔ Reads lib afInet6 (t ++ colon :: p) := by
  have hpos := List.count_pos_iff.mpr hp
  have hmore : 2 ≤ (t ++ colon :: p).count colon := by
    rw [List.count_append, List.count_cons_self]
    omega
  refine ⟨fun hacc => ?_, .inet6 hdigit hmore⟩
  generalize t ++ colon :: p = s at hacc hdigit hmore
  cases hacc with
  | inet h => exact absurd (List.count_eq_zero.mpr h) (by omega)
  | inetPort ht hp => exact absurd (count_oneColon ht hp) (by omega)
  | bracket => exact absurd hdigit (not_startsWithDigit_bracket _)
  | inet6 _ _ hreads => exact hreads

variable (hlib : lib.ReadsTexts)
include hlib

/-- A text in brackets has to be an IPv6 address, with something that can be read behind it. -/
theorem accepted_bracket (ht : closeBracket ∉ t) :
    Accepted lib (openBracket :: (t ++ closeBracket :: r)) ↔
      Reads lib afInet6 t ∧ IsLooseTail r := by
  refine ⟨fun hacc => ?_, fun h => .bracket ht h.1 h.2⟩
  have hdigit := not_startsWithDigit_bracket (t ++ closeBracket :: r)
  generalize hs : openBracket :: (t ++ closeBracket :: r) = s at hacc hdigit
  cases hacc with
  | inet _ hreads => exact absurd (hreads.startsWithDigit hlib) hdigit
  | inetPort _ _ hreads _ => exact absurd ((hreads.startsWithDigit hlib).append _) hdigit
  | bracket ht' hreads htail =>
      obtain ⟨rfl, rfl⟩ := split_unique ht ht' (List.cons.inj hs).2
      exact ⟨hreads, htail⟩
  | inet6 h => exact absurd h hdigit

/-- A text of no kind is not accepted. -/
theorem not_accepted (hdigit : ¬ StartsWithDigit s)
    (hbracket : ∀ rest, s = openBracket :: rest → closeBracket ∉ rest) : ¬ Accepted lib s := by
  intro hacc
  cases hacc with
  | inet _ hreads => exact hdigit (hreads.startsWithDigit hlib)
  | inetPort _ _ hreads _ => exact hdigit ((hreads.startsWithDigit hlib).append _)
  | bracket => exact hbracket _ rfl (List.mem_append_right _ List.mem_cons_self)
  | inet6 h => exact hdigit h

omit hlib in
/-- What stands behind the bracket is read exactly if it is a loose tail. -/
theorem parseTail_verdict (r : Bytes) :
    Verdict (if 1 < r.length then parsePort r.tail else .ok 0) (IsLooseTail r) := by
  rw [IsLooseTail]
  split
  next h => exact ((parsePort_verdict r.tail).unique).mpr (or_iff_right (by omega))
  next h => exact ((Verdict.ok 0).unique).mpr (iff_of_true (.inl (by omega)) trivial)

/-- The strings that the constructor reads, and it throws for every other. -/
theorem ofString_verdict (s : Bytes) : Verdict (ofString lib s) (Accepted lib s) := by
  by_cases hdigit : StartsWithDigit s
  · by_cases hcolon : colon ∈ s
    · obtain ⟨t, p, rfl, ht⟩ := List.eq_append_cons_of_mem hcolon
      by_cases hp : colon ∈ p
      · rw [ofString_moreColons lib hdigit ht hp, accepted_moreColons hdigit hp]
        exact (ofString6_verdict hlib _).map _
      · rw [ofString_oneColon lib hdigit ht hp, accepted_oneColon hdigit ht hp]
        exact (ofString4_verdict hlib t).bind fun ip => (parsePort_verdict p).map _
    · rw [ofString_noColon lib hdigit hcolon, accepted_noColon hdigit hcolon]
      exact (ofString4_verdict hlib s).map _
  · by_cases hbracket : ∀ rest, s = openBracket :: rest → closeBracket ∉ rest
    · rw [ofString_other lib hdigit hbracket]
      exact ((Verdict.invalid _ _).unique).mpr
        (iff_of_false (not_accepted hlib hdigit hbracket) id)
    · obtain ⟨rest, hs⟩ := not_forall.mp hbracket
      obtain ⟨rfl, hclose⟩ := Classical.not_imp.mp hs
      obtain ⟨t, r, rfl, ht⟩ := List.eq_append_cons_of_mem (not_not.mp hclose)
      rw [ofString_bracket lib ht, accepted_bracket hlib ht]
      exact (ofString6_verdict hlib t).bind fun ip => (parseTail_verdict r).map _

end

/-! ### What is taken for something else -/

/-- The strings that are not taken for what they are. The first kind is in one of the formats and
is rejected. The others are in none of them and are read. -/
inductive Misread (lib : InetLibs) : Bytes → Prop
  | bare {s : Bytes} : IsText lib afInet6 s → ¬ StartsWithDigit s → Misread lib s
  | zero {s : Bytes} : 0 ∈ s → colon ∉ s → Reads lib afInet s → Misread lib s
  | zero6 {s : Bytes} : 0 ∈ s → StartsWithDigit s → 2 ≤ s.count colon → Reads lib afInet6 s →
      Misread lib s
  | port {t p : Bytes} : colon ∉ t → colon ∉ p → Reads lib afInet t → IsLoosePort p →
      ¬ (0 ∉ t ∧ IsPort p) → Misread lib (t ++ colon :: p)
  | bracket {t r : Bytes} : closeBracket ∉ t → Reads lib afInet6 t → IsLooseTail r →
      ¬ (0 ∉ t ∧ (r = [] ∨ ∃ p, r = colon :: p ∧ IsPort p)) →
      Misread lib (openBracket :: (t ++ closeBracket :: r))

/-- A port has no zero. -/
theorem IsPort.zero_notMem {p : Bytes} (h : IsPort p) : 0 ∉ p := fun hzero =>
  absurd (h.2.1 0 hzero) (by decide)

/-- A port has no colon. -/
theorem IsPort.colon_notMem {p : Bytes} (h : IsPort p) : colon ∉ p := fun hcolon =>
  absurd (h.2.1 colon hcolon) (by decide)

/-- No format has a zero in it. -/
theorem InFormat.zero_notMem {lib : InetLibs} {s : Bytes} (h : InFormat lib s) : 0 ∉ s := by
  have hcolon : (0 : UInt8) ≠ colon := by decide
  have hopen : (0 : UInt8) ≠ openBracket := by decide
  have hclose : (0 : UInt8) ≠ closeBracket := by decide
  cases h with
  | inet ht => exact ht.1
  | inetPort ht hp => simp [ht.1, hp.zero_notMem, hcolon]
  | bracket ht => simp [ht.1, hopen, hclose]
  | bracketPort ht hp => simp [ht.1, hp.zero_notMem, hcolon, hopen, hclose]
  | inet6 ht => exact ht.1

section

variable {lib : InetLibs} (hlib : lib.ReadsTexts) {s t p r : Bytes}
include hlib

/-- A text in the format is accepted if it is not misread. -/
theorem InFormat.accepted (h : InFormat lib s) (hread : ¬ Misread lib s) : Accepted lib s := by
  cases h with
  | inet ht => exact .inet (ht.colon_notMem hlib) ht.2
  | inetPort ht hp => exact .inetPort (ht.colon_notMem hlib) hp.colon_notMem ht.2 hp.isLoosePort
  | bracket ht => exact .bracket (ht.inet6 hlib).2.2 ht.2 (.inl (Nat.zero_le 1))
  | bracketPort ht hp => exact .bracket (ht.inet6 hlib).2.2 ht.2 (.inr hp.isLoosePort)
  | inet6 ht =>
      by_cases hdigit : StartsWithDigit s
      · exact .inet6 hdigit (ht.inet6 hlib).1 ht.2
      · exact absurd (.bare ht hdigit) hread

omit hlib in
/-- An accepted text that is not misread is in the format. -/
theorem Accepted.inFormat (h : Accepted lib s) (hread : ¬ Misread lib s) : InFormat lib s := by
  cases h with
  | inet hcolon hreads => exact .inet ⟨fun hzero => hread (.zero hzero hcolon hreads), hreads⟩
  | inetPort ht hp hreads hport =>
      obtain ⟨hzero, hp⟩ := not_not.mp fun hbad => hread (.port ht hp hreads hport hbad)
      exact .inetPort ⟨hzero, hreads⟩ hp
  | bracket ht hreads htail =>
      obtain ⟨hzero, rfl | ⟨p, rfl, hp⟩⟩ := not_not.mp fun hbad =>
        hread (.bracket ht hreads htail hbad)
      · exact .bracket ⟨hzero, hreads⟩
      · exact .bracketPort ⟨hzero, hreads⟩ hp
  | inet6 hdigit hcount hreads =>
      exact .inet6 ⟨fun hzero => hread (.zero6 hzero hdigit hcount hreads), hreads⟩

/-- An address in dotted decimal with something that is not a port behind it is in no format. -/
theorem not_inFormat_port (ht : colon ∉ t) (hp : colon ∉ p) (hreads : Reads lib afInet t)
    (hbad : ¬ (0 ∉ t ∧ IsPort p)) : ¬ InFormat lib (t ++ colon :: p) := by
  intro h
  have hdigit := (hreads.startsWithDigit hlib).append (colon :: p)
  have hone := count_oneColon ht hp
  generalize hs : t ++ colon :: p = s at h hdigit hone
  cases h with
  | inet ht' => exact absurd (List.count_eq_zero.mpr (ht'.colon_notMem hlib)) (by omega)
  | inetPort ht' hp' =>
      obtain ⟨rfl, rfl⟩ := split_unique ht (ht'.colon_notMem hlib) hs
      exact hbad ⟨ht'.1, hp'⟩
  | bracket => exact not_startsWithDigit_bracket _ hdigit
  | bracketPort => exact not_startsWithDigit_bracket _ hdigit
  | inet6 ht' => exact absurd (ht'.inet6 hlib).1 (by omega)

/-- An address in brackets with something that is not a port behind it is in no format. -/
theorem not_inFormat_bracket (ht : closeBracket ∉ t)
    (hbad : ¬ (0 ∉ t ∧ (r = [] ∨ ∃ p, r = colon :: p ∧ IsPort p))) :
    ¬ InFormat lib (openBracket :: (t ++ closeBracket :: r)) := by
  intro h
  have hdigit := not_startsWithDigit_bracket (t ++ closeBracket :: r)
  generalize hs : openBracket :: (t ++ closeBracket :: r) = s at h hdigit
  cases h with
  | inet ht' => exact hdigit (ht'.2.startsWithDigit hlib)
  | inetPort ht' => exact hdigit ((ht'.2.startsWithDigit hlib).append _)
  | bracket ht' =>
      obtain ⟨rfl, rfl⟩ := split_unique ht (ht'.inet6 hlib).2.2 (List.cons.inj hs).2
      exact hbad ⟨ht'.1, .inl rfl⟩
  | bracketPort ht' hp' =>
      obtain ⟨rfl, rfl⟩ := split_unique ht (ht'.inet6 hlib).2.2 (List.cons.inj hs).2
      exact hbad ⟨ht'.1, .inr ⟨_, rfl, hp'⟩⟩
  | inet6 ht' => exact (ht'.inet6 hlib).2.1 (hs ▸ List.mem_cons_self)

/-- A string is misread in one direction or the other. -/
theorem Misread.not_iff (h : Misread lib s) : ¬ (InFormat lib s ↔ Accepted lib s) := by
  intro hiff
  cases h with
  | bare ht hdigit =>
      refine not_accepted hlib hdigit (fun rest hs => ?_) (hiff.mp (.inet6 ht))
      exact absurd (hs ▸ List.mem_cons_self) (ht.inet6 hlib).2.1
  | zero hzero hcolon hreads => exact (hiff.mpr (.inet hcolon hreads)).zero_notMem hzero
  | zero6 hzero hdigit hcount hreads =>
      exact (hiff.mpr (.inet6 hdigit hcount hreads)).zero_notMem hzero
  | port ht hp hreads hport hbad =>
      exact not_inFormat_port hlib ht hp hreads hbad (hiff.mpr (.inetPort ht hp hreads hport))
  | bracket ht hreads htail hbad =>
      exact not_inFormat_bracket hlib ht hbad (hiff.mpr (.bracket ht hreads htail))

/-- A misread text is a counterexample by itself. -/
theorem Misread.not_verdict (h : Misread lib s) :
    ¬ Verdict (ofString lib s) (InFormat lib s) := by
  rw [(ofString_verdict hlib s).unique]
  exact h.not_iff hlib

/-- **Strings.** The constructor reads a string exactly if it is in one of the documented
formats, and throws `std::invalid_argument` otherwise, unless the string is one of those that
are misread. -/
theorem ofString_iff (s : Bytes) :
    Verdict (ofString lib s) (InFormat lib s) ↔ ¬ Misread lib s := by
  refine ⟨fun hverdict hmisread => hmisread.not_verdict hlib hverdict, fun hread => ?_⟩
  rw [(ofString_verdict hlib s).unique]
  exact ⟨fun h => h.accepted hlib hread, fun h => h.inFormat hread⟩

end

end SocketAddress

/-! ### The functions of the system -/

/-- The characters of dotted decimal. -/
def isDotted (s : Bytes) : Bool :=
  s.head?.any isDigit && s.all fun c => isDigit c || c == dot

/-- The characters of groups of digits, three or more. -/
def isGroups (s : Bytes) : Bool :=
  decide (2 ≤ s.count colon) && s.all fun c => (bytes "0123456789abcdef").contains c || c == colon

/-- The dotted form of four bytes is one. -/
theorem isDotted_dotted (a b c d : UInt8) : isDotted (dotted a b c d) = true := by
  obtain ⟨⟨first, rest, hfirst, hdigit⟩, -⟩ := SocketAddress.dotted_chars a b c d
  rw [isDotted, Bool.and_eq_true, List.all_eq_true]
  refine ⟨by rw [hfirst]; exact hdigit, fun e he => ?_⟩
  rcases SocketAddress.mem_dotted he with h | rfl
  · rw [h, Bool.true_or]
  · decide

/-- The groups of sixteen bytes are the text of an IPv6 address. -/
theorem isGroups_groups {b : Bytes} (h : b.length = 16) : isGroups (groups b) = true := by
  rw [isGroups, Bool.and_eq_true, decide_eq_true_iff, List.all_eq_true]
  refine ⟨?_, fun c hc => ?_⟩
  · match b, h with
    | [c₁, c₂, c₃, c₄, c₅, c₆, c₇, c₈, c₉, c₁₀, c₁₁, c₁₂, c₁₃, c₁₄, c₁₅, c₁₆], _ =>
        simp only [groups, List.count_append, List.count_cons_self]
        omega
  · rcases mem_groups hc with h | rfl
    · rw [List.contains_iff_mem.mpr h, Bool.true_or]
    · decide

/-- The functions as their documentation describes them, for the same addresses as `plain`. They
read nothing with another character in it. -/
def InetLibs.strict : InetLibs where
  text := InetLibs.plain.text
  inetNtop := InetLibs.plain.inetNtop
  inetPton family s :=
    if family = afInet then .ok (if isDotted s then readDotted s else none)
    else if family = afInet6 then
      .ok (if isGroups s then (readGroups s).filter (·.length = 16) else none)
    else .error eAfNoSupport
  inetNtop_fits := InetLibs.plain.inetNtop_fits
  inetNtop_short := InetLibs.plain.inetNtop_short
  inetPton_text family b h := by
    have hread : (if family = afInet then .ok (readDotted (addressText family b))
      else if family = afInet6 then
        .ok ((readGroups (addressText family b)).filter (·.length = 16))
      else .error eAfNoSupport) = Except.ok (some b) := InetLibs.plain.inetPton_text family b h
    have hguard : (family = afInet → isDotted (addressText family b) = true) ∧
        (family = afInet6 → isGroups (addressText family b) = true) := by
      refine addressText_cases (P := fun s => (family = afInet → isDotted s = true) ∧
        (family = afInet6 → isGroups s = true)) h ?_ ?_
      · rintro c d e f rfl -
        exact ⟨fun _ => isDotted_dotted c d e f, fun h => absurd h (by decide)⟩
      · rintro rfl hlen
        exact ⟨fun h => absurd h (by decide), fun _ => isGroups_groups hlen⟩
    change (if family = afInet then
        .ok (if isDotted (addressText family b) then readDotted (addressText family b) else none)
      else if family = afInet6 then
        .ok (if isGroups (addressText family b) then
          (readGroups (addressText family b)).filter (·.length = 16) else none)
      else .error eAfNoSupport) = Except.ok (some b)
    split at hread
    next hfamily => rw [if_pos hfamily, if_pos (hguard.1 hfamily), hread]
    next hfamily =>
      rw [if_neg hfamily]
      split at hread
      next hfamily => rw [if_pos hfamily, if_pos (hguard.2 hfamily), hread]
      next => cases hread
  isAddress_of_inetPton family s b h := by
    refine InetLibs.plain.isAddress_of_inetPton family s b ?_
    change (if family = afInet then .ok (readDotted s)
      else if family = afInet6 then .ok ((readGroups s).filter (·.length = 16))
      else .error eAfNoSupport) = Except.ok (some b)
    split at h
    next hfamily =>
      rw [if_pos hfamily, ← h]
      split at h
      next hguard => rw [if_pos hguard]
      next => cases h
    next hfamily =>
      rw [if_neg hfamily]
      split at h
      next hfamily =>
        rw [if_pos hfamily, ← h]
        split at h
        next hguard => rw [if_pos hguard]
        next => cases h
      next => cases h
  zero_notMem_text := InetLibs.plain.zero_notMem_text
  text_inet := InetLibs.plain.text_inet
  closeBracket_notMem_text := InetLibs.plain.closeBracket_notMem_text

/-- The strict functions read the texts that they write. -/
theorem InetLibs.strict_readsTexts : InetLibs.strict.ReadsTexts where
  known family s h := by
    rcases h with rfl | rfl
    · exact ⟨_, rfl⟩
    · exact ⟨_, rfl⟩
  inet s b h := by
    have hdotted : isDotted s = true := by
      by_contra hguard
      rw [InetLibs.strict] at h
      simp [hguard] at h
    rw [isDotted, Bool.and_eq_true, List.all_eq_true, Option.any_eq_true] at hdotted
    refine ⟨hdotted.1, fun hcolon => ?_⟩
    exact absurd (hdotted.2 colon hcolon) (by decide)
  inet6 s b h := by
    have hgroups : isGroups s = true := by
      by_contra hguard
      have hne : ¬ afInet6 = afInet := by decide
      rw [InetLibs.strict] at h
      simp [hguard, hne] at h
    rw [isGroups, Bool.and_eq_true, decide_eq_true_iff, List.all_eq_true] at hgroups
    refine ⟨hgroups.1, fun hopen => ?_, fun hclose => ?_⟩
    · exact absurd (hgroups.2 openBracket hopen) (by decide)
    · exact absurd (hgroups.2 closeBracket hclose) (by decide)

namespace SocketAddress

/-- The strict functions read an IPv4 address. -/
theorem reads_strict : Reads .strict afInet (bytes "1.2.3.4") :=
  ⟨[1, 2, 3, 4], by decide +kernel⟩

/-- An address in dotted decimal, with a port. -/
theorem ofString_iff_port :
    Verdict (ofString .strict (bytes "1.2.3.4:80")) (InFormat .strict (bytes "1.2.3.4:80")) ↔
      ¬ Misread .strict (bytes "1.2.3.4:80") :=
  ofString_iff InetLibs.strict_readsTexts _

/-- A port without digits is read as zero. -/
theorem ofString_fails :
    ¬ ∀ (lib : InetLibs) (s : Bytes), lib.ReadsTexts →
      Verdict (ofString lib s) (InFormat lib s) := by
  intro hall
  have hport : ¬ (0 ∉ bytes "1.2.3.4" ∧ IsPort []) := fun h => h.2.1 rfl
  have hmisread : Misread .strict (bytes "1.2.3.4" ++ colon :: []) :=
    .port (by decide) (by decide) reads_strict (.inl rfl) hport
  exact hmisread.not_verdict InetLibs.strict_readsTexts (hall _ _ InetLibs.strict_readsTexts)

end SocketAddress

end RsIo
