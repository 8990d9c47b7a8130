import Mathlib.Data.List.DropRight
import Mathlib.Data.List.Infix

/-!
# Searching and Editing Strings by Position

The member functions of `std::basic_string` that work with positions, over any element
type. A string is a list, and a search that finds nothing returns `none` where the
standard library returns `npos`.

`findIf` stands for `find` of one character, `find_first_of` and `find_first_not_of`,
which differ in the predicate only, and `findLastIf` for `find_last_of` and
`find_last_not_of`. The searches are related to the list functions `takeWhile`,
`dropWhile` and `rdropWhile`, on which proofs about the callers rest.

`find` searches for a string. Its callers scan a string from left to right, so its lemmas
say what a search that starts at the end of a known part finds: the pattern right there
(`find_append_self`), or what a search one character further on finds
(`find_append_cons`).
-/

namespace StdString

variable {α : Type}

/-! ### Searching for a character -/

/-- The first position at or after `pos` whose character satisfies `p`. -/
def findIf (p : α → Bool) (s : List α) (pos : ℕ) : Option ℕ :=
  ((s.drop pos).findIdx? p).map (· + pos)

/-- The last position whose character satisfies `p`. -/
def findLastIf (p : α → Bool) (s : List α) : Option ℕ :=
  (s.reverse.findIdx? p).map (s.length - 1 - ·)

/-- One past the last position whose character satisfies `p`, and zero if there is none:
`find_last_of(..) + 1`, where `npos + 1` wraps around. -/
def endOfLast (p : α → Bool) (s : List α) : ℕ :=
  match findLastIf p s with
  | some i => i + 1
  | none => 0

/-- The first place is behind the characters that do not qualify. -/
theorem findIdx?_eq_takeWhile (p : α → Bool) (s : List α) :
    s.findIdx? p =
      if s.any p then some (s.takeWhile (! p ·)).length else none := by
  induction s with
  | nil => rfl
  | cons c s ih =>
      rw [List.findIdx?_cons, ih]
      by_cases hc : p c = true
      · simp [hc]
      · by_cases hs : s.any p = true <;> simp [hc, hs]

/-- `find_if` from the start. -/
theorem findIf_zero (p : α → Bool) (s : List α) :
    findIf p s 0 = if s.any p then some (s.takeWhile (! p ·)).length else none := by
  simp [findIf, findIdx?_eq_takeWhile]

/-- A search from the end of a prefix looks at the rest only. -/
theorem findIf_append (p : α → Bool) (s t : List α) :
    findIf p (s ++ t) s.length =
      if t.any p then some (s.length + (t.takeWhile (! p ·)).length) else none := by
  rw [findIf, List.drop_left, findIdx?_eq_takeWhile]
  by_cases h : t.any p = true <;> simp [h, Nat.add_comm]

/-- A search from the end of a prefix finds the first character that satisfies `p`. -/
theorem findIf_append_cons {p : α → Bool} (pre b : List α) {a : List α} {c : α}
    (ha : ∀ d ∈ a, p d = false) (hc : p c = true) :
    findIf p (pre ++ (a ++ c :: b)) pre.length = some (pre.length + a.length) := by
  have htake : (a ++ c :: b).takeWhile (fun d => ! p d) = a := by
    rw [List.takeWhile_append_of_pos (by simpa using ha), List.takeWhile_cons_of_neg (by simp [hc]),
      List.append_nil]
  rw [findIf_append, if_pos (by simp [hc]), htake]

/-- Nothing is found behind a prefix. -/
theorem findIf_append_none {p : α → Bool} (pre : List α) {t : List α} (ht : ∀ d ∈ t, p d = false) :
    findIf p (pre ++ t) pre.length = none := by
  rw [findIf_append, if_neg (by simpa using ht)]

/-- A character is found behind those that do not qualify. -/
theorem findIf_zero_cons {p : α → Bool} (b : List α) {a : List α} {c : α}
    (ha : ∀ d ∈ a, p d = false) (hc : p c = true) : findIf p (a ++ c :: b) 0 = some a.length := by
  have hfind := findIf_append_cons [] b ha hc
  rwa [List.nil_append, List.length_nil, Nat.zero_add] at hfind

/-- Nothing is found if no character qualifies. -/
theorem findIf_zero_none {p : α → Bool} {t : List α} (ht : ∀ d ∈ t, p d = false) :
    findIf p t 0 = none :=
  findIf_append_none [] ht

/-- A search finds the first character that satisfies the predicate, or the end. -/
theorem findIf_getD_eq {p : α → Bool} {a rest : List α} (ha : ∀ c ∈ a, p c = false)
    (hrest : ∀ c, rest.head? = some c → p c = true) :
    (findIf p (a ++ rest) 0).getD (a ++ rest).length = a.length := by
  cases rest with
  | nil => rw [List.append_nil, findIf_zero_none ha, Option.getD_none]
  | cons c rest => rw [findIf_zero_cons rest ha (hrest c rfl), Option.getD_some]

section Separator

variable [BEq α] [LawfulBEq α]

/-- A character that does not occur is different from each that does. -/
theorem beq_false_of_notMem {c : α} {t : List α} (h : c ∉ t) : ∀ d ∈ t, (d == c) = false :=
  fun _ hd => beq_false_of_ne fun heq => h (heq ▸ hd)

/-- The first place of a separator. -/
theorem findIf_separator {c : α} {t : List α} (h : c ∉ t) (p : List α) :
    findIf (· == c) (t ++ c :: p) 0 = some t.length :=
  findIf_zero_cons p (beq_false_of_notMem h) (beq_self_eq_true c)

/-- Whether there is one more. -/
theorem findIf_next (c : α) (t p : List α) :
    (findIf (· == c) (t ++ c :: p) (t.length + 1)).isSome = true ↔ c ∈ p := by
  have hsplit : t ++ c :: p = (t ++ [c]) ++ p := by simp
  have hlen : t.length + 1 = (t ++ [c]).length := by simp
  rw [hsplit, hlen, findIf_append]
  split
  next h => simpa using h
  next h => simpa using h

end Separator

/-- A search does not go past a character that satisfies the predicate. -/
theorem findIf_zero_le {p : α → Bool} (pre post : List α) {c : α} (hc : p c = true) (n : ℕ) :
    (findIf p (pre ++ c :: post) 0).getD n ≤ pre.length := by
  rw [findIf_zero, if_pos (by simp [hc]), Option.getD_some]
  induction pre with
  | nil => simp [hc]
  | cons d pre ih =>
      rw [List.cons_append, List.takeWhile_cons]
      split
      · exact Nat.succ_le_succ ih
      · exact Nat.zero_le _

/-- What a search finds satisfies the predicate. -/
theorem findIf_some {p : α → Bool} {s : List α} {pos i : ℕ} (h : findIf p s pos = some i) :
    ∃ c, s[i]? = some c ∧ p c = true := by
  obtain ⟨j, hj, rfl⟩ := Option.map_eq_some_iff.mp h
  obtain ⟨hlt, hp, -⟩ := List.findIdx?_eq_some_iff_getElem.mp hj
  refine ⟨(s.drop pos)[j], ?_, hp⟩
  rw [Nat.add_comm, ← List.getElem?_drop, List.getElem?_eq_getElem hlt]

/-- Where a search ends lies between its start and the end of the string. -/
theorem findIf_getD_bounds (p : α → Bool) {s : List α} {pos : ℕ} (h : pos ≤ s.length) :
    pos ≤ (findIf p s pos).getD s.length ∧ (findIf p s pos).getD s.length ≤ s.length := by
  rw [findIf, findIdx?_eq_takeWhile]
  split
  · have hle := (List.takeWhile_prefix (fun x => ! p x) (l := s.drop pos)).length_le
    rw [List.length_drop] at hle
    simp only [Option.map_some, Option.getD_some]
    omega
  · simp [h]

/-- The last character that satisfies `p` ends what is left after the others are dropped
from the back. -/
theorem endOfLast_eq_length_rdropWhile (p : α → Bool) (s : List α) :
    endOfLast p s = (s.rdropWhile (! p ·)).length := by
  induction s using List.reverseRecOn with
  | nil => rfl
  | append_singleton s c ih =>
      by_cases hc : p c = true
      · simp [endOfLast, findLastIf, List.findIdx?_cons, hc]
      · rw [List.rdropWhile_concat_pos (fun x => ! p x) s c (by simpa using hc), ← ih]
        simp only [endOfLast, findLastIf, List.reverse_append, List.reverse_singleton,
          List.singleton_append, List.findIdx?_cons, hc, List.length_append,
          List.length_singleton]
        cases s.reverse.findIdx? p with
        | none => rfl
        | some i => simp [Nat.sub_sub, Nat.add_comm]

/-- The last place is in the string. -/
theorem endOfLast_le_length (p : α → Bool) (s : List α) : endOfLast p s ≤ s.length := by
  rw [endOfLast_eq_length_rdropWhile]
  exact (List.rdropWhile_prefix _ s).length_le

/-- Characters at the end that do not satisfy `p` do not count. -/
theorem endOfLast_append_of_not_any {p : α → Bool} (s : List α) {t : List α}
    (ht : t.any p = false) : endOfLast p (s ++ t) = endOfLast p s := by
  induction t using List.reverseRecOn with
  | nil => simp
  | append_singleton t c ih =>
      simp only [List.any_append, List.any_cons, List.any_nil, Bool.or_false,
        Bool.or_eq_false_iff] at ht
      rw [← ih ht.1, endOfLast_eq_length_rdropWhile, endOfLast_eq_length_rdropWhile,
        ← List.append_assoc,
        List.rdropWhile_concat_pos (fun x => ! p x) (s ++ t) c (by simpa using ht.2)]

/-- Nothing is left after the last position exactly when the last character satisfies
`p`. -/
theorem endOfLast_lt_length_iff (p : α → Bool) (s : List α) :
    endOfLast p s < s.length ↔ ∃ c, s.getLast? = some c ∧ p c = false := by
  rw [endOfLast_eq_length_rdropWhile]
  induction s using List.reverseRecOn with
  | nil => simp
  | append_singleton s c _ =>
      by_cases hc : p c = true
      · simp [hc]
      · have hle := (List.rdropWhile_prefix (fun x => ! p x) s).length_le
        rw [List.rdropWhile_concat_pos (fun x => ! p x) s c (by simpa using hc)]
        simp only [List.length_append, List.length_singleton, List.getLast?_append_of_ne_nil _
          (List.cons_ne_nil c []), List.getLast?_singleton, Option.some.injEq, exists_eq_left']
        exact ⟨fun _ => by simpa using hc, fun _ => by omega⟩

/-- A character that satisfies `p` lies before the end of the last one. -/
theorem lt_endOfLast {p : α → Bool} {s : List α} {i : ℕ} {c : α} (hi : s[i]? = some c)
    (hc : p c = true) : i < endOfLast p s := by
  rw [endOfLast_eq_length_rdropWhile]
  by_contra hle
  have hsplit := @List.rdropWhile_append_rtakeWhile _ (fun x => ! p x) s
  have hmem : c ∈ s.rtakeWhile (! p ·) := by
    rw [← hsplit, List.getElem?_append_right (Nat.le_of_not_lt hle)] at hi
    exact List.mem_of_getElem? hi
  have := List.mem_rtakeWhile_imp hmem
  simp [hc] at this

/-- A search from the end finds the last character that satisfies `p`. -/
theorem findLastIf_append_cons {p : α → Bool} (a : List α) {b : List α} {c : α} (hc : p c = true)
    (hb : ∀ d ∈ b, p d = false) : findLastIf p (a ++ c :: b) = some a.length := by
  have hfind : (b.reverse ++ c :: a.reverse).findIdx? p = some b.length := by
    rw [findIdx?_eq_takeWhile, if_pos (by simp [hc]),
      List.takeWhile_append_of_pos (by simpa using hb), List.takeWhile_cons_of_neg (by simp [hc])]
    simp
  rw [findLastIf, List.reverse_append, List.reverse_cons, List.append_assoc,
    List.singleton_append, hfind]
  simp only [Option.map_some, List.length_append, List.length_cons, Option.some.injEq]
  omega

/-- A character at the end is the last one. -/
theorem endOfLast_concat {p : α → Bool} (s : List α) {c : α} (hc : p c = true) :
    endOfLast p (s ++ [c]) = s.length + 1 := by
  rw [endOfLast, findLastIf_append_cons s hc (by simp)]

/-- What a search from the end finds lies in front of the characters that do not satisfy
`p`. -/
theorem findLastIf_lt {p : α → Bool} {s t : List α} {d : ℕ} (ht : t.any p = false)
    (h : findLastIf p (s ++ t) = some d) : d < s.length := by
  have hle := endOfLast_le_length p s
  rw [← endOfLast_append_of_not_any s ht, endOfLast, h] at hle
  exact hle

/-- The string up to the last place is trimmed on its right. -/
theorem take_endOfLast (p : α → Bool) (s : List α) :
    s.take (endOfLast p s) = s.rdropWhile (! p ·) := by
  rw [endOfLast_eq_length_rdropWhile]
  exact (List.prefix_iff_eq_take.mp (List.rdropWhile_prefix _ s)).symm

/-! ### Searching for a string -/

/-- The first position at which `pat` occurs in `s`. -/
def findInfix [BEq α] (pat : List α) : List α → Option ℕ
  | [] => if pat.isEmpty then some 0 else none
  | c :: s =>
      if pat.isPrefixOf (c :: s) then some 0 else (findInfix pat s).map (· + 1)

/-- `s.find(pat, pos)`. -/
def find [BEq α] (pat s : List α) (pos : ℕ) : Option ℕ :=
  if pos ≤ s.length then (findInfix pat (s.drop pos)).map (· + pos) else none

section Find

variable [BEq α] [LawfulBEq α]

/-- The pattern is found where the search starts. -/
theorem find_append_self (pat pre t : List α) :
    find pat (pre ++ (pat ++ t)) pre.length = some pre.length := by
  rw [find, if_pos (by simp), List.drop_left]
  cases h : pat ++ t with
  | nil => simp [findInfix, (List.append_eq_nil_iff.mp h).1]
  | cons c s =>
      have hpre : pat.isPrefixOf (c :: s) = true := by
        rw [List.isPrefixOf_iff_prefix, ← h]
        exact List.prefix_append pat t
      simp [findInfix, hpre]

/-- A character at which the pattern does not start is passed over. -/
theorem find_append_cons {pat : List α} (pre : List α) {c : α} {t : List α}
    (h : ¬ pat <+: c :: t) :
    find pat (pre ++ c :: t) pre.length = find pat (pre ++ c :: t) (pre.length + 1) := by
  have hpre : pat.isPrefixOf (c :: t) = false := by
    rwa [← List.isPrefixOf_iff_prefix, Bool.not_eq_true] at h
  have hdrop : (pre ++ c :: t).drop (pre.length + 1) = t := by
    rw [← List.drop_drop, List.drop_left, List.drop_one, List.tail_cons]
  rw [find, find, if_pos (by simp), if_pos (by simp), List.drop_left, hdrop, findInfix, hpre]
  simp only [Bool.false_eq_true, if_false, Option.map_map]
  congr 1
  funext i
  simp only [Function.comp]
  omega

omit [LawfulBEq α] in
/-- Nothing but the empty string is found at the end. -/
theorem find_length {pat : List α} (h : pat ≠ []) (s : List α) : find pat s s.length = none := by
  simp [find, findInfix, h]

/-- A pattern that is found is inside the text. -/
theorem findInfix_bound {pat t : List α} {i : ℕ} (h : findInfix pat t = some i) :
    i + pat.length ≤ t.length := by
  induction t generalizing i with
  | nil =>
      cases pat with
      | nil =>
          rw [findInfix, List.isEmpty_nil, if_pos rfl, Option.some.injEq] at h
          simp [← h]
      | cons a pat => simp [findInfix] at h
  | cons c t ih =>
      rw [findInfix] at h
      split at h
      · rename_i hpre
        have hle := (List.isPrefixOf_iff_prefix.mp hpre).length_le
        rw [Option.some.injEq] at h
        omega
      · obtain ⟨j, hj, rfl⟩ := Option.map_eq_some_iff.mp h
        have := ih hj
        rw [List.length_cons]
        omega

/-- A pattern that is found lies inside the string, at or after the start of the search. -/
theorem find_bounds {pat s : List α} {pos p : ℕ} (h : find pat s pos = some p) :
    pos ≤ p ∧ p + pat.length ≤ s.length := by
  rw [find] at h
  split at h
  · obtain ⟨i, hi, rfl⟩ := Option.map_eq_some_iff.mp h
    have := findInfix_bound hi
    rw [List.length_drop] at this
    omega
  · simp at h

/-- The pattern stands where it is found. -/
theorem find_isPrefix {pat s : List α} {pos p : ℕ} (h : find pat s pos = some p) :
    pat <+: s.drop p := by
  have hinfix {t : List α} {i : ℕ} (h : findInfix pat t = some i) : pat <+: t.drop i := by
    induction t generalizing i with
    | nil =>
        cases pat with
        | nil => exact List.nil_prefix
        | cons a pat => simp [findInfix] at h
    | cons c t ih =>
        rw [findInfix] at h
        split at h
        · rename_i hpre
          obtain rfl := Option.some.inj h
          exact List.isPrefixOf_iff_prefix.mp hpre
        · obtain ⟨j, hj, rfl⟩ := Option.map_eq_some_iff.mp h
          exact ih hj
  rw [find] at h
  split at h
  · obtain ⟨i, hi, rfl⟩ := Option.map_eq_some_iff.mp h
    have hpre := hinfix hi
    rwa [List.drop_drop, Nat.add_comm] at hpre
  · simp at h

/-- A search for one character. -/
theorem find_singleton (c : α) (s : List α) (pos : ℕ) :
    find [c] s pos = findIf (· == c) s pos := by
  have hinfix (s : List α) : findInfix [c] s = s.findIdx? (· == c) := by
    induction s with
    | nil => rfl
    | cons d s ih =>
        have hpre : [c].isPrefixOf (d :: s) = (d == c) := by
          rw [List.isPrefixOf, List.isPrefixOf, Bool.and_true, BEq.comm]
        rw [findInfix, hpre, ih, List.findIdx?_cons]
  rw [find, findIf, hinfix]
  split
  · rfl
  · rename_i hpos
    rw [List.drop_of_length_le (by omega)]
    rfl

end Find

/-! ### Splitting -/

/-- A string is split in one way only behind the characters that satisfy `p`. -/
theorem span_unique {p : α → Bool} {a b s t : List α} (h : a ++ s = b ++ t)
    (ha : ∀ c ∈ a, p c = true) (hb : ∀ c ∈ b, p c = true)
    (hs : ∀ c, s.head? = some c → p c = false) (ht : ∀ c, t.head? = some c → p c = false) :
    a = b ∧ s = t := by
  have htake {a s : List α} (ha : ∀ c ∈ a, p c = true)
      (hs : ∀ c, s.head? = some c → p c = false) : (a ++ s).takeWhile p = a := by
    rw [List.takeWhile_append_of_pos ha]
    cases s with
    | nil => simp
    | cons c s => rw [List.takeWhile_cons_of_neg (by simp [hs c rfl]), List.append_nil]
  have hab : a = b := by rw [← htake ha hs, h, htake hb ht]
  subst hab
  exact ⟨rfl, List.append_cancel_left h⟩

/-- A string is split in one way only at the first place where `c` stands. -/
theorem splitAt_unique [DecidableEq α] {a b s t : List α} {c : α} (h : a ++ c :: s = b ++ c :: t)
    (ha : c ∉ a) (hb : c ∉ b) : a = b ∧ s = t := by
  have hne {w : List α} (hw : c ∉ w) : ∀ d ∈ w, decide (d ≠ c) = true := fun d hd =>
    decide_eq_true fun heq => hw (heq ▸ hd)
  obtain ⟨hab, hst⟩ := span_unique h (hne ha) (hne hb) (by simp) (by simp)
  exact ⟨hab, (List.cons.inj hst).2⟩

/-! ### Editing -/

/-- `s.erase(pos, len)`. -/
def erase (s : List α) (pos len : ℕ) : List α :=
  s.take pos ++ s.drop (pos + len)

/-- An erased string is shorter by what was erased. -/
theorem length_erase {s : List α} {pos len : ℕ} (h : pos + len ≤ s.length) :
    (erase s pos len).length = s.length - len := by
  simp only [erase, List.length_append, List.length_take, List.length_drop]
  omega

/-- Erasing what lies between two known parts. -/
theorem erase_append (pre mid t : List α) :
    erase (pre ++ (mid ++ t)) pre.length mid.length = pre ++ t := by
  rw [erase, List.take_left, ← List.append_assoc, ← List.length_append, List.drop_left]

/-- `s.replace(pos, len, t)`. -/
def replace (s : List α) (pos len : ℕ) (t : List α) : List α :=
  s.take pos ++ t ++ s.drop (pos + len)

/-- `s.insert(pos, t)`. -/
def insert (s : List α) (pos : ℕ) (t : List α) : List α :=
  s.take pos ++ t ++ s.drop pos

/-- `s.resize(n)`, which fills up with `c`. -/
def resize (c : α) (s : List α) (n : ℕ) : List α :=
  s.take n ++ List.replicate (n - s.length) c

/-- `s.substr(pos, len)`. -/
def substr (s : List α) (pos len : ℕ) : List α := (s.drop pos).take len

/-- Replacing what lies between two known parts. -/
theorem replace_append (pre mid post t : List α) :
    replace (pre ++ (mid ++ post)) pre.length mid.length t = pre ++ (t ++ post) := by
  rw [replace, List.take_left, ← List.append_assoc pre mid, ← List.length_append,
    List.drop_left, List.append_assoc]

/-- Text is inserted between a prefix and the rest. -/
theorem insert_append (pre post t : List α) :
    insert (pre ++ post) pre.length t = pre ++ (t ++ post) := by
  rw [insert, List.take_left, List.drop_left, List.append_assoc]

/-- A string can be cut to a prefix. -/
theorem resize_append (c : α) (pre post : List α) :
    resize c (pre ++ post) pre.length = pre := by
  simp [resize]

/-- The middle of a string. -/
theorem substr_append (pre mid post : List α) :
    substr (pre ++ (mid ++ post)) pre.length mid.length = mid := by
  rw [substr, List.drop_left, List.take_left]

/-- A string that is divided into parts: replacing one of them. -/
theorem replace_flatten (l r : List (List α)) (m t : List α) :
    replace (l ++ m :: r).flatten l.flatten.length m.length t = (l ++ t :: r).flatten := by
  rw [List.flatten_append, List.flatten_append, List.flatten_cons, List.flatten_cons,
    replace_append]

/-- One of several pieces of a string. -/
theorem substr_flatten (l r : List (List α)) (m : List α) :
    substr (l ++ m :: r).flatten l.flatten.length m.length = m := by
  rw [List.flatten_append, List.flatten_cons, substr_append]

end StdString
