import RsIo.Path

/-!
# The Canonical Form of File Names

The passes of `makeCanonical` as functions on lists, and what they establish together.

The second pass replaces `/./` by `/`. At the front of an absolute name that leaves the
slash in front of the dot next to a slash behind it, as in `/.//a`. The third pass merges
neighbouring slashes, but only those after the leading ones, and the last pass counts all
leading slashes as the root. So a name of the form `/./` followed by more of `./` and then
a slash keeps two or more leading slashes.

## Main results

* `replaceDots_append`, `mergeSlashes_append`: the loops over positions compute `dropDots`
  and `squeeze` of the rest of the string.
* `makeCanonical_of_canonical`: canonical names are fixed points.
* `canonical_makeCanonical`, `two_le_leading_iff`: all names but those with `KeepsSlashes`
  become canonical.
* `ofBytes_canonical_iff`: exactly the others do, and then building the path again changes
  nothing.
-/

namespace RsIo

open StdString

namespace Path

/-! ### The passes as functions on lists -/

/-- The second pass. -/
def dropDots : Bytes → Bytes
  | [] => []
  | c :: t => if sds <+: c :: t then dropDots t.tail else c :: dropDots t
termination_by s => s.length
decreasing_by all_goals (simp only [List.length_cons, List.length_tail]; omega)

/-- The third pass, behind the leading slashes. -/
def squeeze : Bytes → Bytes
  | [] => []
  | c :: t => if ss <+: c :: t then squeeze t else c :: squeeze t

/-- A text that starts with `/./`. -/
theorem sds_isPrefix_iff {s : Bytes} : sds <+: s ↔ ∃ t, s = slash :: dot :: slash :: t :=
  ⟨fun ⟨t, h⟩ => ⟨t, h.symm⟩, fun ⟨t, h⟩ => ⟨t, h.symm⟩⟩

/-- A text that starts with two slashes. -/
theorem ss_isPrefix_iff {s : Bytes} : ss <+: s ↔ ∃ t, s = slash :: slash :: t :=
  ⟨fun ⟨t, h⟩ => ⟨t, h.symm⟩, fun ⟨t, h⟩ => ⟨t, h.symm⟩⟩

/-- A dot between slashes is dropped. -/
theorem dropDots_sds (t : Bytes) :
    dropDots (slash :: dot :: slash :: t) = dropDots (slash :: t) := by
  rw [dropDots, if_pos (sds_isPrefix_iff.mpr ⟨t, rfl⟩), List.tail_cons]

/-- Any other character stays. -/
theorem dropDots_cons {c : UInt8} {t : Bytes} (h : ¬ sds <+: c :: t) :
    dropDots (c :: t) = c :: dropDots t := by
  rw [dropDots, if_neg h]

/-- One of two slashes is dropped. -/
theorem squeeze_ss (t : Bytes) : squeeze (slash :: slash :: t) = squeeze (slash :: t) := by
  rw [squeeze, if_pos (ss_isPrefix_iff.mpr ⟨t, rfl⟩)]

/-- Any other character stays. -/
theorem squeeze_cons {c : UInt8} {t : Bytes} (h : ¬ ss <+: c :: t) :
    squeeze (c :: t) = c :: squeeze t := by
  rw [squeeze, if_neg h]

/-- A slash absorbs the slashes that follow it. -/
theorem squeeze_slash (t : Bytes) :
    squeeze (slash :: t) = slash :: squeeze (t.dropWhile isSlash) := by
  induction t with
  | nil => rfl
  | cons c t ih =>
      by_cases hc : c = slash
      · rw [hc, squeeze_ss, ih, List.dropWhile_cons_of_pos (by simp [isSlash])]
      · have hss : ¬ ss <+: slash :: c :: t := by simp [ss_isPrefix_iff, hc]
        rw [squeeze_cons hss, List.dropWhile_cons_of_neg (by simp [isSlash, hc])]

/-! ### The loops -/

/-- The loop ends if no `/./` is left. -/
theorem replaceDots_none {f : Bytes} {p : ℕ} (h : find sds f p = none) :
    replaceDots f p = f := by
  rw [replaceDots]
  split
  · rfl
  · simp_all

/-- The loop erases the first `/./` and goes on there. -/
theorem replaceDots_some {f : Bytes} {p q : ℕ} (h : find sds f p = some q) :
    replaceDots f p = replaceDots (erase f q 2) q := by
  rw [replaceDots]
  split
  · simp_all
  · simp_all

/-- The loop depends on its position through the next match only. -/
theorem replaceDots_congr {f : Bytes} {p q : ℕ} (h : find sds f p = find sds f q) :
    replaceDots f p = replaceDots f q := by
  cases hq : find sds f q with
  | none => rw [replaceDots_none hq, replaceDots_none (h.trans hq)]
  | some r => rw [replaceDots_some hq, replaceDots_some (h.trans hq)]

/-- **The second pass.** From the end of any part on, the loop replaces `/./` in the rest
of the string. -/
theorem replaceDots_append (pre t : Bytes) :
    replaceDots (pre ++ t) pre.length = pre ++ dropDots t := by
  induction hn : t.length using Nat.strong_induction_on generalizing pre t with
  | _ n ih =>
      subst hn
      cases t with
      | nil =>
          rw [List.append_nil, replaceDots_none (find_length (by decide) pre), dropDots,
            List.append_nil]
      | cons c t =>
          by_cases h : sds <+: c :: t
          · obtain ⟨v, hv⟩ := sds_isPrefix_iff.mp h
            have hlt : (slash :: v).length < (c :: t).length := by simp [hv]
            have herase : erase (pre ++ c :: t) pre.length 2 = pre ++ slash :: v := by
              rw [hv]
              exact erase_append pre [slash, dot] (slash :: v)
            have hfind : find sds (pre ++ c :: t) pre.length = some pre.length := by
              rw [hv]
              exact find_append_self sds pre v
            rw [replaceDots_some hfind, herase, ih _ hlt pre _ rfl, hv, dropDots_sds]
          · have hrec := ih t.length (by simp) (pre ++ [c]) t rfl
            rw [List.append_assoc, List.singleton_append, List.length_append,
              List.length_singleton, List.append_assoc, List.singleton_append] at hrec
            rw [replaceDots_congr (find_append_cons pre h), hrec, dropDots_cons h]

/-- The loop ends if no two slashes are left. -/
theorem mergeSlashes_none {f : Bytes} {p : ℕ} (h : find ss f p = none) :
    mergeSlashes f p = f := by
  rw [mergeSlashes]
  split
  · split
    · rfl
    · simp_all
  · rfl

/-- The loop replaces the first run of slashes and goes on behind it. -/
theorem mergeSlashes_some {f : Bytes} {p r : ℕ} (h : find ss f p = some r) :
    mergeSlashes f p =
      let q := (findIf (! isSlash ·) f (r + 2)).getD f.length
      mergeSlashes (erase f (r + 1) (q - r - 1)) (r + 1) := by
  have hb : p ≤ r ∧ r + 2 ≤ f.length := find_bounds h
  rw [mergeSlashes, if_pos (by omega)]
  split
  · simp_all
  · simp_all

/-- The loop depends on its position through the next match only. -/
theorem mergeSlashes_congr {f : Bytes} {p q : ℕ} (h : find ss f p = find ss f q) :
    mergeSlashes f p = mergeSlashes f q := by
  cases hq : find ss f q with
  | none => rw [mergeSlashes_none hq, mergeSlashes_none (h.trans hq)]
  | some r => rw [mergeSlashes_some hq, mergeSlashes_some (h.trans hq)]

/-- A search for the next character other than a slash skips the slashes. -/
theorem findIf_not_isSlash (pre t : Bytes) :
    (findIf (! isSlash ·) (pre ++ t) pre.length).getD (pre ++ t).length =
      pre.length + (t.takeWhile isSlash).length := by
  rw [findIf_append]
  simp only [Bool.not_not]
  split
  · rfl
  · rename_i h
    have hall : ∀ c ∈ t, isSlash c = true := by simpa using h
    rw [List.takeWhile_eq_self_iff.mpr hall, Option.getD_none, List.length_append]

/-- One round of the loop: a slash absorbs those behind it. -/
theorem mergeSlashes_slash (pre t : Bytes) :
    mergeSlashes (pre ++ slash :: slash :: t) pre.length =
      mergeSlashes (pre ++ slash :: t.dropWhile isSlash) (pre.length + 1) := by
  have hfind : find ss (pre ++ slash :: slash :: t) pre.length = some pre.length :=
    find_append_self ss pre t
  have hq := findIf_not_isSlash (pre ++ ss) t
  have hf : pre ++ ss ++ t = pre ++ slash :: slash :: t := by simp [ss]
  rw [hf, List.length_append, show ss.length = 2 from rfl] at hq
  have herase : erase (pre ++ slash :: slash :: t) (pre.length + 1)
      ((t.takeWhile isSlash).length + 1) = pre ++ slash :: t.dropWhile isSlash := by
    have h := erase_append (pre ++ [slash]) (slash :: t.takeWhile isSlash) (t.dropWhile isSlash)
    simpa [List.takeWhile_append_dropWhile] using h
  rw [mergeSlashes_some hfind, hq]
  dsimp only
  rw [show pre.length + 2 + (t.takeWhile isSlash).length - pre.length - 1 =
    (t.takeWhile isSlash).length + 1 by omega, herase]

/-- **The third pass.** From the end of any part on, the loop merges the slashes in the
rest of the string. -/
theorem mergeSlashes_append (pre t : Bytes) :
    mergeSlashes (pre ++ t) pre.length = pre ++ squeeze t := by
  induction hn : t.length using Nat.strong_induction_on generalizing pre t with
  | _ n ih =>
      subst hn
      cases t with
      | nil =>
          rw [List.append_nil, mergeSlashes_none (find_length (by decide) pre), squeeze,
            List.append_nil]
      | cons c t =>
          by_cases h : ss <+: c :: t
          · obtain ⟨v, hv⟩ := ss_isPrefix_iff.mp h
            have hle := (List.dropWhile_suffix isSlash (l := v)).length_le
            have hlt : (v.dropWhile isSlash).length < (c :: t).length := by
              rw [hv, List.length_cons, List.length_cons]
              omega
            have hrec := ih _ hlt (pre ++ [slash]) _ rfl
            rw [List.append_assoc, List.singleton_append, List.length_append,
              List.length_singleton, List.append_assoc, List.singleton_append] at hrec
            rw [hv, mergeSlashes_slash, hrec, squeeze_ss, squeeze_slash]
          · have hrec := ih t.length (by simp) (pre ++ [c]) t rfl
            rw [List.append_assoc, List.singleton_append, List.length_append,
              List.length_singleton, List.append_assoc, List.singleton_append] at hrec
            rw [mergeSlashes_congr (find_append_cons pre h), hrec, squeeze_cons h]

/-! ### What the passes keep and remove -/

/-- Dropping dots leaves the first character. -/
theorem head?_dropDots (s : Bytes) : (dropDots s).head? = s.head? := by
  induction s using dropDots.induct with
  | case1 => rw [dropDots]
  | case2 c t h ih =>
      obtain ⟨v, hv⟩ := sds_isPrefix_iff.mp h
      rw [hv, dropDots_sds]
      rw [List.cons.injEq] at hv
      rw [hv.2] at ih
      exact ih
  | case3 c t h _ => rw [dropDots_cons h, List.head?_cons, List.head?_cons]

/-- Squeezing slashes leaves the first character. -/
theorem head?_squeeze (s : Bytes) : (squeeze s).head? = s.head? := by
  induction s with
  | nil => rfl
  | cons c t ih =>
      by_cases h : ss <+: c :: t
      · obtain ⟨v, hv⟩ := ss_isPrefix_iff.mp h
        rw [List.cons.injEq] at hv
        rw [hv.1, hv.2, squeeze_slash, List.head?_cons, List.head?_cons]
      · rw [squeeze_cons h, List.head?_cons, List.head?_cons]

/-- A pass that keeps first characters and dots does not bring the pieces of `/./`
together. -/
theorem sds_isPrefix_of_pass {pass : Bytes → Bytes}
    (hhead : ∀ t, (pass t).head? = t.head?) (hdot : ∀ t, pass (dot :: t) = dot :: pass t)
    {c : UInt8} {t : Bytes} (h : sds <+: c :: pass t) : sds <+: c :: t := by
  obtain ⟨v, hv⟩ := sds_isPrefix_iff.mp h
  rw [List.cons.injEq] at hv
  obtain ⟨rfl, hv⟩ := hv
  have ht : t.head? = some dot := by rw [← hhead, hv, List.head?_cons]
  obtain ⟨t, rfl⟩ := List.head?_eq_some_iff.mp ht
  rw [hdot, List.cons.injEq] at hv
  have ht : t.head? = some slash := by rw [← hhead, hv.2, List.head?_cons]
  obtain ⟨t, rfl⟩ := List.head?_eq_some_iff.mp ht
  exact sds_isPrefix_iff.mpr ⟨t, rfl⟩

/-- A dot in front is not dropped. -/
theorem dropDots_dot (t : Bytes) : dropDots (dot :: t) = dot :: dropDots t :=
  dropDots_cons (by simp [sds_isPrefix_iff, slash_ne_dot.symm])

/-- A dot in front is not squeezed. -/
theorem squeeze_dot (t : Bytes) : squeeze (dot :: t) = dot :: squeeze t :=
  squeeze_cons (by simp [ss_isPrefix_iff, slash_ne_dot.symm])

/-- The second pass leaves no `/./`. -/
theorem not_sds_dropDots (s : Bytes) : ¬ sds <:+: dropDots s := by
  induction s using dropDots.induct with
  | case1 => simp [dropDots, sds]
  | case2 c t h ih => rwa [dropDots, if_pos h]
  | case3 c t h ih =>
      rw [dropDots_cons h, List.infix_cons_iff]
      rintro (hpre | hin)
      · exact h (sds_isPrefix_of_pass head?_dropDots dropDots_dot hpre)
      · exact ih hin

/-- The third pass leaves no `//`. -/
theorem not_ss_squeeze (s : Bytes) : ¬ ss <:+: squeeze s := by
  induction s with
  | nil => simp [squeeze, ss]
  | cons c t ih =>
      by_cases h : ss <+: c :: t
      · rwa [squeeze, if_pos h]
      · rw [squeeze_cons h, List.infix_cons_iff]
        rintro (hpre | hin)
        · obtain ⟨v, hv⟩ := ss_isPrefix_iff.mp hpre
          rw [List.cons.injEq] at hv
          have ht : t.head? = some slash := by rw [← head?_squeeze, hv.2, List.head?_cons]
          obtain ⟨t, rfl⟩ := List.head?_eq_some_iff.mp ht
          exact h (ss_isPrefix_iff.mpr ⟨t, by rw [hv.1]⟩)
        · exact ih hin

/-- The third pass makes no new `/./`. -/
theorem not_sds_squeeze {s : Bytes} (hs : ¬ sds <:+: s) : ¬ sds <:+: squeeze s := by
  induction s with
  | nil => exact hs
  | cons c t ih =>
      rw [List.infix_cons_iff, not_or] at hs
      by_cases h : ss <+: c :: t
      · rw [squeeze, if_pos h]
        exact ih hs.2
      · rw [squeeze_cons h, List.infix_cons_iff]
        rintro (hpre | hin)
        · exact hs.1 (sds_isPrefix_of_pass head?_squeeze squeeze_dot hpre)
        · exact ih hs.2 hin

/-- Without `/./` nothing is dropped. -/
theorem dropDots_of_not_sds {s : Bytes} (hs : ¬ sds <:+: s) : dropDots s = s := by
  induction s with
  | nil => rw [dropDots]
  | cons c t ih =>
      rw [List.infix_cons_iff, not_or] at hs
      rw [dropDots_cons hs.1, ih hs.2]

/-- Without two slashes nothing is squeezed. -/
theorem squeeze_of_not_ss {s : Bytes} (hs : ¬ ss <:+: s) : squeeze s = s := by
  induction s with
  | nil => rfl
  | cons c t ih =>
      rw [List.infix_cons_iff, not_or] at hs
      rw [squeeze_cons hs.1, ih hs.2]

/-! ### The trailing characters -/

/-- The loop of the last pass goes on: the name ends in `/` or in `/.`. -/
theorem endsTrimmable_iff (f : Bytes) :
    (f.getLast? = some slash ∨
        (f.getLast? = some dot ∧ f[f.length - 2]? = some slash)) ↔
      [slash] <:+ f ∨ [slash, dot] <:+ f := by
  induction f using List.reverseRecOn with
  | nil => simp
  | append_singleton f c _ =>
      have h1 : [slash] <:+ f ++ [c] ↔ c = slash := by
        constructor
        · rintro ⟨t, ht⟩
          exact (List.append_inj' ht rfl).2 |> fun h => by simpa using h.symm
        · rintro rfl
          exact List.suffix_append f [slash]
      have h2 : [slash, dot] <:+ f ++ [c] ↔ c = dot ∧ f.getLast? = some slash := by
        constructor
        · rintro ⟨t, ht⟩
          have ht : (t ++ [slash]) ++ [dot] = f ++ [c] := by simpa using ht
          have := List.append_inj' ht rfl
          rw [← this.1]
          exact ⟨by simpa using this.2.symm, by simp⟩
        · rintro ⟨rfl, hlast⟩
          obtain ⟨t, rfl⟩ := List.getLast?_eq_some_iff.mp hlast
          exact ⟨t, by simp⟩
      rw [h1, h2, List.getLast?_concat, Option.some.injEq, Option.some.injEq]
      rcases List.eq_nil_or_concat f with rfl | ⟨f, d, rfl⟩
      · simp only [List.nil_append, List.length_singleton, List.getLast?_nil, reduceCtorEq]
        simp
      · simp

/-- The end is trimmed, and nothing else. -/
theorem trimTrailing_isPrefix (m : ℕ) (f : Bytes) : trimTrailing m f <+: f := by
  fun_induction trimTrailing m f with
  | case1 f h ih => exact ih.trans (List.dropLast_prefix f)
  | case2 f h => exact List.prefix_refl f

/-- The slashes in front are not trimmed. -/
theorem le_length_trimTrailing {m : ℕ} {f : Bytes} (hm : m ≤ f.length) :
    m ≤ (trimTrailing m f).length := by
  fun_induction trimTrailing m f with
  | case1 f h ih => exact ih (by rw [List.length_dropLast]; omega)
  | case2 f h => exact hm

/-- The last pass stops at the root or at a name that ends in neither `/` nor `/.`. -/
theorem trimTrailing_stops (m : ℕ) (f : Bytes) :
    (trimTrailing m f).length ≤ m ∨
      (¬ [slash] <:+ trimTrailing m f ∧ ¬ [slash, dot] <:+ trimTrailing m f) := by
  fun_induction trimTrailing m f with
  | case1 f h ih => exact ih
  | case2 f h =>
      rw [endsTrimmable_iff, not_and_or, not_or] at h
      exact h.imp_left Nat.le_of_not_lt

/-- A text without a slash or a dot at its end is not trimmed. -/
theorem trimTrailing_of_not {m : ℕ} {f : Bytes} (h : f.length ≤ m ∨
    (¬ [slash] <:+ f ∧ ¬ [slash, dot] <:+ f)) : trimTrailing m f = f := by
  rw [trimTrailing, dif_neg]
  rw [endsTrimmable_iff]
  rintro ⟨hlt, h1 | h2⟩
  · exact h.elim (Nat.not_le_of_lt hlt) (fun h => h.1 h1)
  · exact h.elim (Nat.not_le_of_lt hlt) (fun h => h.2 h2)

/-! ### The passes together -/

/-- A name has two leading slashes exactly when it starts with `//`. -/
theorem two_le_takeWhile_iff (f : Bytes) :
    2 ≤ (f.takeWhile isSlash).length ↔ ss <+: f := by
  rcases f with _ | ⟨c, _ | ⟨d, t⟩⟩
  · simp [ss]
  · have hle := (List.takeWhile_prefix isSlash (l := [c])).length_le
    rw [List.length_singleton] at hle
    refine ⟨fun h => absurd h (by omega), fun h => absurd h.length_le (by simp [ss])⟩
  · by_cases hc : c = slash
    · by_cases hd : d = slash
      · simp [hc, hd, isSlash, ss]
      · simp [hc, hd, isSlash, ss_isPrefix_iff]
    · simp [hc, isSlash, ss_isPrefix_iff]

/-- One slash in front stays. -/
theorem trimLeading_eq (s : Bytes) :
    trimLeading s = (s.takeWhile isSlash).take 1 ++ s.dropWhile isSlash := by
  have hp := findIf_not_isSlash [] s
  simp only [List.nil_append, List.length_nil, Nat.zero_add] at hp
  have hs := List.takeWhile_append_dropWhile (p := isSlash) (l := s)
  rw [trimLeading, hp]
  split
  · rename_i hlt
    rw [erase, List.take_zero, List.nil_append, Nat.zero_add]
    conv_lhs => rw [← hs]
    rw [List.drop_append_of_le_length (by rw [hs]; omega), hs]
    congr 1
    have hall : ∀ c ∈ s.takeWhile isSlash, c = slash := fun c hc => by
      simpa [isSlash] using List.mem_takeWhile_imp hc
    rw [List.eq_replicate_of_mem hall]
    simp only [List.length_replicate, List.drop_replicate, List.take_replicate]
    congr 1
    omega
  · rename_i hlt
    rw [List.take_of_length_le (by omega), hs]

/-- The root is the slashes in front. -/
theorem getRoot_eq (f : Bytes) : getRoot f = f.takeWhile isSlash := by
  rw [getRoot, findIf_zero]
  simp only [Bool.not_not]
  split
  · rename_i h
    rw [List.isEmpty_iff.mp h, List.takeWhile_nil]
  · by_cases hany : f.any (! isSlash ·) = true
    · rw [if_pos hany]
      exact (List.prefix_iff_eq_take.mp (List.takeWhile_prefix isSlash)).symm
    · rw [if_neg hany]
      exact (List.takeWhile_eq_self_iff.mpr (by simpa using hany)).symm

/-- The leading slashes of the name after the second pass, which the third one skips. -/
def leading (s : Bytes) : Bytes := (dropDots (trimLeading s)).takeWhile isSlash

/-- The name before the last pass. -/
def merged (s : Bytes) : Bytes :=
  leading s ++ squeeze ((dropDots (trimLeading s)).dropWhile isSlash)

/-- The loops leave the slashes in front that the name keeps. -/
theorem takeWhile_isSlash_merged (s : Bytes) : (merged s).takeWhile isSlash = leading s := by
  have hlead : ∀ c ∈ leading s, isSlash c = true := fun c hc => List.mem_takeWhile_imp hc
  have hrest : (squeeze ((dropDots (trimLeading s)).dropWhile isSlash)).takeWhile isSlash = [] := by
    have hhead := head?_squeeze ((dropDots (trimLeading s)).dropWhile isSlash)
    have hnot := List.head?_dropWhile_not isSlash (dropDots (trimLeading s))
    rw [← hhead] at hnot
    cases hq : squeeze ((dropDots (trimLeading s)).dropWhile isSlash) with
    | nil => rfl
    | cons c t =>
        rw [hq] at hnot
        exact List.takeWhile_cons_of_neg (by simpa using hnot)
  rw [merged, List.takeWhile_append_of_pos hlead, hrest, List.append_nil]

/-- The constructor, as loops over the name and a trim at the end. -/
theorem makeCanonical_eq (s : Bytes) :
    makeCanonical s = trimTrailing (max (leading s).length 1) (merged s) := by
  have hdots := replaceDots_append [] (trimLeading s)
  simp only [List.nil_append, List.length_nil] at hdots
  have hsplit := List.takeWhile_append_dropWhile (p := isSlash) (l := dropDots (trimLeading s))
  have hmerge : ∀ f, f = merged s →
      trimTrailing (max (getRoot f).length 1) f =
        trimTrailing (max (leading s).length 1) (merged s) := by
    rintro f rfl
    rw [getRoot_eq, takeWhile_isSlash_merged]
  rw [makeCanonical, hdots]
  refine hmerge _ ?_
  rw [findIf_zero]
  simp only [Bool.not_not]
  by_cases hany : (dropDots (trimLeading s)).any (! isSlash ·) = true
  · rw [if_pos hany]
    dsimp only
    conv_lhs => arg 1; rw [← hsplit]
    exact mergeSlashes_append _ _
  · have hall : ∀ c ∈ dropDots (trimLeading s), isSlash c = true := by simpa using hany
    rw [if_neg hany, merged, leading, List.dropWhile_eq_nil_iff.mpr hall,
      List.takeWhile_eq_self_iff.mpr hall, squeeze, List.append_nil]

/-- With at most one leading slash the third pass sees the whole name. -/
theorem merged_of_leading_le {s : Bytes} (h : (leading s).length ≤ 1) :
    merged s = squeeze (dropDots (trimLeading s)) := by
  have hsplit := List.takeWhile_append_dropWhile (p := isSlash) (l := dropDots (trimLeading s))
  have hall : ∀ c ∈ leading s, c = slash := fun c hc => by
    simpa [isSlash] using List.mem_takeWhile_imp hc
  rw [merged]
  conv_rhs => rw [← hsplit]
  change _ = squeeze (leading s ++ _)
  rcases hl : leading s with _ | ⟨c, _ | ⟨d, t⟩⟩
  · rw [List.nil_append, List.nil_append]
  · obtain rfl := hall c (by simp [hl])
    rw [List.singleton_append, List.singleton_append, squeeze_slash, List.dropWhile_idempotent]
  · rw [hl] at h
    simp at h

/-! ### The canonical form -/

/-- The canonical form of a file name: no `//`, no `/./`, and no `/` or `/.` at the end of
any name but `/`. -/
def Canonical (name : Bytes) : Prop :=
  ¬ ss <:+: name ∧ ¬ sds <:+: name ∧
    (name = [slash] ∨ (¬ [slash] <:+ name ∧ ¬ [slash, dot] <:+ name))

/-- `./`, perhaps repeated, and then a slash. -/
def DotsThenSlash : Bytes → Prop
  | c :: d :: t => c = dot ∧ d = slash ∧ (t.head? = some slash ∨ DotsThenSlash t)
  | _ => False

/-- An absolute name with `./`, perhaps repeated, and then a slash behind its leading
slashes. -/
def KeepsSlashes (s : Bytes) : Prop :=
  s.head? = some slash ∧ DotsThenSlash (s.dropWhile isSlash)

/-- Where the second pass finds no `/./` it keeps what is behind the slash. -/
theorem not_ss_isPrefix_dropDots {t : Bytes} (h : ¬ sds <+: slash :: t)
    (ht : t.head? ≠ some slash) : ¬ ss <+: dropDots (slash :: t) := by
  rw [dropDots_cons h, ss_isPrefix_iff]
  rintro ⟨v, hv⟩
  rw [List.cons.injEq] at hv
  rw [← head?_dropDots, hv.2] at ht
  exact ht rfl

/-- The second pass puts a slash behind a slash exactly for `./` and then a slash. -/
theorem ss_isPrefix_dropDots_iff {t : Bytes} (ht : t.head? ≠ some slash) :
    ss <+: dropDots (slash :: t) ↔ DotsThenSlash t := by
  induction t using DotsThenSlash.induct with
  | case1 c d t ih =>
      rw [DotsThenSlash]
      by_cases h : sds <+: slash :: c :: d :: t
      · obtain ⟨v, hv⟩ := sds_isPrefix_iff.mp h
        simp only [List.cons.injEq, true_and] at hv
        obtain ⟨rfl, rfl, rfl⟩ := hv
        rw [dropDots_sds]
        by_cases hhead : t.head? = some slash
        · obtain ⟨v, rfl⟩ := List.head?_eq_some_iff.mp hhead
          have hnot : ¬ sds <+: slash :: slash :: v := by simp [sds_isPrefix_iff, slash_ne_dot]
          obtain ⟨w, hw⟩ := List.head?_eq_some_iff.mp (head?_dropDots (slash :: v))
          rw [dropDots_cons hnot, hw]
          exact iff_of_true (ss_isPrefix_iff.mpr ⟨w, rfl⟩) ⟨rfl, rfl, .inl rfl⟩
        · rw [ih hhead]
          simp [hhead]
      · refine iff_of_false (not_ss_isPrefix_dropDots h ht) ?_
        rintro ⟨rfl, rfl, -⟩
        exact h (sds_isPrefix_iff.mpr ⟨t, rfl⟩)
  | case2 t hshort =>
      have hnot : ¬ sds <+: slash :: t := by
        rw [sds_isPrefix_iff]
        rintro ⟨v, hv⟩
        rw [List.cons.injEq] at hv
        exact hshort _ _ _ hv.2
      refine iff_of_false (not_ss_isPrefix_dropDots hnot ht) ?_
      rw [DotsThenSlash]
      · exact id
      · exact hshort

/-- The second pass leaves more than one leading slash exactly for such names. -/
theorem two_le_leading_iff (s : Bytes) : 2 ≤ (leading s).length ↔ KeepsSlashes s := by
  rw [leading, two_le_takeWhile_iff, KeepsSlashes, trimLeading_eq]
  by_cases hs : s.head? = some slash
  · obtain ⟨t, rfl⟩ := List.head?_eq_some_iff.mp hs
    have hhead : ((slash :: t).dropWhile isSlash).head? ≠ some slash := by
      have hnot := List.head?_dropWhile_not isSlash (slash :: t)
      intro h
      rw [h] at hnot
      simp [isSlash] at hnot
    have htake : ((slash :: t).takeWhile isSlash).take 1 = [slash] := by
      simp [isSlash]
    rw [htake, List.singleton_append, ss_isPrefix_dropDots_iff hhead]
    exact (and_iff_right hs).symm
  · refine iff_of_false ?_ fun h => hs h.1
    have hnil : s.takeWhile isSlash = [] := by
      cases s with
      | nil => rfl
      | cons c t => exact List.takeWhile_cons_of_neg (by simpa [isSlash] using hs)
    have hdrop : s.dropWhile isSlash = s := by
      conv_rhs => rw [← List.takeWhile_append_dropWhile (p := isSlash) (l := s), hnil,
        List.nil_append]
    rw [hnil, hdrop, List.take_nil, List.nil_append, ss_isPrefix_iff]
    rintro ⟨v, hv⟩
    rw [← head?_dropDots, hv] at hs
    exact hs rfl

/-- Canonical names are fixed points. -/
theorem makeCanonical_of_canonical {s : Bytes} (h : Canonical s) : makeCanonical s = s := by
  obtain ⟨hss, hsds, hend⟩ := h
  have htake : (s.takeWhile isSlash).length ≤ 1 := by
    by_contra hlt
    exact hss ((two_le_takeWhile_iff s).mp (by omega)).isInfix
  have hdots : dropDots (trimLeading s) = s := by
    rw [trimLeading_eq, List.take_of_length_le htake, List.takeWhile_append_dropWhile,
      dropDots_of_not_sds hsds]
  have hlead : (leading s).length ≤ 1 := by rwa [leading, hdots]
  rw [makeCanonical_eq, merged_of_leading_le hlead, hdots, squeeze_of_not_ss hss]
  apply trimTrailing_of_not
  rcases hend with rfl | hend
  · exact .inl (le_max_right _ _)
  · exact .inr hend

/-- A text of one byte is a slash or has none. -/
theorem slash_or_of_length_le {f : Bytes} (h : f.length ≤ 1) :
    f = [slash] ∨ (¬ [slash] <:+ f ∧ ¬ [slash, dot] <:+ f) := by
  by_cases hf : f = [slash]
  · exact .inl hf
  · refine .inr ⟨fun hsuf => hf (hsuf.eq_of_length_le h).symm, fun hsuf => ?_⟩
    have := hsuf.length_le
    simp only [List.length_cons, List.length_nil] at this
    omega

/-- With at most one leading slash left by the second pass, the name becomes canonical. -/
theorem canonical_makeCanonical {s : Bytes} (h : (leading s).length ≤ 1) :
    Canonical (makeCanonical s) := by
  rw [makeCanonical_eq, merged_of_leading_le h, Nat.max_eq_right h]
  have hpre := (trimTrailing_isPrefix 1 (squeeze (dropDots (trimLeading s)))).isInfix
  refine ⟨fun hin => not_ss_squeeze _ (hin.trans hpre),
    fun hin => not_sds_squeeze (not_sds_dropDots _) (hin.trans hpre), ?_⟩
  rcases trimTrailing_stops 1 (squeeze (dropDots (trimLeading s))) with hlen | hend
  · exact slash_or_of_length_le hlen
  · exact .inr hend

/-- More than one leading slash stays in the name. -/
theorem ss_isPrefix_makeCanonical {s : Bytes} (h : 2 ≤ (leading s).length) :
    ss <+: makeCanonical s := by
  have hle : (leading s).length ≤ (merged s).length := by
    rw [merged, List.length_append]
    omega
  have hlen := le_length_trimTrailing hle
  have hmerged : ss <+: merged s := by
    rw [← two_le_takeWhile_iff, takeWhile_isSlash_merged]
    exact h
  rw [makeCanonical_eq, Nat.max_eq_left (by omega)]
  exact List.prefix_of_prefix_length_le hmerged (trimTrailing_isPrefix _ _) (h.trans hlen)

/-- **The canonical form.** The path built from a name is in canonical form, and building
it again from that form changes nothing, exactly when the name is not one that keeps its
leading slashes. -/
theorem ofBytes_canonical_iff (s : Bytes) :
    (Canonical (ofBytes s).name ∧ ofBytes (ofBytes s).name = ofBytes s) ↔ ¬ KeepsSlashes s := by
  rw [← two_le_leading_iff, Nat.not_le, Nat.lt_succ_iff]
  constructor
  · rintro ⟨⟨hss, -⟩, -⟩
    by_contra hlt
    exact hss (ss_isPrefix_makeCanonical (by omega)).isInfix
  · intro h
    have hcan := canonical_makeCanonical h
    exact ⟨hcan, congrArg Path.mk (makeCanonical_of_canonical hcan)⟩

/-- The name `/.//a` becomes `//a`. -/
theorem ofBytes_canonical_fails :
    ¬ ∀ s : Bytes, Canonical (ofBytes s).name ∧ ofBytes (ofBytes s).name = ofBytes s := by
  intro h
  have hname : (ofBytes (bytes "/.//a")).name = bytes "//a" := by decide +kernel
  refine (h (bytes "/.//a")).1.1 ?_
  rw [hname]
  exact ⟨[], bytes "a", rfl⟩

end Path

end RsIo
