import RsIo.PathCanonical
import RsIo.PathName
import RsIo.Splitting

/-!
# What a File Name Denotes

A name is taken apart at its delimiters. The canonical form keeps the components that count:
those that are neither empty nor `.`, and the first one of a relative name, whatever it is.

A path is then given by the number of slashes at its front and by its components, with what
the constructor promises about them: `Parts`. Every path is the text of one such value and
of one only, so the functions that put names together and take them apart can be read as
functions on `Parts`.

## Main results

* `makeCanonical_denotes`: the canonical form has the same form and the same components.
* `makeCanonical_text`: the canonical form of any text, from its pieces.
* `ofBytes_eq_name`, `Parts.name_injective`: paths are the texts of `Parts`.
* `exists_parts`: the paths with a canonical name are those with at most one slash in front.
-/

namespace RsIo

open StdString

namespace Path

/-! ### Components -/

/-- A component that says something wherever it stands. -/
def keeps (e : Bytes) : Bool := decide (e ≠ []) && decide (e ≠ [dot])

/-- The components of a name between its delimiters, without the empty ones and without
every `.` that is not the first component of a relative name. -/
def components (s : Bytes) : List Bytes :=
  match s.splitOn slash with
  | [] => []
  | first :: rest => (if first = [] then [] else [first]) ++ rest.filter keeps

/-- The text before the first delimiter, and the components that count behind it. -/
def outline (s : Bytes) : Bytes × List Bytes :=
  ((s.splitOn slash).headD [], (s.splitOn slash).tail.filter keeps)

/-- A component counts if it is neither empty nor a dot. -/
theorem keeps_iff {e : Bytes} : keeps e = true ↔ e ≠ [] ∧ e ≠ [dot] := by
  simp [keeps]

/-- The components are the first piece, if there is one, and those behind it. -/
theorem components_eq (s : Bytes) :
    components s = (if (outline s).1 = [] then [] else [(outline s).1]) ++ (outline s).2 := by
  rw [components, outline]
  cases h : s.splitOn slash with
  | nil => exact absurd h (List.splitOn_ne_nil slash s)
  | cons first rest => rfl

/-- The parts of a name behind a delimiter. -/
theorem outline_append_slash (s t : Bytes) :
    outline (s ++ slash :: t) =
      ((outline s).1, (outline s).2 ++ (t.splitOn slash).filter keeps) := by
  obtain ⟨first, rest, h⟩ := List.exists_cons_of_ne_nil (List.splitOn_ne_nil slash s)
  rw [outline, outline, List.splitOn_append_cons_self, h]
  simp

/-- In front of a first delimiter there is nothing. -/
theorem outline_slash (t : Bytes) :
    outline (slash :: t) = ([], (t.splitOn slash).filter keeps) := by
  rw [← List.nil_append (slash :: t), outline_append_slash]
  simp [outline]

/-- The pieces that count are in the outline. -/
theorem splitOn_eq_outline (t : Bytes) :
    (t.splitOn slash).filter keeps = [(outline t).1].filter keeps ++ (outline t).2 := by
  obtain ⟨first, rest, h⟩ := List.exists_cons_of_ne_nil (List.splitOn_ne_nil slash t)
  rw [outline, h, List.headD_cons, List.tail_cons, ← List.filter_append, List.singleton_append]

/-- A character in front belongs to the first piece. -/
theorem outline_cons {c : UInt8} (hc : c ≠ slash) (t : Bytes) :
    outline (c :: t) = (c :: (outline t).1, (outline t).2) := by
  obtain ⟨first, rest, h⟩ := List.exists_cons_of_ne_nil (List.splitOn_ne_nil slash t)
  rw [outline, outline, List.splitOn_cons_eq_if_modifyHead, if_neg (by simpa using hc), h]
  rfl

/-- What is in front does not tell two rests with one outline apart. -/
theorem outline_congr {t u : Bytes} (c : UInt8) (h : outline t = outline u) :
    outline (c :: t) = outline (c :: u) := by
  by_cases hc : c = slash
  · rw [hc, outline_slash, outline_slash, splitOn_eq_outline, splitOn_eq_outline, h]
  · rw [outline_cons hc, outline_cons hc, h]

/-! ### The passes keep the outline -/

/-- Dropping dots between delimiters does not change the outline. -/
theorem outline_dropDots (s : Bytes) : outline (dropDots s) = outline s := by
  induction s using dropDots.induct with
  | case1 => rw [dropDots]
  | case2 c t h ih =>
      obtain ⟨v, hv⟩ := sds_isPrefix_iff.mp h
      rw [hv, dropDots_sds]
      rw [List.cons.injEq] at hv
      rw [hv.2, List.tail_cons] at ih
      rw [ih, outline_slash, outline_slash, splitOn_eq_outline (dot :: _),
        outline_cons slash_ne_dot.symm, outline_slash]
      rfl
  | case3 c t h ih => rw [dropDots_cons h, outline_congr c ih]

/-- Squeezing delimiters does not change the outline. -/
theorem outline_squeeze (s : Bytes) : outline (squeeze s) = outline s := by
  induction s with
  | nil => rfl
  | cons c t ih =>
      by_cases h : ss <+: c :: t
      · obtain ⟨v, hv⟩ := ss_isPrefix_iff.mp h
        rw [List.cons.injEq] at hv
        obtain ⟨rfl, rfl⟩ := hv
        rw [squeeze_ss]
        rw [ih, outline_slash, outline_slash, splitOn_eq_outline (slash :: _), outline_slash]
        rfl
      · rw [squeeze_cons h, outline_congr c ih]

/-- The outline depends on the outline of a later part. -/
theorem outline_append_congr (pre : Bytes) {t u : Bytes} (h : outline t = outline u) :
    outline (pre ++ t) = outline (pre ++ u) := by
  induction pre with
  | nil => exact h
  | cons c pre ih => exact outline_congr c ih

/-- The delimiters in front are no part of the outline, however many there are. -/
theorem outline_trimLeading (s : Bytes) : outline (trimLeading s) = outline s := by
  rw [trimLeading_eq]
  cases s with
  | nil => rfl
  | cons c t =>
      by_cases hc : isSlash c = true
      · obtain rfl : c = slash := by simpa [isSlash] using hc
        rw [List.takeWhile_cons_of_pos hc, List.dropWhile_cons_of_pos hc]
        calc outline (slash :: t.dropWhile isSlash)
            = outline (slash :: squeeze (t.dropWhile isSlash)) :=
              outline_congr slash (outline_squeeze _).symm
          _ = outline (squeeze (slash :: t)) := by rw [squeeze_slash]
          _ = outline (slash :: t) := outline_squeeze _
      · rw [List.takeWhile_cons_of_neg hc, List.dropWhile_cons_of_neg hc]
        rfl

/-- Neither loop over the name changes the outline. -/
theorem outline_merged (s : Bytes) : outline (merged s) = outline s := by
  rw [merged, outline_append_congr _ (outline_squeeze _), leading,
    List.takeWhile_append_dropWhile, outline_dropDots, outline_trimLeading]

/-- What the last pass cuts off is a delimiter at the end, or a component `.`. -/
theorem outline_trimTrailing (m : ℕ) (f : Bytes) : outline (trimTrailing m f) = outline f := by
  fun_induction trimTrailing m f with
  | case1 f h ih =>
      rw [ih]
      rcases (endsTrimmable_iff f).mp h.2 with ⟨g, rfl⟩ | ⟨g, rfl⟩
      · rw [List.dropLast_concat, outline_append_slash]
        simp [keeps]
      · rw [show g ++ [slash, dot] = g ++ [slash] ++ [dot] by simp, List.dropLast_concat,
          List.append_assoc, List.singleton_append, outline_append_slash, outline_append_slash,
          splitOn_eq_outline, splitOn_eq_outline, outline_cons slash_ne_dot.symm]
        simp [outline, keeps]
  | case2 f h => rfl

/-- The constructor does not change the outline. -/
theorem outline_makeCanonical (s : Bytes) : outline (makeCanonical s) = outline s := by
  rw [makeCanonical_eq, outline_trimTrailing, outline_merged]

/-- The constructor does not change the components. -/
theorem components_makeCanonical (s : Bytes) : components (makeCanonical s) = components s := by
  rw [components_eq, components_eq, outline_makeCanonical]

/-! ### The passes keep the form -/

/-- A name without its additional leading delimiters starts as it did. -/
theorem head?_trimLeading (s : Bytes) : (trimLeading s).head? = s.head? := by
  rw [trimLeading_eq]
  cases s with
  | nil => rfl
  | cons c t =>
      by_cases hc : isSlash c = true
      · rw [List.takeWhile_cons_of_pos hc]
        rfl
      · rw [List.takeWhile_cons_of_neg hc, List.dropWhile_cons_of_neg hc]
        rfl

/-- The loops over the name leave its first character. -/
theorem head?_merged (s : Bytes) : (merged s).head? = s.head? := by
  have hsplit := List.takeWhile_append_dropWhile (p := isSlash) (l := dropDots (trimLeading s))
  rw [merged, List.head?_append, head?_squeeze, leading, ← List.head?_append, hsplit,
    head?_dropDots, head?_trimLeading]

/-- The last pass keeps the first character. -/
theorem head?_trimTrailing {m : ℕ} (hm : 1 ≤ m) (f : Bytes) :
    (trimTrailing m f).head? = f.head? := by
  rcases f with _ | ⟨c, t⟩
  · rw [trimTrailing_of_not (.inl (Nat.zero_le m))]
  · obtain ⟨u, hu⟩ := trimTrailing_isPrefix m (c :: t)
    have hpos : 1 ≤ (trimTrailing m (c :: t)).length := by
      by_cases hlen : m ≤ (c :: t).length
      · exact hm.trans (le_length_trimTrailing hlen)
      · rw [trimTrailing_of_not (.inl (by omega))]
        simp
    cases h : trimTrailing m (c :: t) with
    | nil => simp [h] at hpos
    | cons d v =>
        rw [h, List.cons_append, List.cons.injEq] at hu
        rw [hu.1, List.head?_cons, List.head?_cons]

/-- The constructor leaves the first character. -/
theorem head?_makeCanonical (s : Bytes) : (makeCanonical s).head? = s.head? := by
  rw [makeCanonical_eq, head?_trimTrailing (le_max_right _ _), head?_merged]

/-- **What a name denotes.** The path built from a name is absolute, relative or empty
exactly when the name is, and has the components of the name. -/
theorem makeCanonical_denotes (s : Bytes) :
    (ofBytes s).isAbsolute = isAbsolute ⟨s⟩ ∧ (ofBytes s).isRelative = isRelative ⟨s⟩ ∧
      (ofBytes s).empty = empty ⟨s⟩ ∧ components (ofBytes s).name = components s := by
  have habs : (ofBytes s).isAbsolute = isAbsolute ⟨s⟩ := by
    rw [isAbsolute, isAbsolute, ofBytes, head?_makeCanonical]
  have hempty : (ofBytes s).empty = empty ⟨s⟩ := by
    rw [Bool.eq_iff_iff, empty, empty, List.isEmpty_iff, List.isEmpty_iff, ← List.head?_eq_none_iff,
      ← List.head?_eq_none_iff, ofBytes, head?_makeCanonical]
  refine ⟨habs, ?_, hempty, components_makeCanonical s⟩
  rw [isRelative, isRelative, habs, hempty]
  rfl

/-! ### The text of a list of pieces -/

/-- A text made of slashes and of pieces with a slash between any two. -/
def text (root : ℕ) (pieces : List Bytes) : Bytes :=
  List.replicate root slash ++ [slash].intercalate pieces

/-- What stands between the elements `cs` of a text and those behind them. -/
def glue (cs : List Bytes) : Bytes := if cs = [] then [] else [slash]

/-- The text of some pieces begins with the text of the first of them. -/
theorem text_append (root : ℕ) (cs : List Bytes) {es : List Bytes} (hes : es ≠ []) :
    text root (cs ++ es) = text root cs ++ (glue cs ++ [slash].intercalate es) := by
  rcases eq_or_ne cs [] with rfl | hcs
  · rw [text, text, glue, if_pos rfl, List.intercalate_nil, List.append_nil]
    rfl
  · rw [text, text, glue, if_neg hcs, Splitting.intercalate_append hcs hes, List.append_assoc,
      List.singleton_append]

/-- A text with a piece is longer than its slashes in front. -/
theorem root_lt_length_text (root : ℕ) {cs : List Bytes} (hcs : cs ≠ [])
    (hnamed : ∀ e ∈ cs, e ≠ [] ∧ slash ∉ e) : root < (text root cs).length := by
  obtain ⟨e, es, rfl⟩ := List.exists_cons_of_ne_nil hcs
  have hne : [slash].intercalate (e :: es) ≠ [] :=
    Splitting.intercalate_ne_nil (hnamed e List.mem_cons_self).1
  have hpos := List.length_pos_iff.mpr hne
  rw [text, List.length_append, List.length_replicate]
  omega

/-- The pieces that the constructor keeps. -/
def kept (root : ℕ) (pieces : List Bytes) : List Bytes :=
  if root = 0 then pieces.take 1 ++ (pieces.drop 1).filter keeps else pieces.filter keeps

/-- The pieces are found again between the slashes. -/
theorem splitOn_intercalate {pieces : List Bytes} (h : ∀ e ∈ pieces, slash ∉ e) :
    (([slash].intercalate pieces).splitOn slash).filter keeps = pieces.filter keeps := by
  by_cases hne : pieces = []
  · subst hne
    rfl
  · rw [List.splitOn_intercalate slash h hne]

/-- The outline of pieces with a slash between any two. -/
theorem outline_intercalate {e : Bytes} {pieces : List Bytes} (h : ∀ d ∈ e :: pieces, slash ∉ d) :
    outline ([slash].intercalate (e :: pieces)) = (e, pieces.filter keeps) := by
  rw [outline, List.splitOn_intercalate slash h (by simp)]
  rfl

/-- One more slash in front. -/
theorem text_succ (root : ℕ) (pieces : List Bytes) :
    text (root + 1) pieces = slash :: text root pieces := rfl

/-- Behind a slash in front all pieces that count are components. -/
theorem outline_text_succ (root : ℕ) {pieces : List Bytes} (h : ∀ e ∈ pieces, slash ∉ e) :
    outline (text (root + 1) pieces) = ([], pieces.filter keeps) := by
  induction root with
  | zero => rw [text_succ, outline_slash, text, List.replicate_zero, List.nil_append,
      splitOn_intercalate h]
  | succ root ih =>
      rw [text_succ, outline_slash, splitOn_eq_outline, ih]
      rfl

/-- The components of a text, the first piece of which is not empty if no slash stands in
front of it. -/
theorem components_text {root : ℕ} {pieces : List Bytes} (h : ∀ e ∈ pieces, slash ∉ e)
    (hfirst : root = 0 → pieces.head? ≠ some []) :
    components (text root pieces) = kept root pieces := by
  rw [components_eq]
  cases root with
  | zero =>
      cases pieces with
      | nil => rfl
      | cons e pieces =>
          have he : e ≠ [] := by simpa using hfirst rfl
          rw [text, List.replicate_zero, List.nil_append, outline_intercalate h, if_neg he]
          rfl
  | succ root =>
      rw [outline_text_succ root h]
      rfl

/-- Behind the slashes in front of a text its first piece begins. -/
theorem head?_intercalate_ne {pieces : List Bytes} (h : ∀ e ∈ pieces, slash ∉ e)
    (hfirst : pieces.head? ≠ some []) : ([slash].intercalate pieces).head? ≠ some slash := by
  cases pieces with
  | nil => simp
  | cons e pieces =>
      have he : e ≠ [] := by simpa using hfirst
      rw [Splitting.head?_intercalate he]
      exact fun hc => h e List.mem_cons_self (List.mem_of_head? hc)

/-- A text begins with its slashes, and the pieces follow. -/
theorem span_text (root : ℕ) {pieces : List Bytes} (h : ∀ e ∈ pieces, slash ∉ e)
    (hfirst : pieces.head? ≠ some []) :
    (text root pieces).takeWhile isSlash = List.replicate root slash ∧
      (text root pieces).dropWhile isSlash = [slash].intercalate pieces := by
  have hhead := head?_intercalate_ne h hfirst
  refine span_unique (List.takeWhile_append_dropWhile) (fun c hc => List.mem_takeWhile_imp hc)
    (fun c hc => ?_) (fun c hc => ?_) (fun c hc => ?_)
  · rw [List.eq_of_mem_replicate hc]
    rfl
  · have hnot := List.head?_dropWhile_not isSlash (text root pieces)
    rw [hc] at hnot
    simpa using hnot
  · by_contra hslash
    have hc' : c = slash := by simpa [isSlash] using hslash
    exact hhead (hc' ▸ hc)

/-! ### The canonical form of a text -/

/-- In a canonical name every component but the first counts. -/
theorem keeps_of_mem_tail {s : Bytes} (hs : Canonical s) (hne : s ≠ [slash]) :
    ∀ e ∈ (s.splitOn slash).tail, keeps e = true := by
  obtain ⟨hss, hsds, hend⟩ := hs
  have hend := hend.resolve_left hne
  intro e he
  obtain ⟨u, v, rfl, hv⟩ := Splitting.mem_tail_splitOn he
  rw [keeps_iff]
  constructor
  · rintro rfl
    rcases hv with rfl | hv
    · exact hend.1 (List.suffix_append u _)
    · obtain ⟨w, rfl⟩ := List.head?_eq_some_iff.mp hv
      exact hss ⟨u, w, by simp [ss]⟩
  · rintro rfl
    rcases hv with rfl | hv
    · exact hend.2 (List.suffix_append u _)
    · obtain ⟨w, rfl⟩ := List.head?_eq_some_iff.mp hv
      exact hsds ⟨u, w, by simp [sds]⟩

/-- A canonical name is the text of its components, behind the slash in front of them. -/
theorem eq_text_of_canonical {s : Bytes} (hs : Canonical s) :
    s = text (s.takeWhile isSlash).length (components s) := by
  by_cases hne : s = [slash]
  · subst hne
    rfl
  · have htail := keeps_of_mem_tail hs hne
    have htext : [slash].intercalate (s.splitOn slash) = s := List.intercalate_splitOn slash
    obtain ⟨first, rest, h⟩ := List.exists_cons_of_ne_nil (List.splitOn_ne_nil slash s)
    rw [h, List.tail_cons] at htail
    rw [h] at htext
    have hrest : rest.filter keeps = rest := List.filter_eq_self.mpr htail
    have hslash : ∀ e ∈ first :: rest, slash ∉ e := fun e he =>
      Splitting.not_mem_of_mem_splitOn (h ▸ he)
    have hcomp : components s = (if first = [] then [] else [first]) ++ rest := by
      simp only [components, h, hrest]
    rw [hcomp]
    by_cases hfirst : first = []
    · subst hfirst
      cases rest with
      | nil =>
          rw [← htext]
          rfl
      | cons e rest =>
          have he : (e :: rest).head? ≠ some [] := by
            simpa using (keeps_iff.mp (htail e List.mem_cons_self)).1
          have hs : s = text 1 (e :: rest) := htext.symm
          have hspan := span_text 1 (fun d hd => hslash d (List.mem_cons_of_mem _ hd)) he
          rw [← hs] at hspan
          rw [hspan.1, List.length_replicate]
          exact hs
    · have hs : s = text 0 (first :: rest) := htext.symm
      have hspan := span_text 0 hslash (by simpa using hfirst)
      rw [← hs] at hspan
      rw [hspan.1, if_neg hfirst]
      exact hs

/-- A name without a slash in front has none to keep. -/
theorem leading_eq_nil_iff (s : Bytes) : leading s = [] ↔ s.head? ≠ some slash := by
  rw [leading, ← head?_trimLeading, ← head?_dropDots]
  cases dropDots (trimLeading s) with
  | nil => simp
  | cons c t => by_cases hc : c = slash <;> simp [isSlash, hc]

/-- The slashes that the last pass takes for the root, and what it leaves behind them. -/
theorem makeCanonical_split (s : Bytes) :
    ∃ r, makeCanonical s = leading s ++ r ∧
      r <+: squeeze ((dropDots (trimLeading s)).dropWhile isSlash) := by
  have hle : (leading s).length ≤ (merged s).length := by
    rw [merged, List.length_append]
    omega
  have hpre := trimTrailing_isPrefix (max (leading s).length 1) (merged s)
  have hlen : (leading s).length ≤
      (trimTrailing (max (leading s).length 1) (merged s)).length := by
    by_cases hmax : max (leading s).length 1 ≤ (merged s).length
    · exact (le_max_left _ _).trans (le_length_trimTrailing hmax)
    · rwa [trimTrailing_of_not (.inl (by omega))]
  obtain ⟨r, hr⟩ := List.prefix_of_prefix_length_le (List.prefix_append _ _) hpre hlen
  rw [← makeCanonical_eq] at hr hpre
  refine ⟨r, hr.symm, ?_⟩
  rw [← hr, merged] at hpre
  exact (List.prefix_append_right_inj _).mp hpre

/-- Behind all but one of the slashes in front, a name that keeps them is canonical too. -/
theorem canonical_behind {s r l : Bytes} (hl : leading s = l ++ [slash])
    (hr : makeCanonical s = leading s ++ r)
    (hpre : r <+: squeeze ((dropDots (trimLeading s)).dropWhile isSlash)) :
    Canonical (slash :: r) := by
  have hrest : dropDots (trimLeading s) =
      l ++ slash :: (dropDots (trimLeading s)).dropWhile isSlash := by
    conv_lhs => rw [← List.takeWhile_append_dropWhile (p := isSlash) (l := dropDots (trimLeading s))]
    rw [← leading, hl, List.append_assoc, List.singleton_append]
  have hhead := List.head?_dropWhile_not isSlash (dropDots (trimLeading s))
  generalize (dropDots (trimLeading s)).dropWhile isSlash = rest at hpre hrest hhead
  refine ⟨?_, ?_, ?_⟩
  · rw [List.infix_cons_iff, not_or]
    refine ⟨fun hss => ?_, fun hin => not_ss_squeeze rest (hin.trans hpre.isInfix)⟩
    obtain ⟨t, ht⟩ := ss_isPrefix_iff.mp
      (hss.trans ((List.prefix_append_right_inj [slash]).mpr hpre))
    rw [List.singleton_append, List.cons.injEq] at ht
    rw [← head?_squeeze, ht.2] at hhead
    simp [isSlash] at hhead
  · have hsds := hrest ▸ not_sds_dropDots (trimLeading s)
    have hsuf : slash :: rest <:+: l ++ slash :: rest := (List.suffix_append l _).isInfix
    rw [List.infix_cons_iff, not_or]
    refine ⟨fun hdots => ?_, fun hin => ?_⟩
    · have hfront : sds <+: slash :: rest := sds_isPrefix_of_pass head?_squeeze squeeze_dot
        (hdots.trans ((List.prefix_append_right_inj [slash]).mpr hpre))
      exact hsds (hfront.isInfix.trans hsuf)
    · refine not_sds_squeeze (fun hin => hsds ?_) (hin.trans hpre.isInfix)
      exact hin.trans ((List.suffix_cons slash rest).isInfix.trans hsuf)
  · have hlen : (leading s).length = l.length + 1 := by rw [hl, List.length_append]; rfl
    have hsuf : slash :: r <:+ makeCanonical s := by
      rw [hr, hl, List.append_assoc]
      exact List.suffix_append l _
    rcases trimTrailing_stops (max (leading s).length 1) (merged s) with hstop | hstop
    · rw [← makeCanonical_eq, hr, List.length_append] at hstop
      have hnil : r = [] := List.eq_nil_of_length_eq_zero (by omega)
      exact .inl (by rw [hnil])
    · rw [← makeCanonical_eq] at hstop
      exact .inr ⟨fun h => hstop.1 (h.trans hsuf), fun h => hstop.2 (h.trans hsuf)⟩

/-- A component is not empty and has no slash. -/
theorem mem_components {s e : Bytes} (h : e ∈ components s) : e ≠ [] ∧ slash ∉ e := by
  simp only [components] at h
  split at h
  · cases h
  · rename_i first rest hs
    have hslash : ∀ e ∈ first :: rest, slash ∉ e := fun e he =>
      Splitting.not_mem_of_mem_splitOn (hs ▸ he)
    rcases List.mem_append.mp h with h | h
    · split at h
      · cases h
      · rw [List.mem_singleton.mp h]
        exact ⟨by assumption, hslash _ List.mem_cons_self⟩
    · rw [List.mem_filter] at h
      exact ⟨(keeps_iff.mp h.2).1, hslash e (List.mem_cons_of_mem first h.1)⟩

/-- Every component of the outline counts. -/
theorem filter_outline (s : Bytes) : (outline s).2.filter keeps = (outline s).2 := by
  rw [outline, List.filter_filter]
  simp only [Bool.and_self]

/-- All components of a name but the first of a relative one are other than `.`. -/
theorem kept_components (s : Bytes) :
    kept (leading s).length (components s) = components s := by
  have hfilter := filter_outline s
  rw [components_eq, kept]
  by_cases hlead : leading s = []
  · rw [hlead, List.length_nil, if_pos rfl]
    by_cases hfirst : (outline s).1 = []
    · rw [if_pos hfirst, List.nil_append]
      conv_rhs => rw [← List.take_append_drop 1 (outline s).2]
      rw [List.filter_eq_self.mpr]
      exact fun e he => List.filter_eq_self.mp hfilter e (List.mem_of_mem_drop he)
    · rw [if_neg hfirst, List.singleton_append, List.take_succ_cons, List.take_zero,
        List.drop_succ_cons, List.drop_zero, hfilter, List.singleton_append]
  · have hhead := not_not.mp ((leading_eq_nil_iff s).not.mp hlead)
    obtain ⟨t, rfl⟩ := List.head?_eq_some_iff.mp hhead
    rw [if_neg (by simpa using hlead), if_pos (by rw [outline_slash]), List.nil_append, hfilter]

/-- Behind a slash no component is `.`. -/
theorem filter_components {s : Bytes} (h : s.head? = some slash) :
    (components s).filter keeps = components s := by
  have hlead : leading s ≠ [] := fun hnil => (leading_eq_nil_iff s).mp hnil h
  have hkept := kept_components s
  rwa [kept, if_neg (by simpa using hlead)] at hkept

/-- The slashes in front of a text. -/
theorem text_add (m n : ℕ) (pieces : List Bytes) :
    text (m + n) pieces = List.replicate m slash ++ text n pieces := by
  rw [text, text, List.replicate_add, List.append_assoc]

/-- **The canonical form of a name** is the text of its components. -/
theorem makeCanonical_eq_text (s : Bytes) :
    makeCanonical s = text (leading s).length (components s) := by
  obtain ⟨r, hr, hpre⟩ := makeCanonical_split s
  rcases List.eq_nil_or_concat' (leading s) with hl | ⟨l, c, hl⟩
  · have hcan : Canonical (makeCanonical s) := canonical_makeCanonical (by simp [hl])
    have hhead : (makeCanonical s).head? ≠ some slash := by
      rw [head?_makeCanonical]
      exact (leading_eq_nil_iff s).mp hl
    have htake : (makeCanonical s).takeWhile isSlash = [] := by
      cases hm : makeCanonical s with
      | nil => rfl
      | cons d t =>
          rw [hm] at hhead
          exact List.takeWhile_cons_of_neg (by simpa [isSlash] using hhead)
    have htext := eq_text_of_canonical hcan
    rwa [htake, components_makeCanonical, ← hl] at htext
  · have hall : ∀ d ∈ leading s, d = slash := fun d hd => by
      simpa [isSlash] using List.mem_takeWhile_imp hd
    obtain rfl : c = slash := hall c (by simp [hl])
    have hl' : l = List.replicate l.length slash :=
      List.eq_replicate_of_mem fun d hd => hall d (by simp [hl, hd])
    have hcan := canonical_behind hl hr hpre
    -- the root of the part that is canonical is its one slash
    have htake : ((slash :: r).takeWhile isSlash).length = 1 := by
      have hle : ¬ 2 ≤ ((slash :: r).takeWhile isSlash).length := fun h =>
        hcan.1 ((two_le_takeWhile_iff _).mp h).isInfix
      rw [List.takeWhile_cons_of_pos rfl, List.length_cons] at hle ⊢
      omega
    have htext := eq_text_of_canonical hcan
    rw [htake] at htext
    have hm : makeCanonical s = text (l.length + 1) (components (slash :: r)) := by
      rw [text_add, ← htext, ← hl', hr, hl, List.append_assoc, List.singleton_append]
    have hcomp : components s = components (slash :: r) := by
      rw [← components_makeCanonical s, hm, components_text (fun e he => (mem_components he).2)
        (by simp), kept, if_neg (by simp), filter_components rfl]
    rw [hm, hcomp, hl, List.length_append]
    rfl

/-- A text goes on with `./` and then a slash or `./` only if its first two pieces are of that
kind. -/
theorem not_dotsThenSlash {pieces : List Bytes} (h : ∀ e ∈ pieces, slash ∉ e)
    (hp : pieces.head? ≠ some [dot] ∨ ∀ e ∈ pieces.drop 1, keeps e = true) :
    ¬ DotsThenSlash ([slash].intercalate pieces) := by
  have hsecond : ∀ t : Bytes, t.head? = some slash ∨ DotsThenSlash t →
      ∃ e rest, t.splitOn slash = e :: rest ∧ keeps e = false := by
    rintro (_ | ⟨c, t⟩) (hc | hd)
    · cases hc
    · cases hd
    · obtain rfl : c = slash := by simpa using hc
      exact ⟨[], _, List.splitOn_append_cons_self [] t, rfl⟩
    · cases t with
      | nil => cases hd
      | cons d t =>
          obtain ⟨rfl, rfl, -⟩ := hd
          exact ⟨[dot], _, List.splitOn_append_cons_self [dot] t, rfl⟩
  intro hdots
  cases pieces with
  | nil => cases hdots
  | cons first rest =>
      have hsplit := List.splitOn_intercalate slash h (by simp)
      generalize [slash].intercalate (first :: rest) = s at hdots hsplit
      match s, hdots with
      | c :: d :: t, hdots =>
          obtain ⟨rfl, rfl, hnext⟩ := hdots
          obtain ⟨e, more, ht, he⟩ := hsecond t hnext
          have hshape := List.splitOn_append_cons_self [dot] t (a := slash)
          have hdot : List.splitOn slash [dot] = [[dot]] :=
            List.splitOn_eq_singleton (by simp [slash_ne_dot])
          rw [ht, hdot, List.singleton_append, List.singleton_append, hsplit,
            List.cons.injEq] at hshape
          obtain ⟨rfl, rfl⟩ := hshape
          rcases hp with hp | hp
          · exact hp rfl
          · rw [hp e (by simp)] at he
            cases he

/-- No more than one slash stays in front of a text, unless it goes on with `./` and then a
slash or `./`. -/
theorem length_leading_text {root : ℕ} {pieces : List Bytes} (h : ∀ e ∈ pieces, slash ∉ e)
    (hfirst : pieces.head? ≠ some [])
    (hdots : root = 0 ∨ ¬ DotsThenSlash ([slash].intercalate pieces)) :
    (leading (text root pieces)).length = min root 1 := by
  have hnil := leading_eq_nil_iff (text root pieces)
  rw [← List.length_eq_zero_iff] at hnil
  cases root with
  | zero =>
      have hhead := head?_intercalate_ne h hfirst
      simp only [hnil.mpr hhead, Nat.zero_le, min_eq_left]
  | succ root =>
      have hle : ¬ 2 ≤ (leading (text (root + 1) pieces)).length := by
        rw [two_le_leading_iff, KeepsSlashes, (span_text (root + 1) h hfirst).2]
        exact fun hkeep => hdots.resolve_left (by simp) hkeep.2
      have hne := hnil.not.mpr (by simp [text_succ])
      omega

/-- **The canonical form of a text**, from its pieces. -/
theorem makeCanonical_text {root : ℕ} {pieces : List Bytes} (h : ∀ e ∈ pieces, slash ∉ e)
    (hfirst : pieces.head? ≠ some [])
    (hdots : root = 0 ∨ ¬ DotsThenSlash ([slash].intercalate pieces)) :
    makeCanonical (text root pieces) = text (min root 1) (kept root pieces) := by
  rw [makeCanonical_eq_text, length_leading_text h hfirst hdots,
    components_text h fun _ => hfirst]

/-! ### Paths by their parts -/

/-- A path by its parts: the slashes in front of it, and its components, of which only the
first one of a relative path may be `.`. -/
@[ext]
structure Parts where
  root : ℕ
  elems : List Bytes
  named : ∀ e ∈ elems, e ≠ [] ∧ slash ∉ e
  kept_eq : kept root elems = elems

namespace Parts

/-- The file name. -/
def name (p : Parts) : Bytes := text p.root p.elems

/-- The path with these parts. -/
def path (p : Parts) : Path := ⟨p.name⟩

/-- The parts of the path built from a name. -/
def ofName (s : Bytes) : Parts :=
  ⟨(leading s).length, components s, fun _ he => mem_components he, kept_components s⟩

variable (p q : Parts)

/-- An element has no slash. -/
theorem slash_not_mem : ∀ e ∈ p.elems, slash ∉ e := fun e he => (p.named e he).2

/-- The first element is not empty. -/
theorem head?_ne_nil : p.elems.head? ≠ some [] := fun h =>
  (p.named [] (List.mem_of_head? h)).1 rfl

/-- Every element but the first one counts. -/
theorem keeps_of_mem_drop : ∀ e ∈ p.elems.drop 1, keeps e = true := by
  have hkept := p.kept_eq
  rw [kept] at hkept
  split at hkept
  · have htake := List.take_append_drop 1 p.elems
    exact List.filter_eq_self.mp (List.append_cancel_left (hkept.trans htake.symm))
  · exact fun e he => List.filter_eq_self.mp hkept e (List.mem_of_mem_drop he)

/-- No component of an absolute path is `.`. -/
theorem keeps_of_mem {p : Parts} (hroot : p.root ≠ 0) : ∀ e ∈ p.elems, keeps e = true := by
  have hkept := p.kept_eq
  rw [kept, if_neg hroot] at hkept
  exact List.filter_eq_self.mp hkept

/-- The path of some of the elements from the front. -/
def front (es : List Bytes) (h : es <+: p.elems) : Parts where
  root := p.root
  elems := es
  named e he := p.named e (h.subset he)
  kept_eq := by
    rw [kept]
    split
    · rw [List.filter_eq_self.mpr, List.take_append_drop]
      exact fun e he => p.keeps_of_mem_drop e ((h.drop 1).subset he)
    · rename_i hroot
      exact List.filter_eq_self.mpr fun e he => keeps_of_mem hroot e (h.subset he)

/-- Elements do not read like a dot behind which a slash follows. -/
theorem not_dotsThenSlash : ¬ DotsThenSlash ([slash].intercalate p.elems) :=
  Path.not_dotsThenSlash p.slash_not_mem (.inr p.keeps_of_mem_drop)

/-- The components of the name are the elements. -/
theorem components_name : components p.name = p.elems := by
  rw [name, components_text p.slash_not_mem fun _ => p.head?_ne_nil, p.kept_eq]

/-- The root of the name is the slashes in front. -/
theorem getRoot_name : getRoot p.name = List.replicate p.root slash := by
  rw [getRoot_eq, name, (span_text p.root p.slash_not_mem p.head?_ne_nil).1]

/-- A path has one set of parts only. -/
theorem name_injective : Function.Injective name := by
  intro p q h
  have hroot := congrArg List.length (congrArg getRoot h)
  rw [getRoot_name, getRoot_name, List.length_replicate, List.length_replicate] at hroot
  have helems := congrArg components h
  rw [components_name, components_name] at helems
  exact Parts.ext hroot helems

/-- The parts of the path that is built again from a name. -/
theorem makeCanonical_name : makeCanonical p.name = text (min p.root 1) p.elems := by
  rw [name, makeCanonical_text p.slash_not_mem p.head?_ne_nil (.inr p.not_dotsThenSlash),
    p.kept_eq]

end Parts

/-- A path is the path of its parts. -/
theorem ofBytes_eq_path (s : Bytes) : ofBytes s = (Parts.ofName s).path :=
  congrArg Path.mk (makeCanonical_eq_text s)

/-- Building a path again from its name changes nothing exactly if no more than one slash
stands in front of it. -/
theorem Parts.ofBytes_name_iff (p : Parts) : ofBytes p.path.name = p.path ↔ p.root ≤ 1 := by
  have hname : ofBytes p.path.name = ⟨text (min p.root 1) p.elems⟩ :=
    congrArg Path.mk p.makeCanonical_name
  rw [hname]
  constructor
  · intro h
    have hlen := congrArg (fun q : Path => q.filename.length) h
    simp only [Parts.path, Parts.name, text, List.length_append, List.length_replicate] at hlen
    omega
  · intro h
    rw [Nat.min_eq_left h]
    rfl

/-- The paths with a canonical name. -/
theorem exists_parts {p : Path} (h : ofBytes p.name = p) :
    ∃ q : Parts, q.root ≤ 1 ∧ p = q.path := by
  have hpath := ofBytes_eq_path p.name
  rw [h] at hpath
  refine ⟨Parts.ofName p.name, ?_, hpath⟩
  rw [← Parts.ofBytes_name_iff, ← hpath, h]

end Path

end RsIo
