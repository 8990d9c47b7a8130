import RsIo.PathJoin

/-!
# The Common Part of Paths

`Path::common` compares two names character by character. Where they part inside an element
it goes back to the last delimiter in front of it. What it finds is the path of the elements
that the two paths share.

## Main results

* `common_text`: the characters that two texts share up to a delimiter are those of the
  pieces they share.
* `common_longest`: `Path::common` gives the longest common prefix of the elements, of two
  paths and of any number of paths, in any order.
-/

namespace RsIo

open StdString CommonPrefix

namespace Path

/-- An element ends at a position of a name. -/
def Boundary (f : Bytes) (i : ℕ) : Prop := i = f.length ∨ f[i]? = some slash

/-- A place in the rest of a text. -/
theorem boundary_append (pre f : Bytes) (i : ℕ) :
    Boundary (pre ++ f) (pre.length + i) ↔ Boundary f i := by
  rw [Boundary, Boundary, List.length_append, Nat.add_left_cancel_iff,
    List.getElem?_append_right (Nat.le_add_right _ _), Nat.add_sub_cancel_left]

/-- The place at the start of a text. -/
theorem boundary_zero_iff (f : Bytes) : Boundary f 0 ↔ f = [] ∨ f.head? = some slash := by
  rw [Boundary, List.head?_eq_getElem?, eq_comm, List.length_eq_zero_iff]

/-- The way back to `lo`, when no delimiter lies between. -/
theorem cutBack_eq {f : Bytes} {root lo cut : ℕ} (hlo : lo < cut) (hroot : root ≤ lo)
    (hstop : lo = root ∨ f[lo]? = some slash)
    (hbetween : ∀ i, lo < i → i < cut → f[i]? ≠ some slash) : cutBack f root cut = lo := by
  induction cut with
  | zero => omega
  | succ cut ih =>
      rw [cutBack]
      by_cases hcut : cut = lo
      · subst hcut
        rw [if_neg]
        rintro ⟨hgt, hne⟩
        exact hstop.elim (fun h => by omega) hne
      · rw [if_pos ⟨by omega, hbetween cut (by omega) (by omega)⟩]
        exact ih (by omega) fun i hi hic => hbetween i hi (by omega)

/-- From a position inside the element `x`, the way back leads to the delimiter in front of
it, or to the root. -/
theorem cutBack_inside {root j lo : ℕ} {front x s : Bytes} (hx : slash ∉ x) (hj : j ≤ x.length)
    (hlo : (front.length = lo ∧ lo = root ∧ j ≠ 0) ∨
      ∃ f, front = f ++ [slash] ∧ f.length = lo ∧ root ≤ lo) :
    cutBack (front ++ (x ++ s)) root (front.length + j) = lo := by
  have hinside : ∀ i, front.length ≤ i → i < front.length + j →
      (front ++ (x ++ s))[i]? ≠ some slash := by
    intro i hi hij hslash
    rw [List.getElem?_append_right hi, List.getElem?_append_left (by omega)] at hslash
    exact hx (List.mem_of_getElem? hslash)
  rcases hlo with ⟨hlen, hroot, hpos⟩ | ⟨f, rfl, hlen, hroot⟩
  · exact cutBack_eq (by omega) (by omega) (.inl hroot) fun i hi hij => hinside i (by omega) hij
  · rw [List.length_append, List.length_singleton] at hinside ⊢
    refine cutBack_eq (by omega) hroot (.inr ?_) fun i hi hij => hinside i (by omega) hij
    rw [List.append_assoc, List.getElem?_append_right (by omega), hlen, Nat.sub_self]
    rfl

/-! ### Where two texts part -/

/-- Two names that go on with different elements part inside one of them or at its end, and
not at the end of both. -/
theorem mismatch_elements {x y s t : Bytes} (hxy : x ≠ y) (hx : slash ∉ x) (hy : slash ∉ y)
    (hs : Boundary s 0) (ht : Boundary t 0) :
    mismatch (x ++ s) (y ++ t) ≤ x.length ∧
      ¬ (Boundary (x ++ s) (mismatch (x ++ s) (y ++ t)) ∧
        Boundary (y ++ t) (mismatch (x ++ s) (y ++ t))) := by
  obtain ⟨l, m, hl, hm, hlen, -⟩ := exists_split (x ++ s) (y ++ t)
  generalize commonPrefix (x ++ s) (y ++ t) = c at hl hm hlen
  rw [hlen]
  have hclean : ∀ {z : Bytes}, slash ∉ z → ∀ d ∈ z, (! isSlash d) = true := fun hz d hd => by
    simpa [isSlash] using fun h : d = slash => hz (h ▸ hd)
  have hend : ∀ {u : Bytes}, Boundary u 0 → ∀ d, u.head? = some d → (! isSlash d) = false := by
    intro u hu d hd
    rcases (boundary_zero_iff u).mp hu with rfl | hu
    · cases hd
    · rw [hd, Option.some.injEq] at hu
      rw [hu]
      rfl
  have hle : c.length ≤ x.length := by
    by_contra hlt
    -- the common part goes on behind `x` with a delimiter, so `y` ends there too
    obtain ⟨i, rfl⟩ : x <+: c := List.prefix_of_prefix_length_le (List.prefix_append x s)
      ⟨l, hl.symm⟩ (by omega)
    rw [List.append_assoc, List.append_cancel_left_eq] at hl
    have hi : Boundary (i ++ m) 0 := by
      cases i with
      | nil => simp at hlt
      | cons d i =>
          rw [boundary_zero_iff, hl] at hs
          exact (boundary_zero_iff _).mpr (.inr (by simpa using hs))
    rw [List.append_assoc] at hm
    exact hxy (span_unique hm (hclean hy) (hclean hx) (hend ht) (hend hi)).1.symm
  refine ⟨hle, ?_⟩
  rintro ⟨hbx, hby⟩
  have hpre : c <+: x :=
    List.prefix_of_prefix_length_le ⟨l, hl.symm⟩ (List.prefix_append x s) hle
  have hc : slash ∉ c := fun h => hx (hpre.subset h)
  rw [hl, ← Nat.add_zero c.length, boundary_append] at hbx
  rw [hm, ← Nat.add_zero c.length, boundary_append] at hby
  have hxc := (span_unique hl (hclean hx) (hclean hc) (hend hs) (hend hbx)).1
  have hyc := (span_unique hm (hclean hy) (hclean hc) (hend ht) (hend hby)).1
  exact hxy (hxc.trans hyc.symm)

/-- A text begins with its first piece, which ends where the text does or at a delimiter. -/
theorem exists_intercalate_cons (e : Bytes) (es : List Bytes) :
    ∃ s, [slash].intercalate (e :: es) = e ++ s ∧ Boundary s 0 := by
  rcases eq_or_ne es [] with rfl | hes
  · exact ⟨[], by rw [List.intercalate_singleton, List.append_nil], .inl rfl⟩
  · refine ⟨slash :: [slash].intercalate es, ?_, .inr rfl⟩
    rw [List.intercalate_cons_of_ne_nil hes, List.append_assoc, List.singleton_append]

/-- The text of the first elements begins the text of all. -/
theorem text_isPrefix (root : ℕ) (cs es : List Bytes) : text root cs <+: text root (cs ++ es) := by
  rcases eq_or_ne es [] with rfl | hes
  · rw [List.append_nil]
  · rw [text_append root cs hes]
    exact List.prefix_append _ _

/-- An element ends at a boundary. -/
theorem boundary_text (root : ℕ) {cs : List Bytes} (hcs : cs ≠ []) (es : List Bytes) :
    Boundary (text root (cs ++ es)) (text root cs).length := by
  rw [← Nat.add_zero (text root cs).length]
  rcases eq_or_ne es [] with rfl | hes
  · rw [List.append_nil]
    exact .inl rfl
  · rw [text_append root cs hes, boundary_append, boundary_zero_iff, glue, if_neg hcs]
    exact .inr rfl

/-- Without elements there are only the slashes in front. -/
theorem length_text_nil (root : ℕ) : (text root []).length = root := by
  rw [text, List.intercalate_nil, List.append_nil, List.length_replicate]

/-- The slashes in front are in the text. -/
theorem root_le_length_text (root : ℕ) (cs : List Bytes) : root ≤ (text root cs).length := by
  rw [text, List.length_append, List.length_replicate]
  omega

/-- The root of a text is its slashes in front. -/
theorem getRoot_text (root : ℕ) {es : List Bytes} (h : ∀ e ∈ es, e ≠ [] ∧ slash ∉ e) :
    getRoot (text root es) = List.replicate root slash := by
  rw [getRoot_eq, (span_text root (fun e he => (h e he).2) fun hnil =>
    (h [] (List.mem_of_head? hnil)).1 rfl).1]

/-- A name that ends with the common part ends where the other one goes on. -/
theorem mismatch_text_end (root : ℕ) (cs : List Bytes) {ps qs : List Bytes}
    (hnil : ps = [] ∨ qs = []) :
    mismatch (text root (cs ++ ps)) (text root (cs ++ qs)) = (text root cs).length := by
  obtain ⟨u, hu⟩ := text_isPrefix root cs ps
  obtain ⟨v, hv⟩ := text_isPrefix root cs qs
  have huv : mismatch u v = 0 := by
    rcases hnil with rfl | rfl
    · rw [List.append_nil, List.append_right_eq_self] at hu
      simp [hu, mismatch_eq_zero_iff]
    · rw [List.append_nil, List.append_right_eq_self] at hv
      simp [hv, mismatch_eq_zero_iff]
  rw [← hu, ← hv, mismatch_append, huv, Nat.add_zero]

/-- **The characters that two names share.** Of two names that have the elements `cs` in
common and then part, `common` finds the path of `cs`. -/
theorem common_text {root : ℕ} {cs ps qs : List Bytes}
    (hp : ∀ e ∈ cs ++ ps, e ≠ [] ∧ slash ∉ e) (hq : ∀ e ∈ cs ++ qs, e ≠ [] ∧ slash ∉ e)
    (hpart : mismatch ps qs = 0) :
    common ⟨text root (cs ++ ps)⟩ ⟨text root (cs ++ qs)⟩ = ofBytes (text root cs) := by
  have hcs : ∀ e ∈ cs, e ≠ [] ∧ slash ∉ e := fun e he => hp e (List.mem_append_left _ he)
  have hsub : ∀ n, n = (text root cs).length →
      ofBytes (substr (text root (cs ++ ps)) 0 n) = ofBytes (text root cs) := by
    rintro n rfl
    rw [substr, List.drop_zero, ← List.prefix_iff_eq_take.mp (text_isPrefix root cs ps)]
  have hroot : (List.replicate root slash).length = root := List.length_replicate
  rw [common]
  simp only [getRoot_text root hp, getRoot_text root hq, ne_eq, not_true_eq_false, if_false, hroot]
  by_cases hnil : ps = [] ∨ qs = []
  · -- one name ends with the common part
    rw [mismatch_text_end root cs hnil]
    by_cases hroot' : (text root cs).length = root
    · rw [if_pos hroot', hsub _ rfl]
    · have hne : cs ≠ [] := by
        rintro rfl
        exact hroot' (length_text_nil root)
      rw [if_neg hroot', if_pos ⟨boundary_text root hne ps, boundary_text root hne qs⟩, hsub _ rfl]
  · -- both go on, with different elements
    rw [not_or] at hnil
    obtain ⟨x, ps, rfl⟩ := List.exists_cons_of_ne_nil hnil.1
    obtain ⟨y, qs, rfl⟩ := List.exists_cons_of_ne_nil hnil.2
    obtain ⟨s, hs, hsb⟩ := exists_intercalate_cons x ps
    obtain ⟨t, ht, htb⟩ := exists_intercalate_cons y qs
    have hxy : x ≠ y := fun h => mismatch_eq_zero_iff.mp hpart x rfl (h ▸ rfl)
    have hx : slash ∉ x := (hp x (by simp)).2
    obtain ⟨hle, hends⟩ := mismatch_elements hxy hx (hq y (by simp)).2 hsb htb
    have hlen := root_le_length_text root cs
    rw [text_append root cs (by simp), hs, ← List.append_assoc] at hsub ⊢
    rw [text_append root cs (by simp), ht, ← List.append_assoc (text root cs)]
    have hfront : (text root cs ++ glue cs).length = (text root cs).length + (glue cs).length :=
      List.length_append
    generalize hj : mismatch (x ++ s) (y ++ t) = j at hle hends
    rw [← boundary_append (text root cs ++ glue cs) (x ++ s),
      ← boundary_append (text root cs ++ glue cs) (y ++ t), Boundary, Boundary] at hends
    rw [mismatch_append, hj]
    by_cases hcut : (text root cs ++ glue cs).length + j = root
    · rw [if_pos hcut, hsub _ (by omega)]
    · rw [if_neg hcut, if_neg hends]
      refine hsub _ (cutBack_inside hx hle ?_)
      rcases eq_or_ne cs [] with rfl | hne
      · have hroot' := length_text_nil root
        have hnil : (glue []).length = 0 := rfl
        exact .inl ⟨by omega, hroot', by omega⟩
      · rw [glue, if_neg hne]
        exact .inr ⟨text root cs, rfl, rfl, hlen⟩

/-! ### Paths -/

namespace Parts

/-- The elements that two paths share. -/
def common (p q : Parts) : Parts :=
  if p.root = q.root then
    p.front (commonPrefix p.elems q.elems) ((commonPrefix_spec p.elems q.elems).1 _ (by simp))
  else
    nil

variable {p q : Parts}

/-- What is common has one slash in front at most. -/
theorem root_common_le (hp : p.root ≤ 1) : (p.common q).root ≤ 1 := by
  rw [common]
  split
  · exact hp
  · exact Nat.zero_le 1

/-- `Path::common` on the parts of paths. -/
theorem common_path (hp : p.root ≤ 1) : Path.common p.path q.path = (p.common q).path := by
  rw [common]
  by_cases hroot : p.root = q.root
  · obtain ⟨l, m, hl, hm, -, hpart⟩ := exists_split p.elems q.elems
    have hpath := (ofBytes_name_iff
      (p.front _ ((commonPrefix_spec p.elems q.elems).1 _ (by simp)))).mpr hp
    have hname : p.name = text p.root (commonPrefix p.elems q.elems ++ l) := by rw [name, ← hl]
    have hname' : q.name = text p.root (commonPrefix p.elems q.elems ++ m) := by
      rw [name, ← hm, hroot]
    rw [if_pos hroot, ← hpath, path, path, hname, hname']
    exact common_text (by rw [← hl]; exact p.named) (by rw [← hm]; exact q.named) hpart
  · have hne : getRoot p.path.filename ≠ getRoot q.path.filename := by
      change getRoot p.name ≠ getRoot q.name
      rw [getRoot_name, getRoot_name]
      exact fun h => hroot (by simpa using congrArg List.length h)
    rw [if_neg hroot, Path.common]
    exact if_pos hne

/-- Two paths with different roots share no element. -/
theorem head?_breakdown_ne (hp : p.root = 0) (hq : q.root = 1) :
    ∀ e, p.breakdown.head? = some e → q.breakdown.head? ≠ some e := by
  intro e he
  rw [breakdown, if_pos hp, List.nil_append] at he
  have hslash := p.slash_not_mem e (List.mem_of_head? he)
  rw [breakdown, if_neg (by omega), hq]
  rintro ⟨rfl⟩
  exact hslash List.mem_cons_self

/-- What is common is the longest common prefix of the breakdowns. -/
theorem breakdown_common (hp : p.root ≤ 1) (hq : q.root ≤ 1) :
    IsLongest (p.common q).breakdown [p.breakdown, q.breakdown] := by
  have hspec := commonPrefix_spec p.breakdown q.breakdown
  have heq : (p.common q).breakdown = commonPrefix p.breakdown q.breakdown := by
    rw [common]
    by_cases hroot : p.root = q.root
    · rw [if_pos hroot, breakdown, breakdown, breakdown, ← hroot, commonPrefix_append]
      rfl
    · have hzero : mismatch p.breakdown q.breakdown = 0 := by
        rw [mismatch_eq_zero_iff]
        rcases Nat.eq_zero_or_pos p.root with hp' | hp'
        · exact head?_breakdown_ne hp' (by omega)
        · exact fun e he hqe => head?_breakdown_ne (by omega) (by omega) e hqe he
      rw [if_neg hroot, commonPrefix, hzero, List.take_zero]
      rfl
  rwa [← heq] at hspec

end Parts

/-- **The common part of paths.** For paths with canonical names it has the longest common
prefix of the elements, of two paths and of any number, whatever their order. -/
theorem common_longest :
    (∀ a b : Path, ofBytes a.name = a → ofBytes b.name = b →
      IsLongest (common a b).breakdown [a.breakdown, b.breakdown]) ∧
    ∀ files : List Path, files ≠ [] → (∀ p ∈ files, ofBytes p.name = p) →
      IsLongest (commonRange files).breakdown (files.map breakdown) ∧
        ∀ files' : List Path, files'.Perm files → commonRange files' = commonRange files := by
  have htwo : ∀ a b : Path, ofBytes a.name = a → ofBytes b.name = b →
      ofBytes (common a b).name = common a b ∧
        IsLongest (common a b).breakdown [a.breakdown, b.breakdown] := by
    intro a b ha hb
    obtain ⟨p, hp, rfl⟩ := exists_parts ha
    obtain ⟨q, hq, rfl⟩ := exists_parts hb
    rw [Parts.common_path hp, Parts.breakdown_path, Parts.breakdown_path, Parts.breakdown_path]
    exact ⟨(Parts.ofBytes_name_iff _).mpr (Parts.root_common_le hp), Parts.breakdown_common hp hq⟩
  have hall : ∀ files : List Path, files ≠ [] → (∀ p ∈ files, ofBytes p.name = p) →
      ofBytes (commonRange files).name = commonRange files ∧
        IsLongest (commonRange files).breakdown (files.map breakdown) := by
    intro files hne hcan
    obtain ⟨p, ps, rfl⟩ := List.exists_cons_of_ne_nil hne
    exact IsLongest.foldl htwo hcan
  refine ⟨fun a b ha hb => (htwo a b ha hb).2, fun files hne hcan => ?_⟩
  obtain ⟨hresult, hlongest⟩ := hall files hne hcan
  refine ⟨hlongest, fun files' hperm => ?_⟩
  obtain ⟨hresult', hlongest'⟩ := hall files' (fun h => hne (by simpa [h] using hperm.symm))
    fun p hp => hcan p (hperm.mem_iff.mp hp)
  have hbreak := (hlongest'.perm (hperm.map breakdown)).unique hlongest
  rw [eq_joinRange_breakdown hresult', hbreak, ← eq_joinRange_breakdown hresult]

/-- The names `/usr/lib` and `/usr/local` part inside an element. -/
theorem common_longest_usr :
    IsLongest (common ⟨bytes "/usr/lib"⟩ ⟨bytes "/usr/local"⟩).breakdown
        [breakdown ⟨bytes "/usr/lib"⟩, breakdown ⟨bytes "/usr/local"⟩] ∧
      IsLongest (commonRange [⟨bytes "/usr/lib"⟩]).breakdown [breakdown ⟨bytes "/usr/lib"⟩] :=
  ⟨common_longest.1 _ _ (by decide +kernel) (by decide +kernel),
    (common_longest.2 [⟨bytes "/usr/lib"⟩] (by simp) (by decide +kernel)).1⟩

end Path

end RsIo
