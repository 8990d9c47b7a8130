import RsIo.PathParts

/-!
# Joining Paths and Breaking Them Down

`Path::join` puts a delimiter between two names where one is missing and makes the result
canonical. On the parts of the paths this is `Parts.join`: the components of the second path
are added to those of the first one, without a `.` at their front. `Path::breakdown` reads
the parts back.

## Main results

* `join_path`, `breakdown_path`: both functions on the parts of paths.
* `join_associative`: joining is associative.
* `breakdown_joinRange`: joining and breaking down are inverse to each other.
-/

namespace RsIo

open StdString

namespace Path

namespace Parts

variable (p q r : Parts)

/-- The path of which nothing is there. -/
def IsEmpty : Prop := p.root = 0 ∧ p.elems = []

/-- Whether a path has no parts can be computed. -/
instance : Decidable p.IsEmpty := inferInstanceAs (Decidable (_ ∧ _))

/-- The empty path has no parts. -/
theorem empty_path : p.path.empty = decide p.IsEmpty := by
  rw [Bool.eq_iff_iff, decide_eq_true_iff, Path.empty, List.isEmpty_iff, IsEmpty]
  change text p.root p.elems = [] ↔ _
  rw [text, List.append_eq_nil_iff, List.replicate_eq_nil_iff]
  refine and_congr_right fun _ => ⟨fun h => ?_, fun h => by rw [h, List.intercalate_nil]⟩
  cases helems : p.elems with
  | nil => rfl
  | cons e es =>
      rw [helems] at h
      exact absurd h (Splitting.intercalate_ne_nil (p.named e (by simp [helems])).1)

/-- A path with a slash in front is absolute. -/
theorem isAbsolute_path : p.path.isAbsolute = decide (p.root ≠ 0) := by
  rw [Bool.eq_iff_iff, decide_eq_true_iff, Path.isAbsolute, beq_iff_eq]
  change (text p.root p.elems).head? = _ ↔ _
  cases hroot : p.root with
  | zero =>
      have hhead := head?_intercalate_ne p.slash_not_mem p.head?_ne_nil
      simpa [text] using hhead
  | succ root => simp [text_succ]

/-- A path with components does not end in a slash. -/
theorem getLast?_name (h : p.elems ≠ []) : p.name.getLast? ≠ some slash := by
  obtain ⟨ds, e, hde⟩ := (List.eq_nil_or_concat' p.elems).resolve_left h
  have he := p.named e (by simp [hde])
  have hsuf : e <:+ p.name := by
    rw [name, text, hde]
    rcases eq_or_ne ds [] with rfl | hds
    · rw [List.nil_append, List.intercalate_singleton]
      exact List.suffix_append _ e
    · rw [Splitting.intercalate_concat hds]
      exact ((List.suffix_cons slash e).trans (List.suffix_append _ _)).trans
        (List.suffix_append _ _)
  obtain ⟨u, hu⟩ := hsuf
  rw [← hu, List.getLast?_append_of_ne_nil _ he.1]
  exact fun hlast => he.2 (List.mem_of_getLast? hlast)

/-! ### Joining -/

/-- What is kept depends on whether there is a slash in front. -/
theorem kept_min (root : ℕ) (pieces : List Bytes) :
    kept (min root 1) pieces = kept root pieces := by
  cases root with
  | zero => rfl
  | succ root => simp [kept]

/-- What is kept of pieces that follow a path. -/
theorem kept_append (h : ¬ p.IsEmpty) (pieces : List Bytes) :
    kept p.root (p.elems ++ pieces) = p.elems ++ pieces.filter keeps := by
  have hkeeps := p.keeps_of_mem_drop
  rw [kept]
  split
  · rename_i hroot
    cases helems : p.elems with
    | nil => exact absurd ⟨hroot, helems⟩ h
    | cons e es =>
        rw [helems, List.drop_succ_cons, List.drop_zero] at hkeeps
        rw [List.cons_append, List.take_succ_cons, List.take_zero, List.drop_succ_cons,
          List.drop_zero, List.filter_append, List.filter_eq_self.mpr hkeeps]
        rfl
  · rename_i hroot
    rw [List.filter_append, List.filter_eq_self.mpr (keeps_of_mem hroot)]

/-- The parts of two paths joined. -/
def join : Parts :=
  if h : p.IsEmpty ∨ q.root ≠ 0 then q
  else
    { root := min p.root 1
      elems := p.elems ++ q.elems.filter keeps
      named := fun e he =>
        (List.mem_append.mp he).elim (p.named e) fun he => q.named e (List.mem_of_mem_filter he)
      kept_eq := by
        rw [kept_min, kept_append p (fun hp => h (.inl hp)), List.filter_filter]
        simp only [Bool.and_self] }

/-- Nothing in front of a path leaves the path. -/
theorem join_of_isEmpty {p : Parts} (h : p.IsEmpty) : p.join q = q := by
  rw [join, dif_pos (.inl h)]

/-- An absolute path replaces what is in front of it. -/
theorem join_of_root {q : Parts} (h : q.root ≠ 0) : p.join q = q := by
  rw [join, dif_pos (.inr h)]

/-- The joined path has the root of the first one. -/
theorem root_join {p q : Parts} (hp : ¬ p.IsEmpty) (hq : q.root = 0) :
    (p.join q).root = min p.root 1 := by
  rw [join, dif_neg (by simp [hp, hq])]

/-- The joined path has the elements of both. -/
theorem elems_join {p q : Parts} (hp : ¬ p.IsEmpty) (hq : q.root = 0) :
    (p.join q).elems = p.elems ++ q.elems.filter keeps := by
  rw [join, dif_neg (by simp [hp, hq])]

/-- A joined path is not empty. -/
theorem not_isEmpty_join {p q : Parts} (hp : ¬ p.IsEmpty) (hq : q.root = 0) :
    ¬ (p.join q).IsEmpty := by
  rw [IsEmpty, root_join hp hq, elems_join hp hq, List.append_eq_nil_iff]
  rintro ⟨hroot, helems, -⟩
  exact hp ⟨by omega, helems⟩

/-- The empty path. -/
def nil : Parts := ⟨0, [], by simp, rfl⟩

/-- Nothing behind a path leaves the path. -/
theorem join_nil {p : Parts} (hp : p.root ≤ 1) : p.join nil = p := by
  by_cases h : p.IsEmpty
  · rw [join_of_isEmpty _ h]
    exact Parts.ext h.1.symm h.2.symm
  · apply Parts.ext
    · rw [root_join h rfl]
      exact Nat.min_eq_left hp
    · rw [elems_join h rfl]
      exact List.append_nil p.elems

/-- **Joining is associative** on the parts of paths. -/
theorem join_assoc : (p.join q).join r = p.join (q.join r) := by
  by_cases hr : r.root = 0
  · by_cases hp : p.IsEmpty
    · rw [join_of_isEmpty q hp, join_of_isEmpty _ hp]
    · by_cases hqroot : q.root = 0
      · have hpq := not_isEmpty_join hp hqroot
        by_cases hq : q.IsEmpty
        · rw [join_of_isEmpty r hq]
          apply Parts.ext
          · rw [root_join hpq hr, root_join hp hqroot, root_join hp hr, min_assoc, min_self]
          · rw [elems_join hpq hr, elems_join hp hqroot, elems_join hp hr, hq.2, List.filter_nil,
              List.append_nil]
        · have hqr : (q.join r).root = 0 := by rw [root_join hq hr, hqroot, Nat.zero_min]
          apply Parts.ext
          · rw [root_join hpq hr, root_join hp hqroot, root_join hp hqr, min_assoc, min_self]
          · rw [elems_join hpq hr, elems_join hp hqroot, elems_join hp hqr, elems_join hq hr,
              List.filter_append, List.filter_filter, List.append_assoc]
            simp only [Bool.and_self]
      · have hqr : (q.join r).root ≠ 0 := by
          rw [root_join (fun hq => hqroot hq.1) hr]
          omega
        rw [join_of_root p hqroot, join_of_root p hqr]
  · rw [join_of_root (p.join q) hr, join_of_root q hr, join_of_root p hr]

/-- Elements have a text. -/
theorem intercalate_elems_ne_nil {p : Parts} (h : p.elems ≠ []) :
    [slash].intercalate p.elems ≠ [] := by
  obtain ⟨e, es, helems⟩ := List.exists_cons_of_ne_nil h
  rw [helems]
  exact Splitting.intercalate_ne_nil (p.named e (by simp [helems])).1

/-- The text that `join` hands to the constructor. -/
theorem joined_text {q : Parts} (hq : q.root = 0) :
    (if (getRoot p.name).length < p.name.length ∧ p.name.getLast? ≠ some slash ∧
        q.path.empty = false then p.name ++ [slash] else p.name) ++ q.name =
      text p.root (p.elems ++ q.elems) := by
  have hqname : q.name = [slash].intercalate q.elems := by
    rw [name, text, hq, List.replicate_zero, List.nil_append]
  have hempty : q.path.empty = false ↔ q.elems ≠ [] := by
    rw [empty_path, decide_eq_false_iff_not, IsEmpty, and_iff_right hq]
  rw [getRoot_name, List.length_replicate, hqname]
  by_cases hp : p.elems = []
  · have hname : p.name = List.replicate p.root slash := by
      rw [name, text, hp, List.intercalate_nil, List.append_nil]
    rw [if_neg (by simp [hname]), hname, hp, List.nil_append]
    rfl
  · have hlen : p.root < p.name.length := by
      have hpos := List.length_pos_iff.mpr (intercalate_elems_ne_nil hp)
      rw [name, text, List.length_append, List.length_replicate]
      omega
    by_cases hqe : q.elems = []
    · rw [if_neg (by simp [hempty, hqe]), hqe, List.intercalate_nil, List.append_nil,
        List.append_nil]
      rfl
    · rw [if_pos ⟨hlen, getLast?_name p hp, hempty.mpr hqe⟩, text,
        Splitting.intercalate_append hp hqe, name, text]
      simp

/-- `Path::join` on the parts of paths. -/
theorem join_path : Path.join p.path q.path = (p.join q).path := by
  rw [Path.join, empty_path, isAbsolute_path]
  by_cases h : p.IsEmpty ∨ q.root ≠ 0
  · rw [if_pos (by simpa using h), join, dif_pos h]
  · rw [if_neg (by simpa using h)]
    rw [not_or, not_not] at h
    obtain ⟨hp, hq⟩ := h
    have hslash : ∀ e ∈ p.elems ++ q.elems, slash ∉ e := fun e he =>
      (List.mem_append.mp he).elim (p.slash_not_mem e) (q.slash_not_mem e)
    have hfirst : (p.elems ++ q.elems).head? ≠ some [] := fun hnil =>
      (List.mem_append.mp (List.mem_of_head? hnil)).elim (fun he => (p.named _ he).1 rfl)
        fun he => (q.named _ he).1 rfl
    have hdots : p.root = 0 ∨ ¬ DotsThenSlash ([slash].intercalate (p.elems ++ q.elems)) := by
      refine or_iff_not_imp_left.mpr fun hroot => ?_
      cases helems : p.elems with
      | nil => exact q.not_dotsThenSlash
      | cons e es =>
          refine Path.not_dotsThenSlash (helems ▸ hslash) (.inl ?_)
          have he := keeps_iff.mp (keeps_of_mem hroot e (by simp [helems]))
          simpa using he.2
    refine (congrArg ofBytes (joined_text p hq)).trans ?_
    rw [ofBytes, makeCanonical_text hslash hfirst hdots, kept_append p hp, path, name,
      root_join hp hq, elems_join hp hq]

end Parts

/-- **Joining is associative.** Every path is built from a name. -/
theorem join_associative (a b c : Bytes) :
    join (join (ofBytes a) (ofBytes b)) (ofBytes c) =
      join (ofBytes a) (join (ofBytes b) (ofBytes c)) := by
  simp only [ofBytes_eq_path, Parts.join_path, Parts.join_assoc]

/-! ### Breaking down -/

/-- From the end of any part on, the loop reads the pieces of the rest. -/
theorem breakdownLoop_append {pieces : List Bytes} (h : ∀ e ∈ pieces, e ≠ [] ∧ slash ∉ e)
    (pre : Bytes) (parts : List Bytes) :
    breakdownLoop (pre ++ [slash].intercalate pieces) pre.length parts = parts ++ pieces := by
  induction pieces generalizing pre parts with
  | nil =>
      rw [List.intercalate_nil, List.append_nil, breakdownLoop, dif_neg (Nat.lt_irrefl _),
        List.append_nil]
  | cons e pieces ih =>
      have he := h e List.mem_cons_self
      have hpos := List.length_pos_iff.mpr he.1
      have hslash : ∀ c ∈ e, isSlash c = false := fun c hc => by
        simpa [isSlash] using fun hs : c = slash => he.2 (hs ▸ hc)
      cases pieces with
      | nil =>
          have hfind := findIf_append_none pre hslash
          have hsub := substr_append pre e []
          rw [List.append_nil] at hsub
          rw [List.intercalate_singleton, breakdownLoop, dif_pos (by simp [hpos]), hfind]
          simp only [Option.getD_none, List.length_append]
          rw [breakdownLoop, dif_neg (by simp), Nat.add_sub_cancel_left, hsub]
      | cons d pieces =>
          have htext : pre ++ [slash].intercalate (e :: d :: pieces) =
              pre ++ (e ++ slash :: [slash].intercalate (d :: pieces)) := by
            rw [List.intercalate_cons_cons, List.append_assoc, List.singleton_append]
          have hfind := findIf_append_cons pre ([slash].intercalate (d :: pieces)) hslash
            (c := slash) rfl
          have hlen : pre.length <
            (pre ++ (e ++ slash :: [slash].intercalate (d :: pieces))).length := by
            rw [List.length_append, List.length_append]
            omega
          rw [htext, breakdownLoop, dif_pos hlen, hfind]
          simp only [Option.getD_some]
          rw [Nat.add_sub_cancel_left, substr_append]
          have hnext := ih (fun d hd => h d (List.mem_cons_of_mem e hd)) (pre ++ e ++ [slash])
            (parts ++ [e])
          simp only [List.append_assoc, List.length_append, List.singleton_append,
            List.length_singleton] at hnext ⊢
          exact hnext

namespace Parts

/-- The elements of a path: its root, if there is one, and its components. -/
def breakdown (p : Parts) : List Bytes :=
  (if p.root = 0 then [] else [List.replicate p.root slash]) ++ p.elems

/-- `Path::breakdown` on the parts of a path. -/
theorem breakdown_path (p : Parts) : p.path.breakdown = p.breakdown := by
  rw [Path.breakdown, empty_path]
  by_cases h : p.IsEmpty
  · rw [if_pos (by simpa using h), breakdown, if_pos h.1, h.2]
    rfl
  · have hloop := breakdownLoop_append p.named (List.replicate p.root slash)
      (if p.root = 0 then [] else [List.replicate p.root slash])
    rw [List.length_replicate] at hloop
    have hroot : getRoot p.path.filename = List.replicate p.root slash := p.getRoot_name
    rw [if_neg (by simpa using h)]
    simp only [hroot, List.length_replicate, List.isEmpty_iff, List.replicate_eq_nil_iff]
    exact hloop

/-- The path of one component. -/
def single (e : Bytes) (h : e ≠ [] ∧ slash ∉ e) : Parts where
  root := 0
  elems := [e]
  named d hd := by rwa [List.mem_singleton.mp hd]
  kept_eq := rfl

/-- The name of one element is the element. -/
theorem name_single {e : Bytes} (h : e ≠ [] ∧ slash ∉ e) : (single e h).path.name = e := by
  change text 0 [e] = e
  rw [text, List.intercalate_singleton, List.replicate_zero, List.nil_append]

/-- One element is a path. -/
theorem ofBytes_single {e : Bytes} (h : e ≠ [] ∧ slash ∉ e) : ofBytes e = (single e h).path := by
  have hname := (ofBytes_name_iff (single e h)).mpr (Nat.zero_le 1)
  rwa [name_single] at hname

/-- Joining more components to a path that is not empty adds them. -/
theorem foldl_join {p q : Parts} (hp : ¬ p.IsEmpty) (hroot : p.root ≤ 1) {es : List Bytes}
    (hes : ∀ e ∈ es, (e ≠ [] ∧ slash ∉ e) ∧ keeps e = true) (hq : q.root = p.root)
    (helems : q.elems = p.elems ++ es) :
    (es.map ofBytes).foldl Path.join p.path = q.path := by
  induction es generalizing p with
  | nil =>
      rw [List.append_nil] at helems
      rw [List.map_nil, List.foldl_nil, Parts.ext hq helems]
  | cons e es ih =>
      have he := hes e List.mem_cons_self
      have hroot' : (p.join (single e he.1)).root = p.root := by
        rw [root_join hp rfl]
        omega
      have helems' : (p.join (single e he.1)).elems = p.elems ++ [e] := by
        rw [elems_join hp rfl]
        simp [single, he.2]
      rw [List.map_cons, List.foldl_cons, ofBytes_single he.1, join_path]
      refine ih (not_isEmpty_join hp rfl) (hroot' ▸ hroot)
        (fun d hd => hes d (List.mem_cons_of_mem e hd)) (hq.trans hroot'.symm) ?_
      rw [helems', helems, List.append_assoc, List.singleton_append]

/-- A path with a canonical name is put together again from its elements. -/
theorem joinRange_breakdown {p : Parts} (hroot : p.root ≤ 1) :
    joinRange p.breakdown = p.path := by
  rw [joinRange, breakdown]
  by_cases h : p.root = 0
  · have hdrop := p.keeps_of_mem_drop
    rw [if_pos h, List.nil_append]
    cases helems : p.elems with
    | nil =>
        have hempty : p.path.empty = true := by simp [empty_path, IsEmpty, h, helems]
        rw [List.map_nil, doCombine, path, ← List.isEmpty_iff.mp hempty]
        rfl
    | cons e es =>
        have he := p.named e (by simp [helems])
        rw [helems, List.drop_succ_cons, List.drop_zero] at hdrop
        rw [List.map_cons, doCombine, ofBytes_single he]
        exact foldl_join (by simp [IsEmpty, single]) (Nat.zero_le 1)
          (fun d hd => ⟨p.named d (by simp [helems, hd]), hdrop d hd⟩) h helems
  · have hone : p.root = 1 := by omega
    let top : Parts := ⟨1, [], by simp, rfl⟩
    have htop : ofBytes (List.replicate p.root slash) = top.path := by
      have hname := (ofBytes_name_iff top).mpr le_rfl
      have htext : top.path.name = List.replicate p.root slash := by
        rw [hone]
        rfl
      rwa [htext] at hname
    rw [if_neg h, List.singleton_append, List.map_cons, doCombine, htop]
    exact foldl_join (by simp [IsEmpty, top]) le_rfl
      (fun e he => ⟨p.named e he, keeps_of_mem h e he⟩) hone rfl

end Parts

/-- A list of elements that a canonical name can consist of: `/` or not, and then non-empty
elements without slashes, of which only the first one may be `.`, and only without `/`. -/
def IsBreakdown (l : List Bytes) : Prop :=
  ∃ isRooted : Bool, ∃ es : List Bytes, l = (if isRooted then [[slash]] else []) ++ es ∧
    (∀ e ∈ es, e ≠ [] ∧ slash ∉ e) ∧ ∀ e ∈ (if isRooted then es else es.tail), e ≠ [dot]

/-- The parts of a breakdown make up a path. -/
theorem exists_parts_of_isBreakdown {l : List Bytes} (h : IsBreakdown l) :
    ∃ p : Parts, p.root ≤ 1 ∧ p.breakdown = l := by
  obtain ⟨isRooted, es, rfl, hnamed, hdots⟩ := h
  have hkeeps : ∀ e ∈ (if isRooted then es else es.tail), keeps e = true := fun e he => by
    have hmem : e ∈ es := by
      cases isRooted
      · exact List.mem_of_mem_tail he
      · exact he
    exact keeps_iff.mpr ⟨(hnamed e hmem).1, hdots e he⟩
  have hkept : kept (if isRooted then 1 else 0) es = es := by
    cases isRooted with
    | false =>
        conv_rhs => rw [← List.take_append_drop 1 es]
        refine congrArg (es.take 1 ++ ·) (List.filter_eq_self.mpr ?_)
        rw [List.drop_one]
        exact hkeeps
    | true => exact List.filter_eq_self.mpr hkeeps
  refine ⟨⟨if isRooted then 1 else 0, es, hnamed, hkept⟩, ?_, ?_⟩
  · split <;> simp
  · cases isRooted <;> rfl

/-- A path is what its breakdown is joined to. -/
theorem eq_joinRange_breakdown {p : Path} (h : ofBytes p.name = p) : p = joinRange p.breakdown := by
  obtain ⟨q, hroot, rfl⟩ := exists_parts h
  rw [Parts.breakdown_path, Parts.joinRange_breakdown hroot]

/-- **Breaking down and joining** are inverse to each other. -/
theorem breakdown_joinRange :
    (∀ p : Path, ofBytes p.name = p → joinRange p.breakdown = p) ∧
      ∀ l : List Bytes, IsBreakdown l → (joinRange l).breakdown = l := by
  constructor
  · exact fun p hp => (eq_joinRange_breakdown hp).symm
  · intro l hl
    obtain ⟨p, hroot, rfl⟩ := exists_parts_of_isBreakdown hl
    rw [Parts.joinRange_breakdown hroot, Parts.breakdown_path]

/-- The path `./usr/lib` and the elements of `/usr/lib`. -/
theorem breakdown_joinRange_usr :
    joinRange (breakdown ⟨bytes "./usr/lib"⟩) = ⟨bytes "./usr/lib"⟩ ∧
      (joinRange [bytes "/", bytes "usr", bytes "lib"]).breakdown =
        [bytes "/", bytes "usr", bytes "lib"] :=
  ⟨breakdown_joinRange.1 ⟨bytes "./usr/lib"⟩ (by decide +kernel),
    breakdown_joinRange.2 _ ⟨true, [bytes "usr", bytes "lib"], rfl, by decide, by decide⟩⟩

end Path

end RsIo
