import RsIo.PathJoin

/-!
# Splitting Paths

`Path::split_path` cuts a name behind its last delimiter and `Path::split_root` behind the
slashes in front of it. `Path::split_leaf` cuts the last element at its last dot, if that dot
is neither its first nor its last character. The three lose nothing.

`Path::change_ext` puts a new extension in the place of the old one and builds a path from
the result. If nothing but a dot is left of an element, the constructor takes it for the
directory it is in and drops it: without its extension `a/..b` becomes `a`.

## Main results

* `split_lossless`: the parts make up the path.
* `changeExt_iff`: when `change_ext` changes no more than the extension.
-/

namespace RsIo

open StdString

namespace Path

/-! ### The leaf name -/

/-- The part of a name in front of its leaf name: it is empty or ends in a delimiter. -/
def EndsInSlash (pre : Bytes) : Prop := pre = [] ∨ ∃ t, pre = t ++ [slash]

/-- No character of a leaf is a slash. -/
theorem any_isSlash_eq_false {l : Bytes} (h : slash ∉ l) : l.any isSlash = false := by
  rw [List.any_eq_false]
  intro c hc
  simpa [isSlash] using fun hs : c = slash => h (hs ▸ hc)

/-- The leaf begins behind the last slash. -/
theorem endOfLast_isSlash {pre l : Bytes} (hpre : EndsInSlash pre) (hl : slash ∉ l) :
    endOfLast isSlash (pre ++ l) = pre.length := by
  rw [endOfLast_append_of_not_any pre (any_isSlash_eq_false hl)]
  rcases hpre with rfl | ⟨t, rfl⟩
  · rfl
  · rw [endOfLast_concat t rfl, List.length_append, List.length_singleton]

/-- The leaf is what stands behind the last slash. -/
theorem getLeaf_append {pre l : Bytes} (hpre : EndsInSlash pre) (hl : slash ∉ l) :
    getLeaf (pre ++ l) = l := by
  rw [getLeaf]
  split
  · rename_i hempty
    rw [List.isEmpty_iff.mp hempty, (List.append_eq_nil_iff.mp (List.isEmpty_iff.mp hempty)).2]
  · rw [endOfLast_isSlash hpre hl, List.drop_left]

/-- The base and the extension of a leaf name: its extension begins with its last dot, in
front of which and behind which there is something. -/
def IsExt (base ext : Bytes) : Prop :=
  ext = [] ∨ ∃ t, ext = dot :: t ∧ dot ∉ t ∧ base ≠ [] ∧ t ≠ []

/-- A dot in a leaf is followed by the rest of it. -/
theorem exists_last_dot {l : Bytes} (h : dot ∈ l) : ∃ b t, l = b ++ dot :: t ∧ dot ∉ t := by
  obtain ⟨t, b, hl, ht⟩ := List.eq_append_cons_of_mem (List.mem_reverse.mpr h)
  refine ⟨b.reverse, t.reverse, ?_, by rwa [List.mem_reverse]⟩
  rw [← List.reverse_reverse l, hl]
  simp

/-- **The base and the extension.** -/
theorem getBaseExt_append {pre l : Bytes} (hpre : EndsInSlash pre) (hne : l ≠ [])
    (hl : slash ∉ l) :
    (getBaseExt (pre ++ l)).1 ++ (getBaseExt (pre ++ l)).2 = l ∧
      IsExt (getBaseExt (pre ++ l)).1 (getBaseExt (pre ++ l)).2 := by
  have hstart := endOfLast_isSlash hpre hl
  have hpos := List.length_pos_iff.mpr hne
  have hempty : (pre ++ l).isEmpty = false := by simp [hne]
  have hwhole : substr (pre ++ l) pre.length ((pre ++ l).length - pre.length) = l := by
    rw [substr, List.drop_left, List.length_append, Nat.add_sub_cancel_left, List.take_length]
  have hnone : ∀ dotPos : Option ℕ, dotPos = none →
      substr (pre ++ l) pre.length (dotPos.getD (pre ++ l).length - pre.length) ++
          (pre ++ l).drop (dotPos.getD (pre ++ l).length) = l ∧
        IsExt (substr (pre ++ l) pre.length (dotPos.getD (pre ++ l).length - pre.length))
          ((pre ++ l).drop (dotPos.getD (pre ++ l).length)) := by
    rintro _ rfl
    rw [Option.getD_none, hwhole, List.drop_length, List.append_nil]
    exact ⟨rfl, .inl rfl⟩
  simp only [getBaseExt, hempty, Bool.false_eq_true, if_false, hstart]
  rw [if_pos (by rw [List.length_append]; omega)]
  by_cases hdot : dot ∈ l
  · -- the search ends at the last dot of the leaf name
    obtain ⟨b, t, rfl, ht⟩ := exists_last_dot hdot
    have htdot : ∀ d ∈ t, (d == dot) = false := fun d hd =>
      beq_eq_false_iff_ne.mpr fun h => ht (h ▸ hd)
    have hfind := findLastIf_append_cons (p := (· == dot)) (pre ++ b) (beq_self_eq_true dot) htdot
    rw [List.append_assoc] at hfind
    rw [hfind]
    by_cases hmid : b ≠ [] ∧ t ≠ []
    · have hbpos := List.length_pos_iff.mpr hmid.1
      have htpos := List.length_pos_iff.mpr hmid.2
      have hkeep : Option.filter (fun d => ! (decide (d ≤ pre.length) ||
          decide (d ≥ (pre ++ (b ++ dot :: t)).length - 1))) (some (pre ++ b).length) =
            some (pre ++ b).length := by
        simp only [Option.filter_some, List.length_append, List.length_cons, ge_iff_le]
        rw [if_pos]
        simp only [Bool.not_eq_true', Bool.or_eq_false_iff, decide_eq_false_iff_not]
        omega
      rw [hkeep, Option.getD_some, List.length_append, Nat.add_sub_cancel_left, substr_append,
        ← List.length_append, ← List.append_assoc, List.drop_left]
      exact ⟨rfl, .inr ⟨t, rfl, ht, hmid⟩⟩
    · refine hnone _ (Option.filter_eq_none_iff.mpr fun d hd => ?_)
      obtain rfl := Option.some.inj hd
      rw [not_and_or, not_not, not_not] at hmid
      rcases hmid with rfl | rfl <;> simp
  · refine hnone _ (Option.filter_eq_none_iff.mpr fun d hd => ?_)
    have hany : l.any (· == dot) = false := by
      rw [List.any_eq_false]
      intro c hc
      simpa using fun h : c = dot => hdot (h ▸ hc)
    have hlt := findLastIf_lt (s := pre) hany hd
    simp [Nat.le_of_lt hlt]

/-! ### The parts of a path -/

/-- What stands in front of the last element ends in a slash, or is empty. -/
theorem endsInSlash_text (root : ℕ) (ds : List Bytes) : EndsInSlash (text root ds ++ glue ds) := by
  rcases eq_or_ne ds [] with rfl | hds
  · rw [text, glue, if_pos rfl, List.intercalate_nil, List.append_nil, List.append_nil]
    cases root with
    | zero => exact .inl rfl
    | succ root => exact .inr ⟨List.replicate root slash, List.replicate_succ'⟩
  · rw [glue, if_neg hds]
    exact .inr ⟨text root ds, rfl⟩

/-- The empty name is the empty path. -/
theorem ofBytes_nil : ofBytes [] = ⟨[]⟩ :=
  Parts.nil.ofBytes_name_iff.mpr (Nat.zero_le 1)

/-- A path from which one more element is built. -/
theorem ofBytes_text_concat {p : Parts} (hp : ¬ p.IsEmpty) (hroot : p.root ≤ 1) {l : Bytes}
    (hl : slash ∉ l) (hfirst : p.elems = [] → l ≠ []) :
    ofBytes (text p.root (p.elems ++ [l])) = ⟨text p.root (p.elems ++ [l].filter keeps)⟩ := by
  have hslash : ∀ e ∈ p.elems ++ [l], slash ∉ e := fun e he =>
    (List.mem_append.mp he).elim (p.slash_not_mem e) fun he => List.mem_singleton.mp he ▸ hl
  have hhead : (p.elems ++ [l]).head? ≠ some [] := by
    have hne := p.head?_ne_nil
    cases helems : p.elems with
    | nil => simpa using hfirst helems
    | cons e es => simpa [helems] using hne
  have hdots : p.root = 0 ∨ ¬ DotsThenSlash ([slash].intercalate (p.elems ++ [l])) := by
    refine or_iff_not_imp_left.mpr fun hne => not_dotsThenSlash hslash ?_
    cases helems : p.elems with
    | nil => exact .inr (by simp)
    | cons e es =>
        have he := keeps_iff.mp (Parts.keeps_of_mem hne e (by simp [helems]))
        exact .inl (by simpa using he.2)
  rw [ofBytes, makeCanonical_text hslash hhead hdots, Parts.kept_append p hp,
    Nat.min_eq_left hroot]

namespace Parts

variable {p : Parts} {ds : List Bytes} {l : Bytes}

/-- The name ends in the last element. -/
theorem name_concat (h : p.elems = ds ++ [l]) : p.name = (text p.root ds ++ glue ds) ++ l := by
  rw [name, h, text_append p.root ds (by simp), List.intercalate_singleton, List.append_assoc]

/-- The last element is a name. -/
theorem named_concat (h : p.elems = ds ++ [l]) : l ≠ [] ∧ slash ∉ l := p.named l (by simp [h])

/-- The directory of a path. -/
def dir (h : p.elems = ds ++ [l]) : Parts := p.front ds ⟨[l], h.symm⟩

/-- The last element stays, unless it is the only one. -/
theorem keeps_concat (h : p.elems = ds ++ [l]) (hdir : ¬ (dir h).IsEmpty) : keeps l = true := by
  by_cases hroot : p.root = 0
  · have hds : ds ≠ [] := fun hnil => hdir ⟨hroot, hnil⟩
    obtain ⟨d, ds, rfl⟩ := List.exists_cons_of_ne_nil hds
    exact p.keeps_of_mem_drop l (by simp [h])
  · exact keeps_of_mem hroot l (by simp [h])

/-- The text in front of the last element is the path of the others. -/
theorem ofBytes_dir (h : p.elems = ds ++ [l]) (hp : p.root ≤ 1) :
    ofBytes (text p.root ds ++ glue ds) = (dir h).path := by
  rcases eq_or_ne ds [] with rfl | hds
  · rw [glue, if_pos rfl, List.append_nil]
    exact (ofBytes_name_iff (dir h)).mpr hp
  · have htext : text p.root ds ++ glue ds = text (dir h).root ((dir h).elems ++ [[]]) := by
      change _ = text p.root (ds ++ [[]])
      rw [text_append p.root ds (by simp), List.intercalate_singleton, List.append_nil]
    have hempty : ¬ (dir h).IsEmpty := fun hempty => hds hempty.2
    rw [htext, ofBytes_text_concat hempty hp (by simp) (fun hnil => absurd hnil hds)]
    simp [path, name, keeps]

/-- `Path::split_path` for a path with elements. -/
theorem splitPath_path (h : p.elems = ds ++ [l]) (hp : p.root ≤ 1) :
    p.path.splitPath = ((dir h).path, (single l (named_concat h)).path) := by
  have hleaf := getLeaf_append (endsInSlash_text p.root ds) (named_concat h).2
  have hname : p.path.filename = (text p.root ds ++ glue ds) ++ l := name_concat h
  have hsub : substr ((text p.root ds ++ glue ds) ++ l) 0
      (((text p.root ds ++ glue ds) ++ l).length - l.length) = text p.root ds ++ glue ds := by
    rw [substr, List.drop_zero, List.length_append, Nat.add_sub_cancel, List.take_left]
  rw [splitPath]
  simp only [hname, hleaf, hsub]
  rw [ofBytes_dir h hp, ofBytes_single (named_concat h)]

/-- `Path::split_path` for the root and the empty path. -/
theorem splitPath_path_nil (h : p.elems = []) (hp : p.root ≤ 1) :
    p.path.splitPath = (p.path, ⟨[]⟩) := by
  have hname : p.path.filename = text p.root [] ++ glue [] ++ [] := by
    rw [List.append_nil, glue, if_pos rfl, List.append_nil, ← h]
    rfl
  have hleaf := getLeaf_append (endsInSlash_text p.root []) (l := []) (by simp)
  rw [← hname] at hleaf
  have hsub : substr p.path.filename 0 (p.path.filename.length - 0) = p.path.filename := by
    rw [substr, List.drop_zero, Nat.sub_zero, List.take_length]
  rw [splitPath]
  simp only [hleaf, List.length_nil, hsub]
  rw [show p.path.filename = p.path.name from rfl, (ofBytes_name_iff p).mpr hp, ofBytes_nil]

/-- The directory and the leaf name make up the path. -/
theorem dir_join (h : p.elems = ds ++ [l]) (hp : p.root ≤ 1) :
    (dir h).join (single l (named_concat h)) = p := by
  by_cases hdir : (dir h).IsEmpty
  · rw [join_of_isEmpty _ hdir]
    obtain ⟨hroot, hds : ds = []⟩ := hdir
    subst hds
    exact Parts.ext hroot.symm h.symm
  · have hkeeps := keeps_concat h hdir
    apply Parts.ext
    · rw [root_join hdir rfl]
      exact Nat.min_eq_left hp
    · rw [elems_join hdir rfl, h]
      simp [single, dir, front, hkeeps]

/-- The root of a path. -/
def top (p : Parts) : Parts := p.front [] List.nil_prefix

/-- The path behind the root. -/
def tail (p : Parts) : Parts where
  root := 0
  elems := p.elems
  named := p.named
  kept_eq := by
    rw [kept, if_pos rfl, List.filter_eq_self.mpr p.keeps_of_mem_drop, List.take_append_drop]

/-- `Path::split_root` on the parts of a path. -/
theorem splitRoot_path (hp : p.root ≤ 1) : p.path.splitRoot = (p.top.path, p.tail.path) := by
  have hroot : getRoot p.path.filename = p.top.path.name := by
    change getRoot p.name = text p.root []
    rw [getRoot_name, text, List.intercalate_nil, List.append_nil]
  have htail : p.path.filename.drop p.top.path.name.length = p.tail.path.name := by
    change (text p.root p.elems).drop (text p.root []).length = text 0 p.elems
    rw [text, text, text, List.intercalate_nil, List.append_nil, List.drop_left,
      List.replicate_zero, List.nil_append]
  rw [splitRoot]
  simp only [hroot, htail]
  rw [(ofBytes_name_iff p.top).mpr hp, (ofBytes_name_iff p.tail).mpr (Nat.zero_le 1)]

/-- The root and what is behind it make up the path. -/
theorem top_join (hp : p.root ≤ 1) : p.top.join p.tail = p := by
  by_cases hroot : p.root = 0
  · rw [join_of_isEmpty (p := p.top) _ ⟨hroot, rfl⟩]
    exact Parts.ext hroot.symm rfl
  · have htop : ¬ p.top.IsEmpty := fun h => hroot h.1
    apply Parts.ext
    · rw [root_join htop rfl]
      exact Nat.min_eq_left hp
    · rw [elems_join htop rfl]
      exact List.filter_eq_self.mpr (keeps_of_mem (p := p) hroot)

end Parts

/-- A name without a leaf name has neither a base nor an extension. -/
theorem getBaseExt_eq_nil {pre : Bytes} (hpre : EndsInSlash pre) : getBaseExt pre = ([], []) := by
  rw [getBaseExt]
  split
  · rename_i hempty
    rw [List.isEmpty_iff.mp hempty]
  · have hstart := endOfLast_isSlash hpre (l := []) (by simp)
    rw [List.append_nil] at hstart
    simp [hstart, substr]

/-- **Splitting a path** loses nothing: the directory and the leaf name make up the path, and
so do the root and what is behind it, and the base and the extension the leaf name. -/
theorem split_lossless {p : Path} (h : ofBytes p.name = p) :
    join p.splitPath.1 p.splitPath.2 = p ∧ join p.splitRoot.1 p.splitRoot.2 = p ∧
      slash ∉ p.splitPath.2.name ∧ p.splitLeaf.1 ++ p.splitLeaf.2 = p.splitPath.2.name ∧
      IsExt p.splitLeaf.1 p.splitLeaf.2 := by
  obtain ⟨q, hq, rfl⟩ := exists_parts h
  have hroot : join q.path.splitRoot.1 q.path.splitRoot.2 = q.path := by
    rw [Parts.splitRoot_path hq, Parts.join_path, Parts.top_join hq]
  rcases List.eq_nil_or_concat' q.elems with helems | ⟨ds, l, helems⟩
  · have hsplit := Parts.splitPath_path_nil helems hq
    have hname : q.path.filename = text q.root [] ++ glue [] := by
      rw [glue, if_pos rfl, List.append_nil, ← helems]
      rfl
    have hbase := getBaseExt_eq_nil (endsInSlash_text q.root [])
    rw [← hname] at hbase
    rw [hsplit, splitLeaf, hbase]
    refine ⟨?_, hroot, List.not_mem_nil, rfl, .inl rfl⟩
    rw [show (⟨[]⟩ : Path) = Parts.nil.path from rfl, Parts.join_path, Parts.join_nil hq]
  · have hnamed := Parts.named_concat helems
    have hspec := getBaseExt_append (endsInSlash_text q.root ds) hnamed.1 hnamed.2
    rw [← Parts.name_concat helems] at hspec
    rw [Parts.splitPath_path helems hq, Parts.name_single]
    exact ⟨by rw [Parts.join_path, Parts.dir_join helems hq], hroot, hnamed.2, hspec⟩

/-- The path `/usr/lib.so.6`. -/
theorem split_lossless_lib :
    join (splitPath ⟨bytes "/usr/lib.so.6"⟩).1 (splitPath ⟨bytes "/usr/lib.so.6"⟩).2 =
      ⟨bytes "/usr/lib.so.6"⟩ :=
  (split_lossless (p := ⟨bytes "/usr/lib.so.6"⟩) (by decide +kernel)).1

/-! ### Changing the extension -/

/-- An extension with a dot in front of it. -/
def withDot (ext : Bytes) : Bytes :=
  if ext ≠ [] ∧ ext.head? ≠ some dot then dot :: ext else ext

/-- `change_ext` changes no more than the extension: the directory stays, and the leaf name
is its base with the new extension. -/
def ChangesExt (p : Path) (newExt : Bytes) : Prop :=
  ∃ q, p.changeExt newExt = .ok q ∧ q.splitPath.1 = p.splitPath.1 ∧
    q.splitPath.2.name = p.splitLeaf.1 ++ withDot newExt

/-- An extension with a dot in front has no slash. -/
theorem slash_not_mem_withDot {ext : Bytes} (h : slash ∉ ext) : slash ∉ withDot ext := by
  rw [withDot]
  split
  · rw [List.mem_cons, not_or]
    exact ⟨slash_ne_dot, h⟩
  · exact h

/-- There is an extension if there is anything. -/
theorem withDot_eq_nil_iff {ext : Bytes} : withDot ext = [] ↔ ext = [] := by
  rw [withDot]
  split
  · rename_i h
    simp [h.1]
  · rfl

namespace Parts

variable {p : Parts} {ds : List Bytes} {l : Bytes}

/-- The text that `change_ext` hands to the constructor. -/
theorem changeExt_path (h : p.elems = ds ++ [l]) (newExt : Bytes) :
    p.path.changeExt newExt =
      .ok (ofBytes (text p.root (ds ++ [(getBaseExt p.name).1 ++ withDot newExt]))) := by
  have hnamed := named_concat h
  obtain ⟨hbase, -⟩ := getBaseExt_append (endsInSlash_text p.root ds) hnamed.1 hnamed.2
  rw [← name_concat h] at hbase
  have hlen : p.root < p.name.length := root_lt_length_text p.root (by simp [h]) p.named
  have hempty : p.path.empty = false := by
    rw [empty_path, decide_eq_false_iff_not]
    exact fun hp => by simp [IsEmpty, h] at hp
  have hroot : ((getRoot p.path.filename).length == p.path.filename.length) = false := by
    change ((getRoot p.name).length == p.name.length) = false
    rw [getRoot_name, List.length_replicate, beq_eq_false_iff_ne]
    omega
  have hname : p.path.filename = (text p.root ds ++ glue ds ++ (getBaseExt p.name).1) ++
      (getBaseExt p.name).2 := by
    change p.name = _
    rw [List.append_assoc, hbase, ← name_concat h]
  have hstem : resize 0 p.path.filename
      (p.path.filename.length - (getBaseExt p.path.filename).2.length) =
        text p.root ds ++ glue ds ++ (getBaseExt p.name).1 := by
    change resize 0 p.path.filename (p.path.filename.length - (getBaseExt p.name).2.length) = _
    rw [hname, List.length_append, Nat.add_sub_cancel, resize_append]
  have hdot : ∀ stem : Bytes, (if newExt ≠ [] ∧ newExt.head? ≠ some dot then stem ++ [dot]
      else stem) ++ newExt = stem ++ withDot newExt := by
    intro stem
    rw [withDot]
    split
    · rw [List.append_assoc, List.singleton_append]
    · rfl
  rw [changeExt, hempty, hroot]
  simp only [Bool.or_self, Bool.false_eq_true, if_false, hstem]
  rw [hdot, text_append p.root ds (by simp), List.intercalate_singleton]
  simp only [List.append_assoc]

/-- The base of a leaf is not empty. -/
theorem base_ne_nil (h : p.elems = ds ++ [l]) : (getBaseExt p.name).1 ≠ [] := by
  have hnamed := named_concat h
  obtain ⟨hbase, hext⟩ := getBaseExt_append (endsInSlash_text p.root ds) hnamed.1 hnamed.2
  rw [← name_concat h] at hbase hext
  intro hnil
  rw [hnil] at hbase hext
  rcases hext with hext | ⟨t, -, -, hne, -⟩
  · exact hnamed.1 (by rw [← hbase, hext]; rfl)
  · exact hne rfl

/-- The leaf name with a new extension is a leaf name. -/
theorem named_newLeaf (h : p.elems = ds ++ [l]) {newExt : Bytes} (he : slash ∉ newExt) :
    (getBaseExt p.name).1 ++ withDot newExt ≠ [] ∧
      slash ∉ (getBaseExt p.name).1 ++ withDot newExt := by
  have hnamed := named_concat h
  have hbase := (getBaseExt_append (endsInSlash_text p.root ds) hnamed.1 hnamed.2).1
  rw [← name_concat h] at hbase
  rw [ne_eq, List.append_eq_nil_iff, List.mem_append, not_or]
  exact ⟨fun hnil => base_ne_nil h hnil.1,
    fun hb => hnamed.2 (hbase ▸ List.mem_append_left _ hb), slash_not_mem_withDot he⟩

/-- A path with another leaf name. -/
theorem ofBytes_newLeaf (h : p.elems = ds ++ [l]) (hp : p.root ≤ 1) {leaf : Bytes}
    (hleaf : leaf ≠ [] ∧ slash ∉ leaf) :
    ofBytes (text p.root (ds ++ [leaf])) = ((dir h).join (single leaf hleaf)).path := by
  by_cases hdir : (dir h).IsEmpty
  · rw [join_of_isEmpty _ hdir]
    obtain ⟨hroot, hds⟩ : p.root = 0 ∧ ds = [] := hdir
    rw [← ofBytes_single, hroot, hds, List.nil_append, text, List.replicate_zero,
      List.nil_append, List.intercalate_singleton]
  · have htext := ofBytes_text_concat hdir hp hleaf.2 fun _ => hleaf.1
    have hmin : min (dir h).root 1 = (dir h).root := Nat.min_eq_left hp
    rw [path, name, root_join hdir rfl, elems_join hdir rfl, hmin]
    exact htext

/-- The leaf name is there, unless it is a dot behind a directory. -/
theorem elems_newLeaf (h : p.elems = ds ++ [l]) (hp : p.root ≤ 1) {leaf : Bytes}
    (hleaf : leaf ≠ [] ∧ slash ∉ leaf) (hkeeps : (dir h).IsEmpty ∨ keeps leaf = true) :
    ((dir h).join (single leaf hleaf)).root = p.root ∧
      ((dir h).join (single leaf hleaf)).elems = ds ++ [leaf] := by
  by_cases hdir : (dir h).IsEmpty
  · rw [join_of_isEmpty _ hdir]
    obtain ⟨hroot, hds⟩ : p.root = 0 ∧ ds = [] := hdir
    rw [hroot, hds]
    exact ⟨rfl, rfl⟩
  · have hk := hkeeps.resolve_left hdir
    rw [root_join hdir rfl, elems_join hdir rfl]
    exact ⟨Nat.min_eq_left hp, by simp [single, dir, front, hk]⟩

/-- `change_ext` changes more than the extension if the constructor drops the leaf name,
which is a dot behind a directory. -/
theorem changesExt_iff (h : p.elems = ds ++ [l]) (hp : p.root ≤ 1) {newExt : Bytes}
    (he : slash ∉ newExt) :
    ChangesExt p.path newExt ↔
      (dir h).IsEmpty ∨ (getBaseExt p.name).1 ++ withDot newExt ≠ [dot] := by
  have hleaf := named_newLeaf h he
  have hchange := changeExt_path h newExt
  have hiff : ChangesExt p.path newExt ↔
      (ofBytes (text p.root (ds ++ [(getBaseExt p.name).1 ++ withDot newExt]))).splitPath.1 =
          (dir h).path ∧
        (ofBytes (text p.root (ds ++ [(getBaseExt p.name).1 ++ withDot newExt]))).splitPath.2.name =
          (getBaseExt p.name).1 ++ withDot newExt := by
    rw [ChangesExt, hchange, splitPath_path h hp]
    constructor
    · rintro ⟨q, hq, hrest⟩
      obtain rfl := Except.ok.inj hq
      exact hrest
    · exact fun hrest => ⟨_, rfl, hrest⟩
  rw [hiff]
  generalize (getBaseExt p.name).1 ++ withDot newExt = leaf at hleaf
  rw [ofBytes_newLeaf h hp hleaf]
  by_cases hkeeps : (dir h).IsEmpty ∨ keeps leaf = true
  · obtain ⟨hroot, helems⟩ := elems_newLeaf h hp hleaf hkeeps
    have hdir : dir helems = dir h := Parts.ext hroot rfl
    rw [splitPath_path helems (hroot ▸ hp), hdir, name_single]
    exact iff_of_true ⟨rfl, rfl⟩ (hkeeps.imp_right fun hk => (keeps_iff.mp hk).2)
  · rw [not_or] at hkeeps
    obtain rfl : leaf = [dot] := by
      by_contra hne
      exact hkeeps.2 (keeps_iff.mpr ⟨hleaf.1, hne⟩)
    refine iff_of_false ?_ (not_or.mpr ⟨hkeeps.1, not_not.mpr rfl⟩)
    -- what is left is the directory
    have hjoin : (dir h).join (single [dot] hleaf) = dir h := Parts.ext
      ((root_join hkeeps.1 rfl).trans (Nat.min_eq_left hp))
      ((elems_join hkeeps.1 rfl).trans (List.append_nil ds))
    rw [hjoin]
    rintro ⟨hdir, hname⟩
    rcases List.eq_nil_or_concat' ds with hds | ⟨ds', d, hds⟩
    · rw [splitPath_path_nil (p := dir h) hds hp] at hname
      cases hname
    · have hdir' : (dir h).elems = ds' ++ [d] := hds
      rw [splitPath_path hdir' hp] at hdir
      have hfront := congrArg elems (name_injective (congrArg Path.filename hdir))
      have hlen := congrArg List.length (hfront.trans hds)
      change ds'.length = (ds' ++ [d]).length at hlen
      rw [List.length_append, List.length_singleton] at hlen
      omega

end Parts

/-- **Changing the extension.** For a path with a canonical name, `change_ext` changes no
more than the extension, unless it removes the extension of a leaf name that is a dot
without it, and stands behind a directory. -/
theorem changeExt_iff {p : Path} {newExt : Bytes} (h : ofBytes p.name = p) (hne : p.name ≠ [])
    (hroot : p.name ≠ [slash]) (he : slash ∉ newExt) :
    ChangesExt p newExt ↔
      newExt ≠ [] ∨ p.splitLeaf.1 ≠ [dot] ∨ p.splitPath.1.empty = true := by
  obtain ⟨q, hq, rfl⟩ := exists_parts h
  have helems : q.elems ≠ [] := by
    intro hnil
    have hname : q.path.name = List.replicate q.root slash := by
      change text q.root q.elems = _
      rw [hnil, text, List.intercalate_nil, List.append_nil]
    rcases Nat.le_one_iff_eq_zero_or_eq_one.mp hq with hzero | hone
    · exact hne (by rw [hname, hzero]; rfl)
    · exact hroot (by rw [hname, hone]; rfl)
  obtain ⟨ds, l, h'⟩ := (List.eq_nil_or_concat' q.elems).resolve_left helems
  have hbase := Parts.base_ne_nil h'
  have hdot : (getBaseExt q.name).1 ++ withDot newExt = [dot] ↔
      (getBaseExt q.name).1 = [dot] ∧ newExt = [] := by
    rw [← @withDot_eq_nil_iff newExt]
    generalize (getBaseExt q.name).1 = base at hbase
    obtain ⟨c, t, rfl⟩ := List.exists_cons_of_ne_nil hbase
    rw [List.cons_append, List.cons.injEq, List.append_eq_nil_iff, List.cons.injEq, and_assoc]
  rw [Parts.changesExt_iff h' hq he, Parts.splitPath_path h' hq, Parts.empty_path,
    decide_eq_true_iff, ne_eq, hdot]
  change _ ↔ newExt ≠ [] ∨ (getBaseExt q.name).1 ≠ [dot] ∨ _
  tauto

/-- The path `lib/.so`, whose leaf name has no extension. -/
theorem changeExt_iff_so :
    ChangesExt ⟨bytes "lib/.so"⟩ (bytes "a") ↔ bytes "a" ≠ [] ∨
      (splitLeaf ⟨bytes "lib/.so"⟩).1 ≠ [dot] ∨ (splitPath ⟨bytes "lib/.so"⟩).1.empty = true :=
  changeExt_iff (by decide +kernel) (by decide) (by decide) (by decide)

/-- Without its extension `a/..b` becomes `a`. -/
theorem changeExt_fails :
    ¬ ∀ (p : Path) (newExt : Bytes), ofBytes p.name = p → p.name ≠ [] → p.name ≠ [slash] →
      slash ∉ newExt → ChangesExt p newExt := by
  intro h
  obtain ⟨q, hq, hdir, -⟩ :=
    h ⟨bytes "a/..b"⟩ [] (by decide +kernel) (by decide) (by decide) (by decide)
  have hchange : changeExt ⟨bytes "a/..b"⟩ [] = .ok ⟨bytes "a"⟩ := by decide +kernel
  obtain rfl := Except.ok.inj (hchange.symm.trans hq)
  revert hdir
  decide +kernel

end Path

end RsIo
