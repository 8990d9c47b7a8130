import RsIo.LexicalNormal
import RsIo.PathJoin

/-!
# Relative Paths

`Path::relative_to` goes up from the base by as many steps `..` as the base has elements that
the path does not share, and down again by the other elements of the path. Joined to the base
that leads to the path, up to `.` and `..`.

The count is wrong for a relative base that begins with `.`, when the path does not: the dot
is counted although it leads nowhere, and the result goes up one step too far.

## Main results

* `relativeTo_path`: the function on the parts of paths.
* `relativeTo_iff`: when the base and the relative path lead to the path.
-/

namespace RsIo

open StdString CommonPrefix LexicalNormal

namespace Path

/-- The element `..`. -/
def dotdot : Bytes := [dot, dot]

/-- The lexical normal form of a path: whether it is absolute, and its elements without `.`
and without any `..` that follows an ordinary element or the root. -/
def lexicalNormal (p : Path) : Bool × List Bytes :=
  (p.isAbsolute, normal [dot] dotdot p.isAbsolute (components p.name))

/-! ### The steps up -/

/-- From the end of any part on, the loop makes groups of two dots out of the rest. -/
theorem setDelimiters_append (pre : Bytes) (n : ℕ) :
    setDelimiters (pre ++ List.replicate (3 * (n + 1) - 1) dot) (pre.length + 2) =
      pre ++ [slash].intercalate (List.replicate (n + 1) dotdot) := by
  induction n generalizing pre with
  | zero =>
      rw [setDelimiters, if_neg (by simp)]
      rfl
  | succ n ih =>
      have hsplit : List.replicate (3 * (n + 1 + 1) - 1) dot =
          [dot, dot] ++ dot :: List.replicate (3 * (n + 1) - 1) dot := by
        rw [show 3 * (n + 1 + 1) - 1 = 3 * (n + 1) - 1 + 1 + 1 + 1 by omega,
          List.replicate_succ, List.replicate_succ, List.replicate_succ]
        rfl
      have hset : (pre ++ ([dot, dot] ++ dot :: List.replicate (3 * (n + 1) - 1) dot)).set
          (pre.length + 2) slash =
            (pre ++ [dot, dot, slash]) ++ List.replicate (3 * (n + 1) - 1) dot := by
        simp
      have hpieces : [slash].intercalate (List.replicate (n + 1 + 1) dotdot) =
          dotdot ++ [slash] ++ [slash].intercalate (List.replicate (n + 1) dotdot) := by
        rw [List.replicate_succ (n := n + 1), List.intercalate_cons_of_ne_nil (by simp)]
      have hnext := ih (pre ++ [dot, dot, slash])
      rw [hsplit, setDelimiters, if_pos (by simp), hset]
      rw [List.length_append] at hnext
      rw [show pre.length + 2 + 3 = pre.length + [dot, dot, slash].length + 2 from rfl, hnext,
        hpieces, List.append_assoc]
      rfl

/-- Two dots are a name. -/
theorem named_dotdot : dotdot ≠ [] ∧ slash ∉ dotdot := by decide

/-- Two dots count. -/
theorem keeps_dotdot : keeps dotdot = true := by decide

/-- A dot is a name. -/
theorem named_dot : [dot] ≠ [] ∧ slash ∉ [dot] := by decide

namespace Parts

/-- Steps up. -/
def ups (n : ℕ) : Parts where
  root := 0
  elems := List.replicate n dotdot
  named e he := List.eq_of_mem_replicate he ▸ named_dotdot
  kept_eq := by
    rw [kept, if_pos rfl, List.filter_eq_self.mpr, List.take_append_drop]
    exact fun e he => List.eq_of_mem_replicate (List.mem_of_mem_drop he) ▸ keeps_dotdot

/-- The path that `relative_to` goes up by. -/
theorem ups_path (n : ℕ) :
    (if n > 0 then (⟨setDelimiters (List.replicate (3 * n - 1) dot) 2⟩ : Path) else ⟨[]⟩) =
      (ups n).path := by
  cases n with
  | zero => rfl
  | succ n =>
      rw [if_pos (Nat.succ_pos n)]
      exact congrArg Path.mk (setDelimiters_append [] n)

variable {p base : Parts}

/-- The path behind some elements from the front. -/
def behind (p : Parts) (n : ℕ) : Parts where
  root := 0
  elems := p.elems.drop n
  named e he := p.named e (List.mem_of_mem_drop he)
  kept_eq := by
    rw [kept, if_pos rfl, List.filter_eq_self.mpr, List.take_append_drop]
    intro e he
    rw [List.drop_drop] at he
    exact p.keeps_of_mem_drop e (List.drop_subset_drop_left _ (by omega) he)

/-- The path relative to a base, in parts. -/
def relativeTo (p base : Parts) : Parts :=
  let cuts := mismatch base.elems p.elems
  let rel := (ups (base.elems.length - cuts)).join (p.behind cuts)
  if rel.IsEmpty then single [dot] named_dot else rel

/-- What is not common to two paths with the same root is not common to their elements. -/
theorem breakdown_drop (hroot : base.root = p.root) :
    p.breakdown.drop (mismatch base.breakdown p.breakdown) =
        p.elems.drop (mismatch base.elems p.elems) ∧
      base.breakdown.length - mismatch base.breakdown p.breakdown =
        base.elems.length - mismatch base.elems p.elems := by
  rw [breakdown, breakdown, hroot, mismatch_append, List.length_append]
  refine ⟨?_, by omega⟩
  rw [List.drop_append, List.drop_of_length_le (by omega), Nat.add_sub_cancel_left, List.nil_append]

/-- The form of a path that is not empty. -/
theorem pathForm_path (hp : ¬ p.IsEmpty) :
    p.path.pathForm = if p.root = 0 then .relative else .absolute := by
  have hempty : p.path.filename.isEmpty = false := by
    have h := p.empty_path
    rwa [decide_eq_false hp, Path.empty] at h
  have habs := p.isAbsolute_path
  rw [pathForm, hempty, habs]
  by_cases hroot : p.root = 0 <;> simp [hroot, isDriveAbsolute, isDriveRelative]

/-- The rest of the elements is a relative path. -/
theorem joinRange_behind (p : Parts) (n : ℕ) :
    joinRange (p.elems.drop n) = (p.behind n).path :=
  joinRange_breakdown (p := p.behind n) (Nat.zero_le 1)

/-- `Path::relative_to` on the parts of paths. -/
theorem relativeTo_path (hroot : base.root = p.root) (hp : ¬ p.IsEmpty) (hbase : ¬ base.IsEmpty) :
    p.path.relativeTo base.path = .ok (p.relativeTo base).path := by
  obtain ⟨hdrop, hlen⟩ := breakdown_drop hroot
  have hform : p.path.pathForm = base.path.pathForm := by
    rw [pathForm_path hp, pathForm_path hbase, hroot]
  have hhead : p.path.pathForm = .absolute → base.breakdown[0]? = p.breakdown[0]? := by
    rw [pathForm_path hp]
    intro habs
    have hne : p.root ≠ 0 := fun h => by simp [h] at habs
    rw [breakdown, breakdown, hroot, if_neg hne]
    rfl
  have hups := ups_path (base.elems.length - mismatch base.elems p.elems)
  have hlt : base.breakdown.length > mismatch base.breakdown p.breakdown ↔
      base.elems.length - mismatch base.elems p.elems > 0 := by omega
  rw [Path.relativeTo, if_neg, breakdown_path, breakdown_path, if_neg]
  · simp only [hdrop, hlen, hlt, hups, joinRange_behind, join_path, empty_path]
    rw [relativeTo]
    by_cases hrel : ((ups (base.elems.length - mismatch base.elems p.elems)).join
        (p.behind (mismatch base.elems p.elems))).IsEmpty
    · rw [if_pos (by simpa using hrel), if_pos hrel, ofBytes_single named_dot]
    · rw [if_neg (by simpa using hrel), if_neg hrel]
  · rintro ⟨habs, hne⟩
    exact hne (hhead habs)
  · rw [hform]
    have hbase' := pathForm_path hbase
    by_cases h : base.root = 0 <;> simp [hbase', h]

/-! ### Where the relative path leads -/

/-- The elements of two paths joined lead where those of one lead behind those of the other. -/
theorem foldl_elems_join (p : Parts) {q : Parts} (hq : q.root = 0) (isRooted : Bool)
    (stack : List Bytes) :
    (p.join q).elems.foldl (push [dot] dotdot isRooted) stack =
      (p.elems ++ q.elems).foldl (push [dot] dotdot isRooted) stack := by
  by_cases hp : p.IsEmpty
  · rw [join_of_isEmpty q hp, hp.2, List.nil_append]
  · rw [elems_join hp hq, List.foldl_append, List.foldl_append]
    refine foldl_filter (fun e he hkeeps => ?_) _
    by_contra hne
    rw [keeps_iff.mpr ⟨(q.named e he).1, hne⟩] at hkeeps
    cases hkeeps

/-- A relative path has no root. -/
theorem root_relativeTo (p base : Parts) : (p.relativeTo base).root = 0 := by
  rw [relativeTo]
  split
  · rfl
  · by_cases h : (ups (base.elems.length - mismatch base.elems p.elems)).IsEmpty
    · rw [join_of_isEmpty _ h]
      rfl
    · rw [root_join h rfl]
      rfl

/-- The relative path leads up from the base and down again. -/
theorem foldl_relativeTo (p base : Parts) (isRooted : Bool) (stack : List Bytes) :
    (p.relativeTo base).elems.foldl (push [dot] dotdot isRooted) stack =
      (List.replicate (base.elems.length - mismatch base.elems p.elems) dotdot ++
        p.elems.drop (mismatch base.elems p.elems)).foldl (push [dot] dotdot isRooted) stack := by
  have hjoin := foldl_elems_join (ups (base.elems.length - mismatch base.elems p.elems))
    (q := p.behind (mismatch base.elems p.elems)) rfl isRooted stack
  rw [relativeTo]
  split
  · rename_i hempty
    rw [hempty.2] at hjoin
    change push [dot] dotdot isRooted stack [dot] = _
    rw [push_self]
    exact hjoin
  · exact hjoin

/-- The way up is right, unless a dot is counted. -/
theorem foldl_up_iff {cs bs ps : List Bytes} (isRooted : Bool)
    (hbs : ∀ e ∈ bs, e ≠ dotdot) (hdot : [dot] ∈ bs → cs = [] ∧ isRooted = false ∧
      ∃ rest, bs = [dot] :: rest ∧ [dot] ∉ rest) :
    (cs ++ bs ++ (List.replicate bs.length dotdot ++ ps)).foldl (push [dot] dotdot isRooted) [] =
        (cs ++ ps).foldl (push [dot] dotdot isRooted) [] ↔ [dot] ∉ bs := by
  have hne : dotdot ≠ [dot] := by decide
  have hsplit : cs ++ bs ++ (List.replicate bs.length dotdot ++ ps) =
      cs ++ ((bs ++ List.replicate bs.length dotdot) ++ ps) := by simp only [List.append_assoc]
  have hfold : ∀ stack, ((bs ++ List.replicate bs.length dotdot) ++ ps).foldl
      (push [dot] dotdot isRooted) stack = ps.foldl (push [dot] dotdot isRooted)
        ((bs ++ List.replicate bs.length dotdot).foldl (push [dot] dotdot isRooted) stack) :=
    fun _ => List.foldl_append
  rw [hsplit, List.foldl_append (l := cs), List.foldl_append (l := cs), hfold]
  by_cases h : [dot] ∈ bs
  · obtain ⟨rfl, rfl, rest, rfl, hrest⟩ := hdot h
    refine iff_of_false ?_ (not_not.mpr h)
    have hback : (rest ++ List.replicate rest.length dotdot).foldl
        (push [dot] dotdot false) [] = [] :=
      foldl_back hne (fun e he => ⟨fun hd => hrest (hd ▸ he), hbs e (List.mem_cons_of_mem _ he)⟩) []
    have hup : push [dot] dotdot false [] dotdot = [dotdot] := by decide
    rw [List.foldl_nil, List.length_cons, List.replicate_succ', ← List.append_assoc,
      List.foldl_concat, List.cons_append, List.foldl_cons, push_self, hback, hup]
    exact foldl_bottom_ne ps
  · rw [foldl_back hne fun e he => ⟨fun hd => h (hd ▸ he), hbs e he⟩]
    exact iff_of_true rfl h

/-- The normal form of the elements. -/
theorem lexicalNormal_path (p : Parts) :
    p.path.lexicalNormal =
      (decide (p.root ≠ 0), normal [dot] dotdot (decide (p.root ≠ 0)) p.elems) := by
  rw [lexicalNormal, isAbsolute_path]
  change (_, normal [dot] dotdot _ (components p.name)) = _
  rw [components_name]

/-- A dot is the first element of a relative path only. -/
theorem dot_mem_iff (p : Parts) : [dot] ∈ p.elems ↔ p.breakdown.head? = some [dot] := by
  have hdot : keeps [dot] = false := rfl
  rw [breakdown]
  by_cases hroot : p.root = 0
  · rw [if_pos hroot, List.nil_append]
    have hdrop := p.keeps_of_mem_drop
    cases helems : p.elems with
    | nil => simp
    | cons e es =>
        rw [helems, List.drop_succ_cons, List.drop_zero] at hdrop
        have hes : [dot] ∉ es := fun h => by simpa [hdot] using hdrop _ h
        simp [hes, eq_comm]
  · have hmem : [dot] ∉ p.elems := fun h => by simpa [hdot] using keeps_of_mem hroot _ h
    have hslash : List.replicate p.root slash ≠ [dot] := fun h => by
      have hd : dot ∈ List.replicate p.root slash := by simp [h]
      exact slash_ne_dot (List.eq_of_mem_replicate hd).symm
    simp [hroot, hmem, hslash]

/-- A dot that is not shared stands in front of a relative base, and nothing is shared. -/
theorem dot_behind {base : Parts} {cs bs : List Bytes} (h : base.elems = cs ++ bs)
    (hdot : [dot] ∈ bs) : base.root = 0 ∧ cs = [] ∧ ∃ rest, bs = [dot] :: rest ∧ [dot] ∉ rest := by
  have hkeeps : keeps [dot] = false := rfl
  have hroot : base.root = 0 := by
    by_contra hne
    have hk := keeps_of_mem hne [dot] (by simp [h, hdot])
    rw [hkeeps] at hk
    cases hk
  have hdrop := base.keeps_of_mem_drop
  rw [h] at hdrop
  have hcs : cs = [] := by
    rcases cs with _ | ⟨c, cs⟩
    · rfl
    · have hk := hdrop [dot] (by simp [hdot])
      rw [hkeeps] at hk
      cases hk
  subst hcs
  obtain ⟨e, rest, rfl⟩ := List.exists_cons_of_ne_nil (List.ne_nil_of_mem hdot)
  have hrest : [dot] ∉ rest := fun hmem => by simpa [hkeeps] using hdrop [dot] (by simpa using hmem)
  have he : [dot] = e := (List.mem_cons.mp hdot).resolve_right hrest
  exact ⟨hroot, rfl, rest, by rw [he], hrest⟩

/-- The base and the path relative to it lead to the path, unless a dot is counted. -/
theorem lexicalNormal_relativeTo_iff {p base : Parts} (hroot : base.root = p.root)
    (hle : p.root ≤ 1) (hbase : ¬ base.IsEmpty) (hdotdot : dotdot ∉ base.elems) :
    (base.join (p.relativeTo base)).path.lexicalNormal = p.path.lexicalNormal ↔
      (base.breakdown.head? = some [dot] → p.breakdown.head? = some [dot]) := by
  have hjoin : (base.join (p.relativeTo base)).root = p.root := by
    rw [root_join hbase (root_relativeTo p base), hroot, Nat.min_eq_left hle]
  obtain ⟨bs, ps, hb, hp, hlen, hpart⟩ := exists_split base.elems p.elems
  generalize commonPrefix base.elems p.elems = cs at hb hp hlen
  have hups : base.elems.length - mismatch base.elems p.elems = bs.length := by
    rw [hlen, hb, List.length_append, Nat.add_sub_cancel_left]
  have hdown : p.elems.drop (mismatch base.elems p.elems) = ps := by
    rw [hlen, hp, List.drop_left]
  have hfold := foldl_elems_join base (root_relativeTo p base) (decide (p.root ≠ 0)) []
  rw [List.foldl_append, foldl_relativeTo, hups, hdown, ← List.foldl_append, hb] at hfold
  rw [lexicalNormal_path, lexicalNormal_path, hjoin, Prod.mk.injEq, and_iff_right rfl, normal,
    normal, List.reverse_inj, hfold, hp, foldl_up_iff, ← dot_mem_iff, ← dot_mem_iff]
  · constructor
    · intro hnot hmem
      rw [hb] at hmem
      rw [hp]
      exact List.mem_append_left ps ((List.mem_append.mp hmem).resolve_right hnot)
    · intro himp hmem
      obtain ⟨hzero, rfl, rest, rfl, -⟩ := dot_behind hb hmem
      have hhead := (dot_mem_iff p).mp (himp (by simp [hb]))
      rw [breakdown, if_pos (hroot ▸ hzero), List.nil_append, hp] at hhead
      exact mismatch_eq_zero_iff.mp hpart [dot] rfl hhead
  · exact fun e he h => hdotdot (by simp [hb, ← h, he])
  · intro hmem
    obtain ⟨hzero, hcs, hrest⟩ := dot_behind hb hmem
    exact ⟨hcs, by simp [← hroot, hzero], hrest⟩

end Parts

/-- **Relative paths.** For two paths with canonical names, both absolute or both relative,
and a base without `..`, the base and the path relative to it lead to the path exactly if the
base does not begin with a `.` that the path does not have. -/
theorem relativeTo_iff {p base : Path} (hp : ofBytes p.name = p) (hbase : ofBytes base.name = base)
    (hforms : (p.isAbsolute = true ∧ base.isAbsolute = true) ∨
      (p.isRelative = true ∧ base.isRelative = true))
    (hdotdot : dotdot ∉ base.breakdown) :
    (∃ r, p.relativeTo base = .ok r ∧ (join base r).lexicalNormal = p.lexicalNormal) ↔
      (base.breakdown.head? = some [dot] → p.breakdown.head? = some [dot]) := by
  obtain ⟨q, hq, rfl⟩ := exists_parts hp
  obtain ⟨b, hb, rfl⟩ := exists_parts hbase
  have hshape : b.root = q.root ∧ ¬ q.IsEmpty ∧ ¬ b.IsEmpty := by
    have habs : ∀ r : Parts, r.path.isAbsolute = true → r.root ≠ 0 := fun r h => by
      simpa [Parts.isAbsolute_path] using h
    have hrel : ∀ r : Parts, r.path.isRelative = true → r.root = 0 ∧ ¬ r.IsEmpty := fun r h => by
      simpa [isRelative, isDriveAbsolute, isDriveRelative, Parts.isAbsolute_path,
        Parts.empty_path, and_comm] using h
    rcases hforms with ⟨hqa, hba⟩ | ⟨hqr, hbr⟩
    · have hq0 := habs q hqa
      have hb0 := habs b hba
      exact ⟨by omega, fun h => hq0 h.1, fun h => hb0 h.1⟩
    · obtain ⟨hq0, hqne⟩ := hrel q hqr
      obtain ⟨hb0, hbne⟩ := hrel b hbr
      exact ⟨by omega, hqne, hbne⟩
  obtain ⟨hroot, hqne, hbne⟩ := hshape
  rw [Parts.breakdown_path, Parts.breakdown_path] at *
  have helems : dotdot ∉ b.elems := fun h => hdotdot (List.mem_append_right _ h)
  rw [← Parts.lexicalNormal_relativeTo_iff hroot hq hbne helems,
    Parts.relativeTo_path hroot hqne hbne]
  constructor
  · rintro ⟨r, hr, hnormal⟩
    obtain rfl := Except.ok.inj hr
    rwa [Parts.join_path] at hnormal
  · exact fun hnormal => ⟨_, rfl, by rwa [Parts.join_path]⟩

/-- From `/a/b` the path `/a/c` is `../c`. -/
theorem relativeTo_iff_up :
    (∃ r, Path.relativeTo ⟨bytes "/a/c"⟩ ⟨bytes "/a/b"⟩ = .ok r ∧
        (join ⟨bytes "/a/b"⟩ r).lexicalNormal = lexicalNormal ⟨bytes "/a/c"⟩) ↔
      ((breakdown ⟨bytes "/a/b"⟩).head? = some [dot] →
        (breakdown ⟨bytes "/a/c"⟩).head? = some [dot]) :=
  relativeTo_iff (by decide +kernel) (by decide +kernel) (by decide +kernel) (by decide +kernel)

/-- From `.` the path `a` is given as `../a`. -/
theorem relativeTo_fails :
    ¬ ∀ p base : Path, ofBytes p.name = p → ofBytes base.name = base →
      ((p.isAbsolute = true ∧ base.isAbsolute = true) ∨
        (p.isRelative = true ∧ base.isRelative = true)) → dotdot ∉ base.breakdown →
      ∃ r, p.relativeTo base = .ok r ∧ (join base r).lexicalNormal = p.lexicalNormal := by
  intro h
  obtain ⟨r, hr, hnormal⟩ := h ⟨bytes "a"⟩ ⟨bytes "."⟩ (by decide +kernel) (by decide +kernel)
    (by decide +kernel) (by decide +kernel)
  have hrel : Path.relativeTo ⟨bytes "a"⟩ ⟨bytes "."⟩ = .ok ⟨bytes "../a"⟩ := by decide +kernel
  obtain rfl := Except.ok.inj (hrel.symm.trans hr)
  revert hnormal
  decide +kernel

end Path

end RsIo
