import Mathlib.Algebra.BigOperators.Group.List.Basic
import RsIo.FileFrame

/-!
# The Size of a Directory

The function `Path::size`, on the Unix branch. With the `recurse` flag it adds the sizes of
everything in a directory. The size of a link below the directory is that of the link, but
the entries of a directory are listed by `directory()`, which follows a link: what a link
leads to is counted as well. A ring of links ends when a name goes through too many of them.

`sizes` stands for the `st_size` of the file at each location.

## Main results

* `FilePath.size_recurse_iff`: `size()` returns, and when its value is the size of the
  directory and of what is in it.
-/

namespace RsIo

open FileTree (Place)

namespace FilePath

variable (sizes : Loc → ℕ)

/-- The `st_size` that `get_stat` finds, which is zero for a file that is not there. -/
def statSize (w : World) (p : FilePath) (flags : PathFlags) : ℕ :=
  match w.getStat p flags with
  | some (l, _) => sizes l
  | none => 0

/-- `Path::size`, which adds in 64 bits. -/
def size : ℕ → FilePath → PathFlags → FsProg ℕ
  | 0, _, _ => .diverge
  | depth + 1, p, flags => do
      let w ← Prog.get
      let bytes := statSize sizes w p flags % 2 ^ 64
      if flags.recurse then
        (← p.directory).foldlM (fun bytes child => do
          return (bytes + (← size depth child { noFollow := true, recurse := true })) % 2 ^ 64)
          bytes
      else
        pure bytes

/-! ### Sums over the entries -/

/-- The sum of the sizes of all entries below `l`, of which there are at most `depth`
levels. -/
def sizeBelow (t : Tree) : ℕ → Loc → ℕ
  | 0, _ => 0
  | depth + 1, l =>
      ((t.names l).map fun n => sizes (l ++ [n]) + sizeBelow t depth (l ++ [n])).sum

/-- The sum of the sizes of the entries of a directory, if a path leads to one, and of
everything that their paths lead to. -/
def sizeBehind (w : World) : ℕ → FilePath → ℕ
  | 0, _ => 0
  | depth + 1, p =>
      match w.getStat p {} with
      | some (l, .dir) =>
          ((w.tree.names l).map fun n =>
            sizes (l ++ [n]) + sizeBehind w depth (p.descend [n])).sum
      | _ => 0

/-- The sum of what the links below `l` lead to. -/
def sizeBehindLinks (w : World) : ℕ → FilePath → Loc → ℕ
  | 0, _, _ => 0
  | depth + 1, p, l =>
      ((w.tree.names l).map fun n =>
        match w.tree.look (l ++ [n]) with
        | some (.link _) => sizeBehind sizes w depth (p.descend [n])
        | _ => sizeBehindLinks w depth (p.descend [n]) (l ++ [n])).sum

/-! ### The run -/

variable {sizes} {w w₀ : World} {p : FilePath} {l : Loc} {depth : ℕ}

/-- What is no directory lists nothing. -/
theorem directory_of_not_dir (hp : ¬ (p.isAbsolute = false ∧ p.elements = []))
    (hdir : ∀ l, w.getStat p {} ≠ some (l, .dir)) :
    ∃ w', p.directory w = some (.ok [], w') ∧ w.Like w' := by
  refine ⟨{ w with losses := w.losses.tail }, ?_, rfl, rfl,
    fun h loss hloss => h loss (List.mem_of_mem_tail hloss)⟩
  have hloss : nextLoss w = some (.ok w.losses.head?.join, { w with losses := w.losses.tail }) :=
    rfl
  have hdir' : ∀ l, ({ w with losses := w.losses.tail } : World).getStat p {} ≠ some (l, .dir) :=
    hdir
  rw [directory, Prog.bind_of_ok hloss, Prog.get_bind]
  simp only [if_neg hp]
  rfl

/-- The sizes of the entries are added one after the other. -/
theorem children_size (g : Bytes → ℕ) (names : List Bytes)
    (hchild : ∀ n ∈ names, ∀ w, w₀.Like w → ∃ w', size sizes depth (p.descend [n])
      { noFollow := true, recurse := true } w = some (.ok (g n % 2 ^ 64), w') ∧ w₀.Like w')
    (bytes : ℕ) (hw : w₀.Like w) :
    ∃ w', ((names.map fun n => p.descend [n]).foldlM (fun bytes child => do
        return (bytes + (← size sizes depth child { noFollow := true, recurse := true })) % 2 ^ 64)
          (bytes % 2 ^ 64) : FsProg ℕ) w =
        some (.ok ((bytes + (names.map g).sum) % 2 ^ 64), w') ∧ w₀.Like w' := by
  induction names generalizing bytes w with
  | nil => exact ⟨w, rfl, hw⟩
  | cons n names ih =>
      obtain ⟨w₁, hrun, hw₁⟩ := hchild n List.mem_cons_self w hw
      obtain ⟨w', hrest, hw'⟩ := ih (fun m hm => hchild m (List.mem_cons_of_mem _ hm))
        (bytes + g n) hw₁
      refine ⟨w', ?_, hw'⟩
      have hround : (do return (bytes % 2 ^ 64 + (← size sizes depth (p.descend [n])
          { noFollow := true, recurse := true })) % 2 ^ 64 : FsProg ℕ) w =
            some (.ok ((bytes + g n) % 2 ^ 64), w₁) := by
        rw [Prog.bind_of_ok hrun, ← Nat.add_mod]
        rfl
      rw [List.map_cons, List.foldlM_cons, Prog.bind_of_ok hround, hrest, List.map_cons,
        List.sum_cons, Nat.add_assoc]

/-- `size()` returns if the recursion is deep enough for all that it visits. -/
theorem size_runs (hlossless : w₀.Lossless) (hp : ¬ (p.isAbsolute = false ∧ p.elements = []))
    (hdepth : 0 < depth)
    (hdeep : ∀ r l, w₀.resolve false (p.descend r) = .ok (.found l) → r.length < depth)
    (b : Bool) (hw : w₀.Like w) :
    ∃ w', size sizes depth p { noFollow := b, recurse := true } w =
      some (.ok ((statSize sizes w₀ p { noFollow := b, recurse := true } +
        sizeBehind sizes w₀ depth p) % 2 ^ 64), w') ∧ w₀.Like w' := by
  induction depth generalizing p b w with
  | zero => exact absurd hdepth (by simp)
  | succ depth ih =>
      have hstat : statSize sizes w p { noFollow := b, recurse := true } =
          statSize sizes w₀ p { noFollow := b, recurse := true } := by
        rw [statSize, statSize, hw.getStat_eq]
      rw [size, Prog.get_bind, if_pos rfl, hstat]
      by_cases hdir : ∃ l, w₀.getStat p {} = some (l, .dir)
      · obtain ⟨l, hl⟩ := hdir
        obtain ⟨hfollow, hlook⟩ := World.getStat_eq_some.mp hl
        have hlist := (hw.lossless hlossless).directory_eq (by rw [hw.getStat_eq]; exact hl)
        have hlike : w₀.Like { w with losses := w.losses.tail } :=
          hw.trans ⟨rfl, rfl, fun h loss hloss => h loss (List.mem_of_mem_tail hloss)⟩
        have hnames : w.tree.names l = w₀.tree.names l := by rw [hw.tree]
        rw [Prog.bind_of_ok hlist, hnames, sizeBehind, hl]
        refine children_size _ _ (fun n hn w₁ hw₁ => ?_) _ hlike
        have hne := (w₀.tree.listed l n).mp hn
        have hplace := World.resolve_child hfollow hlook n
        rw [if_neg hne] at hplace
        have hchild : statSize sizes w₀ (p.descend [n]) { noFollow := true, recurse := true } =
            sizes (l ++ [n]) := by
          obtain ⟨e, he⟩ := Option.ne_none_iff_exists'.mp hne
          have hstat' : w₀.getStat (p.descend [n]) { noFollow := true, recurse := true } =
              some (l ++ [n], e) := World.getStat_eq_some.mpr ⟨hplace, he⟩
          rw [statSize, hstat']
        rw [← hchild]
        have hlen := hdeep [n] _ hplace
        refine ih (by simp [descend]) (by simpa using hlen) (fun r k hk => ?_) true hw₁
        rw [← descend_append] at hk
        have hlen' := hdeep _ _ hk
        simp only [List.length_append, List.length_singleton] at hlen'
        omega
      · obtain ⟨w', hlist, hlike⟩ := directory_of_not_dir (w := w) hp
          (by rw [hw.getStat_eq]; exact fun l hl => hdir ⟨l, hl⟩)
        refine ⟨w', ?_, hw.trans hlike⟩
        rw [Prog.bind_of_ok hlist, sizeBehind]
        split
        next l hl => exact absurd ⟨l, hl⟩ hdir
        next => rfl

/-! ### With and without links -/

/-- Nothing is below a file or a link. -/
theorem sizeBelow_of_not_dir {t : Tree} (hl : t.look l ≠ some .dir) (depth : ℕ) :
    sizeBelow sizes t depth l = 0 := by
  cases depth with
  | zero => rfl
  | succ depth => simp [sizeBelow, t.names_of_look hl]

/-- More levels than there are add nothing. -/
theorem sizeBelow_of_depthBelow {t : Tree} {d : ℕ} (hd : DepthBelow t l d) (hle : d ≤ depth) :
    sizeBelow sizes t depth l = sizeBelow sizes t d l := by
  induction d generalizing l depth with
  | zero =>
      cases depth with
      | zero => rfl
      | succ depth =>
          have hnames : t.names l = [] := List.eq_nil_iff_forall_not_mem.mpr fun n hn =>
            absurd (hd [n] ((t.listed l n).mp hn)) (by simp)
          simp [sizeBelow, hnames]
  | succ d ih =>
      obtain ⟨depth, rfl⟩ : ∃ k, depth = k + 1 := ⟨depth - 1, by omega⟩
      rw [sizeBelow, sizeBelow]
      refine congrArg List.sum (List.map_congr_left fun n _ => ?_)
      rw [ih (hd.child n) (by omega)]

/-- What is counted is what is below the directory, and what the links there lead to. -/
theorem sizeBehind_eq (hp : w.resolve true p = .ok (.found l)) :
    sizeBehind sizes w depth p =
      sizeBelow sizes w.tree depth l + sizeBehindLinks sizes w depth p l := by
  induction depth generalizing p l with
  | zero => rfl
  | succ depth ih =>
      by_cases hl : w.tree.look l = some .dir
      · rw [sizeBehind, World.getStat_eq_some.mpr ⟨hp, hl⟩, sizeBelow, sizeBehindLinks,
          ← List.sum_map_add]
        refine congrArg List.sum (List.map_congr_left fun n hn => ?_)
        have hne := (w.tree.listed l n).mp hn
        have hchild := World.resolve_child hp hl n
        rw [if_neg hne] at hchild
        split
        next target htarget =>
          rw [sizeBelow_of_not_dir (by simp [htarget]), Nat.add_zero]
        next hnot =>
          rw [ih (World.resolve_follow hchild hnot), Nat.add_assoc]
      · have hnames := w.tree.names_of_look hl
        have hstat : ∀ k, w.getStat p {} ≠ some (k, .dir) := by
          intro k hk
          obtain ⟨hk, hdir⟩ := World.getStat_eq_some.mp hk
          obtain rfl := Place.found.inj (Except.ok.inj (hp.symm.trans hk))
          exact hl hdir
        rw [sizeBelow_of_not_dir hl, sizeBehindLinks, hnames, sizeBehind]
        split
        next k hk => exact absurd hk (hstat k)
        next => rfl

/-- What is found below a path is found in a directory that the path leads to. -/
theorem resolve_below (hp : ¬ (p.isAbsolute = false ∧ p.elements = [])) {n : Bytes}
    {r : List Bytes} {k : Loc} (h : w.resolve false (p.descend (n :: r)) = .ok (.found k)) :
    ∃ l, w.resolve true p = .ok (.found l) ∧ w.tree.look l = some .dir ∧
      w.tree.look (l ++ [n]) ≠ none ∧ (r = [] → k = l ++ [n]) := by
  obtain ⟨-, hwalk⟩ := World.resolve_eq_ok.mp h
  obtain ⟨l, hl, hdir⟩ := FileTree.walk_append_inv hwalk (by simp)
  have hfollow : w.resolve true p = .ok (.found l) := World.resolve_eq_ok.mpr ⟨hp, hl⟩
  have hchild := World.resolve_child hfollow hdir n
  have hne : w.tree.look (l ++ [n]) ≠ none := by
    intro hnone
    rw [if_pos hnone] at hchild
    rcases eq_or_ne r [] with rfl | hr
    · rw [hchild] at h
      cases h
    · obtain ⟨-, hmissing⟩ := World.resolve_eq_ok.mp hchild
      have hnames : r.map PathElem.name ≠ [] := by simpa using hr
      have herr := FileTree.walk_missing_append (f := false) hmissing hnames
      have hsplit : (p.descend (n :: r)).elements =
          (p.descend [n]).elements ++ r.map .name := by simp [descend]
      rw [hsplit] at hwalk
      exact absurd (herr.symm.trans hwalk) (by simp)
  refine ⟨l, hfollow, hdir, hne, fun hr => ?_⟩
  rw [if_neg hne] at hchild
  rw [hr, hchild] at h
  exact (Place.found.inj (Except.ok.inj h)).symm

/-- What a path leads to adds nothing if all that is found below it has no size. -/
theorem sizeBehind_eq_zero_iff (hp : ¬ (p.isAbsolute = false ∧ p.elements = []))
    (hdeep : ∀ r k, w.resolve false (p.descend r) = .ok (.found k) → r.length ≤ depth) :
    sizeBehind sizes w depth p = 0 ↔
      ∀ r k, r ≠ [] → w.resolve false (p.descend r) = .ok (.found k) → sizes k = 0 := by
  induction depth generalizing p with
  | zero =>
      refine iff_of_true rfl fun r k hr hk => absurd (hdeep r k hk) ?_
      simpa using hr
  | succ depth ih =>
      rw [sizeBehind]
      by_cases hdir : ∃ l, w.getStat p {} = some (l, .dir)
      · obtain ⟨l, hl⟩ := hdir
        obtain ⟨hfollow, hlook⟩ := World.getStat_eq_some.mp hl
        have hih : ∀ n, sizeBehind sizes w depth (p.descend [n]) = 0 ↔ ∀ r k, r ≠ [] →
            w.resolve false (p.descend (n :: r)) = .ok (.found k) → sizes k = 0 := by
          intro n
          refine (ih (by simp [descend]) fun r k hk => ?_).trans (by simp [← descend_append])
          rw [← descend_append] at hk
          simpa using hdeep _ _ hk
        rw [hl]
        simp only [List.sum_eq_zero_iff_forall_eq_nat, List.mem_map, forall_exists_index, and_imp,
          forall_apply_eq_imp_iff₂, Nat.add_eq_zero_iff, hih]
        constructor
        · intro hall r k hr hk
          obtain ⟨n, r, rfl⟩ := List.exists_cons_of_ne_nil hr
          obtain ⟨l', hl', -, hne, hlast⟩ := resolve_below hp hk
          obtain rfl := Place.found.inj (Except.ok.inj (hl'.symm.trans hfollow))
          have hn := hall n ((w.tree.listed l' n).mpr hne)
          rcases eq_or_ne r [] with rfl | hr'
          · rw [hlast rfl]
            exact hn.1
          · exact hn.2 r k hr' hk
        · intro hall n hn
          have hchild := World.resolve_child hfollow hlook n
          rw [if_neg ((w.tree.listed l n).mp hn)] at hchild
          exact ⟨hall [n] _ (by simp) hchild, fun r k _ hk => hall (n :: r) k (by simp) hk⟩
      · refine iff_of_true ?_ fun r k hr hk => ?_
        · split
          next l hl => exact absurd ⟨l, hl⟩ hdir
          next => rfl
        · obtain ⟨n, r, rfl⟩ := List.exists_cons_of_ne_nil hr
          obtain ⟨l, hl, hlook, -⟩ := resolve_below hp hk
          exact absurd ⟨l, World.getStat_eq_some.mpr ⟨hl, hlook⟩⟩ hdir

/-- The links below a directory add nothing if all that is found below its path, but is not
below the directory, has no size. -/
theorem sizeBehindLinks_eq_zero_iff (hp : w.resolve true p = .ok (.found l))
    (hdeep : ∀ r k, w.resolve false (p.descend r) = .ok (.found k) → r.length ≤ depth) :
    sizeBehindLinks sizes w depth p l = 0 ↔ ∀ r k,
      w.resolve false (p.descend r) = .ok (.found k) → w.tree.look (l ++ r) = none →
        sizes k = 0 := by
  have hne := (World.resolve_eq_ok.mp hp).1
  have hthere := World.look_of_found hp
  induction depth generalizing p l with
  | zero =>
      refine iff_of_true rfl fun r k hk hnone => ?_
      obtain rfl : r = [] := by simpa using hdeep r k hk
      rw [List.append_nil] at hnone
      exact absurd hnone hthere
  | succ depth ih =>
      have hentry : ∀ n ∈ w.tree.names l,
          (match w.tree.look (l ++ [n]) with
            | some (.link _) => sizeBehind sizes w depth (p.descend [n])
            | _ => sizeBehindLinks sizes w depth (p.descend [n]) (l ++ [n])) = 0 ↔
          ∀ r k, w.resolve false (p.descend (n :: r)) = .ok (.found k) →
            w.tree.look (l ++ n :: r) = none → sizes k = 0 := by
        intro n hn
        have hlook := (w.tree.listed l n).mp hn
        have hchild := World.resolve_child hp (w.tree.closed l n hlook) n
        rw [if_neg hlook] at hchild
        have hdeep' : ∀ r k, w.resolve false ((p.descend [n]).descend r) = .ok (.found k) →
            r.length ≤ depth := by
          intro r k hk
          rw [← descend_append] at hk
          simpa using hdeep _ _ hk
        have hsplit : ∀ r, p.descend (n :: r) = (p.descend [n]).descend r := fun r => by
          rw [← descend_append]
          rfl
        split
        next target htarget =>
          -- nothing is below a link, and the link itself is below the directory
          rw [sizeBehind_eq_zero_iff (by simp [descend]) hdeep']
          refine forall₂_congr fun r k => ⟨fun hall hk hnone => ?_, fun hall hr hk => ?_⟩
          · refine hall ?_ (by rwa [← hsplit])
            rintro rfl
            exact hlook hnone
          · refine hall (by rwa [hsplit]) ?_
            by_contra hne'
            have hway : l ++ [n] <+: l ++ n :: r := ⟨r, by simp⟩
            have hdir := w.tree.look_isPrefix hway (by simpa using hr.symm) hne'
            exact absurd (htarget.symm.trans hdir) (by simp)
        next hnot =>
          have hfollow := World.resolve_follow hchild hnot
          have hiff := ih hfollow hdeep' (by simp [descend]) hlook
          simp only [← hsplit, List.append_assoc, List.singleton_append] at hiff
          exact hiff
      rw [sizeBehindLinks]
      simp only [List.sum_eq_zero_iff_forall_eq_nat, List.mem_map, forall_exists_index, and_imp,
        forall_apply_eq_imp_iff₂]
      constructor
      · intro hall r k hk hnone
        cases r with
        | nil =>
            rw [List.append_nil] at hnone
            exact absurd hnone hthere
        | cons n r =>
            obtain ⟨l', hl', -, hne', -⟩ := resolve_below hne hk
            obtain rfl := Place.found.inj (Except.ok.inj (hl'.symm.trans hp))
            have hn := (w.tree.listed l' n).mpr hne'
            exact (hentry n hn).mp (hall n hn) r k hk hnone
      · intro hall n hn
        exact (hentry n hn).mpr fun r k hk hnone => hall (n :: r) k hk hnone

/-- The levels of recursion that are enough for all of a file system with `d` levels. -/
def enoughDepth (d : ℕ) : ℕ :=
  (maxLinks + 1) * (d + 1)

/-- What `size()` visits is not too deep. -/
theorem length_lt_enoughDepth {d : ℕ} (hd : DepthBelow w.tree [] d) {r : List Bytes}
    (hr : w.resolve false (p.descend r) = .ok (.found l)) : r.length < enoughDepth d := by
  obtain ⟨-, hwalk⟩ := World.resolve_eq_ok.mp hr
  have hle := FileTree.walk_names_length (d := d) hd hwalk
  have henough : enoughDepth d = maxLinks * (d + 1) + d + 1 := by
    rw [enoughDepth]
    ring
  omega

/-- **The size of a directory.** In a file system of finite depth `size()` with the
`recurse` flag returns. Its value is the size of the directory and of all entries below it
if and only if that is a number of 64 bits, and what the links below the directory lead to
adds nothing in 64 bits. It adds nothing at all if and only if every file that is found
below the path, but through a link, has no size. -/
theorem size_recurse_iff {d : ℕ} (hlossless : w.Lossless) (hd : DepthBelow w.tree [] d)
    (hp : w.getStat p {} = some (l, .dir)) (hdepth : enoughDepth d ≤ depth) :
    (∃ bytes w', size sizes depth p { recurse := true } w = some (.ok bytes, w')) ∧
    ((∃ w', size sizes depth p { recurse := true } w =
        some (.ok (sizes l + sizeBelow sizes w.tree d l), w')) ↔
      sizes l + sizeBelow sizes w.tree d l < 2 ^ 64 ∧
        2 ^ 64 ∣ sizeBehindLinks sizes w depth p l) ∧
    (sizeBehindLinks sizes w depth p l = 0 ↔ ∀ r k,
      w.resolve false (p.descend r) = .ok (.found k) → w.tree.look (l ++ r) = none →
        sizes k = 0) := by
  obtain ⟨hfollow, hl⟩ := World.getStat_eq_some.mp hp
  have hlen : ∀ r k, w.resolve false (p.descend r) = .ok (.found k) → r.length < depth :=
    fun r k hk => lt_of_lt_of_le (length_lt_enoughDepth hd hk) hdepth
  have hpos : 0 < depth := lt_of_lt_of_le (by simp [enoughDepth]) hdepth
  obtain ⟨w', hrun, -⟩ : ∃ w', size sizes depth p { noFollow := false, recurse := true } w =
      some (.ok ((statSize sizes w p { noFollow := false, recurse := true } +
        sizeBehind sizes w depth p) % 2 ^ 64), w') ∧ w.Like w' :=
    size_runs hlossless (World.resolve_eq_ok.mp hfollow).1 hpos hlen false (.refl w)
  have hbelow : DepthBelow w.tree l d := fun r hr => by
    have hle := hd (l ++ r) hr
    rw [List.length_append] at hle
    omega
  have hle : d ≤ depth := by
    refine le_trans ?_ hdepth
    simp only [enoughDepth, maxLinks]
    omega
  have hstat : statSize sizes w p { noFollow := false, recurse := true } = sizes l := by
    have hp' : w.getStat p { noFollow := false, recurse := true } = some (l, .dir) := hp
    rw [statSize, hp']
  rw [hstat, sizeBehind_eq hfollow, sizeBelow_of_depthBelow hbelow hle, ← Nat.add_assoc] at hrun
  refine ⟨⟨_, w', hrun⟩, ?_, sizeBehindLinks_eq_zero_iff hfollow fun r k hk =>
    (hlen r k hk).le⟩
  rw [hrun]
  constructor
  · rintro ⟨w'', h⟩
    have hsum := Except.ok.inj (Prod.mk.inj (Option.some.inj h)).1
    omega
  · rintro ⟨hlt, hdvd⟩
    refine ⟨w', ?_⟩
    have hsum : (sizes l + sizeBelow sizes w.tree d l + sizeBehindLinks sizes w depth p l) %
        2 ^ 64 = sizes l + sizeBelow sizes w.tree d l := by omega
    rw [hsum]

/-- A directory `/d`. -/
private def sizeTree₁ : Tree :=
  FileTree.single [100] .dir

/-- Nothing is at the name of the first directory. -/
private theorem sizeTree₁_new : sizeTree₁.look ([] ++ [[101]]) = none := by decide

/-- A directory `/e`. -/
private def sizeTree₂ : Tree :=
  sizeTree₁.insert [] [101] .dir sizeTree₁.root sizeTree₁_new

/-- The first directory is there. -/
private theorem sizeTree₂_dir : sizeTree₂.look [[101]] = some .dir := by decide

/-- Nothing is at the name of its file. -/
private theorem sizeTree₂_new : sizeTree₂.look ([[101]] ++ [[102]]) = none := by decide

/-- A file `/e/f`. -/
private def sizeTree₃ : Tree :=
  sizeTree₂.insert [[101]] [102] (.file [120]) sizeTree₂_dir sizeTree₂_new

/-- The second directory is there. -/
private theorem sizeTree₃_dir : sizeTree₃.look [[100]] = some .dir := by decide

/-- Nothing is at the name of the link. -/
private theorem sizeTree₃_new : sizeTree₃.look ([[100]] ++ [[108]]) = none := by decide

/-- A link `/d/l` to `/e`. -/
private def sizeWorld : World where
  tree := sizeTree₃.insert [[100]] [108] (.link ⟨true, [.name [101]]⟩) sizeTree₃_dir sizeTree₃_new
  cwd := []
  faults := []
  losses := []

/-- The path `/d`. -/
private def sizeDir : FilePath := ⟨true, [.name [100]]⟩

/-- There are two levels. -/
private theorem sizeWorld_depth : DepthBelow sizeWorld.tree [] 2 := by
  intro r hr
  simp only [sizeWorld, sizeTree₃, sizeTree₂, sizeTree₁, FileTree.single, FileTree.insert,
    FileTree.empty, Function.update_apply, List.nil_append] at hr
  split_ifs at hr <;> simp_all

/-- The link in the directory leads to another one, whose file is counted. -/
theorem size_recurse_linked :
    (∃ bytes w', size (fun _ => 1) (enoughDepth 2) sizeDir { recurse := true } sizeWorld =
      some (.ok bytes, w')) ∧
    ((∃ w', size (fun _ => 1) (enoughDepth 2) sizeDir { recurse := true } sizeWorld =
        some (.ok (1 + sizeBelow (fun _ => 1) sizeWorld.tree 2 [[100]]), w')) ↔
      1 + sizeBelow (fun _ => 1) sizeWorld.tree 2 [[100]] < 2 ^ 64 ∧
        2 ^ 64 ∣ sizeBehindLinks (fun _ => 1) sizeWorld (enoughDepth 2) sizeDir [[100]]) ∧
    (sizeBehindLinks (fun _ => 1) sizeWorld (enoughDepth 2) sizeDir [[100]] = 0 ↔ ∀ r k,
      sizeWorld.resolve false (sizeDir.descend r) = .ok (.found k) →
        sizeWorld.tree.look ([[100]] ++ r) = none → 1 = 0) :=
  size_recurse_iff (fun _ h => by cases h) sizeWorld_depth (by decide) le_rfl

/-- The file `/e/f` is counted as a part of `/d`. -/
theorem size_recurse_fails :
    (∃ w', size (fun _ => 1) 3 sizeDir { recurse := true } sizeWorld = some (.ok 3, w')) ∧
      1 + sizeBelow (fun _ => 1) sizeWorld.tree 2 [[100]] = 2 := by
  refine ⟨?_, by decide⟩
  have hrun : (size (fun _ => 1) 3 sizeDir { recurse := true } sizeWorld).map
      (fun r => r.1.toOption) = some (some 3) := by decide
  obtain ⟨⟨r, w'⟩, hw', hr⟩ := Option.map_eq_some_iff.mp hrun
  refine ⟨w', hw'.trans ?_⟩
  cases r with
  | error err => cases hr
  | ok bytes => rw [Option.some.inj hr]

end FilePath

end RsIo
