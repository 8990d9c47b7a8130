import RsIo.DeepSearchTree

/-!
# Deep Search and Links

What `deep_search()` does about links if it is told not to follow them. A directory range
follows the link that is its directory, and it is `is_directory()` that keeps the search
from making one. The loop of `operator++` asks it first. The loop of the constructor, which
goes down to the first path in bottom up order, does not.

The file system is finite, so that the descent to the first path ends: a way down that
does not end would go through more links than the system follows.

## Main results

* `acc_first`: the descent to the first path ends.
* `noFollow_iff`: the search stays above the links, and both orders visit the same paths,
  exactly if the descent comes to no link in which something is listed.
* `noFollow_fails`: a search that shows the entry of a directory below a link to it.
-/

namespace RsIo

open SearchIterator TreeOrder

variable {isValidUtf : Bytes → Bool} {w : World} {flags : PathFlags} {p q : FilePath}
  {l l' : Loc} {n : Bytes} {k : ℕ}

/-! ### The way down -/

/-- A name that is longer than that of `p` goes on from `l`, with `k` links left. -/
def ContinuesAt (w : World) (p : FilePath) (k : ℕ) (l : Loc) : Prop :=
  ∀ follow es, es ≠ [] →
    w.tree.walk follow maxLinks (if p.isAbsolute then [] else w.cwd) (p.elements ++ es) =
      w.tree.walk follow k l es

/-- A longer name goes on from where a name leads to. -/
theorem continuesAt_of_follow (h : w.resolve true p = .ok (.found l)) :
    ∃ k, ContinuesAt w p k l := by
  obtain ⟨k, -, hk⟩ := FileTree.walk_append (World.resolve_eq_ok.mp h).2
  exact ⟨k, hk⟩

namespace ContinuesAt

/-- Where the name of an entry leads to. -/
theorem follow_eq (h : ContinuesAt w p k l) (n : Bytes) {place : FileTree.Place Bytes} :
    w.resolve true (p.descend [n]) = .ok place ↔
      w.tree.walk true k l [.name n] = .ok place := by
  have hwalk := h true [.name n] (by simp)
  rw [← hwalk, World.resolve_eq_ok]
  exact and_iff_right (by simp [FilePath.descend])

/-- A name that is longer than that of an entry goes on from the entry, if it is not a
link. -/
theorem child (h : ContinuesAt w p k l) (hdir : w.tree.look l = some .dir)
    {e : Entry Bytes Bytes} (hn : w.tree.look (l ++ [n]) = some e)
    (he : ∀ target, e ≠ .link target) : ContinuesAt w (p.descend [n]) k (l ++ [n]) := by
  intro follow es hes
  have hwalk := h follow (.name n :: es) (by simp)
  rw [FileTree.walk_name hdir hn he] at hwalk
  rw [← hwalk]
  simp [FilePath.descend]

/-- A link that leads somewhere is one of those that are left. -/
theorem child_link (h : ContinuesAt w p k l) (hdir : w.tree.look l = some .dir)
    {target : FilePath} (hn : w.tree.look (l ++ [n]) = some (.link target))
    (hfollow : w.resolve true (p.descend [n]) = .ok (.found l')) :
    ∃ k' < k, ContinuesAt w (p.descend [n]) k' l' := by
  rw [h.follow_eq] at hfollow
  cases k with
  | zero =>
    rw [FileTree.walk_zero hdir hn] at hfollow
    cases hfollow
  | succ k =>
    rw [FileTree.walk_link (by simp) hdir hn, List.append_nil] at hfollow
    obtain ⟨k', hk', hwalk⟩ := FileTree.walk_append hfollow
    refine ⟨k', by omega, fun follow es hes => ?_⟩
    have hlong := h follow (.name n :: es) (by simp)
    rw [FileTree.walk_link (by simp [hes]) hdir hn, hwalk follow es hes] at hlong
    rw [← hlong]
    simp [FilePath.descend]

end ContinuesAt

/-- The path of an entry is not empty. -/
theorem descend_nonempty (p : FilePath) (n : Bytes) :
    ¬ ((p.descend [n]).isAbsolute = false ∧ (p.descend [n]).elements = []) := by
  simp [FilePath.descend]

/-- What is listed in the path of an entry is in the directory it leads to. That is the
entry itself, one level further down, or what a link leads to. -/
theorem first_step (h : ContinuesAt w p k l) (hfollow : w.resolve true p = .ok (.found l))
    (hq : First isValidUtf w flags p q) (hne : q.directoryRange isValidUtf w flags ≠ []) :
    ∃ k' l', ContinuesAt w q k' l' ∧ w.resolve true q = .ok (.found l') ∧
      w.tree.look l' = some .dir ∧ (k' < k ∨ k' = k ∧ l'.length = l.length + 1) := by
  obtain ⟨l₁, n, hdir, hl₁, hn, rfl⟩ := descend_of_mem hq.mem
  obtain rfl : l₁ = l := by
    have hsame := (hl₁ (World.resolve_eq_ok.mp hfollow).1).symm.trans hfollow
    exact FileTree.Place.found.inj (Except.ok.inj hsame)
  obtain ⟨q', hq'⟩ := List.exists_mem_of_ne_nil _ hne
  obtain ⟨l', -, hdir', hl', -, -⟩ := descend_of_mem hq'
  have hfollow' := hl' (descend_nonempty p n)
  obtain ⟨e, he⟩ := Option.ne_none_iff_exists'.mp ((w.tree.listed l₁ n).mp hn)
  cases e with
  | link target =>
    obtain ⟨k', hk', hcont⟩ := h.child_link hdir he hfollow'
    exact ⟨k', l', hcont, hfollow', hdir', .inl hk'⟩
  | file | dir =>
    have hcont := h.child hdir he (by simp)
    have hwalk := (h.follow_eq n).mp hfollow'
    rw [FileTree.walk_name hdir he (by simp), FileTree.walk_nil] at hwalk
    obtain rfl := FileTree.Place.found.inj (Except.ok.inj hwalk)
    exact ⟨k, _, hcont, hfollow', hdir', .inr ⟨rfl, by simp⟩⟩

/-- The descent to the first path ends: each step uses up a link, or goes one level down. -/
theorem acc_first {depth : ℕ} (hfinite : ∀ l, w.tree.look l ≠ none → l.length ≤ depth)
    (size : ℕ) (h : ContinuesAt w p k l) (hfollow : w.resolve true p = .ok (.found l))
    (hsize : k * (depth + 1) + (depth - l.length) < size) :
    Acc (fun q p => First isValidUtf w flags p q) p := by
  induction size generalizing p k l with
  | zero => omega
  | succ size ih =>
    refine Acc.intro p fun q hq => ?_
    rcases eq_or_ne (q.directoryRange isValidUtf w flags) [] with hnil | hne
    · exact Acc.intro q fun r hr => absurd hnil hr.ne_nil
    · obtain ⟨k', l', h', hfollow', hdir', hless⟩ := first_step h hfollow hq hne
      have hdepth := hfinite l' (by simp [hdir'])
      refine ih h' hfollow' ?_
      rcases hless with hk | ⟨rfl, hlen⟩
      · have hmul : (k' + 1) * (depth + 1) ≤ k * (depth + 1) := Nat.mul_le_mul_right _ hk
        rw [Nat.add_mul] at hmul
        omega
      · omega

/-! ### What is entered -/

/-- What is found in a path without following links is an entry of the directory at that
path. -/
theorem mem_kids (hflag : flags.noFollow = true) (hq : q ∈ kids isValidUtf w flags p) :
    ∃ l n, w.resolve false p = .ok (.found l) ∧ w.tree.look (l ++ [n]) ≠ none ∧
      q = p.descend [n] ∧ w.resolve false q = .ok (.found (l ++ [n])) := by
  have hp : p.isDirectory w flags = true := by
    by_contra hp
    rw [kids_of_not (by simpa using hp)] at hq
    cases hq
  obtain ⟨l, hstat⟩ := FilePath.isDirectory_iff.mp hp
  rw [World.getStat_eq_some, hflag] at hstat
  have hfollow := World.resolve_follow hstat.1 (by simp [hstat.2])
  obtain ⟨l₁, n, hdir, hl₁, hn, rfl⟩ := descend_of_mem (kids_subset hq)
  obtain ⟨hne, hwalk⟩ := World.resolve_eq_ok.mp hfollow
  obtain rfl : l₁ = l := FileTree.Place.found.inj (Except.ok.inj ((hl₁ hne).symm.trans hfollow))
  have hnode := (w.tree.listed l₁ n).mp hn
  have hchild := FileTree.walk_child hwalk hdir n
  rw [if_neg hnode] at hchild
  exact ⟨l₁, n, hstat.1, hnode, rfl, World.resolve_eq_ok.mpr ⟨descend_nonempty p n, hchild⟩⟩

/-- A directory that is not entered through a link is as high as the tree is deep below
it. -/
theorem height_of_finite {depth : ℕ} (hfinite : ∀ l, w.tree.look l ≠ none → l.length ≤ depth)
    (hflag : flags.noFollow = true) (m : ℕ)
    (hm : ∀ l, w.resolve false p = .ok (.found l) → depth ≤ l.length + m) :
    Height (kids isValidUtf w flags) m p := by
  induction m generalizing p with
  | zero =>
    refine List.eq_nil_iff_forall_not_mem.mpr fun q hq => ?_
    obtain ⟨l, n, hl, hnode, -, -⟩ := mem_kids hflag hq
    have hless := hm l hl
    have hdepth := hfinite _ hnode
    rw [List.length_append, List.length_singleton] at hdepth
    omega
  | succ m ih =>
    intro q hq
    obtain ⟨l, n, hl, -, -, hq'⟩ := mem_kids hflag hq
    have hless := hm l hl
    refine ih fun l' hl' => ?_
    obtain rfl := FileTree.Place.found.inj (Except.ok.inj (hq'.symm.trans hl'))
    rw [List.length_append, List.length_singleton]
    omega

/-- What is a directory if links are not followed is no link. -/
theorem isSymlink_of_isDirectory (hflag : flags.noFollow = true)
    (h : p.isDirectory w flags = true) : p.isSymlink w = false := by
  obtain ⟨l, hstat⟩ := FilePath.isDirectory_iff.mp h
  have hsame : w.getStat p { noFollow := true } = w.getStat p flags := by
    simp [World.getStat, hflag]
  simp [FilePath.isSymlink, hsame, hstat]

/-- What the search comes to without following links is below directories only. -/
theorem reach_descend (h : Relation.ReflTransGen (fun x y => y ∈ kids isValidUtf w flags x) p q) :
    ∃ r, q = p.descend r ∧
      ∀ r', r' <+: r → r' ≠ r → (p.descend r').isDirectory w flags = true := by
  induction h with
  | refl => exact ⟨[], by simp, fun r' hr' hne => absurd (List.prefix_nil.mp hr') hne⟩
  | @tail a b _ hb ih =>
    obtain ⟨r, rfl, hr⟩ := ih
    have ha : (p.descend r).isDirectory w flags = true := by
      by_contra ha
      rw [kids_of_not (by simpa using ha)] at hb
      cases hb
    obtain ⟨-, n, -, -, -, rfl⟩ := descend_of_mem (kids_subset hb)
    refine ⟨r ++ [n], by rw [FilePath.descend_append], fun r' hr' hne => ?_⟩
    have hfront : r' <+: r := (List.prefix_concat_iff.mp hr').resolve_left hne
    rcases eq_or_ne r' r with rfl | hne'
    · exact ha
    · exact hr r' hfront hne'

/-- `q` is strictly below a link that is below `p`. -/
def BelowLink (w : World) (p q : FilePath) : Prop :=
  ∃ above below, above ≠ [] ∧ below ≠ [] ∧ (p.descend above).isSymlink w = true ∧
    q = (p.descend above).descend below

/-- What the search comes to without following links is not below one. -/
theorem not_belowLink (hflag : flags.noFollow = true)
    (h : Relation.ReflTransGen (fun x y => y ∈ kids isValidUtf w flags x) p q) :
    ¬ BelowLink w p q := by
  rintro ⟨above, below, -, hbelow, hlink, rfl⟩
  obtain ⟨r, hr, hdirs⟩ := reach_descend h
  rw [← FilePath.descend_append] at hr
  obtain rfl := FilePath.descend_inj hr
  have hdir := hdirs above (List.prefix_append _ _) (by simpa using hbelow)
  rw [isSymlink_of_isDirectory hflag hdir] at hlink
  cases hlink

/-! ### The first path -/

variable (isValidUtf w flags) in
/-- `q` is the first path in the directory `p`. -/
def EntersFirst (p q : FilePath) : Prop :=
  p.isDirectory w flags = true ∧ First isValidUtf w flags p q

variable (isValidUtf w flags) in
/-- From a directory to the first path in it, and so on, there is a way to a link in which
something is listed. -/
def DivesIntoLink (p : FilePath) : Prop :=
  ∃ b, Relation.TransGen (EntersFirst isValidUtf w flags) p b ∧ b.isSymlink w = true ∧
    b.directoryRange isValidUtf w flags ≠ []

/-- What is reached by first paths is below. -/
theorem first_descend (h : Relation.TransGen (First isValidUtf w flags) p q) :
    ∃ r, r ≠ [] ∧ q = p.descend r := by
  induction h with
  | single hq =>
    obtain ⟨-, n, -, -, -, rfl⟩ := descend_of_mem hq.mem
    exact ⟨[n], by simp, rfl⟩
  | tail _ hq ih =>
    obtain ⟨r, -, rfl⟩ := ih
    obtain ⟨-, n, -, -, -, rfl⟩ := descend_of_mem hq.mem
    exact ⟨r ++ [n], by simp, by rw [FilePath.descend_append]⟩

/-- A path that is entered, and in which something is listed, is a directory if it is not a
link. -/
theorem isDirectory_of_entersFirst (hflag : flags.noFollow = true) {a : FilePath}
    (ha : EntersFirst isValidUtf w flags a p) (hlink : p.isSymlink w = false)
    (hne : p.directoryRange isValidUtf w flags ≠ []) :
    p.isDirectory w flags = true := by
  have hp : p ∈ kids isValidUtf w flags a := by
    rw [kids_of_isDirectory isValidUtf ha.1]
    exact ha.2.mem
  obtain ⟨l, n, -, hnode, rfl, hexact⟩ := mem_kids hflag hp
  obtain ⟨e, he⟩ := Option.ne_none_iff_exists'.mp hnode
  have hstat : w.getStat (a.descend [n]) { noFollow := true } = some (l ++ [n], e) :=
    World.getStat_eq_some.mpr ⟨hexact, he⟩
  have hnot : ∀ target, w.tree.look (l ++ [n]) ≠ some (.link target) := by
    intro target htarget
    obtain rfl := Option.some.inj (he.symm.trans htarget)
    simp [FilePath.isSymlink, hstat] at hlink
  obtain ⟨q, hq⟩ := List.exists_mem_of_ne_nil _ hne
  obtain ⟨l', -, hdir, hl', -, -⟩ := descend_of_mem hq
  have hfollow := World.resolve_follow hexact hnot
  obtain rfl := FileTree.Place.found.inj
    (Except.ok.inj ((hl' (descend_nonempty a n)).symm.trans hfollow))
  refine FilePath.isDirectory_iff.mpr ⟨l ++ [n], World.getStat_eq_some.mpr ⟨?_, hdir⟩⟩
  rw [hflag]
  exact hexact

variable (isValidUtf w flags) in
/-- The constructor has come to a path by going from one first path to the next. -/
structure Falls (depth : ℕ) (p : FilePath) (s : SearchIterator) : Prop where
  sound : Sound isValidUtf w flags depth s
  revisit : s.revisit = false
  current : ∀ q ∈ s.current, Relation.TransGen (First isValidUtf w flags) p q

section Finite

variable {depth : ℕ} (hfinite : ∀ l, w.tree.look l ≠ none → l.length ≤ depth)
  (hflag : flags.noFollow = true)
include hfinite hflag

/-- Every path is of finite height. -/
theorem height_depth (p : FilePath) : Height (kids isValidUtf w flags) depth p :=
  height_of_finite hfinite hflag depth fun _ _ => Nat.le_add_left _ _

/-- What the search would find in the order of the tree is not below a link. -/
theorem visits_not_belowLink
    (h : q ∈ (kids isValidUtf w flags p).flatMap (visits isValidUtf w flags depth)) :
    ¬ BelowLink w p q := by
  obtain ⟨a, ha, hq⟩ := List.mem_flatMap.mp h
  rw [visits, mem_order (height_depth hfinite hflag a)] at hq
  exact not_belowLink hflag (.head ha hq)

/-- If the descent to the first path comes to no link in which something is listed, the
search in bottom up order goes through the order of the tree. -/
theorem finds_of_not_dives (hpost : flags.bottomUp = true) (hp : p.isDirectory w flags = true)
    (hdives : ¬ DivesIntoLink isValidUtf w flags p) :
    Finds isValidUtf w flags p
      ((kids isValidUtf w flags p).flatMap (visits isValidUtf w flags depth)) := by
  have hdir : ∀ a, Relation.TransGen (EntersFirst isValidUtf w flags) p a →
      a.directoryRange isValidUtf w flags ≠ [] → a.isDirectory w flags = true := by
    intro a ha hne
    obtain ⟨b, -, hb⟩ := Relation.TransGen.tail'_iff.mp ha
    refine isDirectory_of_entersFirst hflag hb ?_ hne
    by_contra hlink
    exact hdives ⟨a, ha, by simpa using hlink, hne⟩
  refine finds_bottomUp_order ?_ hdir hpost hp (height_depth hfinite hflag p) ?_
  · exact fun a b ha hb => ha.tail ⟨hdir a ha hb.ne_nil, hb⟩
  · exact fun q hq => .single ⟨hp, hq⟩

/-- The constructor begins with the first path of the directory. -/
theorem Falls.start (hpost : flags.bottomUp = true)
    (hne : p.directoryRange isValidUtf w flags ≠ []) :
    Falls isValidUtf w flags depth p ⟨[p.directoryRange isValidUtf w flags], flags, false⟩ := by
  refine ⟨⟨rfl, by simpa using hne, ?_, by simp [hpost], by simp [hpost]⟩, rfl, fun q hq => ?_⟩
  · exact fun _ _ q _ => height_depth hfinite hflag q
  · exact .single (by simpa [SearchIterator.current, First] using hq)

/-- The constructor goes down to the next first path. -/
theorem Falls.step (hpost : flags.bottomUp = true) (s : SearchIterator) (a : FilePath)
    (rest : List FilePath) (below : List (List FilePath))
    (hs : Falls isValidUtf w flags depth p s) (hstack : s.stack = (a :: rest) :: below)
    (hne : a.directoryRange isValidUtf w flags ≠ []) :
    Falls isValidUtf w flags depth p
      { s with stack := a.directoryRange isValidUtf w flags :: s.stack } := by
  refine ⟨⟨hs.sound.flagset, ?_, ?_, by simp [hpost], by simp [hpost]⟩, hs.revisit,
    fun q hq => ?_⟩
  · simpa [hne] using hs.sound.nonempty
  · exact fun _ _ q _ => height_depth hfinite hflag q
  · have hfirst : First isValidUtf w flags a q := by
      simpa [SearchIterator.current, First] using hq
    exact (hs.current a (by simp [current_eq hstack])).tail hfirst

/-- If it comes to one, the search in bottom up order begins below that link. -/
theorem finds_belowLink (hpost : flags.bottomUp = true)
    (hdives : DivesIntoLink isValidUtf w flags p) :
    ∃ found q, Finds isValidUtf w flags p found ∧ q ∈ found ∧ BelowLink w p q := by
  obtain ⟨b, hb, hlink, hnone⟩ := hdives
  obtain ⟨a, ha, -⟩ := Relation.TransGen.head'_iff.mp hb
  have hp : p.isDirectory w flags = true := ha.1
  obtain ⟨l, hstat⟩ := FilePath.isDirectory_iff.mp (FilePath.isDirectory_of_flags hp)
  have hfollow := (World.getStat_eq_some.mp hstat).1
  obtain ⟨k, hcont⟩ := continuesAt_of_follow hfollow
  have hacc : Acc (fun q p => First isValidUtf w flags p q) p :=
    acc_first hfinite _ hcont hfollow (Nat.lt_succ_self _)
  obtain ⟨s, q, hs, hcurrent, hend, hmem, hfinds⟩ :=
    finds_bottomUp (I := Falls isValidUtf w flags depth p) hpost hp ha.2.ne_nil
      (fun q hq => hacc.inv hq) (fun s hs => ⟨hs.sound, hs.revisit⟩)
      (Falls.start hfinite hflag hpost ha.2.ne_nil) (Falls.step hfinite hflag hpost)
  refine ⟨_, q, hfinds, hmem, ?_⟩
  have hq : Relation.TransGen (First isValidUtf w flags) p q := hs.current q hcurrent
  have hb' : Relation.TransGen (First isValidUtf w flags) p b :=
    Relation.TransGen.mono (fun _ _ (h : EntersFirst isValidUtf w flags _ _) => h.2) _ _ hb
  have hstop : ∀ {c}, Relation.ReflTransGen (First isValidUtf w flags) q c → c = q := by
    intro c hc
    rcases Relation.ReflTransGen.cases_head hc with rfl | ⟨r, hr, -⟩
    · rfl
    · exact absurd hend hr.ne_nil
  have hunique : Relator.RightUnique (First isValidUtf w flags) := fun _ _ _ h h' =>
    Option.some.inj (h.symm.trans h')
  have hbq : Relation.ReflTransGen (First isValidUtf w flags) b q := by
    rcases Relation.ReflTransGen.total_of_right_unique hunique hb'.to_reflTransGen
      hq.to_reflTransGen with h | h
    · exact h
    · rw [hstop h]
  have hbelow : Relation.TransGen (First isValidUtf w flags) b q := by
    rcases Relation.reflTransGen_iff_eq_or_transGen.mp hbq with rfl | h
    · exact absurd hend hnone
    · exact h
  obtain ⟨above, habove, rfl⟩ := first_descend hb'
  obtain ⟨below, hne, rfl⟩ := first_descend hbelow
  exact ⟨above, below, habove, hne, hlink, rfl⟩

end Finite

variable (isValidUtf w flags p) in
/-- The search of `p` ends in both orders, shows nothing below a link, and shows the same
paths in both. -/
def StaysAboveLinks : Prop :=
  ∃ topDown bottomUp,
    Finds isValidUtf w { flags with bottomUp := false } p topDown ∧
    Finds isValidUtf w { flags with bottomUp := true } p bottomUp ∧
    (∀ q ∈ topDown, ¬ BelowLink w p q) ∧ (∀ q ∈ bottomUp, ¬ BelowLink w p q) ∧
    ∀ q, q ∈ topDown ↔ q ∈ bottomUp

/-- The search that does not follow links stays above them exactly if, in bottom up order,
the descent to the first path comes to no link in which something is listed. -/
theorem noFollow_iff (hfinite : ∃ depth, ∀ l, w.tree.look l ≠ none → l.length ≤ depth)
    (hflag : flags.noFollow = true) :
    StaysAboveLinks isValidUtf w flags p ↔ ¬ DivesIntoLink isValidUtf w flags p := by
  obtain ⟨depth, hdepth⟩ := hfinite
  constructor
  · rintro ⟨-, bottomUp, -, hbottom, -, hstays, -⟩ hdives
    have hflag' : ({ flags with bottomUp := true } : PathFlags).noFollow = true := hflag
    obtain ⟨found, q, hfinds, hq, hbelow⟩ := finds_belowLink hdepth hflag' rfl hdives
    obtain rfl := hfinds.unique hbottom
    exact hstays q hq hbelow
  · intro hdives
    cases hp : p.isDirectory w flags with
    | false =>
      exact ⟨[], [], finds_of_not hp, finds_of_not hp, by simp, by simp, by simp⟩
    | true =>
      have hflag' : ∀ post, ({ flags with bottomUp := post } : PathFlags).noFollow = true :=
        fun _ => hflag
      refine ⟨_, _, finds_topDown rfl hp (height_depth hdepth hflag p),
        finds_of_not_dives hdepth hflag rfl hp hdives, ?_, ?_, ?_⟩
      · exact fun q hq => visits_not_belowLink hdepth (hflag' false) hq
      · exact fun q hq => visits_not_belowLink hdepth (hflag' true) hq
      · intro q
        have hperm : ((kids isValidUtf w flags p).flatMap
            (visits isValidUtf w { flags with bottomUp := true } depth)).Perm
            ((kids isValidUtf w flags p).flatMap
              (visits isValidUtf w { flags with bottomUp := false } depth)) :=
          List.Perm.flatMap_left _ fun a _ => order_perm depth a
        exact hperm.symm.mem_iff

/-- A directory `/d` with a file `x`, and a link `/l` to the directory, which is listed
first. -/
private def linkWorld : World where
  tree := ((FileTree.empty.insert [] [108] (.link ⟨true, [.name [100]]⟩) (by decide)
    (by decide)).insert [] [100] .dir (by decide) (by decide)).insert
    [[100]] [120] (.file []) (by decide) (by decide)
  cwd := []
  faults := []
  losses := []

private theorem linkWorld_finite : ∀ l, linkWorld.tree.look l ≠ none → l.length ≤ 2 := by
  intro l hl
  simp only [linkWorld, FileTree.insert, FileTree.empty, Function.update_apply] at hl
  split_ifs at hl <;> simp_all

theorem noFollow_iff_linkWorld :
    StaysAboveLinks (fun _ => true) linkWorld { noFollow := true } ⟨true, []⟩ ↔
      ¬ DivesIntoLink (fun _ => true) linkWorld { noFollow := true } ⟨true, []⟩ :=
  noFollow_iff ⟨2, linkWorld_finite⟩ rfl

/-- In bottom up order the file in the directory is shown below the link as well. -/
theorem noFollow_fails :
    deepSearch (fun _ => true) linkWorld 20 ⟨true, []⟩ { noFollow := true } =
        some [⟨true, [.name [108]]⟩, ⟨true, [.name [100]]⟩,
          ⟨true, [.name [100], .name [120]]⟩] ∧
      deepSearch (fun _ => true) linkWorld 20 ⟨true, []⟩ { noFollow := true, bottomUp := true } =
        some [⟨true, [.name [108], .name [120]]⟩, ⟨true, [.name [108]]⟩,
          ⟨true, [.name [100], .name [120]]⟩, ⟨true, [.name [100]]⟩] ∧
      BelowLink linkWorld ⟨true, []⟩ ⟨true, [.name [108], .name [120]]⟩ :=
  ⟨by decide, by decide, [[108]], [[120]], by decide, by decide, by decide, rfl⟩

end RsIo
