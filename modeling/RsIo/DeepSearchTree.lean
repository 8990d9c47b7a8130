import RsIo.DeepSearch

/-!
# Deep Search in a File Tree

What `deep_search()` finds below a directory, in terms of the tree and not of the code.
The paths below a directory are its own path with the names on the way down. Without links
every path below a directory leads to the node at the same names below its location, and
is entered if that is a directory.

## Main results

* `deepSearch_tree`: without links, the search goes through the contents of the directory,
  in the order that the flags ask for, each path once.
-/

namespace RsIo

open SearchIterator TreeOrder

namespace FilePath

/-- A path below another is hidden if its last name begins with a dot. -/
theorem isHidden_descend (p : FilePath) (n : Bytes) :
    (p.descend [n]).isHidden = (n.head? == some dot) := by
  unfold isHidden descend
  split
  next h => simp at h
  next h => cases hp : p.elements <;> simp [hp] at h
  next h => cases hp : p.elements <;> simp [hp] at h
  next => simp [elemText]

end FilePath

/-- Whether a search shows the entries of a directory with the given name. -/
def isShown (flags : PathFlags) (n : Bytes) : Bool :=
  !flags.noHidden || n.head? != some dot

/-- What is in the directory `l`, to the depth `d`: its entries in the order in which they
are listed, each with its contents, before them or after. The directory has the path `p`. -/
def contents (t : Tree) (flags : PathFlags) : ℕ → FilePath → Loc → List FilePath
  | 0, _, _ => []
  | d + 1, p, l =>
      ((t.names l).filter (isShown flags)).flatMap fun n =>
        place flags.bottomUp (p.descend [n]) (contents t flags d (p.descend [n]) (l ++ [n]))

/-- There are no links at and below `l`. -/
def NoLinksBelow (t : Tree) (l : Loc) : Prop :=
  ∀ r target, t.look (l ++ r) ≠ some (.link target)

theorem NoLinksBelow.child {t : Tree} {l : Loc} (h : NoLinksBelow t l) (n : Bytes) :
    NoLinksBelow t (l ++ [n]) := by
  intro r target
  rw [List.append_assoc]
  exact h _ target

/-- The contents of a directory are what is below it, but for what is hidden or below
something hidden. -/
theorem mem_contents {t : Tree} {flags : PathFlags} {d : ℕ} {p q : FilePath} {l : Loc}
    (hd : DepthBelow t l d) :
    q ∈ contents t flags d p l ↔
      ∃ r, r ≠ [] ∧ t.look (l ++ r) ≠ none ∧ (∀ n ∈ r, isShown flags n = true) ∧
        q = p.descend r := by
  induction d generalizing p l with
  | zero =>
    simp only [contents, List.not_mem_nil, false_iff, not_exists, not_and]
    intro r hr hlook
    have hlen := hd r hlook
    exact absurd (List.length_eq_zero_iff.mp (Nat.le_zero.mp hlen)) hr
  | succ d ih =>
    simp only [contents, List.mem_flatMap, List.mem_filter, mem_place, ih (hd.child _)]
    constructor
    · rintro ⟨n, ⟨hn, hshown⟩, rfl | ⟨r, hr, hlook, hall, rfl⟩⟩
      · exact ⟨[n], by simp, (t.listed l n).mp hn, by simpa using hshown, rfl⟩
      · refine ⟨n :: r, by simp, by simpa using hlook, by simpa [hshown] using hall, ?_⟩
        rw [← FilePath.descend_append, List.singleton_append]
    · rintro ⟨r, hr, hlook, hall, rfl⟩
      obtain ⟨n, r, rfl⟩ := List.exists_cons_of_ne_nil hr
      have hshown : isShown flags n = true := hall n (by simp)
      have hlook' : t.look (l ++ [n] ++ r) ≠ none := by simpa using hlook
      have hn : t.look (l ++ [n]) ≠ none := by
        rcases eq_or_ne r [] with rfl | hne
        · simpa using hlook
        · have hdir := t.look_isPrefix (List.prefix_append (l ++ [n]) r) (by simp [hne]) hlook'
          rw [hdir]
          simp
      refine ⟨n, ⟨(t.listed l n).mpr hn, hshown⟩, ?_⟩
      rcases eq_or_ne r [] with rfl | hne
      · exact .inl rfl
      · refine .inr ⟨r, hne, hlook', fun m hm => hall m (by simp [hm]), ?_⟩
        rw [← FilePath.descend_append, List.singleton_append]

/-! ### Paths without links -/

section NoLinks

variable {isValidUtf : Bytes → Bool} {w : World} {flags : PathFlags} {p q : FilePath} {l : Loc}

/-- A path leads to the node at `l`, whether links at its end are followed or not. -/
structure LeadsTo (w : World) (p : FilePath) (l : Loc) : Prop where
  exact : w.resolve false p = .ok (.found l)
  follow : w.resolve true p = .ok (.found l)

theorem LeadsTo.getStat (h : LeadsTo w p l) {e : Entry Bytes Bytes}
    (he : w.tree.look l = some e) (flags : PathFlags) : w.getStat p flags = some (l, e) := by
  rw [World.getStat_eq_some]
  refine ⟨?_, he⟩
  cases flags.noFollow
  · exact h.follow
  · exact h.exact

theorem LeadsTo.isDirectory (h : LeadsTo w p l) (hnone : w.tree.look l ≠ none) :
    p.isDirectory w flags = true ↔ w.tree.look l = some .dir := by
  obtain ⟨e, he⟩ := Option.ne_none_iff_exists'.mp hnone
  rw [FilePath.isDirectory, h.getStat he flags, he]
  cases e <;> simp

/-- What `readdir` lists in a directory that has a path. -/
theorem readdir_of_follow (h : w.resolve true p = .ok (.found l))
    (hdir : w.tree.look l = some .dir) :
    p.readdir w = some (.self :: .parent :: (w.tree.names l).map .name) := by
  have hne := (World.resolve_eq_ok.mp h).1
  have hstat : w.getStat p {} = some (l, .dir) := World.getStat_eq_some.mpr ⟨h, hdir⟩
  simp [FilePath.readdir, hne, hstat]

/-- What `readdir` lists are the directory itself, its parent, and the names of the entries
of the directory that the path leads to. -/
theorem readdir_eq {entries : List (PathElem Bytes)} (h : p.readdir w = some entries) :
    ∃ l, w.tree.look l = some .dir ∧
      (¬ (p.isAbsolute = false ∧ p.elements = []) → w.resolve true p = .ok (.found l)) ∧
      entries = .self :: .parent :: (w.tree.names l).map .name := by
  unfold FilePath.readdir at h
  generalize hdir : (if p.isAbsolute = false ∧ p.elements = [] then
    (⟨false, [.self]⟩ : FilePath) else p) = dir at h
  simp only at h
  split at h
  next l hl =>
    obtain ⟨hfollow, hlook⟩ := World.getStat_eq_some.mp hl
    refine ⟨l, hlook, fun hne => ?_, (Option.some.inj h).symm⟩
    rw [if_neg hne] at hdir
    exact hdir ▸ hfollow
  next => cases h

/-- The range of a directory, if names that are not Unicode are not skipped. -/
theorem directoryRange_of_follow (h : w.resolve true p = .ok (.found l))
    (hdir : w.tree.look l = some .dir) (hflags : flags.unicode = false) :
    p.directoryRange isValidUtf w flags =
      ((w.tree.names l).filter (isShown flags)).map fun n => p.descend [n] := by
  have hlisted : ∀ n, p.isListed isValidUtf flags (.name n) = isShown flags n := by
    intro n
    rw [FilePath.isListed, FilePath.join_name, FilePath.isHidden_descend]
    simp [hflags, isShown, bne]
  have hself : p.isListed isValidUtf flags .self = false := by simp [FilePath.isListed]
  have hparent : p.isListed isValidUtf flags .parent = false := by simp [FilePath.isListed]
  simp only [FilePath.directoryRange, hflags, Bool.false_and, Bool.false_eq_true, if_false,
    readdir_of_follow h hdir, List.filter_cons, hself, hparent, List.filter_map, List.map_map]
  simp only [Function.comp_def, hlisted, FilePath.join_name]

variable (w) in
/-- A path leads to a node at and below which there are no links. -/
structure LinkFree (p : FilePath) (l : Loc) : Prop where
  leads : LeadsTo w p l
  exists_node : w.tree.look l ≠ none
  noLinks : NoLinksBelow w.tree l

namespace LinkFree

/-- The path of an entry leads to the entry. -/
theorem child (h : LinkFree w p l) {n : Bytes} (hn : n ∈ w.tree.names l) :
    LinkFree w (p.descend [n]) (l ++ [n]) := by
  have hnode : w.tree.look (l ++ [n]) ≠ none := (w.tree.listed l n).mp hn
  have hdir := w.tree.closed l n hnode
  obtain ⟨hne, hwalk⟩ := World.resolve_eq_ok.mp h.leads.follow
  have hchild := FileTree.walk_child hwalk hdir n
  rw [if_neg hnode] at hchild
  have hexact : w.resolve false (p.descend [n]) = .ok (.found (l ++ [n])) :=
    World.resolve_eq_ok.mpr ⟨by simp [FilePath.descend], hchild⟩
  exact ⟨⟨hexact, World.resolve_follow hexact (h.noLinks [n])⟩, hnode, h.noLinks.child n⟩

/-- What a search finds in a path: the entries that are shown, if it is a directory. -/
theorem kids_eq (h : LinkFree w p l) (hflags : flags.unicode = false) :
    kids isValidUtf w flags p =
      ((w.tree.names l).filter (isShown flags)).map fun n => p.descend [n] := by
  have hiff : p.isDirectory w flags = true ↔ w.tree.look l = some .dir :=
    h.leads.isDirectory h.exists_node
  cases hp : p.isDirectory w flags with
  | true =>
      rw [kids_of_isDirectory isValidUtf hp,
        directoryRange_of_follow h.leads.follow (hiff.mp hp) hflags]
  | false =>
    have hdir : w.tree.look l ≠ some .dir := fun hdir => by
      rw [hiff.mpr hdir] at hp
      cases hp
    rw [kids_of_not hp, w.tree.names_of_look hdir, List.filter_nil, List.map_nil]

/-- A path in which anything is listed is a directory. -/
theorem isDirectory (h : LinkFree w p l)
    (hne : p.directoryRange isValidUtf w flags ≠ []) : p.isDirectory w flags = true := by
  obtain ⟨hnonempty, -⟩ := World.resolve_eq_ok.mp h.leads.follow
  obtain ⟨e, he⟩ := Option.ne_none_iff_exists'.mp h.exists_node
  refine (h.leads.isDirectory h.exists_node).mpr ?_
  by_contra hdir
  refine hne ?_
  have hreaddir : p.readdir w = none := by
    rw [FilePath.readdir, if_neg hnonempty, h.leads.getStat he]
    rw [he] at hdir
    cases e with
    | dir => exact absurd rfl hdir
    | file | link => rfl
  simp [FilePath.directoryRange, hreaddir]

variable (isValidUtf) in
/-- The height of a path in the search. -/
theorem height (h : LinkFree w p l) (hflags : flags.unicode = false) {d : ℕ}
    (hd : DepthBelow w.tree l d) : Height (kids isValidUtf w flags) d p := by
  induction d generalizing p l with
  | zero =>
    have hnames : w.tree.names l = [] := by
      refine List.eq_nil_iff_forall_not_mem.mpr fun n hn => ?_
      have hlen := hd [n] ((w.tree.listed l n).mp hn)
      simp at hlen
    change kids isValidUtf w flags p = []
    rw [h.kids_eq hflags, hnames, List.filter_nil, List.map_nil]
  | succ d ih =>
    intro q hq
    rw [h.kids_eq hflags] at hq
    obtain ⟨n, hn, rfl⟩ := List.mem_map.mp hq
    exact ih (h.child (List.mem_of_mem_filter hn)) (hd.child n)

variable (isValidUtf) in
/-- The order of the search is that of the tree. -/
theorem visits_eq (h : LinkFree w p l) (hflags : flags.unicode = false) (d : ℕ) :
    visits isValidUtf w flags d p =
      place flags.bottomUp p (contents w.tree flags d p l) := by
  induction d generalizing p l with
  | zero => simp [visits, order, contents]
  | succ d ih =>
    have hkids : (kids isValidUtf w flags p).flatMap (visits isValidUtf w flags d) =
        contents w.tree flags (d + 1) p l := by
      rw [h.kids_eq hflags, List.flatMap_map, contents]
      refine List.flatMap_congr fun n hn => ?_
      exact ih (h.child (List.mem_of_mem_filter hn))
    rw [← hkids]
    rfl

variable (isValidUtf) in
/-- What the search finds below a directory are its contents. -/
theorem flatMap_visits (h : LinkFree w p l) (hflags : flags.unicode = false) {d : ℕ}
    (hd : DepthBelow w.tree l d) :
    (kids isValidUtf w flags p).flatMap (visits isValidUtf w flags d) =
      contents w.tree flags d p l := by
  have hvisits := h.visits_eq isValidUtf hflags d
  rw [SearchIterator.visits_eq (h.height isValidUtf hflags hd)] at hvisits
  exact place_inj hvisits

/-- The first path in a directory is free of links. -/
theorem first (h : LinkFree w p l) (hflags : flags.unicode = false)
    (hq : First isValidUtf w flags p q) : ∃ k, LinkFree w q k := by
  have hmem := hq.mem
  rw [← kids_of_isDirectory isValidUtf (h.isDirectory hq.ne_nil), h.kids_eq hflags] at hmem
  obtain ⟨n, hn, rfl⟩ := List.mem_map.mp hmem
  exact ⟨l ++ [n], h.child (List.mem_of_mem_filter hn)⟩

end LinkFree

/-- What is listed in a path is one name below it, and is an entry of the directory that the
path leads to. -/
theorem descend_of_mem (h : q ∈ p.directoryRange isValidUtf w flags) :
    ∃ l n, w.tree.look l = some .dir ∧
      (¬ (p.isAbsolute = false ∧ p.elements = []) → w.resolve true p = .ok (.found l)) ∧
      n ∈ w.tree.names l ∧ q = p.descend [n] := by
  unfold FilePath.directoryRange at h
  split at h
  next => cases h
  next =>
    split at h
    next entries hentries =>
      obtain ⟨e, he, rfl⟩ := List.mem_map.mp h
      obtain ⟨hmem, hlisted⟩ := List.mem_filter.mp he
      obtain ⟨l, hdir, hfollow, rfl⟩ := readdir_eq hentries
      simp only [List.mem_cons, List.mem_map] at hmem
      rcases hmem with rfl | rfl | ⟨n, hn, rfl⟩
      · simp [FilePath.isListed] at hlisted
      · simp [FilePath.isListed] at hlisted
      · exact ⟨l, n, hdir, hfollow, hn, FilePath.join_name p n⟩
    next => cases h

/-- Nothing is listed twice. -/
theorem nodup_directoryRange (p : FilePath) :
    ((p.directoryRange isValidUtf w flags).map FileName.elements).Nodup := by
  unfold FilePath.directoryRange
  split
  next => exact List.nodup_nil
  next =>
    split
    next entries hentries =>
      obtain ⟨l, -, -, rfl⟩ := readdir_eq hentries
      have hnames : ((w.tree.names l).map PathElem.name).Nodup :=
        (w.tree.nodup l).map fun _ _ h => PathElem.name.inj h
      have hentries : (PathElem.self :: .parent :: (w.tree.names l).map .name).Nodup := by
        simpa using hnames
      rw [List.map_map]
      refine (hentries.filter _).map fun a b hab => ?_
      simpa [FilePath.join_elem] using hab
    next => exact List.nodup_nil

theorem kids_subset (h : q ∈ kids isValidUtf w flags p) :
    q ∈ p.directoryRange isValidUtf w flags := by
  unfold kids at h
  split at h
  next => exact h
  next => cases h

/-- No path is shown twice. -/
theorem nodup_visits (d : ℕ) (p : FilePath) :
    ((kids isValidUtf w flags p).flatMap (visits isValidUtf w flags d)).Nodup := by
  have hkey : ∀ a, ∀ b ∈ kids isValidUtf w flags a, ∃ e, b.elements = a.elements ++ [e] := by
    intro a b hb
    obtain ⟨-, n, -, -, -, rfl⟩ := descend_of_mem (kids_subset hb)
    exact ⟨.name n, rfl⟩
  have hkids : ∀ a, ((kids isValidUtf w flags a).map FileName.elements).Nodup := by
    intro a
    unfold kids
    split
    · exact nodup_directoryRange a
    · exact List.nodup_nil
  exact nodup_below hkey hkids (nodup_order hkey hkids d) p

/-- Without links the search of a directory ends, and goes through everything below it that
is not hidden or below something hidden, each path once, in the order that the flags ask
for. -/
theorem deepSearch_tree {d : ℕ} (hroot : w.getStat p { noFollow := true } = some (l, .dir))
    (hlinks : NoLinksBelow w.tree l) (hfinite : DepthBelow w.tree l d)
    (hflags : flags.unicode = false) :
    Finds isValidUtf w flags p (contents w.tree flags d p l) ∧
      (contents w.tree flags d p l).Nodup ∧
      ∀ q, q ∈ contents w.tree flags d p l ↔
        ∃ r, r ≠ [] ∧ w.tree.look (l ++ r) ≠ none ∧ (∀ n ∈ r, isShown flags n = true) ∧
          q = p.descend r := by
  obtain ⟨hexact, hdir⟩ := World.getStat_eq_some.mp hroot
  have hfollow := World.resolve_follow hexact (by simp [hdir])
  have hfree : LinkFree w p l := ⟨⟨hexact, hfollow⟩, by simp [hdir], hlinks⟩
  have hp : p.isDirectory w flags = true := (hfree.leads.isDirectory hfree.exists_node).mpr hdir
  have hheight := hfree.height isValidUtf hflags hfinite
  have hcontents := hfree.flatMap_visits isValidUtf hflags hfinite
  refine ⟨?_, hcontents ▸ nodup_visits d p, fun q => mem_contents hfinite⟩
  rw [← hcontents]
  cases hpost : flags.bottomUp with
  | false => exact finds_topDown hpost hp hheight
  | true =>
    refine finds_bottomUp_order (S := fun q => ∃ k, LinkFree w q k) ?_ ?_ hpost hp hheight ?_
    · exact fun a b ⟨k, ha⟩ hb => ha.first hflags hb
    · exact fun a ⟨k, ha⟩ hne => ha.isDirectory hne
    · exact fun q hq => hfree.first hflags hq

/-- A directory `/b` with the files `.h` and `a`, and a file `/c`. -/
private def smallWorld : World where
  tree := (((FileTree.empty.insert [] [98] .dir (by decide) (by decide)).insert
    [[98]] [46, 104] (.file []) (by decide) (by decide)).insert
    [[98]] [97] (.file []) (by decide) (by decide)).insert
    [] [99] (.file []) (by decide) (by decide)
  cwd := []
  faults := []
  losses := []

theorem deepSearch_tree_small :
    Finds (fun _ => true) smallWorld { bottomUp := true, noHidden := true } ⟨true, []⟩
      [⟨true, [.name [98], .name [97]]⟩, ⟨true, [.name [98]]⟩, ⟨true, [.name [99]]⟩] := by
  have hlook : ∀ l, smallWorld.tree.look l = none ∨
      smallWorld.tree.look l = some (.file []) ∧ l.length ≤ 2 ∨
      smallWorld.tree.look l = some .dir ∧ l.length ≤ 1 := by
    intro l
    simp only [smallWorld, FileTree.insert, FileTree.empty, Function.update_apply]
    split_ifs <;> simp_all
  have hlinks : NoLinksBelow smallWorld.tree [] := by
    intro r target
    rcases hlook r with h | h | h <;> simp [h]
  have hfinite : DepthBelow smallWorld.tree [] 2 := by
    intro r hr
    rcases hlook r with h | h | h
    · exact absurd h hr
    · exact h.2
    · exact h.2.trans (by decide)
  exact (deepSearch_tree (p := ⟨true, []⟩) (by decide) hlinks hfinite rfl).1

end NoLinks

end RsIo
