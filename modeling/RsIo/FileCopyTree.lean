import RsIo.FileCopyEnds
import RsIo.FileMakeDirectory
import RsIo.FileTreeCopy

/-!
# The Copy of a Tree

What `copy_to()` makes of a tree at a destination that does not exist. If there is nothing,
and no call fails, the copy goes through as long as each link in the source leads to a file
when it is reached: `exists()` follows links, so that a link that leads to nothing is an
error. The target of a link is read as a `Path`, which makes it canonical.

A link that leads to nothing does not exist either. At the destination it is left as it is,
whatever the source: a directory cannot be made there, and a file is written where the link
leads.

## Main results

* `FilePath.copyTo_duplicated`: the copy, node by node, whatever fails.
* `FilePath.copyTo_copies`: when the copy of a tree is the same tree.
-/

namespace RsIo

open FileTree (Place SameOn)

namespace FilePath

variable {w w' w₁ : World} {src dst p : FilePath} {s d l : Loc} {n : Bytes}

/-- A path to a missing file is not the path of a link. -/
theorem resolve_follow_missing (h : w.resolve false p = .ok (.missing l n)) :
    w.resolve true p = .ok (.missing l n) := by
  obtain ⟨hne, hwalk⟩ := World.resolve_eq_ok.mp h
  have hnone : w.tree.look (l ++ [n]) = none := (World.resolve_in h).2
  exact World.resolve_eq_ok.mpr ⟨hne, FileTree.walk_follow hwalk (by simp [Place.loc, hnone])⟩

/-- A missing file does not exist. -/
theorem doesExist_of_missing (h : w.resolve false p = .ok (.missing l n)) :
    p.doesExist w {} = false := by
  rw [Bool.eq_false_iff, ne_eq, doesExist_eq_true, resolve_follow_missing h]
  rintro ⟨k, hk⟩
  cases hk

/-- A file that exists does so in a larger file system. -/
theorem doesExist_extends (hext : w'.tree.Extends w.tree) (hcwd : w'.cwd = w.cwd)
    (hp : p.doesExist w {} = true) : p.doesExist w' {} = true := by
  obtain ⟨k, hk⟩ := doesExist_eq_true.mp hp
  exact doesExist_eq_true.mpr ⟨k, World.resolve_mono hext hcwd hk⟩

/-! ### Runs in which nothing fails -/

section Runs

variable {written content : Bytes} {out : Loc}

/-- Without errors to come a block is written. -/
theorem writeBlock_returns (hw : w.Faultless) (dst : FilePath) (out : Loc)
    (written block : Bytes) :
    ∃ w', writeBlock dst out written block w = some (.ok (), w') ∧ w'.Faultless := by
  unfold writeBlock
  split
  next => exact ⟨w, rfl, hw⟩
  next =>
    refine ⟨_, (Prog.bind_of_ok hw.nextFault_eq).trans rfl, ?_⟩
    exact hw.next

/-- Without errors to come all blocks are written. -/
theorem copyBlocks_returns (hw : w.Faultless) (src dst : FilePath) (out : Loc)
    (written content : Bytes) :
    ∃ w', copyBlocks src dst out written content w = some (.ok (), w') ∧ w'.Faultless := by
  induction hlen : content.length using Nat.strong_induction_on generalizing written content w with
  | _ len ih =>
    obtain ⟨w₁, hrun, hw₁⟩ :=
      writeBlock_returns hw.next dst out written (content.take blockSize)
    rw [copyBlocks, Prog.bind_of_ok hw.nextFault_eq]
    change ∃ w', (writeBlock dst out written _ >>= fun _ => dite _ _ _) w.next = _ ∧ _
    rw [Prog.bind_of_ok hrun]
    split
    next => exact ⟨w₁, rfl, hw₁⟩
    next hfull =>
      have hpos : 0 < blockSize := by decide
      rw [List.length_take] at hfull
      refine ih _ ?_ hw₁ _ _ rfl
      rw [List.length_drop]
      omega

/-- Without errors to come a file is closed. -/
theorem closeFile_returns (hw : w.Faultless) (out : Loc) :
    ∃ w', closeFile out w = some (.ok (), w') ∧ w'.Faultless := by
  have hloss : nextLoss w =
      some (.ok w.losses.head?.join, { w with losses := w.losses.tail }) := rfl
  rw [closeFile, Prog.bind_of_ok hloss]
  cases w.losses.head?.join with
  | none => exact ⟨_, rfl, hw⟩
  | some kept => exact ⟨_, rfl, hw⟩

/-- A file is copied to a place where there is nothing. -/
theorem copyFile_returns (hw : w.Faultless) (hs : w.resolve true src = .ok (.found s))
    {content : Bytes} (hfile : w.tree.look s = some (.file content))
    (hd : w.resolve true dst = .ok (.missing l n)) :
    ∃ w', copyFile src dst w = some (.ok (), w') ∧ w'.Faultless := by
  have hread : w.next.openRead src = .ok (w.tree, content) := by
    have hs' : w.next.resolve true src = .ok (.found s) := hs
    have hfile' : w.next.tree.look s = some (.file content) := hfile
    unfold World.openRead
    rw [hs']
    simp only [hfile']
    rfl
  have hin : w.tree.look l = some .dir ∧ w.tree.look (l ++ [n]) = none := World.resolve_in hd
  have hwrite : w.next.next.openWrite dst =
      .ok (w.tree.insert l n (.file []) hin.1 hin.2, l ++ [n]) := by
    have hd' : w.next.next.resolve true dst = .ok (.missing l n) := hd
    unfold World.openWrite
    rw [hd']
    exact dif_pos hin
  obtain ⟨w₁, hblocks, hw₁⟩ := copyBlocks_returns
    (w := { w.next.next with tree := w.tree.insert l n (.file []) hin.1 hin.2 }) hw.next.next
    src dst (l ++ [n]) [] content
  obtain ⟨w₂, hclose, hw₂⟩ := closeFile_returns hw₁ (l ++ [n])
  have hopen : sysCall (fun w => w.openRead src) w = some (.ok (.ok content), w.next) :=
    hw.sysCall_ok hread
  have hcheck : ∀ {α : Type} (q : FilePath) (a : α) (w : World),
      check [q] (.ok a) w = some (.ok a, w) := fun _ _ _ => rfl
  have htry : Prog.tryCatch (copyBlocks src dst (l ++ [n]) [] content) (fun err => do
      closeFile (l ++ [n])
      Prog.throw err) { w.next.next with tree := w.tree.insert l n (.file []) hin.1 hin.2 } =
        some (.ok (), w₁) := by
    rw [Prog.tryCatch, hblocks]
  refine ⟨w₂, ?_, hw₂⟩
  rw [copyFile, Prog.bind_of_ok hopen, Prog.bind_of_ok (hcheck ..),
    Prog.bind_of_ok (hw.next.sysCall_ok hwrite), Prog.bind_of_ok (hcheck ..),
    Prog.bind_of_ok htry, hclose]

/-- A link is read and made again at a place where there is nothing. -/
theorem copyLink_returns {copy : FilePath → FilePath → PathFlags → FsProg Unit} {depth : ℕ}
    (hw : w.Faultless) (hs : w.resolve false src = .ok (.found s)) {target : FilePath}
    (hlink : w.tree.look s = some (.link target)) (hd : w.resolve false dst = .ok (.missing l n)) :
    ∃ w', (src.resolveSymlink >>= fun q => makeSymlink copy depth q dst {}) w =
      some (.ok (), w') ∧ w'.Faultless := by
  have hread : src.resolveSymlink w = some (.ok (canonical target), w.next) := by
    have hstat : w.next.getStat src { noFollow := true } = some (s, .link target) :=
      World.getStat_eq_some.mpr ⟨hs, hlink⟩
    rw [resolveSymlink, Prog.bind_of_ok hw.nextFault_eq, Prog.get_bind, hstat]
    rfl
  obtain ⟨t, hact, -⟩ := World.create_of_missing (e := .link (canonical target)) hd
  refine ⟨{ w.next.next with tree := t }, ?_, hw.next.next⟩
  have hnew : dst.isSymlink w.next = false := isSymlink_of_missing hd
  have hcall : sysCall (fun w => w.symlink (canonical target) dst) w.next =
      some (.ok (.ok ()), { w.next.next with tree := t }) := hw.next.sysCall_ok hact
  rw [Prog.bind_of_ok hread, makeSymlink, Prog.get_bind, if_neg (by simp [hnew]), makeNewSymlink,
    Prog.get_bind]
  exact Prog.bind_of_ok hcall

/-- A directory is made at a place where there is nothing. -/
theorem makeDirectory_returns (hw : w.Faultless) (hd : w.resolve false dst = .ok (.missing l n)) :
    ∃ w', makeDirectory dst {} w = some (.ok (), w') ∧ w'.Faultless := by
  obtain ⟨above, habove⟩ := makeDirectory_eq dst {}
  obtain ⟨t, hact, -⟩ := World.create_of_missing (e := .dir) hd
  refine ⟨{ w.next with tree := t }, ?_, hw.next⟩
  rw [habove]
  exact makeDirectoryOnce_made hw hact

/-- A directory is made where nothing is. -/
theorem makeDirectory_ok (hd : w.resolve false dst = .ok (.missing l n)) :
    (makeDirectory dst {}).Ensures w fun r w' => w.Faultless → r = .ok () ∧ w'.Faultless := by
  intro r w' hrun hw
  obtain ⟨w'', hrun', hw''⟩ := makeDirectory_returns hw hd
  cases hrun'.symm.trans hrun
  exact ⟨rfl, hw''⟩

end Runs

/-! ### The copy, node by node -/

/-- Every link at or below the source leads to a file when its turn comes: in the tree with
the copies of all that comes before it. -/
def LinksLead (w : World) (src : FilePath) (s d : Loc) : Prop :=
  ∀ j target, w.tree.look (s ++ j) = some (.link target) →
    ∀ t : Tree, (∀ k, t.look k = w.tree.lookCopied asRead s d j k) →
      (src.descend j).doesExist ({ w with tree := t } : World) {} = true

/-- Links that lead to files before the copy do so when their turn comes. -/
theorem LinksLead.of_before (hd : w.tree.look d = none)
    (h : ∀ j target, w.tree.look (s ++ j) = some (.link target) →
      (src.descend j).doesExist w {} = true) : LinksLead w src s d := by
  intro j target hlink t ht
  have hext : t.Extends w.tree := fun k e hk => by
    rw [ht k]
    exact FileTree.lookCopied_of_look hd hk
  exact doesExist_extends (w := w) hext rfl (h j target hlink)

/-- Before the copy of a link at the source itself there is only the tree. -/
theorem LinksLead.root {target : FilePath} (h : LinksLead w src s d)
    (hlink : w.tree.look s = some (.link target)) : src.doesExist w {} = true := by
  have hexists := h [] target (by rwa [List.append_nil]) w.tree fun k =>
    FileTree.lookCopied_nil.symm
  rwa [descend_nil] at hexists

/-- What a copy to a place where there was nothing has done: it has added to the tree only
there. If it returns and nothing was lost, the nodes there are those of the source as `Path`
reads them, and all the links led to files. If they do and nothing fails, it returns. -/
structure Duplicated (w : World) (src : FilePath) (s l : Loc) (n : Bytes)
    (r : Except SystemError Unit) (w' : World) : Prop where
  grows : w.Grows w'
  outside : SameOn (fun k => ¬ l ++ [n] <+: k) w.tree w'.tree
  names : ∀ k, k ≠ l → ¬ l ++ [n] <+: k → w'.tree.names k = w.tree.names k
  copied : r = .ok () → w.Lossless → ∀ k,
    w'.tree.look (l ++ [n] ++ k) = (w.tree.look (s ++ k)).map asRead
  lead : r = .ok () → w.Lossless → LinksLead w src s (l ++ [n])
  returns : w.Faultless → w.Lossless → LinksLead w src s (l ++ [n]) → r = .ok () ∧ w'.Faultless

/-- What is below a node that is no directory. -/
theorem look_below_leaf {t : Tree} {e : Entry Bytes Bytes} (hl : t.look l = some e)
    (he : e ≠ .dir) {k : Loc} (hk : k ≠ []) : t.look (l ++ k) = none := by
  by_contra hne
  have hdir := t.look_isPrefix (List.prefix_append l k) (by simpa using hk) hne
  exact he (Option.some.inj (hl.symm.trans hdir))

/-- The copy of a node that is no directory. -/
theorem Duplicated.of_leaf {e : Entry Bytes Bytes} {r : Except SystemError Unit}
    (hs : w.tree.look s = some e) (he : e ≠ .dir) (hexists : src.doesExist w {} = true)
    {e' : Entry Bytes Bytes} (hadds : w.Adds l n e' w')
    (hsame : r = .ok () → w.Lossless → e' = asRead e)
    (hreturns : w.Faultless → r = .ok () ∧ w'.Faultless) :
    Duplicated w src s l n r w' where
  grows := hadds.grows
  outside k hk := hadds.others k fun heq => hk (heq ▸ List.prefix_rfl)
  names k hk _ := hadds.names k hk
  copied hr hlossless k := by
    have he' := hsame hr hlossless
    have hleaf : e' ≠ .dir := by
      rw [he']
      cases e with
      | dir => exact absurd rfl he
      | file c => simp [asRead]
      | link target => simp [asRead]
    rcases eq_or_ne k [] with rfl | hk
    · rw [List.append_nil, List.append_nil, hadds.look, hs, he', Option.map_some]
    · rw [look_below_leaf hadds.look hleaf hk, look_below_leaf hs he hk, Option.map_none]
  lead _ _ := by
    refine .of_before hadds.new fun j target hlink => ?_
    rcases eq_or_ne j [] with rfl | hj
    · rwa [descend_nil]
    · rw [look_below_leaf hs he hj] at hlink
      cases hlink
  returns hw _ _ := hreturns hw

/-- A call that only failed has copied nothing. -/
theorem Duplicated.of_like {r : Except SystemError Unit} (hlike : w.Like w')
    (herr : r ≠ .ok ()) (hreturns : w.Faultless → ¬ LinksLead w src s (l ++ [n])) :
    Duplicated w src s l n r w' where
  grows := hlike.grows
  outside := by rw [hlike.tree]; exact .refl _
  names k _ _ := by rw [hlike.tree]
  copied hr := absurd hr herr
  lead hr := absurd hr herr
  returns hw _ hlinks := absurd hlinks (hreturns hw)

/-! ### Links and files -/

/-- A link is copied as a link to where its target leads. -/
theorem copyLink_duplicated {copy : FilePath → FilePath → PathFlags → FsProg Unit} {depth : ℕ}
    (hs : w.resolve false src = .ok (.found s)) {target : FilePath}
    (hlink : w.tree.look s = some (.link target)) (hexists : src.doesExist w {} = true)
    (hd : w.resolve false dst = .ok (.missing l n)) :
    (src.resolveSymlink >>= fun q => makeSymlink copy depth q dst {}).Ensures w
      (Duplicated w src s l n) := by
  have hspec : (src.resolveSymlink >>= fun q => makeSymlink copy depth q dst {}).Ensures w
      fun r w' => (r ≠ .ok () ∧ w.Like w') ∨ w.Adds l n (.link (canonical target)) w' := by
    refine .bind ((resolveSymlink_spec hs hlink).mono ?_)
    rintro r w₁ ⟨hlike, hq⟩
    cases r with
    | error err => exact .inl ⟨by simp, hlike⟩
    | ok q =>
        obtain rfl := hq q rfl
        refine makeSymlink_spec.mono fun r w' hr => ?_
        cases r with
        | error err => exact .inl ⟨by simp, hlike.trans hr⟩
        | ok u =>
            rcases hr with ⟨-, k, _, hk, -⟩ | ⟨l', n', hp, hadds⟩
            · rw [hlike.resolve_eq, hd] at hk
              cases hk
            · rw [hlike.resolve_eq, hd] at hp
              cases hp
              exact .inr (.of_like hlike hadds)
  intro r w' hrun
  have hreturns : w.Faultless → r = .ok () ∧ w'.Faultless := by
    intro hw
    obtain ⟨w'', hrun', hw''⟩ : ∃ w'', (src.resolveSymlink >>= fun q =>
        makeSymlink copy depth q dst {}) w = some (.ok (), w'') ∧ w''.Faultless :=
      copyLink_returns hw hs hlink hd
    cases hrun'.symm.trans hrun
    exact ⟨rfl, hw''⟩
  rcases hspec r w' hrun with ⟨hr, hlike⟩ | hadds
  · exact .of_like hlike hr fun hw => absurd (hreturns hw).1 hr
  · exact .of_leaf hlink (by simp) hexists hadds (fun _ _ => rfl) hreturns

/-- A file is copied with its content. -/
theorem copyContent_duplicated (hs : w.resolve true src = .ok (.found s)) {content : Bytes}
    (hfile : w.tree.look s = some (.file content))
    (hd : w.resolve false dst = .ok (.missing l n)) :
    (copyFile src dst).Ensures w (Duplicated w src s l n) := by
  intro r w' hrun
  have hreturns : w.Faultless → r = .ok () ∧ w'.Faultless := by
    intro hw
    obtain ⟨w'', hrun', hw''⟩ := copyFile_returns hw hs hfile (resolve_follow_missing hd)
    cases hrun'.symm.trans hrun
    exact ⟨rfl, hw''⟩
  rcases copyFile_spec (doesExist_of_missing hd) r w' hrun with
    ⟨hr, hlike⟩ | ⟨l', n', c', hp, hadds, hcontent⟩
  · exact .of_like hlike hr fun hw => absurd (hreturns hw).1 hr
  · cases hp.symm.trans (resolve_follow_missing hd)
    refine .of_leaf hfile (by simp) (doesExist_eq_true.mpr ⟨s, hs⟩) hadds (fun hr hlossless => ?_)
      hreturns
    obtain ⟨s', hs', hfile'⟩ := hcontent hr hlossless
    cases hs'.symm.trans hs
    rw [← Option.some.inj (hfile'.symm.trans hfile)]
    rfl

/-! ### Directories -/

/-- A copy to a directory that was empty, after the entries in `done`. `w` is the world
before the directory was made, and `w₁` the one after. -/
structure Halfway (w w₁ : World) (src : FilePath) (s d : Loc) (done : List Bytes)
    (w' : World) : Prop where
  grows : w₁.Grows w'
  outside : SameOn (fun k => ¬ d <+: k) w₁.tree w'.tree
  names : ∀ k, ¬ d <+: k → w'.tree.names k = w₁.tree.names k
  fresh : ∀ m, m ∉ done → ∀ k, w'.tree.look (d ++ m :: k) = none
  copied : w.Lossless → ∀ m ∈ done, ∀ k,
    w'.tree.look (d ++ m :: k) = (w.tree.look (s ++ m :: k)).map asRead
  lead : w.Lossless → ∀ m ∈ done, ∀ j target, w.tree.look (s ++ m :: j) = some (.link target) →
    ∀ t : Tree, (∀ k, t.look k = w.tree.lookCopied asRead s d (m :: j) k) →
      (src.descend (m :: j)).doesExist ({ w with tree := t } : World) {} = true
  returns : w.Faultless → w.Lossless → LinksLead w src s d → w'.Faultless

namespace Halfway

variable {done rest : List Bytes} {m : Bytes} {w'' : World} {r : Except SystemError Unit}

/-- An empty directory is the copy of no entries. -/
theorem start (hadds : w.Adds l n .dir w₁) (hlike : w₁.Like w')
    (hreturns : w.Faultless → w'.Faultless) : Halfway w w₁ src s (l ++ [n]) [] w' where
  grows := hlike.grows
  outside := by rw [hlike.tree]; exact .refl _
  names k _ := by rw [hlike.tree]
  fresh m _ k := by
    rw [hlike.tree]
    refine w₁.tree.look_of_not_listed (fun hm => ?_) k
    exact (w₁.tree.listed _ m).mp hm (hadds.look_below m)
  copied _ _ hm := by cases hm
  lead _ _ hm := by cases hm
  returns hw _ _ := hreturns hw

/-- The source is as it was before the copy. -/
theorem same (h : Halfway w w₁ src s (l ++ [n]) done w') (hadds : w.Adds l n .dir w₁)
    (happart : ∀ k, ¬ l ++ [n] <+: s ++ k) (k : Loc) :
    w'.tree.look (s ++ k) = w.tree.look (s ++ k) := by
  rw [h.outside _ (happart k), hadds.others]
  exact fun heq => happart k (heq ▸ List.prefix_rfl)

/-- Its directories list what they did. -/
theorem same_names (h : Halfway w w₁ src s (l ++ [n]) done w') (hadds : w.Adds l n .dir w₁)
    (happart : ∀ k, ¬ l ++ [n] <+: s ++ k) (hout : ¬ s <+: l) (k : Loc) :
    w'.tree.names (s ++ k) = w.tree.names (s ++ k) := by
  rw [h.names _ (happart k), hadds.names]
  exact fun heq => hout (heq ▸ List.prefix_append s k)

/-- The copy goes on as the copy of the next entry. -/
theorem lookCopied_eq (h : Halfway w w₁ src s (l ++ [n]) done w') (hadds : w.Adds l n .dir w₁)
    (hdir : w.tree.look s = some .dir) (happart : ∀ k, ¬ l ++ [n] <+: s ++ k) (hout : ¬ s <+: l)
    (hlossless : w.Lossless) (hnames : w.tree.names s = done ++ m :: rest) (j k : Loc) :
    w'.tree.lookCopied asRead (s ++ [m]) (l ++ [n] ++ [m]) j k =
      w.tree.lookCopied asRead s (l ++ [n]) (m :: j) k := by
  refine FileTree.lookCopied_child hnames ?_ (h.copied hlossless) (fun m' hm' k => ?_)
    (fun k hk => ?_) (fun k => h.same hadds happart _)
    fun k => h.same_names hadds happart hout _
  · rw [h.grows.added _ _ hadds.look, hdir]
    rfl
  · have hnone : w.tree.look (l ++ [n] ++ m' :: k) = none :=
      w.tree.look_of_not_listed (fun hm => (w.tree.listed _ m').mp hm
        (w.tree.look_below (by rw [hadds.new]; simp) m')) k
    rw [h.fresh m' hm', hnone]
  · rw [h.outside k hk, hadds.others]
    exact fun heq => hk (heq ▸ List.prefix_rfl)

/-- The links of the next entry lead to files if those of the directory do. -/
theorem linksLead_child (h : Halfway w w₁ src s (l ++ [n]) done w') (hadds : w.Adds l n .dir w₁)
    (hdir : w.tree.look s = some .dir) (happart : ∀ k, ¬ l ++ [n] <+: s ++ k) (hout : ¬ s <+: l)
    (hlossless : w.Lossless) (hnames : w.tree.names s = done ++ m :: rest)
    (hlinks : LinksLead w src s (l ++ [n])) :
    LinksLead w' (src.descend [m]) (s ++ [m]) (l ++ [n] ++ [m]) := by
  intro j target hlink t ht
  rw [List.append_assoc, h.same hadds happart] at hlink
  have hexists := hlinks (m :: j) target hlink t fun k => by
    rw [ht, h.lookCopied_eq hadds hdir happart hout hlossless hnames]
  rw [← descend_append]
  exact doesExist_extends (w := { w with tree := t }) (.refl t) (h.grows.cwd.trans hadds.cwd)
    hexists

/-- Nothing is changed by the copy of another entry. -/
theorem look_other (hdup : Duplicated w' (src.descend [m]) (s ++ [m]) d m r w'')
    {m' : Bytes} (hm' : m' ≠ m) (k : Loc) :
    w''.tree.look (d ++ m' :: k) = w'.tree.look (d ++ m' :: k) := by
  refine hdup.outside _ fun hbelow => hm' ?_
  obtain ⟨k', hk'⟩ := (List.prefix_append_right_inj d).mp hbelow
  exact (List.cons.inj hk').1.symm

/-- One more entry is copied. -/
theorem step (h : Halfway w w₁ src s (l ++ [n]) done w') (hadds : w.Adds l n .dir w₁)
    (hdir : w.tree.look s = some .dir) (happart : ∀ k, ¬ l ++ [n] <+: s ++ k) (hout : ¬ s <+: l)
    (hnames : w.Lossless → w.tree.names s = done ++ m :: rest) (hnot : m ∉ done)
    (hdup : Duplicated w' (src.descend [m]) (s ++ [m]) (l ++ [n]) m (.ok ()) w'') :
    Halfway w w₁ src s (l ++ [n]) (done ++ [m]) w'' where
  grows := h.grows.trans hdup.grows
  outside := h.outside.trans (hdup.outside.mono fun k hk hbelow =>
    hk ((List.prefix_append _ [m]).trans hbelow))
  names k hk := by
    rw [hdup.names k (fun heq => hk (heq ▸ List.prefix_rfl)) fun hbelow =>
      hk ((List.prefix_append _ [m]).trans hbelow), h.names k hk]
  fresh m' hm' k := by
    have hne : m' ∉ done ∧ m' ≠ m := by simpa using hm'
    rw [look_other hdup hne.2, h.fresh m' hne.1]
  copied hlossless m' hm' k := by
    rcases List.mem_append.mp hm' with hdone | hlast
    · rw [look_other hdup (fun heq => hnot (heq ▸ hdone)), h.copied hlossless m' hdone]
    · obtain rfl := List.mem_singleton.mp hlast
      have hcopied := hdup.copied rfl ((hadds.grows.trans h.grows).lossless hlossless) k
      rw [List.append_assoc, List.append_assoc s, h.same hadds happart] at hcopied
      exact hcopied
  lead hlossless m' hm' j target hlink t ht := by
    rcases List.mem_append.mp hm' with hdone | hlast
    · exact h.lead hlossless m' hdone j target hlink t ht
    · obtain rfl := List.mem_singleton.mp hlast
      have hlead := hdup.lead rfl ((hadds.grows.trans h.grows).lossless hlossless) j target
      rw [List.append_assoc, h.same hadds happart, ← descend_append] at hlead
      have hexists := hlead hlink t fun k => by
        rw [ht, h.lookCopied_eq hadds hdir happart hout hlossless (hnames hlossless)]
      exact doesExist_extends (w := { w' with tree := t }) (.refl t)
        (h.grows.cwd.trans hadds.cwd).symm hexists
  returns hw hlossless hlinks := (hdup.returns (h.returns hw hlossless hlinks)
    ((hadds.grows.trans h.grows).lossless hlossless)
    (h.linksLead_child hadds hdir happart hout hlossless (hnames hlossless) hlinks)).2

/-- An entry could not be copied. -/
theorem duplicated_error (h : Halfway w w₁ src s (l ++ [n]) done w') (hadds : w.Adds l n .dir w₁)
    (hdir : w.tree.look s = some .dir) (happart : ∀ k, ¬ l ++ [n] <+: s ++ k) (hout : ¬ s <+: l)
    (hnames : w.Lossless → w.tree.names s = done ++ m :: rest) {err : SystemError}
    (hdup : Duplicated w' (src.descend [m]) (s ++ [m]) (l ++ [n]) m (.error err) w'') :
    Duplicated w src s l n (.error err) w'' where
  grows := hadds.grows.trans (h.grows.trans hdup.grows)
  outside k hk := by
    rw [hdup.outside k fun hbelow => hk ((List.prefix_append _ [m]).trans hbelow),
      h.outside k hk, hadds.others]
    rintro rfl
    exact hk List.prefix_rfl
  names k hl hk := by
    rw [hdup.names k (fun heq => hk (heq ▸ List.prefix_rfl)) fun hbelow =>
      hk ((List.prefix_append _ [m]).trans hbelow), h.names k hk, hadds.names k hl]
  copied := by simp
  lead := by simp
  returns hw hlossless hlinks := by
    have hreturns := hdup.returns (h.returns hw hlossless hlinks)
      ((hadds.grows.trans h.grows).lossless hlossless)
      (h.linksLead_child hadds hdir happart hout hlossless (hnames hlossless) hlinks)
    exact absurd hreturns.1 (by simp)

/-- All entries are copied. -/
theorem duplicated (h : Halfway w w₁ src s (l ++ [n]) done w') (hadds : w.Adds l n .dir w₁)
    (hdir : w.tree.look s = some .dir) (hall : w.Lossless → done = w.tree.names s) :
    Duplicated w src s l n (.ok ()) w' where
  grows := hadds.grows.trans h.grows
  outside k hk := by
    rw [h.outside k hk, hadds.others]
    rintro rfl
    exact hk List.prefix_rfl
  names k hl hk := by rw [h.names k hk, hadds.names k hl]
  copied _ hlossless k := by
    cases k with
    | nil =>
        rw [List.append_nil, List.append_nil, h.grows.added _ _ hadds.look, hdir]
        rfl
    | cons m k =>
        by_cases hm : m ∈ done
        · exact h.copied hlossless m hm k
        · have hm' : m ∉ w.tree.names s := by
            rwa [← hall hlossless]
          rw [h.fresh m hm, w.tree.look_of_not_listed hm' k, Option.map_none]
  lead _ hlossless j target hlink := by
    cases j with
    | nil =>
        rw [List.append_nil, hdir] at hlink
        cases hlink
    | cons m j =>
        refine h.lead hlossless m ?_ j target hlink
        rw [hall hlossless]
        by_contra hm
        rw [w.tree.look_of_not_listed hm j] at hlink
        cases hlink
  returns hw hlossless hlinks := ⟨rfl, h.returns hw hlossless hlinks⟩

end Halfway

section Recursion

variable {copy : FilePath → FilePath → PathFlags → FsProg Unit}

/-- A directory that is made, and filled with the entries of another one. -/
theorem copyDirectory_duplicated
    (hcopy : ∀ src dst w s l n, w.resolve false src = .ok (.found s) →
      w.resolve false dst = .ok (.missing l n) → ¬ s <+: l →
      (copy src dst { recurse := true }).Ensures w (Duplicated w src s l n))
    (hs : w.resolve true src = .ok (.found s)) (hdir : w.tree.look s = some .dir)
    (hd : w.resolve false dst = .ok (.missing l n)) (hout : ¬ s <+: l) :
    (dst.makeDirectory {} >>= fun _ => src.directory >>= fun children => children.forM fun child =>
      copy child (dst.join child.leaf) { recurse := true }).Ensures w
        (Duplicated w src s l n) := by
  refine .bind (((makeDirectory_spec (doesExist_of_missing hd)).and (makeDirectory_ok hd)).mono ?_)
  rintro r w₁ ⟨hspec, hreturns⟩
  cases r with
  | error err => exact .of_like hspec (by simp) fun hw => absurd (hreturns hw).1 (by simp)
  | ok u =>
      obtain ⟨l', n', hd', hadds⟩ := hspec
      cases hd'.symm.trans hd
      obtain ⟨hnotIn, happart⟩ := apart_of_outside (World.look_of_found hs) hadds.new hout
      have hstat : w₁.getStat src {} = some (s, .dir) :=
        World.getStat_eq_some.mpr ⟨hadds.grows.resolve_mono hs, hadds.grows.added _ _ hdir⟩
      refine .bind (((directory_spec hstat).and directory_faults).mono ?_)
      rintro r w₂ ⟨⟨ns, rfl, hlike, hsub, hns⟩, hfaults⟩
      have hall : w.Lossless → ns = w.tree.names s := fun hlossless => by
        rw [hns (hadds.lossless hlossless), hadds.names]
        exact fun heq => hout (heq ▸ List.prefix_rfl)
      have hstart : w.Faultless → w₂.Faultless := fun hw fault hfault =>
        (hreturns hw).2 fault (hfaults ▸ hfault)
      refine .forM_map (Halfway w w₁ src s (l ++ [n])) ns (.start hadds hlike hstart) ?_
        fun w' h => h.duplicated hadds hdir hall
      intro done m rest w' hsplit h
      have hm : m ∈ ns := by simp [hsplit]
      have hnot : m ∉ done := w₁.tree.next_not_done hsub hsplit
      obtain ⟨hfound, hmissing⟩ := child_places hs hdir hd hadds h.grows
        ((w₁.tree.listed s m).mp (hsub.subset hm)) (h.fresh m hnot [])
      have hnames : w.Lossless → w.tree.names s = done ++ m :: rest := fun hlossless => by
        rw [← hall hlossless, hsplit]
      rw [join_leaf]
      refine (hcopy _ _ w' _ _ _ hfound hmissing fun hbelow =>
        hnotIn ((List.prefix_append s [m]).trans hbelow)).mono fun r w'' hdup => ?_
      cases r with
      | ok u => exact h.step hadds hdir happart hout hnames hnot hdup
      | error err => exact h.duplicated_error hadds hdir happart hout hnames hdup

/-- A copy after its checks. -/
theorem copyEntry_duplicated {depth : ℕ}
    (hcopy : ∀ src dst w s l n, w.resolve false src = .ok (.found s) →
      w.resolve false dst = .ok (.missing l n) → ¬ s <+: l →
      (copy src dst { recurse := true }).Ensures w (Duplicated w src s l n))
    (hs : w.resolve false src = .ok (.found s)) (hexists : src.doesExist w {} = true)
    (hd : w.resolve false dst = .ok (.missing l n)) (hout : ¬ s <+: l) :
    (copyEntry copy depth src dst).Ensures w (Duplicated w src s l n) := by
  refine .get_bind (.ite (fun hlink => ?_) fun hlink => .ite (fun hdir => ?_) fun hdir => ?_)
  · obtain ⟨s', target, hs', htarget⟩ := isSymlink_eq_true.mp hlink
    cases hs'.symm.trans hs
    exact copyLink_duplicated hs htarget hexists hd
  · rw [Bool.not_eq_true] at hlink
    obtain ⟨s', hstat⟩ := isDirectory_eq_true.mp hdir
    obtain ⟨hfollow, hlook⟩ := World.getStat_eq_some.mp hstat
    cases (resolve_of_not_link hlink hfollow).symm.trans hs
    exact copyDirectory_duplicated hcopy hfollow hlook hd hout
  · rw [Bool.not_eq_true] at hlink
    obtain ⟨s', hfollow⟩ := doesExist_eq_true.mp hexists
    cases (resolve_of_not_link hlink hfollow).symm.trans hs
    obtain ⟨e, he⟩ := Option.ne_none_iff_exists'.mp (World.look_of_found hs)
    cases e with
    | file content => exact copyContent_duplicated hfollow he hd
    | dir =>
        exact absurd (isDirectory_eq_true.mpr ⟨s, World.getStat_eq_some.mpr ⟨hfollow, he⟩⟩) hdir
    | link target => rw [isSymlink_eq_true.mpr ⟨s, target, hs, he⟩] at hlink; cases hlink

end Recursion

/-- A source whose links lead to files exists. -/
theorem LinksLead.doesExist (h : LinksLead w src s d) (hs : w.resolve false src = .ok (.found s)) :
    src.doesExist w {} = true := by
  by_cases hlink : ∃ target, w.tree.look s = some (.link target)
  · obtain ⟨target, htarget⟩ := hlink
    exact h.root htarget
  · exact doesExist_eq_true.mpr ⟨s, World.resolve_follow hs fun target ht => hlink ⟨target, ht⟩⟩

/-- A file is not the same as one that is not there. -/
theorem not_same_of_not_exists (hexists : src.doesExist w {} = true)
    (hnone : dst.doesExist w {} = false) : ¬ (src = dst ∨ src.id w {} = dst.id w {}) := by
  rintro (rfl | hid)
  · rw [hnone] at hexists
    cases hexists
  · have hsome : ∀ q : FilePath, (q.id w {}).isSome = q.doesExist w {} := fun q => by
      rw [id, Option.isSome_map, doesExist]
    rw [← hsome, hid, hsome, hnone] at hexists
    cases hexists

/-- What a copy makes of a tree, at a place where there is nothing and that is not in the
tree. -/
theorem copyTo_duplicated {depth : ℕ} {flags : PathFlags} (hflags : flags.overwrite = false)
    (hrec : flags.recurse = true) (hs : w.resolve false src = .ok (.found s))
    (hd : w.resolve false dst = .ok (.missing l n)) (hout : ¬ s <+: l) :
    (copyTo depth src dst flags).Ensures w (Duplicated w src s l n) := by
  induction depth generalizing src dst flags w s l n with
  | zero => exact .diverge
  | succ depth ih =>
      refine .get_bind (.ite (fun hnot => .throw ?_) fun hexists => .ite (fun hsame => ?_) fun _ =>
        .ite (fun h => ?_) fun _ => .ite (fun h => ?_) fun _ => ?_)
      · refine .of_like (.refl w) (by simp) fun _ hlinks => ?_
        rw [hlinks.doesExist hs] at hnot
        cases hnot
      · rw [Bool.not_eq_false] at hexists
        exact absurd hsame (not_same_of_not_exists hexists (doesExist_of_missing hd))
      · simp [hrec] at h
      · rw [doesExist_of_missing hd] at h
        cases h
      · rw [Bool.not_eq_false] at hexists
        exact copyEntry_duplicated (fun _ _ _ _ _ _ => ih rfl rfl) hs hexists hd hout

/-- There is a link at the destination, which leads to nothing, and at the source a link that
leads to a file and is the same one, seen through `f`. -/
def LinkThere (f : Entry Bytes Bytes → Entry Bytes Bytes) (w : World) (src : FilePath)
    (s d : Loc) : Prop :=
  src.doesExist w {} = true ∧ ∃ target target', w.tree.look s = some (.link target) ∧
    w.tree.look d = some (.link target') ∧ f (.link target') = f (.link target)

/-- Two links are the same trees if they are the same nodes. -/
theorem LinkThere.same {f : Entry Bytes Bytes → Entry Bytes Bytes} (h : LinkThere f w src s d)
    (k : Loc) : (w.tree.look (d ++ k)).map f = (w.tree.look (s ++ k)).map f := by
  obtain ⟨-, target, target', hlink, htarget', hsame⟩ := h
  rcases eq_or_ne k [] with rfl | hk
  · rw [List.append_nil, List.append_nil, hlink, htarget', Option.map_some, Option.map_some, hsame]
  · rw [look_below_leaf hlink (by simp) hk, look_below_leaf htarget' (by simp) hk]

end FilePath

end RsIo
