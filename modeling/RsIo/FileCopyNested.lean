import RsIo.FileCopyTree

/-!
# A Copy Into Itself

`copy_to()` compares its source and its destination, and takes no notice of a destination
that is in the source. Then the directory it makes there is an entry of the source, or in
one: the copy of this entry is again a copy into itself. In a system that accepts names of any
length there is no end to it.

## Main results

* `FilePath.copyTo_diverges`: a copy into itself, in which nothing fails, does not end.
* `FilePath.copyTo_halts_iff`: when a copy comes to an end.
-/

namespace RsIo

open FileTree (Place SameOn)

namespace FilePath

variable {w w' w₁ w₂ : World} {src dst : FilePath} {s l : Loc} {n m : Bytes}

/-- A copy into a directory of the source, or into one that it makes, does not return if its
lists are complete. -/
theorem copyTo_inside_throws (hlossless : w.Lossless) (hin : Inside w src dst) {depth : ℕ} :
    copyTo depth src dst { recurse := true } w ≠ some (.ok (), w') := by
  obtain ⟨s, l, n, hs, hdir, hd, hbelow⟩ := hin
  intro hrun
  have hnew : w.tree.look (l ++ [n]) = none := (World.resolve_in hd).2
  have hne : ∀ place, w.resolve false dst = .ok place → place.loc ≠ s := by
    rintro place hplace rfl
    cases hplace.symm.trans hd
    rw [show (Place.missing l n).loc = l ++ [n] from rfl, hnew] at hdir
    cases hdir
  obtain ⟨d, htarget, hout, -⟩ := (copyTo_spec rfl _ w' hrun).complete rfl hlossless s hs hne
  have hplace : d = l ++ [n] := by
    rcases htarget with ⟨place, hplace, rfl⟩ | ⟨l', n', hd', rfl⟩
    · cases hplace.symm.trans hd
      rfl
    · cases hd'.symm.trans (resolve_follow_missing hd)
      rfl
  exact hout (hplace ▸ hbelow.trans (List.prefix_append l [n]))

/-- There is no link at or below `s`. -/
def LinkFree (t : Tree) (s : Loc) : Prop :=
  ∀ k target, t.look (s ++ k) ≠ some (.link target)

/-- A copy into itself, after the entries in `done`: the one on the way to the destination,
`m`, is not among them. -/
structure Nesting (w₁ : World) (s d : Loc) (m : Bytes) (done : List Bytes) (w' : World) :
    Prop where
  grows : w₁.Grows w'
  faultless : w'.Faultless
  fresh : ∀ m', m' ∉ done → w'.tree.look (d ++ [m']) = none
  linkFree : LinkFree w'.tree s
  notYet : m ∉ done

namespace Nesting

variable {d : Loc} {done : List Bytes} {m' : Bytes}

theorem start (hadds : w.Adds l n .dir w₁) (hlike : w₁.Like w₂) (hw₂ : w₂.Faultless)
    (hlinks : LinkFree w.tree s) : Nesting w₁ s (l ++ [n]) m [] w₂ where
  grows := hlike.grows
  faultless := hw₂
  fresh m' _ := by rw [hlike.tree, hadds.look_below]
  linkFree k target hk := by
    rw [hlike.tree] at hk
    by_cases heq : s ++ k = l ++ [n]
    · rw [heq, hadds.look] at hk
      cases hk
    · rw [hadds.others _ heq] at hk
      exact hlinks k target hk
  notYet := by simp

/-- The copy of another entry is a copy like any other. -/
theorem step (h : Nesting w₁ s d m done w') (hlossless : w'.Lossless) (hm' : m' ≠ m)
    {r : Except SystemError Unit} {w'' : World}
    (hdup : Duplicated w' (src.descend [m']) (s ++ [m']) d m' r w'') :
    r = .ok () ∧ Nesting w₁ s d m (done ++ [m']) w'' := by
  have hlinks : LinksLead w' (src.descend [m']) (s ++ [m']) (d ++ [m']) := by
    intro j target hlink
    rw [List.append_assoc] at hlink
    exact absurd hlink (h.linkFree _ target)
  obtain ⟨rfl, hw''⟩ := hdup.returns h.faultless hlossless hlinks
  refine ⟨rfl, h.grows.trans hdup.grows, hw'', fun m₂ hm₂ => ?_, fun k target hk => ?_, ?_⟩
  · have hne : m₂ ∉ done ∧ m₂ ≠ m' := by simpa using hm₂
    rw [hdup.outside, h.fresh m₂ hne.1]
    intro hbelow
    have heq := hbelow.eq_of_length (by simp)
    exact hne.2 (List.cons.inj (List.append_cancel_left heq)).1.symm
  · by_cases hbelow : d ++ [m'] <+: s ++ k
    · -- a copied node is what it was in the source
      obtain ⟨k', hk'⟩ := hbelow
      rw [← hk', hdup.copied rfl hlossless, Option.map_eq_some_iff] at hk
      obtain ⟨e, he, hread⟩ := hk
      cases e with
      | file c => cases hread
      | dir => cases hread
      | link target' =>
          rw [List.append_assoc] at he
          exact h.linkFree _ target' he
    · rw [hdup.outside _ hbelow] at hk
      exact h.linkFree k target hk
  · simp [h.notYet, Ne.symm hm']

end Nesting

/-- A directory in which the destination is made does not come to the end of its entries. -/
theorem copyDirectory_diverges {copy : FilePath → FilePath → PathFlags → FsProg Unit}
    (hcopy : ∀ src dst w s l n, w.resolve false src = .ok (.found s) →
      w.resolve false dst = .ok (.missing l n) → ¬ s <+: l →
      (copy src dst { recurse := true }).Ensures w (Duplicated w src s l n))
    (hself : ∀ src dst w s l n, w.Faultless → w.Lossless → w.resolve false src = .ok (.found s) →
      w.tree.look s = some .dir → LinkFree w.tree s → w.resolve false dst = .ok (.missing l n) →
      s <+: l → (copy src dst { recurse := true }).Ensures w fun _ _ => False)
    (hw : w.Faultless) (hlossless : w.Lossless) (hs : w.resolve true src = .ok (.found s))
    (hdir : w.tree.look s = some .dir) (hlinks : LinkFree w.tree s)
    (hd : w.resolve false dst = .ok (.missing l n)) (hin : s <+: l) :
    (dst.makeDirectory {} >>= fun _ => src.directory >>= fun children => children.forM fun child =>
      copy child (dst.join child.leaf) { recurse := true }).Ensures w fun _ _ => False := by
  refine .bind (((makeDirectory_spec (doesExist_of_missing hd)).and (makeDirectory_ok hd)).mono ?_)
  rintro r w₁ ⟨hspec, hreturns⟩
  obtain ⟨rfl, hw₁⟩ := hreturns hw
  obtain ⟨l', n', hd', hadds⟩ := hspec
  cases hd'.symm.trans hd
  have hstat : w₁.getStat src {} = some (s, .dir) :=
    World.getStat_eq_some.mpr ⟨hadds.grows.resolve_mono hs, hadds.grows.added _ _ hdir⟩
  refine .bind (((directory_spec hstat).and directory_faults).mono ?_)
  rintro r w₂ ⟨⟨ns, rfl, hlike, -, hns⟩, hfaults⟩
  obtain rfl := hns (hadds.lossless hlossless)
  have hw₂ : w₂.Faultless := fun fault hfault => hw₁ fault (hfaults ▸ hfault)
  -- the entry on the way to the destination, which is a directory by now
  obtain ⟨m, hway⟩ : ∃ m, s ++ [m] <+: l ++ [n] := by
    obtain ⟨k, rfl⟩ := hin
    cases k with
    | nil => exact ⟨n, by simp⟩
    | cons m k => exact ⟨m, k ++ [n], by simp⟩
  have hwayDir : w₁.tree.look (s ++ [m]) = some .dir := by
    rcases eq_or_ne (s ++ [m]) (l ++ [n]) with heq | hne
    · rw [heq, hadds.look]
    · exact w₁.tree.look_isPrefix hway hne (by simp [hadds.look])
  have hlisted : m ∈ w₁.tree.names s := (w₁.tree.listed s m).mpr (by simp [hwayDir])
  refine .forM_map (Nesting w₁ s (l ++ [n]) m) _ (.start hadds hlike hw₂ hlinks) ?_
    fun w' h => h.notYet hlisted
  intro done m' rest w' hsplit h
  have hm' : m' ∈ w₁.tree.names s := by simp [hsplit]
  have hnot : m' ∉ done := w₁.tree.next_not_done List.prefix_rfl hsplit
  have hlossless' : w'.Lossless := (hadds.grows.trans h.grows).lossless hlossless
  obtain ⟨hfound, hmissing⟩ := child_places hs hdir hd hadds h.grows
    ((w₁.tree.listed s m').mp hm') (h.fresh m' hnot)
  rw [join_leaf]
  by_cases heq : m' = m
  · subst heq
    refine (hself _ _ w' _ _ _ h.faultless hlossless' hfound (h.grows.added _ _ hwayDir) ?_
      hmissing hway).mono fun _ _ hfalse => hfalse.elim
    intro k target hk
    rw [List.append_assoc] at hk
    exact h.linkFree _ target hk
  · have hout : ¬ s ++ [m'] <+: l ++ [n] := fun hbelow => heq <| by
      have hsame := (List.prefix_of_prefix_length_le hbelow hway (by simp)).eq_of_length (by simp)
      exact (List.cons.inj (List.append_cancel_left hsame)).1
    refine (hcopy _ _ w' _ _ _ hfound hmissing hout).mono fun r w'' hdup => ?_
    obtain ⟨rfl, hnext⟩ := h.step hlossless' heq hdup
    exact hnext

/-- **A copy into itself does not end.** If no call fails, and there are no links in the
source, it does not throw either. -/
theorem copyTo_diverges {depth : ℕ} (hw : w.Faultless) (hlossless : w.Lossless)
    (hs : w.resolve false src = .ok (.found s)) (hdir : w.tree.look s = some .dir)
    (hlinks : LinkFree w.tree s) (hd : w.resolve false dst = .ok (.missing l n)) (hin : s <+: l) :
    (copyTo depth src dst { recurse := true }).Ensures w fun _ _ => False := by
  induction depth generalizing src dst w s l n with
  | zero => exact .diverge
  | succ depth ih =>
      have hfollow := World.resolve_follow hs (by simp [hdir])
      have hexists : src.doesExist w {} = true := doesExist_eq_true.mpr ⟨s, hfollow⟩
      have hstat : w.getStat src {} = some (s, .dir) := World.getStat_eq_some.mpr ⟨hfollow, hdir⟩
      refine .get_bind (.ite (fun hnot => ?_) fun _ => .ite (fun hsame => ?_) fun _ =>
        .ite (fun h => ?_) fun _ => .ite (fun h => ?_) fun _ => .get_bind (.ite (fun hlink => ?_)
          fun _ => .ite (fun _ => ?_) fun hnot => ?_))
      · rw [hexists] at hnot
        cases hnot
      · exact absurd hsame (not_same_of_not_exists hexists (doesExist_of_missing hd))
      · simp at h
      · rw [doesExist_of_missing hd] at h
        cases h
      · obtain ⟨s', target, hs', htarget⟩ := isSymlink_eq_true.mp hlink
        cases hs'.symm.trans hs
        rw [hdir] at htarget
        cases htarget
      · exact copyDirectory_diverges
          (fun _ _ _ _ _ _ hs hd hout => copyTo_duplicated rfl rfl hs hd hout)
          (fun _ _ _ _ _ _ => ih) hw hlossless hfollow hdir hlinks hd hin
      · exact absurd (isDirectory_eq_true.mpr ⟨s, hstat⟩) hnot

/-- **When a copy comes to an end without a limit on names.** The copy of a finite tree
returns or throws, whatever fails on the way, if its destination would not be made in its
source. If it would, the copy does not return, and it does not throw unless a call fails or
there are links. -/
theorem copyTo_halts_iff {d : ℕ}
    (hfinite : ∀ s, w.resolve false src = .ok (.found s) → DepthBelow w.tree s d) :
    (¬ Inside w src dst → ∃ depth, (copyTo depth src dst { recurse := true }).Halts w) ∧
    (Inside w src dst → w.Lossless → ∀ depth w',
      copyTo depth src dst { recurse := true } w ≠ some (.ok (), w')) ∧
    (w.Faultless → w.Lossless →
      (∀ s, w.resolve false src = .ok (.found s) → LinkFree w.tree s) →
        ((∃ depth, (copyTo depth src dst { recurse := true }).Halts w) ↔ ¬ Inside w src dst)) := by
  have hends : ¬ Inside w src dst → ∃ depth, (copyTo depth src dst { recurse := true }).Halts w :=
    fun hin => ⟨d + 1, copyTo_halts rfl hfinite hin⟩
  refine ⟨hends, fun hin hlossless depth w' => copyTo_inside_throws hlossless hin,
    fun hw hlossless hlinks => ⟨?_, hends⟩⟩
  rintro ⟨depth, r, w', hrun⟩ ⟨s, l, n, hs, hdir, hd, hbelow⟩
  exact copyTo_diverges hw hlossless hs hdir (hlinks s hs) hd hbelow r w' hrun

/-- An empty directory `/s`. -/
private def insideWorld : World where
  tree := FileTree.single [115] .dir
  cwd := []
  faults := []
  losses := []

/-- The path `/s`. -/
private def insideSource : FilePath := ⟨true, [.name [115]]⟩

/-- The path `/s/x`. -/
private def insideTarget : FilePath := ⟨true, [.name [115], .name [120]]⟩

private theorem insideWorld_source : insideWorld.resolve false insideSource =
    .ok (.found [[115]]) := by decide

private theorem insideWorld_below {k : Loc} {e : Entry Bytes Bytes}
    (h : insideWorld.tree.look ([[115]] ++ k) = some e) : k = [] ∧ e = .dir := by
  simp only [insideWorld, FileTree.single, FileTree.insert, FileTree.empty,
    Function.update_apply] at h
  split_ifs at h <;> simp_all

/-- An empty directory is copied into itself without end. -/
theorem copyTo_inside_endless (depth : ℕ) :
    ¬ (copyTo depth insideSource insideTarget { recurse := true }).Halts insideWorld := by
  rintro ⟨r, w', hrun⟩
  have hd : insideWorld.resolve false insideTarget = .ok (.missing [[115]] [120]) := by decide
  refine copyTo_diverges (fun _ h => by cases h) (fun _ h => by cases h) insideWorld_source
    (by decide) (fun k target hk => ?_) hd (by decide) r w' hrun
  cases (insideWorld_below hk).2

end FilePath

end RsIo
