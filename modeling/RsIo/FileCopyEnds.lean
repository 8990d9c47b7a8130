import RsIo.FileCopySpec

/-!
# A Copy Comes to an End

`copy_to()` lists a directory while it adds to the tree. If the destination is not in the
source, what it adds is not listed, and the recursion is as deep as the source, whatever
fails on the way. If it is, the copy goes on with what it has made, under ever longer names,
and it is the limit of the system on the length of a name that ends it.

## Main results

* `FilePath.copyTo_halts`: a copy returns or throws if its destination is not in its source.
* `FilePath.copyTo_terminates`: every copy does if the length of names is limited.
-/

namespace RsIo

open FileTree (Place SameOn)

section Calls

variable {α : Type} {limit : Option ℕ} {w : World limit}

/-- A system call returns, with a value or an error. -/
theorem sysCall_halts (act : World limit → Except ℕ (Tree × α)) : (sysCall act).Halts w := by
  refine .bind_of_forall .step fun fault w' => ?_
  cases fault with
  | some err => exact .ret
  | none => exact .step

/-- What came from a call is returned or thrown. -/
theorem check_halts (names : List FilePath) (r : Except ℕ α) :
    (FilePath.check names r).Halts w := by
  cases r with
  | ok a => exact .ret
  | error err => exact .throw

/-- A file is closed, with or without a loss. -/
theorem closeFile_halts (out : Loc) : (closeFile out).Halts w := by
  refine .bind_of_forall .step fun loss w' => ?_
  cases loss with
  | none => exact .ret
  | some kept => exact .step

end Calls

namespace FilePath

variable {src dst p : FilePath}

section Calls

variable {limit : Option ℕ} {w : World limit}

/-- A directory is listed. -/
theorem directory_halts : p.directory.Halts w := by
  obtain ⟨ns, hlist⟩ := directory_lists p w
  exact ⟨_, _, hlist⟩

/-- A link is read, or not. -/
theorem resolveSymlink_halts : p.resolveSymlink.Halts w := by
  refine .bind_of_forall .step fun fault w' => .get_bind ?_
  split
  next =>
    cases fault with
    | some err => exact .throw
    | none => exact .ret
  next => exact .ret

/-- A block that is not full is the last one, and there is one. -/
theorem copyBlocks_halts (out : Loc) (written content : Bytes) :
    (copyBlocks src dst out written content).Halts w := by
  induction hlen : content.length using Nat.strong_induction_on generalizing written content w with
  | _ len ih =>
    rw [copyBlocks]
    refine .bind_of_forall .step fun fault w₁ => ?_
    cases fault with
    | some err => exact .throw
    | none =>
        have hwrite : (writeBlock dst out written (content.take blockSize)).Halts w₁ := by
          refine .ite (fun _ => .ret) fun _ => .bind_of_forall .step fun fault w₂ => ?_
          cases fault with
          | some err => exact .throw
          | none => exact .step
        refine .bind_of_forall hwrite fun _ w₂ => ?_
        split
        next => exact .ret
        next hfull =>
          have hpos : 0 < blockSize := by decide
          rw [List.length_take] at hfull
          refine ih _ ?_ _ _ rfl
          rw [List.length_drop]
          omega

/-- A file is copied, or an error is thrown. -/
theorem copyFile_halts : (copyFile src dst).Halts w := by
  refine .bind_of_forall (sysCall_halts _) fun content w₁ => ?_
  refine .bind_of_forall (check_halts _ content) fun content w₂ => ?_
  refine .bind_of_forall (sysCall_halts _) fun out w₃ => ?_
  refine .bind_of_forall (check_halts _ out) fun out w₄ => ?_
  refine .bind_of_forall (.tryCatch (copyBlocks_halts ..) fun err w₅ => ?_) fun _ w₆ =>
    closeFile_halts out
  exact .bind_of_forall (closeFile_halts out) fun _ w₇ => .throw

/-- A link is made without a copy. -/
theorem makeSymlink_halts {copy : FilePath → FilePath → PathFlags → FsProg Unit limit}
    {depth : ℕ} :
    (makeSymlink copy depth p dst {}).Halts w := by
  have hnew : ∀ w', (makeNewSymlink copy depth p dst {}).Halts w' := by
    intro w'
    refine .get_bind (.ite (fun h => by cases h) fun _ => ?_)
    refine .bind_of_forall (sysCall_halts _) fun r w₁ => ?_
    cases r with
    | ok u => exact .ret
    | error err => exact .ite (fun _ => .throw) fun h => absurd rfl h
  refine .get_bind (.ite (fun _ => ?_) fun _ => hnew w)
  refine .bind_of_forall (.tryCatch ?_ fun _ _ => .ret) fun there w' =>
    .ite (fun _ => .ret) fun _ => hnew w'
  exact .bind_of_forall resolveSymlink_halts fun _ _ => .ret

/-- Without flags, `make_directory()` does not make the directories above. -/
theorem makeDirectory_halts : (makeDirectory p {}).Halts w := by
  obtain ⟨above, habove⟩ := makeDirectory_eq p {}
  rw [habove]
  refine .bind_of_forall (sysCall_halts _) fun r w₁ => ?_
  cases r with
  | ok u => exact .ret
  | error err =>
      refine .get_bind (.ite (fun _ => .ret) fun _ => .ite (fun _ => ?_) fun hne => ?_)
      · exact .bind .throw (.throw (by simp))
      · refine .ite (fun h => absurd ⟨h, rfl⟩ hne) fun _ => ?_
        refine .ite (fun h => absurd h.2.1 (by simp)) fun _ => ?_
        exact .bind_of_forall (sysCall_halts _) fun r w₂ => check_halts _ r

end Calls

variable {w : World}

/-! ### The recursion -/

/-- The destination would be made in the directory at the source, or below it. -/
def Inside (w : World) (src dst : FilePath) : Prop :=
  ∃ s l n, w.resolve false src = .ok (.found s) ∧ w.tree.look s = some .dir ∧
    w.resolve false dst = .ok (.missing l n) ∧ s <+: l

/-- What is made outside of the source is apart from all of it. -/
theorem apart_of_outside {t : Tree} {s l : Loc} {n : Bytes} (hs : t.look s ≠ none)
    (hnew : t.look (l ++ [n]) = none) (hout : ¬ s <+: l) :
    ¬ s <+: l ++ [n] ∧ ∀ k, ¬ l ++ [n] <+: s ++ k := by
  have hnotIn : ¬ s <+: l ++ [n] := fun h =>
    (List.prefix_concat_iff.mp h).elim (fun heq => hs (heq ▸ hnew)) hout
  refine ⟨hnotIn, fun k hbelow => ?_⟩
  rcases List.prefix_or_prefix_of_prefix (List.prefix_append s k) hbelow with h | h
  · exact hnotIn h
  · rcases eq_or_ne (l ++ [n]) s with rfl | hne
    · exact hs hnew
    · have hdir := t.look_isPrefix h hne hs
      rw [hnew] at hdir
      cases hdir

/-- A copy halts after its checks, if it does for the entries of a directory. -/
theorem copyEntry_halts {copy : FilePath → FilePath → PathFlags → FsProg Unit} {depth : ℕ}
    (hspec : ∀ src dst w, (copy src dst { recurse := true }).Ensures w (Copied w src dst))
    (hnone : dst.doesExist w {} = false) (hin : ¬ Inside w src dst)
    (hcopy : ∀ s d m w', w.resolve false src = .ok (.found s) → w.tree.look (s ++ [m]) ≠ none →
      w'.resolve false (src.descend [m]) = .ok (.found (s ++ [m])) →
      w'.resolve false (dst.descend [m]) = .ok (.missing d m) → ¬ s ++ [m] <+: d →
      (∀ r, w'.tree.look (s ++ [m] ++ r) = w.tree.look (s ++ [m] ++ r)) →
      (copy (src.descend [m]) (dst.descend [m]) { recurse := true }).Halts w') :
    (copyEntry copy depth src dst).Halts w := by
  refine .get_bind (.ite (fun _ => ?_) fun hlink => .ite (fun hdir => ?_) fun _ => copyFile_halts)
  · exact .bind_of_forall resolveSymlink_halts fun _ _ => makeSymlink_halts
  · rw [Bool.not_eq_true] at hlink
    obtain ⟨s, hstat⟩ := isDirectory_eq_true.mp hdir
    obtain ⟨hfollow, hlook⟩ := World.getStat_eq_some.mp hstat
    have hs := resolve_of_not_link hlink hfollow
    refine .bind makeDirectory_halts ((makeDirectory_spec hnone).mono fun r w₁ hmade u hu => ?_)
    subst hu
    obtain ⟨l, n, hp, hadds⟩ := hmade
    have hout : ¬ s <+: l := fun h => hin ⟨s, l, n, hs, hlook, hp, h⟩
    obtain ⟨hnotIn, happart⟩ := apart_of_outside (World.look_of_found hs) hadds.new hout
    have hstat₁ : w₁.getStat src {} = some (s, .dir) :=
      World.getStat_eq_some.mpr ⟨hadds.grows.resolve_mono hfollow, hadds.grows.added _ _ hlook⟩
    refine .bind directory_halts ((directory_spec hstat₁).mono ?_)
    rintro r w₂ ⟨ns, hlist, hlike, hsub, -⟩ children hr
    obtain rfl := Except.ok.inj (hr.symm.trans hlist)
    refine .forM_map (Partly w w₁ s (l ++ [n]) ns) ns (.start hadds hlike) ?_
    intro done m rest w' hsplit h
    have hm : m ∈ ns := by simp [hsplit]
    have hnot : m ∉ done := w₁.tree.next_not_done hsub hsplit
    obtain ⟨hfound, hmissing⟩ := child_places hfollow hlook hp hadds h.grows
      ((w₁.tree.listed s m).mp (hsub.subset hm)) (h.toDo m hm hnot)
    rw [join_leaf]
    -- nothing that was copied is in the source
    have hsame : ∀ r, w'.tree.look (s ++ r) = w.tree.look (s ++ r) := fun r => by
      rw [h.outside _ (happart r), hadds.others]
      exact fun heq => happart r (heq ▸ List.prefix_rfl)
    refine ⟨hcopy s _ m w' hs ?_ hfound hmissing ?_ fun r => ?_, ?_⟩
    · rw [← hsame]
      exact World.look_of_found hfound
    · exact fun hbelow => hnotIn ((List.prefix_append s [m]).trans hbelow)
    · rw [List.append_assoc]
      exact hsame _
    · refine (hspec _ _ w').mono fun r w'' hcopied u hu => ?_
      subst hu
      exact h.step hadds.grows hmissing hfound hcopied

/-- **A copy comes to an end.** If the source is of finite depth, and the destination would
not be made in it, the copy returns or throws, whatever fails on the way. -/
theorem copyTo_halts {d : ℕ} {flags : PathFlags} (hflags : flags.overwrite = false)
    (hd : ∀ s, w.resolve false src = .ok (.found s) → DepthBelow w.tree s d)
    (hin : ¬ Inside w src dst) : (copyTo (d + 1) src dst flags).Halts w := by
  have hchecks : ∀ {depth : ℕ} {src dst : FilePath} {flags : PathFlags} {w : World},
      flags.overwrite = false →
      (dst.doesExist w {} = false → (copyEntry (copyTo depth) depth src dst).Halts w) →
      (copyTo (depth + 1) src dst flags).Halts w := by
    intro depth src dst flags w hflags hentry
    refine .get_bind (.ite (fun _ => .throw) fun _ => .ite (fun _ => .throw) fun _ =>
      .ite (fun _ => .throw) fun _ => .ite (fun _ => ?_) fun hnone => ?_)
    · have hthrow : (makeWay depth dst flags : FsProg Unit) = .throw ⟨eExist, [dst]⟩ :=
        if_pos hflags
      rw [hthrow]
      exact .bind .throw (.throw (by simp))
    · exact hentry (by rwa [Bool.not_eq_true] at hnone)
  induction d generalizing src dst flags w with
  | zero =>
      refine hchecks hflags fun hnone => copyEntry_halts (fun _ _ _ => copyTo_spec rfl) hnone hin ?_
      intro s d m w' hs hm
      exact absurd (hd s hs [m] hm) (by simp)
  | succ d ih =>
      refine hchecks hflags fun hnone => copyEntry_halts (fun _ _ _ => copyTo_spec rfl) hnone hin ?_
      intro s d' m w' hs hm hfound hmissing hout hsame
      refine ih rfl (fun s' hs' r hr => ?_) ?_
      · obtain rfl := Place.found.inj (Except.ok.inj (hs'.symm.trans hfound))
        rw [hsame] at hr
        exact (hd s hs).child m r hr
      · rintro ⟨s', l, n, hs', -, hp, hbelow⟩
        obtain rfl := Place.found.inj (Except.ok.inj (hs'.symm.trans hfound))
        cases hp.symm.trans hmissing
        exact hout hbelow

/-! ### Names of limited length -/

section Limit

variable {n k depth : ℕ} {w : World (some n)} {flags : PathFlags}

/-- A path that is not refused has few elements. -/
theorem length_of_isDirectory (h : p.isDirectory w {} = true) : p.elements.length < n + 2 := by
  by_contra hlong
  have hlength : n < nameLength p := by
    rw [nameLength]
    omega
  have hexceeds : exceeds (some n) p = true := by simpa [exceeds] using hlength
  have hne : p.elements ≠ [] := fun hnil => hlong (by simp [hnil])
  simp [isDirectory, World.getStat, World.resolve, hexceeds, hne] at h

/-- The path of an entry has one element more than that of the directory. -/
theorem length_join_ofName (p : FilePath) (m : Bytes) :
    (p.join (ofName m)).elements.length = p.elements.length + 1 := by
  unfold join
  split
  next h =>
    have hnil : p.elements = [] := (h.resolve_left (by simp [ofName])).2
    simp [ofName, hnil]
  next => simp [ofName]

/-- What is done with the entries of a directory comes to an end if it does for every list of
them. -/
theorem directory_bind_halts {f : List FilePath → FsProg Unit (some n)}
    (hf : ∀ (ns : List Bytes) w', (f (ns.map fun m => p.join (ofName m))).Halts w') :
    (p.directory >>= f).Halts w := by
  obtain ⟨ns, hlist⟩ := directory_lists p w
  rw [Prog.Halts, Prog.bind_of_ok hlist]
  exact hf ns _

/-- A loop over the entries of a directory comes to an end if its rounds do. The paths of the
entries have one element more. -/
theorem forM_entries_halts {f : FilePath → FsProg Unit (some n)} (ns : List Bytes)
    (hf : ∀ child w', child.elements.length = p.elements.length + 1 → (f child).Halts w') :
    ((ns.map fun m => p.join (ofName m)).forM f).Halts w :=
  .forM_map (fun _ _ => True) ns trivial fun _ m _ w' _ _ =>
    ⟨hf _ w' (length_join_ofName p m), fun _ _ _ _ _ => trivial⟩

/-- The file itself is removed by one call. -/
theorem removeEntry_halts {limit : Option ℕ} {w : World limit} : (removeEntry p).Halts w := by
  refine .bind_of_forall (sysCall_halts _) fun r w' => ?_
  cases r with
  | ok u => exact .ret
  | error err => exact .ite (fun _ => .ret) fun _ => .throw

/-- `remove()` comes to an end when the names get too long, at the latest. -/
theorem remove_halts (hk : n + 2 ≤ p.elements.length + k) :
    (remove (k + 1) p flags).Halts w := by
  induction k generalizing p flags w with
  | zero =>
    rw [remove_succ]
    refine .get_bind (.ite (fun hdir => ?_) fun _ => removeEntry_halts)
    simp only [Bool.and_eq_true] at hdir
    exact absurd (length_of_isDirectory hdir.1.2) (by omega)
  | succ k ih =>
    rw [remove_succ]
    refine .get_bind (.ite (fun _ => ?_) fun _ => removeEntry_halts)
    refine directory_bind_halts fun ns w₁ => .bind_of_forall ?_ fun _ _ => removeEntry_halts
    exact forM_entries_halts ns fun child w' hchild => ih (by omega)

/-- What a copy does after its checks comes to an end, if it does for the entries of a
directory. -/
theorem copyEntry_halts_of_children {copy : FilePath → FilePath → PathFlags → FsProg Unit (some n)}
    (hcopy : ∀ child dst w', src.elements.length < n + 2 →
      child.elements.length = src.elements.length + 1 →
        (copy child dst { recurse := true }).Halts w') :
    (copyEntry copy depth src dst).Halts w := by
  refine .get_bind (.ite (fun _ => ?_) fun _ => .ite (fun hdir => ?_) fun _ => copyFile_halts)
  · exact .bind_of_forall resolveSymlink_halts fun _ _ => makeSymlink_halts
  · refine .bind_of_forall makeDirectory_halts fun _ w₁ => ?_
    exact directory_bind_halts fun ns w₂ => forM_entries_halts ns fun child w' =>
      hcopy child (dst.join child.leaf) w' (length_of_isDirectory hdir)

/-- The checks of a copy come to an end. -/
theorem copyTo_halts_of_entry (hway : (makeWay depth dst flags).Halts w)
    (hentry : ∀ w' : World (some n), (copyEntry (copyTo depth) depth src dst).Halts w') :
    (copyTo (depth + 1) src dst flags).Halts w := by
  refine .get_bind (.ite (fun _ => .throw) fun _ => .ite (fun _ => .throw) fun _ =>
    .ite (fun _ => .throw) fun _ => .ite (fun _ => ?_) fun _ => hentry w)
  exact .bind_of_forall hway fun _ w' => hentry w'

/-- The copy of an entry comes to an end when the names get too long, at the latest. -/
theorem copyTo_halts_of_limit (hflags : flags.overwrite = false)
    (hk : n + 2 ≤ src.elements.length + k) : (copyTo (k + 1) src dst flags).Halts w := by
  induction k generalizing src dst flags w with
  | zero =>
    refine copyTo_halts_of_entry (.ite (fun _ => .throw) fun h => absurd hflags h) fun w' => ?_
    exact copyEntry_halts_of_children fun _ _ _ hshort _ => absurd hshort (by omega)
  | succ k ih =>
    refine copyTo_halts_of_entry (.ite (fun _ => .throw) fun h => absurd hflags h) fun w' => ?_
    exact copyEntry_halts_of_children fun child dst w' _ hchild => ih rfl (by omega)

/-- **A copy comes to an end.** Where the length of names is limited, every copy returns or
throws, also one into the source itself, and whatever fails on the way. -/
theorem copyTo_terminates (w : World (some n)) (src dst : FilePath) (flags : PathFlags) :
    ∃ enough, ∀ depth, enough ≤ depth → (copyTo depth src dst flags).Halts w := by
  refine ⟨n + 4, fun depth hdepth => ?_⟩
  obtain ⟨k, rfl⟩ : ∃ k, depth = k + 2 := ⟨depth - 2, by omega⟩
  refine copyTo_halts_of_entry (.ite (fun _ => .throw) fun _ => remove_halts (by omega))
    fun w' => ?_
  exact copyEntry_halts_of_children fun child dst w' _ _ => copyTo_halts_of_limit rfl (by omega)

end Limit

end FilePath

end RsIo
