import RsIo.FileCopySpec
import RsIo.FileRemove

/-!
# What Copying and Moving May Lose

Whether the data at the source of `copy_to` and `move_to` is kept, whatever fails on the
way. A copy has to leave it unchanged. After a move it is unchanged, or it is complete at
the destination. The data is the node that the path of the source names, with everything
below it, and if that is a link, also what the link leads to. Both functions copy and move
the link itself, and what it leads to has to stay where it is.

The `overwrite` flag lets both functions remove the file at the destination first. If it is
in the data of the source or around it, this removes data of the source. A destination that
leads to nothing, or to the same file as the source, is not removed but replaced by
`rename`, also if it is in what a link at the source leads to. A move that falls back to
copying removes the source after the copy, and loses what the copy has lost without an
error.

## Main results

* `data_kept`: the data is kept if neither happens.
-/

namespace RsIo

open FileTree (Place SameOn)

/-- The data at `l` in `t` is there in `t'`, unchanged. -/
def Unchanged (t t' : Tree) (l : Loc) : Prop :=
  ∀ r e, t.look (l ++ r) = some e → t'.look (l ++ r) = some e

namespace FilePath

variable {w w' : World} {src dst : FilePath} {flags : PathFlags} {s : Loc}

/-- The data at the source is unchanged: what its path names, and what it leads to. -/
def Stays (w : World) (src : FilePath) (w' : World) : Prop :=
  ∀ follow l, w.resolve follow src = .ok (.found l) → Unchanged w.tree w'.tree l

/-- The data at the source is complete at the destination. What a link leads to is where it
was, without the link itself if that was in it. -/
def Arrives (w : World) (src dst : FilePath) (w' : World) : Prop :=
  ∀ s, w.resolve false src = .ok (.found s) →
    (∃ d, Target w dst d ∧ Complete w.tree w'.tree s d) ∧
      ∀ t r e, w.resolve true src = .ok (.found t) → ¬ s <+: t ++ r →
        w.tree.look (t ++ r) = some e → w'.tree.look (t ++ r) = some e

/-- The destination is in the data of the source, or around it. -/
def Nested (w : World) (src dst : FilePath) : Prop :=
  ∃ follow l place, w.resolve follow src = .ok (.found l) ∧ w.resolve false dst = .ok place ∧
    (l <+: place.loc ∨ place.loc <+: l)

/-- The source is a link, and a move puts it in the place of another file in what it leads
to: the destination leads to nothing, or to where the source leads, and is not removed
first. -/
def Replaces (w : World) (src dst : FilePath) : Prop :=
  (dst.doesExist w {} = false ∨ src.id w {} = dst.id w {}) ∧
    ∃ s t d, w.resolve false src = .ok (.found s) ∧ w.resolve true src = .ok (.found t) ∧
      w.resolve false dst = .ok (.found d) ∧ t ≠ s ∧ d ≠ s ∧ t <+: d ∧
        w.tree.look d ≠ some .dir ∧ w.tree.look d ≠ w.tree.look s

/-- `copy_to` and `move_to` remove the file at the destination. -/
def Overwrites (w : World) (src dst : FilePath) (flags : PathFlags) : Prop :=
  src.doesExist w {} = true ∧ dst.doesExist w {} = true ∧ src ≠ dst ∧
    src.id w {} ≠ dst.id w {} ∧ flags.overwrite = true

theorem stays_refl : Stays w src w := fun _ _ _ _ _ h => h

theorem Stays.grow (h : Stays w src w') {w'' : World} (hgrows : w'.Grows w'') :
    Stays w src w'' := fun follow l hl r e he => hgrows.added _ _ (h follow l hl r e he)

/-- What is removed at the destination is not data of the source. -/
theorem stays_of_shrinks (hnested : ¬ Nested w src dst) (h : w.Shrinks (w.Outside dst) w') :
    Stays w src w' := by
  intro follow l hl r e he
  rw [h.kept, he]
  intro place hplace hbelow
  refine hnested ⟨follow, l, place, hl, hplace, ?_⟩
  exact List.prefix_or_prefix_of_prefix (List.prefix_append l r) hbelow

/-- What comes after the file at the destination was removed. -/
theorem makeWay_spec {depth : ℕ} : (makeWay depth dst flags).Ensures w fun r w' =>
    (flags.overwrite = false → r ≠ .ok () ∧ w' = w) ∧
      w.Shrinks (w.Outside dst) w' ∧
      (r = .ok () → ∀ l, w'.resolve false dst ≠ .ok (.found l)) := by
  refine .ite (fun _ => .throw ⟨fun _ => ⟨by simp, rfl⟩, .refl w, by simp⟩) fun hflag => ?_
  exact remove_spec.mono fun r w' ⟨hshrinks, hgone⟩ =>
    ⟨fun h => absurd h hflag, hshrinks, hgone⟩

/-- A copy leaves the data at the source unchanged, unless it removes some of it. -/
theorem copyTo_stays {depth : ℕ}
    (h : ¬ (Overwrites w src dst flags ∧ (src.isDirectory w {} = true → flags.recurse = true) ∧
      Nested w src dst)) :
    (copyTo depth src dst flags).Ensures w fun _ w' => Stays w src w' := by
  cases depth with
  | zero => exact .diverge
  | succ depth =>
      refine .get_bind (.ite (fun _ => .throw stays_refl) fun hsrc => .ite (fun _ =>
        .throw stays_refl) fun hne => .ite (fun _ => .throw stays_refl) fun hrec => .ite
          (fun hdst => ?_) fun hnone => ?_)
      · refine .bind (makeWay_spec.mono fun r w₁ ⟨hkeep, hshrinks, hgone⟩ => ?_)
        have hstays : Stays w src w₁ := by
          by_cases hflag : flags.overwrite = false
          · rw [(hkeep hflag).2]
            exact stays_refl
          · refine stays_of_shrinks (fun hnested => h ⟨?_, fun hdir => ?_, hnested⟩) hshrinks
            · exact ⟨by simpa using hsrc, hdst, fun heq => hne (.inl heq),
                fun heq => hne (.inr heq), by simpa using hflag⟩
            · simpa [hdir] using hrec
        cases r with
        | error err => exact hstays
        | ok u =>
            exact (copyEntry_spec (fun src dst w => copyTo_spec rfl)
              (doesExist_of_gone (hgone rfl)).1).mono
              fun r w' hcopied => hstays.grow hcopied.grows
      · rw [Bool.not_eq_true] at hnone
        exact (copyEntry_spec (fun src dst w => copyTo_spec rfl) hnone).mono
          fun r w' hcopied => stays_refl.grow hcopied.grows

/-- A copy that returns had a source, and a free destination. -/
theorem copyTo_returns {depth : ℕ} (hflags : flags.overwrite = false) :
    (copyTo depth src dst flags).Ensures w fun r _ =>
      r = .ok () → src.doesExist w {} = true ∧ dst.doesExist w {} = false := by
  cases depth with
  | zero => exact .diverge
  | succ depth =>
      refine .get_bind (.ite (fun _ => .throw (by simp)) fun hsrc => .ite (fun _ =>
        .throw (by simp)) fun _ => .ite (fun _ => .throw (by simp)) fun _ => .ite
          (fun _ => .bind (.ite (fun _ => .throw (by simp [Prog.After])) fun h => absurd hflags h))
          fun hdst => ?_)
      intro r w' _ _
      exact ⟨by simpa using hsrc, by simpa using hdst⟩

/-- What may go wrong without an error when a move falls back to copying, does not, and the
source and the destination are not one link. -/
def CanCopy (w : World) (src dst : FilePath) : Prop :=
  w.Lossless ∧ ∀ s place, w.resolve false src = .ok (.found s) →
    w.resolve false dst = .ok place → place.loc ≠ s

/-- A path that leads to nothing does not name a place above a node. -/
theorem not_above {d : Loc} (htarget : Target w dst d) (hnone : dst.doesExist w {} = false)
    (hs : w.tree.look s ≠ none) (hne : d ≠ s) : ¬ d <+: s := by
  intro habove
  have hdir := w.tree.look_isPrefix habove hne hs
  rcases htarget with ⟨place, hplace, rfl⟩ | ⟨l, n, hp, rfl⟩
  · cases place with
    | missing l n => exact absurd ((World.resolve_in hplace).2.symm.trans hdir) (by simp)
    | found l =>
        have hlook : w.tree.look l = some .dir := hdir
        have hfound := World.resolve_follow hplace (by simp [hlook])
        rw [doesExist_eq_true.mpr ⟨l, hfound⟩] at hnone
        cases hnone
  · exact absurd ((World.resolve_in hp).2.symm.trans hdir) (by simp)

section Entry

variable {depth : ℕ} {w₁ w₂ : World}

/-- A source that is still there is where it was. -/
theorem source_of_shrinks {P : Loc → Prop} (hshrinks : w.Shrinks P w₁)
    (hs : w.resolve false src = .ok (.found s)) {place : Place Bytes}
    (hplace : w₁.resolve false src = .ok place) : place.loc = s := by
  obtain ⟨place', hplace', hloc⟩ := hshrinks.resolve_loc hplace
  rw [hs] at hplace'
  obtain rfl := Except.ok.inj hplace'
  exact hloc.symm

/-- The last part of a move that falls back to copying: the source is removed after it was
copied. -/
theorem remove_arrives (hshrinks : w.Shrinks (w.Outside dst) w₁) (hstays : Stays w src w₁)
    (htarget : ∀ d, Target w₁ dst d → Target w dst d)
    (hsafe : CanCopy w src dst) (hcopied : Copied w₁ src dst (.ok ()) w₂)
    (hsrc : src.doesExist w₁ {} = true) (hdst : dst.doesExist w₁ {} = false) :
    (remove depth src { recurse := true }).Ensures w₂ fun _ w' => Arrives w src dst w' := by
  refine remove_spec.mono fun r w' ⟨hremoved, _⟩ s hs => ?_
  have hs₁ : w₁.resolve false src = .ok (.found s) := by
    obtain ⟨k, hk⟩ := found_of_exists hsrc
    obtain rfl : k = s := source_of_shrinks hshrinks hs hk
    exact hk
  have hapart : ∀ place, w₁.resolve false dst = .ok place → place.loc ≠ s := by
    intro place hp
    obtain ⟨place', hp', hloc⟩ := hshrinks.resolve_loc hp
    exact hloc ▸ hsafe.2 s place' hs hp'
  obtain ⟨d, hd, hnotBelow, hcomplete⟩ :=
    hcopied.complete rfl (hshrinks.lossless hsafe.1) s hs₁ hapart
  have hnotAbove := not_above hd hdst (World.look_of_found hs₁) fun heq =>
    hnotBelow (heq ▸ List.prefix_rfl)
  have hplace : ∀ place, w₂.resolve false src = .ok place → place = .found s := fun place hk =>
    Except.ok.inj (hk.symm.trans (hcopied.grows.resolve_mono hs₁))
  refine ⟨⟨d, htarget d hd, fun r e he => ?_⟩, fun t r e ht hout he => ?_⟩
  · rw [hremoved.kept]
    · exact hcomplete r e (hstays _ s hs r e he)
    · -- the copy is not in what is removed
      intro k hk hbelow
      obtain rfl := hplace k hk
      rcases List.prefix_or_prefix_of_prefix (List.prefix_append d r) hbelow with h | h
      · exact hnotAbove h
      · exact hnotBelow h
  · -- only the link is removed
    rw [hremoved.kept]
    · exact hcopied.grows.added _ _ (hstays _ t ht r e he)
    · intro k hk
      obtain rfl := hplace k hk
      exact hout

/-- What leads elsewhere is a link, and no directory. -/
theorem not_dir_of_link {t : Loc} (hs : w.resolve false src = .ok (.found s))
    (ht : w.resolve true src = .ok (.found t)) (hne : t ≠ s) : w.tree.look s ≠ some .dir := by
  intro hdir
  have hfollow := World.resolve_follow hs (by simp [hdir])
  exact hne (Place.found.inj (Except.ok.inj (ht.symm.trans hfollow)))

/-- What a link leads to stays where it is when the link is renamed, if it takes the place of
nothing there. -/
theorem led_of_move {t d : Loc} {n : Bytes} (hm : w₁.tree.Movable s d n)
    (hs : w.resolve false src = .ok (.found s)) (ht : w.resolve true src = .ok (.found t))
    (hkept : Unchanged w.tree w₁.tree t)
    (hfree : w₁.tree.look (d ++ [n]) = none ∨ (w₁.tree = w.tree ∧ (w.tree.look s ≠ some .dir →
      w.tree.look (d ++ [n]) ≠ some .dir) ∧
        (t ≠ s → t <+: d ++ [n] → w.tree.look (d ++ [n]) = w.tree.look s)))
    (r : List Bytes) (e : Entry Bytes Bytes) (hout : ¬ s <+: t ++ r)
    (he : w.tree.look (t ++ r) = some e) :
    (w₁.tree.move s d n hm).look (t ++ r) = some e := by
  have hthere := hkept r e he
  by_cases hbelow : d ++ [n] <+: t ++ r
  · have habove : d ++ [n] ≠ t ++ r → w₁.tree.look (d ++ [n]) = some .dir := fun hne =>
      w₁.tree.look_isPrefix hbelow hne (by simp [hthere])
    have hne : t ≠ s := fun h => hout (h ▸ List.prefix_append s r)
    rcases hfree with hnone | ⟨htree, hdir, hsame⟩
    · by_cases heq : d ++ [n] = t ++ r
      · rw [heq, hthere] at hnone
        cases hnone
      · cases hnone.symm.trans (habove heq)
    · by_cases heq : d ++ [n] = t ++ r
      · rw [← heq, ← List.append_nil (d ++ [n]), FileTree.look_move_target, List.append_nil, htree,
          ← hsame hne (heq ▸ List.prefix_append t r), heq, he]
      · exact absurd (htree ▸ habove heq) (hdir (not_dir_of_link hs ht hne))
  · rw [FileTree.look_move hm hout hbelow, hthere]

/-- The part of `move_to` after its checks. -/
theorem moveEntry_spec (hshrinks : w.Shrinks (w.Outside dst) w₁) (hstays : Stays w src w₁)
    (htarget : ∀ d, Target w₁ dst d → Target w dst d)
    (hthere : ∀ d, w₁.resolve false dst = .ok (.found d) → w₁ = w ∧
      (dst.doesExist w {} = false ∨ src.id w {} = dst.id w {}))
    (hreplaces : ¬ Replaces w src dst)
    (hsafe : flags.mayCopy = true → CanCopy w src dst) :
    (moveEntry depth src dst flags).Ensures w₁ fun _ w' =>
      Stays w src w' ∨ Arrives w src dst w' := by
  refine sysCall_ensures (fun err w₂ hlike _ => .ite (fun _ => ?_) fun hcopy => ?_)
    fun t u w₂ hlike hact => .ret ?_
  · exact .throw (.inl (hstays.grow hlike.grows))
  · refine .bind (((copyTo_spec rfl).and (copyTo_returns rfl)).mono
      fun r w₃ ⟨hcopied, hreturns⟩ => ?_)
    cases r with
    | error err => exact .inl ((hstays.grow hlike.grows).grow hcopied.grows)
    | ok u =>
        refine (remove_arrives (hshrinks.trans hlike.shrinks) (hstays.grow hlike.grows)
          (fun d hd => htarget d ?_) ?_ hcopied (hreturns rfl).1 (hreturns rfl).2).mono
            fun _ _ h => .inr h
        · simpa only [Target, hlike.resolve_eq] using hd
        · exact hsafe (by simpa using fun h => hcopy (.inr h))
  · obtain ⟨s', place, hs', hp, ⟨-, rfl⟩ | ⟨d, n, hm, hd, rfl⟩⟩ := World.rename_eq_ok hact
    · exact .inl (hstays.grow hlike.grows)
    · refine .inr fun s hs => ?_
      obtain rfl : s' = s := source_of_shrinks (hshrinks.trans hlike.shrinks) hs hs'
      refine ⟨⟨d ++ [n], htarget _ (.inl ⟨place, by rwa [hlike.resolve_eq] at hp, hd⟩),
        fun r e he => ?_⟩, fun t r e ht => ?_⟩
      · change ((w₂.tree.move s' d n hm).look (d ++ [n] ++ r)).map asRead = some (asRead e)
        rw [FileTree.look_move_target, hlike.tree, hstays _ s' hs r e he, Option.map_some]
      · refine led_of_move hm hs ht ((hstays.grow hlike.grows) _ t ht) ?_ r e
        cases place with
        | missing l m =>
            refine .inl ?_
            rw [← hd]
            exact (World.resolve_in hp).2
        | found l =>
            obtain rfl : l = d ++ [n] := hd
            have hp₁ := hp
            rw [hlike.resolve_eq] at hp₁
            obtain ⟨rfl, hskipped⟩ := hthere _ hp₁
            have hne : d ++ [n] ≠ s' := fun h => hm.outside (h ▸ List.prefix_rfl)
            have hdir := World.rename_dir hact hs' hp hne
            rw [hlike.tree] at hdir
            refine .inr ⟨hlike.tree, hdir, fun hts hin => ?_⟩
            by_contra hdiffers
            exact hreplaces ⟨hskipped, s', t, d ++ [n], hs, ht, hp₁, hts, hne, hin,
              hdir (not_dir_of_link hs ht hts), hdiffers⟩

end Entry

/-- A move leaves the data at the source unchanged, or complete at the destination, unless
it removes some of it first or loses some of it in a copy. -/
theorem moveTo_keeps {depth : ℕ} (h : ¬ (Overwrites w src dst flags ∧ Nested w src dst))
    (hreplaces : ¬ Replaces w src dst) (hsafe : flags.mayCopy = true → CanCopy w src dst) :
    (moveTo depth src dst flags).Ensures w fun _ w' =>
      Stays w src w' ∨ Arrives w src dst w' := by
  refine .get_bind (.ite (fun _ => .throw (.inl stays_refl)) fun hsrc => .ite (fun _ =>
    .ret (.inl stays_refl)) fun hne => .ite (fun hdst => ?_) fun hskip => ?_)
  · refine .bind (makeWay_spec.mono fun r w₁ ⟨hkeep, hshrinks, hgone⟩ => ?_)
    have hstays : Stays w src w₁ := by
      by_cases hflag : flags.overwrite = false
      · rw [(hkeep hflag).2]
        exact stays_refl
      · simp only [Bool.and_eq_true, decide_eq_true_eq] at hdst
        refine stays_of_shrinks (fun hnested => h ⟨?_, hnested⟩) hshrinks
        exact ⟨by simpa using hsrc, hdst.1, hne, hdst.2, by simpa using hflag⟩
    cases r with
    | error err => exact .inl hstays
    | ok u =>
        refine moveEntry_spec hshrinks hstays (fun d hd => ?_) (fun d hd => ?_) hreplaces hsafe
        have hloc : ∃ place, w₁.resolve false dst = .ok place ∧ place.loc = d := by
          rcases hd with hd | ⟨l, n, hp, hd⟩
          · exact hd
          · exact ⟨_, resolve_of_not_link (doesExist_of_gone (hgone rfl)).2 hp, hd⟩
        · obtain ⟨place, hp, rfl⟩ := hloc
          exact .inl (hshrinks.resolve_loc hp)
        · exact absurd hd (hgone rfl d)
  · refine moveEntry_spec (.refl w) stays_refl (fun _ hd => hd) (fun d _ => ⟨rfl, ?_⟩) hreplaces
      hsafe
    simpa only [Bool.and_eq_true, decide_eq_true_eq, not_and_or, Bool.not_eq_true,
      not_not] using hskip

/-! ### What is lost -/

/-- A path that can be removed as a whole: it does not name the root, nor end in `.` or
`..`, it does not lead through what is below its own place, and that is of finite depth. -/
def Removable (w : World) (p : FilePath) : Prop :=
  World.endsInDots p = false ∧ ∀ l, w.resolve false p = .ok (.found l) →
    l ≠ [] ∧ Steady w p l ∧ ∃ d, DepthBelow w.tree l d

section Loses

variable {d l : Loc} {t : Tree} {follow : Bool}

/-- If the destination was removed, and is in the source or the source in it, then data at
the source is lost. -/
theorem not_stays (hl : w.resolve follow src = .ok (.found l))
    (hd : w.resolve false dst = .ok (.found d)) (hroot : d ≠ [])
    (hnested : l <+: d ∨ d <+: l) (hcleared : Cleared w.tree t d) (htree : w'.tree = t) :
    ¬ Stays w src w' := by
  intro hstays
  have hkept := hstays _ l hl
  rw [htree] at hkept
  rcases hnested with ⟨r, rfl⟩ | ⟨r, rfl⟩
  · obtain ⟨e, he⟩ := Option.ne_none_iff_exists'.mp (World.look_of_found hd)
    have hnone := hcleared.look_eq_none hroot List.prefix_rfl
    rw [hkept r e he] at hnone
    cases hnone
  · obtain ⟨e, he⟩ := Option.ne_none_iff_exists'.mp (World.look_of_found hl)
    have hkept' := hkept [] e (by rwa [List.append_nil])
    rw [List.append_nil, hcleared.look_eq_none hroot (List.prefix_append d r)] at hkept'
    cases hkept'

/-- A call on a full disk. -/
private theorem sysCall_full {α : Type} {act : World → Except ℕ (Tree × α)}
    (faults : List (Option ℕ)) :
    sysCall act (w.calm t 0 (some eNoSpc :: faults)) =
      some (.ok (.error eNoSpc), w.calm t 0 faults) := rfl

/-- Without room a directory cannot be made. -/
private theorem makeDirectory_full {p : FilePath} :
    makeDirectory p {} (w.calm t 0 [some eNoSpc, some eNoSpc]) =
      some (.error ⟨eNoSpc, [p]⟩, w.calm t 0 []) := by
  obtain ⟨above, habove⟩ := makeDirectory_eq p {}
  have hother : eNoSpc ≠ eExist ∧ eNoSpc ≠ eNoEnt := by decide
  rw [habove, makeDirectoryOnce, Prog.bind_of_ok (sysCall_full _)]
  simp only [Prog.get_bind, hother.1, hother.2, false_and, if_false]
  rw [Prog.bind_of_ok (sysCall_full _)]
  rfl

/-- A link is not read on a full disk. -/
private theorem resolveSymlink_full {p : FilePath}
    (hlink : p.isSymlink (w.calm t 0 [some eNoSpc, some eNoSpc]) = true) :
    resolveSymlink p (w.calm t 0 [some eNoSpc, some eNoSpc]) =
      some (.error ⟨eNoSpc, [p]⟩, w.calm t 0 [some eNoSpc]) := by
  obtain ⟨k, target, hk, htarget⟩ := isSymlink_eq_true.mp hlink
  have hstat : (w.calm t 0 [some eNoSpc]).getStat p { noFollow := true } =
      some (k, .link target) := World.getStat_eq_some.mpr ⟨hk, htarget⟩
  have hfault : nextFault (w.calm t 0 [some eNoSpc, some eNoSpc]) =
      some (.ok (some eNoSpc), w.calm t 0 [some eNoSpc]) := rfl
  rw [resolveSymlink, Prog.bind_of_ok hfault, Prog.get_bind, hstat]
  rfl

/-- On a full disk nothing is copied. -/
theorem copyEntry_full (copy : FilePath → FilePath → PathFlags → FsProg Unit) (depth : ℕ)
    (src dst : FilePath) :
    ∃ err w', copyEntry copy depth src dst (w.calm t 0 [some eNoSpc, some eNoSpc]) =
      some (.error err, w') ∧ w'.tree = t := by
  rw [copyEntry, Prog.get_bind]
  split
  next hlink => exact ⟨_, _, Prog.bind_of_error (resolveSymlink_full hlink), rfl⟩
  split
  · refine ⟨_, _, Prog.bind_of_error makeDirectory_full, rfl⟩
  · refine ⟨⟨eNoSpc, [src]⟩, w.calm t 0 [some eNoSpc], ?_, rfl⟩
    rw [copyFile, Prog.bind_of_ok (sysCall_full _)]
    exact Prog.bind_of_error rfl

/-- A destination that is there is found, and can be removed if nothing fails. -/
theorem makeWay_run (hdst : dst.doesExist w {} = true) {place : Place Bytes}
    (hplace : w.resolve false dst = .ok place) (hremovable : Removable w dst)
    (hflag : flags.overwrite = true) :
    ∃ d k t depth, place = .found d ∧ d ≠ [] ∧ Cleared w.tree t d ∧ ∀ faults,
      makeWay depth dst flags (w.calm w.tree k faults) = some (.ok (), w.calm t 0 faults) := by
  obtain ⟨d, hd⟩ := found_of_exists hdst
  obtain rfl := Except.ok.inj (hd.symm.trans hplace)
  obtain ⟨hroot, hsteady, n, hdepth⟩ := hremovable.2 d hd
  obtain ⟨k, t, hcleared, hrun⟩ := remove_clears hremovable.1 hsteady hdepth
  refine ⟨d, k, t, n + 1, rfl, hroot, hcleared, fun faults => ?_⟩
  obtain ⟨r, hr, hok⟩ := hrun faults
  rw [hok hroot] at hr
  rw [makeWay, if_neg (by simp [hflag]), hr]

end Loses

/-- The data at the source is unchanged after a copy. -/
def CopyKeeps (w : World) (src dst : FilePath) (flags : PathFlags) : Prop :=
  ∀ depth, (copyTo depth src dst flags).Ensures w fun _ w' => Stays w src w'

/-- The data at the source is unchanged after a move, or complete at the destination. -/
def MoveKeeps (w : World) (src dst : FilePath) (flags : PathFlags) : Prop :=
  ∀ depth, (moveTo depth src dst flags).Ensures w fun _ w' =>
    Stays w src w' ∨ Arrives w src dst w'

/-- A copy that has to overwrite removes the destination first. -/
theorem copyTo_overwriting (depth : ℕ) (h : Overwrites w src dst flags)
    (hrec : src.isDirectory w {} = true → flags.recurse = true) :
    copyTo (depth + 1) src dst flags w =
      (makeWay depth dst flags >>= fun _ => copyEntry (copyTo depth) depth src dst) w := by
  obtain ⟨hsrc, hdst, hne, hid, -⟩ := h
  have hsame : ¬ (src = dst ∨ src.id w {} = dst.id w {}) := not_or.mpr ⟨hne, hid⟩
  have hdir : ¬ (src.isDirectory w {} && !flags.recurse) = true := by simpa using hrec
  rw [copyTo, Prog.get_bind, if_neg (by simp [hsrc]), if_neg hsame, if_neg hdir, if_pos hdst]

/-- A move that has to overwrite removes the destination first. -/
theorem moveTo_overwriting (depth : ℕ) (h : Overwrites w src dst flags) :
    moveTo depth src dst flags w =
      (makeWay depth dst flags >>= fun _ => moveEntry depth src dst flags) w := by
  obtain ⟨hsrc, hdst, hne, hid, -⟩ := h
  rw [moveTo, Prog.get_bind, if_neg (by simp [hsrc]), if_neg hne, if_pos (by simp [hdst, hid])]

/-- A destination that leads to nothing, or to where the source leads, is not removed. -/
theorem moveTo_direct (depth : ℕ) (hsrc : src.doesExist w {} = true) (hne : src ≠ dst)
    (hskipped : dst.doesExist w {} = false ∨ src.id w {} = dst.id w {}) :
    moveTo depth src dst flags w = moveEntry depth src dst flags w := by
  rw [moveTo, Prog.get_bind, if_neg (by simp [hsrc]), if_neg hne, if_neg]
  simpa only [Bool.and_eq_true, decide_eq_true_eq, not_and_or, Bool.not_eq_true, not_not]
    using hskipped

/-- A copy that removes a part of the source, or what it is in, loses data. -/
theorem copyTo_loses (hremovable : Removable w dst) (hnested : Nested w src dst)
    (hover : Overwrites w src dst flags)
    (hrec : src.isDirectory w {} = true → flags.recurse = true) :
    ∃ faults, ¬ CopyKeeps { w with faults := faults, losses := [] } src dst flags := by
  obtain ⟨follow, l, place, hl, hplace, hnest⟩ := hnested
  obtain ⟨d, k, t, depth, rfl, hroot, hcleared, hrun⟩ :=
    makeWay_run hover.2.1 hplace hremovable hover.2.2.2.2
  refine ⟨List.replicate k none ++ [some eNoSpc, some eNoSpc], fun hkeeps => ?_⟩
  obtain ⟨err, w', hentry, htree⟩ := copyEntry_full (w := w) (t := t) (copyTo depth) depth src dst
  have hrun' := copyTo_overwriting (w := w.calm w.tree k [some eNoSpc, some eNoSpc])
    depth hover hrec
  rw [Prog.bind_of_ok (hrun _), hentry] at hrun'
  exact not_stays hl hplace hroot hnest hcleared htree (hkeeps (depth + 1) _ _ hrun')

/-- A move that removes a part of the source, or what it is in, loses data. -/
theorem moveTo_loses (hremovable : Removable w dst) (hnested : Nested w src dst)
    (hover : Overwrites w src dst flags) :
    ∃ faults, ¬ MoveKeeps { w with faults := faults, losses := [] } src dst flags := by
  obtain ⟨follow, l, place, hl, hplace, hnest⟩ := hnested
  obtain ⟨d, k, t, depth, rfl, hroot, hcleared, hrun⟩ :=
    makeWay_run hover.2.1 hplace hremovable hover.2.2.2.2
  refine ⟨List.replicate k none ++ [some eNoSpc], fun hkeeps => ?_⟩
  have hfull : eNoSpc ≠ eXDev := by decide
  have hrun' := moveTo_overwriting (w := w.calm w.tree k [some eNoSpc]) depth hover
  rw [Prog.bind_of_ok (hrun _), moveEntry, Prog.bind_of_ok (sysCall_full _)] at hrun'
  simp only [if_pos (Or.inl hfull)] at hrun'
  rcases hkeeps depth _ _ hrun' with hstays | harrives
  · exact not_stays hl hplace hroot hnest hcleared rfl hstays
  · -- nothing is left at the destination
    obtain ⟨s, hs⟩ := found_of_exists hover.1
    obtain ⟨⟨d', htarget, hcomplete⟩, -⟩ := harrives s hs
    obtain rfl : d' = d := by
      rcases htarget with ⟨place, hplace', rfl⟩ | ⟨l, n, hmissing, -⟩
      · obtain rfl := Except.ok.inj (hplace'.symm.trans hplace)
        rfl
      · obtain ⟨l', hl'⟩ := doesExist_eq_true.mp hover.2.1
        exact absurd (hl'.symm.trans hmissing) (by simp)
    obtain ⟨e, he⟩ := Option.ne_none_iff_exists'.mp (World.look_of_found hs)
    have hlook := hcomplete [] e ((congrArg w.tree.look (List.append_nil s)).trans he)
    rw [List.append_nil, show (w.calm t 0 []).tree.look d' = none from hcleared.self hroot]
      at hlook
    cases hlook

/-- A move that puts a link in the place of a file in what it leads to loses that file, if
nothing fails. -/
theorem moveTo_replaces (h : Replaces w src dst) :
    ¬ MoveKeeps { w with faults := [], losses := [] } src dst flags := by
  obtain ⟨hskipped, s, t, d, hs, ht, hd, hts, hne, ⟨r, rfl⟩, hfile, hdiffers⟩ := h
  have hlink := not_dir_of_link hs ht hts
  have hsrc := doesExist_eq_true.mpr ⟨t, ht⟩
  obtain ⟨e, he⟩ := Option.ne_none_iff_exists'.mp (World.look_of_found hd)
  obtain ⟨l, n, hm, hplace, hact⟩ :=
    World.rename_over (w := { w with faults := [], losses := [] }) hs hd hne hlink hfile
  intro hkeeps
  have hpaths : src ≠ dst := fun heq =>
    hne (Place.found.inj (Except.ok.inj (hd.symm.trans (heq ▸ hs))))
  have hrun : moveTo 1 src dst flags ({ w with faults := [], losses := [] } : World) =
      some (.ok (), { w with faults := [], losses := [], tree := w.tree.move s l n hm }) := by
    have hnone : World.Faultless { w with faults := [], losses := [] } := by simp [World.Faultless]
    rw [moveTo_direct (w := { w with faults := [], losses := [] }) 1 hsrc hpaths hskipped,
      moveEntry, Prog.bind_of_ok (hnone.sysCall_ok hact)]
    rfl
  -- the link has taken the place of the file
  have hlook : (w.tree.move s l n hm).look (t ++ r) = w.tree.look s := by
    rw [hplace, ← List.append_nil (l ++ [n]), FileTree.look_move_target, List.append_nil]
  have hlost : (w.tree.move s l n hm).look (t ++ r) ≠ some e := fun h =>
    hdiffers (he.trans (h.symm.trans hlook))
  rcases hkeeps 1 _ _ hrun with hstays | harrives
  · exact hlost (hstays true t ht r e he)
  · refine hlost ((harrives s hs).2 t r e ht (fun hin => hlink ?_) he)
    exact w.tree.look_isPrefix hin hne.symm (World.look_of_found hd)

/-- **What copying and moving keep.** A copy leaves the data at the source unchanged,
whatever fails on the way, if it does not remove a file that is in the data or around it to
overwrite it; and so a move leaves it unchanged, or complete at the destination, if it puts
no link in the place of what the link leads to, and does not fall back to a copy that loses
data without an error. If such a file is removed, then data is lost, by some failure on the
way; if such a link is moved, by no failure at all. -/
theorem data_kept (w : World) (src dst : FilePath) (flags : PathFlags) :
    (¬ (Overwrites w src dst flags ∧ (src.isDirectory w {} = true → flags.recurse = true) ∧
      Nested w src dst) → CopyKeeps w src dst flags) ∧
    (¬ (Overwrites w src dst flags ∧ Nested w src dst) → ¬ Replaces w src dst →
      (flags.mayCopy = true → CanCopy w src dst) → MoveKeeps w src dst flags) ∧
    (Removable w dst → Nested w src dst → Overwrites w src dst flags →
      (∃ faults, ¬ MoveKeeps { w with faults := faults, losses := [] } src dst flags) ∧
      ((src.isDirectory w {} = true → flags.recurse = true) →
        ∃ faults, ¬ CopyKeeps { w with faults := faults, losses := [] } src dst flags)) ∧
    (Replaces w src dst → ¬ MoveKeeps { w with faults := [], losses := [] } src dst flags) :=
  ⟨fun h _ => copyTo_stays h, fun h hreplaces hsafe _ => moveTo_keeps h hreplaces hsafe,
    fun hremovable hnested hover => ⟨moveTo_loses hremovable hnested hover,
      copyTo_loses hremovable hnested hover⟩, moveTo_replaces⟩

/-- A directory `/d`. -/
private def nestedTree : Tree :=
  FileTree.empty.insert [] [100] .dir FileTree.empty.root rfl

private theorem nestedTree_dir : nestedTree.look [[100]] = some .dir := by decide

private theorem nestedTree_new : nestedTree.look ([[100]] ++ [[102]]) = none := by decide

/-- A file `/d/f`. -/
private def nestedWorld : World where
  tree := nestedTree.insert [[100]] [102] (.file [120]) nestedTree_dir nestedTree_new
  cwd := []
  faults := []
  losses := []

/-- The path `/d`. -/
private def nestedDir : FilePath := ⟨true, [.name [100]]⟩

/-- The path `/d/f`. -/
private def nestedFile : FilePath := ⟨true, [.name [100], .name [102]]⟩

theorem data_kept_nested :
    (∃ faults, ¬ MoveKeeps { nestedWorld with faults := faults, losses := [] } nestedFile
      nestedDir { overwrite := true }) ∧
    ∃ faults, ¬ CopyKeeps { nestedWorld with faults := faults, losses := [] } nestedFile
      nestedDir { overwrite := true } := by
  have hdir : nestedWorld.resolve false nestedDir = .ok (.found [[100]]) := by decide
  have hremovable : Removable nestedWorld nestedDir := by
    refine ⟨rfl, fun l hl => ?_⟩
    obtain rfl := Place.found.inj (Except.ok.inj (hdir.symm.trans hl))
    refine ⟨by simp, steady_of_names (by decide), 1, fun r hr => ?_⟩
    simp only [nestedWorld, nestedTree, FileTree.insert, FileTree.empty,
      Function.update_apply] at hr
    split_ifs at hr <;> simp_all
  have hnested : Nested nestedWorld nestedFile nestedDir :=
    ⟨false, [[100], [102]], _, by decide, hdir, .inr ⟨[[102]], rfl⟩⟩
  have hover : Overwrites nestedWorld nestedFile nestedDir { overwrite := true } :=
    ⟨by decide, by decide, by decide, by decide, rfl⟩
  obtain ⟨hmove, hcopy⟩ := (data_kept nestedWorld nestedFile nestedDir { overwrite := true }).2.2.1
    hremovable hnested hover
  exact ⟨hmove, hcopy (by decide)⟩

/-- Overwriting the directory of a file with the file itself loses both. -/
theorem data_kept_fails :
    ¬ CopyKeeps nestedWorld nestedFile nestedDir { overwrite := true } ∧
      ¬ MoveKeeps nestedWorld nestedFile nestedDir { overwrite := true } := by
  have hfile : nestedWorld.resolve false nestedFile = .ok (.found [[100], [102]]) := by decide
  have hcontent : nestedWorld.tree.look ([[100], [102]] ++ []) = some (.file [120]) := by decide
  have hlost : ∀ {w'}, w'.tree.look [[100], [102]] = none → ¬ Stays nestedWorld nestedFile w' := by
    intro w' hnone hstays
    have hkept := hstays _ _ hfile [] _ hcontent
    rw [List.append_nil, hnone] at hkept
    cases hkept
  constructor
  · intro hkeeps
    have hrun : (copyTo 3 nestedFile nestedDir { overwrite := true } nestedWorld).map
        (fun r => r.2.tree.look [[100], [102]]) = some none := by decide
    obtain ⟨⟨r, w'⟩, hw', hnone⟩ := Option.map_eq_some_iff.mp hrun
    exact hlost hnone (hkeeps 3 r w' hw')
  · intro hkeeps
    have hrun : (moveTo 3 nestedFile nestedDir { overwrite := true } nestedWorld).map
        (fun r => (r.2.tree.look [[100], [102]], r.2.tree.look [[100]])) =
          some (none, none) := by decide
    obtain ⟨⟨r, w'⟩, hw', hnone⟩ := Option.map_eq_some_iff.mp hrun
    obtain ⟨hfileGone, hdirGone⟩ := Prod.mk.inj hnone
    rcases hkeeps 3 r w' hw' with hstays | harrives
    · exact hlost hfileGone hstays
    · obtain ⟨⟨d, htarget, hcomplete⟩, -⟩ := harrives _ hfile
      have hdir : nestedWorld.resolve false nestedDir = .ok (.found [[100]]) := by decide
      have hfollow : nestedWorld.resolve true nestedDir = .ok (.found [[100]]) := by decide
      obtain rfl : d = [[100]] := by
        rcases htarget with ⟨place, hplace, rfl⟩ | ⟨l, n, hmissing, -⟩
        · obtain rfl := Except.ok.inj (hplace.symm.trans hdir)
          rfl
        · cases hmissing.symm.trans hfollow
      have hlook := hcomplete [] _ hcontent
      rw [List.append_nil, hdirGone] at hlook
      cases hlook

end FilePath

end RsIo
