import RsIo.FileCopy

/-!
# What a Copy Adds

A copy without the `overwrite` flag only adds to the tree. When it returns, and nothing was
lost without an error, all the data at the source is at the destination. The recursion is
followed with one statement for all depths.

## Main results

* `FilePath.copyTo_spec`: what `copy_to` adds, and that it is complete.
-/

namespace RsIo

open FileTree (Place SameOn)

/-- A node as `Path` reads it, which makes the target of a link canonical. -/
def asRead : Entry Bytes Bytes → Entry Bytes Bytes
  | .link target => .link (FilePath.canonical target)
  | e => e

/-- The data at `l` in `t` is at `d` in `t'`, complete. -/
def Complete (t t' : Tree) (l d : Loc) : Prop :=
  ∀ r e, t.look (l ++ r) = some e → (t'.look (d ++ r)).map asRead = some (asRead e)

namespace Complete

variable {t t' t'' : Tree} {l d : Loc}

/-- What is copied stays copied in a larger tree. -/
theorem grow (h : Complete t t' l d) (hext : t''.Extends t') : Complete t t'' l d := by
  intro r e hl
  obtain ⟨e', he', hsame⟩ := Option.map_eq_some_iff.mp (h r e hl)
  rw [hext _ _ he', Option.map_some, hsame]

/-- A node that is no directory is all of its data. -/
theorem of_leaf {e e' : Entry Bytes Bytes} (hl : t.look l = some e) (he : e ≠ .dir)
    (hd : t'.look d = some e') (hsame : asRead e' = asRead e) : Complete t t' l d := by
  intro r e₁ hr
  rcases eq_or_ne r [] with rfl | hne
  · rw [List.append_nil, hl] at hr
    rw [List.append_nil, hd, Option.map_some, hsame, Option.some.inj hr]
  · have hdir := t.look_isPrefix (List.prefix_append l r) (by simpa using hne) (by simp [hr])
    exact absurd (Option.some.inj (hl.symm.trans hdir)) he

end Complete

namespace FilePath

variable {w w₀ : World} {src dst : FilePath} {l : Loc} {n : Bytes}

/-! ### Files -/

/-- A new file is written again. -/
private theorem write_adds {c c' : Bytes} (h : w₀.Adds l n (.file c) w)
    (hfile : ∃ c', w.tree.look (l ++ [n]) = some (.file c')) :
    w₀.Adds l n (.file c') { w with tree := w.tree.write (l ++ [n]) c' hfile } :=
  { dir := h.dir
    new := h.new
    look := FileTree.look_write hfile
    others := fun k hk => (FileTree.look_write_of_ne hfile hk).trans (h.others k hk)
    names := h.names
    cwd := h.cwd
    lossless := h.lossless }

/-- Closing the new file may lose some of it. -/
theorem closeFile_spec {c : Bytes} (h : w₀.Adds l n (.file c) w) :
    (closeFile (l ++ [n])).Ensures w fun r w' =>
      r = .ok () ∧ ∃ c', w₀.Adds l n (.file c') w' ∧ (w₀.Lossless → c' = c) := by
  refine nextLoss_ensures fun loss w₁ hlike hloss => ?_
  have hadds : w₀.Adds l n (.file c) w₁ := h.like hlike
  cases loss with
  | none => exact .ret ⟨rfl, c, hadds, fun _ => rfl⟩
  | some kept =>
      refine .step ⟨rfl, ?_⟩
      split
      next content hcontent =>
        exact ⟨_, write_adds hadds ⟨content, hcontent⟩, fun hlossless =>
          absurd (hloss (h.lossless hlossless)) (by simp)⟩
      next hnot => exact absurd hadds.look (hnot c)

/-- A block is written behind what was written before. -/
theorem writeBlock_spec {written block : Bytes} (h : w₀.Adds l n (.file written) w) :
    (writeBlock dst (l ++ [n]) written block).Ensures w fun r w' =>
      ∃ c', w₀.Adds l n (.file c') w' ∧ (r = .ok () → c' = written ++ block) := by
  refine .ite (fun hempty => .ret ⟨written, h, fun _ => by rw [hempty, List.append_nil]⟩)
    fun _ => nextFault_ensures fun fault w₁ hlike _ => ?_
  have hadds := h.like hlike
  cases fault with
  | some err => exact .throw ⟨written, hadds, by simp⟩
  | none =>
      refine .step ⟨written ++ block, ?_, fun _ => rfl⟩
      split
      next old hold => exact write_adds hadds ⟨old, hold⟩
      next hnot => exact absurd hadds.look (hnot written)

/-- All blocks are written behind what was written before. -/
theorem copyBlocks_spec {written content : Bytes} (h : w₀.Adds l n (.file written) w) :
    (copyBlocks src dst (l ++ [n]) written content).Ensures w fun r w' =>
      ∃ c', w₀.Adds l n (.file c') w' ∧ (r = .ok () → c' = written ++ content) := by
  induction hlen : content.length using Nat.strong_induction_on generalizing written content w with
  | _ len ih =>
    rw [copyBlocks]
    refine nextFault_ensures fun fault w₁ hlike _ => ?_
    cases fault with
    | some err => exact .throw ⟨written, h.like hlike, by simp⟩
    | none =>
        refine .bind ((writeBlock_spec (h.like hlike)).mono fun r w₂ ⟨c', hadds, hc'⟩ => ?_)
        cases r with
        | error err => exact ⟨c', hadds, by simp⟩
        | ok u =>
            obtain rfl := hc' rfl
            change Prog.Ensures (dite _ _ _) w₂ _
            split
            next hlast =>
              refine .ret ⟨_, hadds, fun _ => ?_⟩
              rw [List.length_take] at hlast
              rw [List.take_of_length_le (by omega)]
            next hfull =>
              have hpos : 0 < blockSize := by decide
              rw [List.length_take] at hfull
              refine (ih _ ?_ hadds rfl).mono fun r w' ⟨c', hadds', hc'⟩ =>
                ⟨c', hadds', fun hr => ?_⟩
              · rw [List.length_drop]
                omega
              · rw [hc' hr, List.append_assoc, List.take_append_drop]

/-- A file is copied to a new file, or nothing is changed. -/
theorem copyFile_spec (hnone : dst.doesExist w {} = false) :
    (copyFile src dst).Ensures w fun r w' =>
      (r ≠ .ok () ∧ w.Like w') ∨
        ∃ l n c', w.resolve true dst = .ok (.missing l n) ∧ w.Adds l n (.file c') w' ∧
          (r = .ok () → w.Lossless → ∃ s, w.resolve true src = .ok (.found s) ∧
            w.tree.look s = some (.file c')) := by
  refine sysCall_ensures (fun err w₁ hlike _ => ?_) fun t content w₁ hlike hact => ?_
  · exact .bind (.throw (.inl ⟨by simp, hlike⟩))
  obtain ⟨rfl, s, hs, hcontent⟩ := World.openRead_eq_ok hact
  refine .bind (.ret (sysCall_ensures (fun err w₂ hlike' _ => ?_) fun t out w₂ hlike' hact' => ?_))
  · exact .bind (.throw (.inl ⟨by simp, hlike.trans hlike'⟩))
  replace hlike' : w.Like w₂ := hlike.trans hlike'
  have hmissing : ∀ k, w₂.resolve true dst ≠ .ok (.found k) := by
    intro k hk
    rw [hlike'.resolve_eq] at hk
    rw [doesExist_eq_true.mpr ⟨k, hk⟩] at hnone
    cases hnone
  obtain ⟨l, n, hdir, hnew, hplace, rfl, rfl⟩ := World.openWrite_eq_ok hmissing hact'
  rw [hlike'.resolve_eq] at hplace
  rw [hlike.resolve_eq] at hs
  rw [hlike.tree] at hcontent
  have hadds := World.Adds.of_like hlike' (.of_insert (e := .file []) hdir hnew)
  refine .bind (.ret (.bind (.tryCatch ((copyBlocks_spec hadds).mono ?_))))
  rintro r w₃ ⟨c', hadds', hc'⟩
  cases r with
  | error err =>
      -- the file is closed, and the error thrown again
      refine .bind ((closeFile_spec hadds').mono fun r w₄ ⟨hr, c'', hadds'', _⟩ => ?_)
      subst hr
      exact .throw (.inr ⟨l, n, c'', hplace, hadds'', by simp⟩)
  | ok u =>
      refine (closeFile_spec hadds').mono fun r w₄ ⟨_, c'', hadds'', hc''⟩ =>
        .inr ⟨l, n, c'', hplace, hadds'', fun _ hlossless => ⟨s, hs, ?_⟩⟩
      rw [hcontent, hc'' hlossless, hc' rfl, List.nil_append]

/-! ### Links -/

/-- A path without dots is canonical. -/
theorem canonical_of_kept {p : FilePath} (h : ∀ e ∈ p.elements, isKept e = true) :
    canonical p = p := by
  unfold canonical
  split
  next es _ hes =>
    have hself := h .self (hes ▸ List.mem_cons_self)
    cases hself
  next => rw [List.filter_eq_self.mpr h]

/-- A canonical path stays as it is. -/
theorem canonical_idem (p : FilePath) : canonical (canonical p) = canonical p := by
  have hcases : (∃ es, canonical p = ⟨false, .self :: List.filter isKept es⟩) ∨
      canonical p = { p with elements := p.elements.filter isKept } := by
    unfold canonical
    split
    next es habs _ => exact .inl ⟨es, by rw [habs]⟩
    next => exact .inr rfl
  rcases hcases with ⟨es, hes⟩ | hkept
  · rw [hes]
    simp [canonical]
  · rw [hkept]
    exact canonical_of_kept fun e he => (List.mem_filter.mp he).2

/-- The target of a link, as `Path` reads it. -/
theorem resolveSymlink_spec {p target : FilePath} (hp : w.resolve false p = .ok (.found l))
    (hl : w.tree.look l = some (.link target)) :
    p.resolveSymlink.Ensures w fun r w' =>
      w.Like w' ∧ ∀ q, r = .ok q → q = canonical target := by
  refine nextFault_ensures fun fault w₁ hlike _ => .get_bind ?_
  have hstat : w₁.getStat p { noFollow := true } = some (l, .link target) := by
    rw [hlike.getStat_eq]
    exact World.getStat_eq_some.mpr ⟨hp, hl⟩
  simp only [hstat]
  cases fault with
  | some err => exact .throw ⟨hlike, by simp⟩
  | none => exact .ret ⟨hlike, fun q hq => (Except.ok.inj hq).symm⟩

/-- A link is made where there is nothing, unless it is there already. -/
theorem makeSymlink_spec {copy : FilePath → FilePath → PathFlags → FsProg Unit} {depth : ℕ}
    {p linkname : FilePath} : (makeSymlink copy depth p linkname {}).Ensures w fun r w' =>
      match r with
      | .error _ => w.Like w'
      | .ok _ =>
          (w.Like w' ∧ ∃ l target, w.resolve false linkname = .ok (.found l) ∧
            w.tree.look l = some (.link target) ∧ canonical target = p) ∨
          ∃ l n, w.resolve false linkname = .ok (.missing l n) ∧ w.Adds l n (.link p) w' := by
  have hnew : ∀ w₁, w.Like w₁ → (makeNewSymlink copy depth p linkname {}).Ensures w₁
      fun r w' =>
        match r with
        | .error _ => w.Like w'
        | .ok _ =>
            (w.Like w' ∧ ∃ l target, w.resolve false linkname = .ok (.found l) ∧
              w.tree.look l = some (.link target) ∧ canonical target = p) ∨
            ∃ l n, w.resolve false linkname = .ok (.missing l n) ∧ w.Adds l n (.link p) w' := by
    intro w₁ hlike
    refine .get_bind (.ite (fun h => by cases h) fun _ => ?_)
    refine create_ensures hlike (fun err w₂ hlike' => ?_) fun w' l n hp hadds =>
      .ret (.inr ⟨l, n, hp, hadds⟩)
    exact .ite (fun _ => .throw hlike') fun h => absurd rfl h
  refine .get_bind (.ite (fun hlink => ?_) fun _ => hnew w (.refl w))
  obtain ⟨l, target, hl, htarget⟩ := isSymlink_eq_true.mp hlink
  refine .bind (.tryCatch (.bind ((resolveSymlink_spec hl htarget).mono ?_)))
  rintro r w₁ ⟨hlike, hq⟩
  cases r with
  | error err => exact .ret (.ite (fun h => by cases h) fun _ => hnew w₁ hlike)
  | ok q =>
      obtain rfl := hq q rfl
      refine .ret (.ite (fun hthere => .ret (.inl ⟨hlike, l, target, hl, htarget, ?_⟩)) fun _ =>
        hnew w₁ hlike)
      exact of_decide_eq_true hthere

/-! ### Copying -/

/-- Where a new file at a path would be: at the place the path names, or, if that is a link
that leads to nothing, at the place where the link leads. -/
def Target (w : World) (p : FilePath) (d : Loc) : Prop :=
  (∃ place, w.resolve false p = .ok place ∧ place.loc = d) ∨
    ∃ l n, w.resolve true p = .ok (.missing l n) ∧ l ++ [n] = d

/-- What a copy has done: it only adds to the tree, and only at its destination and below,
if that is no link. If it returns and nothing was lost, all the data at the source is at
the destination, which is not below the source. -/
structure Copied (w : World) (src dst : FilePath) (r : Except SystemError Unit) (w' : World) :
    Prop where
  grows : w.Grows w'
  outside : dst.isSymlink w = false → SameOn (w.Outside dst) w.tree w'.tree
  complete : r = .ok () → w.Lossless → ∀ s, w.resolve false src = .ok (.found s) →
    (∀ place, w.resolve false dst = .ok place → place.loc ≠ s) →
    ∃ d, Target w dst d ∧ ¬ s <+: d ∧ Complete w.tree w'.tree s d

namespace Copied

variable {w' w₁ : World} {r : Except SystemError Unit}

/-- A call that only failed. -/
theorem of_error {err : SystemError} (h : w.Like w') : Copied w src dst (.error err) w' where
  grows := h.grows
  outside _ := by rw [h.tree]; exact .refl _
  complete := by simp

/-- Something may be used up before the file is copied. -/
theorem of_like (h : w.Like w₁) (hcopied : Copied w₁ src dst r w') : Copied w src dst r w' where
  grows := h.grows.trans hcopied.grows
  outside hlink := by
    have houtside := hcopied.outside (by rwa [isSymlink, h.getStat_eq])
    rw [h.tree] at houtside
    refine houtside.mono fun k hk place hplace => hk place ?_
    rwa [← h.resolve_eq]
  complete hr hlossless s hs hne := by
    have hcomplete := hcopied.complete hr (h.lossless hlossless) s
    simp only [Target, h.resolve_eq, h.tree] at hcomplete
    exact hcomplete hs hne

end Copied

/-- A missing file is no link. -/
theorem isSymlink_of_missing {p : FilePath} (h : w.resolve false p = .ok (.missing l n)) :
    p.isSymlink w = false := by
  rw [Bool.eq_false_iff, ne_eq, isSymlink_eq_true]
  rintro ⟨k, target, hk, -⟩
  rw [h] at hk
  cases hk

/-- A copied link. -/
theorem copyLink_spec {copy : FilePath → FilePath → PathFlags → FsProg Unit} {depth : ℕ}
    {s : Loc} {target : FilePath} (hs : w.resolve false src = .ok (.found s))
    (htarget : w.tree.look s = some (.link target)) :
    (makeSymlink copy depth (canonical target) dst {}).Ensures w (Copied w src dst) := by
  refine makeSymlink_spec.mono fun r w' hr => ?_
  have hleaf : ∀ {place}, w.resolve false dst = .ok place →
      (∀ place, w.resolve false dst = .ok place → place.loc ≠ s) → ¬ s <+: place.loc :=
    fun hplace hne => (World.resolve_in hplace).not_below htarget (by simp) (hne _ hplace)
  have hunique : ∀ s', w.resolve false src = .ok (.found s') → s' = s := fun s' hs' =>
    Place.found.inj (Except.ok.inj (hs'.symm.trans hs))
  cases r with
  | error err => exact .of_error hr
  | ok u =>
      rcases hr with ⟨hlike, d, target', hd, htarget', hsame⟩ | ⟨l, n, hp, hadds⟩
      · refine ⟨hlike.grows, fun _ => by rw [hlike.tree]; exact .refl _, ?_⟩
        intro _ _ s' hs' hne
        obtain rfl := hunique s' hs'
        have hd' : w'.tree.look d = some (.link target') := by rw [hlike.tree, htarget']
        refine ⟨d, .inl ⟨_, hd, rfl⟩, hleaf hd hne, .of_leaf htarget (by simp) hd' ?_⟩
        simp [asRead, hsame]
      · refine ⟨hadds.grows, fun _ k hk => hadds.others k ?_, ?_⟩
        · rintro rfl
          exact hk _ hp List.prefix_rfl
        · intro _ _ s' hs' hne
          obtain rfl := hunique s' hs'
          refine ⟨_, .inl ⟨_, hp, rfl⟩, hleaf hp hne, .of_leaf htarget (by simp) hadds.look ?_⟩
          simp [asRead, canonical_idem]

/-- A copied file. -/
theorem copyContent_spec (hlink : src.isSymlink w = false) (hnone : dst.doesExist w {} = false) :
    (copyFile src dst).Ensures w (Copied w src dst) := by
  refine (copyFile_spec hnone).mono fun r w' hr => ?_
  rcases hr with ⟨hr, hlike⟩ | ⟨l, n, c', hp, hadds, hcontent⟩
  · cases r with
    | error err => exact .of_error hlike
    | ok u => exact absurd rfl hr
  · refine ⟨hadds.grows, fun hdst k hk => hadds.others k ?_, fun hr hlossless s hs _ => ?_⟩
    · rintro rfl
      exact hk _ (resolve_of_not_link hdst hp) List.prefix_rfl
    · obtain ⟨s', hs', hfile⟩ := hcontent hr hlossless
      have hsame := hs.symm.trans (resolve_of_not_link hlink hs')
      obtain rfl := Place.found.inj (Except.ok.inj hsame)
      have hne : l ++ [n] ≠ s := by
        rintro rfl
        rw [hadds.new] at hfile
        cases hfile
      refine ⟨l ++ [n], .inr ⟨l, n, hp, rfl⟩,
        (World.resolve_in hp).not_below hfile (by simp) hne, ?_⟩
      exact .of_leaf hfile (by simp) hadds.look rfl

section Directory

variable {w₁ : World} {s : Loc} {copy : FilePath → FilePath → PathFlags → FsProg Unit}

/-- Where an entry of the source is, and where it is copied to, while the directory at the
destination fills. -/
theorem child_places (hs : w.resolve true src = .ok (.found s)) (hdir : w.tree.look s = some .dir)
    (hp : w.resolve false dst = .ok (.missing l n)) (hadds : w.Adds l n .dir w₁) {w' : World}
    (hgrows : w₁.Grows w') {m : Bytes} (hm : w₁.tree.look (s ++ [m]) ≠ none)
    (hnew : w'.tree.look (l ++ [n] ++ [m]) = none) :
    w'.resolve false (src.descend [m]) = .ok (.found (s ++ [m])) ∧
      w'.resolve false (dst.descend [m]) = .ok (.missing (l ++ [n]) m) := by
  have hall := hadds.grows.trans hgrows
  have hd := World.resolve_follow (hadds.found hp) (by simp [hadds.look])
  have hfound := World.resolve_child (hall.resolve_mono hs) (hall.added _ _ hdir) m
  obtain ⟨e, he⟩ := Option.ne_none_iff_exists'.mp hm
  rw [if_neg (by rw [hgrows.added _ _ he]; simp)] at hfound
  have hmissing := World.resolve_child (hgrows.resolve_mono hd) (hgrows.added _ _ hadds.look) m
  rw [if_pos hnew] at hmissing
  exact ⟨hfound, hmissing⟩

/-- What has been copied of a directory, after the entries in `done` of those in `ns`. -/
structure Partly (w w₁ : World) (s d : Loc) (ns done : List Bytes) (w' : World) : Prop where
  grows : w₁.Grows w'
  outside : SameOn (fun k => ¬ d <+: k) w₁.tree w'.tree
  toDo : ∀ m ∈ ns, m ∉ done → w'.tree.look (d ++ [m]) = none
  complete : w.Lossless → d ≠ s → ∀ m ∈ done,
    ¬ s ++ [m] <+: d ++ [m] ∧ Complete w.tree w'.tree (s ++ [m]) (d ++ [m])

namespace Partly

variable {w' w'' : World} {d : Loc} {ns done : List Bytes} {m : Bytes}
  {r : Except SystemError Unit}

/-- An empty directory is a copy of no entries. -/
theorem start (hadds : w.Adds l n .dir w₁) (hlike : w₁.Like w') :
    Partly w w₁ s (l ++ [n]) ns [] w' where
  grows := hlike.grows
  outside := by rw [hlike.tree]; exact .refl _
  toDo m _ _ := by rw [hlike.tree]; exact hadds.look_below m
  complete _ _ _ hm := by cases hm

/-- Whatever becomes of one entry, the other nodes stay as they are. -/
theorem outside_step (hmissing : w'.resolve false (dst.descend [m]) = .ok (.missing d m))
    (hcopied : Copied w' (src.descend [m]) (dst.descend [m]) r w'') :
    SameOn (fun k => ¬ d ++ [m] <+: k) w'.tree w''.tree := by
  refine (hcopied.outside (isSymlink_of_missing hmissing)).mono fun k hk place hplace => ?_
  rw [hmissing] at hplace
  obtain rfl := Except.ok.inj hplace
  exact hk

/-- A copied entry is complete. -/
theorem complete_step (hmissing : w'.resolve false (dst.descend [m]) = .ok (.missing d m))
    (hfound : w'.resolve false (src.descend [m]) = .ok (.found (s ++ [m]))) (hds : d ≠ s)
    (hlossless : w'.Lossless)
    (hcopied : Copied w' (src.descend [m]) (dst.descend [m]) (.ok ()) w'') :
    ¬ s ++ [m] <+: d ++ [m] ∧ Complete w'.tree w''.tree (s ++ [m]) (d ++ [m]) := by
  have hloc : ∀ place, w'.resolve false (dst.descend [m]) = .ok place →
      place.loc = d ++ [m] := by
    intro place hplace
    rw [hmissing] at hplace
    obtain rfl := Except.ok.inj hplace
    rfl
  obtain ⟨d', htarget, hnotBelow, hcomplete⟩ :=
    hcopied.complete rfl hlossless _ hfound fun place hplace heq =>
      hds (List.append_inj' ((hloc place hplace).symm.trans heq) rfl).1
  obtain rfl : d' = d ++ [m] := by
    rcases htarget with ⟨place, hplace, rfl⟩ | ⟨l, n, hp, rfl⟩
    · exact hloc place hplace
    · exact hloc _ (resolve_of_not_link (isSymlink_of_missing hmissing) hp)
  exact ⟨hnotBelow, hcomplete⟩

/-- One more entry is copied. -/
theorem step (h : Partly w w₁ s d ns done w') (hadds : w.Grows w₁)
    (hmissing : w'.resolve false (dst.descend [m]) = .ok (.missing d m))
    (hfound : w'.resolve false (src.descend [m]) = .ok (.found (s ++ [m])))
    (hcopied : Copied w' (src.descend [m]) (dst.descend [m]) (.ok ()) w'') :
    Partly w w₁ s d ns (done ++ [m]) w'' := by
  have hsame := outside_step hmissing hcopied
  refine ⟨h.grows.trans hcopied.grows, fun k hk => ?_, fun m' hm' hnot' => ?_, ?_⟩
  · rw [hsame k fun hbelow => hk ((List.prefix_append _ _).trans hbelow), h.outside k hk]
  · have hne : m' ∉ done ∧ m' ≠ m := by simpa using hnot'
    rw [hsame _ fun hbelow => ?_]
    · exact h.toDo m' hm' hne.1
    · have heq := List.append_cancel_left (hbelow.eq_of_length (by simp))
      exact hne.2 (List.cons.inj heq).1.symm
  · intro hlossless hds m' hm'
    rcases List.mem_append.mp hm' with hdone | hlast
    · obtain ⟨hnotBelow, hcomplete⟩ := h.complete hlossless hds m' hdone
      exact ⟨hnotBelow, hcomplete.grow hcopied.grows.added⟩
    · obtain rfl := List.mem_singleton.mp hlast
      have hgrows := hadds.trans h.grows
      obtain ⟨hnotBelow, hcomplete⟩ :=
        complete_step hmissing hfound hds (hgrows.lossless hlossless) hcopied
      exact ⟨hnotBelow, fun r e hr => hcomplete r e (hgrows.added _ _ hr)⟩

/-- Whatever has become of the entries, it is part of the copy. -/
theorem copied_error {err : SystemError} (h : Partly w w₁ s (l ++ [n]) ns done w')
    (hp : w.resolve false dst = .ok (.missing l n)) (hadds : w.Adds l n .dir w₁)
    (hgrows : w'.Grows w'') (hsame : SameOn (fun k => ¬ l ++ [n] <+: k) w'.tree w''.tree) :
    Copied w src dst (.error err) w'' where
  grows := hadds.grows.trans (h.grows.trans hgrows)
  outside _ k hk := by
    have hbelow : ¬ l ++ [n] <+: k := hk _ hp
    rw [hsame k hbelow, h.outside k hbelow, hadds.others]
    rintro rfl
    exact hbelow List.prefix_rfl
  complete := by simp

/-- When all the entries are copied, the directory is. -/
theorem copied (h : Partly w w₁ s (l ++ [n]) ns ns w')
    (hs : w.resolve false src = .ok (.found s)) (hdir : w.tree.look s = some .dir)
    (hp : w.resolve false dst = .ok (.missing l n)) (hadds : w.Adds l n .dir w₁)
    (hns : w₁.Lossless → ns = w₁.tree.names s) : Copied w src dst (.ok ()) w' where
  grows := hadds.grows.trans h.grows
  outside _ k hk := by
    have hbelow : ¬ l ++ [n] <+: k := hk _ hp
    rw [h.outside k hbelow, hadds.others]
    rintro rfl
    exact hbelow List.prefix_rfl
  complete _ hlossless s' hs' hne := by
    obtain rfl : s' = s := Place.found.inj (Except.ok.inj (hs'.symm.trans hs))
    have hds : l ++ [n] ≠ s' := hne _ hp
    have hall : ∀ m, w₁.tree.look (s' ++ [m]) ≠ none →
        ¬ s' ++ [m] <+: l ++ [n] ++ [m] ∧
          Complete w.tree w'.tree (s' ++ [m]) (l ++ [n] ++ [m]) := by
      intro m hm
      refine h.complete hlossless hds m ?_
      rw [hns (hadds.lossless hlossless)]
      exact (w₁.tree.listed s' m).mpr hm
    refine ⟨l ++ [n], .inl ⟨_, hp, rfl⟩, ?_, ?_⟩
    · -- the entry of the source on the way to the destination is copied to below itself
      rintro ⟨r, hr⟩
      cases r with
      | nil => exact hds (by rw [← hr, List.append_nil])
      | cons m r =>
          have hway : s' ++ [m] <+: l ++ [n] := ⟨r, by rw [← hr]; simp⟩
          refine (hall m ?_).1 (hway.trans (List.prefix_append _ _))
          rcases eq_or_ne (s' ++ [m]) (l ++ [n]) with heq | hne'
          · rw [heq, hadds.look]
            simp
          · rw [w₁.tree.look_isPrefix hway hne' (by rw [hadds.look]; simp)]
            simp
    · intro r e hr
      cases r with
      | nil =>
          rw [List.append_nil, hdir] at hr
          obtain rfl := Option.some.inj hr
          rw [List.append_nil, h.grows.added _ _ hadds.look]
          rfl
      | cons m r =>
          have hm : w₁.tree.look (s' ++ [m]) ≠ none := by
            rcases eq_or_ne r [] with rfl | hrne
            · rw [hadds.grows.added _ _ hr]
              simp
            · have hway : s' ++ [m] <+: s' ++ m :: r := ⟨r, by simp⟩
              have hdir' := w.tree.look_isPrefix hway (by simpa using hrne.symm) (by simp [hr])
              rw [hadds.grows.added _ _ hdir']
              simp
          have hcomplete := (hall m hm).2 r e (by simpa using hr)
          simpa using hcomplete

end Partly

/-- The path of an entry in the other directory. -/
theorem join_leaf (p : FilePath) (m : Bytes) : dst.join (p.descend [m]).leaf = dst.descend [m] := by
  have hleaf : (p.descend [m]).leaf = ⟨false, [.name m]⟩ := by simp [leaf, descend]
  rw [hleaf, join_name]

/-- A copied directory, from the first entry to the last. `w` is the world before the
directory was made at the destination, and `w₁` the one after. -/
theorem copyChildren_spec
    (hcopy : ∀ src dst w, (copy src dst { recurse := true }).Ensures w (Copied w src dst))
    (hs : w.resolve false src = .ok (.found s)) (hdir : w.tree.look s = some .dir)
    (hp : w.resolve false dst = .ok (.missing l n)) (hadds : w.Adds l n .dir w₁) :
    (src.directory >>= fun children => children.forM fun child =>
      copy child (dst.join child.leaf) { recurse := true }).Ensures w₁ (Copied w src dst) := by
  have hfollow := World.resolve_follow hs (by simp [hdir])
  have hstat : w₁.getStat src {} = some (s, .dir) :=
    World.getStat_eq_some.mpr ⟨hadds.grows.resolve_mono hfollow, hadds.grows.added _ _ hdir⟩
  refine directory_ensures hstat fun ns w₂ hlike hsub hns => ?_
  refine .forM_map (Partly w w₁ s (l ++ [n]) ns) ns (.start hadds hlike) ?_ fun w' h =>
    h.copied hs hdir hp hadds hns
  intro done m rest w' hsplit h
  have hm : m ∈ ns := by simp [hsplit]
  have hnot : m ∉ done := w₁.tree.next_not_done hsub hsplit
  obtain ⟨hfound, hmissing⟩ := child_places hfollow hdir hp hadds h.grows
    ((w₁.tree.listed s m).mp (hsub.subset hm)) (h.toDo m hm hnot)
  rw [join_leaf]
  refine (hcopy _ _ w').mono fun r w'' hcopied => ?_
  cases r with
  | ok u => exact h.step hadds.grows hmissing hfound hcopied
  | error err =>
      exact h.copied_error hp hadds hcopied.grows
        ((Partly.outside_step hmissing hcopied).mono fun k hk hbelow =>
          hk ((List.prefix_append _ _).trans hbelow))

end Directory

/-- The part of `copy_to` after its checks, with nothing in the way. -/
theorem copyEntry_spec {copy : FilePath → FilePath → PathFlags → FsProg Unit} {depth : ℕ}
    (hcopy : ∀ src dst w, (copy src dst { recurse := true }).Ensures w (Copied w src dst))
    (hnone : dst.doesExist w {} = false) :
    (copyEntry copy depth src dst).Ensures w (Copied w src dst) := by
  refine .get_bind (.ite (fun hlink => ?_) fun hlink => .ite (fun hdir => ?_) fun _ => ?_)
  · obtain ⟨s, target, hs, htarget⟩ := isSymlink_eq_true.mp hlink
    refine .bind ((resolveSymlink_spec hs htarget).mono fun r w₁ ⟨hlike, hq⟩ => ?_)
    cases r with
    | error err => exact .of_error hlike
    | ok q =>
        obtain rfl := hq q rfl
        rw [← hlike.resolve_eq] at hs
        rw [← hlike.tree] at htarget
        exact (copyLink_spec hs htarget).mono fun r w' h => .of_like hlike h
  · rw [Bool.not_eq_true] at hlink
    obtain ⟨s, hstat⟩ := isDirectory_eq_true.mp hdir
    obtain ⟨hfollow, hs⟩ := World.getStat_eq_some.mp hstat
    refine .bind ((makeDirectory_spec hnone).mono fun r w₁ h => ?_)
    cases r with
    | error err => exact .of_error h
    | ok u =>
        obtain ⟨l, n, hp, hadds⟩ := h
        exact copyChildren_spec hcopy (resolve_of_not_link hlink hfollow) hs hp hadds
  · exact copyContent_spec (by rwa [Bool.not_eq_true] at hlink) hnone

/-- A copy that overwrites nothing adds to the tree, and is complete if it returns and
nothing was lost. -/
theorem copyTo_spec {depth : ℕ} {flags : PathFlags} (hflags : flags.overwrite = false) :
    (copyTo depth src dst flags).Ensures w (Copied w src dst) := by
  induction depth generalizing src dst flags w with
  | zero => exact .diverge
  | succ depth ih =>
      have herror : ∀ err, Copied w src dst (.error err) w := fun err => .of_error (.refl w)
      refine .get_bind (.ite (fun _ => .throw (herror _)) fun _ => .ite (fun _ =>
        .throw (herror _)) fun _ => .ite (fun _ => .throw (herror _)) fun _ => .ite (fun _ => ?_)
          fun hnone => ?_)
      · exact .bind (.ite (fun _ => .throw (herror _)) fun h => absurd hflags h)
      · exact copyEntry_spec (fun src dst w => ih rfl) (by rwa [Bool.not_eq_true] at hnone)

end FilePath

end RsIo
