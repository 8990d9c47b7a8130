import RsIo.FileFrame

/-!
# Removing When Nothing Fails

If no call fails, `remove()` takes away everything at and below its path. What is removed
must be of finite depth. A path that leads through what is removed leads to nothing before
all of it is gone, and the calls that follow find nothing to remove.

## Main results

* `FilePath.remove_clears`: the run of `remove()`, with the number of its calls, if the path
  does not lead through what is removed.
* `FilePath.remove_recurse`: `remove()` returns, and its path leads to nothing, whatever it
  led through.
-/

namespace RsIo

open FileTree (Place SameOn)

/-- What is below `l`. -/
def Below (l k : Loc) : Prop :=
  l <+: k ∧ k ≠ l

/-- A path leads to `l`, also if what is below `l` changes. -/
def Steady (w : World) (p : FilePath) (l : Loc) : Prop :=
  ∀ t : Tree, SameOn (fun k => ¬ Below l k) w.tree t →
    ({ w with tree := t } : World).resolve false p = .ok (.found l)

/-- A path that goes straight down from the root, through no links, is steady. -/
theorem steady_of_names {w : World} {l : Loc} (hl : w.tree.look l ≠ none) :
    Steady w ⟨true, l.map .name⟩ l := by
  intro t hsame
  have hthere : t.look l ≠ none := by rwa [hsame l fun h => h.2 rfl]
  exact World.resolve_eq_ok.mpr ⟨by simp, FileTree.walk_names t.root hthere⟩

/-- Everything at and below `l` is taken away, but for the root. -/
structure Cleared (t t' : Tree) (l : Loc) : Prop where
  below : ∀ n r, t'.look (l ++ n :: r) = none
  self : l ≠ [] → t'.look l = none
  same : SameOn (fun k => ¬ l <+: k) t t'

/-- Nothing is left below. -/
theorem Cleared.look_eq_none {t t' : Tree} {l k : Loc} (h : Cleared t t' l) (hl : l ≠ [])
    (hk : l <+: k) : t'.look k = none := by
  obtain ⟨r, rfl⟩ := hk
  cases r with
  | nil =>
      rw [List.append_nil]
      exact h.self hl
  | cons n r => exact h.below n r

/-- A tree that was cleared is smaller. -/
theorem Cleared.extends {t t' : Tree} {l : Loc} (h : Cleared t t' l) (hl : l ≠ []) :
    t.Extends t' := by
  intro k e hk
  rw [← hk, h.same]
  intro hbelow
  rw [h.look_eq_none hl hbelow] at hk
  cases hk

namespace World

variable {w : World} {t t' : Tree} {k : ℕ} {faults : List (Option ℕ)}

/-- A world with another tree, in which the next `k` calls do not fail, and those after them
fail as `faults` says. -/
def calm (w : World) (t : Tree) (k : ℕ) (faults : List (Option ℕ)) : World :=
  { tree := t, cwd := w.cwd, faults := List.replicate k none ++ faults, losses := [] }

/-- Calls without an error, counted or listed. -/
theorem calm_zero (m : ℕ) :
    w.calm t 0 (List.replicate m none ++ faults) = w.calm t m faults := by
  simp [calm]

/-- More calls without an error. -/
theorem calm_add (m : ℕ) :
    w.calm t (k + m) faults = w.calm t k (List.replicate m none ++ faults) := by
  rw [calm, calm, List.replicate_add, List.append_assoc]

end World

section Calls

variable {α : Type} {w : World} {t t' : Tree} {k : ℕ} {faults : List (Option ℕ)}
  {act : World → Except ℕ (Tree × α)} {p : FilePath} {l : Loc}

/-- The next call has no error. -/
theorem nextFault_calm :
    nextFault (w.calm t (k + 1) faults) = some (.ok none, w.calm t k faults) := rfl

/-- Such a call does what it is made for. -/
theorem sysCall_calm_ok {a : α} (h : act (w.calm t k faults) = .ok (t', a)) :
    sysCall act (w.calm t (k + 1) faults) = some (.ok (.ok a), w.calm t' k faults) := by
  rw [sysCall, Prog.bind_of_ok nextFault_calm]
  simp only [Prog.step, h]
  rfl

/-- Such a call fails only by itself. -/
theorem sysCall_calm_error {err : ℕ} (h : act (w.calm t k faults) = .error err) :
    sysCall act (w.calm t (k + 1) faults) = some (.ok (.error err), w.calm t k faults) := by
  rw [sysCall, Prog.bind_of_ok nextFault_calm]
  simp only [Prog.step, h]

/-- A directory is listed whole. -/
theorem directory_calm (hdir : (w.calm t k faults).getStat p {} = some (l, .dir)) :
    p.directory (w.calm t k faults) =
      some (.ok ((t.names l).map fun n => p.descend [n]), w.calm t k faults) := by
  have hp : ¬ (p.isAbsolute = false ∧ p.elements = []) :=
    (World.resolve_eq_ok.mp (World.getStat_eq_some.mp hdir).1).1
  have hloss : nextLoss (w.calm t k faults) = some (.ok none, w.calm t k faults) := rfl
  have hlist : ∀ n, p.join (FilePath.ofName n) = p.descend [n] := FilePath.join_name p
  rw [FilePath.directory, Prog.bind_of_ok hloss, Prog.get_bind]
  simp only [if_neg hp, hdir, hlist, Option.getD_none, List.take_length]
  rfl

end Calls

namespace FilePath

variable {w : World} {t : Tree} {p : FilePath} {l : Loc} {depth : ℕ}

/-- The run of the last call of `remove()`. -/
theorem removeEntry_clears (hdots : World.endsInDots p = false)
    (hp : ({ w with tree := t } : World).resolve false p = .ok (.found l))
    (hempty : ∀ n, t.look (l ++ [n]) = none) :
    ∃ t', (l ≠ [] → t'.look l = none) ∧ SameOn (· ≠ l) t t' ∧
      ∀ faults, ∃ r, removeEntry p (w.calm t 1 faults) = some (r, w.calm t' 0 faults) ∧
        (l ≠ [] → r = .ok ()) := by
  have hleaf : t.names l = [] := List.eq_nil_iff_forall_not_mem.mpr fun n hn =>
    (t.listed l n).mp hn (hempty n)
  have hcalm : ∀ faults, (w.calm t 0 faults).resolve false p = .ok (.found l) := fun _ => hp
  rcases List.eq_nil_or_concat l with rfl | ⟨l, n, rfl⟩
  · refine ⟨t, by simp, .refl t, fun faults => ⟨.error ⟨eBusy, [p]⟩, ?_, by simp⟩⟩
    have hact : (w.calm t 0 faults).unlink p = .error eBusy := by
      unfold World.unlink
      rw [hcalm]
      exact if_neg (by simp [hdots])
    rw [removeEntry, Prog.bind_of_ok (sysCall_calm_error hact)]
    rfl
  · rw [List.concat_eq_append] at *
    refine ⟨t.erase l n hleaf, fun _ => FileTree.look_erase hleaf,
      fun k hk => FileTree.look_erase_of_ne hleaf hk, fun faults => ⟨.ok (), ?_, fun _ => rfl⟩⟩
    have hact : (w.calm t 0 faults).unlink p = .ok (t.erase l n hleaf, ()) := by
      unfold World.unlink
      rw [hcalm]
      simp only [hdots, Bool.false_eq_true, if_false, List.getLast?_append,
        List.getLast?_singleton, Option.some_or, List.dropLast_concat]
      exact dif_pos hleaf
    rw [removeEntry, Prog.bind_of_ok (sysCall_calm_ok hact)]
    rfl

/-- A path stays steady while what is below its place changes. -/
theorem steady_child (hp : Steady w p l) (hl : w.tree.look l = some .dir)
    (hsame : SameOn (fun k => ¬ Below l k) w.tree t) {n : Bytes}
    (hn : t.look (l ++ [n]) ≠ none) :
    Steady { w with tree := t } (p.descend [n]) (l ++ [n]) := by
  intro t' hsame'
  have hbelow : ∀ k, ¬ Below l k → ¬ Below (l ++ [n]) k := fun k hk hchild =>
    hk ⟨(List.prefix_append l [n]).trans hchild.1, by
      rintro rfl
      exact absurd hchild.1.length_le (by simp)⟩
  have hall : SameOn (fun k => ¬ Below l k) w.tree t' := hsame.trans (hsame'.mono hbelow)
  have hl' : t'.look l = some .dir := by rw [hall l fun h => h.2 rfl, hl]
  have hfollow := World.resolve_follow (hp t' hall) (by simp [hl'])
  have hchild := World.resolve_child hfollow hl' n
  have hn' : t'.look (l ++ [n]) ≠ none := by rwa [hsame' _ fun h => h.2 rfl]
  rwa [if_neg hn'] at hchild

/-- A path that goes down does not end in dots. -/
@[simp] theorem endsInDots_descend (n : Bytes) : World.endsInDots (p.descend [n]) = false := by
  simp [World.endsInDots, descend]

/-- The entries of a directory are removed, one after the other. -/
theorem children_clear (hp : Steady w p l) (hl : w.tree.look l = some .dir)
    (hchild : ∀ n t q, w.tree.look (l ++ [n]) ≠ none → World.endsInDots q = false →
      Steady { w with tree := t } q (l ++ [n]) → (∀ r, t.look (l ++ n :: r) =
        w.tree.look (l ++ n :: r)) → ∃ k t', Cleared t t' (l ++ [n]) ∧ ∀ faults,
          remove depth q { recurse := true } (w.calm t k faults) =
            some (.ok (), w.calm t' 0 faults))
    (rest : List Bytes) (hrest : ∀ n ∈ rest, w.tree.look (l ++ [n]) ≠ none) (hnodup : rest.Nodup)
    (hsame : SameOn (fun k => ¬ Below l k) w.tree t)
    (hto : ∀ n ∈ rest, ∀ r, t.look (l ++ n :: r) = w.tree.look (l ++ n :: r))
    (hdone : ∀ n, n ∉ rest → ∀ r, t.look (l ++ n :: r) = none) :
    ∃ k t', (∀ n r, t'.look (l ++ n :: r) = none) ∧
      SameOn (fun k => ¬ Below l k) w.tree t' ∧ ∀ faults,
        (rest.map fun n => p.descend [n]).forM
          (fun child => remove depth child { recurse := true }) (w.calm t k faults) =
            some (.ok (), w.calm t' 0 faults) := by
  induction rest generalizing t with
  | nil => exact ⟨0, t, fun n => hdone n (by simp), hsame, fun faults => rfl⟩
  | cons n rest ih =>
      obtain ⟨hnot, hnodup'⟩ := List.nodup_cons.mp hnodup
      have hto' := hto n List.mem_cons_self
      have hn := hrest n List.mem_cons_self
      have hn' : t.look (l ++ [n]) ≠ none := by rwa [hto']
      obtain ⟨k, t₁, hcleared, hrun⟩ := hchild n t _ hn (endsInDots_descend n)
        (steady_child hp hl hsame hn') hto'
      -- the other entries stay as they are
      have hapart : ∀ m r, m ≠ n → t₁.look (l ++ m :: r) = t.look (l ++ m :: r) := by
        intro m r hm
        refine hcleared.same _ fun hbelow => hm ?_
        obtain ⟨r', hr'⟩ := (List.prefix_append_right_inj l).mp hbelow
        exact (List.cons.inj hr').1.symm
      have hsame₁ : SameOn (fun k => ¬ Below l k) w.tree t₁ := by
        refine hsame.trans (hcleared.same.mono fun k hk hbelow => hk ?_)
        refine ⟨(List.prefix_append l [n]).trans hbelow, ?_⟩
        rintro rfl
        exact absurd hbelow.length_le (by simp)
      have hto₁ : ∀ m ∈ rest, ∀ r, t₁.look (l ++ m :: r) = w.tree.look (l ++ m :: r) := by
        intro m hm r
        rw [hapart m r fun heq => hnot (heq ▸ hm)]
        exact hto m (List.mem_cons_of_mem _ hm) r
      have hdone₁ : ∀ m, m ∉ rest → ∀ r, t₁.look (l ++ m :: r) = none := by
        intro m hm r
        rcases eq_or_ne m n with rfl | hne
        · cases r with
          | nil => exact hcleared.self (by simp)
          | cons n' r => simpa using hcleared.below n' r
        · rw [hapart m r hne]
          exact hdone m (by simp [hm, hne]) r
      obtain ⟨k', t', hgone, hsame', hrun'⟩ :=
        ih (fun m hm => hrest m (List.mem_cons_of_mem _ hm)) hnodup' hsame₁ hto₁ hdone₁
      refine ⟨k + k', t', hgone, hsame', fun faults => ?_⟩
      rw [World.calm_add, List.map_cons]
      change (remove depth (p.descend [n]) { recurse := true } >>= fun _ =>
        (rest.map fun n => p.descend [n]).forM fun child =>
          remove depth child { recurse := true }) _ = _
      rw [Prog.bind_of_ok (hrun _), World.calm_zero]
      exact hrun' faults

/-- A directory is removed after its entries. -/
theorem directory_clears (hdots : World.endsInDots p = false) (hp : Steady w p l)
    (hl : w.tree.look l = some .dir)
    (hchild : ∀ n t q, w.tree.look (l ++ [n]) ≠ none → World.endsInDots q = false →
      Steady { w with tree := t } q (l ++ [n]) → (∀ r, t.look (l ++ n :: r) =
        w.tree.look (l ++ n :: r)) → ∃ k t', Cleared t t' (l ++ [n]) ∧ ∀ faults,
          remove depth q { recurse := true } (w.calm t k faults) =
            some (.ok (), w.calm t' 0 faults)) :
    ∃ k t', Cleared w.tree t' l ∧ ∀ faults, ∃ r,
      remove (depth + 1) p { recurse := true } (w.calm w.tree k faults) =
        some (r, w.calm t' 0 faults) ∧ (l ≠ [] → r = .ok ()) := by
  obtain ⟨k, t₁, hgone, hsame, hrun⟩ := children_clear hp hl hchild (w.tree.names l)
    (fun n hn => (w.tree.listed l n).mp hn) (w.tree.nodup l) (.refl _) (fun _ _ _ => rfl)
      fun _ hn => w.tree.look_of_not_listed hn
  obtain ⟨t', hself, hothers, hentry⟩ := removeEntry_clears hdots (hp t₁ hsame) fun n => hgone n []
  refine ⟨k + 1, t', ⟨fun n r => ?_, hself, fun j hj => ?_⟩, fun faults => ?_⟩
  · rw [hothers _ (by simp), hgone]
  · rw [hothers, hsame _ fun h => hj h.1]
    rintro rfl
    exact hj List.prefix_rfl
  · obtain ⟨r, hr, hok⟩ := hentry faults
    refine ⟨r, ?_, hok⟩
    have hfound : (w.calm w.tree (k + 1) faults).resolve false p = .ok (.found l) :=
      hp w.tree (.refl _)
    have hstat : (w.calm w.tree (k + 1) faults).getStat p {} = some (l, .dir) :=
      World.getStat_eq_some.mpr ⟨World.resolve_follow hfound (by simp [World.calm, hl]), hl⟩
    have hlink : p.isSymlink (w.calm w.tree (k + 1) faults) = false := by
      rw [Bool.eq_false_iff, ne_eq, isSymlink_eq_true]
      rintro ⟨l', target, hl', htarget⟩
      obtain rfl := Place.found.inj (Except.ok.inj (hl'.symm.trans hfound))
      exact absurd (htarget.symm.trans hl) (by simp)
    rw [remove_succ, Prog.get_bind, if_pos, Prog.bind_of_ok (directory_calm hstat),
      World.calm_add, Prog.bind_of_ok (hrun _), World.calm_zero, hr]
    simp [isDirectory_eq_true.mpr ⟨l, hstat⟩, hlink]

/-- What is no directory is just removed. -/
theorem leaf_clears (hdots : World.endsInDots p = false) (hp : Steady w p l)
    (hl : w.tree.look l ≠ some .dir) :
    ∃ k t', Cleared w.tree t' l ∧ ∀ faults, ∃ r,
      remove (depth + 1) p { recurse := true } (w.calm w.tree k faults) =
        some (r, w.calm t' 0 faults) ∧ (l ≠ [] → r = .ok ()) := by
  have hfound := hp w.tree (.refl _)
  have hbelow : ∀ n r, w.tree.look (l ++ n :: r) = none := by
    intro n r
    by_contra hne
    exact hl (w.tree.look_isPrefix (List.prefix_append l (n :: r)) (by simp) hne)
  obtain ⟨t', hself, hothers, hentry⟩ := removeEntry_clears hdots hfound fun n => hbelow n []
  refine ⟨1, t', ⟨fun n r => ?_, hself, fun j hj => hothers j ?_⟩, fun faults => ?_⟩
  · rw [hothers _ (by simp), hbelow]
  · rintro rfl
    exact hj List.prefix_rfl
  · obtain ⟨r, hr, hok⟩ := hentry faults
    refine ⟨r, ?_, hok⟩
    rw [remove_succ, Prog.get_bind, if_neg, hr]
    simp only [Bool.and_eq_true, Bool.not_eq_true', not_and, Bool.not_eq_false]
    rintro ⟨-, hdir⟩
    obtain ⟨l', hstat⟩ := isDirectory_eq_true.mp hdir
    obtain ⟨hfollow, hl'⟩ := World.getStat_eq_some.mp hstat
    by_contra hlink
    rw [Bool.not_eq_true] at hlink
    have hsame := (resolve_of_not_link hlink hfollow).symm.trans hfound
    obtain rfl := Place.found.inj (Except.ok.inj hsame)
    exact hl hl'

/-- If nothing fails, `remove()` takes away everything at and below the place that its path
leads to. It throws only if that is the root, which it cannot remove. -/
theorem remove_clears {d : ℕ} (hdots : World.endsInDots p = false) (hp : Steady w p l)
    (hd : DepthBelow w.tree l d) :
    ∃ k t', Cleared w.tree t' l ∧ ∀ faults, ∃ r,
      remove (d + 1) p { recurse := true } (w.calm w.tree k faults) =
        some (r, w.calm t' 0 faults) ∧ (l ≠ [] → r = .ok ()) := by
  induction d generalizing w p l with
  | zero =>
      by_cases hl : w.tree.look l = some .dir
      · refine directory_clears hdots hp hl fun n t q hn _ => ?_
        exact absurd (hd [n] hn) (by simp)
      · exact leaf_clears hdots hp hl
  | succ d ih =>
      by_cases hl : w.tree.look l = some .dir
      · refine directory_clears hdots hp hl fun n t q hn hq hsteady hsame => ?_
        have hd' : DepthBelow t (l ++ [n]) d := by
          intro r hr
          refine hd.child n r ?_
          rw [List.append_assoc, List.singleton_append] at hr ⊢
          rwa [← hsame r]
        obtain ⟨k, t', hcleared, hrun⟩ := ih hq hsteady hd'
        refine ⟨k, t', hcleared, fun faults => ?_⟩
        obtain ⟨r, hr, hok⟩ := hrun faults
        rw [hok (by simp)] at hr
        exact hr
      · exact leaf_clears hdots hp hl

/-! ### Whatever the path leads through -/

/-- What `remove()` deletes may be deleted: no call is refused, and the path is the name of
an entry, and not `.`, `..` or the root, which the system does not remove. -/
structure MayRemove (w : World) (p : FilePath) : Prop where
  faultless : w.Faultless
  entry : World.endsInDots p = false

/-- The path of an entry can be removed. -/
theorem MayRemove.child {w' : World} (hw : w'.Faultless) (n : Bytes) :
    MayRemove w' (p.descend [n]) :=
  ⟨hw, endsInDots_descend n⟩

/-- A path that is the name of an entry does not lead to the root. -/
theorem MayRemove.ne_root (hp : MayRemove w p) (hl : w.resolve false p = .ok (.found l)) :
    l ≠ [] := by
  obtain ⟨-, hwalk⟩ := World.resolve_eq_ok.mp hl
  have hentry := hp.entry
  unfold World.endsInDots at hentry
  split at hentry
  next n hn => exact FileTree.walk_ne_root hwalk hn
  next => cases hentry

/-- Nothing stands in the way of a path: if it does not lead to a place, then something on
the way is missing. -/
def Leads (w : World) (p : FilePath) : Prop :=
  ∀ err, w.resolve false p = .error err → err = .noEntry

/-- What has no entries, or is not there, is removed without an error. -/
theorem removeEntry_returns (hp : MayRemove w p) (hleads : Leads w p)
    (hempty : ∀ l, w.resolve false p = .ok (.found l) → ∀ n, w.tree.look (l ++ [n]) = none) :
    ∃ w', removeEntry p w = some (.ok (), w') ∧ w'.Faultless := by
  have hact : (∃ t, w.unlink p = .ok (t, ())) ∨ w.unlink p = .error eNoEnt := by
    unfold World.unlink
    cases hplace : w.resolve false p with
    | error err =>
        obtain rfl := hleads err hplace
        exact .inr rfl
    | ok place =>
        cases place with
        | missing l n => exact .inr rfl
        | found l =>
            rcases List.eq_nil_or_concat l with rfl | ⟨l, n, rfl⟩
            · exact absurd rfl (hp.ne_root hplace)
            · rw [List.concat_eq_append] at hplace ⊢
              have hleaf : w.tree.names (l ++ [n]) = [] :=
                List.eq_nil_iff_forall_not_mem.mpr fun m hm =>
                  (w.tree.listed _ m).mp hm (hempty _ hplace m)
              refine .inl ⟨w.tree.erase l n hleaf, ?_⟩
              simp only [hp.entry, Bool.false_eq_true, if_false, List.getLast?_append,
                List.getLast?_singleton, Option.some_or, List.dropLast_concat]
              exact dif_pos hleaf
  rcases hact with ⟨t, hact⟩ | hact
  · refine ⟨{ w.next with tree := t }, ?_, hp.faultless.next⟩
    rw [removeEntry]
    exact Prog.bind_of_ok (hp.faultless.sysCall_ok hact)
  · refine ⟨w.next, ?_, hp.faultless.next⟩
    rw [removeEntry, Prog.bind_of_ok (hp.faultless.sysCall_error hact)]
    rfl

section Directory

variable {w₁ : World} {names : List Bytes}

/-- The entries of a directory are removed, whether the path still leads to them or not. -/
theorem children_return (hp : w.resolve true p = .ok (.found l))
    (hl : w.tree.look l = some .dir) (hlossless : w.Lossless)
    (hchild : ∀ n ∈ names, ∀ w₁, w₁.Faultless → w₁.Lossless → Leads w₁ (p.descend [n]) →
      (∀ k, w₁.resolve false (p.descend [n]) = .ok (.found k) → k = l ++ [n]) →
      w.tree.Extends w₁.tree → ∃ w', remove depth (p.descend [n]) { recurse := true } w₁ =
        some (.ok (), w') ∧ w'.Faultless)
    (hw₁ : w₁.Faultless) (hshrinks : w.Shrinks (fun _ => False) w₁) :
    ∃ w', (names.map fun n => p.descend [n]).forM
        (fun child => remove depth child { recurse := true }) w₁ = some (.ok (), w') ∧
      w'.Faultless ∧ w₁.Shrinks (fun _ => False) w' ∧
      ∀ n ∈ names, ∀ k, w'.resolve false (p.descend [n]) ≠ .ok (.found k) := by
  induction names generalizing w₁ with
  | nil => exact ⟨w₁, rfl, hw₁, .refl w₁, by simp⟩
  | cons n names ih =>
      have hplace := World.resolve_child hp hl n
      obtain ⟨w₂, hrun, hw₂⟩ := hchild n List.mem_cons_self w₁ hw₁
        (hshrinks.lossless hlossless) (fun err herr => hshrinks.resolve_error hplace herr)
        (fun k hk => by
          obtain ⟨place', hplace', hloc⟩ := hshrinks.resolve_loc hk
          rw [hplace] at hplace'
          obtain rfl := Except.ok.inj hplace'
          have hloc' : k = Place.loc _ := hloc.symm
          rw [hloc']
          split <;> rfl) hshrinks.removed
      obtain ⟨hshrinks', hgone⟩ := remove_spec _ _ hrun
      replace hshrinks' : w₁.Shrinks (fun _ => False) w₂ := hshrinks'.mono (by simp)
      obtain ⟨w', hrun', hw', hshrinks'', hgone'⟩ := ih
        (fun m hm => hchild m (List.mem_cons_of_mem _ hm)) hw₂ (hshrinks.trans hshrinks')
      refine ⟨w', ?_, hw', hshrinks'.trans hshrinks'', fun m hm k hk => ?_⟩
      · rw [List.map_cons]
        change (remove depth (p.descend [n]) { recurse := true } >>= fun _ =>
          (names.map fun n => p.descend [n]).forM fun child =>
            remove depth child { recurse := true }) _ = _
        rw [Prog.bind_of_ok hrun]
        exact hrun'
      · rcases List.mem_cons.mp hm with rfl | hm
        · exact hgone rfl k (hshrinks''.resolve_mono hk)
        · exact hgone' m hm k hk

/-- A directory is removed when its entries are gone. -/
theorem directory_returns (hp : MayRemove w p) (hlossless : w.Lossless)
    (hfollow : w.resolve true p = .ok (.found l)) (hl : w.tree.look l = some .dir)
    (hlink : p.isSymlink w = false)
    (hchild : ∀ n ∈ w.tree.names l, ∀ w₁, w₁.Faultless → w₁.Lossless →
      Leads w₁ (p.descend [n]) →
      (∀ k, w₁.resolve false (p.descend [n]) = .ok (.found k) → k = l ++ [n]) →
      w.tree.Extends w₁.tree → ∃ w', remove depth (p.descend [n]) { recurse := true } w₁ =
        some (.ok (), w') ∧ w'.Faultless) :
    ∃ w', (p.directory >>= fun children =>
      children.forM (fun child => remove depth child { recurse := true }) >>= fun _ =>
        removeEntry p) w = some (.ok (), w') ∧ w'.Faultless := by
  have hfound := resolve_of_not_link hlink hfollow
  have hlike : w.Like { w with losses := w.losses.tail } :=
    ⟨rfl, rfl, fun h loss hloss => h loss (List.mem_of_mem_tail hloss)⟩
  have hfaultless : { w with losses := w.losses.tail }.Faultless := hp.faultless
  obtain ⟨w', hrun, hw', hshrinks, hgone⟩ :=
    children_return hfollow hl hlossless hchild hfaultless hlike.shrinks
  replace hshrinks := (hlike.shrinks (P := fun _ => False)).trans hshrinks
  obtain ⟨w'', hentry, hw''⟩ := removeEntry_returns (w := w') (p := p) ⟨hw', hp.entry⟩
    (fun err herr => hshrinks.resolve_error hfound herr) (fun k hk n => by
      -- an entry that is still there would be found under its path
      obtain ⟨place, hplace, hloc⟩ := hshrinks.resolve_loc hk
      obtain rfl := Except.ok.inj (hplace.symm.trans hfound)
      obtain rfl : l = k := hloc
      by_contra hne
      have hdir := w'.tree.closed l n hne
      have hthere := World.resolve_child (World.resolve_follow hk (by simp [hdir])) hdir n
      rw [if_neg hne] at hthere
      obtain ⟨e, he⟩ := Option.ne_none_iff_exists'.mp hne
      refine hgone n ((w.tree.listed l n).mpr ?_) _ hthere
      rw [hshrinks.removed _ _ he]
      simp)
  refine ⟨w'', ?_, hw''⟩
  rw [Prog.bind_of_ok (hlossless.directory_eq (World.getStat_eq_some.mpr ⟨hfollow, hl⟩)),
    Prog.bind_of_ok hrun]
  exact hentry

end Directory

/-- `remove()` returns if it does for the entries. -/
theorem remove_returns_succ (hp : MayRemove w p) (hlossless : w.Lossless) (hleads : Leads w p)
    (hchild : ∀ l n, w.resolve false p = .ok (.found l) → w.tree.look (l ++ [n]) ≠ none →
      ∀ w₁, w₁.Faultless → w₁.Lossless → Leads w₁ (p.descend [n]) →
      (∀ k, w₁.resolve false (p.descend [n]) = .ok (.found k) → k = l ++ [n]) →
      w.tree.Extends w₁.tree → ∃ w', remove depth (p.descend [n]) { recurse := true } w₁ =
        some (.ok (), w') ∧ w'.Faultless) :
    ∃ w', remove (depth + 1) p { recurse := true } w = some (.ok (), w') ∧ w'.Faultless := by
  rw [remove_succ, Prog.get_bind]
  split
  next hdir =>
    simp only [Bool.true_and, Bool.and_eq_true, Bool.not_eq_true'] at hdir
    obtain ⟨l, hstat⟩ := isDirectory_eq_true.mp hdir.1
    obtain ⟨hfollow, hl⟩ := World.getStat_eq_some.mp hstat
    exact directory_returns hp hlossless hfollow hl hdir.2 fun n hn =>
      hchild l n (resolve_of_not_link hdir.2 hfollow) ((w.tree.listed l n).mp hn)
  next hdir =>
    refine removeEntry_returns hp hleads fun l hl n => w.tree.look_below (fun hlook => hdir ?_) n
    have hstat : w.getStat p {} = some (l, .dir) :=
      World.getStat_eq_some.mpr ⟨World.resolve_follow hl (by simp [hlook]), hlook⟩
    have hlink : p.isSymlink w = false := by
      rw [Bool.eq_false_iff, ne_eq, isSymlink_eq_true]
      rintro ⟨l', target, hl', htarget⟩
      obtain rfl := Place.found.inj (Except.ok.inj (hl'.symm.trans hl))
      exact absurd (htarget.symm.trans hlook) (by simp)
    simp [isDirectory_eq_true.mpr ⟨l, hstat⟩, hlink]

/-- If nothing fails, `remove()` returns. -/
theorem remove_returns {d : ℕ} (hp : MayRemove w p) (hlossless : w.Lossless)
    (hleads : Leads w p)
    (hd : ∀ l, w.resolve false p = .ok (.found l) → DepthBelow w.tree l d) :
    ∃ w', remove (d + 1) p { recurse := true } w = some (.ok (), w') ∧ w'.Faultless := by
  induction d generalizing w p with
  | zero =>
      refine remove_returns_succ hp hlossless hleads fun l n hl hn => ?_
      exact absurd (hd l hl [n] hn) (by simp)
  | succ d ih =>
      refine remove_returns_succ hp hlossless hleads
        fun l n hl hn w₁ hw₁ hlossless₁ hleads₁ hplace hext => ?_
      refine ih (.child hw₁ n) hlossless₁ hleads₁ fun k hk r hr => ?_
      obtain rfl := hplace k hk
      obtain ⟨e, he⟩ := Option.ne_none_iff_exists'.mp hr
      exact (hd l hl).child n r (by rw [hext _ _ he]; simp)

/-- **Removing a tree.** If there is a file at the path, at and below which everything may be
deleted, `remove()` with the `recurse` flag returns, the path leads to nothing any more, and
what is not at or below it is as it was, wherever the links lead. All of what was there is
gone, unless the path leads through what is removed. -/
theorem remove_recurse {d : ℕ} (hl : w.resolve false p = .ok (.found l))
    (hd : DepthBelow w.tree l d) (hp : MayRemove w p) (hlossless : w.Lossless) :
    ∃ w', remove (d + 1) p { recurse := true } w = some (.ok (), w') ∧
      (∀ k, w'.resolve false p ≠ .ok (.found k)) ∧ p.doesExist w' {} = false ∧
      SameOn (fun k => ¬ l <+: k) w.tree w'.tree ∧
      (Steady w p l → ∀ r, w'.tree.look (l ++ r) = none) := by
  obtain ⟨w', hrun, -⟩ := remove_returns hp hlossless (fun err herr => by simp [hl] at herr)
    fun k hk => by
      obtain rfl := Place.found.inj (Except.ok.inj (hl.symm.trans hk))
      exact hd
  obtain ⟨hshrinks, hgone⟩ := remove_spec _ _ hrun
  have hsame : SameOn (fun k => ¬ l <+: k) w.tree w'.tree := by
    refine hshrinks.kept.mono fun k hk place hplace => ?_
    obtain rfl := Except.ok.inj (hl.symm.trans hplace)
    exact hk
  refine ⟨w', hrun, hgone rfl, (doesExist_of_gone (hgone rfl)).1, hsame, fun hsteady r => ?_⟩
  by_contra hne
  have hthere : w'.tree.look l ≠ none := by
    rcases eq_or_ne r [] with rfl | hr
    · rwa [List.append_nil] at hne
    · rw [w'.tree.look_isPrefix (List.prefix_append l r) (by simpa using hr.symm) hne]
      simp
  have hplace := hsteady w'.tree fun k hk => by
    by_cases hkl : k = l
    · obtain ⟨e, he⟩ := Option.ne_none_iff_exists'.mp hthere
      rw [hkl, he, hshrinks.removed _ _ he]
    · exact hsame k fun hbelow => hk ⟨hbelow, hkl⟩
  refine hgone rfl l ?_
  rw [← hplace, World.resolve, World.resolve, hshrinks.cwd]

/-- A directory `/d`. -/
private def loopTree : Tree :=
  FileTree.single [100] .dir

/-- The directory of the witness. -/
private theorem loopTree_dir : loopTree.look [[100]] = some .dir := by decide

/-- Nothing is at the other name. -/
private theorem loopTree_new : loopTree.look ([[100]] ++ [[108]]) = none := by decide

/-- A link `/d/l` to the root. -/
private def loopWorld : World where
  tree := loopTree.insert [[100]] [108] (.link ⟨true, []⟩) loopTree_dir loopTree_new
  cwd := []
  faults := []
  losses := []

/-- The path `/d`. -/
private def loopDir : FilePath := ⟨true, [.name [100]]⟩

/-- The link to what is around the directory is removed, and not followed. -/
theorem remove_recurse_loop :
    ∃ w', remove 2 loopDir { recurse := true } loopWorld = some (.ok (), w') ∧
      (∀ k, w'.resolve false loopDir ≠ .ok (.found k)) ∧ loopDir.doesExist w' {} = false ∧
      SameOn (fun k => ¬ [[100]] <+: k) loopWorld.tree w'.tree ∧
      (Steady loopWorld loopDir [[100]] → ∀ r, w'.tree.look ([[100]] ++ r) = none) := by
  refine remove_recurse (d := 1) (by decide) (fun r hr => ?_)
    ⟨(fun _ h => by cases h), rfl⟩ (fun _ h => by cases h)
  simp only [loopWorld, loopTree, FileTree.single, FileTree.insert, FileTree.empty,
    Function.update_apply] at hr
  split_ifs at hr <;> simp_all

end FilePath

end RsIo
