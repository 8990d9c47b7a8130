import RsIo.FileSystem

/-!
# What the File System Functions Leave Alone

How a path is resolved while the file system changes, and what a call may change. A call
either adds to the tree or takes away from it, and it takes away only what is at or below
the place its path names.

## Main results

* `World.Grows.resolve_loc`, `World.Shrinks.resolve_loc`: a path names one place all along.
* `FilePath.remove_spec`: `remove()` leaves everything outside its path alone, and the path
  leads to nothing when it returns.
* `FilePath.makeDirectory_spec`: `make_directory()` adds one directory to the tree, or
  throws.
-/

namespace RsIo

open FileTree (Place)

/-- No node is more than `d` levels below `l`. -/
def DepthBelow (t : Tree) (l : Loc) (d : ℕ) : Prop :=
  ∀ r, t.look (l ++ r) ≠ none → r.length ≤ d

/-- One level further down there is one level less. -/
theorem DepthBelow.child {t : Tree} {l : Loc} {d : ℕ} (h : DepthBelow t l (d + 1)) (n : Bytes) :
    DepthBelow t (l ++ [n]) d := by
  intro r hr
  have hlen := h (n :: r) (by simpa using hr)
  simpa using hlen

namespace FilePath

/-- The path of what is below a path, by the names on the way down. -/
def descend (p : FilePath) (names : List Bytes) : FilePath :=
  { p with elements := p.elements ++ names.map .name }

/-- The path to the directory itself. -/
@[simp] theorem descend_nil (p : FilePath) : p.descend [] = p := by
  simp [descend]

/-- To go down twice is to go down once by both ways. -/
theorem descend_append (p : FilePath) (r r' : List Bytes) :
    p.descend (r ++ r') = (p.descend r).descend r' := by
  simp [descend]

/-- Different ways down give different paths. -/
theorem descend_inj {p : FilePath} {r r' : List Bytes} (h : p.descend r = p.descend r') :
    r = r' := by
  have helements := congrArg FileName.elements h
  have hnames := List.append_cancel_left helements
  exact List.map_injective_iff.mpr (fun _ _ h => PathElem.name.inj h) hnames

/-- An entry of a directory has one more element than the directory. -/
theorem join_elem (p : FilePath) (e : PathElem Bytes) :
    p.join ⟨false, [e]⟩ = { p with elements := p.elements ++ [e] } := by
  by_cases hp : p.isAbsolute = false ∧ p.elements = []
  · rw [join, if_pos (.inr hp), hp.1, hp.2, List.nil_append]
  · rw [join, if_neg (by simpa using hp)]

/-- The path of an entry goes one level down. -/
theorem join_name (p : FilePath) (n : Bytes) : p.join ⟨false, [.name n]⟩ = p.descend [n] :=
  join_elem p (.name n)

end FilePath

namespace World

variable {w : World} {p : FilePath} {l : Loc} {e : Entry Bytes Bytes}

/-- `get_stat` finds what the path leads to. -/
theorem getStat_eq_some {flags : PathFlags} :
    w.getStat p flags = some (l, e) ↔
      w.resolve (!flags.noFollow) p = .ok (.found l) ∧ w.tree.look l = some e := by
  unfold getStat
  split
  next l' hl' =>
    rw [hl', Option.map_eq_some_iff]
    constructor
    · rintro ⟨e', he', hsame⟩
      obtain ⟨rfl, rfl⟩ := Prod.mk.inj hsame
      exact ⟨rfl, he'⟩
    · rintro ⟨hl, he⟩
      obtain rfl := Place.found.inj (Except.ok.inj hl)
      exact ⟨e, he, rfl⟩
  next hnot =>
    have hnot' : w.resolve (!flags.noFollow) p ≠ .ok (.found l) := hnot l
    simp [hnot']

/-- Where there is no limit on names, a name that is not empty is followed from the root or
from the current directory. -/
theorem resolve_eq_walk {follow : Bool} (hne : ¬ (p.isAbsolute = false ∧ p.elements = [])) :
    w.resolve follow p =
      w.tree.walk follow maxLinks (if p.isAbsolute then [] else w.cwd) p.elements := by
  rw [resolve, if_neg hne, if_neg (by simp [exceeds])]

/-- A name that leads somewhere is not empty, and is followed from the root or from the
current directory. -/
theorem resolve_eq_ok {follow : Bool} {place : Place Bytes} :
    w.resolve follow p = .ok place ↔ ¬ (p.isAbsolute = false ∧ p.elements = []) ∧
      w.tree.walk follow maxLinks (if p.isAbsolute then [] else w.cwd) p.elements = .ok place := by
  by_cases hempty : p.isAbsolute = false ∧ p.elements = []
  · simp [resolve, hempty]
  · rw [resolve_eq_walk hempty]
    simp [hempty]

/-- What is found without following a link, and is none, is also found if links are
followed. -/
theorem resolve_follow (h : w.resolve false p = .ok (.found l))
    (hl : ∀ target, w.tree.look l ≠ some (.link target)) : w.resolve true p = .ok (.found l) := by
  rw [resolve_eq_ok] at h ⊢
  exact ⟨h.1, FileTree.walk_follow h.2 hl⟩

/-- A path is followed from a directory. -/
theorem resolve_start {follow : Bool} {place : Place Bytes}
    (h : w.resolve follow p = .ok place) :
    w.tree.look (if p.isAbsolute then [] else w.cwd) = some .dir := by
  obtain ⟨hne, hwalk⟩ := resolve_eq_ok.mp h
  cases habs : p.isAbsolute with
  | true => exact w.tree.root
  | false =>
    obtain ⟨e, es, helements⟩ := List.exists_cons_of_ne_nil fun hnil => hne ⟨habs, hnil⟩
    rw [habs, helements] at hwalk
    cases hcur : w.tree.look w.cwd with
    | none => simp [FileTree.walk, FileTree.walkElems, hcur] at hwalk
    | some entry =>
      cases entry with
      | dir => exact hcur
      | file content => simp [FileTree.walk, FileTree.walkElems, hcur] at hwalk
      | link target => simp [FileTree.walk, FileTree.walkElems, hcur] at hwalk

/-- A path leads to a place of the tree. -/
theorem resolve_in {follow : Bool} {place : Place Bytes} (h : w.resolve follow p = .ok place) :
    place.In w.tree :=
  FileTree.walk_spec (resolve_eq_ok.mp h).2 (resolve_start h)

/-- A path leads to something that exists. -/
theorem look_of_found {follow : Bool} (h : w.resolve follow p = .ok (.found l)) :
    w.tree.look l ≠ none :=
  resolve_in h

/-- Without following a link, a path leads where it leads otherwise, or to a link. -/
theorem resolve_nofollow {place : Place Bytes} (h : w.resolve true p = .ok place) :
    ∃ place', w.resolve false p = .ok place' ∧
      (place' = place ∨ ∃ target, w.tree.look place'.loc = some (.link target)) := by
  obtain ⟨hne, hwalk⟩ := resolve_eq_ok.mp h
  obtain ⟨place, hplace, hor⟩ := FileTree.walk_nofollow hwalk
  exact ⟨place, resolve_eq_ok.mpr ⟨hne, hplace⟩, hor⟩

/-- The path of an entry leads to the entry of the directory. -/
theorem resolve_child (h : w.resolve true p = .ok (.found l)) (hl : w.tree.look l = some .dir)
    (n : Bytes) : w.resolve false (p.descend [n]) =
      .ok (if w.tree.look (l ++ [n]) = none then .missing l n else .found (l ++ [n])) := by
  rw [resolve_eq_ok] at h ⊢
  exact ⟨by simp [FilePath.descend], FileTree.walk_child h.2 hl n⟩

/-- A path that ends in `.` or `..` leads to a directory. -/
theorem endsInDots_of_not_dir {place : Place Bytes}
    (h : w.resolve false p = .ok place) (hnot : w.tree.look place.loc ≠ some .dir) :
    endsInDots p = false := by
  obtain ⟨hne, hwalk⟩ := resolve_eq_ok.mp h
  rcases List.eq_nil_or_concat p.elements with hnil | ⟨es, e, hconcat⟩
  · rw [hnil, FileTree.walk_nil] at hwalk
    obtain rfl := Except.ok.inj hwalk
    exact absurd (resolve_start h) hnot
  · rw [List.concat_eq_append] at hconcat
    rw [hconcat] at hwalk
    obtain ⟨l, hl, hdir⟩ := FileTree.walk_append_inv hwalk (by simp)
    obtain ⟨k, -, hk⟩ := FileTree.walk_append hl
    rw [hk false [e] (by simp)] at hwalk
    cases e with
    | name n => simp [endsInDots, hconcat]
    | parent =>
      rw [FileTree.walk_parent hdir, FileTree.walk_nil] at hwalk
      obtain rfl := Except.ok.inj hwalk
      exact absurd (FileTree.look_dropLast hdir) hnot
    | empty =>
      rw [FileTree.walk_skip hdir (.inl rfl), FileTree.walk_nil] at hwalk
      obtain rfl := Except.ok.inj hwalk
      exact absurd hdir hnot
    | self =>
      rw [FileTree.walk_skip hdir (.inr rfl), FileTree.walk_nil] at hwalk
      obtain rfl := Except.ok.inj hwalk
      exact absurd hdir hnot

/-- A path that leads to a node leads there in every larger tree. -/
theorem resolve_mono {w' : World} (hext : w'.tree.Extends w.tree) (hcwd : w'.cwd = w.cwd)
    {follow : Bool} (h : w.resolve follow p = .ok (.found l)) :
    w'.resolve follow p = .ok (.found l) := by
  rw [resolve_eq_ok] at h ⊢
  rw [hcwd]
  exact ⟨h.1, FileTree.walk_mono hext h.2⟩

/-- A path names one place in every larger tree. -/
theorem resolve_loc {w' : World} (hext : w'.tree.Extends w.tree) (hcwd : w'.cwd = w.cwd)
    {place : Place Bytes} (h : w.resolve false p = .ok place) :
    ∃ place', w'.resolve false p = .ok place' ∧ place'.loc = place.loc := by
  obtain ⟨hne, hwalk⟩ := resolve_eq_ok.mp h
  obtain ⟨place', hplace', hloc⟩ := FileTree.walk_loc hext hwalk
  rw [← hcwd] at hplace'
  exact ⟨place', resolve_eq_ok.mpr ⟨hne, hplace'⟩, hloc⟩

/-- Nothing that can be lost will be lost without an error. -/
def Lossless (w : World) : Prop :=
  ∀ loss ∈ w.losses, loss = none

/-- The later world has all that the earlier one has. -/
structure Grows (w w' : World) : Prop where
  added : w'.tree.Extends w.tree
  cwd : w'.cwd = w.cwd
  lossless : w.Lossless → w'.Lossless

/-- The later world has what the earlier one has, but for some of what is not at the
locations that satisfy `P`. -/
structure Shrinks (P : Loc → Prop) (w w' : World) : Prop where
  removed : w.tree.Extends w'.tree
  kept : FileTree.SameOn P w.tree w'.tree
  cwd : w'.cwd = w.cwd
  lossless : w.Lossless → w'.Lossless

namespace Grows

variable {w' w'' : World}

/-- Nothing was added. -/
theorem refl (w : World) : w.Grows w := ⟨.refl _, rfl, id⟩

/-- What was added twice was added. -/
theorem trans (h : w.Grows w') (h' : w'.Grows w'') : w.Grows w'' :=
  ⟨h'.added.trans h.added, h'.cwd.trans h.cwd, h'.lossless ∘ h.lossless⟩

/-- A path that leads to a file goes on leading to it. -/
theorem resolve_mono (h : w.Grows w') {follow : Bool}
    (hl : w.resolve follow p = .ok (.found l)) : w'.resolve follow p = .ok (.found l) :=
  World.resolve_mono h.added h.cwd hl

/-- A path to an entry of a directory goes on leading to the same place. -/
theorem resolve_loc (h : w.Grows w') {place : Place Bytes}
    (hplace : w.resolve false p = .ok place) :
    ∃ place', w'.resolve false p = .ok place' ∧ place'.loc = place.loc :=
  World.resolve_loc h.added h.cwd hplace

end Grows

namespace Shrinks

variable {P Q : Loc → Prop} {w' w'' : World}

/-- Nothing was removed. -/
theorem refl (w : World) : w.Shrinks P w := ⟨.refl _, .refl _, rfl, id⟩

/-- What was removed twice was removed. -/
theorem trans (h : w.Shrinks P w') (h' : w'.Shrinks P w'') : w.Shrinks P w'' :=
  ⟨h.removed.trans h'.removed, h.kept.trans h'.kept, h'.cwd.trans h.cwd,
    h'.lossless ∘ h.lossless⟩

/-- Less may be left alone. -/
theorem mono (h : w.Shrinks P w') (hQ : ∀ l, Q l → P l) : w.Shrinks Q w' :=
  ⟨h.removed, h.kept.mono hQ, h.cwd, h.lossless⟩

/-- A path that leads to a file did so before. -/
theorem resolve_mono (h : w.Shrinks P w') {follow : Bool}
    (hl : w'.resolve follow p = .ok (.found l)) : w.resolve follow p = .ok (.found l) :=
  World.resolve_mono h.removed h.cwd.symm hl

/-- A path to an entry led to the same place before. -/
theorem resolve_loc (h : w.Shrinks P w') {place : Place Bytes}
    (hplace : w'.resolve false p = .ok place) :
    ∃ place', w.resolve false p = .ok place' ∧ place'.loc = place.loc :=
  World.resolve_loc h.removed h.cwd.symm hplace

/-- A path that led somewhere and does not lead there any more leads to nothing. -/
theorem resolve_error (h : w.Shrinks P w') {place : Place Bytes}
    (hplace : w.resolve false p = .ok place) {err : FileTree.WalkError}
    (herr : w'.resolve false p = .error err) : err = .noEntry := by
  obtain ⟨hne, hwalk⟩ := resolve_eq_ok.mp hplace
  rw [resolve_eq_walk hne, h.cwd] at herr
  exact FileTree.walk_error_of_extends h.removed hwalk herr

end Shrinks

/-- The worlds differ at most in what will go wrong. -/
structure Like (w w' : World) : Prop where
  tree : w'.tree = w.tree
  cwd : w'.cwd = w.cwd
  lossless : w.Lossless → w'.Lossless

namespace Like

variable {w' w'' : World}

/-- Nothing was used up. -/
theorem refl (w : World) : w.Like w := ⟨rfl, rfl, id⟩

/-- What was used up twice was used up. -/
theorem trans (h : w.Like w') (h' : w'.Like w'') : w.Like w'' :=
  ⟨h'.tree.trans h.tree, h'.cwd.trans h.cwd, h'.lossless ∘ h.lossless⟩

/-- A file system that is used up grows by nothing. -/
theorem grows (h : w.Like w') : w.Grows w' :=
  ⟨by rw [h.tree]; exact .refl _, h.cwd, h.lossless⟩

/-- It shrinks by nothing. -/
theorem shrinks (h : w.Like w') {P : Loc → Prop} : w.Shrinks P w' :=
  ⟨by rw [h.tree]; exact .refl _, by rw [h.tree]; exact .refl _, h.cwd, h.lossless⟩

/-- Paths lead where they led before. -/
theorem resolve_eq (h : w.Like w') (follow : Bool) (p : FilePath) :
    w'.resolve follow p = w.resolve follow p := by
  simp only [resolve, h.tree, h.cwd]

/-- `get_stat` finds what it found before. -/
theorem getStat_eq (h : w.Like w') (p : FilePath) (flags : PathFlags) :
    w'.getStat p flags = w.getStat p flags := by
  simp only [getStat, h.resolve_eq, h.tree]

end Like

/-- The later world has one new node, with the name `n` in the directory `l`. -/
structure Adds (w : World) (l : Loc) (n : Bytes) (e : Entry Bytes Bytes) (w' : World) :
    Prop where
  dir : w.tree.look l = some .dir
  new : w.tree.look (l ++ [n]) = none
  look : w'.tree.look (l ++ [n]) = some e
  others : FileTree.SameOn (· ≠ l ++ [n]) w.tree w'.tree
  names : ∀ k, k ≠ l → w'.tree.names k = w.tree.names k
  cwd : w'.cwd = w.cwd
  lossless : w.Lossless → w'.Lossless

namespace Adds

variable {w' w'' : World} {n : Bytes}

/-- One more file makes the file system grow. -/
theorem grows (h : w.Adds l n e w') : w.Grows w' := by
  refine ⟨fun k e' hk => ?_, h.cwd, h.lossless⟩
  rwa [h.others k]
  rintro rfl
  rw [h.new] at hk
  cases hk

/-- The tree with one more node. -/
theorem of_insert (hdir : w.tree.look l = some .dir) (hnew : w.tree.look (l ++ [n]) = none) :
    w.Adds l n e { w with tree := w.tree.insert l n e hdir hnew } :=
  ⟨hdir, hnew, FileTree.look_insert hdir hnew, fun _ hk => FileTree.look_insert_of_ne hdir hnew hk,
    fun _ hk => Function.update_of_ne hk _ _, rfl, fun h => h⟩

/-- Something may be used up before the file is added. -/
theorem of_like (hlike : w.Like w') (h : w'.Adds l n e w'') : w.Adds l n e w'' :=
  ⟨hlike.tree ▸ h.dir, hlike.tree ▸ h.new, h.look, hlike.tree ▸ h.others, hlike.tree ▸ h.names,
    h.cwd.trans hlike.cwd, h.lossless ∘ hlike.lossless⟩

/-- Something may be used up afterwards. -/
theorem like (h : w.Adds l n e w') (hlike : w'.Like w'') : w.Adds l n e w'' :=
  ⟨h.dir, h.new, hlike.tree ▸ h.look, hlike.tree ▸ h.others, hlike.tree ▸ h.names,
    hlike.cwd.trans h.cwd, hlike.lossless ∘ h.lossless⟩

/-- There is nothing in a new directory. -/
theorem look_below (h : w.Adds l n e w') (m : Bytes) :
    w'.tree.look (l ++ [n] ++ [m]) = none := by
  rw [h.others _ (by simp)]
  exact w.tree.look_below (by rw [h.new]; simp) m

/-- The path leads to the new file. -/
theorem found (h : w.Adds l n e w') (hp : w.resolve false p = .ok (.missing l n)) :
    w'.resolve false p = .ok (.found (l ++ [n])) := by
  obtain ⟨place, hplace, hloc⟩ := h.grows.resolve_loc hp
  have hin := resolve_in hplace
  cases place with
  | found k =>
      obtain rfl : k = l ++ [n] := hloc
      exact hplace
  | missing k m =>
      obtain ⟨rfl, hm⟩ := List.append_inj' (show k ++ [m] = l ++ [n] from hloc) rfl
      obtain rfl := (List.cons.inj hm).1
      exact absurd (hin.2.symm.trans h.look) (by simp)

end Adds

/-- What is not at the place that a path names, nor below it. -/
def Outside (w : World) (p : FilePath) (l : Loc) : Prop :=
  ∀ place, w.resolve false p = .ok place → ¬ place.loc <+: l

/-! ### The system calls -/

variable {t : Tree} {err : ℕ}

/-- A file is created where there was none, in a directory that exists. -/
theorem create_eq_ok {u : Unit} (h : w.create p e = .ok (t, u)) :
    ∃ (l : Loc) (n : Bytes) (hdir : w.tree.look l = some .dir)
      (hnew : w.tree.look (l ++ [n]) = none),
      w.resolve false p = .ok (.missing l n) ∧ t = w.tree.insert l n e hdir hnew := by
  unfold create at h
  split at h
  next => cases h
  next => cases h
  next l n hmissing =>
    split at h
    next hin =>
      obtain ⟨rfl, -⟩ := Prod.mk.inj (Except.ok.inj h)
      exact ⟨l, n, hin.1, hin.2, hmissing, rfl⟩
    next => cases h

/-- A leaf is removed. -/
theorem unlink_eq_ok {u : Unit} (h : w.unlink p = .ok (t, u)) :
    ∃ (l : Loc) (n : Bytes) (hleaf : w.tree.names (l ++ [n]) = []),
      w.resolve false p = .ok (.found (l ++ [n])) ∧ t = w.tree.erase l n hleaf := by
  unfold unlink at h
  split at h
  next => cases h
  next => cases h
  next l hl =>
    split_ifs at h
    split at h
    next => cases h
    next n hn =>
      split at h
      next hleaf =>
        obtain ⟨rfl, -⟩ := Prod.mk.inj (Except.ok.inj h)
        refine ⟨l.dropLast, n, hleaf, ?_, rfl⟩
        rw [hl, List.dropLast_append_getLast? n hn]
      next => cases h

/-- A file that cannot be removed because it is not there is not there. -/
theorem unlink_eq_noEntry (h : w.unlink p = .error eNoEnt) (l : Loc) :
    w.resolve false p ≠ .ok (.found l) := by
  intro hl
  unfold unlink at h
  rw [hl] at h
  simp only at h
  split_ifs at h
  · cases h
  · split at h
    next => cases h
    next =>
      split at h
      next => cases h
      next => cases h

/-- A renamed file is where it was if it has the new name already, and has moved
otherwise. -/
theorem rename_eq_ok {q : FilePath} {u : Unit} (h : w.rename p q = .ok (t, u)) :
    ∃ s place, w.resolve false p = .ok (.found s) ∧ w.resolve false q = .ok place ∧
      ((place.loc = s ∧ t = w.tree) ∨
        ∃ (d : Loc) (n : Bytes) (hm : w.tree.Movable s d n),
          place.loc = d ++ [n] ∧ t = w.tree.move s d n hm) := by
  unfold rename at h
  split at h
  next => cases h
  next =>
    split at h
    next => cases h
    next => cases h
    next => cases h
    next s place hs hplace =>
      refine ⟨s, place, hs, hplace, ?_⟩
      simp only at h
      split_ifs at h with hsame
      · obtain ⟨rfl, -⟩ := Prod.mk.inj (Except.ok.inj h)
        exact .inl ⟨hsame.symm, rfl⟩
      · split at h
        next => cases h
        next n hn =>
          split at h
          next hm =>
            obtain ⟨rfl, -⟩ := Prod.mk.inj (Except.ok.inj h)
            exact .inr ⟨_, n, hm, (List.dropLast_append_getLast? n hn).symm, rfl⟩
          next => cases h

/-- What is renamed and is no directory does not replace one. -/
theorem rename_dir {q : FilePath} {u : Unit} (h : w.rename p q = .ok (t, u)) {s : Loc}
    {place : Place Bytes} (hs : w.resolve false p = .ok (.found s))
    (hplace : w.resolve false q = .ok place) (hne : place.loc ≠ s)
    (hdir : w.tree.look s ≠ some .dir) : w.tree.look place.loc ≠ some .dir := by
  intro hdst
  unfold rename at h
  rw [hs, hplace] at h
  simp only at h
  split_ifs at h with _ hsame hover
  · exact hne hsame.symm
  · exact hover ⟨by simp [hdst], hdir, hdst⟩

/-- What is no directory takes the place of another file that is none. -/
theorem rename_over {q : FilePath} {s d : Loc} (hs : w.resolve false p = .ok (.found s))
    (hd : w.resolve false q = .ok (.found d)) (hne : d ≠ s) (hsrc : w.tree.look s ≠ some .dir)
    (hdst : w.tree.look d ≠ some .dir) :
    ∃ (l : Loc) (n : Bytes) (hm : w.tree.Movable s l n),
      d = l ++ [n] ∧ w.rename p q = .ok (w.tree.move s l n hm, ()) := by
  have hdots := endsInDots_of_not_dir hs hsrc
  have hdots' := endsInDots_of_not_dir hd hdst
  obtain rfl | ⟨l, n, rfl⟩ := List.eq_nil_or_concat' d
  · exact absurd w.tree.root hdst
  have hm : w.tree.Movable s l n := {
    source := look_of_found hs
    dir := w.tree.closed l n (look_of_found hd)
    outside := fun hin => hsrc (w.tree.look_isPrefix hin hne.symm (look_of_found hd))
    leaf := w.tree.names_of_look hdst }
  refine ⟨l, n, hm, rfl, ?_⟩
  simp [rename, hdots, hdots', hs, hd, Place.loc, hne.symm, hsrc, hdst, hm]

/-- A file is opened for reading without a change. -/
theorem openRead_eq_ok {content : Bytes} (h : w.openRead p = .ok (t, content)) :
    t = w.tree ∧ ∃ l, w.resolve true p = .ok (.found l) ∧
      w.tree.look l = some (.file content) := by
  unfold openRead at h
  split at h
  next => cases h
  next => cases h
  next l hl =>
    split at h
    next c hc =>
      obtain ⟨rfl, rfl⟩ := Prod.mk.inj (Except.ok.inj h)
      exact ⟨rfl, l, hl, hc⟩
    next => cases h

/-- Where there is no file, `openWrite` creates one. -/
theorem openWrite_eq_ok {out : Loc} (hnone : ∀ l, w.resolve true p ≠ .ok (.found l))
    (h : w.openWrite p = .ok (t, out)) :
    ∃ (l : Loc) (n : Bytes) (hdir : w.tree.look l = some .dir)
      (hnew : w.tree.look (l ++ [n]) = none), w.resolve true p = .ok (.missing l n) ∧
      t = w.tree.insert l n (.file []) hdir hnew ∧ out = l ++ [n] := by
  unfold openWrite at h
  split at h
  next => cases h
  next l hl => exact absurd hl (hnone l)
  next l n hmissing =>
    split at h
    next hin =>
      obtain ⟨rfl, rfl⟩ := Prod.mk.inj (Except.ok.inj h)
      exact ⟨l, n, hin.1, hin.2, hmissing, rfl, rfl⟩
    next => cases h

end World

section Calls

variable {α β : Type} {w : World} {Q : Except SystemError β → World → Prop}

/-- What comes after the error of a call. -/
theorem nextFault_ensures {f : Option ℕ → FsProg β}
    (h : ∀ fault w', w.Like w' → (∀ err, fault = some err → err ≠ eNoEnt ∧ err ≠ eInval) →
      (f fault).Ensures w' Q) : (nextFault >>= f).Ensures w Q := by
  refine .bind (.step (h _ _ ⟨rfl, rfl, id⟩ fun err herr => ?_))
  obtain ⟨-, hfilter⟩ := Option.filter_eq_some_iff.mp herr
  simp only [decide_eq_true_eq] at hfilter
  exact ⟨hfilter.1, hfilter.2.2⟩

/-- What comes after a loss. -/
theorem nextLoss_ensures {f : Option ℕ → FsProg β}
    (h : ∀ loss w', w.Like w' → (w.Lossless → loss = none) → (f loss).Ensures w' Q) :
    (nextLoss >>= f).Ensures w Q := by
  refine .bind (.step (h _ _ ⟨rfl, rfl, ?_⟩ fun hlossless => ?_))
  · exact fun hlossless loss hloss => hlossless loss (List.mem_of_mem_tail hloss)
  · change w.losses.head?.join = none
    cases hlosses : w.losses with
    | nil => rfl
    | cons loss rest => exact hlossless loss (hlosses ▸ List.mem_cons_self)

/-- What comes after a system call: it fails by accident or because of the tree, or it
changes the tree. -/
theorem sysCall_ensures {act : World → Except ℕ (Tree × α)} {f : Except ℕ α → FsProg β}
    (herr : ∀ err w', w.Like w' → act w' = .error err ∨ (err ≠ eNoEnt ∧ err ≠ eInval) →
      (f (.error err)).Ensures w' Q)
    (hok : ∀ t a w', w.Like w' → act w' = .ok (t, a) →
      (f (.ok a)).Ensures { w' with tree := t } Q) :
    (sysCall act >>= f).Ensures w Q := by
  refine .bind (nextFault_ensures fun fault w' hlike hfault => ?_)
  cases fault with
  | some err => exact .ret (herr err w' hlike (Or.inr (hfault err rfl)))
  | none =>
      refine .step ?_
      cases hact : act w' with
      | error err => exact herr err w' hlike (Or.inl hact)
      | ok ta =>
          obtain ⟨t, a⟩ := ta
          exact hok t a w' hlike hact

/-- A directory is listed, or a first part of it. -/
theorem directory_spec {p : FilePath} {l : Loc} (hdir : w.getStat p {} = some (l, .dir)) :
    p.directory.Ensures w fun r w' => ∃ ns : List Bytes,
      r = .ok (ns.map fun n => p.descend [n]) ∧ w.Like w' ∧ ns <+: w.tree.names l ∧
        (w.Lossless → ns = w.tree.names l) := by
  have hp : ¬ (p.isAbsolute = false ∧ p.elements = []) :=
    (World.resolve_eq_ok.mp (World.getStat_eq_some.mp hdir).1).1
  refine nextLoss_ensures fun loss w' hlike hloss => .get_bind ?_
  have hlist : ∀ n, p.join (FilePath.ofName n) = p.descend [n] := FilePath.join_name p
  simp only [if_neg hp, hlike.getStat_eq, hdir, hlist, hlike.tree]
  refine .ret ⟨_, rfl, hlike, List.take_prefix .., fun hlossless => ?_⟩
  rw [hloss hlossless, Option.getD_none, List.take_length]

/-- Listing a directory is no call that can fail. It lists paths of entries. -/
theorem directory_lists {limit : Option ℕ} (p : FilePath) (w : World limit) :
    ∃ ns : List Bytes, p.directory w =
      some (.ok (ns.map fun n => p.join (FilePath.ofName n)),
        { w with losses := w.losses.tail }) := by
  have hloss : nextLoss w =
      some (.ok w.losses.head?.join, { w with losses := w.losses.tail }) := rfl
  rw [FilePath.directory, Prog.bind_of_ok hloss, Prog.get_bind]
  generalize (if p.isAbsolute = false ∧ p.elements = [] then
    (⟨false, [.self]⟩ : FilePath) else p) = dir
  dsimp only
  cases World.getStat { w with losses := w.losses.tail } dir {} with
  | none => exact ⟨[], rfl⟩
  | some found =>
      obtain ⟨l, e⟩ := found
      cases e with
      | file c => exact ⟨[], rfl⟩
      | dir => exact ⟨_, rfl⟩
      | link target => exact ⟨[], rfl⟩

/-- Reading a directory makes no call that can fail with an injected error. -/
theorem directory_faults {p : FilePath} :
    p.directory.Ensures w fun _ w' => w'.faults = w.faults := by
  intro r w' hrun
  obtain ⟨children, hlist⟩ := directory_lists p w
  cases hlist.symm.trans hrun
  rfl

/-- What comes after a directory was listed. -/
theorem directory_ensures {p : FilePath} {l : Loc} (hdir : w.getStat p {} = some (l, .dir))
    {f : List FilePath → FsProg β}
    (h : ∀ ns w', w.Like w' → ns <+: w.tree.names l →
      (w.Lossless → ns = w.tree.names l) →
      (f (ns.map fun n => p.descend [n])).Ensures w' Q) : (p.directory >>= f).Ensures w Q := by
  refine .bind ((directory_spec hdir).mono fun r w' ⟨ns, hr, hlike, hsub, hns⟩ => ?_)
  subst hr
  exact h ns w' hlike hsub hns

end Calls

namespace World

variable {w : World}

/-- No call will fail by accident. -/
def Faultless (w : World) : Prop :=
  ∀ fault ∈ w.faults, fault = none

/-- The world after one more call that changes nothing. -/
def next (w : World) : World :=
  { w with faults := w.faults.tail }

/-- Without errors to come there are none after a call. -/
theorem Faultless.next (hw : w.Faultless) : w.next.Faultless :=
  fun fault h => hw fault (List.mem_of_mem_tail h)

/-- A system call uses up one error. -/
theorem like_next (w : World) : w.Like w.next := ⟨rfl, rfl, id⟩

/-- Without errors to come the next call has none. -/
theorem Faultless.nextFault_eq (hw : w.Faultless) :
    nextFault w = some (.ok none, w.next) := by
  have hnone : w.faults.head?.join = none := by
    cases hfaults : w.faults with
    | nil => rfl
    | cons fault rest => exact hw fault (hfaults ▸ List.mem_cons_self)
  rw [nextFault, Prog.step, hnone]
  rfl

section Calls

variable {α : Type} {act : World → Except ℕ (Tree × α)} {t : Tree}

/-- Without errors to come a call does what it is made for. -/
theorem Faultless.sysCall_ok (hw : w.Faultless) {a : α} (h : act w.next = .ok (t, a)) :
    sysCall act w = some (.ok (.ok a), { w.next with tree := t }) := by
  rw [sysCall, Prog.bind_of_ok hw.nextFault_eq]
  simp only [Prog.step, h]

/-- Without errors to come a call fails only by itself. -/
theorem Faultless.sysCall_error (hw : w.Faultless) {err : ℕ} (h : act w.next = .error err) :
    sysCall act w = some (.ok (.error err), w.next) := by
  rw [sysCall, Prog.bind_of_ok hw.nextFault_eq]
  simp only [Prog.step, h]

end Calls

/-- A directory is listed to its end. -/
theorem Lossless.directory_eq (hw : w.Lossless) {p : FilePath} {l : Loc}
    (hdir : w.getStat p {} = some (l, .dir)) :
    p.directory w = some (.ok ((w.tree.names l).map fun n => p.descend [n]),
      { w with losses := w.losses.tail }) := by
  have hp : ¬ (p.isAbsolute = false ∧ p.elements = []) :=
    (resolve_eq_ok.mp (getStat_eq_some.mp hdir).1).1
  have hnone : w.losses.head?.join = none := by
    cases hlosses : w.losses with
    | nil => rfl
    | cons loss rest => exact hw loss (hlosses ▸ List.mem_cons_self)
  have hloss : nextLoss w = some (.ok none, { w with losses := w.losses.tail }) := by
    rw [nextLoss, Prog.step, hnone]
  have hlist : ∀ n, p.join (FilePath.ofName n) = p.descend [n] := FilePath.join_name p
  have hdir' : { w with losses := w.losses.tail }.getStat p {} = some (l, .dir) := hdir
  rw [FilePath.directory, Prog.bind_of_ok hloss, Prog.get_bind]
  simp only [if_neg hp, hdir', hlist, Option.getD_none, List.take_length]
  rfl

end World

namespace FilePath

variable {w : World} {p : FilePath}

/-- `is_directory` asks what the path leads to. -/
theorem isDirectory_eq_true :
    p.isDirectory w {} = true ↔ ∃ l, w.getStat p {} = some (l, .dir) := by
  unfold isDirectory
  constructor
  · intro h
    split at h
    next l hl => exact ⟨l, hl⟩
    next => cases h
  · rintro ⟨l, hl⟩
    rw [hl]

/-- `is_symlink` asks what is at the path. -/
theorem isSymlink_eq_true : p.isSymlink w = true ↔
    ∃ l target, w.resolve false p = .ok (.found l) ∧ w.tree.look l = some (.link target) := by
  unfold isSymlink
  constructor
  · intro h
    split at h
    next l target hl => exact ⟨l, target, World.getStat_eq_some.mp hl⟩
    next => cases h
  · rintro ⟨l, target, hl⟩
    rw [World.getStat_eq_some.mpr hl]

/-- `exists` asks whether the path leads to anything. -/
theorem doesExist_eq_true :
    p.doesExist w {} = true ↔ ∃ l, w.resolve true p = .ok (.found l) := by
  unfold doesExist
  rw [Option.isSome_iff_exists]
  constructor
  · rintro ⟨⟨l, e⟩, h⟩
    exact ⟨l, (World.getStat_eq_some.mp h).1⟩
  · rintro ⟨l, hl⟩
    obtain ⟨e, he⟩ := Option.ne_none_iff_exists'.mp (World.look_of_found hl)
    exact ⟨(l, e), World.getStat_eq_some.mpr ⟨hl, he⟩⟩

/-- What is no link leads to one place, whether links are followed or not. -/
theorem resolve_of_not_link {p : FilePath} {place : Place Bytes} (hlink : p.isSymlink w = false)
    (h : w.resolve true p = .ok place) : w.resolve false p = .ok place := by
  obtain ⟨place', hplace', hor⟩ := World.resolve_nofollow h
  rcases hor with rfl | ⟨target, htarget⟩
  · exact hplace'
  · have hin := World.resolve_in hplace'
    cases place' with
    | found k =>
        rw [isSymlink_eq_true.mpr ⟨k, target, hplace', htarget⟩] at hlink
        cases hlink
    | missing k m => exact absurd (htarget.symm.trans hin.2) (by simp)

/-- What exists is found without following a link. -/
theorem found_of_exists {p : FilePath} (h : p.doesExist w {} = true) :
    ∃ l, w.resolve false p = .ok (.found l) := by
  obtain ⟨l, hl⟩ := doesExist_eq_true.mp h
  obtain ⟨place, hplace, hor⟩ := World.resolve_nofollow hl
  cases place with
  | found k => exact ⟨k, hplace⟩
  | missing k m =>
      rcases hor with hor | ⟨target, htarget⟩
      · cases hor
      · exact absurd (htarget.symm.trans (World.resolve_in hplace).2) (by simp)

/-- What is neither a node nor a link does not exist. -/
theorem doesExist_of_gone {p : FilePath} (h : ∀ l, w.resolve false p ≠ .ok (.found l)) :
    p.doesExist w {} = false ∧ p.isSymlink w = false := by
  have hlink : p.isSymlink w = false := by
    rw [Bool.eq_false_iff, ne_eq, isSymlink_eq_true]
    exact fun ⟨l, _, hl, _⟩ => h l hl
  refine ⟨?_, hlink⟩
  rw [Bool.eq_false_iff, ne_eq, doesExist_eq_true]
  exact fun ⟨l, hl⟩ => h l (resolve_of_not_link hlink hl)

/-! ### Removing -/

/-- What `remove` does about the file itself. -/
def removeEntry {limit : Option ℕ} (p : FilePath) : FsProg Unit limit := do
  match ← sysCall fun w => w.unlink p with
  | .ok () => pure ()
  | .error err => if err = eNoEnt then pure () else .throw ⟨err, [p]⟩

/-- `remove()` removes the entries of a directory, and then the file itself. -/
theorem remove_succ {limit : Option ℕ} (depth : ℕ) (p : FilePath) (flags : PathFlags) :
    (remove (depth + 1) p flags : FsProg Unit limit) = Prog.get >>= fun w =>
      if flags.recurse && p.isDirectory w {} && !p.isSymlink w then
        p.directory >>= fun children =>
          children.forM (fun child => remove depth child { recurse := true }) >>= fun _ =>
            removeEntry p
      else removeEntry p := rfl

/-- Only the file at the path is removed. -/
theorem removeEntry_spec : (removeEntry p).Ensures w fun r w' =>
    w.Shrinks (w.Outside p) w' ∧ (r = .ok () → ∀ l, w'.resolve false p ≠ .ok (.found l)) := by
  refine sysCall_ensures (fun err w' hlike herr => ?_) fun t a w' hlike hok => ?_
  · refine .ite (fun heq => .ret ⟨hlike.shrinks, fun _ l => ?_⟩) fun _ =>
      .throw ⟨hlike.shrinks, by simp⟩
    subst heq
    rcases herr with hact | hne
    · exact World.unlink_eq_noEntry hact l
    · exact absurd rfl hne.1
  · obtain ⟨l, n, hleaf, hfound, rfl⟩ := World.unlink_eq_ok hok
    have hremoved := FileTree.extends_erase hleaf
    rw [hlike.resolve_eq] at hfound
    have hshrinks : w.Shrinks (w.Outside p)
        { w' with tree := w'.tree.erase l n hleaf } := by
      refine hlike.shrinks.trans ⟨hremoved, fun k hk => ?_, rfl, fun h => h⟩
      refine FileTree.look_erase_of_ne hleaf ?_
      rintro rfl
      exact hk _ hfound List.prefix_rfl
    refine .ret ⟨hshrinks, fun _ k hk => ?_⟩
    obtain ⟨place, hplace, hloc⟩ := hshrinks.resolve_loc hk
    rw [hfound] at hplace
    obtain rfl := Except.ok.inj hplace
    refine World.look_of_found hk ?_
    rw [← show l ++ [n] = k from hloc]
    exact FileTree.look_erase hleaf

/-- What is outside a directory is outside the paths of its entries. -/
theorem outside_child {w' : World} {P : Loc → Prop} {l : Loc} (hs : w.Shrinks P w')
    (hdir : w.getStat p {} = some (l, .dir)) (hlink : p.isSymlink w = false) (n : Bytes)
    {k : Loc} (hk : w.Outside p k) : w'.Outside (p.descend [n]) k := by
  intro place hplace
  obtain ⟨hfollow, hl⟩ := World.getStat_eq_some.mp hdir
  have hplace₀ := resolve_of_not_link hlink hfollow
  obtain ⟨place', hplace', hloc⟩ := hs.resolve_loc hplace
  have hchild := World.resolve_child hfollow hl n
  have hin : l <+: place'.loc := by
    rw [hchild] at hplace'
    obtain rfl := Except.ok.inj hplace'
    split <;> exact List.prefix_append _ _
  rw [← hloc]
  exact fun hp => hk _ hplace₀ (hin.trans hp)

/-- `remove()` leaves everything outside its path alone. When it returns, its path leads to
nothing. -/
theorem remove_spec {depth : ℕ} {flags : PathFlags} : (remove depth p flags).Ensures w fun r w' =>
    w.Shrinks (w.Outside p) w' ∧ (r = .ok () → ∀ l, w'.resolve false p ≠ .ok (.found l)) := by
  induction depth generalizing p flags w with
  | zero => exact .diverge
  | succ depth ih =>
      -- the entry itself is removed last, from what is left
      have hentry : ∀ w₁, w.Shrinks (w.Outside p) w₁ → (removeEntry p).Ensures w₁ fun r w' =>
          w.Shrinks (w.Outside p) w' ∧
            (r = .ok () → ∀ l, w'.resolve false p ≠ .ok (.found l)) := by
        intro w₁ hs
        refine removeEntry_spec.mono fun r w' ⟨hs', hgone⟩ => ⟨hs.trans (hs'.mono ?_), hgone⟩
        intro l hl place hplace
        obtain ⟨place', hplace', hloc⟩ := hs.resolve_loc hplace
        rw [← hloc]
        exact hl _ hplace'
      rw [remove_succ]
      refine .get_bind (.ite (fun hdir => ?_) fun _ => hentry w (.refl w))
      simp only [Bool.and_eq_true, Bool.not_eq_true'] at hdir
      obtain ⟨⟨-, hdir⟩, hlink⟩ := hdir
      obtain ⟨l, hl⟩ := isDirectory_eq_true.mp hdir
      refine directory_ensures hl fun ns w₀ hlike _ _ => .bind ?_
      refine .forM_map (fun _ w₁ => w.Shrinks (w.Outside p) w₁) ns hlike.shrinks ?_ hentry
      intro done n rest w₁ _ hs
      refine ih.mono fun r w' ⟨hs', _⟩ => ?_
      have hchild := hs.trans (hs'.mono fun k hk => outside_child hs hl hlink n hk)
      cases r with
      | ok u => exact hchild
      | error err => exact ⟨hchild, by simp⟩

/-! ### Making a directory -/

/-- What comes after a call that creates a node, from a world like the first one. -/
theorem create_ensures {β : Type} {Q : Except SystemError β → World → Prop} {w₁ : World}
    {e : Entry Bytes Bytes} {f : Except ℕ Unit → FsProg β} (h : w.Like w₁)
    (herr : ∀ err w', w.Like w' → (f (.error err)).Ensures w' Q)
    (hok : ∀ w' l n, w.resolve false p = .ok (.missing l n) → w.Adds l n e w' →
      (f (.ok ())).Ensures w' Q) :
    (sysCall (fun w => w.create p e) >>= f).Ensures w₁ Q := by
  refine sysCall_ensures (fun err w' hlike _ => herr err w' (h.trans hlike))
    fun t a w' hlike hact => ?_
  obtain ⟨l, n, hdir, hnew, hmissing, rfl⟩ := World.create_eq_ok hact
  have hlike' := h.trans hlike
  rw [hlike'.resolve_eq] at hmissing
  exact hok _ l n hmissing (.of_like hlike' (.of_insert hdir hnew))

/-- `make_directory()` is one call for the whole path, whatever it does about its parent. -/
theorem makeDirectory_eq {limit : Option ℕ} (p : FilePath) (flags : PathFlags) :
    ∃ above : ℕ → FsProg Unit limit,
      makeDirectory p flags = makeDirectoryOnce p flags above := by
  unfold makeDirectory
  have hp : p = ⟨p.isAbsolute, p.elements.reverse.reverse⟩ := by rw [List.reverse_reverse]
  cases hrev : p.elements.reverse with
  | nil =>
      rw [hrev] at hp
      exact ⟨_, congrArg (makeDirectoryOnce · flags _) hp.symm⟩
  | cons e es =>
      rw [hrev] at hp
      rw [makeDirectoryRev, ← hp]
      exact ⟨_, rfl⟩

/-- If there is nothing at its path, `make_directory()` without flags makes a new directory
there, or throws and changes nothing. -/
theorem makeDirectory_spec (hnone : p.doesExist w {} = false) :
    (makeDirectory p {}).Ensures w fun r w' =>
      match r with
      | .ok _ => ∃ l n, w.resolve false p = .ok (.missing l n) ∧ w.Adds l n .dir w'
      | .error _ => w.Like w' := by
  have hdir : ∀ w', w.Like w' → ¬ p.isDirectory w' {} = true := by
    intro w' hlike hdir
    obtain ⟨l, hl⟩ := isDirectory_eq_true.mp hdir
    rw [hlike.getStat_eq] at hl
    rw [doesExist_eq_true.mpr ⟨l, (World.getStat_eq_some.mp hl).1⟩] at hnone
    cases hnone
  have honce : ∀ above, (makeDirectoryOnce p {} above).Ensures w fun r w' =>
      match r with
      | .ok _ => ∃ l n, w.resolve false p = .ok (.missing l n) ∧ w.Adds l n .dir w'
      | .error _ => w.Like w' := by
    intro above
    refine create_ensures (.refl w) (fun err w₁ hlike => .get_bind ?_) fun w' l n hp hadds =>
      .ret ⟨l, n, hp, hadds⟩
    -- an existing file is an error, and everything else is tried once more
    refine .ite (fun h => absurd h.2 (hdir w₁ hlike)) fun _ => .ite (fun _ => ?_) fun hne => ?_
    · exact .bind (.throw hlike)
    · refine .ite (fun h => absurd ⟨h, rfl⟩ hne) fun _ => ?_
      refine .ite (fun h => absurd h.2.1 (by simp)) fun _ => ?_
      exact create_ensures hlike (fun err w₂ hlike' => .throw hlike') fun w' l n hp hadds =>
        .ret ⟨l, n, hp, hadds⟩
  obtain ⟨above, habove⟩ := makeDirectory_eq p {}
  rw [habove]
  exact honce above

end FilePath

end RsIo
