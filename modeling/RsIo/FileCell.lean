import RsIo.FileLoad
import RsIo.FileSave

/-!
# A File as a Cell

What a program can expect of one file if nothing goes wrong: a cell that has a content or is
empty. `exists`, `load`, `save` and `remove` on a path do what these calls do on the cell, in
any order and with any flags, and leave all other files alone. The path may go through links and
`..`, but is no link itself, and it stands for no standard stream.

A directory can be opened for reading, and nothing can be read of it.

## Main results

* `FileTree.walk_swap`: the path goes on leading to the place while the file comes and goes.
* `FileCell.step`: one call.
* `FilePath.cell_calls`: any calls, one after another.
-/

namespace RsIo

open FileTree (Place SameOn)

/-- `fopen` for reading in `Path::load`, and what can be read. -/
def World.openLoad (w : World) (p : FilePath) : Except ℕ (Tree × Bytes) :=
  match w.resolve true p with
  | .error err => .error (errnoOf err)
  | .ok (.missing _ _) => .error eNoEnt
  | .ok (.found l) =>
      match w.tree.look l with
      | some (.file content) => .ok (w.tree, content)
      | _ => .ok (w.tree, [])

theorem World.Lossless.nextLoss_eq {w : World} (hw : w.Lossless) :
    nextLoss w = some (.ok none, { w with losses := w.losses.tail }) := by
  have hrun : nextLoss w = some (.ok w.losses.head?.join, { w with losses := w.losses.tail }) := rfl
  obtain ⟨loss, hloss, -, hnone⟩ := nextLoss_spec _ _ hrun
  rw [hrun, Except.ok.inj hloss, hnone hw]

theorem World.opens_missing {w : World} {p : FilePath} {l : Loc} {n : Bytes}
    (h : w.resolve true p = .ok (.missing l n)) :
    (∃ r, w.openAppend p = .ok r) ∧ ∃ r, w.openWrite p = .ok r := by
  have hin : w.tree.look l = some .dir ∧ w.tree.look (l ++ [n]) = none := World.resolve_in h
  simp only [World.openAppend, World.openWrite, h, dif_pos hin]
  exact ⟨⟨_, rfl⟩, _, rfl⟩

theorem World.opens_found {w : World} {p : FilePath} {l : Loc} {str : Bytes}
    (h : w.resolve true p = .ok (.found l)) (hl : w.tree.look l = some (.file str)) :
    (∃ r, w.openAppend p = .ok r) ∧ ∃ r, w.openWrite p = .ok r := by
  refine ⟨⟨(w.tree, l, str.length), ?_⟩, (w.tree.write l [] ⟨str, hl⟩, l), ?_⟩
  · simp only [World.openAppend, h, hl]
  · unfold World.openWrite
    rw [h]
    dsimp only
    split
    next content hcontent => rfl
    next hnot => exact absurd hl (hnot str)

namespace FilePath

/-- `Path::load` for a path that does not stand for the standard input: what it leaves in the
string. The error that ends the reading is not reported. -/
def load (p : FilePath) (maxlen : ℕ) (flags : PathFlags) : FsProg Bytes := do
  match ← sysCall fun w => w.openLoad p with
  | .error _ => if flags.mayFail then pure [] else .throw ⟨eIo, [p]⟩
  | .ok content => do
      let errorAfter ← nextLoss
      pure (Path.loadLoop ⟨content, errorAfter⟩ maxlen [])

end FilePath

/-- A call on a path. -/
inductive FileCall
  | doesExist (flags : PathFlags)
  | load (maxlen : ℕ) (flags : PathFlags)
  | save (str : Bytes) (flags : PathFlags)
  | remove (flags : PathFlags)
  deriving DecidableEq, Repr

/-- What a call returns. -/
inductive FileReply
  | done
  | exists_ (b : Bool)
  | content (str : Bytes)
  deriving DecidableEq, Repr

namespace FileCall

/-- The call, as the library makes it. -/
def onDisk (p : FilePath) (rounds : ℕ) : FileCall → SessionProg FileReply
  | .doesExist flags => do
      let s ← Prog.get
      pure (.exists_ (p.doesExist s.world flags))
  | .load maxlen flags => do
      let str ← onFiles (p.load maxlen flags)
      pure (.content str)
  | .save str flags => do
      p.save rounds str flags
      pure .done
  | .remove flags => do
      onFiles (FilePath.remove 1 p flags)
      pure .done

/-- What the call does to a content, if there is one. -/
def onCell (p : FilePath) : FileCall → Option Bytes → Except SaveError FileReply × Option Bytes
  | .doesExist _, c => (.ok (.exists_ c.isSome), c)
  | .load maxlen _, some c => (.ok (.content (c.take maxlen)), some c)
  | .load _ flags, none =>
      (if flags.mayFail then .ok (.content []) else .error (.system ⟨eIo, [p]⟩), none)
  | .save str flags, c =>
      if flags.append && flags.overwrite then
        (.error (.invalidArgument ⟨"Invalid options to Path::save()", none⟩), c)
      else
        match c with
        | none => (.ok .done, some str)
        | some old =>
            if flags.append then (.ok .done, some (old ++ str))
            else if flags.overwrite then (.ok .done, some str)
            else (.error (.system ⟨eExist, [p]⟩), some old)
  | .remove _, _ => (.ok .done, none)

end FileCall

/-- The path leads to `l`, where there is a file with the content `c` or nothing. Everything else
is as it was in `s₀`, and nothing will go wrong. -/
structure FileCell (s₀ : Session) (p : FilePath) (rounds : ℕ) (l : Loc) (s : Session)
    (c : Option Bytes) : Prop where
  place : ∃ place, s.world.resolve false p = .ok place ∧ place.loc = l
  look : s.world.tree.look l = c.map .file
  others : SameOn (· ≠ l) s₀.world.tree s.world.tree
  cwd : s.world.cwd = s₀.world.cwd
  stdout : s.stdout = s₀.stdout
  faultless : s.world.Faultless
  lossless : s.world.Lossless
  rounds : s.world.faults.length + 1 < rounds

namespace FileCell

variable {s₀ s s' : Session} {p : FilePath} {rounds : ℕ} {l : Loc} {c c' : Option Bytes}

/-- Where the path leads, whether a link at its end is followed or not. -/
theorem resolve (h : FileCell s₀ p rounds l s c) (follow : Bool) :
    (c = none ∧ ∃ d n, l = d ++ [n] ∧ s.world.resolve follow p = .ok (.missing d n)) ∨
      ∃ str, c = some str ∧ s.world.resolve follow p = .ok (.found l) := by
  obtain ⟨place, hplace, rfl⟩ := h.place
  have hfollow : s.world.resolve follow p = .ok place := by
    cases follow with
    | false => exact hplace
    | true =>
      rw [World.resolve_eq_ok] at hplace ⊢
      refine ⟨hplace.1, FileTree.walk_follow hplace.2 fun target htarget => ?_⟩
      rw [h.look, Option.map_eq_some_iff] at htarget
      obtain ⟨str, -, hstr⟩ := htarget
      cases hstr
  have hin := World.resolve_in hplace
  cases place with
  | found l =>
    obtain ⟨str, hstr⟩ : ∃ str, c = some str := by
      refine Option.ne_none_iff_exists'.mp fun hnone => hin ?_
      rw [show s.world.tree.look l = c.map .file from h.look, hnone]
      rfl
    exact .inr ⟨str, hstr, hfollow⟩
  | missing d n =>
    refine .inl ⟨?_, d, n, rfl, hfollow⟩
    have hnone := (show s.world.tree.look (d ++ [n]) = c.map .file from h.look).symm.trans hin.2
    exact Option.map_eq_none_iff.mp hnone

/-- The cell goes on if nothing but the file changes. -/
theorem change (h : FileCell s₀ p rounds l s c) (hlook : s'.world.tree.look l = c'.map .file)
    (hothers : SameOn (· ≠ l) s.world.tree s'.world.tree) (hcwd : s'.world.cwd = s.world.cwd)
    (hstdout : s'.stdout = s.stdout) (hfaults : s'.world.faults <:+ s.world.faults)
    (hlosses : s'.world.losses <:+ s.world.losses) : FileCell s₀ p rounds l s' c' where
  place := by
    obtain ⟨place, hplace, hloc⟩ := h.place
    obtain ⟨hne, hwalk⟩ := World.resolve_eq_ok.mp hplace
    have hfile : ∀ {t : Tree} {c : Option Bytes}, t.look l = c.map .file →
        ∀ e, t.look l = some e → ∃ str, e = .file str := by
      intro t c hl e he
      rw [hl, Option.map_eq_some_iff] at he
      obtain ⟨str, -, hstr⟩ := he
      exact ⟨str, hstr.symm⟩
    obtain ⟨place', hplace', hloc'⟩ := FileTree.walk_swap hothers (hfile h.look) (hfile hlook)
      hwalk (World.resolve_start hplace)
    exact ⟨place', World.resolve_eq_ok.mpr ⟨hne, hcwd ▸ hplace'⟩, hloc'.trans hloc⟩
  look := hlook
  others := h.others.trans hothers
  cwd := hcwd.trans h.cwd
  stdout := hstdout.trans h.stdout
  faultless := fun fault hfault => h.faultless fault (hfaults.subset hfault)
  lossless := fun loss hloss => h.lossless loss (hlosses.subset hloss)
  rounds := by
    have hle := hfaults.length_le
    have hlt := h.rounds
    omega

/-- Something was used up, and the rest is the same. -/
theorem spent {w : World} (h : FileCell s₀ p rounds l s c) (hw : s.world.Spent w) :
    FileCell s₀ p rounds l { s with world := w } c :=
  h.change (hw.tree ▸ h.look) (fun k _ => by rw [hw.tree]) hw.cwd rfl hw.faults hw.losses

/-- The path has a file exactly if the cell has a content. -/
theorem getStat_eq (h : FileCell s₀ p rounds l s c) (flags : PathFlags) :
    s.world.getStat p flags = c.map fun str => (l, .file str) := by
  rcases h.resolve (!flags.noFollow) with ⟨rfl, d, n, -, hp⟩ | ⟨str, rfl, hp⟩
  · refine Option.eq_none_iff_forall_ne_some.mpr ?_
    rintro ⟨k, e⟩ hk
    cases hp.symm.trans (World.getStat_eq_some.mp hk).1
  · exact World.getStat_eq_some.mpr ⟨hp, h.look⟩

theorem doesExist_eq (h : FileCell s₀ p rounds l s c) (flags : PathFlags) :
    p.doesExist s.world flags = c.isSome := by
  rw [FilePath.doesExist, h.getStat_eq, Option.isSome_map]

/-- It is no directory, and `remove` has no entries to remove. -/
theorem isDirectory_eq (h : FileCell s₀ p rounds l s c) (flags : PathFlags) :
    p.isDirectory s.world flags = false := by
  rw [FilePath.isDirectory, h.getStat_eq]
  cases c <;> rfl

/-- The file is opened, or is not there. -/
theorem openLoad_eq (h : FileCell s₀ p rounds l s c) : s.world.next.openLoad p =
    c.elim (.error eNoEnt) fun str => .ok (s.world.tree, str) := by
  unfold World.openLoad
  rcases h.resolve true with ⟨rfl, d, n, -, hp⟩ | ⟨str, rfl, hp⟩
  · rw [show s.world.next.resolve true p = _ from hp]
    rfl
  · rw [show s.world.next.resolve true p = _ from hp]
    simp only [show s.world.next.tree.look l = some (.file str) from h.look]
    rfl

/-! ### The calls -/

/-- A program on the files with a known run. -/
theorem onFiles_bind {α : Type} {m : FsProg α} {a : α} {w : World}
    {f : α → SessionProg FileReply} (h : m s.world = some (.ok a, w)) :
    (onFiles m >>= f) s = f a { s with world := w } :=
  Prog.bind_of_ok (by rw [onFiles, h]; rfl)

/-- What is read, or why nothing is. -/
theorem load (h : FileCell s₀ p rounds l s c) (maxlen : ℕ) (flags : PathFlags) :
    ∃ s', (FileCall.load maxlen flags).onDisk p rounds s =
        some (((FileCall.load maxlen flags).onCell p c).1, s') ∧
      FileCell s₀ p rounds l s' ((FileCall.load maxlen flags).onCell p c).2 := by
  have hopen := h.openLoad_eq
  cases c with
  | none =>
    have hrun : p.load maxlen flags s.world = some (
        if flags.mayFail then .ok [] else .error ⟨eIo, [p]⟩, s.world.next) := by
      rw [FilePath.load, Prog.bind_of_ok (h.faultless.sysCall_error hopen)]
      cases flags.mayFail <;> rfl
    refine ⟨{ s with world := s.world.next }, ?_, h.spent (next_spent _)⟩
    cases hfail : flags.mayFail with
    | true =>
      rw [hfail, if_pos rfl] at hrun
      simp only [FileCall.onDisk, FileCall.onCell, hfail, onFiles_bind hrun, if_true]
      rfl
    | false =>
      rw [hfail, if_neg (by simp)] at hrun
      have herror : onFiles (p.load maxlen flags) s =
          some (.error (.system ⟨eIo, [p]⟩), { s with world := s.world.next }) := by
        rw [onFiles, hrun]
        rfl
      simp only [FileCall.onDisk, FileCall.onCell, hfail, Bool.false_eq_true, if_false]
      exact Prog.bind_of_error herror
  | some str =>
    have hloss := World.Lossless.nextLoss_eq (w := { s.world.next with tree := s.world.tree })
      h.lossless
    have hrun : p.load maxlen flags s.world =
        some (.ok (str.take maxlen), { s.world.next with losses := s.world.losses.tail }) := by
      rw [FilePath.load, Prog.bind_of_ok (h.faultless.sysCall_ok hopen)]
      dsimp only
      rw [Prog.bind_of_ok hloss, Path.loadLoop_eq]
      simp only [Path.InFile.readable, Option.getD_none, List.take_length, List.nil_append,
        List.length_nil, Nat.sub_zero]
      rfl
    refine ⟨{ s with world := { s.world.next with losses := s.world.losses.tail } }, ?_,
      h.spent ⟨rfl, rfl, List.tail_suffix _, List.tail_suffix _⟩⟩
    simp only [FileCall.onDisk, FileCall.onCell]
    exact onFiles_bind hrun

/-- The file is removed, or was not there. -/
theorem remove (h : FileCell s₀ p rounds l s c) (flags : PathFlags) :
    ∃ s', (FileCall.remove flags).onDisk p rounds s = some (.ok .done, s') ∧
      FileCell s₀ p rounds l s' none := by
  have hremove : FilePath.remove 1 p flags s.world = FilePath.removeEntry p s.world := by
    rw [FilePath.remove_succ, Prog.get_bind, if_neg (by simp [h.isDirectory_eq])]
  rcases h.resolve false with ⟨rfl, d, n, -, hp⟩ | ⟨str, rfl, hp⟩
  · have hact : s.world.next.unlink p = .error eNoEnt := by
      unfold World.unlink
      rw [show s.world.next.resolve false p = _ from hp]
    have hrun : FilePath.remove 1 p flags s.world = some (.ok (), s.world.next) := by
      rw [hremove, FilePath.removeEntry, Prog.bind_of_ok (h.faultless.sysCall_error hact)]
      rfl
    exact ⟨_, onFiles_bind hrun, h.spent (next_spent _)⟩
  · have hdots : World.endsInDots p = false :=
      World.endsInDots_of_not_dir hp (by rw [show (Place.found l).loc = l from rfl, h.look]; simp)
    rcases List.eq_nil_or_concat l with rfl | ⟨d, n, rfl⟩
    · exact absurd (h.look.symm.trans s.world.tree.root) (by simp)
    rw [List.concat_eq_append] at h hp ⊢
    have hleaf : s.world.tree.names (d ++ [n]) = [] :=
      s.world.tree.names_of_look (by rw [h.look]; simp)
    have hact : s.world.next.unlink p = .ok (s.world.tree.erase d n hleaf, ()) := by
      unfold World.unlink
      rw [show s.world.next.resolve false p = _ from hp]
      simp only [hdots, Bool.false_eq_true, if_false, List.getLast?_append,
        List.getLast?_singleton, Option.some_or, List.dropLast_concat]
      exact dif_pos hleaf
    have hrun : FilePath.remove 1 p flags s.world =
        some (.ok (), { s.world.next with tree := s.world.tree.erase d n hleaf }) := by
      rw [hremove, FilePath.removeEntry, Prog.bind_of_ok (h.faultless.sysCall_ok hact)]
      rfl
    refine ⟨_, onFiles_bind hrun, h.change (FileTree.look_erase hleaf)
      (fun k hk => FileTree.look_erase_of_ne hleaf hk) rfl rfl (List.tail_suffix _)
      List.suffix_rfl⟩

/-- A file that is to be written can be opened. -/
theorem openOut_ne_error (h : FileCell s₀ p rounds l s c) (flags : PathFlags) (err : ℕ) :
    p.openOut flags s.world ≠ .error err := by
  have hopens : (∃ r, s.world.openAppend p = .ok r) ∧ ∃ r, s.world.openWrite p = .ok r := by
    rcases h.resolve true with ⟨rfl, d, n, -, hp⟩ | ⟨str, rfl, hp⟩
    · exact World.opens_missing hp
    · exact World.opens_found hp h.look
  obtain ⟨⟨r, happend⟩, r', hwrite⟩ := hopens
  rw [FilePath.openOut, happend, hwrite]
  cases flags.append <;> exact fun heq => by cases heq

/-- What is written, and when nothing is. -/
theorem save (h : FileCell s₀ p rounds l s c) (hp : p ≠ FilePath.ofName (bytes "-")) (str : Bytes)
    (flags : PathFlags) :
    ∃ s', (FileCall.save str flags).onDisk p rounds s =
        some (((FileCall.save str flags).onCell p c).1, s') ∧
      FileCell s₀ p rounds l s' ((FileCall.save str flags).onCell p c).2 := by
  have hstdio : p.isStdio flags = false := by
    have hempty : p ≠ ⟨false, []⟩ := by
      rintro rfl
      obtain ⟨place, hplace, -⟩ := h.place
      exact (World.resolve_eq_ok.mp hplace).1 ⟨rfl, rfl⟩
    simp [FilePath.isStdio, hp, hempty]
  obtain ⟨r, s', hrun, hsaved⟩ := FilePath.save_saves p str flags s h.rounds
  rcases hsaved with ⟨err, rfl, hrefused, hstdout, hspent⟩ | ⟨hoptions, out, before, data, hopens,
    -, hsets, hr⟩
  · have hcell : (FileCall.save str flags).onCell p c = (.error err, c) := by
      cases hrefused with
      | options hoptions => simp only [FileCall.onCell, if_pos hoptions]
      | exists_ hnone hthere =>
        rw [h.doesExist_eq] at hthere
        obtain ⟨old, rfl⟩ := Option.isSome_iff_exists.mp hthere
        obtain ⟨happend, hover⟩ := Bool.or_eq_false_iff.mp hnone
        simp [FileCall.onCell, happend, hover]
      | notOpened hopen =>
        obtain ⟨err, herr⟩ := hopen h.faultless
        exact absurd herr (h.openOut_ne_error flags err)
    rw [hcell]
    exact ⟨s', Prog.bind_of_error hrun, h.change (hspent.tree ▸ h.look)
      (fun k _ => by rw [hspent.tree]) hspent.cwd hstdout hspent.faults hspent.losses⟩
  · obtain ⟨rfl, hall⟩ : r = .ok () ∧ (s.world.Lossless → data = str) :=
      hr.resolve_right fun herr => herr.2 h.faultless
    obtain rfl := hall h.lossless
    simp only [FilePath.Opens, hstdio, Bool.false_eq_true, if_false] at hopens
    obtain ⟨k, rfl, hplace⟩ := hopens
    obtain ⟨rfl, hcell⟩ : k = l ∧
        (FileCall.save data flags).onCell p c = (.ok .done, some (before ++ data)) := by
      rcases h.resolve true with ⟨rfl, d, n, rfl, hp⟩ | ⟨old, rfl, hp⟩
      · obtain ⟨d', n', hp', rfl, rfl⟩ := hplace.resolve_right fun hfound => by
          obtain ⟨_, hfound, -⟩ := hfound
          cases hp.symm.trans hfound
        cases hp.symm.trans hp'
        simp [FileCall.onCell, hoptions]
      · obtain ⟨old', hp', hold, hoption, rfl⟩ := hplace.resolve_left fun hmissing => by
          obtain ⟨_, _, hmissing, -⟩ := hmissing
          cases hp.symm.trans hmissing
        cases hp.symm.trans hp'
        cases h.look.symm.trans hold
        refine ⟨rfl, ?_⟩
        cases happend : flags.append with
        | true =>
          rw [happend, Bool.true_and] at hoptions
          simp [FileCall.onCell, happend, hoptions]
        | false =>
          rw [happend, Bool.false_or] at hoption
          simp [FileCall.onCell, happend, hoption]
    rw [hcell]
    exact ⟨s', Prog.bind_of_ok hrun, h.change hsets.2.look hsets.2.others hsets.2.cwd hsets.1
      hsets.2.faults hsets.2.losses⟩

/-- A call does to the file what it does to the cell. -/
theorem step (hp : p ≠ FilePath.ofName (bytes "-")) (call : FileCall)
    (h : FileCell s₀ p rounds l s c) :
    ∃ s', call.onDisk p rounds s = some ((call.onCell p c).1, s') ∧
      FileCell s₀ p rounds l s' (call.onCell p c).2 := by
  cases call with
  | doesExist flags =>
    refine ⟨s, ?_, h⟩
    rw [FileCall.onDisk, Prog.get_bind, h.doesExist_eq]
    rfl
  | load maxlen flags => exact h.load maxlen flags
  | save str flags => exact h.save hp str flags
  | remove flags => exact h.remove flags

end FileCell

/-- **Files.** If nothing goes wrong, any calls of `exists`, `load`, `save` and `remove` on a path
return and throw what the calls on a cell do, and leave the file with the content of the cell.
Everything else is left alone. -/
theorem FilePath.cell_calls {s : Session} {p : FilePath} {place : Place Bytes} {c : Option Bytes}
    {rounds : ℕ} (hp : p ≠ FilePath.ofName (bytes "-"))
    (hplace : s.world.resolve false p = .ok place)
    (hlook : s.world.tree.look place.loc = c.map .file) (hfaultless : s.world.Faultless)
    (hlossless : s.world.Lossless) (hrounds : s.world.faults.length + 1 < rounds)
    (calls : List FileCall) :
    ∃ s', Prog.runEach (FileCall.onDisk p rounds) calls s =
        some ((Prog.answers (FileCall.onCell p) calls c).1, s') ∧
      s'.world.tree.look place.loc = (Prog.answers (FileCall.onCell p) calls c).2.map .file ∧
      SameOn (· ≠ place.loc) s.world.tree s'.world.tree ∧ s'.stdout = s.stdout := by
  have hcell : FileCell s p rounds place.loc s c :=
    ⟨⟨place, hplace, rfl⟩, hlook, .refl _, rfl, rfl, hfaultless, hlossless, hrounds⟩
  obtain ⟨s', hrun, hcell'⟩ :=
    Prog.runEach_eq (fun call _ _ h => FileCell.step hp call h) calls hcell
  exact ⟨s', hrun, hcell'.look, hcell'.others, hcell'.stdout⟩

/-- A file is created through a directory and back, appended to, loaded, and removed. -/
theorem FilePath.cell_calls_creates : ∃ s',
    Prog.runEach (FileCall.onDisk ⟨false, [.name [100], .parent, .name [102]]⟩ 2)
      [.save [1] {}, .save [2, 3] { append := true }, .save [4] {}, .load 2 {},
        .remove { recurse := true }, .load 2 {}, .doesExist { noFollow := true }]
        ⟨⟨.single [100] .dir, [], [], []⟩, []⟩ =
      some ([.ok .done, .ok .done,
        .error (.system ⟨eExist, [⟨false, [.name [100], .parent, .name [102]]⟩]⟩),
        .ok (.content [1, 2]), .ok .done,
        .error (.system ⟨eIo, [⟨false, [.name [100], .parent, .name [102]]⟩]⟩),
        .ok (.exists_ false)], s') ∧
    s'.world.tree.look [[102]] = none := by
  obtain ⟨s', hrun, hlook, -, -⟩ := @FilePath.cell_calls ⟨⟨.single [100] .dir, [], [], []⟩, []⟩
    ⟨false, [.name [100], .parent, .name [102]]⟩ (.missing [] [102]) none 2 (by decide) (by decide)
    (by decide) nofun nofun (by decide)
    [.save [1] {}, .save [2, 3] { append := true }, .save [4] {}, .load 2 {},
      .remove { recurse := true }, .load 2 {}, .doesExist { noFollow := true }]
  exact ⟨s', hrun, hlook⟩

end RsIo
