import RsIo.FileFrame

/-!
# Saving a File

The function `Path::save`, on the Unix branch. The file is opened for writing or for appending,
and `fwrite` is called until everything is written, or an error is reported.

A call of `fwrite` that fails may have written a part of the block. One that writes less than the
block and leaves `errno` alone is tried again with the rest, so the loop takes a bound on the
number of its rounds. What `fclose` cannot write is lost without an error.

## Main results

* `FilePath.saveLoop_spec`: the loop writes the string, or a first part of it.
* `FilePath.save_saves`: a call returns or throws; what it has written then, and what it leaves
  alone.
-/

namespace RsIo

open FileTree (Place)

/-- What `Path::save` works on: the file system, and what was written to the standard output. -/
structure Session where
  world : World
  stdout : Bytes

/-- The exceptions of `Path::save`. -/
inductive SaveError
  | invalidArgument (e : InvalidArgument)
  | system (e : SystemError)
  deriving DecidableEq, Repr

/-- A function that works on the file system and on the standard output. -/
abbrev SessionProg (α : Type) : Type :=
  Prog SaveError Session α

/-- A function that works on the file system only. -/
def onFiles {α : Type} (m : FsProg α) : SessionProg α := fun s =>
  (m s.world).map fun x => (x.1.mapError .system, { s with world := x.2 })

/-- The file at a location with a new content. -/
def World.rewrite (w : World) (out : Loc) (f : Bytes → Bytes) : World :=
  { w with
    tree :=
      match h : w.tree.look out with
      | some (.file old) => w.tree.write out (f old) ⟨old, h⟩
      | _ => w.tree }

/-- `fopen` for appending: an existing file keeps its content, whose length is returned. A
missing file is created. -/
def World.openAppend (w : World) (p : FilePath) : Except ℕ (Tree × Loc × ℕ) :=
  match w.resolve true p with
  | .error err => .error (errnoOf err)
  | .ok (.found l) =>
      match w.tree.look l with
      | some (.file content) => .ok (w.tree, l, content.length)
      | _ => .error eIsDir
  | .ok (.missing _ _) => (w.openWrite p).map fun r => (r.1, r.2, 0)

/-- A stream to write to: the standard output, or a file and the length it had. -/
inductive OutFile
  | stdout
  | file (loc : Loc) (before : ℕ)
  deriving DecidableEq, Repr

/-- What a stream has accepted. -/
def Session.write (s : Session) (data : Bytes) : OutFile → Session
  | .stdout => { s with stdout := s.stdout ++ data }
  | .file loc _ => { s with world := s.world.rewrite loc (· ++ data) }

/-- `fwrite`, after `errno` was set to zero: the number of bytes it accepts, and `errno`. -/
def fwrite (out : OutFile) (data : Bytes) : SessionProg (ℕ × ℕ) := do
  match ← onFiles nextFault with
  | none => .step fun s => ((data.length, 0), s.write data out)
  | some err => do
      let kept ← onFiles nextLoss
      .step fun s =>
        ((min (kept.getD 0) data.length, err), s.write (data.take (kept.getD 0)) out)

/-- `fclose`, for a stream that `Path::save` has opened. -/
def closeOut : OutFile → FsProg Unit
  | .stdout => pure ()
  | .file loc before => do
      match ← nextLoss with
      | none => pure ()
      | some kept => .step fun w => ((), w.rewrite loc (·.take (before + kept)))

namespace FilePath

/-- Whether a path stands for the standard output. -/
def isStdio (p : FilePath) (flags : PathFlags) : Bool :=
  flags.stdio && (p == ⟨false, []⟩ || p == ofName (bytes "-"))

/-- The loop of `Path::save`, with at most `rounds` calls of `fwrite`. -/
def saveLoop (p : FilePath) (out : OutFile) : ℕ → Bytes → SessionProg Unit
  | 0, _ => .diverge
  | rounds + 1, rest =>
      if rest = [] then
        pure ()
      else do
        let r ← fwrite out rest
        if r.2 ≠ 0 then
          .throw (.system ⟨eIo, [p]⟩)
        else
          saveLoop p out rounds (rest.drop r.1)

/-- `fopen` in `Path::save`. -/
def openOut (p : FilePath) (flags : PathFlags) (w : World) : Except ℕ (Tree × OutFile) :=
  if flags.append then
    (w.openAppend p).map fun r => (r.1, .file r.2.1 r.2.2)
  else
    (w.openWrite p).map fun r => (r.1, .file r.2 0)

/-- `Path::save`. Whether the loop throws or not, the file is closed. -/
def save (rounds : ℕ) (p : FilePath) (str : Bytes) (flags : PathFlags) : SessionProg Unit :=
  if flags.append && flags.overwrite then
    .throw (.invalidArgument ⟨"Invalid options to Path::save()", none⟩)
  else if p.isStdio flags then
    saveLoop p .stdout rounds str
  else do
    let s ← Prog.get
    if !(flags.append || flags.overwrite) && p.doesExist s.world {} then
      .throw (.system ⟨eExist, [p]⟩)
    else
      match ← onFiles (sysCall (openOut p flags)) with
      | .error _ => .throw (.system ⟨eIo, [p]⟩)
      | .ok out => do
          Prog.tryCatch (saveLoop p out rounds str) fun err => do
            onFiles (closeOut out)
            Prog.throw err
          onFiles (closeOut out)

end FilePath

/-! ### What was used up -/

namespace World

variable {w w' w'' : World} {l out : Loc} {c c' : Bytes}

/-- The worlds differ at most in what will go wrong, of which some may be used up. -/
structure Spent (w w' : World) : Prop where
  tree : w'.tree = w.tree
  cwd : w'.cwd = w.cwd
  faults : w'.faults <:+ w.faults
  losses : w'.losses <:+ w.losses

/-- The later world has a file with the content `c` at `out`, and is otherwise the same. -/
structure Wrote (w : World) (out : Loc) (c : Bytes) (w' : World) : Prop where
  look : w'.tree.look out = some (.file c)
  others : FileTree.SameOn (· ≠ out) w.tree w'.tree
  cwd : w'.cwd = w.cwd
  faults : w'.faults <:+ w.faults
  losses : w'.losses <:+ w.losses

namespace Spent

/-- Nothing was used up. -/
theorem refl (w : World) : w.Spent w :=
  ⟨rfl, rfl, List.suffix_rfl, List.suffix_rfl⟩

/-- What was used up twice was used up. -/
theorem trans (h : w.Spent w') (h' : w'.Spent w'') : w.Spent w'' :=
  ⟨h'.tree.trans h.tree, h'.cwd.trans h.cwd, h'.faults.trans h.faults, h'.losses.trans h.losses⟩

/-- Without losses to come there are none later. -/
theorem lossless (h : w.Spent w') (hw : w.Lossless) : w'.Lossless :=
  fun loss hloss => hw loss (h.losses.subset hloss)

end Spent

namespace Wrote

/-- The last content counts. -/
theorem trans (h : w.Wrote out c w') (h' : w'.Wrote out c' w'') : w.Wrote out c' w'' :=
  ⟨h'.look, h.others.trans h'.others, h'.cwd.trans h.cwd, h'.faults.trans h.faults,
    h'.losses.trans h.losses⟩

/-- Something may be used up afterwards. -/
theorem spent (h : w.Wrote out c w') (h' : w'.Spent w'') : w.Wrote out c w'' :=
  ⟨h'.tree ▸ h.look, h'.tree ▸ h.others, h'.cwd.trans h.cwd, h'.faults.trans h.faults,
    h'.losses.trans h.losses⟩

/-- Without losses to come there are none after a write. -/
theorem lossless (h : w.Wrote out c w') (hw : w.Lossless) : w'.Lossless :=
  fun loss hloss => hw loss (h.losses.subset hloss)

end Wrote

/-- A file is written. -/
theorem rewrite_wrote (f : Bytes → Bytes) (h : w.tree.look out = some (.file c)) :
    w.Wrote out (f c) (w.rewrite out f) := by
  have hfile : ∃ old, w.tree.look out = some (.file old) := ⟨c, h⟩
  unfold rewrite
  split
  next old hold =>
    obtain rfl : c = old := Entry.file.inj (Option.some.inj (h.symm.trans hold))
    exact ⟨FileTree.look_write hfile, fun k hk => FileTree.look_write_of_ne hfile hk, rfl,
      List.suffix_rfl, List.suffix_rfl⟩
  next hnot => exact absurd h (hnot c)

end World

section Calls

variable {w : World} {α : Type}

/-- The next error is taken, and a later call meets another one. -/
theorem nextFault_run (w : World) : ∃ fault, nextFault w = some (.ok fault, w.next) ∧
    (fault ≠ none → w.next.faults.length < w.faults.length ∧ ¬ w.Faultless) := by
  refine ⟨_, rfl, fun hfault => ⟨?_, fun hw => hfault ?_⟩⟩
  · cases hfaults : w.faults with
    | nil => exact absurd (by simp [hfaults]) hfault
    | cons fault rest => simp [World.next, hfaults]
  · exact Except.ok.inj (congrArg Prod.fst (Option.some.inj hw.nextFault_eq))

/-- A system call uses up one error. -/
theorem next_spent (w : World) : w.Spent w.next :=
  ⟨rfl, rfl, List.tail_suffix _, List.suffix_rfl⟩

/-- A loss is taken. -/
theorem nextLoss_spec : nextLoss.Ensures w fun r w' =>
    ∃ loss, r = .ok loss ∧ w.Spent w' ∧ (w.Lossless → loss = none) := by
  refine .step ⟨_, rfl, ⟨rfl, rfl, List.suffix_rfl, List.tail_suffix _⟩, fun hlossless => ?_⟩
  change w.losses.head?.join = none
  cases hlosses : w.losses with
  | nil => rfl
  | cons loss rest => exact hlossless loss (hlosses ▸ List.mem_cons_self)

/-- A system call fails, or it does what it does in the world. -/
theorem sysCall_spec {act : World → Except ℕ (Tree × α)} : (sysCall act).Ensures w fun r w' =>
    (∃ err, r = .ok (.error err) ∧ w.Spent w' ∧ (w.Faultless → act w.next = .error err)) ∨
      ∃ t a, act w.next = .ok (t, a) ∧ r = .ok (.ok a) ∧ w' = { w.next with tree := t } := by
  obtain ⟨fault, hfault, hreal⟩ := nextFault_run w
  intro r w' hrun
  rw [sysCall, Prog.bind_of_ok hfault] at hrun
  cases fault with
  | some err =>
    obtain ⟨rfl, rfl⟩ := Prod.mk.inj (Option.some.inj hrun)
    exact .inl ⟨err, rfl, next_spent w, fun hw => absurd hw (hreal (by simp)).2⟩
  | none =>
    cases hact : act w.next with
    | error err =>
      simp only [Prog.step, hact] at hrun
      obtain ⟨rfl, rfl⟩ := Prod.mk.inj (Option.some.inj hrun)
      exact .inl ⟨err, rfl, next_spent w, fun _ => rfl⟩
    | ok x =>
      simp only [Prog.step, hact] at hrun
      obtain ⟨rfl, rfl⟩ := Prod.mk.inj (Option.some.inj hrun)
      exact .inr ⟨x.1, x.2, rfl, rfl, rfl⟩

end Calls

/-! ### Streams -/

namespace Session

variable {s s' s'' : Session} {out : OutFile} {c c' data : Bytes}

/-- What a stream has. -/
def Holds (s : Session) : OutFile → Bytes → Prop
  | .stdout, c => s.stdout = c
  | .file loc _, c => s.world.tree.look loc = some (.file c)

/-- The stream has `c` later, and everything else is the same. -/
def Sets (s : Session) : OutFile → Bytes → Session → Prop
  | .stdout, c, s' => s'.stdout = c ∧ s.world.Spent s'.world
  | .file loc _, c, s' => s'.stdout = s.stdout ∧ s.world.Wrote loc c s'.world

/-- What was written is there. -/
theorem Sets.holds (h : s.Sets out c s') : s'.Holds out c := by
  cases out with
  | stdout => exact h.1
  | file loc before => exact h.2.look

/-- The last content counts. -/
theorem Sets.trans (h : s.Sets out c s') (h' : s'.Sets out c' s'') : s.Sets out c' s'' := by
  cases out with
  | stdout => exact ⟨h'.1, h.2.trans h'.2⟩
  | file loc before => exact ⟨h'.1.trans h.1, h.2.trans h'.2⟩

/-- Without losses to come there are none after a write. -/
theorem Sets.lossless (h : s.Sets out c s') (hw : s.world.Lossless) : s'.world.Lossless := by
  cases out with
  | stdout => exact h.2.lossless hw
  | file loc before => exact h.2.lossless hw

/-- Without errors to come there are none after a write. -/
theorem Sets.faultless (h : s.Sets out c s') (hw : s.world.Faultless) : s'.world.Faultless := by
  cases out with
  | stdout => exact fun fault hfault => hw fault (h.2.faults.subset hfault)
  | file loc before => exact fun fault hfault => hw fault (h.2.faults.subset hfault)

/-- Errors are only used up. -/
theorem Sets.faults (h : s.Sets out c s') : s'.world.faults <:+ s.world.faults := by
  cases out with
  | stdout => exact h.2.faults
  | file loc before => exact h.2.faults

/-- Data is written behind the content. -/
theorem Holds.write (h : s.Holds out c) (data : Bytes) :
    s.Sets out (c ++ data) (s.write data out) := by
  cases out with
  | stdout => exact ⟨congrArg (· ++ data) h, .refl _⟩
  | file loc before => exact ⟨rfl, World.rewrite_wrote (· ++ data) h⟩

/-- Something was used up, and the rest is the same. -/
theorem Holds.spent {w : World} (h : s.Holds out c) (hw : s.world.Spent w) :
    s.Sets out c { s with world := w } := by
  cases out with
  | stdout => exact ⟨h, hw⟩
  | file loc before =>
    exact ⟨rfl, hw.tree ▸ h, fun k _ => by rw [hw.tree], hw.cwd, hw.faults, hw.losses⟩

end Session

/-- What a program on the files ensures, it ensures in a session. -/
theorem onFiles_ensures {α : Type} {m : FsProg α} {s : Session}
    {Q : Except SaveError α → Session → Prop}
    (h : m.Ensures s.world fun r w => Q (r.mapError .system) { s with world := w }) :
    (onFiles m).Ensures s Q := by
  intro r s' hrun
  obtain ⟨x, hx, heq⟩ := Option.map_eq_some_iff.mp hrun
  obtain ⟨rfl, rfl⟩ := Prod.mk.inj heq
  exact h x.1 x.2 hx

section Streams

variable {s : Session} {out : OutFile} {c : Bytes} {p : FilePath} {flags : PathFlags}

/-- `fwrite` accepts the first part of the block, all of it if there is no error. -/
theorem fwrite_spec (h : s.Holds out c) (data : Bytes) :
    (fwrite out data).Ensures s fun r s' => ∃ n err, r = .ok (n, err) ∧ n ≤ data.length ∧
      s.Sets out (c ++ data.take n) s' ∧
      (n = data.length ∧ err = 0 ∨
        s'.world.faults.length < s.world.faults.length ∧ ¬ s.world.Faultless) := by
  obtain ⟨fault, hfault, hless⟩ := nextFault_run s.world
  have hfirst : onFiles nextFault s = some (.ok fault, { s with world := s.world.next }) := by
    rw [onFiles, hfault]
    rfl
  have hspent := h.spent (next_spent s.world)
  refine .bind_run hfirst ?_
  cases fault with
  | none =>
    refine .step ⟨_, _, rfl, le_rfl, ?_, .inl ⟨rfl, rfl⟩⟩
    rw [List.take_length]
    exact hspent.trans (hspent.holds.write data)
  | some err =>
    refine .bind (onFiles_ensures (nextLoss_spec.mono fun r w hr => ?_))
    obtain ⟨loss, rfl, hw, -⟩ := hr
    have hloss := hspent.trans (hspent.holds.spent hw)
    have hwrite := hloss.holds.write (data.take (loss.getD 0))
    refine .step ⟨_, _, rfl, Nat.min_le_right .., ?_, .inr ?_⟩
    · rw [← List.take_eq_take_min]
      exact hloss.trans hwrite
    · obtain ⟨hlt, hreal⟩ := hless (by simp)
      exact ⟨lt_of_le_of_lt (hwrite.faults.trans hw.faults).length_le hlt, hreal⟩

namespace FilePath

/-- The loop writes a first part of what it is given, all of it if it returns. -/
theorem saveLoop_spec (rounds : ℕ) (h : s.Holds out c) (rest : Bytes) :
    (saveLoop p out rounds rest).Ensures s fun r s' => ∃ data, data <+: rest ∧
      s.Sets out (c ++ data) s' ∧
      (r = .ok () ∧ data = rest ∨
        r = .error (.system ⟨eIo, [p]⟩) ∧ ¬ s.world.Faultless) := by
  induction rounds generalizing s c rest with
  | zero => exact .diverge
  | succ rounds ih =>
    refine .ite (fun hnil => .ret ⟨[], List.nil_prefix, ?_, .inl ⟨rfl, hnil.symm⟩⟩) fun _ => ?_
    · rw [List.append_nil]
      exact h.spent (.refl _)
    refine .bind ((fwrite_spec h rest).mono fun r s₁ hr => ?_)
    obtain ⟨n, err, rfl, -, hsets, hall⟩ := hr
    refine .ite (fun herr => .throw ⟨_, List.take_prefix .., hsets, .inr ⟨rfl, ?_⟩⟩) fun _ => ?_
    · exact (hall.resolve_left fun h => herr h.2).2
    refine (ih hsets.holds (rest.drop n)).mono fun r s₂ ⟨data, hdata, hsets', hr⟩ => ?_
    refine ⟨rest.take n ++ data, ?_, ?_, hr.imp (fun hok => ⟨hok.1, ?_⟩) fun herr =>
      ⟨herr.1, fun hw => herr.2 (hsets.faultless hw)⟩⟩
    · conv_rhs => rw [← List.take_append_drop n rest]
      exact (List.prefix_append_right_inj _).mpr hdata
    · rw [← List.append_assoc]
      exact hsets.trans hsets'
    · rw [hok.2, List.take_append_drop]

/-- Each call of `fwrite` but the last two uses up a fault. -/
theorem saveLoop_halts {rounds : ℕ} (h : s.Holds out c) (rest : Bytes)
    (hrounds : s.world.faults.length + 1 < rounds) : (saveLoop p out rounds rest).Halts s := by
  induction rounds generalizing s c rest with
  | zero => exact absurd hrounds (Nat.not_lt_zero _)
  | succ rounds ih =>
    refine .ite (fun _ => .ret) fun _ => .bind ?_ ((fwrite_spec h rest).mono fun r s₁ hr x hx => ?_)
    · exact .bind_of_forall (by exact ⟨_, _, rfl⟩) fun fault s₁ => by
        cases fault with
        | none => exact .step
        | some err => exact .bind_of_forall ⟨_, _, rfl⟩ fun _ _ => .step
    · obtain ⟨n, err, rfl, -, hsets, hless⟩ := hr
      obtain rfl := Except.ok.inj hx
      refine .ite (fun _ => .throw) fun _ => ?_
      rcases hless with ⟨hall, -⟩ | ⟨hless, -⟩
      · rw [hall, List.drop_length]
        cases rounds with
        | zero => exact absurd hrounds (by omega)
        | succ rounds => exact .ret
      · exact ih hsets.holds _ (by omega)

/-! ### Opening and closing -/

/-- The stream that a call opens, and what it has then. A file that is there is opened only if
one of the options is set, and keeps its content only for appending. -/
def Opens (s : Session) (p : FilePath) (flags : PathFlags) (out : OutFile) (before : Bytes) :
    Prop :=
  if p.isStdio flags then
    out = .stdout ∧ before = s.stdout
  else
    ∃ l, out = .file l before.length ∧
      ((∃ d n, s.world.resolve true p = .ok (.missing d n) ∧ l = d ++ [n] ∧ before = []) ∨
        ∃ old, s.world.resolve true p = .ok (.found l) ∧ s.world.tree.look l = some (.file old) ∧
          (flags.append || flags.overwrite) = true ∧
          before = if flags.append then old else [])

/-- Why a call throws before it has written anything. -/
inductive Refused (s : Session) (p : FilePath) (flags : PathFlags) : SaveError → Prop
  | options : (flags.append && flags.overwrite) = true →
      Refused s p flags (.invalidArgument ⟨"Invalid options to Path::save()", none⟩)
  | exists_ : (flags.append || flags.overwrite) = false → p.doesExist s.world {} = true →
      Refused s p flags (.system ⟨eExist, [p]⟩)
  | notOpened : (s.world.Faultless → ∃ err, openOut p flags s.world.next = .error err) →
      Refused s p flags (.system ⟨eIo, [p]⟩)

/-- A file is opened at its end, or created. -/
theorem openAppend_eq_ok {w : World} {t : Tree} {l : Loc} {n : ℕ}
    (h : w.openAppend p = .ok (t, l, n)) :
    (∃ d m, ∃ hdir hnew, w.resolve true p = .ok (.missing d m) ∧ l = d ++ [m] ∧ n = 0 ∧
      t = w.tree.insert d m (.file []) hdir hnew) ∨
    ∃ old, w.resolve true p = .ok (.found l) ∧ w.tree.look l = some (.file old) ∧
      n = old.length ∧ t = w.tree := by
  unfold World.openAppend at h
  split at h
  next => cases h
  next k hk =>
    split at h
    next old hold =>
      cases h
      exact .inr ⟨old, hk, hold, rfl, rfl⟩
    next => cases h
  next d m hmissing =>
    unfold World.openWrite at h
    rw [hmissing] at h
    dsimp only at h
    split at h
    next hin =>
      cases h
      exact .inl ⟨d, m, hin.1, hin.2, hmissing, rfl, rfl, rfl⟩
    next => cases h

/-- A file is truncated, or a missing one created. -/
theorem openWrite_cases {w : World} {t : Tree} {l : Loc} (h : w.openWrite p = .ok (t, l)) :
    (∃ d m, ∃ hdir hnew, w.resolve true p = .ok (.missing d m) ∧ l = d ++ [m] ∧
      t = w.tree.insert d m (.file []) hdir hnew) ∨
    ∃ old, w.resolve true p = .ok (.found l) ∧ w.tree.look l = some (.file old) ∧
      ∃ hfile, t = w.tree.write l [] hfile := by
  by_cases hfound : ∃ k, w.resolve true p = .ok (.found k)
  · obtain ⟨k, hk⟩ := hfound
    unfold World.openWrite at h
    rw [hk] at h
    simp only at h
    split at h
    next old hold =>
      cases h
      exact .inr ⟨old, hk, hold, ⟨old, hold⟩, rfl⟩
    next => cases h
  · obtain ⟨d, m, hdir, hnew, hmissing, ht, hl⟩ :=
      World.openWrite_eq_ok (fun k hk => hfound ⟨k, hk⟩) h
    exact .inl ⟨d, m, hdir, hnew, hmissing, hl, ht⟩

/-- A call that may open the file opens what it is to open. -/
theorem openOut_spec {t : Tree} (hstdio : p.isStdio flags = false)
    (hnew : ¬ (!(flags.append || flags.overwrite) && p.doesExist s.world {}) = true)
    (h : openOut p flags s.world.next = .ok (t, out)) :
    ∃ before, Opens s p flags out before ∧
      s.Sets out before { s with world := { s.world.next with tree := t } } := by
  have hmissing : ∀ d m, ∀ (hdir : s.world.next.tree.look d = some .dir)
      (hnone : s.world.next.tree.look (d ++ [m]) = none),
      s.world.Wrote (d ++ [m]) [] { s.world.next with
        tree := s.world.next.tree.insert d m (.file []) hdir hnone } := fun d m hdir hnone =>
    ⟨FileTree.look_insert hdir hnone, fun k hk => FileTree.look_insert_of_ne hdir hnone hk, rfl,
      List.tail_suffix _, List.suffix_rfl⟩
  have hoption : ∀ l, s.world.resolve true p = .ok (.found l) →
      (flags.append || flags.overwrite) = true := fun l hl => by
    rwa [doesExist_eq_true.mpr ⟨l, hl⟩, Bool.and_true, Bool.not_eq_true', Bool.not_eq_false] at hnew
  simp only [Opens, hstdio, Bool.false_eq_true, if_false]
  rw [openOut] at h
  split at h
  next happend =>
    cases hopen : World.openAppend s.world.next p with
    | error err =>
      rw [hopen] at h
      cases h
    | ok r =>
      obtain ⟨t', l, n⟩ := r
      rw [hopen] at h
      cases h
      rcases openAppend_eq_ok hopen with ⟨d, m, hdir, hnone, hp, rfl, rfl, rfl⟩ |
        ⟨old, hp, hold, rfl, rfl⟩
      · exact ⟨[], ⟨_, rfl, .inl ⟨d, m, hp, rfl, rfl⟩⟩, rfl, hmissing d m hdir hnone⟩
      · refine ⟨old, ⟨l, rfl, .inr ⟨old, hp, hold, hoption l hp, ?_⟩⟩, rfl, ?_⟩
        · rw [if_pos happend]
        · exact ⟨hold, fun _ _ => rfl, rfl, List.tail_suffix _, List.suffix_rfl⟩
  next happend =>
    cases hopen : World.openWrite s.world.next p with
    | error err =>
      rw [hopen] at h
      cases h
    | ok r =>
      obtain ⟨t', l⟩ := r
      rw [hopen] at h
      cases h
      rcases openWrite_cases hopen with ⟨d, m, hdir, hnone, hp, rfl, rfl⟩ |
        ⟨old, hp, hold, hfile, rfl⟩
      · exact ⟨[], ⟨_, rfl, .inl ⟨d, m, hp, rfl, rfl⟩⟩, rfl, hmissing d m hdir hnone⟩
      · refine ⟨[], ⟨l, rfl, .inr ⟨old, hp, hold, hoption l hp, ?_⟩⟩, rfl, ?_⟩
        · rw [if_neg happend]
        · exact ⟨FileTree.look_write hfile, fun k hk => FileTree.look_write_of_ne hfile hk, rfl,
            List.tail_suffix _, List.suffix_rfl⟩

/-- What was written is kept, or a first part of it. -/
theorem closeOut_spec {before data : Bytes}
    (hout : out = .stdout ∨ ∃ l, out = .file l before.length)
    (h : s.Holds out (before ++ data)) :
    (onFiles (closeOut out)).Ensures s fun r s' => r = .ok () ∧ ∃ kept, kept <+: data ∧
      s.Sets out (before ++ kept) s' ∧ (s.world.Lossless → kept = data) := by
  refine onFiles_ensures ?_
  rcases hout with rfl | ⟨l, rfl⟩
  · exact .ret ⟨rfl, data, List.prefix_rfl, h.spent (.refl _), fun _ => rfl⟩
  · refine .bind (nextLoss_spec.mono fun r w hr => ?_)
    obtain ⟨loss, rfl, hw, hloss⟩ := hr
    have hsets := h.spent hw
    cases loss with
    | none => exact .ret ⟨rfl, data, List.prefix_rfl, hsets, fun _ => rfl⟩
    | some kept =>
      refine .step ⟨rfl, data.take kept, List.take_prefix .., ?_, fun hlossless =>
        absurd (hloss hlossless) (by simp)⟩
      refine hsets.trans ⟨rfl, ?_⟩
      have htake := World.rewrite_wrote (·.take (before.length + kept)) hsets.holds
      rwa [List.take_length_add_append] at htake

/-- The file is written and closed, whether the loop throws or not. -/
theorem writeOut_spec {before : Bytes} (rounds : ℕ) (str : Bytes)
    (hout : out = .stdout ∨ ∃ l, out = .file l before.length) (h : s.Holds out before) :
    (Prog.tryCatch (saveLoop p out rounds str) (fun err => do
      onFiles (closeOut out)
      Prog.throw err) >>= fun _ => onFiles (closeOut out)).Ensures s fun r s' =>
      ∃ data, data <+: str ∧ s.Sets out (before ++ data) s' ∧
        (r = .ok () ∧ (s.world.Lossless → data = str) ∨
          r = .error (.system ⟨eIo, [p]⟩) ∧ ¬ s.world.Faultless) := by
  refine .bind (.tryCatch ((saveLoop_spec rounds h str).mono fun r s₁ hr => ?_))
  obtain ⟨data, hdata, hsets, hr⟩ := hr
  have hclose := closeOut_spec hout hsets.holds
  rcases hr with ⟨rfl, rfl⟩ | ⟨rfl, hreal⟩
  · refine hclose.mono fun r s₂ ⟨hr, kept, hkept, hsets', hall⟩ => ?_
    exact ⟨kept, hkept, hsets.trans hsets', .inl ⟨hr, fun hw => hall (hsets.lossless hw)⟩⟩
  · refine .bind (hclose.mono fun r s₂ ⟨hr, kept, hkept, hsets', _⟩ => ?_)
    subst hr
    exact .throw ⟨kept, hkept.trans hdata, hsets.trans hsets', .inr ⟨rfl, hreal⟩⟩

/-- What a call may do. It throws and changes nothing, or it opens a stream and puts the string,
or a first part of it, behind what the stream has then. -/
def Saved (s : Session) (p : FilePath) (str : Bytes) (flags : PathFlags)
    (r : Except SaveError Unit) (s' : Session) : Prop :=
  (∃ err, r = .error err ∧ Refused s p flags err ∧ s'.stdout = s.stdout ∧
    s.world.Spent s'.world) ∨
  (flags.append && flags.overwrite) = false ∧ ∃ out before data, Opens s p flags out before ∧
    data <+: str ∧ s.Sets out (before ++ data) s' ∧
    (r = .ok () ∧ (s.world.Lossless → data = str) ∨
      r = .error (.system ⟨eIo, [p]⟩) ∧ ¬ s.world.Faultless)

/-- What `save` does, whatever goes wrong. -/
theorem save_spec (rounds : ℕ) (p : FilePath) (str : Bytes) (flags : PathFlags) (s : Session) :
    (save rounds p str flags).Ensures s (Saved s p str flags) := by
  refine .ite (fun hoptions => .throw (.inl ⟨_, rfl, .options hoptions, rfl, .refl _⟩))
    fun hoptions => ?_
  rw [Bool.not_eq_true] at hoptions
  refine .ite (fun hstdio => ?_) fun hstdio => .get_bind ?_
  · have hholds : s.Holds .stdout s.stdout := rfl
    refine (saveLoop_spec rounds hholds str).mono fun r s' ⟨data, hdata, hsets, hr⟩ => ?_
    refine .inr ⟨hoptions, .stdout, s.stdout, data, ?_, hdata, hsets, hr.imp_left fun hok =>
      ⟨hok.1, fun _ => hok.2⟩⟩
    rw [Opens, if_pos hstdio]
    exact ⟨rfl, rfl⟩
  · rw [Bool.not_eq_true] at hstdio
    refine .ite (fun hthere => ?_) fun hnew => .bind (onFiles_ensures (sysCall_spec.mono ?_))
    · rw [Bool.and_eq_true, Bool.not_eq_true'] at hthere
      exact .throw (.inl ⟨_, rfl, .exists_ hthere.1 hthere.2, rfl, .refl _⟩)
    · rintro r w (⟨err, rfl, hspent, hact⟩ | ⟨t, out, hopen, rfl, rfl⟩)
      · exact .throw (.inl ⟨_, rfl, .notOpened fun hw => ⟨err, hact hw⟩, rfl, hspent⟩)
      · obtain ⟨before, hopens, hsets⟩ := openOut_spec hstdio hnew hopen
        have hout : out = .stdout ∨ ∃ l, out = .file l before.length := by
          rw [Opens, if_neg (by simp [hstdio])] at hopens
          obtain ⟨l, hl, -⟩ := hopens
          exact .inr ⟨l, hl⟩
        refine (writeOut_spec rounds str hout hsets.holds).mono fun r s' hr => ?_
        obtain ⟨data, hdata, hsets', hr⟩ := hr
        refine .inr ⟨hoptions, out, before, data, hopens, hdata, hsets.trans hsets', hr.imp ?_ ?_⟩
        · exact fun hok => ⟨hok.1, fun hw => hok.2 (hsets.lossless hw)⟩
        · exact fun herr => ⟨herr.1, fun hw => herr.2 (hsets.faultless hw)⟩

/-- Closing a file comes to an end. -/
theorem closeOut_halts (out : OutFile) (s : Session) : (onFiles (closeOut out)).Halts s := by
  cases out with
  | stdout => exact ⟨_, _, rfl⟩
  | file loc before =>
    have hclose : (closeOut (.file loc before)).Halts s.world :=
      .bind_of_forall .step fun loss _ => by
        cases loss with
        | none => exact .ret
        | some kept => exact .step
    obtain ⟨r, w, hrun⟩ := hclose
    exact ⟨_, _, by rw [onFiles, hrun, Option.map_some]⟩

/-- A call returns or throws, if the loop may go round as often as there are faults and twice
more. -/
theorem save_halts {rounds : ℕ} (p : FilePath) (str : Bytes) (flags : PathFlags) (s : Session)
    (hrounds : s.world.faults.length + 1 < rounds) : (save rounds p str flags).Halts s := by
  refine .ite (fun _ => .throw) fun _ => .ite (fun _ => ?_) fun hstdio => .get_bind ?_
  · have hholds : s.Holds .stdout s.stdout := rfl
    exact saveLoop_halts hholds str hrounds
  rw [Bool.not_eq_true] at hstdio
  refine .ite (fun _ => .throw) fun hnew => .bind ?_ (onFiles_ensures (sysCall_spec.mono ?_))
  · have hopen : (sysCall (openOut p flags)).Halts s.world :=
      .bind_of_forall .step fun fault _ => by
        cases fault with
        | some err => exact .ret
        | none => exact .step
    obtain ⟨r, w, hrun⟩ := hopen
    exact ⟨_, _, by rw [onFiles, hrun, Option.map_some]⟩
  · rintro r w (⟨err, rfl, -⟩ | ⟨t, out, hopen, rfl, rfl⟩) x hx
    · obtain rfl := Except.ok.inj hx
      exact .throw
    · obtain rfl := Except.ok.inj hx
      obtain ⟨before, -, hsets⟩ := openOut_spec hstdio hnew hopen
      have hloop : (saveLoop p out rounds str).Halts
          { s with world := { s.world.next with tree := t } } :=
        saveLoop_halts hsets.holds str (by
          have hle := hsets.faults.length_le
          omega)
      refine .bind_of_forall (.tryCatch hloop fun err s' => ?_) fun _ s' => closeOut_halts out s'
      exact .bind_of_forall (closeOut_halts out s') fun _ _ => .throw

/-- **Saving.** A call returns or throws. It changes nothing but the file or the standard output
that it opens, and this has then what it had, or nothing if the file was overwritten, and behind
it the string or a first part of it. If the call returns all of the string is there, unless closing
the file lost some of it. A file that was there is opened only if an option allows it. -/
theorem save_saves {rounds : ℕ} (p : FilePath) (str : Bytes) (flags : PathFlags) (s : Session)
    (hrounds : s.world.faults.length + 1 < rounds) :
    ∃ r s', save rounds p str flags s = some (r, s') ∧ Saved s p str flags r s' := by
  obtain ⟨r, s', hrun⟩ := save_halts p str flags s hrounds
  exact ⟨r, s', hrun, save_spec rounds p str flags s r s' hrun⟩

/-- The second byte that is appended to a file does not fit on the disk. -/
theorem save_saves_torn :
    ∃ r s', save 4 ⟨true, [.name [102]]⟩ [2, 3] { append := true }
        ⟨⟨.single [102] (.file [1]), [], [none, some eNoSpc], [some 1]⟩, []⟩ = some (r, s') ∧
      s'.world.tree.look [[102]] = some (.file [1, 2]) ∧
      Saved ⟨⟨.single [102] (.file [1]), [], [none, some eNoSpc], [some 1]⟩, []⟩
        ⟨true, [.name [102]]⟩ [2, 3] { append := true } r s' := by
  obtain ⟨r, s', hrun, hsaved⟩ := @save_saves 4 ⟨true, [.name [102]]⟩ [2, 3]
    { append := true } ⟨⟨.single [102] (.file [1]), [], [none, some eNoSpc], [some 1]⟩, []⟩
    (by decide)
  refine ⟨r, s', hrun, ?_, hsaved⟩
  have hlook : (save 4 ⟨true, [.name [102]]⟩ [2, 3] { append := true }
      ⟨⟨.single [102] (.file [1]), [], [none, some eNoSpc], [some 1]⟩, []⟩).map
        (fun x => x.2.world.tree.look [[102]]) = some (some (.file [1, 2])) := by decide
  rw [hrun] at hlook
  exact Option.some.inj hlook

end FilePath

end Streams

end RsIo
