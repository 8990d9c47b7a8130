import RsIo.Bytes
import RsIo.Errno
import RsIo.Prog
import Mathlib.Logic.Function.Basic

/-!
# Opening Files

`Cstdio` and `Fdio` open a file in one of the modes of `IoMode`. The one translates the mode
into a string for `fopen()`, the other into flags for `open()`. Both throw as soon as there
is an error, also `Cstdio` when it tries the first of two strings for `open_always`, so that
the second one is never tried.

A file system is here the contents of the files that there are, in directories in which files
can be created.

## Main results

* `fdio_new`: `Fdio` does what the table of the modes says.
* `opensAlike_iff`: `Cstdio` does the same exactly if it is not asked to open a file always
  that is not there.
-/

namespace RsIo

/-- `IoMode`. -/
inductive IoMode
  | read | write | append | createAlways | openAlways | openExisting
  deriving DecidableEq, Repr

/-- The contents of the files, by their names. -/
abbrev Files := Bytes → Option Bytes

/-- `IoError`, with the name of the file. -/
structure IoError where
  code : ℕ
  details : Bytes
  deriving DecidableEq, Repr

/-- What an object of the classes has open: nothing, one of the standard streams, or a file
with the flags of `open()`. -/
inductive Handle
  | null | stdin | stdout
  | file (name : Bytes) (flags : ℕ)
  deriving DecidableEq, Repr

/-- Opening a file, which may change the file system. -/
abbrev Opening := Prog IoError Files Handle

/-- `O_RDONLY`. -/
def oRdOnly : ℕ := 0
/-- `O_WRONLY`. -/
def oWrOnly : ℕ := 1
/-- `O_RDWR`. -/
def oRdWr : ℕ := 2
/-- `O_CREAT`. -/
def oCreat : ℕ := 64
/-- `O_TRUNC`. -/
def oTrunc : ℕ := 512
/-- `O_APPEND`. -/
def oAppend : ℕ := 1024

/-- Whether a flag is set. -/
def hasFlag (flags flag : ℕ) : Bool := flags &&& flag == flag

/-- `open()`: the file, `errno`, and the files afterwards. -/
def sysOpen (name : Bytes) (flags : ℕ) (files : Files) : (Handle × ℕ) × Files :=
  match files name with
  | some _ =>
      ((.file name flags, 0),
        if hasFlag flags oTrunc then Function.update files name (some []) else files)
  | none =>
      if hasFlag flags oCreat then
        ((.file name flags, 0), Function.update files name (some []))
      else ((.null, eNoEnt), files)

/-- The flags that `fopen()` gives to `open()` for a mode string. -/
def fopenFlags (mode : Bytes) : Option ℕ :=
  if mode = bytes "r" ∨ mode = bytes "rb" then some oRdOnly
  else if mode = bytes "w" ∨ mode = bytes "wb" then some (oWrOnly ||| oCreat ||| oTrunc)
  else if mode = bytes "a" ∨ mode = bytes "ab" then some (oWrOnly ||| oCreat ||| oAppend)
  else if mode = bytes "r+" ∨ mode = bytes "rb+" ∨ mode = bytes "r+b" then some oRdWr
  else if mode = bytes "w+" ∨ mode = bytes "wb+" ∨ mode = bytes "w+b" then
    some (oRdWr ||| oCreat ||| oTrunc)
  else if mode = bytes "a+" ∨ mode = bytes "ab+" ∨ mode = bytes "a+b" then
    some (oRdWr ||| oCreat ||| oAppend)
  else none

/-- `fopen()`: the file, `errno`, and the files afterwards. -/
def fopen (name mode : Bytes) (files : Files) : (Handle × ℕ) × Files :=
  match fopenFlags mode with
  | some flags => sysOpen name flags files
  | none => ((.null, eInval), files)

/-- The test of `errno` in the constructors. -/
def checkOpened (name : Bytes) (opened : Handle × ℕ) : Opening :=
  if opened.2 ≠ 0 then .throw ⟨opened.2, name⟩ else pure opened.1

/-- The standard stream that an empty name or a hyphen stands for. -/
def standardStream : IoMode → Option Handle
  | .read => some .stdin
  | .write | .append => some .stdout
  | _ => none

namespace Cstdio

/-- The constructor of `Cstdio` from a mode string. -/
def newString (f iomode : Bytes) : Opening := do
  checkOpened f (← Prog.step (fopen f iomode))

/-- The constructor of `Cstdio` from a mode. -/
def new (f : Bytes) (m : IoMode) : Opening :=
  if f = [] ∨ f = bytes "-" then pure ((standardStream m).getD .null)
  else
    match m with
    | .openAlways => do
        let fp ← newString f (bytes "rb+")
        if fp = .null then newString f (bytes "wb+") else pure fp
    | .read => newString f (bytes "rb")
    | .write => newString f (bytes "wb")
    | .append => newString f (bytes "ab")
    | .createAlways => newString f (bytes "wb+")
    | .openExisting => newString f (bytes "rb+")

end Cstdio

namespace Fdio

/-- The constructor of `Fdio` from flags. -/
def newFlags (f : Bytes) (iomode : ℕ) : Opening := do
  checkOpened f (← Prog.step (sysOpen f iomode))

/-- The flags for a mode. -/
def flagsOf : IoMode → ℕ
  | .read => oRdOnly
  | .write => oWrOnly ||| oCreat ||| oTrunc
  | .append => oWrOnly ||| oAppend ||| oCreat
  | .createAlways => oRdWr ||| oCreat ||| oTrunc
  | .openAlways => oRdWr ||| oCreat
  | .openExisting => oRdWr

/-- The constructor of `Fdio` from a mode. -/
def new (f : Bytes) (m : IoMode) : Opening :=
  match if f = [] ∨ f = bytes "-" then standardStream m else none with
  | some h => pure h
  | none => newFlags f (flagsOf m)

end Fdio

/-! ### The table of the modes -/

/-- The table of the documentation: what is in the file afterwards, given what is in it
before, if it can be opened. -/
def IoMode.table : IoMode → Option Bytes → Option Bytes
  | .read, before => before
  | .write, _ => some []
  | .append, before => some (before.getD [])
  | .createAlways, _ => some []
  | .openAlways, before => some (before.getD [])
  | .openExisting, before => before

/-- The result and the files that the table allows: the file is open with the content that
the table says, or there is an exception and nothing has changed. -/
def FollowsTable (f : Bytes) (m : IoMode) (files : Files) :
    Option (Except IoError Handle × Files) → Prop
  | some (.ok h, files') =>
      h ≠ .null ∧ ∃ content, m.table (files f) = some content ∧
        files' = Function.update files f (some content)
  | some (.error _, files') => m.table (files f) = none ∧ files' = files
  | none => False

/-- Both classes open the file or throw, as the table says. -/
def OpensAlike (f : Bytes) (m : IoMode) (files : Files) : Prop :=
  FollowsTable f m files (Cstdio.new f m files) ∧ FollowsTable f m files (Fdio.new f m files)

/-- What opening with flags leaves in a file, given what is in it before. -/
def flagsTable (flags : ℕ) : Option Bytes → Option Bytes
  | some content => some (if hasFlag flags oTrunc then [] else content)
  | none => if hasFlag flags oCreat then some [] else none

section Opening

variable {f : Bytes} {m : IoMode} {files : Files}

/-- A file that exists is opened, and emptied if the flags say so. -/
theorem newFlags_some {content : Bytes} (hf : files f = some content) (flags : ℕ) :
    Fdio.newFlags f flags files = some (.ok (.file f flags),
      if hasFlag flags oTrunc then Function.update files f (some []) else files) := by
  have hrun : Fdio.newFlags f flags files =
      checkOpened f (sysOpen f flags files).1 (sysOpen f flags files).2 := rfl
  rw [hrun, sysOpen, hf]
  rfl

/-- A file that does not exist is created if the flags say so. -/
theorem newFlags_none (hf : files f = none) (flags : ℕ) :
    Fdio.newFlags f flags files =
      if hasFlag flags oCreat then
        some (.ok (.file f flags), Function.update files f (some []))
      else some (.error ⟨eNoEnt, f⟩, files) := by
  have hrun : Fdio.newFlags f flags files =
      checkOpened f (sysOpen f flags files).1 (sysOpen f flags files).2 := rfl
  rw [hrun, sysOpen, hf]
  by_cases hcreat : hasFlag flags oCreat = true
  · rw [if_pos hcreat]
    simp only [hcreat, if_true]
    rfl
  · rw [if_neg hcreat]
    simp only [hcreat]
    rfl

/-- Flags that leave in the file what the table says follow the table. -/
theorem followsTable_newFlags {flags : ℕ} (h : flagsTable flags (files f) = m.table (files f)) :
    FollowsTable f m files (Fdio.newFlags f flags files) := by
  rw [FollowsTable.eq_def, ← h]
  cases hf : files f with
  | some content =>
      rw [newFlags_some hf]
      refine ⟨by simp, _, rfl, ?_⟩
      split
      next => rfl
      next => rw [← hf, Function.update_eq_self]
  | none =>
      rw [newFlags_none hf, flagsTable]
      by_cases hcreat : hasFlag flags oCreat = true
      · simp only [hcreat, if_true]
        exact ⟨by simp, [], rfl, rfl⟩
      · simp [hcreat]

/-- Opening with a mode string is opening with the flags for it. -/
theorem newString_eq {mode : Bytes} {flags : ℕ} (h : fopenFlags mode = some flags) :
    Cstdio.newString f mode = Fdio.newFlags f flags := by
  have hopen : fopen f mode = sysOpen f flags := by
    funext files
    rw [fopen, h]
  rw [Cstdio.newString, hopen]
  rfl

/-- The flags say what the table says. -/
theorem flagsTable_flagsOf (m : IoMode) (before : Option Bytes) :
    flagsTable (Fdio.flagsOf m) before = m.table before := by
  cases m <;> cases before <;> rfl

/-- `Fdio` follows the table. -/
theorem fdio_new (hf : f ≠ [] ∧ f ≠ bytes "-") (m : IoMode) (files : Files) :
    FollowsTable f m files (Fdio.new f m files) := by
  rw [Fdio.new, if_neg (by simp [hf])]
  exact followsTable_newFlags (flagsTable_flagsOf m _)

/-- The modes that have a string of their own. -/
theorem cstdio_new (hf : f ≠ [] ∧ f ≠ bytes "-") (hm : m ≠ .openAlways) :
    Cstdio.new f m = Fdio.newFlags f (Fdio.flagsOf m) := by
  rw [Cstdio.new.eq_def, if_neg (by simp [hf])]
  cases m with
  | openAlways => exact absurd rfl hm
  | _ => exact newString_eq (by decide)

/-- The first string opens a file that is there, and the exception that it throws for one that
is not leaves the constructor. -/
theorem cstdio_openAlways (hf : f ≠ [] ∧ f ≠ bytes "-") :
    Cstdio.new f .openAlways files =
      match files f with
      | some _ => some (.ok (.file f oRdWr), files)
      | none => some (.error ⟨eNoEnt, f⟩, files) := by
  have hstring : fopenFlags (bytes "rb+") = some oRdWr := by decide
  have hrun : Cstdio.new f .openAlways files = Prog.andThen (Fdio.newFlags f oRdWr)
      (fun fp => if fp = .null then Cstdio.newString f (bytes "wb+") else pure fp) files := by
    rw [Cstdio.new, if_neg (by simp [hf]), newString_eq hstring]
    rfl
  rw [hrun, Prog.andThen]
  cases hfile : files f with
  | some content =>
      rw [newFlags_some hfile]
      rfl
  | none =>
      rw [newFlags_none hfile]
      rfl

/-- **Opening a file.** For any file in any state, both classes open it, or throw, and leave
in it what the table says, exactly if it is not to be opened always without being there. -/
theorem opensAlike_iff (hf : f ≠ [] ∧ f ≠ bytes "-") :
    OpensAlike f m files ↔ ¬ (m = .openAlways ∧ files f = none) := by
  rw [OpensAlike, and_iff_left (fdio_new hf m files)]
  by_cases hm : m = .openAlways
  · rw [hm, cstdio_openAlways hf]
    cases hfile : files f with
    | some content =>
        refine iff_of_true ⟨by simp, content, ?_, ?_⟩ (by simp)
        · rw [hfile]
          rfl
        · rw [← hfile, Function.update_eq_self]
    | none =>
        refine iff_of_false (fun h => ?_) (by simp)
        rw [FollowsTable.eq_def, hfile] at h
        cases h.1
  · rw [cstdio_new hf hm]
    exact iff_of_true (followsTable_newFlags (flagsTable_flagsOf m _)) fun h => hm h.1

/-- A file that is there is opened always. -/
theorem opensAlike_iff_present :
    OpensAlike (bytes "f") .openAlways (fun _ => some (bytes "text")) ↔
      ¬ (IoMode.openAlways = .openAlways ∧ some (bytes "text") = (none : Option Bytes)) :=
  opensAlike_iff (by decide)

/-- `Cstdio` throws for a file that is not there, and `Fdio` makes one. -/
theorem opensAlike_fails :
    ¬ ∀ (f : Bytes) (m : IoMode) (files : Files), f ≠ [] ∧ f ≠ bytes "-" →
      OpensAlike f m files := by
  intro h
  have hfollows := (h (bytes "f") .openAlways (fun _ => none) (by decide)).1
  rw [cstdio_openAlways (by decide)] at hfollows
  cases hfollows.1

end Opening

end RsIo
