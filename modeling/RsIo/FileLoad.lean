import RsIo.Errno
import RsIo.Path

/-!
# Loading a File

`Path::load` reads a file in blocks until one of them is not full. It takes such a block for
the end of the file and never asks whether the file had an error, so that what could be read
before an error counts as the content.

## Main results

* `load_eq`: what a call leaves in the string, and when it throws.
* `load_reports_iff`: which errors of a file are reported.
-/

namespace RsIo

namespace Path

/-- A file open for reading: what has not been read yet, and how much of that can be read
before there is an error, if there is one. -/
structure InFile where
  rest : Bytes
  errorAfter : Option ℕ := none
  deriving DecidableEq, Repr

namespace InFile

/-- What can be read before the end of the file or an error. -/
def readable (f : InFile) : Bytes := f.rest.take (f.errorAfter.getD f.rest.length)

/-- `fread` of `n` bytes. -/
def fread (f : InFile) (n : ℕ) : Bytes × InFile :=
  let data := f.readable.take n
  (data, ⟨f.rest.drop data.length, f.errorAfter.map (· - data.length)⟩)

theorem readable_fread (f : InFile) (n : ℕ) :
    (f.fread n).2.readable = f.readable.drop (f.readable.take n).length := by
  rw [fread, readable, readable]
  cases f.errorAfter with
  | none => simp
  | some k =>
      simp only [Option.map_some, Option.getD_some, List.drop_take]

end InFile

/-- `std::system_error`, with the name of the file. -/
structure LoadError where
  code : ℕ
  name : Bytes
  deriving DecidableEq, Repr

/-- Where a program can read from. -/
structure Inputs where
  stdin : InFile
  fopen : Bytes → Option InFile

/-- `block_size`. -/
def loadBlock : ℕ := 16384

/-- The loop of `Path::load`, with `str` read so far. -/
def loadLoop (f : InFile) (maxlen : ℕ) (str : Bytes) : Bytes :=
  if _h : str.length < maxlen then
    let n := min (maxlen - str.length) loadBlock
    let (data, f) := f.fread n
    if _hlen : data.length < n then str ++ data else loadLoop f maxlen (str ++ data)
  else str
termination_by maxlen - str.length
decreasing_by
  have hblock : 0 < loadBlock := by decide
  rw [List.length_append]
  omega

/-- Whether a name stands for the standard input. -/
def isStdin (filename : Bytes) (flags : PathFlags) : Bool :=
  flags.stdio && (filename.isEmpty || filename == bytes "-")

/-- `Path::load`: whether it throws, and the string afterwards. -/
def load (io : Inputs) (filename str : Bytes) (maxlen : ℕ) (flags : PathFlags) :
    Except LoadError Unit × Bytes :=
  if isStdin filename flags then
    (.ok (), loadLoop io.stdin maxlen [])
  else
    match io.fopen filename with
    | none => if ! flags.mayFail then (.error ⟨eIo, filename⟩, str) else (.ok (), [])
    | some f => (.ok (), loadLoop f maxlen [])

/-- The file that a call of `Path::load` reads, if it can be opened. -/
def loaded (io : Inputs) (filename : Bytes) (flags : PathFlags) : Option InFile :=
  if isStdin filename flags then some io.stdin else io.fopen filename

/-- What stops a load of up to `maxlen` bytes: the file cannot be opened, or the next byte
that it asks for, or the end of the file, cannot be read. -/
def Fails (maxlen : ℕ) : Option InFile → Prop
  | none => True
  | some f => ∃ k, f.errorAfter = some k ∧ k < maxlen ∧ k ≤ f.rest.length

/-- What a call promises: it returns with the first `maxlen` bytes of the file, or with
nothing if something failed that may fail, or it throws, but not if it may fail. -/
def Reports (file : Option InFile) (maxlen : ℕ) (flags : PathFlags) :
    Except LoadError Unit × Bytes → Prop
  | (.error _, _) => flags.mayFail = false
  | (.ok (), str) =>
      (∃ f, file = some f ∧ str = f.rest.take maxlen) ∨
        flags.mayFail = true ∧ Fails maxlen file ∧ str = []

/-- The loop reads what can be read, whatever the blocks are. -/
theorem loadLoop_eq (f : InFile) (maxlen : ℕ) (str : Bytes) :
    loadLoop f maxlen str = str ++ f.readable.take (maxlen - str.length) := by
  fun_induction loadLoop f maxlen str with
  | case1 f str hlt n data f' hread hshort =>
      obtain ⟨rfl, rfl⟩ := Prod.mk.inj hread
      -- a short block is all there is
      rw [List.length_take] at hshort
      rw [List.take_of_length_le (by omega), List.take_of_length_le (by omega)]
  | case2 f str hlt n data f' hread hfull ih =>
      have hf' : (f.fread n).2 = f' := (Prod.mk.inj hread).2
      obtain ⟨rfl, -⟩ := Prod.mk.inj hread
      have hn : (f.readable.take n).length = n := by
        rw [List.length_take] at hfull ⊢
        omega
      have hsplit : maxlen - str.length = n + (maxlen - (str ++ f.readable.take n).length) := by
        rw [List.length_append, hn]
        omega
      rw [ih, ← hf', InFile.readable_fread, hn, List.append_assoc]
      conv_rhs => rw [hsplit, List.take_add]
  | case3 f str hle => rw [Nat.sub_eq_zero_of_le (Nat.le_of_not_lt hle), List.take_zero,
      List.append_nil]

/-- **Loading.** A call reads what can be read of the file, and throws only if it cannot open
the file and may not fail. -/
theorem load_eq (io : Inputs) (filename str : Bytes) (maxlen : ℕ) (flags : PathFlags) :
    load io filename str maxlen flags =
      match loaded io filename flags with
      | none => if flags.mayFail then (.ok (), []) else (.error ⟨eIo, filename⟩, str)
      | some f => (.ok (), f.readable.take maxlen) := by
  rw [load, loaded]
  split
  · simp [loadLoop_eq]
  · cases io.fopen filename with
    | none => cases flags.mayFail <;> rfl
    | some f => simp [loadLoop_eq]

/-- What can be read is all that was asked for, unless there is an error before that. -/
theorem take_readable_eq_iff (f : InFile) (maxlen : ℕ) :
    f.readable.take maxlen = f.rest.take maxlen ↔
      ∀ k, f.errorAfter = some k → min maxlen f.rest.length ≤ k := by
  rw [InFile.readable]
  cases f.errorAfter with
  | none => simp
  | some k =>
      simp only [Option.getD_some, Option.some.injEq, forall_eq', List.take_take]
      constructor
      · intro h
        have hlen := congrArg List.length h
        simp only [List.length_take] at hlen
        omega
      · intro h
        refine List.take_eq_take_iff.mpr ?_
        omega

/-- **Errors.** A call keeps its promise exactly if no error of the file comes before all
that was asked for, or before anything was read while the call may fail. -/
theorem load_reports_iff (io : Inputs) (filename str : Bytes) (maxlen : ℕ) (flags : PathFlags) :
    Reports (loaded io filename flags) maxlen flags (load io filename str maxlen flags) ↔
      ∀ f, loaded io filename flags = some f → ∀ k, f.errorAfter = some k →
        min maxlen f.rest.length ≤ k ∨ flags.mayFail = true ∧ k = 0 := by
  rw [load_eq]
  cases loaded io filename flags with
  | none => cases hfail : flags.mayFail <;> simp [Reports, Fails, hfail]
  | some f =>
      simp only [Option.some.injEq, forall_eq', Reports, exists_eq_left', take_readable_eq_iff]
      constructor
      · rintro (hall | ⟨hfail, -, hnil⟩) k hk
        · exact .inl (hall k hk)
        · rw [InFile.readable, hk, Option.getD_some, List.take_take, List.take_eq_nil_iff] at hnil
          rcases hnil with hmin | hrest
          · by_cases hzero : maxlen = 0
            · exact .inl (by omega)
            · exact .inr ⟨hfail, by omega⟩
          · exact .inl (by simp [hrest])
      · intro h
        by_cases hall : ∀ k, f.errorAfter = some k → min maxlen f.rest.length ≤ k
        · exact .inl hall
        · obtain ⟨k, hk⟩ := not_forall.mp hall
          obtain ⟨hk, hlt⟩ := Classical.not_imp.mp hk
          obtain ⟨hfail, rfl⟩ := (h k hk).resolve_left hlt
          refine .inr ⟨hfail, ⟨0, hk, by omega, Nat.zero_le _⟩, ?_⟩
          rw [InFile.readable, hk, Option.getD_some, List.take_zero, List.take_nil]

/-- A file whose second byte cannot be read is loaded as one of one byte. -/
theorem load_reports_fails :
    ¬ ∀ (io : Inputs) (filename str : Bytes) (maxlen : ℕ) (flags : PathFlags),
      Reports (loaded io filename flags) maxlen flags (load io filename str maxlen flags) := by
  intro h
  have hload := h ⟨⟨[], none⟩, fun _ => some ⟨bytes "ab", some 1⟩⟩ (bytes "f") [] 2 {}
  rw [load_eq] at hload
  rcases hload with ⟨f, hf, hread⟩ | ⟨hfail, -⟩
  · cases hf
    exact absurd hread (by decide)
  · exact absurd hfail (by decide)

end Path

end RsIo
