import RsIo.Bytes
import RsIo.StdString

/-!
# Reading Lines

An open file is its content and a read position. `IoBase::read_line` of `stdio.cpp` reads
it one character at a time. `fgets`, on which the override in `Cstdio` is built, reads at
most `n - 1` bytes, stops after a line feed or at the end of the file, and appends one
NUL.

## Main results

* `IoBase.readLine_eq`: the generic version returns `nextLine`, everything up to and
  including the next line feed.
* `fgetsChunk_eq_take`: `fgets` takes the next line as far as its buffer goes.
-/

namespace RsIo

/-- The line feed. -/
def lf : UInt8 := 10

/-- A file open for reading: its content and the read position. -/
structure CFile where
  content : Bytes
  pos : ℕ
  deriving DecidableEq, Repr

namespace CFile

/-- The bytes that have not been read yet. -/
def rest (f : CFile) : Bytes := f.content.drop f.pos

/-- Move the read position forward. -/
def advance (f : CFile) (n : ℕ) : CFile := { f with pos := f.pos + n }

@[simp] theorem rest_advance (f : CFile) (n : ℕ) : (f.advance n).rest = f.rest.drop n := by
  simp [rest, advance, List.drop_drop]

@[simp] theorem advance_zero (f : CFile) : f.advance 0 = f := rfl

theorem advance_advance (f : CFile) (m n : ℕ) :
    (f.advance m).advance n = f.advance (m + n) := by
  simp [advance, Nat.add_assoc]

/-- Reading something makes the rest shorter. -/
theorem rest_advance_lt {f : CFile} {line : Bytes} (hne : line ≠ [])
    (hle : line.length ≤ f.rest.length) :
    (f.advance line.length).rest.length < f.rest.length := by
  have hpos := List.length_pos_iff.mpr hne
  rw [rest_advance, List.length_drop]
  omega

/-- `fgetc`: the next byte, or `none` for `EOF`. -/
def getc (f : CFile) : Option UInt8 × CFile :=
  match f.rest with
  | [] => (none, f)
  | c :: _ => (some c, f.advance 1)

/-- What `fgets` takes from the unread bytes when it has room for `n` of them. -/
def fgetsChunk : ℕ → Bytes → Bytes
  | 0, _ => []
  | _, [] => []
  | n + 1, c :: s => if c = lf then [c] else c :: fgetsChunk n s

/-- `fgets` with a buffer of `n` bytes: the bytes it stores before its NUL, or `none` for
the null pointer it returns at the end of the file. -/
def fgets (f : CFile) (n : ℕ) : Option Bytes × CFile :=
  match f.rest with
  | [] => (none, f)
  | s =>
      let chunk := fgetsChunk (n - 1) s
      (some chunk, f.advance chunk.length)

end CFile

/-- `small_block`. -/
def smallBlock : ℕ := 256

namespace IoBase

/-- The loop of `IoBase::read_line` with `s` read so far. -/
def readLineLoop (f : CFile) (s : Bytes) : Bytes × CFile :=
  match _h : f.getc with
  | (none, f') => (s, f')
  | (some c, f') => if c = lf then (s ++ [c], f') else readLineLoop f' (s ++ [c])
termination_by f.rest.length
decreasing_by
  simp only [CFile.getc] at _h
  split at _h
  · simp at _h
  · rename_i hrest
    simp only [Prod.mk.injEq] at _h
    simp [← _h.2, hrest]

/-- `IoBase::read_line`. -/
def readLine (f : CFile) : Bytes × CFile := readLineLoop f []

end IoBase

/-- Everything up to and including the next line feed, or all bytes if there is none. -/
def nextLine : Bytes → Bytes
  | [] => []
  | c :: s => if c = lf then [c] else c :: nextLine s

/-! ### Lines -/

theorem nextLine_isPrefix (s : Bytes) : nextLine s <+: s := by
  induction s with
  | nil => exact List.prefix_rfl
  | cons c s ih =>
      rw [nextLine]
      split
      · exact ⟨s, rfl⟩
      · exact (List.prefix_cons_inj c).mpr ih

theorem nextLine_eq_nil {s : Bytes} : nextLine s = [] ↔ s = [] := by
  cases s with
  | nil => simp [nextLine]
  | cons c s => by_cases hc : c = lf <;> simp [nextLine, hc]

/-- `fgets` takes the next line as far as there is room. -/
theorem fgetsChunk_eq_take (n : ℕ) (s : Bytes) :
    CFile.fgetsChunk n s = (nextLine s).take n := by
  induction n generalizing s with
  | zero => simp [CFile.fgetsChunk]
  | succ n ih =>
      cases s with
      | nil => simp [CFile.fgetsChunk, nextLine]
      | cons c s => by_cases hc : c = lf <;> simp [CFile.fgetsChunk, nextLine, hc, ih]

/-- A line feed can only be the last byte of a line. -/
theorem nextLine_take_any {n : ℕ} {s : Bytes} (h : n < (nextLine s).length) :
    ((nextLine s).take n).any (· = lf) = false := by
  induction s generalizing n with
  | nil => simp [nextLine] at h
  | cons c s ih =>
      rw [nextLine] at h ⊢
      cases n with
      | zero => simp
      | succ n =>
          by_cases hc : c = lf
          · simp [hc] at h
          · simp only [if_neg hc, List.length_cons, Nat.add_lt_add_iff_right] at h
            simpa [hc] using ih h

/-- Reading on inside a line reads the rest of that line. -/
theorem nextLine_drop {n : ℕ} {s : Bytes} (h : n < (nextLine s).length) :
    nextLine (s.drop n) = (nextLine s).drop n := by
  induction s generalizing n with
  | nil => simp [nextLine] at h
  | cons c s ih =>
      cases n with
      | zero => simp
      | succ n =>
          rw [nextLine] at h ⊢
          by_cases hc : c = lf
          · simp [hc] at h
          · simp only [if_neg hc, List.length_cons, Nat.add_lt_add_iff_right] at h
            simpa [hc] using ih h

/-- A line that contains no line feed is the whole rest of the file. -/
theorem nextLine_of_not_any {s : Bytes} (h : (nextLine s).any (· = lf) = false) :
    nextLine s = s := by
  induction s with
  | nil => rfl
  | cons c s ih =>
      rw [nextLine] at h ⊢
      by_cases hc : c = lf
      · simp [hc] at h
      · rw [if_neg hc] at h ⊢
        rw [ih (by simpa [hc] using h)]

/-- Up to a line feed in it, a line is the whole line. -/
theorem nextLine_takeWhile {s : Bytes} (h : (nextLine s).any (· = lf) = true) :
    ((nextLine s).takeWhile fun c => ! decide (c = lf)).length + 1 = (nextLine s).length := by
  induction s with
  | nil => simp [nextLine] at h
  | cons c s ih =>
      rw [nextLine] at h ⊢
      by_cases hc : c = lf
      · simp [hc]
      · rw [if_neg hc] at h ⊢
        have := ih (by simpa [hc] using h)
        simpa [hc] using this

/-! ### The generic reader -/

theorem IoBase.readLineLoop_eq (f : CFile) (s : Bytes) :
    IoBase.readLineLoop f s =
      (s ++ nextLine f.rest, f.advance (nextLine f.rest).length) := by
  fun_induction IoBase.readLineLoop f s with
  | case1 f s f' hget =>
      simp only [CFile.getc] at hget
      split at hget
      · rename_i hrest
        simp_all [nextLine]
      · simp at hget
  | case2 f s f' hget =>
      simp only [CFile.getc] at hget
      split at hget
      · simp at hget
      · rename_i hrest
        simp_all [nextLine]
  | case3 f s c f' hget hc ih =>
      simp only [CFile.getc] at hget
      split at hget
      · simp at hget
      · rename_i d t hrest
        simp only [Prod.mk.injEq, Option.some.injEq] at hget
        obtain ⟨rfl, rfl⟩ := hget
        rw [ih]
        simp [hrest, nextLine, hc, CFile.advance_advance, Nat.add_comm]

/-- **The generic reader** returns the next line and moves past it. -/
theorem IoBase.readLine_eq (f : CFile) :
    IoBase.readLine f = (nextLine f.rest, f.advance (nextLine f.rest).length) := by
  simp [IoBase.readLine, IoBase.readLineLoop_eq]

end RsIo
