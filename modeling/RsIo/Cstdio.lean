import RsIo.Stdio

/-!
# The Block Reader of `Cstdio`

`Cstdio::read_line` reads with `fgets`, which does not say how many bytes it stored. The
function fills each new block with NULs first and takes the position of the last byte that
is not NUL for the end of the data. That is right for a block that `fgets` fills, and for
a line feed it finds. It is wrong in three cases: NULs that end what is read are dropped,
a first block that ends in a NUL is taken for the end of the file, and an unterminated
last line that goes past the first block is returned with the rest of its last block,
which is all NULs.

## Main results

* `Cstdio.readLineLoop_append`: past the first block the loop returns the line and its
  padding.
* `Cstdio.readLine_fst_eq_iff`: the function agrees with `IoBase.readLine` exactly on the
  lines that satisfy `ReadsBack`.
* `Cstdio.flatten_lines_iff`: `lines()` gives back the content exactly if all lines do.
* `Cstdio.readLine_agrees_iff`: both, with the read position.
-/

namespace RsIo

namespace Cstdio

/-- `fgets` reads up to the end of the line, but not more than its buffer has room for. -/
theorem fgets_eq {f : CFile} (h : nextLine f.rest ≠ []) :
    f.fgets smallBlock = (some ((nextLine f.rest).take 255),
      f.advance ((nextLine f.rest).take 255).length) := by
  simp only [CFile.fgets]
  split
  · rename_i hrest
    simp [hrest, nextLine] at h
  · rw [fgetsChunk_eq_take]
    rfl

/-- At the end of the file `fgets` reads nothing. -/
theorem fgets_eq_none {f : CFile} (h : nextLine f.rest = []) :
    f.fgets smallBlock = (none, f) := by
  simp [CFile.fgets, nextLine_eq_nil.mp h]

/-- A block that is read shortens the rest of the file. -/
theorem rest_lt_of_fgets {f f' : CFile} {chunk : Bytes}
    (h : f.fgets smallBlock = (some chunk, f')) : f'.rest.length < f.rest.length := by
  by_cases hnil : nextLine f.rest = []
  · simp [fgets_eq_none hnil] at h
  · rw [fgets_eq hnil] at h
    simp only [Prod.mk.injEq, Option.some.injEq] at h
    have hpos := List.length_pos_iff.mpr hnil
    have hle := (nextLine_isPrefix f.rest).length_le
    rw [← h.2, CFile.rest_advance, List.length_drop, List.length_take]
    omega

/-- The loop of `Cstdio::read_line` with `buf` read so far. `fgets` writes its bytes and
one NUL into the new block, the rest of which is NUL already. -/
def readLineLoop (f : CFile) (buf : Bytes) : Bytes × CFile :=
  match _h : f.fgets smallBlock with
  | (none, f') => (buf, f')
  | (some chunk, f') =>
      let offset := buf.length
      let buf := buf ++ (chunk ++ List.replicate (smallBlock - chunk.length) 0)
      match StdString.findIf (fun c => decide (c = lf)) buf offset with
      | some lfpos => (buf.take (lfpos + 1), f')
      | none =>
          let ntpos := StdString.endOfLast (fun c => decide (c ≠ 0)) buf
          if ntpos < smallBlock - 1 then (buf.take ntpos, f')
          else readLineLoop f' buf.dropLast
termination_by f.rest.length
decreasing_by exact rest_lt_of_fgets _h

/-- `Cstdio::read_line`. -/
def readLine (f : CFile) : Bytes × CFile := readLineLoop f []

/-- The NULs that follow an unterminated line in its last block. -/
def padding (line : Bytes) : ℕ :=
  if line.getLast? = some lf then 0 else (255 - line.length % 255) % 255

/-- The lines that the block version reads back: a line that fits into one block must not
end in a NUL, a longer one must not have a NUL as the last byte of its first block and
must be terminated or fill its last block. -/
def ReadsBack (line : Bytes) : Prop :=
  (line.length ≤ 255 ∧ line.getLast? ≠ some 0) ∨
    (255 < line.length ∧ (line)[254]? ≠ some 0 ∧
      (line.getLast? = some lf ∨ line.length % 255 = 0))

/-- Whether a line is read back can be computed. -/
instance (line : Bytes) : Decidable (ReadsBack line) :=
  inferInstanceAs (Decidable (_ ∨ _))

/-- A line that fits into the buffer is read back if it does not end in a zero. -/
theorem readsBack_of_le {line : Bytes} (h : line.length ≤ 255) :
    ReadsBack line ↔ line.getLast? ≠ some 0 := by
  simp [ReadsBack, h, Nat.not_lt.mpr h]

/-- A longer line is read back if its first block does not end in a zero, and its last one ends in a
line feed or is full. -/
theorem readsBack_of_lt {line : Bytes} (h : 255 < line.length) :
    ReadsBack line ↔
      (line)[254]? ≠ some 0 ∧ (line.getLast? = some lf ∨ line.length % 255 = 0) := by
  simp [ReadsBack, h, Nat.not_le.mpr h]

/-! ### One block -/

/-- There is no line feed in the padding. -/
theorem any_lf_padding (n : ℕ) :
    (List.replicate n (0 : UInt8)).any (fun c => decide (c = lf)) = false := by
  simp [List.any_replicate, lf]

/-- At the end of the file the loop returns what it has. -/
theorem readLineLoop_nil {f : CFile} (buf : Bytes) (h : nextLine f.rest = []) :
    readLineLoop f buf = (buf, f) := by
  rw [readLineLoop, fgets_eq_none h]

/-- A line feed in the block ends the loop with the whole line. -/
theorem readLineLoop_lf {f : CFile} (buf : Bytes)
    (hlen : (nextLine f.rest).length ≤ 255)
    (hlf : (nextLine f.rest).any (fun c => decide (c = lf)) = true) :
    readLineLoop f buf =
      (buf ++ nextLine f.rest, f.advance (nextLine f.rest).length) := by
  have hne : nextLine f.rest ≠ [] := by
    intro hnil
    simp [hnil] at hlf
  have htake : (nextLine f.rest).take 255 = nextLine f.rest := List.take_of_length_le hlen
  have hend := nextLine_takeWhile hlf
  rw [readLineLoop, fgets_eq hne, htake]
  simp only [StdString.findIf_append, List.any_append, hlf, Bool.true_or, if_true]
  rw [List.takeWhile_append, if_neg (by omega), Nat.add_assoc, hend]
  simp [List.take_append]

/-- A block with no line feed in it: the loop stops at the last byte that is not NUL if
that lies in the first block, and goes on with the block otherwise. -/
theorem readLineLoop_no_lf {f : CFile} (buf : Bytes) (hne : nextLine f.rest ≠ [])
    (hlf : ((nextLine f.rest).take 255).any (fun c => decide (c = lf)) = false) :
    readLineLoop f buf =
      let chunk := (nextLine f.rest).take 255
      if StdString.endOfLast (fun c => decide (c ≠ 0)) (buf ++ chunk) < 255 then
        ((buf ++ chunk).rdropWhile (fun c => ! decide (c ≠ 0)), f.advance chunk.length)
      else
        readLineLoop (f.advance chunk.length)
          (buf ++ (chunk ++ List.replicate (255 - chunk.length) 0)) := by
  have hlen : ((nextLine f.rest).take 255).length ≤ 255 := List.length_take_le 255 _
  rw [readLineLoop, fgets_eq hne]
  generalize (nextLine f.rest).take 255 = chunk at hlf hlen ⊢
  have hzero : StdString.endOfLast (fun c => decide (c ≠ 0))
      (buf ++ (chunk ++ List.replicate (smallBlock - chunk.length) 0)) =
        StdString.endOfLast (fun c => decide (c ≠ 0)) (buf ++ chunk) := by
    rw [← List.append_assoc, StdString.endOfLast_append_of_not_any]
    simp
  have hle := StdString.endOfLast_le_length (fun c => decide (c ≠ 0)) (buf ++ chunk)
  have hlast : (buf ++ (chunk ++ List.replicate (smallBlock - chunk.length) 0)).dropLast =
      buf ++ (chunk ++ List.replicate (255 - chunk.length) 0) := by
    rw [show smallBlock - chunk.length = (255 - chunk.length) + 1 by
      simp only [smallBlock]; omega, List.replicate_succ', ← List.append_assoc,
      ← List.append_assoc, List.dropLast_concat, List.append_assoc]
  simp only [StdString.findIf_append, List.any_append, hlf, any_lf_padding, Bool.or_self,
    Bool.false_eq_true, if_false, hzero, hlast]
  rw [← StdString.take_endOfLast, ← List.append_assoc, List.take_append_of_le_length hle]
  rfl

/-! ### Past the first block -/

/-- A line is terminated exactly when its last byte is a line feed. -/
theorem nextLine_any_iff (s : Bytes) :
    (nextLine s).any (fun c => decide (c = lf)) = true ↔
      (nextLine s).getLast? = some lf := by
  induction s with
  | nil => simp [nextLine]
  | cons c s ih =>
      rw [nextLine]
      by_cases hc : c = lf
      · simp [hc]
      · cases hs : nextLine s with
        | nil => simp [hc]
        | cons d t =>
            rw [hs] at ih
            rw [if_neg hc, List.getLast?_cons_cons, ← ih]
            simp [hc]

/-- There is no padding behind a line feed or in a full block. -/
theorem padding_eq_zero_iff {line : Bytes} :
    padding line = 0 ↔ line.getLast? = some lf ∨ line.length % 255 = 0 := by
  rw [padding]
  split
  · simp_all
  · simp_all
    omega

/-- An unterminated line that fits into a block is padded to the end of the block. -/
theorem padding_of_not_any {s : Bytes} (hne : nextLine s ≠ [])
    (hlen : (nextLine s).length ≤ 255)
    (hlf : (nextLine s).any (fun c => decide (c = lf)) = false) :
    padding (nextLine s) = 255 - (nextLine s).length := by
  have hpos := List.length_pos_iff.mpr hne
  have hterm := (nextLine_any_iff s).not.mp (by simp [hlf])
  rw [padding, if_neg hterm]
  omega

/-- A whole block taken from the front of a longer line does not change its padding. -/
theorem padding_drop {line : Bytes} (h : 255 < line.length) :
    padding (line.drop 255) = padding line := by
  have hlast : (line.drop 255).getLast? = line.getLast? := by
    rw [List.getLast?_drop, if_neg (by omega)]
  simp only [padding, hlast, List.length_drop]
  split
  · rfl
  · omega

/-- A line feed in the first block of a line ends the line. -/
theorem length_le_of_any_take {s : Bytes}
    (h : ((nextLine s).take 255).any (fun c => decide (c = lf)) = true) :
    (nextLine s).length ≤ 255 := by
  by_contra hgt
  rw [nextLine_take_any (by omega)] at h
  exact Bool.false_ne_true h

/-- **Past the first block.** With a byte other than NUL at position 254 of what has been
read, the loop returns the line followed by its padding. -/
theorem readLineLoop_append {f : CFile} {buf : Bytes} {c : UInt8} (hc : c ≠ 0)
    (hbuf : buf[254]? = some c) :
    readLineLoop f buf =
      (buf ++ (nextLine f.rest ++ List.replicate (padding (nextLine f.rest)) 0),
        f.advance (nextLine f.rest).length) := by
  induction hn : f.rest.length using Nat.strong_induction_on generalizing f buf with
  | _ n ih =>
      subst hn
      by_cases hne : nextLine f.rest = []
      · simp [readLineLoop_nil buf hne, hne, padding]
      by_cases hlf : ((nextLine f.rest).take 255).any (fun c => decide (c = lf)) = true
      · have hlen := length_le_of_any_take hlf
        rw [List.take_of_length_le hlen] at hlf
        rw [readLineLoop_lf buf hlen hlf, padding, if_pos ((nextLine_any_iff _).mp hlf)]
        simp
      · rw [Bool.not_eq_true] at hlf
        have hstop : ∀ t : Bytes,
            ¬ StdString.endOfLast (fun c => decide (c ≠ 0)) (buf ++ t) < 255 := by
          intro t
          have hget : (buf ++ t)[254]? = some c := by
            have hlt : 254 < buf.length := by
              by_contra hge
              simp [List.getElem?_eq_none (Nat.le_of_not_lt hge)] at hbuf
            rw [List.getElem?_append_left hlt, hbuf]
          have := StdString.lt_endOfLast (p := fun c => decide (c ≠ 0)) hget (by simpa using hc)
          omega
        rw [readLineLoop_no_lf buf hne hlf]
        simp only [hstop, if_false]
        by_cases hlen : (nextLine f.rest).length ≤ 255
        · -- the rest of the file fits into this block: one more `fgets` finds its end
          have htake : (nextLine f.rest).take 255 = nextLine f.rest :=
            List.take_of_length_le hlen
          rw [htake] at hlf ⊢
          have hrest : nextLine f.rest = f.rest := nextLine_of_not_any hlf
          have hend : nextLine (f.advance (nextLine f.rest).length).rest = [] := by
            rw [nextLine_eq_nil, CFile.rest_advance, hrest, List.drop_length]
          rw [readLineLoop_nil _ hend, padding_of_not_any hne hlen hlf]
        · have hfull : ((nextLine f.rest).take 255).length = 255 := by
            rw [List.length_take]
            omega
          have hdrop : nextLine (f.advance 255).rest = (nextLine f.rest).drop 255 := by
            rw [CFile.rest_advance, nextLine_drop (by omega)]
          have hshort : (f.advance 255).rest.length < f.rest.length := by
            have := (nextLine_isPrefix f.rest).length_le
            rw [CFile.rest_advance, List.length_drop]
            omega
          have hget : (buf ++ (nextLine f.rest).take 255)[254]? = some c := by
            rw [List.getElem?_append_left, hbuf]
            by_contra hge
            simp [List.getElem?_eq_none (Nat.le_of_not_lt hge)] at hbuf
          rw [hfull, Nat.sub_self, List.replicate_zero, List.append_nil,
            ih _ hshort hget rfl, hdrop, padding_drop (by omega), CFile.advance_advance,
            List.append_assoc,
            ← List.append_assoc ((nextLine f.rest).take 255), List.take_append_drop,
            List.length_drop, Nat.add_sub_cancel' (by omega)]

/-! ### The whole function -/

/-- A line whose first block ends in a byte other than NUL is read to its end and
padded. -/
theorem readLine_of_full {f : CFile} {c : UInt8} (hc : c ≠ 0)
    (hget : (nextLine f.rest)[254]? = some c) :
    readLine f =
      (nextLine f.rest ++ List.replicate (padding (nextLine f.rest)) 0,
        f.advance (nextLine f.rest).length) := by
  have hlt : 254 < (nextLine f.rest).length := (List.getElem?_eq_some_iff.mp hget).1
  have hne : nextLine f.rest ≠ [] := List.length_pos_iff.mp (by omega)
  by_cases hlf : ((nextLine f.rest).take 255).any (fun c => decide (c = lf)) = true
  · have hlen := length_le_of_any_take hlf
    rw [List.take_of_length_le hlen] at hlf
    rw [readLine, readLineLoop_lf [] hlen hlf, padding, if_pos ((nextLine_any_iff _).mp hlf)]
    simp
  · rw [Bool.not_eq_true] at hlf
    have hfull : ((nextLine f.rest).take 255).length = 255 := by
      rw [List.length_take]
      omega
    have hget' : ((nextLine f.rest).take 255)[254]? = some c := by
      rw [List.getElem?_take, if_pos (by omega), hget]
    have hstop := StdString.lt_endOfLast (p := fun c => decide (c ≠ 0)) hget' (by simpa using hc)
    rw [readLine, readLineLoop_no_lf [] hne hlf]
    simp only [List.nil_append]
    rw [if_neg (by omega), hfull, Nat.sub_self, List.replicate_zero, List.append_nil,
      readLineLoop_append hc hget']
    by_cases hlen : (nextLine f.rest).length ≤ 255
    · have htake : (nextLine f.rest).take 255 = nextLine f.rest :=
        List.take_of_length_le hlen
      rw [htake] at hlf hfull ⊢
      have hend : nextLine (f.advance 255).rest = [] := by
        rw [nextLine_eq_nil, CFile.rest_advance, ← hfull, nextLine_of_not_any hlf,
          List.drop_length]
      rw [hend, padding_of_not_any hne hlen hlf, hfull]
      rfl
    · have hdrop : nextLine (f.advance 255).rest = (nextLine f.rest).drop 255 := by
        rw [CFile.rest_advance, nextLine_drop (by omega)]
      rw [hdrop, padding_drop (by omega), CFile.advance_advance, ← List.append_assoc,
        List.take_append_drop, List.length_drop, Nat.add_sub_cancel' (by omega)]

/-- A first block without a line feed that is not full, or ends in a NUL, is returned
without the NULs at its end. -/
theorem readLine_of_stop {f : CFile} (hne : nextLine f.rest ≠ [])
    (hlf : ((nextLine f.rest).take 255).any (fun c => decide (c = lf)) = false)
    (hget : ∀ c, (nextLine f.rest)[254]? = some c → c = 0) :
    readLine f =
      (((nextLine f.rest).take 255).rdropWhile (fun c => ! decide (c ≠ 0)),
        f.advance ((nextLine f.rest).take 255).length) := by
  have hend : StdString.endOfLast (fun c => decide (c ≠ 0)) ((nextLine f.rest).take 255)
      < 255 := by
    have hle := StdString.endOfLast_le_length (fun c => decide (c ≠ 0))
      ((nextLine f.rest).take 255)
    by_cases hlt : 254 < (nextLine f.rest).length
    · have hlen : ((nextLine f.rest).take 255).length = 255 := by
        rw [List.length_take]
        omega
      have hzero := hget _ (List.getElem?_eq_getElem hlt)
      have hlast : ((nextLine f.rest).take 255).getLast? = some 0 := by
        rw [List.getLast?_eq_getElem?, hlen, List.getElem?_take, if_pos (by omega),
          List.getElem?_eq_getElem hlt, hzero]
      have := (StdString.endOfLast_lt_length_iff (fun c => decide (c ≠ 0)) _).mpr
        ⟨0, hlast, by simp⟩
      omega
    · rw [List.length_take] at hle
      omega
  rw [readLine, readLineLoop_no_lf [] hne hlf]
  simp only [List.nil_append]
  rw [if_pos hend]

/-- The three ways in which the first block can end the search for the line: it ends in a
byte other than NUL, it contains the line feed, or neither. -/
theorem firstBlock_cases (s : Bytes) :
    (∃ c : UInt8, c ≠ 0 ∧ (nextLine s)[254]? = some c) ∨
      ((nextLine s).length ≤ 255 ∧
        (nextLine s).any (fun c => decide (c = lf)) = true) ∨
      (((nextLine s).take 255).any (fun c => decide (c = lf)) = false ∧
        ∀ c, (nextLine s)[254]? = some c → c = 0) := by
  by_cases hfull : ∃ c : UInt8, c ≠ 0 ∧ (nextLine s)[254]? = some c
  · exact .inl hfull
  by_cases hlf : ((nextLine s).take 255).any (fun c => decide (c = lf)) = true
  · have hlen := length_le_of_any_take hlf
    rw [List.take_of_length_le hlen] at hlf
    exact .inr (.inl ⟨hlen, hlf⟩)
  · refine .inr (.inr ⟨Bool.eq_false_iff.mpr hlf, fun c hget => ?_⟩)
    by_contra hc
    exact hfull ⟨c, hc, hget⟩

/-- **Agreement with the generic reader.** The block version returns what the generic
version returns exactly when the next line is one that `ReadsBack`. -/
theorem readLine_fst_eq_iff (f : CFile) :
    (readLine f).1 = (IoBase.readLine f).1 ↔ ReadsBack (nextLine f.rest) := by
  rw [IoBase.readLine_eq]
  have hcases := firstBlock_cases f.rest
  have hterm := nextLine_any_iff f.rest
  generalize hL : nextLine f.rest = L at hcases hterm
  by_cases hne : L = []
  · subst hne
    rw [readLine, readLineLoop_nil [] hL]
    simp [ReadsBack]
  rcases hcases with ⟨c, hc, hget⟩ | ⟨hlen, hlf⟩ | ⟨hlf, hzero⟩
  · have hlt : 254 < L.length := (List.getElem?_eq_some_iff.mp hget).1
    rw [readLine_of_full hc (by rw [hL]; exact hget), hL]
    have hpad : L ++ List.replicate (padding L) 0 = L ↔ padding L = 0 := by simp
    rw [hpad, padding_eq_zero_iff]
    by_cases hlen : L.length ≤ 255
    · have h255 : L.length = 255 := by omega
      have hlast : L.getLast? = some c := by rw [List.getLast?_eq_getElem?, h255, hget]
      simp [readsBack_of_le hlen, h255, hlast, hc]
    · simp [readsBack_of_lt (Nat.lt_of_not_le hlen), hget, hc]
  · rw [readLine, readLineLoop_lf [] (by rw [hL]; exact hlen) (by rw [hL]; exact hlf), hL]
    simp [ReadsBack, hlen, hterm.mp hlf, lf]
  · rw [readLine_of_stop (by rw [hL]; exact hne) (by rw [hL]; exact hlf)
      (by rw [hL]; exact hzero), hL]
    by_cases hlen : L.length ≤ 255
    · rw [List.take_of_length_le hlen, readsBack_of_le hlen, List.rdropWhile_eq_self_iff,
        List.getLast?_eq_some_getLast hne]
      simp [hne]
    · have hshort := (List.rdropWhile_prefix (fun c => ! decide (c ≠ 0))
        (L.take 255)).length_le
      rw [List.length_take] at hshort
      have hlt : 254 < L.length := by omega
      have hget := List.getElem?_eq_getElem hlt
      rw [hzero _ hget] at hget
      have hnot : ¬ ReadsBack L := by simp [readsBack_of_lt (Nat.lt_of_not_le hlen), hget]
      refine ⟨fun heq => ?_, fun h => absurd h hnot⟩
      have heqlen := congrArg List.length heq
      simp only at heqlen
      omega

end Cstdio

/-! ### Iterating over the lines -/

/-- `lines()` over `IoBase::read_line`: lines are read until one is empty. -/
def IoBase.lines (f : CFile) : List Bytes :=
  match _h : IoBase.readLine f with
  | (line, f') => if line = [] then [] else line :: IoBase.lines f'
termination_by f.rest.length
decreasing_by
  simp only [IoBase.readLine_eq, Prod.mk.injEq] at _h
  obtain ⟨rfl, rfl⟩ := _h
  exact CFile.rest_advance_lt ‹_› (nextLine_isPrefix _).length_le

namespace Cstdio

/-- A line that is not empty moves the read position. -/
theorem readLine_rest_lt {f : CFile} (hne : nextLine f.rest ≠ []) :
    (readLine f).2.rest.length < f.rest.length := by
  have hle := (nextLine_isPrefix f.rest).length_le
  have htake : (nextLine f.rest).take 255 ≠ [] := by simpa using hne
  rcases firstBlock_cases f.rest with ⟨c, hc, hget⟩ | ⟨hlen, hlf⟩ | ⟨hlf, hzero⟩
  · rw [readLine_of_full hc hget]
    exact CFile.rest_advance_lt hne hle
  · rw [readLine, readLineLoop_lf [] hlen hlf]
    exact CFile.rest_advance_lt hne hle
  · rw [readLine_of_stop hne hlf hzero]
    exact CFile.rest_advance_lt htake ((List.length_take_le' _ _).trans hle)

/-- `lines()` over `Cstdio::read_line`. -/
def lines (f : CFile) : List Bytes :=
  match _h : readLine f with
  | (line, f') => if line = [] then [] else line :: lines f'
termination_by f.rest.length
decreasing_by
  rename_i hline
  have hne : nextLine f.rest ≠ [] := by
    intro hnil
    rw [readLine, readLineLoop_nil [] hnil, Prod.mk.injEq] at _h
    exact hline _h.1.symm
  have := readLine_rest_lt hne
  rwa [_h] at this

end Cstdio

/-! ### Putting the lines together again -/

/-- There are no lines at the end of a file. -/
theorem IoBase.lines_of_nil {f : CFile} (h : f.rest = []) : IoBase.lines f = [] := by
  rw [IoBase.lines, IoBase.readLine_eq, nextLine_eq_nil.mpr h]
  simp

/-- The first line of a file comes first. -/
theorem IoBase.lines_of_ne_nil {f : CFile} (h : f.rest ≠ []) :
    IoBase.lines f =
      nextLine f.rest :: IoBase.lines (f.advance (nextLine f.rest).length) := by
  rw [IoBase.lines, IoBase.readLine_eq]
  simp [nextLine_eq_nil.not.mpr h]

/-- The lines of the generic reader give back the rest of the file. -/
theorem IoBase.flatten_lines (f : CFile) : (IoBase.lines f).flatten = f.rest := by
  induction hn : f.rest.length using Nat.strong_induction_on generalizing f with
  | _ n ih =>
      subst hn
      by_cases hrest : f.rest = []
      · rw [IoBase.lines_of_nil hrest, hrest, List.flatten_nil]
      · have hne := nextLine_eq_nil.not.mpr hrest
        have hlt := CFile.rest_advance_lt hne (nextLine_isPrefix f.rest).length_le
        rw [IoBase.lines_of_ne_nil hrest, List.flatten_cons, ih _ hlt _ rfl,
          CFile.rest_advance]
        conv_lhs => rw [List.prefix_iff_eq_take.mp (nextLine_isPrefix f.rest)]
        rw [List.length_take, Nat.min_eq_left (nextLine_isPrefix f.rest).length_le,
          List.take_append_drop]

namespace Cstdio

/-- There are no lines if the first one is empty. -/
theorem lines_of_nil {f : CFile} (h : (readLine f).1 = []) : lines f = [] := by
  rw [lines]
  split
  rename_i heq
  rw [heq] at h
  exact if_pos h

/-- The first line comes first. -/
theorem lines_of_ne_nil {f : CFile} (h : (readLine f).1 ≠ []) :
    lines f = (readLine f).1 :: lines (readLine f).2 := by
  rw [lines]
  split
  rename_i heq
  rw [heq] at h ⊢
  exact if_neg h

/-- On a line that reads back the two readers also move to the same position. -/
theorem readLine_eq_of_readsBack {f : CFile} (h : ReadsBack (nextLine f.rest)) :
    readLine f = (nextLine f.rest, f.advance (nextLine f.rest).length) := by
  have hfst := (readLine_fst_eq_iff f).mpr h
  rw [IoBase.readLine_eq] at hfst
  refine Prod.ext hfst ?_
  by_cases hne : nextLine f.rest = []
  · simp [readLine, readLineLoop_nil [] hne, hne]
  rcases firstBlock_cases f.rest with ⟨c, hc, hget⟩ | ⟨hlen, hlf⟩ | ⟨hlf, hzero⟩
  · rw [readLine_of_full hc hget]
  · rw [readLine, readLineLoop_lf [] hlen hlf]
  · have hlen : (nextLine f.rest).length ≤ 255 := by
      by_contra hgt
      rw [readsBack_of_lt (Nat.lt_of_not_le hgt)] at h
      have hget := List.getElem?_eq_getElem (show 254 < (nextLine f.rest).length by omega)
      exact h.1 (by rw [hget, hzero _ hget])
    rw [readLine_of_stop hne hlf hzero, List.take_of_length_le hlen]

/-- Whatever is returned starts with bytes of the file, one of which is not NUL. -/
theorem readLine_fst_isPrefix {f : CFile} (h : (readLine f).1 ≠ []) :
    ∃ p, p <+: (readLine f).1 ∧ p <+: f.rest ∧ ∃ c ∈ p, c ≠ 0 := by
  have hpre := nextLine_isPrefix f.rest
  by_cases hne : nextLine f.rest = []
  · simp [readLine, readLineLoop_nil [] hne] at h
  rcases firstBlock_cases f.rest with ⟨c, hc, hget⟩ | ⟨hlen, hlf⟩ | ⟨hlf, hzero⟩
  · rw [readLine_of_full hc hget]
    exact ⟨_, ⟨_, rfl⟩, hpre, c, List.mem_of_getElem? hget, hc⟩
  · rw [readLine, readLineLoop_lf [] hlen hlf]
    obtain ⟨c, hmem, hc⟩ := List.any_eq_true.mp hlf
    exact ⟨_, List.prefix_rfl, hpre, c, hmem, by rw [of_decide_eq_true hc]; decide⟩
  · rw [readLine_of_stop hne hlf hzero] at h ⊢
    have hlast := List.rdropWhile_last_not (fun c => ! decide (c ≠ 0)) _ h
    exact ⟨_, List.prefix_rfl,
      (List.rdropWhile_prefix _ _).trans ((List.take_prefix _ _).trans hpre),
      _, List.getLast_mem h, by simpa using hlast⟩

/-- The number of NULs at the front of a string. -/
def leadingNuls (s : Bytes) : ℕ := (s.takeWhile fun c => decide (c = 0)).length

/-- Zeros at the start are counted up to the first other byte. -/
theorem leadingNuls_eq_of_isPrefix {p s : Bytes} (hp : p <+: s) (hc : ∃ c ∈ p, c ≠ 0) :
    leadingNuls s = leadingNuls p := by
  obtain ⟨t, rfl⟩ := hp
  obtain ⟨c, hmem, hc⟩ := hc
  rw [leadingNuls, List.takeWhile_append, if_neg]
  · rfl
  · intro hlen
    have hall := List.takeWhile_eq_self_iff.mp
      (List.IsPrefix.eq_of_length (List.takeWhile_prefix _) hlen)
    exact hc (of_decide_eq_true (hall c hmem))

/-- More zeros in front are counted too. -/
theorem leadingNuls_append_nuls {z : Bytes} (s : Bytes) (hz : ∀ c ∈ z, c = 0) :
    leadingNuls (z ++ s) = z.length + leadingNuls s := by
  rw [leadingNuls, List.takeWhile_append, List.takeWhile_eq_self_iff.mpr, if_pos rfl,
    List.length_append]
  · rfl
  · exact fun c hc => decide_eq_true (hz c hc)

/-- Unless nothing is returned at all, the lines start with as many NULs as the file. -/
theorem leadingNuls_flatten_lines {f : CFile} (h : lines f ≠ []) :
    leadingNuls (lines f).flatten = leadingNuls f.rest := by
  have hne : (readLine f).1 ≠ [] := fun hnil => h (lines_of_nil hnil)
  obtain ⟨p, hline, hrest, hc⟩ := readLine_fst_isPrefix hne
  rw [lines_of_ne_nil hne, List.flatten_cons, leadingNuls_eq_of_isPrefix hrest hc,
    leadingNuls_eq_of_isPrefix (hline.trans (List.prefix_append _ _)) hc]

/-- A first block that is not the whole line, and in which the search stopped, ends in
NULs. -/
theorem rtakeWhile_ne_nil {line : Bytes} (hzero : ∀ c, (line)[254]? = some c → c = 0)
    (h : (line.take 255).rdropWhile (fun c => ! decide (c ≠ 0)) ≠ line) :
    (line.take 255).rtakeWhile (fun c => ! decide (c ≠ 0)) ≠ [] := by
  intro hnil
  have hsplit := @List.rdropWhile_append_rtakeWhile _ (fun c : UInt8 => ! decide (c ≠ 0))
    (line.take 255)
  rw [hnil, List.append_nil] at hsplit
  by_cases hlen : line.length ≤ 255
  · rw [List.take_of_length_le hlen] at hsplit h
    exact h hsplit
  · have hget := List.getElem?_eq_getElem (show 254 < line.length by omega)
    have hlast : (line.take 255).getLast? = some 0 := by
      rw [List.getLast?_eq_getElem?, List.length_take, Nat.min_eq_left (by omega),
        List.getElem?_take, if_pos (by omega), hget, hzero _ hget]
    have hne : line.take 255 ≠ [] := by
      intro hnil
      simp [hnil] at hlast
    have := List.rdropWhile_eq_self_iff.mp hsplit hne
    rw [List.getLast?_eq_some_getLast hne, Option.some.injEq] at hlast
    simp [hlast] at this

/-- A file whose first line does not read back is not given back by its lines. -/
theorem flatten_lines_ne {f : CFile} (h : ¬ ReadsBack (nextLine f.rest)) :
    (lines f).flatten ≠ f.rest := by
  have hL := (readLine_fst_eq_iff f).not.mpr h
  have hne : nextLine f.rest ≠ [] := by
    intro hnil
    simp [hnil, ReadsBack] at h
  have hrest : f.rest ≠ [] := nextLine_eq_nil.not.mp hne
  rw [IoBase.readLine_eq] at hL
  by_cases hnil : (readLine f).1 = []
  · rw [lines_of_nil hnil]
    exact fun heq => hrest heq.symm
  rw [lines_of_ne_nil hnil, List.flatten_cons]
  rcases firstBlock_cases f.rest with ⟨c, hc, hget⟩ | ⟨hlen, hlf⟩ | ⟨hlf, hzero⟩
  · -- padding follows an unterminated line, which is the last one
    rw [readLine_of_full hc hget] at hL ⊢
    have hpad : padding (nextLine f.rest) ≠ 0 := by
      intro hpad
      simp [hpad] at hL
    have hterm := fun hlast => hpad (padding_eq_zero_iff.mpr (.inl hlast))
    have hall : nextLine f.rest = f.rest :=
      nextLine_of_not_any (Bool.eq_false_iff.mpr ((nextLine_any_iff _).not.mpr hterm))
    intro heq
    have := congrArg List.length heq
    rw [hall] at this hpad
    simp only [List.length_append, List.length_replicate] at this
    omega
  · simp [readLine, readLineLoop_lf [] hlen hlf] at hL
  · -- the NULs dropped at the end of the block would have to come back
    rw [readLine_of_stop hne hlf hzero] at hL hnil ⊢
    have hz := rtakeWhile_ne_nil hzero hL
    have hnuls : ∀ c ∈ ((nextLine f.rest).take 255).rtakeWhile (fun c => ! decide (c ≠ 0)),
        c = 0 := fun c hc => by simpa using List.mem_rtakeWhile_imp hc
    have hchunk : (nextLine f.rest).take 255 <+: f.rest :=
      (List.take_prefix _ _).trans (nextLine_isPrefix _)
    have hrest : f.rest = (nextLine f.rest).take 255 ++
        (f.advance ((nextLine f.rest).take 255).length).rest := by
      rw [CFile.rest_advance]
      exact (List.prefix_append_drop hchunk)
    generalize f.advance ((nextLine f.rest).take 255).length = g at hrest ⊢
    generalize (nextLine f.rest).take 255 = chunk at hz hnuls hrest ⊢
    intro heq
    rw [hrest] at heq
    conv_rhs at heq =>
      rw [← @List.rdropWhile_append_rtakeWhile _ (fun c : UInt8 => ! decide (c ≠ 0)) chunk]
    rw [List.append_assoc, List.append_cancel_left_eq] at heq
    have hlines : lines g ≠ [] := by
      intro hnone
      rw [hnone, List.flatten_nil] at heq
      exact hz (List.append_eq_nil_iff.mp heq.symm).1
    have hcount := leadingNuls_flatten_lines hlines
    rw [heq, leadingNuls_append_nuls _ hnuls] at hcount
    have := List.length_pos_iff.mpr hz
    omega

/-- **Putting the lines together.** The lines give back the rest of the file exactly when
every line reads back, and then they are the lines of the generic reader. -/
theorem flatten_lines_iff (f : CFile) :
    (lines f).flatten = f.rest ↔ ∀ line ∈ IoBase.lines f, ReadsBack line := by
  induction hn : f.rest.length using Nat.strong_induction_on generalizing f with
  | _ n ih =>
      subst hn
      by_cases hrest : f.rest = []
      · have hnil : (readLine f).1 = [] := by
          rw [readLine, readLineLoop_nil [] (nextLine_eq_nil.mpr hrest)]
        simp [lines_of_nil hnil, IoBase.lines_of_nil hrest, hrest]
      have hne := nextLine_eq_nil.not.mpr hrest
      by_cases hline : ReadsBack (nextLine f.rest)
      · have hlt := CFile.rest_advance_lt hne (nextLine_isPrefix f.rest).length_le
        have hread := readLine_eq_of_readsBack hline
        have hrec := ih _ hlt _ rfl
        rw [lines_of_ne_nil (by rw [hread]; exact hne), hread, IoBase.lines_of_ne_nil hrest]
        rw [CFile.rest_advance] at hrec
        simp only [List.flatten_cons, List.forall_mem_cons, hline, true_and, ← hrec]
        have hsplit := List.prefix_append_drop (nextLine_isPrefix f.rest)
        exact ⟨fun h => List.append_cancel_left (h.trans hsplit),
          fun h => (congrArg _ h).trans hsplit.symm⟩
      · rw [IoBase.lines_of_ne_nil hrest]
        simp [hline, flatten_lines_ne hline]

/-- **The block reader refines the generic one on the lines that read back, and on no
others.** For every file and read position the two return the same string exactly when
the next line reads back; they then also leave the same position, and `lines()` gives
back the rest of the file exactly when all of its lines read back. -/
theorem readLine_agrees_iff (f : CFile) :
    ((readLine f).1 = (IoBase.readLine f).1 ↔ ReadsBack (nextLine f.rest)) ∧
      (ReadsBack (nextLine f.rest) → readLine f = IoBase.readLine f) ∧
      ((lines f).flatten = f.rest ↔ ∀ line ∈ IoBase.lines f, ReadsBack line) := by
  refine ⟨readLine_fst_eq_iff f, fun h => ?_, flatten_lines_iff f⟩
  rw [readLine_eq_of_readsBack h, IoBase.readLine_eq]

/-- An unterminated line of 256 bytes comes back with NULs behind it. -/
theorem readLine_agrees_fails :
    ¬ ∀ f : CFile, (readLine f).1 = (IoBase.readLine f).1 := by
  intro h
  have hline := (readLine_fst_eq_iff ⟨List.replicate 256 97, 0⟩).mp (h _)
  exact absurd hline (by decide +kernel)

end Cstdio

end RsIo
