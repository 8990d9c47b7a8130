import RsIo.Stdio
import RsIo.StdString

/-!
# Writing Strings and Repeated Bytes

What `IoBase` builds on the `write()` of a stream, which may accept a part of what it is given
and report no error. `writes` calls it again with the rest. `write_chars` writes a count of equal
bytes in blocks, and does not look at how much of a block is accepted.

## Main results

* `IoBase.writes_accepted`, `IoBase.writeLine_accepted`: a string is accepted as a whole.
* `IoBase.writeChars_accepted_iff`: when a count of equal bytes is accepted as a whole.
* `IoBase.accepted_iff`: when all three functions do what they are for.
-/

namespace RsIo

open StdString

universe u

/-- The `write()` of a stream with a state: how many bytes it accepts, which is at least one
if there are any, and the state. -/
structure Backend (σ : Type u) where
  write : Bytes → σ → ℕ × σ
  le_length : ∀ data s, (write data s).1 ≤ data.length
  pos : ∀ data s, data ≠ [] → 0 < (write data s).1

/-- The state of a stream, with the bytes that it has accepted. -/
structure Sink (σ : Type u) where
  state : σ
  accepted : Bytes

namespace IoBase

variable {σ : Type u} (b : Backend σ)

/-! ### Output functions -/

/-- `IoBase::write`. -/
def write (data : Bytes) (o : Sink σ) : ℕ × Sink σ :=
  let r := b.write data o.state
  (r.1, ⟨r.2, o.accepted ++ data.take r.1⟩)

/-- `IoBase::putc`. -/
def putc (c : UInt8) (o : Sink σ) : Sink σ := (write b [c] o).2

/-- The loop of `writes`, with the offset: the offset at the end, and the stream. -/
def writesLoop (str : Bytes) (ofs : ℕ) (o : Sink σ) : ℕ × Sink σ :=
  let r := write b (str.drop ofs) o
  if _h : ofs + r.1 < str.length then writesLoop str (ofs + r.1) r.2 else (ofs + r.1, r.2)
termination_by str.length - ofs
decreasing_by
  have hne : str.drop ofs ≠ [] := by
    rw [Ne, List.drop_eq_nil_iff]
    omega
  have hpos : 0 < r.1 := b.pos _ _ hne
  change str.length - (ofs + r.1) < str.length - ofs
  omega

/-- `IoBase::writes`. -/
def writes (str : Bytes) (o : Sink σ) : ℕ × Sink σ := writesLoop b str 0 o

/-- `IoBase::write_line`. -/
def writeLine (str : Bytes) (o : Sink σ) : Sink σ :=
  if str.isEmpty then
    putc b lf o
  else if str.getLast? = some lf then
    (writes b str o).2
  else
    (writes b (str ++ [lf]) o).2

/-- `block_size`. -/
def blockSize : ℕ := 65536

/-- The loop of `write_chars` over the full blocks. -/
def writeBlocks (buf : Bytes) : ℕ → Sink σ → Sink σ
  | 0, o => o
  | quo + 1, o => writeBlocks buf quo (write b (buf.take blockSize) o).2

/-- `IoBase::write_chars`. -/
def writeChars (n : ℕ) (c : UInt8) (o : Sink σ) : Sink σ :=
  let buf := List.replicate (min n blockSize) c
  let quo := n / blockSize
  let rem := n % blockSize
  let o := writeBlocks b buf quo o
  if rem ≠ 0 then (write b (buf.take rem) o).2 else o

/-! ### Strings -/

variable {b}

theorem writesLoop_accepted (str : Bytes) (ofs : ℕ) (o : Sink σ) (h : ofs ≤ str.length) :
    (writesLoop b str ofs o).1 = str.length ∧
      (writesLoop b str ofs o).2.accepted = o.accepted ++ str.drop ofs := by
  fun_induction writesLoop b str ofs o with
  | case1 ofs o r hlt ih =>
      obtain ⟨hlen, hacc⟩ := ih hlt.le
      refine ⟨hlen, ?_⟩
      change _ = o.accepted ++ _
      have hr : r.2.accepted = o.accepted ++ (str.drop ofs).take r.1 := rfl
      rw [hacc, hr, List.append_assoc, ← List.drop_drop, List.take_append_drop]
  | case2 ofs o r hge =>
      have hle : r.1 ≤ (str.drop ofs).length := b.le_length _ _
      rw [List.length_drop] at hle
      have hr : r.2.accepted = o.accepted ++ (str.drop ofs).take r.1 := rfl
      refine ⟨by omega, ?_⟩
      rw [hr, List.take_of_length_le (by rw [List.length_drop]; omega)]

/-- A string is accepted as a whole, whatever part of it each call accepts. -/
theorem writes_accepted (str : Bytes) (o : Sink σ) :
    (writes b str o).1 = str.length ∧ (writes b str o).2.accepted = o.accepted ++ str :=
  writesLoop_accepted str 0 o (Nat.zero_le _)

theorem putc_accepted (c : UInt8) (o : Sink σ) : (putc b c o).accepted = o.accepted ++ [c] := by
  have hle : (b.write [c] o.state).1 ≤ 1 := b.le_length _ _
  have hpos : 0 < (b.write [c] o.state).1 := b.pos _ _ (List.cons_ne_nil _ _)
  have hone : (b.write [c] o.state).1 = 1 := by omega
  change o.accepted ++ [c].take (b.write [c] o.state).1 = _
  rw [hone]
  rfl

/-- A line: the string, with a line feed at its end. -/
def asLine (str : Bytes) : Bytes := if str.getLast? = some lf then str else str ++ [lf]

/-- A line is accepted as a whole. -/
theorem writeLine_accepted (str : Bytes) (o : Sink σ) :
    (writeLine b str o).accepted = o.accepted ++ asLine str := by
  rw [writeLine, asLine]
  split
  next hempty =>
    rw [List.isEmpty_iff.mp hempty]
    exact putc_accepted lf o
  next =>
    split
    · exact (writes_accepted str o).2
    · exact (writes_accepted (str ++ [lf]) o).2

/-! ### Repeated bytes -/

/-- The blocks of `n` bytes `c`. -/
def blocks (n : ℕ) (c : UInt8) : List Bytes :=
  List.replicate (n / blockSize) (List.replicate blockSize c) ++
    if n % blockSize ≠ 0 then [List.replicate (n % blockSize) c] else []

/-- The blocks are written one after the other, each with one call. -/
def writeEach (b : Backend σ) : List Bytes → Sink σ → Sink σ
  | [], o => o
  | data :: rest, o => writeEach b rest (write b data o).2

/-- Each of the calls accepts the whole block. -/
def AcceptsEach (b : Backend σ) : List Bytes → σ → Prop
  | [], _ => True
  | data :: rest, s =>
      (b.write data s).1 = data.length ∧ AcceptsEach b rest (b.write data s).2

theorem writeEach_append (first rest : List Bytes) (o : Sink σ) :
    writeEach b (first ++ rest) o = writeEach b rest (writeEach b first o) := by
  induction first generalizing o with
  | nil => rfl
  | cons data first ih => exact ih _

theorem writeBlocks_eq (buf : Bytes) (quo : ℕ) (o : Sink σ) :
    writeBlocks b buf quo o = writeEach b (List.replicate quo (buf.take blockSize)) o := by
  induction quo generalizing o with
  | zero => rfl
  | succ quo ih => exact ih _

/-- `write_chars` makes one call for each block. -/
theorem writeChars_eq (n : ℕ) (c : UInt8) (o : Sink σ) :
    writeChars b n c o = writeEach b (blocks n c) o := by
  have hfull : List.replicate (n / blockSize)
      ((List.replicate (min n blockSize) c).take blockSize) =
        List.replicate (n / blockSize) (List.replicate blockSize c) := by
    rcases Nat.lt_or_ge n blockSize with hlt | hge
    · rw [Nat.div_eq_of_lt hlt]
      rfl
    · rw [Nat.min_eq_right hge, List.take_replicate, Nat.min_self]
  have hrem : (List.replicate (min n blockSize) c).take (n % blockSize) =
      List.replicate (n % blockSize) c := by
    have hmod := Nat.mod_lt n (y := blockSize) (by decide)
    have hle := Nat.mod_le n blockSize
    rw [List.take_replicate, Nat.min_eq_left (by omega)]
  rw [writeChars, blocks, writeEach_append, writeBlocks_eq, hfull, hrem]
  split <;> rfl

/-- How many bytes there are in the blocks. -/
theorem flatten_blocks (n : ℕ) (c : UInt8) : (blocks n c).flatten = List.replicate n c := by
  have hdiv := Nat.div_add_mod n blockSize
  rw [blocks, List.flatten_append, List.flatten_replicate_replicate]
  split
  next hrem =>
    rw [List.flatten_cons, List.flatten_nil, List.append_nil, List.replicate_append_replicate,
      Nat.mul_comm, hdiv]
  next hrem =>
    rw [List.flatten_nil, List.append_nil, Nat.mul_comm]
    congr 1
    omega

theorem length_writeEach_le (blocks : List Bytes) (o : Sink σ) :
    (writeEach b blocks o).accepted.length ≤ o.accepted.length + blocks.flatten.length := by
  induction blocks generalizing o with
  | nil => exact Nat.le_refl _
  | cons data rest ih =>
      have hrest := ih (write b data o).2
      have hlen : (write b data o).2.accepted.length ≤ o.accepted.length + data.length := by
        simp only [write, List.length_append, List.length_take]
        omega
      rw [writeEach, List.flatten_cons, List.length_append]
      omega

/-- The blocks are accepted exactly if each call accepts its block. -/
theorem writeEach_accepted_iff (blocks : List Bytes) (o : Sink σ) :
    (writeEach b blocks o).accepted = o.accepted ++ blocks.flatten ↔
      AcceptsEach b blocks o.state := by
  induction blocks generalizing o with
  | nil => exact iff_of_true (List.append_nil _).symm trivial
  | cons data rest ih =>
      have hle : (b.write data o.state).1 ≤ data.length := b.le_length _ _
      have hnext : (write b data o).2.accepted =
          o.accepted ++ data.take (b.write data o.state).1 := rfl
      have hwhole : (b.write data o.state).1 = data.length →
          (write b data o).2.accepted ++ rest.flatten = o.accepted ++ (data :: rest).flatten := by
        intro hlen
        rw [hnext, hlen, List.take_length, List.flatten_cons, List.append_assoc]
      constructor
      · intro hacc
        -- What a call leaves out is not made up for by the others.
        have hshort := length_writeEach_le rest (write b data o).2 (b := b)
        have hlen := congrArg List.length hacc
        rw [writeEach, List.length_append, List.flatten_cons, List.length_append] at hlen
        rw [hnext, List.length_append, List.length_take] at hshort
        have hfull : (b.write data o.state).1 = data.length := by omega
        refine ⟨hfull, (ih (write b data o).2).mp ?_⟩
        rw [hwhole hfull]
        exact hacc
      · rintro ⟨hfull, hrest⟩
        rw [writeEach, (ih (write b data o).2).mpr hrest, hwhole hfull]

/-- The repeated bytes are accepted exactly if each call accepts its block. -/
theorem writeChars_accepted_iff (n : ℕ) (c : UInt8) (o : Sink σ) :
    (writeChars b n c o).accepted = o.accepted ++ List.replicate n c ↔
      AcceptsEach b (blocks n c) o.state := by
  rw [writeChars_eq, ← writeEach_accepted_iff, flatten_blocks]

/-! ### The output functions together -/

/-- What the functions make the stream accept, for a string, a byte and a count. -/
structure Accepted (b : Backend σ) (o : Sink σ) (str : Bytes) (n : ℕ) (c : UInt8) : Prop where
  writes : (writes b str o).2.accepted = o.accepted ++ str
  line : (writeLine b str o).accepted = o.accepted ++ asLine str
  chars : (writeChars b n c o).accepted = o.accepted ++ List.replicate n c

/-- **Output.** The functions make the stream accept what they are given, exactly if it accepts
the blocks of `write_chars` as a whole. -/
theorem accepted_iff (b : Backend σ) (o : Sink σ) (str : Bytes) (n : ℕ) (c : UInt8) :
    Accepted b o str n c ↔ AcceptsEach b (blocks n c) o.state := by
  rw [← writeChars_accepted_iff]
  exact ⟨fun h => h.chars, fun h => ⟨(writes_accepted str o).2, writeLine_accepted str o, h⟩⟩

/-- A stream that accepts one byte in a call. -/
def oneByte : Backend Unit where
  write data s := (min data.length 1, s)
  le_length _ _ := Nat.min_le_left _ _
  pos data _ h := by
    have hlen := List.length_pos_iff.mpr h
    omega

/-- Of two bytes the second is not written. -/
theorem accepted_fails :
    ¬ ∀ (b : Backend Unit) (o : Sink Unit) (str : Bytes) (n : ℕ) (c : UInt8),
      Accepted b o str n c := by
  intro hall
  exact absurd (hall oneByte ⟨(), []⟩ [] 2 42).chars (by decide)

end IoBase

end RsIo
