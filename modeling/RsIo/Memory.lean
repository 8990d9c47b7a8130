import RsIo.Bytes
import Mathlib.Data.List.Induction

/-!
# Numbers and Structures in Memory

A number of a fixed width as the bytes that hold it, in network order and in the order of
the host, which is the other one here. A structure of the system is a block of bytes, and an
assignment to a member pokes the bytes of its value into the block.

## Main results

* `readBE_beBytes`, `beBytes_readBE`: writing and reading are inverse.
* `peek_poke`, `peek_poke_of_disjoint`: what a member holds after an assignment.
-/

namespace RsIo

/-! ### Numbers -/

/-- The `width` bytes of a number in network order. -/
def beBytes : ℕ → ℕ → Bytes
  | 0, _ => []
  | width + 1, n => beBytes width (n / 256) ++ [UInt8.ofNat (n % 256)]

/-- The number that bytes hold in network order. -/
def readBE (b : Bytes) : ℕ := b.foldl (fun n c => 256 * n + c.toNat) 0

/-- The bytes of a number in the order of the host. -/
def leBytes (width n : ℕ) : Bytes := (beBytes width n).reverse

/-- The number that bytes hold in the order of the host. -/
def readLE (b : Bytes) : ℕ := readBE b.reverse

/-- As many bytes are written as there is room for. -/
@[simp] theorem length_beBytes (width n : ℕ) : (beBytes width n).length = width := by
  induction width generalizing n with
  | zero => rfl
  | succ width ih => rw [beBytes, List.length_append, ih, List.length_singleton]

/-- As many bytes are written as there is room for. -/
@[simp] theorem length_leBytes (width n : ℕ) : (leBytes width n).length = width := by
  rw [leBytes, List.length_reverse, length_beBytes]

/-- The last byte counts least. -/
theorem readBE_concat (b : Bytes) (c : UInt8) : readBE (b ++ [c]) = 256 * readBE b + c.toNat := by
  rw [readBE, List.foldl_concat, readBE]

/-- A number that fits is read back. -/
theorem readBE_beBytes {width n : ℕ} (h : n < 256 ^ width) : readBE (beBytes width n) = n := by
  induction width generalizing n with
  | zero =>
      have hzero : n = 0 := by omega
      rw [hzero]
      rfl
  | succ width ih =>
      have hdiv : n / 256 < 256 ^ width :=
        Nat.div_lt_of_lt_mul (by rwa [Nat.pow_succ, Nat.mul_comm] at h)
      rw [beBytes, readBE_concat, ih hdiv, UInt8.toNat_ofNat']
      omega

/-- Bytes are written back. -/
theorem beBytes_readBE (b : Bytes) : beBytes b.length (readBE b) = b := by
  induction b using List.reverseRecOn with
  | nil => rfl
  | append_singleton b c ih =>
      have hc : c.toNat < 256 := c.toNat_lt
      have hdiv : (256 * readBE b + c.toNat) / 256 = readBE b := by omega
      have hmod : (256 * readBE b + c.toNat) % 256 = c.toNat := by omega
      rw [readBE_concat, List.length_append, List.length_singleton, beBytes, hdiv, hmod, ih,
        UInt8.ofNat_toNat]

/-- A number is zero if its bytes are. -/
theorem readBE_eq_zero_iff (b : Bytes) : readBE b = 0 ↔ ∀ c ∈ b, c = 0 := by
  induction b using List.reverseRecOn with
  | nil => simp [readBE]
  | append_singleton b c ih =>
      have hc : c.toNat = 0 ↔ c = 0 := UInt8.toNat_inj (b := 0)
      rw [readBE_concat, List.forall_mem_append, List.forall_mem_singleton, ← ih, ← hc]
      omega

/-- A number that fits is read back. -/
theorem readLE_leBytes {width n : ℕ} (h : n < 256 ^ width) : readLE (leBytes width n) = n := by
  rw [readLE, leBytes, List.reverse_reverse, readBE_beBytes h]

/-! ### Members of a structure -/

/-- An assignment to the member at an offset. -/
def poke (block : Bytes) (ofs : ℕ) (b : Bytes) : Bytes :=
  block.take ofs ++ (b ++ block.drop (ofs + b.length))

/-- The bytes of the member at an offset. -/
def peek (block : Bytes) (ofs len : ℕ) : Bytes := (block.drop ofs).take len

section Members

variable {block b : Bytes} {ofs : ℕ}

/-- A write does not change the size of the block. -/
theorem length_poke (h : ofs + b.length ≤ block.length) :
    (poke block ofs b).length = block.length := by
  rw [poke, List.length_append, List.length_append, List.length_take, List.length_drop]
  omega

/-- Bytes are read where they were written. -/
theorem peek_poke (h : ofs + b.length ≤ block.length) :
    peek (poke block ofs b) ofs b.length = b := by
  have hlen : (block.take ofs).length = ofs := by
    rw [List.length_take]
    omega
  rw [peek, poke, List.drop_left' hlen, List.take_left]

/-- A member keeps its value when another one is assigned. -/
theorem peek_poke_of_disjoint (h : ofs + b.length ≤ block.length) {ofs' len : ℕ}
    (hdisjoint : ofs' + len ≤ ofs ∨ ofs + b.length ≤ ofs') :
    peek (poke block ofs b) ofs' len = peek block ofs' len := by
  refine List.ext_getElem? fun i => ?_
  simp only [peek, poke, List.getElem?_take, List.getElem?_drop]
  split
  next hi =>
    rcases hdisjoint with hlt | hge
    · rw [List.getElem?_append_left (by rw [List.length_take]; omega), List.getElem?_take,
        if_pos (by omega)]
    · rw [List.getElem?_append_right (by rw [List.length_take]; omega), List.length_take,
        Nat.min_eq_left (by omega), List.getElem?_append_right (by omega), List.getElem?_drop]
      congr 1
      omega
  next => rfl

end Members

end RsIo
