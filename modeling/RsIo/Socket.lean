import RsIo.Bytes
import RsIo.Errno
import Mathlib.Algebra.BigOperators.Group.List.Basic

/-!
# Writing to a Socket

`Socket::do_write` of `net.cpp` sends a block of memory with repeated calls of `send()`
or `sendto()`. Each call may accept fewer bytes than it was asked to send, so the calls
are modelled by the list of their outcomes, and the model returns the bytes each call
accepted next to the result of the function.

The loop counts the accepted bytes in `written` but hands the same pointer and the same
length to every call. A call after the first one therefore starts again at the beginning
of the block.

## Main results

* `Socket.doWriteLoop_spec`: one invariant for the loop, by induction on the outcomes.
* `Socket.write_complete_iff`: a write that returns true has sent the block exactly when
  every call sent again what was due, `Resends`.
* `Socket.write_returns`: as many accepting calls as there are bytes finish the write.
-/

namespace RsIo

/-- `NetResult`: what a call of the network API returned, with `errno` after it. -/
structure NetResult where
  res : ℤ
  err : ℕ
  deriving DecidableEq, Repr

/-- The outcome of a call that accepted `n` bytes. -/
def NetResult.accepted (n : ℕ) : NetResult := ⟨n, 0⟩

namespace Socket

/-- How a call of `do_write` ended: it returned, it threw `std::system_error`, or it is
still in its loop when the listed outcomes are used up. -/
inductive WriteStatus
  | returned (ok : Bool)
  | threw (err : ℕ) (call : String)
  | pending
  deriving DecidableEq, Repr

/-- The bytes accepted by each call of the primitive, in order, and how `do_write` ended. -/
structure WriteRun where
  accepted : List Bytes
  status : WriteStatus
  deriving DecidableEq, Repr

/-- `socket_iosize(len)`: the length is passed as a `socklen_t`, which has 32 bits. -/
def socketIosize (len : ℕ) : ℕ := len % 2 ^ 32

/-- `size_t(n)` for the signed result of a call. -/
def sizeT (n : ℤ) : ℕ := (n % 2 ^ 64).toNat

/-- `written += size_t(rc.res)` on a `size_t`. -/
def addWritten (written : ℕ) (res : ℤ) : ℕ := (written + sizeT res) % 2 ^ 64

/-- The loop of `Socket::do_write` over the outcomes of the calls it makes. Every call is
given `csrc` and `socket_iosize(len)` and accepts a prefix of that block. `EAGAIN` sleeps
and falls through to the addition, any other failure throws. -/
def doWriteLoop (src : Bytes) (call : String) : ℕ → List NetResult → WriteRun
  | written, [] =>
      ⟨[], if written < src.length then .pending else .returned true⟩
  | written, rc :: outcomes =>
      if written < src.length then
        if rc.res = -1 ∧ rc.err ≠ eAgain then
          ⟨[], .threw rc.err call⟩
        else
          let run := doWriteLoop src call (addWritten written rc.res) outcomes
          ⟨(src.take (socketIosize src.length)).take rc.res.toNat :: run.accepted, run.status⟩
      else
        ⟨[], .returned true⟩

/-- `Socket::do_write`. The socket is `none` when it is closed (`no_socket`), the source
is `none` for a null pointer, and `dst` is the address given to `write_to`, if any. -/
def doWrite (sock : Option ℕ) (src : Option Buffer) (dst : Option Bytes)
    (outcomes : List NetResult) : WriteRun :=
  match src, sock with
  | some b, some _ =>
      doWriteLoop b.bytes (if dst.isSome then "sendto()" else "send()") 0 outcomes
  | _, _ => ⟨[], .returned false⟩

/-- `Socket::write` on a pointer and a length. -/
def write (sock : Option ℕ) (src : Option Buffer) (outcomes : List NetResult) : WriteRun :=
  doWrite sock src none outcomes

/-! ### Outcomes that accept bytes -/

/-- Every call accepts between one byte and the length it was asked to send. -/
def Accepts (b : Buffer) (counts : List ℕ) : Prop :=
  ∀ n ∈ counts, 1 ≤ n ∧ n ≤ socketIosize b.bytes.length

/-- Whether the counts can be those of a call can be computed. -/
instance (b : Buffer) (counts : List ℕ) : Decidable (Accepts b counts) :=
  inferInstanceAs (Decidable (∀ n ∈ counts, _))

/-- With `ofs` bytes of `src` accepted so far, every further call stays inside the block
and the bytes it takes from the start of the block are the ones due at `ofs`. -/
def Resends (src : Bytes) : ℕ → List ℕ → Prop
  | _, [] => True
  | ofs, n :: counts =>
      ofs < src.length →
        ofs + n ≤ src.length ∧ (src.drop ofs).take n = src.take n ∧
          Resends src (ofs + n) counts

/-- Whether the counts resend the block can be computed. -/
instance Resends.decidable (src : Bytes) :
    ∀ (ofs : ℕ) (counts : List ℕ), Decidable (Resends src ofs counts)
  | _, [] => .isTrue trivial
  | ofs, n :: counts =>
      have := Resends.decidable src (ofs + n) counts
      inferInstanceAs (Decidable (ofs < src.length →
        ofs + n ≤ src.length ∧ (src.drop ofs).take n = src.take n ∧
          Resends src (ofs + n) counts))

theorem sizeT_natCast {n : ℕ} (h : n < 2 ^ 64) : sizeT n = n := by
  simp only [sizeT]
  omega

theorem addWritten_natCast {ofs n : ℕ} (h : ofs + n < 2 ^ 64) :
    addWritten ofs n = ofs + n := by
  rw [addWritten, sizeT_natCast (by omega)]
  exact Nat.mod_eq_of_lt h

theorem socketIosize_le (len : ℕ) : socketIosize len ≤ len :=
  Nat.mod_le _ _

/-- One accepting call inside the loop: the first `n` bytes of the block go out and the
counter moves on by `n`. -/
theorem doWriteLoop_accepted {b : Buffer} {ofs n : ℕ} (call : String)
    (counts : List ℕ) (hofs : ofs < b.bytes.length) (hn : n ≤ socketIosize b.bytes.length) :
    doWriteLoop b.bytes call ofs ((n :: counts).map NetResult.accepted) =
      let run := doWriteLoop b.bytes call (ofs + n) (counts.map NetResult.accepted)
      ⟨b.bytes.take n :: run.accepted, run.status⟩ := by
  have hlen := b.length_lt
  have hle := socketIosize_le b.bytes.length
  have hadd : addWritten ofs n = ofs + n := addWritten_natCast (by omega)
  have hne : ¬ ((n : ℤ) = -1 ∧ (0 : ℕ) ≠ eAgain) := by omega
  simp only [List.map_cons, doWriteLoop, NetResult.accepted, if_pos hofs, if_neg hne, hadd,
    Int.toNat_natCast, List.take_take, Nat.min_eq_left hn]

/-- The loop ends once the counter has reached the length. -/
theorem doWriteLoop_done {src : Bytes} {ofs : ℕ} (call : String) (outcomes : List NetResult)
    (h : src.length ≤ ofs) : doWriteLoop src call ofs outcomes = ⟨[], .returned true⟩ := by
  cases outcomes <;> simp [doWriteLoop, Nat.not_lt.mpr h]

/-- Over accepting calls the loop returns true as soon as the counts reach the length, and
is still running before that. -/
theorem doWriteLoop_status {b : Buffer} (call : String) {counts : List ℕ} {ofs : ℕ}
    (h : Accepts b counts) :
    (doWriteLoop b.bytes call ofs (counts.map NetResult.accepted)).status =
      if b.bytes.length ≤ ofs + counts.sum then .returned true else .pending := by
  induction counts generalizing ofs with
  | nil =>
      by_cases hofs : ofs < b.bytes.length
      · simp [doWriteLoop, hofs]
      · simp [doWriteLoop, hofs, Nat.le_of_not_lt hofs]
  | cons n counts ih =>
      have hn := h n List.mem_cons_self
      by_cases hofs : ofs < b.bytes.length
      · rw [doWriteLoop_accepted call counts hofs hn.2]
        rw [List.sum_cons, ← Nat.add_assoc]
        exact ih fun m hm => h m (List.mem_cons_of_mem n hm)
      · rw [doWriteLoop_done call _ (Nat.le_of_not_lt hofs), if_pos (by omega)]

/-- **The invariant of the loop.** From `ofs` accepted bytes on, a loop that returns true
completes the first `ofs` bytes to the whole block exactly when its calls resend what is
due. -/
theorem doWriteLoop_spec {b : Buffer} (call : String) {counts : List ℕ} {ofs : ℕ}
    (h : Accepts b counts) (hofs : ofs ≤ b.bytes.length)
    (hsum : b.bytes.length ≤ ofs + counts.sum) :
    b.bytes.take ofs ++
        (doWriteLoop b.bytes call ofs (counts.map NetResult.accepted)).accepted.flatten =
      b.bytes ↔ Resends b.bytes ofs counts := by
  induction counts generalizing ofs with
  | nil =>
      have heq : ofs = b.bytes.length := by
        simp only [List.sum_nil] at hofs hsum
        omega
      simp [doWriteLoop, Resends, heq]
  | cons n counts ih =>
      have hn := h n List.mem_cons_self
      have htail : Accepts b counts := fun m hm => h m (List.mem_cons_of_mem n hm)
      by_cases hlt : ofs < b.bytes.length
      · have hle := socketIosize_le b.bytes.length
        rw [doWriteLoop_accepted call counts hlt hn.2]
        simp only [List.flatten_cons, Resends]
        constructor
        · intro heq _
          have hlen : ofs + n ≤ b.bytes.length := by
            have := congrArg List.length heq
            simp only [List.length_append, List.length_take] at this
            omega
          have hdue : (b.bytes.drop ofs).take n = b.bytes.take n := by
            have := congrArg (fun l => (l.drop ofs).take n) heq
            simpa [List.drop_append, List.take_append, Nat.min_eq_left hofs,
              Nat.min_eq_left (show n ≤ b.bytes.length by omega)] using this.symm
          refine ⟨hlen, hdue, (ih htail hlen (by simp only [List.sum_cons] at hsum; omega)).mp ?_⟩
          rw [List.take_add, hdue, List.append_assoc]
          exact heq
        · intro hres
          obtain ⟨hlen, hdue, hrest⟩ := hres hlt
          have := (ih htail hlen (by simp only [List.sum_cons] at hsum; omega)).mpr hrest
          rwa [List.take_add, hdue, List.append_assoc] at this
      · have heq : ofs = b.bytes.length := by
          omega
        rw [doWriteLoop_done call _ (Nat.le_of_eq heq.symm)]
        simp [Resends, heq]

/-! ### The whole write -/

/-- As many accepting calls as there are bytes are enough for an open socket to finish
the write. -/
theorem write_returns (fd : ℕ) {b : Buffer} {counts : List ℕ} (h : Accepts b counts)
    (hlen : b.bytes.length ≤ counts.length) :
    (write (some fd) (some b) (counts.map NetResult.accepted)).status = .returned true := by
  have hsum : counts.length ≤ counts.sum :=
    List.length_le_sum_of_one_le counts fun n hn => (h n hn).1
  simp only [write, doWrite, doWriteLoop_status _ h]
  exact if_pos (by omega)

/-- **What a write sends.** When every call accepts between one byte and what it was asked
to send, a write that returns true has sent the block, byte for byte, exactly when the
socket is closed, the calls have not accepted `len` bytes yet, or every call happened to
resend what was due. -/
theorem write_complete_iff (sock : Option ℕ) (b : Buffer) (counts : List ℕ)
    (h : Accepts b counts) :
    ((write sock (some b) (counts.map NetResult.accepted)).status = .returned true →
        (write sock (some b) (counts.map NetResult.accepted)).accepted.flatten = b.bytes) ↔
      sock = none ∨ counts.sum < b.bytes.length ∨ Resends b.bytes 0 counts := by
  cases sock with
  | none => simp [write, doWrite]
  | some fd =>
      simp only [write, doWrite, doWriteLoop_status _ h, Nat.zero_add, reduceCtorEq, false_or]
      by_cases hsum : b.bytes.length ≤ counts.sum
      · have hspec := doWriteLoop_spec "send()" h (Nat.zero_le _) (by omega)
        simp only [List.take_zero, List.nil_append] at hspec
        simp [hsum, Nat.not_lt.mpr hsum, hspec]
      · simp [hsum, Nat.lt_of_not_le hsum]

/-- A write whose only call takes the whole block sends exactly that block, and so does one whose
second call finds the first byte again where the next one is due. -/
theorem write_complete_single :
    (write (some 3) (some ⟨bytes "abc", by decide⟩)
      ([3].map NetResult.accepted)).accepted.flatten = bytes "abc" ∧
    (write (some 3) (some ⟨bytes "aaa", by decide⟩)
      ([1, 2].map NetResult.accepted)).accepted = [bytes "a", bytes "aa"] ∧
    (write (some 3) (some ⟨bytes "aaa", by decide⟩)
      ([1, 2].map NetResult.accepted)).accepted.flatten = bytes "aaa" :=
  ⟨(write_complete_iff (some 3) ⟨bytes "abc", by decide⟩ [3] (by decide)).mpr
      (.inr (.inr (by decide))) (by decide), by decide,
    (write_complete_iff (some 3) ⟨bytes "aaa", by decide⟩ [1, 2] (by decide)).mpr
      (.inr (.inr (by decide))) (by decide)⟩

/-- A first call that takes one byte of `abc` and a second one that takes two make the
write return true after sending `aab`. -/
theorem write_complete_fails :
    ¬ ∀ (sock : Option ℕ) (b : Buffer) (counts : List ℕ), Accepts b counts →
      (write sock (some b) (counts.map NetResult.accepted)).status = .returned true →
      (write sock (some b) (counts.map NetResult.accepted)).accepted.flatten = b.bytes := by
  intro h
  have hsent := h (some 3) ⟨bytes "abc", by decide⟩ [1, 2] (by decide) (by decide)
  revert hsent
  decide

end Socket

end RsIo
