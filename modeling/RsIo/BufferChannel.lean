import RsIo.Bytes
import RsIo.StdString
import RsIo.Transition

/-!
# Byte Streams through a Buffer

`StreamChannel::append` reads into the end of a string, and `BufferChannel` keeps the bytes
that were written to it until they are read. A read does not move what is left of the buffer
to its front. It counts in an offset how much of it is gone, until that is half of it.

The bytes from the offset on are the queue that the buffer stands for: a write appends to it
and a read takes from its front.

## Main results

* `BufferChannel.read_pending`, `BufferChannel.write_pending`: reads and writes on the queue.
* `BufferChannel.traffic_conserved`: what was read and what is left is what was written, and
  less than half of the buffer is gone, after any sequence of calls.
-/

namespace RsIo

open StdString

/-- `StreamChannel::append`: how many bytes were read, the string, and the channel. The string
is made longer by the size of a block, and then cut to what was read. -/
def StreamChannel.append {σ : Type} (read : ℕ → Bytes × σ) (block : ℕ) (dst : Bytes) :
    ℕ × Bytes × σ :=
  let pos := dst.length
  let grown := resize 0 dst (pos + block)
  let r := read block
  let n := r.1.length
  (n, resize 0 (replace grown pos n r.1) (pos + n), r.2)

/-- What a stream appends is what it reads. -/
theorem StreamChannel.append_eq {σ : Type} (read : ℕ → Bytes × σ) (block : ℕ) (dst : Bytes) :
    StreamChannel.append read block dst =
      ((read block).1.length, dst ++ (read block).1, (read block).2) := by
  have hgrown : (resize 0 dst (dst.length + block)).take dst.length = dst := by
    simp [resize]
  have hlen : dst.length + (read block).1.length = (dst ++ (read block).1).length :=
    List.length_append.symm
  simp only [StreamChannel.append, replace, hgrown]
  rw [hlen, resize_append]

/-- A `BufferChannel`. -/
structure BufferChannel where
  buf : Bytes
  ofs : ℕ
  isOpen : Bool
  block : ℕ
  deriving DecidableEq, Repr

namespace BufferChannel

/-- The constructor. -/
def new : BufferChannel where
  buf := []
  ofs := 0
  isOpen := true
  block := 65536

/-- `BufferChannel::close`. -/
def close (s : BufferChannel) : BufferChannel :=
  { s with buf := [], ofs := 0, isOpen := false }

/-- `BufferChannel::is_closed`. -/
def isClosed (s : BufferChannel) : Bool :=
  !s.isOpen

/-- `BufferChannel::read`, with the bytes that it copies to the destination, if there is one. -/
def read (s : BufferChannel) (hasDst : Bool) (maxlen : ℕ) : Bytes × BufferChannel :=
  if !hasDst || maxlen == 0 then
    ([], s)
  else if !s.isOpen then
    ([], s)
  else
    let n := min (s.buf.length - s.ofs) maxlen
    let dst := substr s.buf s.ofs n
    let ofs := s.ofs + n
    if ofs = s.buf.length then
      (dst, { s with buf := [], ofs := 0 })
    else if 2 * ofs ≥ s.buf.length then
      (dst, { s with buf := erase s.buf 0 ofs, ofs := 0 })
    else
      (dst, { s with ofs := ofs })

/-- `BufferChannel::write`. -/
def write (s : BufferChannel) (src : Bytes) : Bool × BufferChannel :=
  if !s.isOpen then
    (false, s)
  else
    (true, { s with buf := s.buf ++ src })

/-- `BufferChannel::clear`. -/
def clear (s : BufferChannel) : BufferChannel :=
  { s with buf := [], ofs := 0 }

/-- `StreamChannel::append`. -/
def append (s : BufferChannel) (dst : Bytes) : ℕ × Bytes × BufferChannel :=
  StreamChannel.append (s.read true) s.block dst

/-- `StreamChannel::set_block_size`. -/
def setBlockSize (s : BufferChannel) (n : ℕ) : BufferChannel :=
  { s with block := n }

/-- What `BufferChannel::do_wait_for` returns: the condition it waits for, as it is when the
wait is over. A poll does not wait. -/
def doWaitFor (s : BufferChannel) : Bool :=
  !s.isOpen || s.ofs < s.buf.length

/-! ### The queue -/

/-- The bytes that were not read yet. -/
def pending (s : BufferChannel) : Bytes := s.buf.drop s.ofs

/-- Less than half of the buffer is gone, or nothing. -/
def Compact (s : BufferChannel) : Prop := s.ofs = 0 ∨ 2 * s.ofs < s.buf.length

/-- The offset is inside the buffer. -/
theorem Compact.le {s : BufferChannel} (h : s.Compact) : s.ofs ≤ s.buf.length := by
  unfold Compact at h
  omega

/-- A read on an open channel takes from the front of the queue. -/
theorem read_pending {s : BufferChannel} (hopen : s.isOpen = true) (n : ℕ) :
    (s.read true n).1 = s.pending.take n ∧ (s.read true n).2.pending = s.pending.drop n := by
  have hlen : s.pending.length = s.buf.length - s.ofs := List.length_drop
  have hdst : substr s.buf s.ofs (min (s.buf.length - s.ofs) n) = s.pending.take n := by
    rw [substr, ← hlen, ← pending, Nat.min_comm, ← List.take_take, List.take_length]
  have hdrop : s.buf.drop (s.ofs + min (s.buf.length - s.ofs) n) = s.pending.drop n := by
    rw [← List.drop_drop, ← pending, ← hlen]
    rcases Nat.le_total s.pending.length n with hle | hle
    · rw [Nat.min_eq_left hle, List.drop_length, List.drop_of_length_le hle]
    · rw [Nat.min_eq_right hle]
  simp only [read, Bool.not_true, Bool.false_or, beq_iff_eq, hopen, Bool.false_eq_true, if_false]
  split
  next hzero => simp [hzero]
  split
  next hend =>
    refine ⟨hdst, ?_⟩
    rw [← hdrop, hend, List.drop_length]
    rfl
  split
  next => exact ⟨hdst, by simpa [pending, erase] using hdrop⟩
  next => exact ⟨hdst, hdrop⟩

/-- A read gives up what is gone before that is half of the buffer. -/
theorem Compact.read {s : BufferChannel} (h : s.Compact) (hasDst : Bool) (n : ℕ) :
    (s.read hasDst n).2.Compact ∧ (s.read hasDst n).2.isOpen = s.isOpen := by
  rw [BufferChannel.read]
  split
  · exact ⟨h, rfl⟩
  split
  · exact ⟨h, rfl⟩
  dsimp only
  split
  · exact ⟨.inl rfl, rfl⟩
  split
  · exact ⟨.inl rfl, rfl⟩
  next hhalf => exact ⟨.inr (Nat.lt_of_not_ge hhalf), rfl⟩

/-- A read without a destination, or on a closed channel, does nothing. -/
theorem read_nothing {s : BufferChannel} {hasDst : Bool} (h : hasDst = false ∨ s.isOpen = false)
    (n : ℕ) : s.read hasDst n = ([], s) := by
  rw [read]
  rcases h with rfl | h
  · rfl
  · simp [h]

/-- Whatever the destination, what is read and what is left is the queue. -/
theorem read_append_pending (s : BufferChannel) (hasDst : Bool) (n : ℕ) :
    (s.read hasDst n).1 ++ (s.read hasDst n).2.pending = s.pending := by
  by_cases h : hasDst = false ∨ s.isOpen = false
  · rw [read_nothing h, List.nil_append]
  · rw [not_or, Bool.not_eq_false, Bool.not_eq_false] at h
    obtain ⟨rfl, hopen⟩ := h
    obtain ⟨hdst, hrest⟩ := read_pending hopen n
    rw [hdst, hrest, List.take_append_drop]

/-- A write to an open channel appends to the queue. -/
theorem write_pending {s : BufferChannel} (h : s.Compact) (hopen : s.isOpen = true) (src : Bytes) :
    (s.write src).1 = true ∧ (s.write src).2.pending = s.pending ++ src ∧
      (s.write src).2.Compact ∧ (s.write src).2.isOpen = true := by
  have hwrite : s.write src = (true, { s with buf := s.buf ++ src }) := by simp [write, hopen]
  rw [hwrite]
  refine ⟨rfl, List.drop_append_of_le_length h.le, ?_, hopen⟩
  rcases h with h | h
  · exact .inl h
  · refine .inr (h.trans_le ?_)
    simp

/-- A closed channel takes no bytes. -/
theorem write_closed {s : BufferChannel} (hopen : s.isOpen = false) (src : Bytes) :
    s.write src = (false, s) := by
  simp [write, hopen]

/-- A poll finds what is pending, or that the channel is closed. -/
theorem doWaitFor_iff (s : BufferChannel) :
    s.doWaitFor = true ↔ s.pending ≠ [] ∨ s.isOpen = false := by
  rw [doWaitFor, pending, Ne, List.drop_eq_nil_iff, Nat.not_le]
  cases s.isOpen <;> simp

/-! ### Runs -/

/-- A channel, with what was written to it and read from it since it was last cleared. -/
structure Traffic where
  channel : BufferChannel
  written : Bytes
  returned : Bytes
  deriving DecidableEq, Repr

/-- A call. -/
inductive Call
  | read (hasDst : Bool) (maxlen : ℕ)
  | write (src : Bytes)
  | append (dst : Bytes)
  | setBlockSize (n : ℕ)
  | clear
  | wait
  | close

namespace Traffic

/-- What one call does to the channel and to the accounts. -/
def after (s : Traffic) : Call → Traffic
  | .read hasDst maxlen =>
      let r := s.channel.read hasDst maxlen
      { s with channel := r.2, returned := s.returned ++ r.1 }
  | .write src =>
      let r := s.channel.write src
      { s with channel := r.2, written := if r.1 then s.written ++ src else s.written }
  | .append dst =>
      let r := s.channel.append dst
      { s with channel := r.2.2, returned := s.returned ++ r.2.1.drop dst.length }
  | .setBlockSize n => { s with channel := s.channel.setBlockSize n }
  | .clear => { channel := s.channel.clear, written := [], returned := [] }
  | .wait => s
  | .close => { s with channel := s.channel.close }

/-- Any calls, one after the other: each holds the mutex. -/
def calls : Machine Traffic Call where
  start := ⟨.new, [], []⟩
  next s e := some (s.after e)

/-- What was read and what is left is what was written. -/
structure Conserved (s : Traffic) : Prop where
  compact : s.channel.Compact
  queue : s.channel.isOpen = true → s.returned ++ s.channel.pending = s.written

/-- A read loses no byte. -/
theorem Conserved.read {s : Traffic} (h : s.Conserved) (hasDst : Bool) (maxlen : ℕ) :
    (s.after (.read hasDst maxlen)).Conserved := by
  obtain ⟨hcompact, hsame⟩ := h.compact.read hasDst maxlen
  refine ⟨hcompact, fun hopen => ?_⟩
  change s.returned ++ (s.channel.read hasDst maxlen).1 ++ _ = s.written
  rw [List.append_assoc, ← h.queue (hsame.symm.trans hopen)]
  exact congrArg (s.returned ++ ·) (read_append_pending s.channel hasDst maxlen)

/-- No call loses a byte, makes one up, or changes their order. -/
theorem Conserved.after {s : Traffic} (h : s.Conserved) (e : Call) : (s.after e).Conserved := by
  cases e with
  | read hasDst maxlen => exact h.read hasDst maxlen
  | write src =>
      cases hopen : s.channel.isOpen with
      | true =>
          obtain ⟨htrue, hpending, hcompact, -⟩ := write_pending h.compact hopen src
          refine ⟨hcompact, fun _ => ?_⟩
          simp only [Traffic.after, htrue, if_true, hpending, ← h.queue hopen, List.append_assoc]
      | false =>
          simp only [Traffic.after, write_closed hopen]
          exact h
  | append dst =>
      have hread : s.after (.append dst) = s.after (.read true s.channel.block) := by
        simp only [Traffic.after, append, StreamChannel.append_eq, List.drop_left]
      rw [hread]
      exact h.read true s.channel.block
  | setBlockSize n => exact ⟨h.compact, h.queue⟩
  | clear => exact ⟨.inl rfl, fun _ => rfl⟩
  | wait => exact h
  | close => exact ⟨.inl rfl, fun hopen => by simp [Traffic.after, close] at hopen⟩

end Traffic

/-- **Traffic.** After any calls the bytes that were read and those that are pending are, while
the channel is open, the bytes that were written since it was last cleared. The offset is zero
or less than half of the buffer, and a poll reports ready exactly if a byte is pending or the
channel is closed. -/
theorem traffic_conserved {s : Traffic} (h : Traffic.calls.Reachable s) :
    (s.channel.isOpen = true → s.returned ++ s.channel.buf.drop s.channel.ofs = s.written) ∧
      (s.channel.ofs = 0 ∨ 2 * s.channel.ofs < s.channel.buf.length) ∧
      (s.channel.doWaitFor = true ↔
        s.channel.buf.drop s.channel.ofs ≠ [] ∨ s.channel.isOpen = false) := by
  have hinv : s.Conserved := by
    refine Machine.Reach.invariant ⟨.inl rfl, fun _ => rfl⟩ (fun s e s' hs _ hnext => ?_) h
    rw [← Option.some.inj hnext]
    exact hs.after e
  exact ⟨hinv.queue, hinv.compact, doWaitFor_iff s.channel⟩

/-- Two reads, the second of which moves the rest to the front, and a write behind it. -/
theorem traffic_conserved_compact :
    let s : Traffic := ⟨⟨bytes "efgh", 0, true, 65536⟩, bytes "abcdefgh", bytes "abcd"⟩
    (s.channel.isOpen = true → s.returned ++ s.channel.buf.drop s.channel.ofs = s.written) ∧
      (s.channel.ofs = 0 ∨ 2 * s.channel.ofs < s.channel.buf.length) ∧
      (s.channel.doWaitFor = true ↔
        s.channel.buf.drop s.channel.ofs ≠ [] ∨ s.channel.isOpen = false) :=
  traffic_conserved (.of_replay
    [.write (bytes "abcdef"), .read true 2, .read true 2, .write (bytes "gh")] .start
    (by decide +kernel))

end BufferChannel

end RsIo
