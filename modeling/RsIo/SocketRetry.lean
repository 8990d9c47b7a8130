import RsIo.Socket

/-!
# Retries of a Socket Write

A call of `send()` on a socket that does not block fails with `EAGAIN` when there is no room
for its bytes. `Socket::do_write` sleeps and tries again, but it adds the result of the call
to its counter first, and the result of a failed call is -1. The counter is unsigned: it goes
back by one, or wraps around if it was zero, and the loop then takes the block for written.

The outcomes considered here are those that leave the loop running: calls that failed with
`EAGAIN` and calls that accepted bytes, in any order.

## Main results

* `Socket.counted_iff`: the counter tells how many bytes were accepted exactly when no call
  fails with `EAGAIN`.
* `Socket.doWrite_again`: what a write does whose first call fails so.
-/

namespace RsIo

namespace Socket

/-- `written` at each test of the loop condition of `Socket::do_write`, from a test at which
it is `written` on. -/
def loopCounters (len : ℕ) : ℕ → List NetResult → List ℕ
  | written, [] => [written]
  | written, rc :: outcomes =>
      written ::
        if written < len then
          if rc.res = -1 ∧ rc.err ≠ eAgain then
            []
          else
            loopCounters len (addWritten written rc.res) outcomes
        else
          []

/-- `written` at each test of the loop condition, in a call of `Socket::do_write`. -/
def doWriteCounters (sock : Option ℕ) (src : Option Buffer) (outcomes : List NetResult) :
    List ℕ :=
  match src, sock with
  | some b, some _ => loopCounters b.bytes.length 0 outcomes
  | _, _ => []

/-- Every call fails with `EAGAIN`, or accepts no more than it was asked to send. The value
of `errno` after a call that succeeds is left open. -/
def Answers (len : ℕ) (outcomes : List NetResult) : Prop :=
  ∀ rc ∈ outcomes,
    (rc.res = -1 ∧ rc.err = eAgain) ∨ (0 ≤ rc.res ∧ rc.res ≤ socketIosize len)

instance (len : ℕ) (outcomes : List NetResult) : Decidable (Answers len outcomes) :=
  inferInstanceAs (Decidable (∀ rc ∈ outcomes, _))

/-- With `ofs` bytes accepted so far, no call that is made before there are `len` fails. -/
def NoneFails (len : ℕ) : ℕ → List NetResult → Prop
  | _, [] => True
  | ofs, rc :: outcomes =>
      ofs < len → rc.res ≠ -1 ∧ NoneFails len (ofs + rc.res.toNat) outcomes

/-- From `ofs` accepted bytes on, the counters are what they should be for a loop over the
outcomes that runs as `run`. -/
structure CountsFrom (ofs len : ℕ) (outcomes : List NetResult) (counters : List ℕ)
    (run : WriteRun) : Prop where
  /-- The counter is the number of bytes accepted so far. -/
  accepted : ∀ i w : ℕ, counters[i]? = some w →
    w = ofs + ((run.accepted.take i).map List.length).sum
  /-- The counter is the sum of the results so far, as an integer. -/
  no_wrap : ∀ i w : ℕ, counters[i]? = some w →
    (w : ℤ) = ofs + (outcomes.take i).foldr (fun rc total => rc.res + total) 0
  /-- True is returned only when `len` bytes were accepted. -/
  complete : run.status = .returned true →
    len ≤ ofs + (run.accepted.map List.length).sum

/-- The counter of a call of `Socket::do_write` is what it should be. -/
abbrev Counted (sock : Option ℕ) (b : Buffer) (dst : Option Bytes) (outcomes : List NetResult) :
    Prop :=
  CountsFrom 0 b.bytes.length outcomes (doWriteCounters sock (some b) outcomes)
    (doWrite sock (some b) dst outcomes)

theorem Answers.tail {len : ℕ} {rc : NetResult} {outcomes : List NetResult}
    (h : Answers len (rc :: outcomes)) : Answers len outcomes :=
  fun rc' hrc' => h rc' (List.mem_cons_of_mem rc hrc')

/-- A call that failed with `EAGAIN` takes one off the counter. -/
theorem addWritten_again {written : ℕ} (h : written < 2 ^ 64) :
    addWritten written (-1) = if written = 0 then 2 ^ 64 - 1 else written - 1 := by
  simp only [addWritten, sizeT]
  split <;> omega

/-! ### One iteration -/

/-- There is one test of the condition before each call that goes on, and one at the end. -/
theorem loopCounters_length (src : Bytes) (call : String) (written : ℕ)
    (outcomes : List NetResult) :
    (loopCounters src.length written outcomes).length =
      (doWriteLoop src call written outcomes).accepted.length + 1 := by
  induction outcomes generalizing written with
  | nil => rfl
  | cons rc outcomes ih =>
      rw [loopCounters, doWriteLoop]
      by_cases hlt : written < src.length
      · by_cases hfail : rc.res = -1 ∧ rc.err ≠ eAgain
        · simp only [if_pos hlt, if_pos hfail, List.length_singleton, List.length_nil]
        · simp only [if_pos hlt, if_neg hfail, List.length_cons, ih]
      · simp only [if_neg hlt, List.length_singleton, List.length_nil]

/-- A call that accepts `n` bytes: the counters go on from there. -/
theorem loop_accepted {b : Buffer} {ofs n : ℕ} (call : String) {rc : NetResult}
    (outcomes : List NetResult) (hres : rc.res = n) (hlt : ofs < b.bytes.length)
    (hn : n ≤ socketIosize b.bytes.length) :
    loopCounters b.bytes.length ofs (rc :: outcomes) =
        ofs :: loopCounters b.bytes.length (ofs + n) outcomes ∧
      ∃ sent : Bytes, sent.length = n ∧
        (doWriteLoop b.bytes call ofs (rc :: outcomes)).accepted =
          sent :: (doWriteLoop b.bytes call (ofs + n) outcomes).accepted ∧
        (doWriteLoop b.bytes call ofs (rc :: outcomes)).status =
          (doWriteLoop b.bytes call (ofs + n) outcomes).status := by
  have hlen := b.length_lt
  have hle := socketIosize_le b.bytes.length
  have hadd : addWritten ofs rc.res = ofs + n := by
    rw [hres]
    exact addWritten_natCast (by omega)
  have hok : ¬ (rc.res = -1 ∧ rc.err ≠ eAgain) := by omega
  rw [loopCounters, doWriteLoop, if_pos hlt, if_neg hok, if_pos hlt, if_neg hok, hadd]
  refine ⟨rfl, _, ?_, rfl, rfl⟩
  rw [hres, Int.toNat_natCast, List.length_take, List.length_take]
  omega

/-- The counters of a loop that accepts `n` bytes are right when those of the rest are. -/
theorem countsFrom_cons {ofs n len : ℕ} {rc : NetResult} {outcomes : List NetResult}
    {counters : List ℕ} {sent : Bytes} {run : WriteRun} (hres : rc.res = n)
    (hsent : sent.length = n) :
    CountsFrom ofs len (rc :: outcomes) (ofs :: counters) ⟨sent :: run.accepted, run.status⟩ ↔
      CountsFrom (ofs + n) len outcomes counters run := by
  have hshift : ∀ i, ofs + (((sent :: run.accepted).take (i + 1)).map List.length).sum =
      ofs + n + ((run.accepted.take i).map List.length).sum := fun i => by
    rw [List.take_succ_cons, List.map_cons, List.sum_cons, hsent, Nat.add_assoc]
  have hshiftInt : ∀ i,
      (ofs : ℤ) + ((rc :: outcomes).take (i + 1)).foldr (fun rc total => rc.res + total) 0 =
        (ofs + n : ℕ) + (outcomes.take i).foldr (fun rc total => rc.res + total) 0 := fun i => by
    rw [List.take_succ_cons, List.foldr_cons, hres, Int.natCast_add, Int.add_assoc]
  constructor
  · intro h
    refine ⟨fun i w hw => ?_, fun i w hw => ?_, fun hret => ?_⟩
    · rw [← hshift]
      exact h.accepted (i + 1) w hw
    · rw [← hshiftInt]
      exact h.no_wrap (i + 1) w hw
    · have := h.complete hret
      rwa [List.map_cons, List.sum_cons, hsent, ← Nat.add_assoc] at this
  · intro h
    refine ⟨fun i w hw => ?_, fun i w hw => ?_, fun hret => ?_⟩
    · cases i with
      | zero =>
          obtain rfl : ofs = w := Option.some.inj hw
          rfl
      | succ i =>
          rw [hshift]
          exact h.accepted i w hw
    · cases i with
      | zero =>
          obtain rfl : ofs = w := Option.some.inj hw
          rw [List.take_zero, List.foldr_nil, Int.add_zero]
      | succ i =>
          rw [hshiftInt]
          exact h.no_wrap i w hw
    · have := h.complete hret
      rwa [List.map_cons, List.sum_cons, hsent, ← Nat.add_assoc]

/-- A loop that makes no more calls has its counter right. -/
theorem countsFrom_stop {ofs len : ℕ} (outcomes : List NetResult) {status : WriteStatus}
    (h : status = .returned true → len ≤ ofs) :
    CountsFrom ofs len outcomes [ofs] ⟨[], status⟩ := by
  have honly : ∀ i w : ℕ, [ofs][i]? = some w → i = 0 ∧ ofs = w := fun i w hw => by
    cases i with
    | zero => exact ⟨rfl, Option.some.inj hw⟩
    | succ i => cases hw
  refine ⟨fun i w hw => ?_, fun i w hw => ?_, fun hret => ?_⟩
  · obtain ⟨rfl, rfl⟩ := honly i w hw
    rfl
  · obtain ⟨rfl, rfl⟩ := honly i w hw
    rw [List.take_zero, List.foldr_nil, Int.add_zero]
  · exact (h hret).trans (Nat.le_add_right ofs _)

/-- After a call that failed with `EAGAIN` the counter is not what was accepted. -/
theorem not_countsFrom_again {b : Buffer} {ofs : ℕ} (call : String) {rc : NetResult}
    (outcomes : List NetResult) (hres : rc.res = -1) (herr : rc.err = eAgain)
    (hlt : ofs < b.bytes.length) :
    ¬ CountsFrom ofs b.bytes.length (rc :: outcomes)
      (loopCounters b.bytes.length ofs (rc :: outcomes))
      (doWriteLoop b.bytes call ofs (rc :: outcomes)) := by
  have hlen := b.length_lt
  have hretry : ¬ (rc.res = -1 ∧ rc.err ≠ eAgain) := fun h => h.2 herr
  have hhead : ∀ w, (loopCounters b.bytes.length w outcomes)[0]? = some w := fun w => by
    cases outcomes <;> rfl
  intro h
  have hacc := h.accepted 1 (addWritten ofs (-1)) (by
    rw [loopCounters, if_pos hlt, if_neg hretry, hres, List.getElem?_cons_succ, hhead])
  rw [doWriteLoop, if_pos hlt, if_neg hretry] at hacc
  have hnothing : (-1 : ℤ).toNat = 0 := rfl
  rw [addWritten_again (by omega), hres] at hacc
  simp only [List.take_succ_cons, List.take_zero, List.map_cons, List.map_nil, List.sum_cons,
    List.sum_nil, hnothing, List.length_nil] at hacc
  split at hacc <;> omega

/-! ### The loop -/

/-- From `ofs` accepted bytes on, the counters are right exactly when no call fails. -/
theorem countsFrom_iff {b : Buffer} (ofs : ℕ) (call : String) {outcomes : List NetResult}
    (h : Answers b.bytes.length outcomes) :
    CountsFrom ofs b.bytes.length outcomes (loopCounters b.bytes.length ofs outcomes)
        (doWriteLoop b.bytes call ofs outcomes) ↔
      NoneFails b.bytes.length ofs outcomes := by
  induction outcomes generalizing ofs with
  | nil =>
      rw [loopCounters, doWriteLoop]
      refine iff_of_true (countsFrom_stop [] fun hret => ?_) trivial
      by_contra hlt
      rw [if_pos (Nat.lt_of_not_le hlt)] at hret
      cases hret
  | cons rc outcomes ih =>
      by_cases hlt : ofs < b.bytes.length
      · rcases h rc List.mem_cons_self with ⟨hres, herr⟩ | ⟨hpos, hle⟩
        · exact iff_of_false (not_countsFrom_again call outcomes hres herr hlt)
            fun hnone => (hnone hlt).1 hres
        · obtain ⟨n, hn⟩ := Int.eq_ofNat_of_zero_le hpos
          have hle' : n ≤ socketIosize b.bytes.length := by omega
          obtain ⟨hcounters, sent, hsent, haccepted, hstatus⟩ :=
            loop_accepted call outcomes hn hlt hle'
          have hrun : doWriteLoop b.bytes call ofs (rc :: outcomes) =
              ⟨sent :: (doWriteLoop b.bytes call (ofs + n) outcomes).accepted,
                (doWriteLoop b.bytes call (ofs + n) outcomes).status⟩ := by
            rw [← haccepted, ← hstatus]
          have htoNat : rc.res.toNat = n := by omega
          have hne : rc.res ≠ -1 := by omega
          rw [hcounters, hrun, countsFrom_cons hn hsent, ih (ofs + n) h.tail, NoneFails, htoNat]
          exact ⟨fun hrest _ => ⟨hne, hrest⟩, fun hrest => (hrest hlt).2⟩
      · rw [doWriteLoop_done call _ (Nat.le_of_not_lt hlt), loopCounters, if_neg hlt]
        exact iff_of_true (countsFrom_stop _ fun _ => Nat.le_of_not_lt hlt)
          fun hlt' => absurd hlt' hlt

/-! ### The whole write -/

/-- **The counter of a write.** Over calls that accept bytes or fail with `EAGAIN`, the
counter is the number of accepted bytes at every test, never wraps, and leads to true only
after `len` bytes, exactly when the socket is closed or no call that is made before `len`
bytes are accepted fails. -/
theorem counted_iff (sock : Option ℕ) (b : Buffer) (dst : Option Bytes)
    (outcomes : List NetResult) (h : Answers b.bytes.length outcomes) :
    Counted sock b dst outcomes ↔ sock = none ∨ NoneFails b.bytes.length 0 outcomes := by
  cases sock with
  | none =>
      refine iff_of_true ⟨fun i w hw => ?_, fun i w hw => ?_, fun hret => ?_⟩ (.inl rfl)
      · cases hw
      · cases hw
      · cases hret
  | some fd =>
      have hiff := countsFrom_iff 0 (if dst.isSome then "sendto()" else "send()") h
      rw [Counted, doWriteCounters, doWrite, hiff]
      exact ⟨.inr, fun hor => hor.resolve_left (Option.some_ne_none fd)⟩

/-- Two calls take `abc`, the first with an old `EAGAIN` in `errno`; the third is not made. -/
theorem counted_iff_abc :
    Counted (some 3) ⟨bytes "abc", by decide⟩ none [⟨1, eAgain⟩, ⟨2, eAgain⟩, ⟨-1, eAgain⟩] :=
  (counted_iff (some 3) ⟨bytes "abc", by decide⟩ none _ (by decide)).mpr
    (.inr fun _ => ⟨by decide, fun _ => ⟨by decide, fun hlt => absurd hlt (by decide)⟩⟩)

/-- A first call that fails with `EAGAIN` makes the write of `abc` return true at once. -/
theorem counted_fails :
    ¬ ∀ (sock : Option ℕ) (b : Buffer) (dst : Option Bytes) (outcomes : List NetResult),
      Answers b.bytes.length outcomes → Counted sock b dst outcomes := by
  intro h
  have hcount := (h (some 3) ⟨bytes "abc", by decide⟩ none [⟨-1, eAgain⟩] (by decide)).complete
    (by decide)
  revert hcount
  decide

/-- The counter wraps around when the first call fails with `EAGAIN`: the write returns true,
and nothing was accepted. -/
theorem doWrite_again (fd : ℕ) {b : Buffer} (dst : Option Bytes) (outcomes : List NetResult)
    (hlen : 0 < b.bytes.length) :
    doWrite (some fd) (some b) dst (⟨-1, eAgain⟩ :: outcomes) = ⟨[[]], .returned true⟩ := by
  have hlt := b.length_lt
  have hnothing : (-1 : ℤ).toNat = 0 := rfl
  rw [doWrite, doWriteLoop, if_pos hlen, if_neg fun h => h.2 rfl, addWritten_again (by omega),
    if_pos rfl, doWriteLoop_done _ _ (by omega)]
  simp only [hnothing, List.take_zero]

end Socket

end RsIo
