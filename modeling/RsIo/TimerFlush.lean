import RsIo.Channel
import RsIo.TimeConversion
import RsIo.Transition

/-!
# Flushing a Timer

`TimerChannel::flush` discards the ticks that are pending. It finds how many there are by a
division by the interval, which the constructor takes as it is given, or as zero if that is
negative.

The times of this module are counts of nanoseconds in an `int64_t`, as those of the clock are,
and `none` is undefined behaviour: a division by zero, or a sum that does not fit. The product
of a number of ticks and the interval has the type `uint64_t` and wraps around. Where nothing
overflows, the functions are those of the timer with integers.

## Main results

* `TimerChannel.step64_of_fits`, `TimerChannel.flush_of_fits`: when the functions are those with
  integers.
* `TimerChannel.onGrid_of_reach`: the grid of the ticks, in every run without an overflow.
* `TimerChannel.flush_iff`: when a flush does what it should, for every timer and every time.
-/

namespace RsIo

namespace TimerChannel

open Time (IsInt64 int64 int64_of)

/-- The constructor, called at the time `now`. -/
def construct (t : ℤ) (count : ℕ) (now : ℤ) : Option TimerChannel :=
  let delta := max t 0
  (int64 (now + delta)).map fun nextTick =>
    { nextTick := nextTick, count := count, delta := delta, isOpen := true }

/-- `TimerChannel::step`. The product is unsigned. -/
def step64 (s : TimerChannel) (n : ℕ) : Option TimerChannel :=
  let n := min n s.count
  let count := s.count - n
  (int64 (s.nextTick + Int.bmod (n * s.delta) (2 ^ 64))).map fun nextTick =>
    { s with
      count := count,
      nextTick := nextTick,
      isOpen := if count = 0 then false else s.isOpen }

/-- `TimerChannel::do_wait_for`, for a caller that is alone on the channel, at the time
`now`. -/
def doWaitFor64 (s : TimerChannel) (t now : ℤ) : Option (Bool × TimerChannel) :=
  if !s.isOpen then
    some (true, s)
  else if s.nextTick ≤ now then
    (s.step64 1).map fun s' => (true, s')
  else if t ≤ 0 then
    some (false, s)
  else
    (int64 (s.nextTick - now)).bind fun remaining =>
      if t < remaining then some (!s.isOpen, s) else (s.step64 1).map fun s' => (true, s')

/-- Division of integers, which is undefined for a divisor of zero. -/
def divide (a b : ℤ) : Option ℤ := if b = 0 then none else some (a.tdiv b)

/-- `TimerChannel::flush` at the time `now`. -/
def flush (s : TimerChannel) (now : ℤ) : Option TimerChannel :=
  if !s.isOpen then
    some s
  else if now < s.nextTick then
    some s
  else
    (int64 (now - s.nextTick)).bind fun elapsed =>
      (divide elapsed s.delta).bind fun q => s.step64 (q.toNat + 1)

/-! ### Steps -/

/-- A step of `n` ticks takes as many as there are, and closes the timer if it takes them all. -/
theorem step_spec (s : TimerChannel) (n : ℕ) :
    (s.step n).delta = s.delta ∧
      (s.step n).nextTick = s.nextTick + (min n s.count : ℕ) * s.delta ∧
      (s.step n).count + min n s.count = s.count ∧
      ((s.step n).isClosed = true ↔ s.isClosed = true ∨ s.count ≤ n) := by
  refine ⟨rfl, rfl, Nat.sub_add_cancel (Nat.min_le_right n s.count), ?_⟩
  have hzero : s.count - min n s.count = 0 ↔ s.count ≤ n := by omega
  simp only [isClosed, step, hzero]
  by_cases hle : s.count ≤ n <;> simp [hle]

/-- A flush that does nothing. -/
theorem flush_early {s : TimerChannel} {now : ℤ} (h : s.isClosed = true ∨ now < s.nextTick) :
    s.flush now = some s := by
  rw [flush]
  split
  · rfl
  · rename_i hopen
    exact if_pos (h.resolve_left fun hclosed => hopen hclosed)

/-- A step whose product and sum fit. -/
def StepFits (s : TimerChannel) (n : ℕ) : Prop :=
  IsInt64 ((min n s.count : ℕ) * s.delta) ∧
    IsInt64 (s.nextTick + (min n s.count : ℕ) * s.delta)

/-- Whether the numbers of a step fit can be computed. -/
instance (s : TimerChannel) (n : ℕ) : Decidable (s.StepFits n) :=
  inferInstanceAs (Decidable (_ ∧ _))

/-- A step that fits is the one with integers. -/
theorem step64_of_fits {s : TimerChannel} {n : ℕ} (h : s.StepFits n) :
    s.step64 n = some (s.step n) := by
  have hprod : Int.bmod ((min n s.count : ℕ) * s.delta) (2 ^ 64) =
      (min n s.count : ℕ) * s.delta := by
    have hbounds := h.1
    rw [IsInt64] at hbounds
    exact Int.bmod_eq_of_le (by omega) (by omega)
  rw [step64, hprod, int64_of h.2]
  rfl

/-- What a step that is defined does. -/
theorem step64_spec {s s' : TimerChannel} {n : ℕ} (h : s.step64 n = some s') :
    s'.delta = s.delta ∧ IsInt64 s'.nextTick ∧ s'.count = s.count - min n s.count ∧
      (s'.isClosed = true ↔ s.isClosed = true ∨ s.count ≤ n) ∧
      s'.nextTick = s.nextTick + Int.bmod ((min n s.count : ℕ) * s.delta) (2 ^ 64) := by
  obtain ⟨nextTick, hnext, rfl⟩ := Option.map_eq_some_iff.mp h
  obtain ⟨hfits, hsum⟩ := Option.ite_none_right_eq_some.mp hnext
  obtain rfl := Option.some.inj hsum
  exact ⟨rfl, hfits, rfl, (s.step_spec n).2.2.2, rfl⟩

/-- A wait that is defined changes nothing, or takes a step. -/
theorem doWaitFor64_cases {s s' : TimerChannel} {t now : ℤ} {b : Bool}
    (h : s.doWaitFor64 t now = some (b, s')) : s' = s ∨ s.step64 1 = some s' := by
  have htick : (s.step64 1).map (fun s' => (true, s')) = some (b, s') →
      s.step64 1 = some s' := by
    intro hmap
    obtain ⟨s'', hstep, heq⟩ := Option.map_eq_some_iff.mp hmap
    rw [hstep, (Prod.mk.inj heq).2]
  rw [doWaitFor64] at h
  split at h
  next => exact .inl (Prod.mk.inj (Option.some.inj h)).2.symm
  split at h
  next => exact .inr (htick h)
  split at h
  next => exact .inl (Prod.mk.inj (Option.some.inj h)).2.symm
  next =>
    obtain ⟨remaining, -, h⟩ := Option.bind_eq_some_iff.mp h
    split at h
    next => exact .inl (Prod.mk.inj (Option.some.inj h)).2.symm
    next => exact .inr (htick h)

/-- The time that is left fits, and so does the step if the wait comes to it. -/
def WaitFits (s : TimerChannel) (t now : ℤ) : Prop :=
  s.isClosed = false →
    (s.nextTick ≤ now → s.StepFits 1) ∧
      (now < s.nextTick → 0 < t → IsInt64 (s.nextTick - now) ∧
        (s.nextTick - now ≤ t → s.StepFits 1))

/-- A wait that fits is the one with integers. -/
theorem doWaitFor64_of_fits {s : TimerChannel} {t now : ℤ} (h : s.WaitFits t now) :
    s.doWaitFor64 t now = some (s.doWaitFor t now) := by
  rw [doWaitFor64, doWaitFor]
  cases hopen : s.isOpen with
  | false => simp
  | true =>
      obtain ⟨hdue, hlater⟩ := h (by simp [isClosed, hopen])
      by_cases hnow : s.nextTick ≤ now
      · simp [hnow, step64_of_fits (hdue hnow)]
      by_cases ht : t ≤ 0
      · simp [hnow, ht]
      obtain ⟨hfits, hstep⟩ := hlater (by omega) (by omega)
      by_cases hlt : t < s.nextTick - now
      · simp [hnow, ht, hlt, int64_of hfits]
      · simp [hnow, ht, hlt, int64_of hfits, step64_of_fits (hstep (by omega))]

/-- The number of ticks that a flush takes, if there are as many. -/
def pending (s : TimerChannel) (now : ℤ) : ℕ := ((now - s.nextTick).tdiv s.delta).toNat + 1

/-- A flush of a timer with pending ticks divides by the interval. -/
theorem flush_pending {s : TimerChannel} {now : ℤ} (hopen : s.isClosed = false)
    (hnow : s.nextTick ≤ now) :
    s.flush now =
      if IsInt64 (now - s.nextTick) ∧ s.delta ≠ 0 then s.step64 (s.pending now) else none := by
  have hopen' : ¬ (!s.isOpen) = true := Bool.eq_false_iff.mp hopen
  rw [flush, if_neg hopen', if_neg (Int.not_lt.mpr hnow), int64]
  by_cases hfits : IsInt64 (now - s.nextTick)
  · by_cases hzero : s.delta = 0
    · rw [if_pos hfits, if_neg fun h => h.2 hzero]
      simp [divide, hzero]
    · rw [if_pos hfits, if_pos ⟨hfits, hzero⟩]
      simp [divide, hzero, pending]
  · rw [if_neg hfits, if_neg fun h => hfits h.1]
    rfl

/-- The ticks that are pending end after the time of the flush. -/
theorem lt_pending {s : TimerChannel} {now : ℤ} (hnow : s.nextTick ≤ now) (hdelta : 0 < s.delta) :
    now < s.nextTick + s.pending now * s.delta ∧
      ∀ k : ℕ, now < s.nextTick + k * s.delta → s.pending now ≤ k := by
  have hquot : (now - s.nextTick).tdiv s.delta = (now - s.nextTick) / s.delta :=
    Int.tdiv_eq_ediv_of_nonneg (by omega)
  have hnonneg : 0 ≤ (now - s.nextTick) / s.delta := Int.ediv_nonneg (by omega) hdelta.le
  have hpending : (s.pending now : ℤ) = (now - s.nextTick) / s.delta + 1 := by
    rw [pending, hquot]
    omega
  constructor
  · have hlt : now - s.nextTick < ((now - s.nextTick) / s.delta + 1) * s.delta :=
      Int.lt_ediv_add_one_mul_self _ hdelta
    rw [hpending]
    omega
  · intro k hk
    have hlt : (now - s.nextTick) / s.delta < k :=
      Int.ediv_lt_of_lt_mul hdelta (by omega)
    omega

/-- The time that has passed fits, and so does the time of a tick after it, or of the one that
would come after the last. -/
def FlushFits (s : TimerChannel) (now : ℤ) : Prop :=
  IsInt64 (now - s.nextTick) ∧ ∃ k : ℕ, (now < s.nextTick + k * s.delta ∨ k = s.count) ∧
    IsInt64 (k * s.delta) ∧ IsInt64 (s.nextTick + k * s.delta)

/-- If one of these times fits, the flush does. -/
theorem FlushFits.stepFits {s : TimerChannel} {now : ℤ} (h : s.FlushFits now)
    (hnow : s.nextTick ≤ now) (hdelta : 0 < s.delta) (hnext : IsInt64 s.nextTick) :
    s.StepFits (s.pending now) := by
  obtain ⟨-, k, hk, hprod, hsum⟩ := h
  have hle : min (s.pending now) s.count ≤ k := by
    rcases hk with hk | rfl
    · exact (Nat.min_le_left ..).trans ((lt_pending hnow hdelta).2 k hk)
    · exact Nat.min_le_right ..
  have hpos : 0 ≤ ((min (s.pending now) s.count : ℕ) : ℤ) * s.delta :=
    Int.mul_nonneg (by omega) hdelta.le
  have hmul : ((min (s.pending now) s.count : ℕ) : ℤ) * s.delta ≤ k * s.delta :=
    Int.mul_le_mul_of_nonneg_right (by omega) hdelta.le
  rw [IsInt64] at hprod hsum hnext
  constructor <;> rw [IsInt64] <;> omega

/-- With a positive interval a flush that fits is a step with integers, which leaves no tick
pending or closes the timer. -/
theorem flush_of_fits {s : TimerChannel} {now : ℤ} (hopen : s.isClosed = false)
    (hnow : s.nextTick ≤ now) (hdelta : 0 < s.delta) (hnext : IsInt64 s.nextTick)
    (h : s.FlushFits now) :
    s.flush now = some (s.step (s.pending now)) ∧
      ((s.step (s.pending now)).isClosed = true ∨ now < (s.step (s.pending now)).nextTick) := by
  constructor
  · rw [flush_pending hopen hnow, if_pos ⟨h.1, by omega⟩,
      step64_of_fits (h.stepFits hnow hdelta hnext)]
  · obtain ⟨-, hsum, -, hclosed⟩ := s.step_spec (s.pending now)
    by_cases hall : s.count ≤ s.pending now
    · exact .inl (hclosed.mpr (.inr hall))
    · have hlt := (lt_pending hnow hdelta).1
      rw [hsum, min_eq_left (by omega)]
      exact .inr hlt

/-- A flush that takes ticks without going around fits. -/
theorem flushFits_of_flush {s s' : TimerChannel} {now : ℤ} (hopen : s.isClosed = false)
    (hnow : s.nextTick ≤ now) (hdelta : 0 ≤ s.delta) (hflush : s.flush now = some s') {skip : ℕ}
    (hcount : s'.count + skip = s.count) (hsum : s'.nextTick = s.nextTick + skip * s.delta) :
    0 < s.delta ∧ s.FlushFits now := by
  rw [flush_pending hopen hnow] at hflush
  obtain ⟨⟨helapsed, hne⟩, hstep⟩ := Option.ite_none_right_eq_some.mp hflush
  have hpos : 0 < s.delta := by omega
  obtain ⟨-, hfits, hleft, -, hnext⟩ := step64_spec hstep
  obtain rfl : skip = min (s.pending now) s.count := by omega
  refine ⟨hpos, helapsed, min (s.pending now) s.count, ?_, ?_, hsum ▸ hfits⟩
  · rcases Nat.le_total (s.pending now) s.count with hle | hle
    · rw [min_eq_left hle]
      exact .inl (lt_pending hnow hpos).1
    · exact .inr (min_eq_right hle)
  · have hbmod : Int.bmod ((min (s.pending now) s.count : ℕ) * s.delta) (2 ^ 64) =
        (min (s.pending now) s.count : ℕ) * s.delta := by omega
    rw [← hbmod, IsInt64]
    have hlow := Int.le_bmod (x := (min (s.pending now) s.count : ℕ) * s.delta)
      (m := 2 ^ 64) (by decide)
    have hhigh := Int.bmod_lt (x := (min (s.pending now) s.count : ℕ) * s.delta)
      (m := 2 ^ 64) (by decide)
    omega

/-! ### Every timer -/

/-- What is done to a timer, with what the clock shows. -/
inductive Use
  | wait (t now : ℤ)
  | flush (now : ℤ)
  | close

/-- The use does not overflow, and does not divide by zero. -/
def Fits (s : TimerChannel) : Use → Prop
  | .wait t now => s.WaitFits t now
  | .flush now => s.isClosed = true ∨ now < s.nextTick ∨ (0 < s.delta ∧ s.FlushFits now)
  | .close => True

/-- A flush that fits skips a number of ticks, and never opens the timer. -/
theorem flush_spec {s : TimerChannel} {now : ℤ} (hnext : IsInt64 s.nextTick)
    (h : s.Fits (.flush now)) :
    ∃ s', s.flush now = some s' ∧ s'.delta = s.delta ∧
      (s'.isClosed = false → s.isClosed = false) ∧ IsInt64 s'.nextTick ∧
      ∃ skip : ℕ, s'.count + skip = s.count ∧ s'.nextTick = s.nextTick + skip * s.delta := by
  by_cases hearly : s.isClosed = true ∨ now < s.nextTick
  · exact ⟨s, flush_early hearly, rfl, id, hnext, 0, rfl, by omega⟩
  · rw [not_or, Bool.not_eq_true, Int.not_lt] at hearly
    obtain ⟨hdelta, hfits⟩ := (h.resolve_left (by simp [hearly.1])).resolve_left (by omega)
    obtain ⟨hflush, -⟩ := flush_of_fits hearly.1 hearly.2 hdelta hnext hfits
    obtain ⟨hsame, hsum, hcount, -⟩ := s.step_spec (s.pending now)
    exact ⟨_, hflush, hsame, fun _ => hearly.1,
      hsum ▸ (hfits.stepFits hearly.2 hdelta hnext).2, _, hcount, hsum⟩

/-- What a use makes of a timer. -/
def use (s : TimerChannel) : Use → Option TimerChannel
  | .wait t now => (s.doWaitFor64 t now).map Prod.snd
  | .flush now => s.flush now
  | .close => some s.close

/-- A timer from its construction at the time `start` on, or `none` once something undefined has
happened. -/
def uses (t : ℤ) (count : ℕ) (start : ℤ) : Machine (Option TimerChannel) Use where
  start := construct t count start
  next o e := some (o.bind fun s => s.use e)

/-- The interval is the one that was given, or zero, and the next tick is on the grid. -/
def OnGrid (t start : ℤ) (s : TimerChannel) : Prop :=
  s.delta = max t 0 ∧ ∃ k : ℤ, s.nextTick = start + k * max t 0

/-- The interval is the one that was given, or zero, and the next tick fits. -/
def Stored (t : ℤ) (s : TimerChannel) : Prop := s.delta = max t 0 ∧ IsInt64 s.nextTick

section Grid

variable {t start : ℤ} {s s' : TimerChannel}

/-- The constructor stores a time that fits. -/
theorem stored_of_construct {count : ℕ} (h : construct t count start = some s) : Stored t s := by
  obtain ⟨nextTick, hnext, rfl⟩ := Option.map_eq_some_iff.mp h
  obtain ⟨hfits, hsum⟩ := Option.ite_none_right_eq_some.mp hnext
  exact ⟨rfl, Option.some.inj hsum ▸ hfits⟩

/-- A step of the code keeps what the ticks are stored as. -/
theorem Stored.step64 (h : Stored t s) {n : ℕ} (hstep : s.step64 n = some s') : Stored t s' := by
  obtain ⟨hdelta, hfits, -⟩ := step64_spec hstep
  exact ⟨hdelta.trans h.1, hfits⟩

/-- Every use that is defined stores a time that fits. -/
theorem Stored.use (h : Stored t s) {e : Use} (huse : s.use e = some s') : Stored t s' := by
  cases e with
  | wait d now =>
      obtain ⟨⟨b, s''⟩, hwait, rfl⟩ := Option.map_eq_some_iff.mp huse
      rcases doWaitFor64_cases hwait with rfl | hstep
      · exact h
      · exact h.step64 hstep
  | flush now =>
      change s.flush now = some s' at huse
      by_cases hearly : s.isClosed = true ∨ now < s.nextTick
      · rw [flush_early hearly] at huse
        exact Option.some.inj huse ▸ h
      · rw [not_or, Bool.not_eq_true, Int.not_lt] at hearly
        rw [flush_pending hearly.1 hearly.2] at huse
        exact h.step64 (Option.ite_none_right_eq_some.mp huse).2
  | close =>
      obtain rfl := Option.some.inj huse
      exact h

/-- The times that every timer stores fit. -/
theorem stored_of_reachable {count : ℕ} (h : (uses t count start).Reachable (some s)) :
    Stored t s := by
  refine Machine.Reach.invariant (I := fun o => ∀ s, o = some s → Stored t s)
    (fun s hs => stored_of_construct hs) ?_ h s rfl
  rintro o e o' ho - hnext s' rfl
  obtain ⟨s, rfl, huse⟩ := Option.bind_eq_some_iff.mp (Option.some.inj hnext)
  exact (ho s rfl).use huse

/-- A step leaves the ticks on the grid. -/
theorem OnGrid.step (h : OnGrid t start s) (n : ℕ) : OnGrid t start (s.step n) := by
  obtain ⟨hdelta, k, hk⟩ := h
  obtain ⟨hsame, hnext, -, -⟩ := s.step_spec n
  refine ⟨hsame.trans hdelta, k + (min n s.count : ℕ), ?_⟩
  rw [hnext, hk, hdelta, Int.add_mul, Int.add_assoc]

/-- A use that fits is defined and keeps to the grid. -/
theorem OnGrid.use (h : OnGrid t start s) (hstored : IsInt64 s.nextTick) {e : Use}
    (hfits : s.Fits e) : ∃ s', s.use e = some s' ∧ OnGrid t start s' := by
  cases e with
  | wait d now =>
      refine ⟨(s.doWaitFor d now).2, by rw [TimerChannel.use, doWaitFor64_of_fits hfits]; rfl, ?_⟩
      cases hclosed : s.isClosed with
      | true =>
          rw [doWaitFor_closed hclosed]
          exact h
      | false =>
          rcases doWaitFor_open hclosed d now with hwait | hwait <;> rw [hwait]
          · exact h
          · exact h.step 1
  | flush now =>
      obtain ⟨s', hflush, hsame, -, -, skip, -, hsum⟩ := flush_spec hstored hfits
      obtain ⟨hdelta, k, hk⟩ := h
      refine ⟨s', hflush, hsame.trans hdelta, k + skip, ?_⟩
      rw [hsum, hk, hdelta, Int.add_mul, Int.add_assoc]
  | close => exact ⟨s.close, rfl, h⟩

/-- In every run without an overflow or a division by zero, the timer is on its grid. -/
theorem onGrid_of_reach {count : ℕ} {o : Option TimerChannel} (hfits : IsInt64 (start + max t 0))
    (h : (uses t count start).Reach (fun o e => ∀ s, o = some s → s.Fits e) o) :
    ∃ s, o = some s ∧ OnGrid t start s := by
  have hnew : construct t count start = some (new t count start) := by
    rw [construct, int64_of hfits]
    rfl
  suffices hboth : ∃ s, o = some s ∧ OnGrid t start s ∧ Stored t s by
    obtain ⟨s, hs, hgrid, -⟩ := hboth
    exact ⟨s, hs, hgrid⟩
  refine Machine.Reach.invariant (I := fun o => ∃ s, o = some s ∧ OnGrid t start s ∧ Stored t s)
    ⟨_, hnew, ⟨rfl, 1, by rw [Int.one_mul]; rfl⟩, stored_of_construct hnew⟩ ?_ h
  rintro _ e o' ⟨s, rfl, hgrid, hstored⟩ hok hnext
  obtain rfl := Option.some.inj hnext
  obtain ⟨s', huse, hgrid'⟩ := hgrid.use hstored.2 (hok s rfl)
  exact ⟨s', huse, hgrid', hstored.use huse⟩

/-- **Flushing.** A flush does not divide by zero or overflow, and leaves the timer closed or with
its next tick after the time of the flush, on the grid, and the count less the ticks skipped,
exactly if nothing has overflowed before, and the interval is positive and what the flush
computes fits, or there is nothing to flush. -/
theorem flush_iff {count : ℕ} {o : Option TimerChannel} (h : (uses t count start).Reachable o)
    (now : ℤ) :
    (∃ s s', o = some s ∧ s.flush now = some s' ∧ (s'.isClosed = true ∨ now < s'.nextTick) ∧
      (∃ k : ℤ, s'.nextTick = start + k * max t 0) ∧
      ∃ skip : ℕ, s'.count + skip = s.count ∧ s'.nextTick = s.nextTick + skip * max t 0) ↔
    ∃ s, o = some s ∧ OnGrid t start s ∧
      (s.isClosed = true ∨ now < s.nextTick ∨ (0 < t ∧ s.FlushFits now)) := by
  constructor
  · rintro ⟨s, s', rfl, hflush, hdone, ⟨k, hk⟩, skip, hcount, hsum⟩
    obtain ⟨hdelta, -⟩ := stored_of_reachable h
    refine ⟨s, rfl, ⟨hdelta, k - skip, by rw [Int.sub_mul]; omega⟩, ?_⟩
    by_cases hearly : s.isClosed = true ∨ now < s.nextTick
    · exact hearly.imp_right Or.inl
    · rw [not_or, Bool.not_eq_true, Int.not_lt] at hearly
      rw [← hdelta] at hsum
      obtain ⟨hpos, hfits⟩ :=
        flushFits_of_flush hearly.1 hearly.2 (by omega) hflush hcount hsum
      exact .inr (.inr ⟨by omega, hfits⟩)
  · rintro ⟨s, rfl, hgrid, hok⟩
    by_cases hearly : s.isClosed = true ∨ now < s.nextTick
    · exact ⟨s, s, rfl, flush_early hearly, hearly, hgrid.2, 0, rfl, by omega⟩
    · rw [not_or, Bool.not_eq_true, Int.not_lt] at hearly
      obtain ⟨ht, hfits⟩ := (hok.resolve_left (by simp [hearly.1])).resolve_left (by omega)
      obtain ⟨hflush, hdone⟩ := flush_of_fits hearly.1 hearly.2 (by rw [hgrid.1]; omega)
        (stored_of_reachable h).2 hfits
      obtain ⟨-, hsum, hcount, -⟩ := s.step_spec (s.pending now)
      exact ⟨s, _, rfl, hflush, hdone, (hgrid.step _).2, _, hcount, by rw [hsum, hgrid.1]⟩

end Grid

/-- Three ticks of five are pending after 35 units. -/
theorem flush_iff_pending :
    ∃ s s', some (new 10 5 0) = some s ∧ s.flush 35 = some s' ∧
      (s'.isClosed = true ∨ 35 < s'.nextTick) ∧ (∃ k : ℤ, s'.nextTick = 0 + k * max 10 0) ∧
      ∃ skip : ℕ, s'.count + skip = s.count ∧ s'.nextTick = s.nextTick + skip * max 10 0 :=
  have hreach : (uses 10 5 0).Reachable (some (new 10 5 0)) := .start
  (flush_iff hreach 35).mpr
    ⟨new 10 5 0, rfl, ⟨rfl, 1, rfl⟩, .inr (.inr ⟨by decide, by decide, 4, by decide⟩)⟩

/-- A timer without an interval has a tick pending at once, and a flush divides by zero. -/
theorem flush_fails :
    ¬ ∀ (t : ℤ) (count : ℕ) (start : ℤ) (s : TimerChannel),
      (uses t count start).Reachable (some s) → ∀ now, s.flush now ≠ none := by
  intro h
  exact h 0 5 0 (new 0 5 0) .start 0 (by decide +kernel)

end TimerChannel

end RsIo
