import Mathlib.Algebra.Order.Group.Unbundled.Int
import Mathlib.Data.Int.GCD
import Mathlib.Tactic.Ring

/-!
# Time Conversions

`time.hpp` converts durations and time points to the structures of the system and back. A
`duration` is a count of ticks, and here a tick is a whole number of nanoseconds. Counts are
`int64_t`, and an operation on them whose result does not fit is undefined.

`duration_cast` rounds towards zero, and so do the operators `/` and `%` that the conversions
split a count with. The remainder of a time before the epoch is therefore negative or zero,
which is not what the structures of the system have there.

## Main results

* `durationCast_eq`: a cast is a truncated division, where the count in nanoseconds fits.
* `isNormal_iff`: which time points are converted to structures that are normalised.
* `roundTrip_iff`: which durations are read back from a `timespec`.
-/

namespace RsIo

namespace Time

/-! ### Counts -/

/-- What an `int64_t` holds. -/
def IsInt64 (n : ℤ) : Prop := -2 ^ 63 ≤ n ∧ n < 2 ^ 63

/-- Whether a number has the type can be computed. -/
instance (n : ℤ) : Decidable (IsInt64 n) := inferInstanceAs (Decidable (_ ∧ _))

/-- The result of an operation on `int64_t`, undefined if it overflows. -/
def int64 (n : ℤ) : Option ℤ := if IsInt64 n then some n else none

/-- A number that fits is its own value. -/
theorem int64_of {n : ℤ} (h : IsInt64 n) : int64 n = some n := if_pos h

/-- A result is the number if this fits. -/
theorem int64_eq_some {m n : ℤ} (h : IsInt64 n) : int64 m = some n ↔ m = n := by
  rw [int64, Option.ite_none_right_eq_some, Option.some.injEq]
  exact ⟨fun hm => hm.2, fun hm => ⟨hm ▸ h, hm⟩⟩

/-- A factor of a number that fits does too. -/
theorem IsInt64.of_mul {a : ℤ} {g : ℕ} (hg : 0 < g) (h : IsInt64 (a * g)) : IsInt64 a := by
  rw [IsInt64] at h ⊢
  rcases Int.le_total 0 a with ha | ha
  · have hle : a * 1 ≤ a * g := Int.mul_le_mul_of_nonneg_left (by omega) ha
    omega
  · have hle : a * g ≤ a * 1 := Int.mul_le_mul_of_nonpos_left ha (by omega)
    omega

/-- The period of a duration type, in nanoseconds. -/
structure Period where
  ns : ℕ
  pos : 0 < ns
  deriving DecidableEq, Repr

/-- The period of `nanoseconds`. -/
def nano : Period := ⟨1, by decide⟩

/-- The period of `microseconds`. -/
def micro : Period := ⟨1000, by decide⟩

/-- The period of `seconds`. -/
def second : Period := ⟨1000000000, by decide⟩

/-- `duration_cast` from a duration with the period `p` to one with the period `q`: a
multiplication and a division, by the ratio of the periods in its lowest terms. -/
def durationCast (p q : Period) (count : ℤ) : Option ℤ :=
  let num := p.ns / Nat.gcd p.ns q.ns
  let den := q.ns / Nat.gcd p.ns q.ns
  (int64 (count * num)).map (·.tdiv den)

/-- A cast of a count that fits in nanoseconds. -/
theorem durationCast_eq {p q : Period} {count : ℤ} (h : IsInt64 (count * p.ns)) :
    durationCast p q count = some ((count * p.ns).tdiv q.ns) := by
  have hgcd : 0 < Nat.gcd p.ns q.ns := Nat.gcd_pos_of_pos_left _ p.pos
  have hp := Nat.div_mul_cancel (Nat.gcd_dvd_left p.ns q.ns)
  have hq := Nat.div_mul_cancel (Nat.gcd_dvd_right p.ns q.ns)
  rw [durationCast]
  generalize p.ns / Nat.gcd p.ns q.ns = num at hp ⊢
  generalize q.ns / Nat.gcd p.ns q.ns = den at hq ⊢
  generalize Nat.gcd p.ns q.ns = g at hgcd hp hq
  have hcount : count * p.ns = count * num * g := by
    rw [← hp, Int.natCast_mul, Int.mul_assoc]
  have hfits : IsInt64 (count * num) := .of_mul hgcd (hcount ▸ h)
  rw [int64_of hfits, Option.map_some, hcount, ← hq, Int.natCast_mul,
    Int.mul_tdiv_mul_of_pos_left _ _ (Int.natCast_pos.mpr hgcd)]

/-! ### Conversions -/

/-- A `timespec`. -/
structure Timespec where
  sec : ℤ
  nsec : ℤ
  deriving DecidableEq, Repr

/-- A `timeval`. -/
structure Timeval where
  sec : ℤ
  usec : ℤ
  deriving DecidableEq, Repr

/-- `duration_to_timespec`. -/
def durationToTimespec (p : Period) (d : ℤ) : Option Timespec :=
  (durationCast p nano d).map fun ns => ⟨ns.tdiv 1000000000, ns.tmod 1000000000⟩

/-- `Detail::make_timeval`. -/
def makeTimeval (us : ℤ) : Timeval := ⟨us.tdiv 1000000, us.tmod 1000000⟩

/-- `duration_to_timeval`. -/
def durationToTimeval (p : Period) (d : ℤ) : Option Timeval :=
  (durationCast p micro d).map makeTimeval

/-- `timespec_to_duration`. -/
def timespecToDuration (p : Period) (ts : Timespec) : Option ℤ := do
  let sec ← durationCast second p ts.sec
  let nsec ← durationCast nano p ts.nsec
  int64 (sec + nsec)

/-- `timepoint_to_timespec`, for a system clock with the period `p`. -/
def timepointToTimespec (p : Period) (tp : ℤ) : Option Timespec := do
  durationToTimespec p (← int64 (tp - 0))

/-- `timepoint_to_timeval`. -/
def timepointToTimeval (p : Period) (tp : ℤ) : Option Timeval := do
  durationToTimeval p (← int64 (tp - 0))

/-- What `Path::set_file_times` passes to `utimensat()`. -/
def setFileTimes (p : Period) (atime mtime : ℤ) : Option (Timespec × Timespec) := do
  return (← timepointToTimespec p atime, ← timepointToTimespec p mtime)

/-- `Path::set_access_time` of a file that has the modification time `mtime`. -/
def setAccessTime (p : Period) (t mtime : ℤ) : Option (Timespec × Timespec) :=
  setFileTimes p t mtime

/-- `Path::set_modify_time` of a file that has the access time `atime`. -/
def setModifyTime (p : Period) (t atime : ℤ) : Option (Timespec × Timespec) :=
  setFileTimes p atime t

/-! ### Truncated division -/

/-- A remainder has the sign of what is divided. -/
theorem tmod_nonneg_iff {a b : ℤ} : 0 ≤ a.tmod b ↔ 0 ≤ a ∨ b ∣ a := by
  constructor
  · intro h
    by_cases ha : 0 ≤ a
    · exact .inl ha
    · have hneg : 0 ≤ (-a).tmod b := Int.tmod_nonneg b (by omega)
      rw [Int.neg_tmod] at hneg
      exact .inr (Int.dvd_iff_tmod_eq_zero.mpr (by omega))
  · rintro (ha | hdvd)
    · exact Int.tmod_nonneg b ha
    · exact (Int.dvd_iff_tmod_eq_zero.mp hdvd).ge

/-- What is left over by a truncated division, on the side of zero. -/
theorem tmod_bounds (a : ℤ) {b : ℤ} (hb : 0 < b) :
    (0 ≤ a → 0 ≤ a.tmod b) ∧ (a ≤ 0 → a.tmod b ≤ 0) ∧ -b < a.tmod b ∧ a.tmod b < b := by
  have hneg := Int.tmod_lt_of_pos (-a) hb
  rw [Int.neg_tmod] at hneg
  refine ⟨Int.tmod_nonneg b, fun ha => ?_, by omega, Int.tmod_lt_of_pos a hb⟩
  have hpos : 0 ≤ (-a).tmod b := Int.tmod_nonneg b (by omega)
  rw [Int.neg_tmod] at hpos
  omega

/-! ### Structures that are normalised -/

section Normal

variable {p : Period} {d tp : ℤ}

/-- A duration that fits is split towards zero. -/
theorem durationToTimespec_eq (h : IsInt64 (d * p.ns)) :
    durationToTimespec p d =
      some ⟨(d * p.ns).tdiv 1000000000, (d * p.ns).tmod 1000000000⟩ := by
  rw [durationToTimespec, durationCast_eq h]
  change some (Timespec.mk (((d * p.ns).tdiv 1).tdiv _) (((d * p.ns).tdiv 1).tmod _)) = _
  rw [Int.tdiv_one]

/-- A time that fits is split towards zero. -/
theorem timepointToTimespec_eq (h : IsInt64 (tp * p.ns)) :
    timepointToTimespec p tp =
      some ⟨(tp * p.ns).tdiv 1000000000, (tp * p.ns).tmod 1000000000⟩ := by
  rw [timepointToTimespec, Int.sub_zero, int64_of (.of_mul p.pos h)]
  exact durationToTimespec_eq h

/-- A time that fits is split into microseconds. -/
theorem timepointToTimeval_eq (h : IsInt64 (tp * p.ns)) :
    timepointToTimeval p tp = some (makeTimeval ((tp * p.ns).tdiv 1000)) := by
  rw [timepointToTimeval, Int.sub_zero, int64_of (.of_mul p.pos h)]
  change durationToTimeval p tp = _
  rw [durationToTimeval, durationCast_eq h]
  rfl

/-- The structure is normalised, as `utimensat()` needs it. -/
def Timespec.IsNormal (ts : Timespec) : Prop := 0 ≤ ts.nsec ∧ ts.nsec < 1000000000

/-- The structure is normalised. -/
def Timeval.IsNormal (tv : Timeval) : Prop := 0 ≤ tv.usec ∧ tv.usec < 1000000

/-- The time is converted to a `timespec` that is normalised and stands for it. -/
def TimespecDenotes (p : Period) (tp : ℤ) : Prop :=
  ∃ ts, timepointToTimespec p tp = some ts ∧ ts.IsNormal ∧
    ts.sec * 1000000000 + ts.nsec = tp * p.ns

/-- The time is converted to a `timeval` that is normalised and stands for it, rounded to
microseconds. -/
def TimevalDenotes (p : Period) (tp : ℤ) : Prop :=
  ∃ tv, timepointToTimeval p tp = some tv ∧ tv.IsNormal ∧
    |(tv.sec * 1000000 + tv.usec) * 1000 - tp * p.ns| < 1000

/-- The times that are passed to `utimensat()` are normalised. -/
def PassesNormal (times : Option (Timespec × Timespec)) : Prop :=
  ∃ atime mtime, times = some (atime, mtime) ∧ atime.IsNormal ∧ mtime.IsNormal

/-- The time is not before the epoch, or it is in whole seconds. -/
def IsSplit (ns : ℤ) : Prop := 0 ≤ ns ∨ 1000000000 ∣ ns

/-- Whether a time is split well can be computed. -/
instance (ns : ℤ) : Decidable (IsSplit ns) := inferInstanceAs (Decidable (_ ∨ _))

/-- A time is denoted if it is not before the epoch, or in whole seconds. -/
theorem timespecDenotes_iff (h : IsInt64 (tp * p.ns)) :
    TimespecDenotes p tp ↔ IsSplit (tp * p.ns) := by
  rw [IsSplit, ← tmod_nonneg_iff]
  constructor
  · rintro ⟨ts, hts, hnormal, -⟩
    rw [timepointToTimespec_eq h] at hts
    rw [← Option.some.inj hts] at hnormal
    exact hnormal.1
  · intro hnonneg
    exact ⟨_, timepointToTimespec_eq h, ⟨hnonneg, Int.tmod_lt_of_pos _ (by decide)⟩,
      Int.tdiv_mul_add_tmod _ _⟩

/-- Microseconds are denoted if they are not before the epoch, or in whole seconds. -/
theorem timevalDenotes_iff (h : IsInt64 (tp * p.ns)) :
    TimevalDenotes p tp ↔ 0 ≤ (tp * p.ns).tdiv 1000 ∨ 1000000 ∣ (tp * p.ns).tdiv 1000 := by
  rw [← tmod_nonneg_iff]
  constructor
  · rintro ⟨tv, htv, hnormal, -⟩
    rw [timepointToTimeval_eq h] at htv
    rw [← Option.some.inj htv] at hnormal
    exact hnormal.1
  · intro hnonneg
    refine ⟨_, timepointToTimeval_eq h, ⟨hnonneg, Int.tmod_lt_of_pos _ (by decide)⟩, ?_⟩
    have hmicro := Int.tdiv_mul_add_tmod (tp * p.ns) 1000
    obtain ⟨-, -, hlow, hhigh⟩ := tmod_bounds (tp * p.ns) (b := 1000) (by decide)
    simp only [makeTimeval]
    rw [Int.tdiv_mul_add_tmod, abs_lt]
    omega

/-- A time that is split well into seconds is split well after it has been rounded. -/
theorem IsSplit.micro {ns : ℤ} (h : IsSplit ns) : 0 ≤ ns.tdiv 1000 ∨ 1000000 ∣ ns.tdiv 1000 := by
  rcases h with hnonneg | ⟨k, rfl⟩
  · exact .inl (Int.tdiv_nonneg hnonneg (by decide))
  · have hdiv : (1000000000 * k : ℤ).tdiv 1000 = 1000000 * k := by
      rw [show (1000000000 * k : ℤ) = 1000 * (1000000 * k) by omega,
        Int.mul_tdiv_cancel_left _ (by decide)]
    exact .inr ⟨k, hdiv⟩

/-- Both times have to be split well. -/
theorem passesNormal_iff {atime mtime : ℤ} (ha : IsInt64 (atime * p.ns))
    (hm : IsInt64 (mtime * p.ns)) : PassesNormal (setFileTimes p atime mtime) ↔
      IsSplit (atime * p.ns) ∧ IsSplit (mtime * p.ns) := by
  have hrun : setFileTimes p atime mtime =
      some (⟨(atime * p.ns).tdiv 1000000000, (atime * p.ns).tmod 1000000000⟩,
        ⟨(mtime * p.ns).tdiv 1000000000, (mtime * p.ns).tmod 1000000000⟩) := by
    rw [setFileTimes, timepointToTimespec_eq ha, timepointToTimespec_eq hm]
    rfl
  rw [PassesNormal, hrun, IsSplit, IsSplit, ← tmod_nonneg_iff, ← tmod_nonneg_iff]
  constructor
  · rintro ⟨a, m, heq, hna, hnm⟩
    cases heq
    exact ⟨hna.1, hnm.1⟩
  · rintro ⟨hna, hnm⟩
    exact ⟨_, _, rfl, ⟨hna, Int.tmod_lt_of_pos _ (by decide)⟩,
      ⟨hnm, Int.tmod_lt_of_pos _ (by decide)⟩⟩

/-- **Time points.** A time is converted to normalised structures that stand for it, and
passed on normalised with the other time of a file, exactly if both times are in whole seconds
or not before the epoch. -/
theorem isNormal_iff {other : ℤ} (h : IsInt64 (tp * p.ns)) (ho : IsInt64 (other * p.ns)) :
    (TimespecDenotes p tp ∧ TimevalDenotes p tp ∧ PassesNormal (setAccessTime p tp other) ∧
        PassesNormal (setModifyTime p tp other)) ↔
      IsSplit (tp * p.ns) ∧ IsSplit (other * p.ns) := by
  rw [timespecDenotes_iff h, timevalDenotes_iff h, setAccessTime, setModifyTime,
    passesNormal_iff h ho, passesNormal_iff ho h]
  exact ⟨fun hall => hall.2.2.1, fun hsplit =>
    ⟨hsplit.1, hsplit.1.micro, hsplit, hsplit.2, hsplit.1⟩⟩

end Normal

/-- Half a second after the epoch, and a second before it. -/
theorem isNormal_iff_half :
    (TimespecDenotes nano 500000000 ∧ TimevalDenotes nano 500000000 ∧
      PassesNormal (setAccessTime nano 500000000 (-1000000000)) ∧
        PassesNormal (setModifyTime nano 500000000 (-1000000000))) ↔
      IsSplit (500000000 * nano.ns) ∧ IsSplit (-1000000000 * nano.ns) :=
  isNormal_iff (by decide) (by decide)

/-- A nanosecond before the epoch has a remainder of -1. -/
theorem isNormal_fails :
    ¬ ∀ (p : Period) (tp : ℤ), IsInt64 (tp * p.ns) → TimespecDenotes p tp := by
  intro h
  obtain ⟨ts, hts, hnormal, -⟩ := h nano (-1) (by decide)
  rw [timepointToTimespec_eq (by decide)] at hts
  rw [← Option.some.inj hts] at hnormal
  exact absurd hnormal.1 (by decide)

/-! ### There and back -/

section RoundTrip

variable {p : Period} {d : ℤ}

/-- The two parts of a time are counted in ticks exactly if the first part is. -/
theorem tdiv_add_tdiv_iff {a b d q : ℤ} (hq : 0 < q) (hsum : a + b = d * q)
    (hsign : 0 ≤ a ∧ 0 ≤ b ∨ a ≤ 0 ∧ b ≤ 0) : a.tdiv q + b.tdiv q = d ↔ q ∣ a := by
  have ha := Int.tdiv_mul_add_tmod a q
  have hb := Int.tdiv_mul_add_tmod b q
  obtain ⟨hapos, haneg, halow, hahigh⟩ := tmod_bounds a hq
  obtain ⟨hbpos, hbneg, hblow, hbhigh⟩ := tmod_bounds b hq
  have hrest : (d - (a.tdiv q + b.tdiv q)) * q = a.tmod q + b.tmod q := by
    rw [Int.sub_mul, Int.add_mul, ← hsum]
    omega
  rw [Int.dvd_iff_tmod_eq_zero]
  constructor
  · intro heq
    rw [heq, Int.sub_self, Int.zero_mul] at hrest
    omega
  · intro hzero
    rw [hzero, Int.zero_add] at hrest
    -- a multiple of the tick that is shorter than a tick
    have hnone : b.tmod q = 0 := by
      have hdvd : q ∣ b.tmod q := ⟨_, (hrest.symm.trans (Int.mul_comm _ _))⟩
      exact Int.eq_zero_of_dvd_of_natAbs_lt_natAbs hdvd (by omega)
    rw [hnone] at hrest
    have hzero' := (Int.mul_eq_zero.mp hrest).resolve_right (by omega)
    omega

/-- **Durations.** A duration is read back from the `timespec` it was converted to exactly if
its whole seconds are a multiple of the tick. -/
theorem roundTrip_iff (h : IsInt64 (d * p.ns)) :
    (durationToTimespec p d).bind (timespecToDuration p) = some d ↔
      (p.ns : ℤ) ∣ (d * p.ns).tdiv 1000000000 * 1000000000 := by
  have hsum := Int.tdiv_mul_add_tmod (d * p.ns) 1000000000
  obtain ⟨hpos, hneg, hlow, hhigh⟩ := tmod_bounds (d * p.ns) (b := 1000000000) (by decide)
  have hsign : 0 ≤ (d * p.ns).tdiv 1000000000 * 1000000000 ∧ 0 ≤ (d * p.ns).tmod 1000000000 ∨
      (d * p.ns).tdiv 1000000000 * 1000000000 ≤ 0 ∧ (d * p.ns).tmod 1000000000 ≤ 0 := by
    rcases Int.le_total 0 (d * p.ns) with hd | hd
    · have hdiv := Int.tdiv_nonneg hd (b := 1000000000) (by decide)
      exact .inl ⟨by omega, hpos hd⟩
    · have hdiv := Int.tdiv_nonneg (a := -(d * p.ns)) (b := 1000000000) (by omega) (by decide)
      rw [Int.neg_tdiv] at hdiv
      exact .inr ⟨by omega, hneg hd⟩
  rw [durationToTimespec_eq h, Option.bind_some, timespecToDuration]
  rw [← tdiv_add_tdiv_iff (Int.natCast_pos.mpr p.pos) hsum hsign]
  have hd : IsInt64 d := .of_mul p.pos h
  rw [IsInt64] at h
  generalize (d * p.ns).tdiv 1000000000 = sec at hsum hsign ⊢
  generalize (d * p.ns).tmod 1000000000 = nsec at hsum hpos hneg hlow hhigh hsign ⊢
  have hsec : IsInt64 (sec * second.ns) := by
    change IsInt64 (sec * 1000000000)
    rw [IsInt64]
    omega
  have hnsec : IsInt64 (nsec * nano.ns) := by
    change IsInt64 (nsec * 1)
    rw [IsInt64]
    omega
  rw [durationCast_eq hsec, durationCast_eq hnsec]
  refine (int64_eq_some hd).trans ?_
  change (sec * 1000000000).tdiv p.ns + (nsec * 1).tdiv p.ns = d ↔ _
  rw [Int.mul_one]

/-- Every duration is read back if its tick divides a second, or is a multiple of one. -/
theorem roundTrip_of_dvd (h : IsInt64 (d * p.ns)) (hp : p.ns ∣ 1000000000 ∨ 1000000000 ∣ p.ns) :
    (durationToTimespec p d).bind (timespecToDuration p) = some d := by
  refine (roundTrip_iff h).mpr ?_
  rcases hp with hp | ⟨k, hk⟩
  · exact (Int.natCast_dvd_natCast.mpr hp).mul_left _
  · have hwhole : d * p.ns = d * k * 1000000000 := by
      rw [hk]
      push_cast
      ring
    rw [hwhole, Int.mul_tdiv_cancel _ (by decide), ← hwhole]
    exact Int.dvd_mul_left _ _

end RoundTrip

/-- A negative number of milliseconds. -/
theorem roundTrip_iff_millis :
    (durationToTimespec ⟨1000000, by decide⟩ (-1500)).bind
        (timespecToDuration ⟨1000000, by decide⟩) = some (-1500) ↔
      ((1000000 : ℕ) : ℤ) ∣ (-1500 * (1000000 : ℕ) : ℤ).tdiv 1000000000 * 1000000000 :=
  roundTrip_iff (p := ⟨1000000, by decide⟩) (by decide)

/-- A tick of three nanoseconds does not divide a second: one tick of 1000000002 nanoseconds is
lost. -/
theorem roundTrip_fails :
    ¬ ∀ (p : Period) (d : ℤ), IsInt64 (d * p.ns) →
      (durationToTimespec p d).bind (timespecToDuration p) = some d := by
  intro h
  have hback := h ⟨3, by decide⟩ 333333334 (by decide)
  revert hback
  decide

end Time

end RsIo
