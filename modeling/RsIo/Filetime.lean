import RsIo.TimeConversion

/-!
# File Times on Windows

A `FILETIME` counts ticks of 100 ns from the year 1601 on. The conversion to a time point splits
it with signed arithmetic. The conversion back takes the time from the Unix epoch as an unsigned
number of nanoseconds, divides that by 100, and only then moves it to the other epoch.

## Main results

* `filetimeToTimepoint_eq`: the time point of a file time.
* `filetime_roundTrip_iff`: the file times that are read back.
-/

namespace RsIo

namespace Time

/-- `FILETIME`. -/
@[ext]
structure Filetime where
  low : UInt32
  high : UInt32
  deriving DecidableEq, Repr

/-- The ticks that a file time stands for. -/
def Filetime.ticks (ft : Filetime) : ℕ := ft.high.toNat * 2 ^ 32 + ft.low.toNat

/-- `filetime_freq`. -/
def filetimeFreq : ℕ := 10000000

/-- `windows_epoch`. -/
def windowsEpoch : ℕ := 11644473600

/-- The period of `system_clock` on Windows. -/
def hectoNano : Period := ⟨100, by decide⟩

/-- `system_clock::from_time_t`. -/
def fromTimeT (t : ℤ) : Option ℤ := durationCast second hectoNano t

/-- `filetime_to_timepoint`. -/
def filetimeToTimepoint (ft : Filetime) : Option ℤ := do
  let high ← int64 (ft.high.toNat * 2 ^ 32)
  let ticks ← int64 (high + ft.low.toNat)
  let sec ← int64 (ticks.tdiv filetimeFreq - windowsEpoch)
  let nsec ← int64 (100 * ticks.tmod filetimeFreq)
  int64 ((← fromTimeT sec) + (← durationCast nano hectoNano nsec))

/-- `timepoint_to_filetime`. The numbers of nanoseconds and of ticks are `uint64_t`. -/
def timepointToFiletime (tp : ℤ) : Option Filetime := do
  let unixTime ← int64 (tp - (← fromTimeT 0))
  let nsec := ((← durationCast hectoNano nano unixTime) % 2 ^ 64).toNat
  let ticks := (nsec / 100 + filetimeFreq * windowsEpoch) % 2 ^ 64
  return ⟨.ofNat (ticks % 2 ^ 32), .ofNat (ticks / 2 ^ 32)⟩

/-- The ticks from 1601 to 1970. -/
def unixEpochTicks : ℕ := filetimeFreq * windowsEpoch

/-- A cast to a period that divides the other one does not round. -/
theorem durationCast_mul {p q : Period} {num : ℕ} (h : p.ns = num * q.ns) (count : ℤ) :
    durationCast p q count = int64 (count * num) := by
  have hgcd : Nat.gcd p.ns q.ns = q.ns := Nat.gcd_eq_right (h ▸ Nat.dvd_mul_left _ _)
  rw [durationCast, hgcd, h, Nat.mul_div_cancel _ q.pos, Nat.div_self q.pos]
  simp

/-- The time point of a file time counts from the other epoch. -/
theorem filetimeToTimepoint_eq {ft : Filetime} (h : ft.ticks < 2 ^ 63) :
    filetimeToTimepoint ft = some ((ft.ticks : ℤ) - unixEpochTicks) := by
  have hticks : (ft.ticks : ℤ) = ft.high.toNat * 2 ^ 32 + ft.low.toNat := by
    rw [Filetime.ticks]
    push_cast
    rfl
  have hlow := ft.low.toNat_lt
  have hfreq : filetimeFreq = 10000000 := rfl
  have hepoch : windowsEpoch = 11644473600 := rfl
  have hdiv : (ft.ticks : ℤ).tdiv filetimeFreq = (ft.ticks / filetimeFreq : ℕ) :=
    (Int.ofNat_tdiv _ _).symm
  have hmod : (ft.ticks : ℤ).tmod filetimeFreq = (ft.ticks % filetimeFreq : ℕ) :=
    (Int.ofNat_tmod _ _).symm
  have hsplit := Nat.div_add_mod ft.ticks filetimeFreq
  have hrest := Nat.mod_lt ft.ticks (y := filetimeFreq) (by decide)
  have hhigh : int64 ((ft.high.toNat : ℤ) * 2 ^ 32) = some ((ft.high.toNat : ℤ) * 2 ^ 32) :=
    int64_of (by rw [IsInt64]; omega)
  have hsum : int64 ((ft.high.toNat : ℤ) * 2 ^ 32 + ft.low.toNat) = some (ft.ticks : ℤ) := by
    rw [← hticks]
    exact int64_of (by rw [IsInt64]; omega)
  generalize ft.ticks / filetimeFreq = sec at hdiv hsplit
  generalize ft.ticks % filetimeFreq = rest at hmod hsplit hrest
  rw [hfreq] at hsplit hrest
  have hsec : int64 ((sec : ℤ) - windowsEpoch) = some ((sec : ℤ) - windowsEpoch) :=
    int64_of (by rw [IsInt64]; omega)
  have hnsec : int64 (100 * rest) = some (100 * (rest : ℤ)) :=
    int64_of (by rw [IsInt64]; omega)
  have hcast : durationCast nano hectoNano (100 * rest) = some (rest : ℤ) := by
    rw [durationCast_eq (by change IsInt64 (_ * 1); rw [IsInt64]; omega)]
    change some ((100 * (rest : ℤ) * 1).tdiv 100) = _
    rw [Int.mul_one, Int.mul_tdiv_cancel_left _ (by decide)]
  have hfrom : fromTimeT ((sec : ℤ) - windowsEpoch) =
      some (((sec : ℤ) - windowsEpoch) * (10000000 : ℕ)) := by
    rw [fromTimeT, @durationCast_mul second hectoNano 10000000 rfl]
    exact int64_of (by rw [IsInt64]; omega)
  have htotal : ((sec : ℤ) - windowsEpoch) * (10000000 : ℕ) + rest =
      ft.ticks - unixEpochTicks := by
    rw [unixEpochTicks, hfreq, hepoch]
    omega
  have hfits : int64 ((ft.ticks : ℤ) - unixEpochTicks) = some ((ft.ticks : ℤ) - unixEpochTicks) :=
    int64_of (by rw [IsInt64, unixEpochTicks, hfreq, hepoch]; omega)
  rw [filetimeToTimepoint]
  refine Option.bind_eq_some_iff.mpr ⟨_, hhigh, Option.bind_eq_some_iff.mpr ⟨_, hsum, ?_⟩⟩
  rw [hdiv, hmod]
  refine Option.bind_eq_some_iff.mpr ⟨_, hsec, Option.bind_eq_some_iff.mpr ⟨_, hnsec, ?_⟩⟩
  refine Option.bind_eq_some_iff.mpr ⟨_, hfrom, Option.bind_eq_some_iff.mpr ⟨_, hcast, ?_⟩⟩
  rw [htotal, hfits]

/-- The file time of a time point. -/
theorem timepointToFiletime_eq {tp : ℤ} (h : IsInt64 (tp * 100)) :
    timepointToFiletime tp =
      let ticks := ((tp * 100 % 2 ^ 64).toNat / 100 + unixEpochTicks) % 2 ^ 64
      some ⟨.ofNat (ticks % 2 ^ 32), .ofNat (ticks / 2 ^ 32)⟩ := by
  have hepoch : fromTimeT 0 = some 0 := by decide
  have hdiff : int64 (tp - 0) = some tp := by
    rw [Int.sub_zero]
    exact int64_of (.of_mul (g := 100) (by decide) h)
  have hcast : durationCast hectoNano nano tp = some (tp * 100) := by
    rw [@durationCast_mul hectoNano nano 100 rfl]
    exact int64_of h
  simp only [timepointToFiletime, hepoch, hdiff, hcast, Option.bind_eq_bind, Option.bind_some]
  rfl

/-- A number of ticks is put together again. -/
theorem Filetime.ofTicks_eq_iff {ft : Filetime} {t : ℕ} (h : t < 2 ^ 64) :
    (⟨.ofNat (t % 2 ^ 32), .ofNat (t / 2 ^ 32)⟩ : Filetime) = ft ↔ t = ft.ticks := by
  have hlow := ft.low.toNat_lt
  have hhigh := ft.high.toNat_lt
  rw [Filetime.ext_iff, ← UInt32.toNat_inj, ← UInt32.toNat_inj, UInt32.toNat_ofNat',
    UInt32.toNat_ofNat', Filetime.ticks]
  omega

/-- The number of nanoseconds wraps around for a time before 1970, and is then off by `2 ^ 64`,
which is not a multiple of 100. -/
theorem ticks_wrap_iff {t : ℕ} (hns : IsInt64 (((t : ℤ) - unixEpochTicks) * 100)) :
    ((((t : ℤ) - unixEpochTicks) * 100 % 2 ^ 64).toNat / 100 + unixEpochTicks) % 2 ^ 64 = t ↔
      unixEpochTicks ≤ t := by
  have hepoch : unixEpochTicks = 116444736000000000 := rfl
  rw [IsInt64] at hns
  constructor
  · intro hback
    by_contra hbefore
    have hwrap : ((t : ℤ) - unixEpochTicks) * 100 % 2 ^ 64 =
        ((t : ℤ) - unixEpochTicks) * 100 + 2 ^ 64 := by omega
    rw [hwrap] at hback
    omega
  · intro hafter
    have hsame : ((t : ℤ) - unixEpochTicks) * 100 % 2 ^ 64 = ((t : ℤ) - unixEpochTicks) * 100 := by
      omega
    rw [hsame]
    omega

/-- **File times.** A file time is read back exactly if it is not before 1970. -/
theorem filetime_roundTrip_iff {ft : Filetime} (h : ft.ticks < 2 ^ 63)
    (hns : IsInt64 (((ft.ticks : ℤ) - unixEpochTicks) * 100)) :
    (filetimeToTimepoint ft).bind timepointToFiletime = some ft ↔ unixEpochTicks ≤ ft.ticks := by
  have hback := timepointToFiletime_eq hns
  have hiff := ticks_wrap_iff hns
  have hlt : ((((ft.ticks : ℤ) - unixEpochTicks) * 100 % 2 ^ 64).toNat / 100 + unixEpochTicks) %
      2 ^ 64 < 2 ^ 64 := Nat.mod_lt _ (by decide)
  generalize ((((ft.ticks : ℤ) - unixEpochTicks) * 100 % 2 ^ 64).toNat / 100 +
    unixEpochTicks) % 2 ^ 64 = ticks at hback hiff hlt
  rw [filetimeToTimepoint_eq h, Option.bind_some, hback, Option.some.injEq,
    Filetime.ofTicks_eq_iff hlt, hiff]

/-- The start of the year 2000. -/
theorem filetime_roundTrip_iff_2000 :
    (filetimeToTimepoint ⟨627916800, 29316075⟩).bind timepointToFiletime =
      some ⟨627916800, 29316075⟩ :=
  (filetime_roundTrip_iff (by decide) (by decide)).mpr (by decide)

/-- One tick before 1970. -/
theorem filetime_roundTrip_fails :
    ¬ ∀ ft : Filetime, ft.ticks < 2 ^ 63 → IsInt64 (((ft.ticks : ℤ) - unixEpochTicks) * 100) →
      (filetimeToTimepoint ft).bind timepointToFiletime = some ft := by
  intro hall
  have hft := hall ⟨3577643007, 27111902⟩ (by decide) (by decide)
  exact absurd hft (by decide)

end Time

end RsIo
