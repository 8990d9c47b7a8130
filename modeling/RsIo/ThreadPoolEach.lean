import Mathlib.Data.List.Nodup
import Mathlib.Tactic.Ring

/-!
# Inserting a Job for each Number

`ThreadPool::each` counts from a start in steps until it comes to a stop, and inserts a job for
each number on the way. It takes a step before it looks whether the stop is reached, so the
counter is an `int` also where it has come past the stop. An addition of `int`s whose result does
not fit is undefined.

What `insert` does is a parameter.

## Main results

* `ThreadPool.eachLoop_returns`: the loop returns, if a number that is not before the stop fits.
* `ThreadPool.eachCount_inserts`: with a count a job is inserted for each number below it.
* `ThreadPool.each_iff`: when a job is inserted for each number before the stop.
-/

namespace RsIo

namespace ThreadPool

/-- An addition of `int`s, undefined if it overflows. -/
def addInt (i d : Int32) : Option Int32 :=
  if -2 ^ 31 ≤ i.toInt + d.toInt ∧ i.toInt + d.toInt < 2 ^ 31 then some (i + d) else none

theorem addInt_eq_some {i d j : Int32} : addInt i d = some j ↔ j.toInt = i.toInt + d.toInt := by
  have hlow := j.le_toInt
  have hhigh := j.toInt_lt
  rw [addInt, Option.ite_none_right_eq_some, Option.some.injEq, ← Int32.toInt_inj,
    Int32.toInt_add]
  constructor
  · rintro ⟨⟨hle, hlt⟩, hj⟩
    rw [Int.bmod_eq_of_le (by omega) (by omega)] at hj
    exact hj.symm
  · intro hj
    refine ⟨⟨by omega, by omega⟩, ?_⟩
    rw [Int.bmod_eq_of_le (by omega) (by omega), hj]

/-- How a loop ends. -/
inductive Ended
  | returned
  | overflowed
  deriving DecidableEq, Repr

variable {σ : Type} (insert : Int32 → σ → σ)

/-- At most `fuel` passes of the loops of `ThreadPool::each`, while the counter satisfies the
condition of the loop: how the loop ends, if it does, and the pool. -/
def eachLoop (goesOn : Int32 → Bool) (delta : Int32) : ℕ → Int32 → σ → Option Ended × σ
  | 0, _, s => (none, s)
  | fuel + 1, i, s =>
      if goesOn i then
        let s := insert i s
        match addInt i delta with
        | some j => eachLoop goesOn delta fuel j s
        | none => (some .overflowed, s)
      else
        (some .returned, s)

/-- At most `fuel` passes of `ThreadPool::each`. -/
def each (fuel : ℕ) (start delta stop : Int32) (s : σ) : Option Ended × σ :=
  if 0 ≤ delta then
    eachLoop insert (fun i => i < stop) delta fuel start s
  else
    eachLoop insert (fun i => i > stop) delta fuel start s

/-- `ThreadPool::each` with a count. -/
def eachCount (fuel : ℕ) (n : Int32) (s : σ) : Option Ended × σ := each insert fuel 0 1 n s

/-! ### The numbers on the way -/

/-- The number after `k` steps. -/
def value (start delta : Int32) (k : ℕ) : ℤ := start.toInt + k * delta.toInt

/-- A number lies before the stop, in the direction of the steps. -/
def Before (delta stop : Int32) (i : ℤ) : Prop :=
  0 < delta.toInt ∧ i < stop.toInt ∨ delta.toInt < 0 ∧ stop.toInt < i

/-- Whether an index comes before the end can be computed. -/
instance (delta stop : Int32) (i : ℤ) : Decidable (Before delta stop i) :=
  inferInstanceAs (Decidable (_ ∨ _))

/-- There is a number on the way that is not before the stop and fits in an `int`. -/
def StopFits (start delta stop : Int32) : Prop :=
  ∃ (k : ℕ) (i : Int32), i.toInt = value start delta k ∧ ¬ Before delta stop i.toInt

section

variable {start delta stop : Int32} {m k : ℕ}

theorem value_zero : value start delta 0 = start.toInt := by simp [value]

theorem value_succ {i j : Int32} (h : j.toInt = i.toInt + delta.toInt) (k : ℕ) :
    value i delta (k + 1) = value j delta k := by
  rw [value, value, h]
  push_cast
  ring

/-- The way leads in one direction. -/
theorem value_between (h : m ≤ k) :
    0 ≤ delta.toInt ∧ start.toInt ≤ value start delta m ∧
        value start delta m ≤ value start delta k ∨
      delta.toInt ≤ 0 ∧ value start delta k ≤ value start delta m ∧
        value start delta m ≤ start.toInt := by
  have hle : (m : ℤ) ≤ k := Int.ofNat_le.mpr h
  have hm : (0 : ℤ) ≤ m := Int.natCast_nonneg m
  simp only [value]
  rcases Int.le_total 0 delta.toInt with hd | hd
  · have hmul := Int.mul_le_mul_of_nonneg_right hle hd
    have hpos := Int.mul_nonneg hm hd
    omega
  · have hmul := Int.mul_le_mul_of_nonpos_right hle hd
    have hneg := Int.mul_nonpos_of_nonneg_of_nonpos hm hd
    omega

/-- What comes before a number that fits does too. -/
theorem exists_value (h : m ≤ k) {last : Int32} (hlast : last.toInt = value start delta k) :
    ∃ i : Int32, i.toInt = value start delta m := by
  have hlow := start.le_toInt
  have hhigh := start.toInt_lt
  have hlow' := last.le_toInt
  have hhigh' := last.toInt_lt
  have hbetween := @value_between start delta m k h
  exact ⟨.ofInt (value start delta m), Int32.toInt_ofInt_of_le (by omega) (by omega)⟩

/-- What comes behind a number that is not before the stop is not either. -/
theorem not_before (h : m ≤ k) (hstop : ¬ Before delta stop (value start delta m)) :
    ¬ Before delta stop (value start delta k) := by
  have hle : (m : ℤ) ≤ k := Int.ofNat_le.mpr h
  simp only [Before, value] at hstop ⊢
  rcases Int.le_total 0 delta.toInt with hd | hd
  · have hmul := Int.mul_le_mul_of_nonneg_right hle hd
    omega
  · have hmul := Int.mul_le_mul_of_nonpos_right hle hd
    omega

theorem value_injective (hd : delta ≠ 0) : Function.Injective (value start delta) := by
  intro m k h
  have hne : delta.toInt ≠ 0 := fun h => hd (Int32.toInt_inj.mp h)
  have hmul : (m : ℤ) * delta.toInt = k * delta.toInt := by
    rw [value, value] at h
    omega
  exact Int.ofNat.inj (Int.eq_of_mul_eq_mul_right hne hmul)

/-- The first number on the way that is not before the stop. -/
theorem StopFits.first (h : StopFits start delta stop) :
    ∃ (k : ℕ) (last : Int32), last.toInt = value start delta k ∧
      (∀ j < k, Before delta stop (value start delta j)) ∧ ¬ Before delta stop last.toInt := by
  classical
  obtain ⟨k, last, hlast, hstop⟩ := h
  have hex : ∃ k, ¬ Before delta stop (value start delta k) := ⟨k, hlast ▸ hstop⟩
  obtain ⟨i, hi⟩ := exists_value (Nat.find_min' hex (hlast ▸ hstop)) hlast
  exact ⟨Nat.find hex, i, hi, fun j hj => not_not.mp (Nat.find_min hex hj),
    hi ▸ Nat.find_spec hex⟩

/-- A step of one goes no further than the stop. -/
theorem stopFits_one (start stop : Int32) : StopFits start 1 stop := by
  have hone : (1 : Int32).toInt = 1 := rfl
  rcases Int.le_total start.toInt stop.toInt with hle | hle
  · refine ⟨(stop.toInt - start.toInt).toNat, stop, ?_, ?_⟩
    · rw [value, hone]
      omega
    · rw [Before, hone]
      omega
  · refine ⟨0, start, value_zero.symm, ?_⟩
    rw [Before, hone]
    omega

end

/-! ### The loop -/

section

variable {delta stop : Int32} {goesOn : Int32 → Bool}

/-- With a step that is not zero, the loops go on before the stop. -/
theorem each_eq (start stop : Int32) (hd : delta ≠ 0) : ∃ goesOn : Int32 → Bool,
    (∀ i, goesOn i = true ↔ Before delta stop i.toInt) ∧
      ∀ fuel s, each insert fuel start delta stop s =
        eachLoop insert goesOn delta fuel start s := by
  have hne : delta.toInt ≠ 0 := fun h => hd (Int32.toInt_inj.mp h)
  have hzero : (0 : Int32).toInt = 0 := rfl
  by_cases hle : 0 ≤ delta
  · refine ⟨fun i => i < stop, fun i => ?_, fun fuel s => if_pos hle⟩
    rw [Int32.le_iff_toInt_le, hzero] at hle
    rw [decide_eq_true_iff, Int32.lt_iff_toInt_lt, Before]
    omega
  · refine ⟨fun i => i > stop, fun i => ?_, fun fuel s => if_neg hle⟩
    rw [Int32.le_iff_toInt_le, hzero] at hle
    rw [decide_eq_true_iff, gt_iff_lt, Int32.lt_iff_toInt_lt, Before]
    omega

variable (hgo : ∀ i, goesOn i = true ↔ Before delta stop i.toInt)
include hgo

/-- The loop inserts a job for each number, and returns at one that fits. -/
theorem eachLoop_returns {k : ℕ} {i last : Int32} (s : σ)
    (hbefore : ∀ j < k, Before delta stop (value i delta j))
    (hlast : last.toInt = value i delta k) (hstop : ¬ Before delta stop last.toInt) :
    ∃ jobs : List Int32, eachLoop insert goesOn delta (k + 1) i s =
        (some .returned, jobs.foldl (fun s i => insert i s) s) ∧
      jobs.map Int32.toInt = (List.range k).map (value i delta) := by
  induction k generalizing i s with
  | zero =>
      rw [hlast, value_zero, ← hgo] at hstop
      exact ⟨[], by rw [eachLoop, if_neg hstop]; rfl, rfl⟩
  | succ k ih =>
      have hi : Before delta stop i.toInt := value_zero ▸ hbefore 0 k.succ_pos
      obtain ⟨j, hj⟩ := exists_value (Nat.succ_le_succ k.zero_le) hlast
      have hadd : j.toInt = i.toInt + delta.toInt := by simpa [value] using hj
      obtain ⟨jobs, hloop, hjobs⟩ := ih (i := j) (insert i s)
        (fun m hm => value_succ hadd m ▸ hbefore (m + 1) (Nat.succ_lt_succ hm))
        (value_succ hadd k ▸ hlast)
      refine ⟨i :: jobs, ?_, ?_⟩
      · rw [eachLoop, if_pos ((hgo i).mpr hi), addInt_eq_some.mpr hadd]
        exact hloop
      · rw [List.map_cons, hjobs, List.range_succ_eq_map, List.map_cons, List.map_map, value_zero]
        exact congrArg _ (List.map_congr_left fun m _ => (value_succ hadd m).symm)

/-- If the loop returns, it has come to a number that fits. -/
theorem stopFits_of_returned {fuel : ℕ} {i : Int32} {s : σ}
    (h : (eachLoop insert goesOn delta fuel i s).1 = some .returned) :
    StopFits i delta stop := by
  induction fuel generalizing i s with
  | zero => cases h
  | succ fuel ih =>
      rw [eachLoop] at h
      split at h
      next =>
        cases hadd : addInt i delta with
        | some j =>
            rw [hadd] at h
            obtain ⟨k, last, hlast, hstop⟩ := ih h
            exact ⟨k + 1, last, by rw [hlast, value_succ (addInt_eq_some.mp hadd)], hstop⟩
        | none =>
            rw [hadd] at h
            cases h
      next hstop => exact ⟨0, i, value_zero.symm, fun hi => hstop ((hgo i).mpr hi)⟩

end

/-- The function returns, and a job is inserted for each number before the stop and for no
other, once. -/
def InsertsEach (start delta stop : Int32) (s : σ) : Prop :=
  ∃ jobs : List Int32, jobs.Nodup ∧
    (∀ i, i ∈ jobs.map Int32.toInt ↔ ∃ k : ℕ, i = value start delta k ∧ Before delta stop i) ∧
    ∃ fuel, each insert fuel start delta stop s =
      (some .returned, jobs.foldl (fun s i => insert i s) s)

section

variable {insert} {start delta stop : Int32} {s : σ}

theorem InsertsEach.stopFits (h : InsertsEach insert start delta stop s) (hd : delta ≠ 0) :
    StopFits start delta stop := by
  obtain ⟨goesOn, hgo, heach⟩ := each_eq insert start stop hd
  obtain ⟨jobs, -, -, fuel, hreturned⟩ := h
  rw [heach] at hreturned
  exact stopFits_of_returned insert hgo (congrArg Prod.fst hreturned)

variable (insert s) in
theorem StopFits.insertsEach (h : StopFits start delta stop) (hd : delta ≠ 0) :
    InsertsEach insert start delta stop s := by
  obtain ⟨goesOn, hgo, heach⟩ := each_eq insert start stop hd
  obtain ⟨k, last, hlast, hbefore, hstop⟩ := h.first
  obtain ⟨jobs, hloop, hjobs⟩ := eachLoop_returns insert hgo s hbefore hlast hstop
  refine ⟨jobs, .of_map Int32.toInt ?_, fun i => ?_, k + 1, (heach _ _).trans hloop⟩
  · rw [hjobs]
    exact List.nodup_range.map (value_injective hd)
  · rw [hjobs, List.mem_map]
    constructor
    · rintro ⟨m, hm, rfl⟩
      exact ⟨m, rfl, hbefore m (List.mem_range.mp hm)⟩
    · rintro ⟨m, rfl, hm⟩
      refine ⟨m, List.mem_range.mpr (Nat.lt_of_not_le fun hle => ?_), rfl⟩
      exact not_before hle (hlast ▸ hstop) hm

end

/-- With a count there is a job for each number below it. -/
theorem eachCount_inserts (n : Int32) (s : σ) :
    ∃ jobs : List Int32, jobs.Nodup ∧
      (∀ i : ℤ, i ∈ jobs.map Int32.toInt ↔ 0 ≤ i ∧ i < n.toInt) ∧
      ∃ fuel, eachCount insert fuel n s =
        (some .returned, jobs.foldl (fun s i => insert i s) s) := by
  have hone : (1 : Int32).toInt = 1 := rfl
  have hzero : (0 : Int32).toInt = 0 := rfl
  obtain ⟨jobs, hnodup, hmem, hreturns⟩ :=
    (stopFits_one 0 n).insertsEach insert s (by decide)
  refine ⟨jobs, hnodup, fun i => (hmem i).trans ?_, hreturns⟩
  simp only [value, Before, hone, hzero]
  constructor
  · rintro ⟨k, rfl, hk⟩
    omega
  · rintro ⟨hle, hlt⟩
    exact ⟨i.toNat, by omega, by omega⟩

/-- **Counting.** A job is inserted for each number before the stop, exactly if one that is not
before it fits in an `int`. -/
theorem each_iff {start delta : Int32} (stop : Int32) (s : σ) (hd : delta ≠ 0) :
    InsertsEach insert start delta stop s ↔ StopFits start delta stop :=
  ⟨fun h => h.stopFits hd, fun h => h.insertsEach insert s hd⟩

/-- The even numbers below five. -/
theorem each_iff_even : InsertsEach List.cons 0 2 5 [] :=
  (each_iff List.cons 5 [] (by decide)).mpr ⟨3, 6, by decide, by decide⟩

/-- The step behind the last `int` but one overflows. -/
theorem each_fails :
    ¬ ∀ start delta stop : Int32, delta ≠ 0 → InsertsEach List.cons start delta stop [] := by
  intro hall
  have hd : (2 : Int32) ≠ 0 := by decide
  have hstart : (2147483646 : Int32).toInt = 2147483646 := by decide
  have hdelta : (2 : Int32).toInt = 2 := rfl
  have hstop : (2147483647 : Int32).toInt = 2147483647 := by decide
  obtain ⟨k, i, hi, hnot⟩ := (hall 2147483646 2 2147483647 hd).stopFits hd
  have hlt := i.toInt_lt
  rw [value, hstart, hdelta] at hi
  rw [Before, hdelta, hstop] at hnot
  omega

end ThreadPool

end RsIo
