import Mathlib.Algebra.Group.Nat.Defs
import Mathlib.Algebra.Group.Basic
import Mathlib.Order.Iterate

/-!
# Growing Buffers

Some calls fill a buffer and say so if it is too small. The caller then makes it larger and
calls again. Call number `i` may find something else than the calls before it, so that a loop
of this kind is no search for a size: all there is to say is that the first call that is not
turned down gives the result.

## Main results

* `run_eq_some_iff`: the loop ends with the first answer.
* `run_of_need`: it ends, if one of the calls has room for what it finds, and with all that the
  last call finds.
* `run_double`: the same for a buffer that is made twice as large each time.
-/

universe u

namespace Growing

variable {α : Type u} {next : ℕ → ℕ} {call : ℕ → ℕ → Option α} {rounds n k : ℕ} {a : α}

/-- The loop. A call with its number and the size of the buffer is answered or turned down. -/
def run (next : ℕ → ℕ) (call : ℕ → ℕ → Option α) : ℕ → ℕ → Option α
  | 0, _ => none
  | rounds + 1, n => (call 0 n).or (run next (fun i => call (i + 1)) rounds (next n))

/-- Call number `k` is the first one that is answered. -/
def Answers (next : ℕ → ℕ) (call : ℕ → ℕ → Option α) (n k : ℕ) (a : α) : Prop :=
  call k (next^[k] n) = some a ∧ ∀ j < k, call j (next^[j] n) = none

theorem answers_zero : Answers next call n 0 a ↔ call 0 n = some a := by
  simp [Answers]

theorem answers_succ :
    Answers next call n (k + 1) a ↔
      call 0 n = none ∧ Answers next (fun i => call (i + 1)) (next n) k a := by
  constructor
  · rintro ⟨hlast, hbefore⟩
    exact ⟨hbefore 0 k.succ_pos, hlast, fun j hj => hbefore (j + 1) (Nat.succ_lt_succ hj)⟩
  · rintro ⟨hfirst, hlast, hbefore⟩
    refine ⟨hlast, fun j hj => ?_⟩
    cases j with
    | zero => exact hfirst
    | succ j => exact hbefore j (Nat.lt_of_succ_lt_succ hj)

/-- The loop ends with the first answer. -/
theorem run_eq_some_iff :
    run next call rounds n = some a ↔ ∃ k < rounds, Answers next call n k a := by
  induction rounds generalizing call n with
  | zero => simp [run]
  | succ rounds ih =>
      rw [run, Option.or_eq_some_iff, ih]
      constructor
      · rintro (h | ⟨h, k, hk, hrest⟩)
        · exact ⟨0, rounds.succ_pos, answers_zero.mpr h⟩
        · exact ⟨k + 1, Nat.succ_lt_succ hk, answers_succ.mpr ⟨h, hrest⟩⟩
      · rintro ⟨k, hk, h⟩
        cases k with
        | zero => exact .inl (answers_zero.mp h)
        | succ k =>
            obtain ⟨hfirst, hrest⟩ := answers_succ.mp h
            exact .inr ⟨hfirst, k, Nat.lt_of_succ_lt_succ hk, hrest⟩

/-- A call that would be answered ends the loop, if no call before it does. -/
theorem exists_answers (h : call k (next^[k] n) = some a) :
    ∃ j ≤ k, ∃ b, Answers next call n j b := by
  induction k generalizing call n with
  | zero => exact ⟨0, Nat.le_refl 0, a, answers_zero.mpr h⟩
  | succ k ih =>
      cases hfirst : call 0 n with
      | some b => exact ⟨0, Nat.zero_le _, b, answers_zero.mpr hfirst⟩
      | none =>
          have hrest : ∃ j ≤ k, ∃ b, Answers next (fun i => call (i + 1)) (next n) j b := ih h
          obtain ⟨j, hj, b, hb⟩ := hrest
          exact ⟨j + 1, Nat.succ_le_succ hj, b, answers_succ.mpr ⟨hfirst, hb⟩⟩

/-- Where a call is answered with all it finds exactly if that fits in the buffer, the loop ends
by the first call for which it does. -/
theorem run_of_need {need : ℕ → ℕ} {value : ℕ → α} (hnext : id ≤ next)
    (hcall : ∀ i m, n ≤ m → call i m = if need i ≤ m then some (value i) else none)
    (hk : k < rounds) (hneed : need k ≤ next^[k] n) :
    ∃ j ≤ k, run next call rounds n = some (value j) ∧ need j ≤ next^[j] n ∧
      ∀ i < j, next^[i] n < need i := by
  have hsize : ∀ i, n ≤ next^[i] n := fun i => Function.id_le_iterate_of_id_le hnext i n
  have hroom : call k (next^[k] n) = some (value k) := by
    rw [hcall k _ (hsize k), if_pos hneed]
  obtain ⟨j, hj, b, hlast, hbefore⟩ := exists_answers hroom
  have hrun := run_eq_some_iff.mpr ⟨j, Nat.lt_of_le_of_lt hj hk, hlast, hbefore⟩
  rw [hcall j _ (hsize j), Option.ite_none_right_eq_some] at hlast
  obtain ⟨hfits, hb⟩ := hlast
  refine ⟨j, hj, hrun.trans hb.symm, hfits, fun i hi => ?_⟩
  have hnone := hbefore i hi
  rw [hcall i _ (hsize i)] at hnone
  by_contra hle
  rw [if_pos (Nat.le_of_not_lt hle)] at hnone
  cases hnone

theorem run_double {need : ℕ → ℕ} {value : ℕ → α}
    (hcall : ∀ i m, n ≤ m → call i m = if need i ≤ m then some (value i) else none)
    (hk : k < rounds) (hneed : need k ≤ 2 ^ k * n) :
    ∃ j ≤ k, run (2 * ·) call rounds n = some (value j) ∧ need j ≤ 2 ^ j * n ∧
      ∀ i < j, 2 ^ i * n < need i := by
  have hdouble : id ≤ (2 * · : ℕ → ℕ) := fun m => Nat.le_mul_of_pos_left m Nat.two_pos
  simp only [← mul_left_iterate_apply] at hneed ⊢
  exact run_of_need hdouble hcall hk hneed

end Growing
