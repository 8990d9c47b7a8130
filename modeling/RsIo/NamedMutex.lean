import RsIo.Errno
import RsIo.Transition

/-!
# Named Mutexes

The branch of `class NamedMutex` for POSIX semaphores. Any number of processes share one
semaphore, which starts at one. A call of the class makes one system call, which may block,
and decides by the return code what to do; the return code of a failed system call is -1, and
the reason is in `errno`.

`try_lock` makes the call that waits, and it and `try_lock_until` look for the reason in the
return code.

## Main results

* `mutexKept_iff`: the mutex always excludes, but a process that does not get it never learns
  so from `try_lock` or `try_lock_until`.
-/

namespace RsIo

namespace NamedMutex

/-! ### The calls -/

/-- What a process calls to get the mutex. -/
inductive Call
  | lock
  | tryLock
  | tryLockUntil (absTime : ℤ)
  deriving DecidableEq, Repr

/-- How a call ended. A call of `lock` returns nothing, here true. -/
inductive CallResult
  | returned (ok : Bool)
  | threw (err : ℕ)
  deriving DecidableEq, Repr

/-- What a system call returned, `errno` after it, and the value of the semaphore. -/
structure SystemResult where
  rc : ℤ
  err : ℕ
  value : ℕ
  deriving DecidableEq, Repr

/-- `sem_wait`: it blocks until it can decrement the semaphore. -/
def semWait (value : ℕ) : Option SystemResult :=
  if 0 < value then some ⟨0, 0, value - 1⟩ else none

/-- `sem_timedwait`: it blocks until it can decrement the semaphore, or to the deadline. -/
def semTimedwait (absTime now : ℤ) (value : ℕ) : Option SystemResult :=
  if 0 < value then some ⟨0, 0, value - 1⟩
  else if absTime ≤ now then some ⟨-1, eTimedOut, value⟩
  else none

/-- The system call that a call makes. -/
def Call.system (now : ℤ) (value : ℕ) : Call → Option SystemResult
  | lock => semWait value
  | tryLock => semWait value
  | tryLockUntil absTime => semTimedwait absTime now value

/-- What a call makes of the result. -/
def Call.finish (rc : ℤ) (err : ℕ) : Call → CallResult
  | lock => if rc = -1 then .threw err else .returned true
  | tryLock =>
      if rc = 0 then .returned true else if rc = eAgain then .returned false else .threw err
  | tryLockUntil _ =>
      if rc = 0 then .returned true else if rc = eTimedOut then .returned false else .threw err

/-! ### The processes -/

/-- The semaphore, the time, which processes hold the mutex, and for each process the call
that it is in and the result of its last one. -/
structure State (P : Type) where
  value : ℕ
  now : ℤ
  holds : P → Bool
  call : P → Option Call
  result : P → Option CallResult

/-- A process makes a call, its system call ends, or it unlocks what it holds. Time passes
for all of them. -/
inductive Event (P : Type)
  | enter (p : P) (call : Call)
  | finish (p : P)
  | unlock (p : P)
  | tick (n : ℕ)

variable {P : Type}

/-- A step of one process. -/
def step [DecidableEq P] (s : State P) : Event P → Option (State P)
  | .enter p call =>
      if s.call p = none then
        some { s with
          call := Function.update s.call p (some call)
          result := Function.update s.result p none }
      else none
  | .finish p => do
      let call ← s.call p
      let r ← call.system s.now s.value
      let result := call.finish r.rc r.err
      some { s with
        value := r.value
        holds := if result = .returned true then Function.update s.holds p true else s.holds
        call := Function.update s.call p none
        result := Function.update s.result p (some result) }
  | .unlock p =>
      if s.call p = none ∧ s.holds p = true then
        some { s with value := s.value + 1, holds := Function.update s.holds p false }
      else none
  | .tick n => some { s with now := s.now + n }

/-- The processes and the semaphore, as `sem_open` creates it. -/
def mutex (P : Type) [DecidableEq P] : Machine (State P) (Event P) where
  start := ⟨1, 0, fun _ => false, fun _ => none, fun _ => none⟩
  next := step

/-! ### What the calls should do -/

/-- No two processes hold the mutex. -/
def Exclusive (s : State P) : Prop := ∀ p q, s.holds p = true → s.holds q = true → p = q

/-- No process holds the mutex. -/
def Free (s : State P) : Prop := ∀ p, s.holds p = false

/-- The call of the process ends now, returns false and changes nothing. -/
def GivesUp [DecidableEq P] (s : State P) (p : P) : Prop :=
  ∃ s', step s (.finish p) = some s' ∧ s'.result p = some (.returned false) ∧
    s'.value = s.value ∧ s'.holds = s.holds

/-- The call of the process does not wait, and gives up if another process holds the mutex. -/
def Prompt [DecidableEq P] (s : State P) (p : P) : Prop :=
  (step s (.finish p)).isSome = true ∧ ((∃ q, q ≠ p ∧ s.holds q = true) → GivesUp s p)

/-- What the documentation says of the calls. -/
def MutexKept [DecidableEq P] (s : State P) : Prop :=
  Exclusive s ∧ ∀ p,
    (s.call p = some .tryLock → Prompt s p) ∧
    ∀ absTime, s.call p = some (.tryLockUntil absTime) → absTime ≤ s.now → ¬ Free s → GivesUp s p

/-- No process is in `try_lock`, or behind the deadline of `try_lock_until`, while the mutex
is held. -/
def Uncontended (s : State P) : Prop :=
  ∀ p, (s.call p = some .tryLock → Free s) ∧
    ∀ absTime, s.call p = some (.tryLockUntil absTime) → absTime ≤ s.now → Free s

/-! ### The semaphore -/

/-- The semaphore counts the processes that may still get the mutex. -/
def Balanced (s : State P) : Prop :=
  s.value = 1 ∧ Free s ∨ s.value = 0 ∧ ∃ p, ∀ q, s.holds q = true ↔ q = p

theorem Balanced.exclusive {s : State P} (h : Balanced s) : Exclusive s := by
  intro p q hp hq
  rcases h with ⟨-, hfree⟩ | ⟨-, r, hr⟩
  · rw [hfree p] at hp
    cases hp
  · exact ((hr p).mp hp).trans ((hr q).mp hq).symm

theorem Balanced.free_iff {s : State P} (h : Balanced s) : Free s ↔ 0 < s.value := by
  rcases h with ⟨hvalue, hfree⟩ | ⟨hvalue, p, hp⟩
  · exact iff_of_true hfree (by omega)
  · refine iff_of_false (fun hfree => ?_) (by omega)
    have hholds := (hp p).mpr rfl
    rw [hfree p] at hholds
    cases hholds

/-- What a system call that ends has done: it has decremented the semaphore, or it has run
into its deadline. -/
theorem system_cases {call : Call} {now : ℤ} {value : ℕ} {r : SystemResult}
    (h : call.system now value = some r) :
    0 < value ∧ r = ⟨0, 0, value - 1⟩ ∨
      value = 0 ∧ r = ⟨-1, eTimedOut, 0⟩ ∧ ∃ absTime, call = .tryLockUntil absTime := by
  by_cases hvalue : 0 < value
  · refine .inl ⟨hvalue, ?_⟩
    cases call <;> simpa [Call.system, semWait, semTimedwait, hvalue, eq_comm] using h
  · obtain rfl : value = 0 := by omega
    refine .inr ⟨rfl, ?_⟩
    cases call with
    | lock => simp [Call.system, semWait] at h
    | tryLock => simp [Call.system, semWait] at h
    | tryLockUntil absTime =>
        simp only [Call.system, semTimedwait, Nat.lt_irrefl, if_false] at h
        split at h
        next => exact ⟨(Option.some.inj h).symm, absTime, rfl⟩
        next => cases h

variable [DecidableEq P]

/-- A call that ends has locked the mutex, or it throws at its deadline and leaves everything
else as it is. -/
theorem step_finish {s s' : State P} {p : P} (h : step s (.finish p) = some s') :
    (0 < s.value ∧ s'.value = s.value - 1 ∧ s'.holds = Function.update s.holds p true ∧
        s'.result p = some (.returned true)) ∨
      (s.value = 0 ∧ s'.value = 0 ∧ s'.holds = s.holds ∧
        s'.result p = some (.threw eTimedOut)) := by
  simp only [step, Option.bind_eq_bind, Option.bind_eq_some_iff] at h
  obtain ⟨call, -, r, hr, h⟩ := h
  rcases system_cases hr with ⟨hvalue, rfl⟩ | ⟨hvalue, rfl, absTime, rfl⟩
  · have hfinish : call.finish 0 0 = .returned true := by cases call <;> rfl
    dsimp only at h
    rw [hfinish] at h
    obtain rfl := Option.some.inj h
    exact .inl ⟨hvalue, by simp⟩
  · have hfinish : (Call.tryLockUntil absTime).finish (-1) eTimedOut = .threw eTimedOut := rfl
    dsimp only at h
    rw [hfinish] at h
    obtain rfl := Option.some.inj h
    exact .inr ⟨hvalue, by simp⟩

theorem balanced_start : Balanced (mutex P).start := .inl ⟨rfl, fun _ => rfl⟩

/-- Every step keeps the semaphore balanced. -/
theorem Balanced.step {s s' : State P} {e : Event P} (h : Balanced s)
    (hstep : NamedMutex.step s e = some s') : Balanced s' := by
  cases e with
  | enter p call =>
      rw [NamedMutex.step] at hstep
      split at hstep
      next =>
        obtain rfl := Option.some.inj hstep
        exact h
      next => cases hstep
  | finish p =>
      rcases step_finish hstep with ⟨hpos, hvalue, hholds, -⟩ | ⟨hzero, hvalue, hholds, -⟩
      · have hfree := h.free_iff.mpr hpos
        have hone : s.value = 1 := by
          rcases h with ⟨hone, -⟩ | ⟨hzero, -⟩
          · exact hone
          · omega
        refine .inr ⟨by omega, p, fun q => ?_⟩
        rw [hholds, Function.update_apply, hfree q]
        simp
      · rcases h with ⟨hone, -⟩ | ⟨-, hheld⟩
        · omega
        · rw [Balanced, hvalue, hholds]
          exact .inr ⟨rfl, hheld⟩
  | unlock p =>
      rw [NamedMutex.step] at hstep
      split at hstep
      next hp =>
        obtain rfl := Option.some.inj hstep
        rcases h with ⟨-, hfree⟩ | ⟨hzero, q, hq⟩
        · exact absurd hp.2 (by simp [hfree p])
        · obtain rfl := (hq p).mp hp.2
          refine .inl ⟨by dsimp only; omega, fun r => ?_⟩
          dsimp only
          rw [Function.update_apply]
          split
          next => rfl
          next hr => exact Bool.eq_false_iff.mpr (mt (hq r).mp hr)
      next => cases hstep
  | tick n =>
      obtain rfl := Option.some.inj hstep
      exact h

theorem balanced_of_reachable {s : State P} (h : (mutex P).Reachable s) : Balanced s :=
  h.invariant balanced_start fun _ _ _ hs _ hstep => hs.step hstep

/-- No call ever returns false. -/
theorem not_givesUp (s : State P) (p : P) : ¬ GivesUp s p := by
  rintro ⟨s', hstep, hresult, -⟩
  rcases step_finish hstep with ⟨-, -, -, htrue⟩ | ⟨-, -, -, hthrew⟩
  · rw [hresult] at htrue
    cases htrue
  · rw [hresult] at hthrew
    cases hthrew

/-- A call of `try_lock` ends if there is something to decrement. -/
theorem isSome_tryLock {s : State P} {p : P} (h : s.call p = some .tryLock) :
    (step s (.finish p)).isSome = true ↔ 0 < s.value := by
  by_cases hvalue : 0 < s.value <;> simp [step, h, Call.system, semWait, hvalue]

/-- **Mutual exclusion and its limits.** In every state of every run at most one process
holds the mutex, and `try_lock` and `try_lock_until` do what they should exactly if nobody
holds it when it matters to them. -/
theorem mutexKept_iff {s : State P} (h : (mutex P).Reachable s) :
    Exclusive s ∧ (MutexKept s ↔ Uncontended s) := by
  have hs := balanced_of_reachable h
  refine ⟨hs.exclusive, fun ⟨_, hkept⟩ p => ⟨fun hcall => ?_, fun absTime hcall hlate => ?_⟩,
    fun hfree => ⟨hs.exclusive, fun p => ⟨fun hcall => ⟨?_, ?_⟩,
      fun absTime hcall hlate hheld => ?_⟩⟩⟩
  · exact hs.free_iff.mpr ((isSome_tryLock hcall).mp ((hkept p).1 hcall).1)
  · by_contra hheld
    exact not_givesUp s p ((hkept p).2 absTime hcall hlate hheld)
  · exact (isSome_tryLock hcall).mpr (hs.free_iff.mp ((hfree p).1 hcall))
  · rintro ⟨q, -, hq⟩
    rw [(hfree p).1 hcall q] at hq
    cases hq
  · exact absurd ((hfree p).2 absTime hcall hlate) hheld

/-- One of two processes holds the mutex, or one is in `try_lock` and the other one in
`try_lock_until` while it is free. -/
theorem mutexKept_iff_locked :
    (∃ s : State Bool, s.holds true = true ∧ Exclusive s ∧ (MutexKept s ↔ Uncontended s)) ∧
    ∃ s : State Bool, s.call true = some .tryLock ∧ s.call false = some (.tryLockUntil 4) ∧
      MutexKept s :=
  ⟨⟨_, rfl, mutexKept_iff (.step (.step .start (e := .enter true .lock) trivial rfl)
      (e := .finish true) trivial rfl)⟩,
    ⟨_, rfl, rfl, (mutexKept_iff (.step (.step .start (e := .enter true .tryLock) trivial rfl)
      (e := .enter false (.tryLockUntil 4)) trivial rfl)).2.mpr fun _ =>
        ⟨fun _ _ => rfl, fun _ _ _ _ => rfl⟩⟩⟩

/-- While one process holds the mutex, `try_lock` of another one waits. -/
theorem mutexKept_fails : ¬ ∀ s : State Bool, (mutex Bool).Reachable s → MutexKept s := by
  intro h
  have hkept := h _ (.step (.step (.step .start (e := .enter true .lock) trivial rfl)
    (e := .finish true) trivial rfl) (e := .enter false .tryLock) trivial rfl)
  exact absurd ((isSome_tryLock rfl).mp ((hkept.2 false).1 rfl).1) (by decide)

end NamedMutex

end RsIo
