import RsIo.Progress
import RsIo.ThreadPoolJobs

/-!
# The Destruction of a Thread Pool

`~ThreadPool` clears the queues, waits until the counter is zero, tells the workers to stop, and
joins them. Meanwhile the workers run the jobs they have, and these may call `insert` and `poll`.
The other functions wait for the jobs, and a job that calls one of them waits for itself.

The thread that runs the destructor is the caller `c`. Any other caller `d` is the worker `on d`,
in a job that it runs. A thread that can take its next step again and again takes it, also one
that waits for a mutex. So a mutex starves nobody, and a job ends.

## Main results

* `reachable_counts`: the counter `clear_count_` counts the callers that are in `clear()`.
* `mutex_released`: no mutex is held for ever.
* `destroy_returns`: the destructor returns. The workers have stopped, and every job that was
  accepted is finished or discarded.
-/

namespace RsIo

namespace ThreadPool

variable {C : Type} {n : ℕ}

/-! ### What a step changes -/

/-- The caller is in no function. -/
def CallerPc.rests : CallerPc n → Bool
  | .idle | .returned _ => true
  | _ => false

/-- One if the caller is in `clear()`. -/
def CallerPc.clearing : CallerPc n → ℤ
  | .clearNext _ _ | .clearSubtract _ _ | .clearDiscard _ _ | .clearWait _ | .clearLeave _ => 1
  | _ => 0

/-- A caller is in `clear()` once at most. -/
theorem CallerPc.clearing_nonneg (p : CallerPc n) : 0 ≤ p.clearing := by
  cases p <;> simp [clearing]

variable [DecidableEq C] {s s' : State C n}

/-- What every step of a caller does. -/
structure CallerMoved (s s' : State C n) (c : C) (p : CallerPc n) : Prop where
  caller : s'.caller = Function.update s.caller c p
  thread : s'.thread = s.thread
  clears : s'.clearCount = s.clearCount + p.clearing - (s.caller c).clearing
  shutting : s'.shuttingDown = (s.shuttingDown || decide (s.caller c = .shutDown))

/-- What a caller can do in one step. -/
theorem callerStep_moved [NeZero n] {c : C} {expired : Bool}
    (h : s.callerStep c expired = some s') : ∃ p, CallerMoved s s' c p := by
  cases hpc : s.caller c <;> simp only [State.callerStep, hpc] at h
  case idle | returned => cases h
  case insertLock =>
      obtain ⟨s₁, hlock, rfl⟩ := Option.map_eq_some_iff.mp h
      obtain ⟨-, rfl⟩ := State.lock_eq_some hlock
      exact ⟨_, rfl, rfl, by simp [State.setCaller, CallerPc.clearing, hpc],
        by simp [State.setCaller, hpc]⟩
  case clearNext =>
      split at h
      next =>
        obtain ⟨s₁, hlock, rfl⟩ := Option.map_eq_some_iff.mp h
        obtain ⟨-, rfl⟩ := State.lock_eq_some hlock
        exact ⟨_, rfl, rfl, by simp [State.setCaller, CallerPc.clearing, hpc],
          by simp [State.setCaller, hpc]⟩
      next =>
        obtain rfl := Option.some.inj h
        exact ⟨_, rfl, rfl, by simp [State.setCaller, CallerPc.clearing, hpc],
          by simp [State.setCaller, hpc]⟩
  case join =>
      split at h
      next =>
        obtain rfl := Option.some.inj h
        exact ⟨_, rfl, rfl, by simp [State.setCaller, CallerPc.clearing, hpc],
          by simp [State.setCaller, hpc]⟩
      next => cases h
  case shutDown =>
      obtain rfl := Option.some.inj h
      exact ⟨_, rfl, rfl, by simp [State.setCaller, CallerPc.clearing, hpc],
        by simp [State.setCaller, hpc]⟩
  all_goals
    obtain rfl := Option.some.inj h
    refine ⟨_, rfl, rfl, ?_, ?_⟩
  all_goals
    simp only [State.setCaller, State.setUnfinished, State.setHistory, State.setQueue,
      State.unlock, hpc]
    try split
    all_goals simp [CallerPc.clearing]

/-- What every step of a worker leaves as it is. -/
structure WorkerMoved (s s' : State C n) (w : Fin n) (p : WorkerPc n) : Prop where
  thread : s'.thread = Function.update s.thread w p
  caller : s'.caller = s.caller
  clears : s'.clearCount = s.clearCount
  shutting : s'.shuttingDown = s.shuttingDown
  stops : p = .stopped → s.shuttingDown = true

omit [DecidableEq C] in
/-- What a worker can do in one step. -/
theorem workerStep_moved {w k : Fin n} (h : s.workerStep w k = some s') :
    ∃ p, WorkerMoved s s' w p := by
  cases hpc : s.thread w <;> simp only [State.workerStep, hpc] at h
  case fetch | stealLock =>
      obtain ⟨s₁, hlock, rfl⟩ := Option.map_eq_some_iff.mp h
      obtain ⟨-, rfl⟩ := State.lock_eq_some hlock
      exact ⟨_, rfl, rfl, rfl, rfl, nofun⟩
  case fetchLocked | stealLocked =>
      split at h <;> exact Option.some.inj h ▸ ⟨_, rfl, rfl, rfl, rfl, nofun⟩
  case check =>
      obtain rfl := Option.some.inj h
      refine ⟨_, rfl, rfl, rfl, rfl, fun hstop => ?_⟩
      split at hstop
      next hshut => exact hshut
      next => cases hstop
  case stopped => cases h
  all_goals exact Option.some.inj h ▸ ⟨_, rfl, rfl, rfl, rfl, nofun⟩

/-- A call starts a function. -/
theorem call_moved [NeZero n] {c : C} {f : Call} (h : s.next (.call c f) = some s') :
    (s.caller c).rests = true ∧ s' = s.setCaller c f.entry := by
  simp only [State.next] at h
  split at h
  next hpc => exact ⟨by rw [hpc]; rfl, (Option.some.inj h).symm⟩
  next hpc => exact ⟨by rw [hpc]; rfl, (Option.some.inj h).symm⟩
  next => cases h

/-- A caller that rests is not in `clear()`. -/
theorem CallerPc.clearing_of_rests {p : CallerPc n} (h : p.rests = true) : p.clearing = 0 := by
  cases p <;> first | rfl | cases h

/-- No call begins inside `clear()`. -/
theorem Call.entry_clearing (f : Call) : (f.entry : CallerPc n).clearing = 0 := by
  cases f <;> rfl

/-- The counter counts the callers that are in `clear()`, and a worker stops for no other reason
than that the destructor told it to. -/
theorem reachable_counts [NeZero n] [Fintype C] (h : (pool C n).Reachable s) :
    s.clearCount = ∑ c, (s.caller c).clearing ∧
      ∀ w, s.thread w = .stopped → s.shuttingDown = true := by
  refine h.invariant (I := fun s => s.clearCount = ∑ c, (s.caller c).clearing ∧
    ∀ w, s.thread w = .stopped → s.shuttingDown = true) ?_ ?_
  · exact ⟨by simp [pool, CallerPc.clearing], fun w hw => by cases hw⟩
  rintro s e s' ⟨hcount, hstop⟩ - hnext
  cases e with
  | call c f =>
      obtain ⟨hrests, rfl⟩ := call_moved hnext
      refine ⟨hcount.trans (sum_update_same CallerPc.clearing ?_).symm, hstop⟩
      rw [Call.entry_clearing, CallerPc.clearing_of_rests hrests]
  | caller c expired =>
      obtain ⟨p, hcaller, hthread, hclears, hshut⟩ := callerStep_moved hnext
      constructor
      · have hsum := sum_update_gain CallerPc.clearing (f := s.caller) (i := c) (x := p)
          (d := p.clearing - (s.caller c).clearing) (by omega)
        rw [hcaller, hclears, hsum, hcount]
        omega
      · intro w hw
        rw [hthread] at hw
        rw [hshut, hstop w hw, Bool.true_or]
  | worker w k =>
      obtain ⟨p, hthread, hcaller, hclears, hshut, hstops⟩ := workerStep_moved hnext
      refine ⟨by rw [hcaller, hclears, hcount], fun v hv => ?_⟩
      rw [hshut]
      rw [hthread] at hv
      rcases eq_or_ne v w with rfl | hne
      · rw [Function.update_self] at hv
        exact hstops hv
      · rw [Function.update_of_ne hne] at hv
        exact hstop v hv

/-! ### The destructor and the jobs -/

/-- The worker runs a job. -/
def WorkerPc.calls : WorkerPc n → Bool
  | .calling _ => true
  | _ => false

/-- The caller is in a function that a job may call. -/
def CallerPc.inJob : CallerPc n → Bool
  | .insertCheck | .insertIndex | .insertNext _ | .insertLock _ | .insertCount _ | .insertPush _
  | .poll => true
  | _ => false

/-- The caller is in the destructor. -/
def CallerPc.destroys : CallerPc n → Bool
  | .clearEnter final | .clearNext _ final | .clearSubtract _ final | .clearDiscard _ final
  | .clearWait final | .clearLeave final => final
  | .shutDown | .join => true
  | _ => false

/-- The caller is in the destructor, and has found that the counter is zero. -/
def CallerPc.leaves : CallerPc n → Bool
  | .clearLeave final => final
  | .shutDown | .join => true
  | _ => false

/-- What can happen while the destructor runs: the jobs call `insert` and `poll`, and a job ends
when it is in no call. -/
def Allowed [Fintype C] (on : C → Option (Fin n)) (s : State C n) : Event C n → Bool
  | .call d f =>
      (f = .insert || f = .poll) && decide (∃ w, on d = some w ∧ (s.thread w).calls = true)
  | .caller _ _ => true
  | .worker w _ => !(s.thread w).calls || decide (∀ d, on d = some w → (s.caller d).rests = true)

/-- The pool from the state `s` on, in which the destructor was called. Time may also pass. -/
def destroyer [NeZero n] [Fintype C] (on : C → Option (Fin n)) (s : State C n) :
    Machine (State C n) (Option (Event C n)) where
  start := s
  next s
    | none => some s
    | some e => if Allowed on s e then s.next e else none

/-- The thread takes its next step. -/
def Acts : Thread C n → Option (Event C n) → Prop
  | .caller c, some (.caller d _) => d = c
  | .worker w, some (.worker v _) => v = w
  | _, _ => False

/-- The pool while the caller `c` is in the destructor. -/
structure Destroying [NeZero n] (c : C) (on : C → Option (Fin n)) (s : State C n) : Prop where
  reach : (pool C n).Reachable s
  destroys : (s.caller c).destroys = true
  jobs : ∀ d, d ≠ c → (s.caller d).rests = true ∨
    (s.caller d).inJob = true ∧ ∃ w, on d = some w ∧ (s.thread w).calls = true
  shutting : s.shuttingDown = true ↔ s.caller c = .join
  quiet : (s.caller c).leaves = true →
    (∀ w, s.queue w = []) ∧ (∀ w, (s.thread w).hold = .nothing) ∧ s.unfinishedJobs = 0

/-- The pool after its destruction. -/
structure Destroyed (c : C) (s : State C n) : Prop where
  caller : ∀ d, (s.caller d).rests = true
  stopped : ∀ w, s.thread w = .stopped
  queue : ∀ w, s.queue w = []
  mutex : ∀ w, s.mutex w = none
  unfinished : s.unfinishedJobs = 0
  settled : ∀ j < s.history.accepted,
    s.history.executed.count j + s.history.discarded.count j = 1

section

variable [NeZero n] {c : C} {on : C → Option (Fin n)}

omit [NeZero n] in
/-- The caller of the destructor does not rest. -/
theorem CallerPc.rests_of_destroys {p : CallerPc n} (h : p.destroys = true) : p.rests = false := by
  cases p <;> first | rfl | cases h

omit [NeZero n] in
/-- A caller that rests is in no section. -/
theorem CallerPc.sec_of_rests {p : CallerPc n} (h : p.rests = true) : p.sec = none := by
  cases p <;> first | rfl | cases h

omit [NeZero n] in
/-- A worker that calls a job holds it. -/
theorem WorkerPc.hold_of_calls {p : WorkerPc n} (h : p.calls = true) : p.hold ≠ .nothing := by
  cases p <;> simp_all [calls, hold]

omit [NeZero n] in
/-- A caller inside a job does not rest. -/
theorem CallerPc.rests_of_inJob {p : CallerPc n} (h : p.inJob = true) : p.rests = false := by
  cases p <;> first | rfl | cases h

/-- A caller that rests takes no step. -/
theorem callerStep_rests {d : C} {expired : Bool} (hrests : (s.caller d).rests = true) :
    s.callerStep d expired = none := by
  cases hpc : s.caller d <;> rw [hpc] at hrests <;> try cases hrests
  all_goals simp only [State.callerStep, hpc]

/-- A function that a job calls is left, or goes on. -/
theorem callerStep_inJob {d : C} {expired : Bool} (hjob : (s.caller d).inJob = true)
    (h : s.callerStep d expired = some s') :
    (s'.caller d).rests = true ∨ (s'.caller d).inJob = true := by
  cases hpc : s.caller d <;> rw [hpc] at hjob <;> try cases hjob
  all_goals simp only [State.callerStep, hpc] at h
  case insertLock =>
      obtain ⟨s₁, -, rfl⟩ := Option.map_eq_some_iff.mp h
      exact .inr (by simp [State.setCaller, CallerPc.inJob])
  case insertCheck =>
      obtain rfl := Option.some.inj h
      by_cases hclear : s.clearCount = 0
      · exact .inr (by simp [State.setCaller, CallerPc.inJob, hclear])
      · exact .inl (by simp [State.setCaller, CallerPc.rests, hclear])
  case insertPush | poll =>
      obtain rfl := Option.some.inj h
      exact .inl (by simp [State.setCaller, CallerPc.rests])
  all_goals
    obtain rfl := Option.some.inj h
    exact .inr (by simp [State.setCaller, CallerPc.inJob])

namespace Destroying

variable (h : Destroying c on s)
include h

/-- Every mutex is held by a thread that is in its section. -/
theorem owned : Owned s.sec s.mutex :=
  (reachable_balanced h.reach).1

/-- Every job is accounted for. -/
theorem balanced : s.ledger.Balanced :=
  (reachable_balanced h.reach).2

/-- When the counter is zero the queues are empty, no worker has a job, and no job is in a
call. -/
theorem idle (hpc : s.caller c = .clearWait true) (hzero : s.unfinishedJobs = 0) :
    (∀ w, s.queue w = []) ∧ ∀ w, (s.thread w).hold = .nothing := by
  have hcounter := h.balanced.counter
  have howed : 0 ≤ ∑ w, (s.ledger.slot w).owed :=
    Finset.sum_nonneg fun w _ => (s.ledger.slot w).owed_nonneg
  have hhand : 0 ≤ ∑ w, (s.ledger.hold w).count :=
    Finset.sum_nonneg fun w _ => (s.ledger.hold w).count_nonneg
  have hunfinished : s.ledger.unfinished = 0 := hzero
  have howed0 : ∑ w, (s.ledger.slot w).owed = 0 := by omega
  have hhand0 : ∑ w, (s.ledger.hold w).count = 0 := by omega
  rw [Finset.sum_eq_zero_iff_of_nonneg fun w _ => (s.ledger.slot w).owed_nonneg] at howed0
  rw [Finset.sum_eq_zero_iff_of_nonneg fun w _ => (s.ledger.hold w).count_nonneg] at hhand0
  have hhold : ∀ w, (s.thread w).hold = .nothing := by
    intro w
    have hw : (s.thread w).hold.count = 0 := hhand0 w (Finset.mem_univ w)
    cases hkeep : (s.thread w).hold <;> rw [hkeep] at hw <;> first | rfl | cases hw
  refine ⟨fun w => ?_, hhold⟩
  have hw := howed0 w (Finset.mem_univ w)
  simp only [State.ledger, Slot.owed] at hw
  split at hw
  next hphase =>
    -- only a caller of `clear()` subtracts, and there is none but `c`
    exfalso
    obtain ⟨t, ht, hsec⟩ := Option.bind_eq_some_iff.mp hphase
    obtain ⟨⟨i, p⟩, hsec, rfl⟩ := Option.map_eq_some_iff.mp hsec
    cases t with
    | worker v => simp only [State.sec, WorkerPc.sec] at hsec; split at hsec <;> cases hsec
    | caller d =>
        simp only [State.sec, CallerPc.sec] at hsec
        split at hsec <;> cases hsec
        next k final hd =>
          rcases eq_or_ne d c with rfl | hne
          · rw [hpc] at hd
            cases hd
          · rcases h.jobs d hne with hrests | ⟨hjob, -⟩
            · rw [hd] at hrests
              cases hrests
            · rw [hd] at hjob
              cases hjob
  next => omega
  next => exact List.length_eq_zero_iff.mp (by omega)

/-- While the destructor leaves, no job is in a call. -/
theorem rests_of_leaves (hleaves : (s.caller c).leaves = true) {d : C} (hd : d ≠ c) :
    (s.caller d).rests = true := by
  rcases h.jobs d hd with hrests | ⟨-, w, -, hcalls⟩
  · exact hrests
  · exact absurd ((h.quiet hleaves).2.1 w) (WorkerPc.hold_of_calls hcalls)

/-- A step of a worker. -/
theorem worker {w k : Fin n} (hnext : s.workerStep w k = some s')
    (hends : (s.thread w).calls = true → ∀ d, on d = some w → (s.caller d).rests = true) :
    Destroying c on s' := by
  obtain ⟨p, hthread, hcaller, -, hshut, -⟩ := workerStep_moved hnext
  refine ⟨.step (e := .worker w k) h.reach trivial hnext, hcaller ▸ h.destroys, ?_, ?_, ?_⟩
  · intro d hd
    rw [hcaller]
    rcases h.jobs d hd with hrests | ⟨hjob, v, hv, hcalls⟩
    · exact .inl hrests
    refine .inr ⟨hjob, v, hv, ?_⟩
    rcases eq_or_ne v w with rfl | hne
    · have hrests := hends hcalls d hv
      rw [CallerPc.rests_of_inJob hjob] at hrests
      cases hrests
    · rwa [hthread, Function.update_of_ne hne]
  · rw [hshut, hcaller, h.shutting]
  · intro hleaves
    rw [hcaller] at hleaves
    obtain ⟨hqueue, hhold, hzero⟩ := h.quiet hleaves
    have hother : ∀ {q : WorkerPc n}, s'.thread = Function.update s.thread w q →
        q.hold = .nothing → ∀ v, (s'.thread v).hold = .nothing := by
      intro q hq hnothing v
      rw [hq]
      rcases eq_or_ne v w with rfl | hne
      · rwa [Function.update_self]
      · rw [Function.update_of_ne hne, hhold v]
    have hw := hhold w
    cases hpc : s.thread w <;> simp only [State.workerStep, hpc] at hnext
    case popped | calling | called => rw [hpc] at hw; cases hw
    case stopped => cases hnext
    case fetch | stealLock =>
        obtain ⟨s₁, hlock, rfl⟩ := Option.map_eq_some_iff.mp hnext
        obtain ⟨-, rfl⟩ := State.lock_eq_some hlock
        exact ⟨hqueue, hother rfl rfl, hzero⟩
    case fetchLocked | stealLocked =>
        simp only [hqueue, List.getLast?_nil] at hnext
        obtain rfl := Option.some.inj hnext
        exact ⟨hqueue, hother rfl rfl, hzero⟩
    case steal =>
        obtain rfl := Option.some.inj hnext
        exact ⟨hqueue, hother rfl rfl, hzero⟩
    case check =>
        obtain rfl := Option.some.inj hnext
        exact ⟨hqueue, hother rfl (by split <;> rfl), hzero⟩

/-- A step of a job that is in a call. -/
theorem job {d : C} (hd : d ≠ c) {expired : Bool} (hnext : s.callerStep d expired = some s') :
    Destroying c on s' := by
  obtain ⟨hjob, w, hw, hcalls⟩ := (h.jobs d hd).resolve_left fun hrests => by
    rw [callerStep_rests hrests] at hnext
    cases hnext
  obtain ⟨p, hcaller, hthread, -, hshut⟩ := callerStep_moved hnext
  have hother : ∀ v, v ≠ d → s'.caller v = s.caller v := fun v hv => by
    rw [hcaller, Function.update_of_ne hv]
  have hsame : s'.shuttingDown = s.shuttingDown := by
    cases hpc : s.caller d <;> rw [hpc] at hjob hshut <;> try cases hjob
    all_goals simpa using hshut
  refine ⟨.step (e := .caller d expired) h.reach trivial hnext, ?_, fun v hv => ?_, ?_, ?_⟩
  · rw [hother c hd.symm]
    exact h.destroys
  · rw [hthread]
    rcases eq_or_ne v d with rfl | hne
    · exact (callerStep_inJob hjob hnext).imp_right fun hjob => ⟨hjob, w, hw, hcalls⟩
    · rw [hother v hne]
      exact h.jobs v hv
  · rw [hsame, hother c hd.symm]
    exact h.shutting
  · intro hleaves
    rw [hother c hd.symm] at hleaves
    have hrests := h.rests_of_leaves hleaves hd
    rw [CallerPc.rests_of_inJob hjob] at hrests
    cases hrests

/-- A job calls a function. -/
theorem call {d : C} {f : Call} (hd : d ≠ c) (hf : f = .insert ∨ f = .poll)
    (hjob : ∃ w, on d = some w ∧ (s.thread w).calls = true)
    (hnext : s.next (.call d f) = some s') : Destroying c on s' := by
  have hreach : (pool C n).Reachable s' := .step (e := .call d f) h.reach trivial hnext
  obtain ⟨-, rfl⟩ := call_moved hnext
  have hself : (s.setCaller d f.entry).caller c = s.caller c := Function.update_of_ne hd.symm ..
  refine ⟨hreach, hself ▸ h.destroys, fun v hv => ?_, hself ▸ h.shutting, hself ▸ h.quiet⟩
  rcases eq_or_ne v d with rfl | hne
  · refine .inr ⟨?_, hjob⟩
    have hentry : (s.setCaller v f.entry).caller v = f.entry := Function.update_self ..
    rw [hentry]
    rcases hf with rfl | rfl <;> rfl
  · have hother : (s.setCaller d f.entry).caller v = s.caller v := Function.update_of_ne hne ..
    rw [hother]
    exact h.jobs v hv

/-- The destructor moves on to `p`. -/
theorem own_of {p : CallerPc n} (hreach : (pool C n).Reachable s')
    (hcaller : s'.caller = Function.update s.caller c p) (hthread : s'.thread = s.thread)
    (hp : p.destroys = true) (hshut : s'.shuttingDown = true ↔ p = .join)
    (hquiet : p.leaves = true → (∀ w, s'.queue w = []) ∧ (∀ w, (s'.thread w).hold = .nothing) ∧
      s'.unfinishedJobs = 0) :
    Destroying c on s' := by
  have hself : s'.caller c = p := by rw [hcaller, Function.update_self]
  refine ⟨hreach, hself ▸ hp, fun d hd => ?_, hself ▸ hshut, hself ▸ hquiet⟩
  rw [hcaller, hthread, Function.update_of_ne hd]
  exact h.jobs d hd

/-- The destructor moves on inside `clear()`. -/
theorem stays {p : CallerPc n} (hreach : (pool C n).Reachable s')
    (hcaller : s'.caller = Function.update s.caller c p) (hthread : s'.thread = s.thread)
    (hsame : s'.shuttingDown = s.shuttingDown) (hp : p.destroys = true)
    (hleaves : p.leaves = false) (hjoin : s.caller c ≠ .join) : Destroying c on s' := by
  have hp' : p ≠ .join := by
    rintro rfl
    cases hleaves
  refine h.own_of hreach hcaller hthread hp ?_ fun hquiet => ?_
  · rw [hsame, h.shutting]
    exact iff_of_false hjoin hp'
  · rw [hleaves] at hquiet
    cases hquiet

/-- The destructor returns. -/
theorem destroyed (hpc : s.caller c = .join) (hstopped : ∀ w, s.thread w = .stopped) :
    Destroyed c (s.setCaller c .idle) := by
  have hleaves : (s.caller c).leaves = true := by rw [hpc]; rfl
  obtain ⟨hqueue, -, hzero⟩ := h.quiet hleaves
  have hrests : ∀ d, ((s.setCaller c .idle).caller d).rests = true := by
    intro d
    rcases eq_or_ne d c with rfl | hd
    · simp [State.setCaller, CallerPc.rests]
    · have hother : (s.setCaller c .idle).caller d = s.caller d := Function.update_of_ne hd ..
      rw [hother]
      exact h.rests_of_leaves hleaves hd
  refine ⟨hrests, hstopped, hqueue, fun w => ?_, hzero, fun j hj => ?_⟩
  · by_contra hheld
    obtain ⟨t, ht⟩ := Option.ne_none_iff_exists'.mp hheld
    obtain ⟨p, hsec⟩ := (h.owned t w).mpr ht
    cases t with
    | worker v =>
        rw [State.sec, hstopped v] at hsec
        cases hsec
    | caller d =>
        rcases eq_or_ne d c with rfl | hd
        · rw [State.sec, hpc] at hsec
          cases hsec
        · have hd' := h.rests_of_leaves hleaves hd
          rw [State.sec, CallerPc.sec_of_rests hd'] at hsec
          cases hsec
  · have hplaces := h.balanced.places
    have hran := h.balanced.ran
    have hslot : ∀ w, (s.ledger.slot w).live = 0 := fun w => by
      simp only [State.ledger, Slot.live, hqueue w]
      split <;> rfl
    have hhold : ∀ w, s.ledger.hold w = .nothing := fun w => by
      simp only [State.ledger, hstopped w, WorkerPc.hold]
    simp only [hslot, hhold, Hold.jobs, Hold.started, Finset.sum_const_zero, zero_add,
      add_zero] at hplaces hran
    have hcount := congrArg (Multiset.count j) hplaces
    change j < s.ledger.history.accepted at hj
    rw [← hran, Multiset.count_add,
      Multiset.count_eq_one_of_mem (Multiset.nodup_range _) (Multiset.mem_range.mpr hj)] at hcount
    exact hcount

end Destroying

/-- How far the destructor is from its end. -/
def CallerPc.stage : CallerPc n → ℕ
  | .clearEnter _ => 3 * n + 10
  | .clearNext k _ => 3 * (n - k) + 6
  | .clearSubtract k _ => 3 * (n - k) + 5
  | .clearDiscard k _ => 3 * (n - k) + 4
  | .clearWait _ => 4
  | .clearLeave _ => 3
  | .shutDown => 2
  | .join => 1
  | _ => 0

/-- A step of the destructor: it returns, or comes closer to its end, or waits for the
counter. -/
theorem Destroying.own (h : Destroying c on s) {expired : Bool}
    (hnext : s.callerStep c expired = some s') :
    Destroyed c s' ∨ Destroying c on s' ∧ ((s'.caller c).stage < (s.caller c).stage ∨
      s' = s ∧ s.caller c = .clearWait true ∧ s.unfinishedJobs ≠ 0) := by
  have hreach : (pool C n).Reachable s' := .step (e := .caller c expired) h.reach trivial hnext
  have hdestroys := h.destroys
  have hshut : ∀ {p : CallerPc n}, s.caller c ≠ .join → p ≠ .join →
      s'.shuttingDown = s.shuttingDown → (s'.shuttingDown = true ↔ p = .join) := by
    intro p hc hp hsame
    rw [hsame, h.shutting]
    exact iff_of_false hc hp
  have hquiet := h.quiet
  have hmoved : ∀ {p : CallerPc n}, s'.caller = Function.update s.caller c p →
      p.stage < (s.caller c).stage → (s'.caller c).stage < (s.caller c).stage := by
    intro p hcaller hlt
    rwa [hcaller, Function.update_self]
  cases hpc : s.caller c <;> rw [hpc] at hdestroys hshut hquiet hmoved <;>
    try cases hdestroys
  case clearEnter =>
      simp only [State.callerStep, hpc] at hnext
      obtain rfl := Option.some.inj hnext
      refine .inr ⟨h.stays hreach rfl rfl rfl rfl rfl (by simp [hpc]), .inl (hmoved rfl ?_)⟩
      simp only [CallerPc.stage]
      omega
  case clearNext k =>
      simp only [State.callerStep, hpc] at hnext
      split at hnext
      next hk =>
        obtain ⟨s₁, hlock, rfl⟩ := Option.map_eq_some_iff.mp hnext
        obtain ⟨-, rfl⟩ := State.lock_eq_some hlock
        refine .inr ⟨h.stays hreach rfl rfl rfl rfl rfl (by simp [hpc]), .inl (hmoved rfl ?_)⟩
        simp only [CallerPc.stage]
        omega
      next hk =>
        obtain rfl := Option.some.inj hnext
        refine .inr ⟨h.stays hreach rfl rfl rfl rfl rfl (by simp [hpc]), .inl (hmoved rfl ?_)⟩
        simp only [CallerPc.stage]
        omega
  case clearSubtract k =>
      simp only [State.callerStep, hpc] at hnext
      obtain rfl := Option.some.inj hnext
      refine .inr ⟨h.stays hreach rfl rfl rfl rfl rfl (by simp [hpc]), .inl (hmoved rfl ?_)⟩
      simp only [CallerPc.stage]
      omega
  case clearDiscard k =>
      simp only [State.callerStep, hpc] at hnext
      obtain rfl := Option.some.inj hnext
      refine .inr ⟨h.stays hreach rfl rfl rfl rfl rfl (by simp [hpc]), .inl (hmoved rfl ?_)⟩
      have hk := k.isLt
      simp only [CallerPc.stage]
      omega
  case clearWait =>
      simp only [State.callerStep, hpc] at hnext
      obtain rfl := Option.some.inj hnext
      by_cases hzero : s.unfinishedJobs = 0
      · obtain ⟨hqueue, hhold⟩ := h.idle hpc hzero
        simp only [hzero, if_true] at hreach hmoved ⊢
        exact .inr ⟨h.own_of hreach rfl rfl rfl (hshut (by simp) (by simp) rfl)
          fun _ => ⟨hqueue, hhold, hzero⟩, .inl (hmoved rfl (by simp [CallerPc.stage]))⟩
      · have hsame : s.setCaller c (if s.unfinishedJobs = 0 then .clearLeave true
            else .clearWait true) = s := by
          rw [if_neg hzero, State.setCaller, ← hpc, Function.update_eq_self]
        rw [hsame]
        exact .inr ⟨h, .inr ⟨rfl, rfl, hzero⟩⟩
  case clearLeave =>
      simp only [State.callerStep, hpc] at hnext
      obtain rfl := Option.some.inj hnext
      exact .inr ⟨h.own_of hreach rfl rfl rfl (hshut (by simp) (by simp) rfl) fun _ => hquiet rfl,
        .inl (hmoved rfl (by simp [CallerPc.stage]))⟩
  case shutDown =>
      simp only [State.callerStep, hpc] at hnext
      obtain rfl := Option.some.inj hnext
      exact .inr ⟨h.own_of hreach rfl rfl rfl ⟨fun _ => rfl, fun _ => rfl⟩ fun _ => hquiet rfl,
        .inl (hmoved rfl (by simp [CallerPc.stage]))⟩
  case join =>
      simp only [State.callerStep, hpc] at hnext
      split at hnext
      next hstopped =>
        obtain rfl := Option.some.inj hnext
        exact .inl (h.destroyed hpc hstopped)
      next => cases hnext

/-! ### Who is able to act -/

/-- The mutex that a caller is about to take. -/
def CallerPc.wants : CallerPc n → Option (Fin n)
  | .insertLock index => some index
  | .clearNext k _ => if h : k < n then some ⟨k, h⟩ else none
  | _ => none

/-- The mutex that the worker `w` is about to take. -/
def WorkerPc.wants (w : Fin n) : WorkerPc n → Option (Fin n)
  | .fetch => some w
  | .stealLock k => some k
  | _ => none

omit [DecidableEq C] [NeZero n] in
/-- A free mutex can be locked. -/
theorem lock_free {i : Fin n} {t : Thread C n} (hfree : s.mutex i = none) :
    (s.lock i t).isSome := by
  simp [State.lock, hfree]

/-- A caller can go on if the mutex it waits for is free. -/
theorem callerStep_isSome {d : C} (hrests : (s.caller d).rests = false)
    (hjoin : s.caller d ≠ .join) (hfree : ∀ i, (s.caller d).wants = some i → s.mutex i = none) :
    (s.callerStep d false).isSome := by
  cases hpc : s.caller d <;> rw [hpc] at hrests hjoin hfree <;>
    simp only [State.callerStep, hpc, Option.isSome_map, Option.isSome_some]
  case idle | returned => cases hrests
  case join => exact absurd rfl hjoin
  case insertLock => exact lock_free (hfree _ rfl)
  case clearNext k =>
      split
      next hk =>
        rw [Option.isSome_map]
        exact lock_free (hfree _ (dif_pos hk))
      next => rfl

omit [DecidableEq C] [NeZero n] in
/-- A worker can go on if the mutex it waits for is free. -/
theorem workerStep_isSome {w k : Fin n} (hstopped : s.thread w ≠ .stopped)
    (hfree : ∀ i, (s.thread w).wants w = some i → s.mutex i = none) :
    (s.workerStep w k).isSome := by
  cases hpc : s.thread w <;> rw [hpc] at hstopped hfree <;>
    simp only [State.workerStep, hpc, Option.isSome_map, Option.isSome_some]
  case fetch | stealLock => exact lock_free (hfree _ rfl)
  case fetchLocked | stealLocked => split <;> rfl
  case stopped => exact absurd rfl hstopped

omit [DecidableEq C] [NeZero n] in
/-- A step is of one thread. -/
theorem acts_unique {t u : Thread C n} {e : Option (Event C n)} (ht : Acts t e) (hu : Acts u e) :
    t = u := by
  rcases e with - | (⟨d, f⟩ | ⟨d, b⟩ | ⟨v, k⟩) <;> cases t <;> cases u <;> simp_all [Acts]

variable [Fintype C] {s₀ : State C n} {e : Option (Event C n)}

/-- A step of the destructor's machine is one of the pool, or time passes. -/
theorem destroyer_next (hnext : (destroyer on s₀).next s e = some s') :
    e = none ∧ s' = s ∨ ∃ x, e = some x ∧ Allowed on s x = true ∧ s.next x = some s' := by
  cases e with
  | none => exact .inl ⟨rfl, (Option.some.inj hnext).symm⟩
  | some x =>
      obtain ⟨hallowed, hx⟩ := Option.ite_none_right_eq_some.mp hnext
      exact .inr ⟨x, rfl, hallowed, hx⟩

/-- Nobody is able to act when the callers are in no function and the workers have stopped. -/
theorem not_enabled (hrests : ∀ d, (s.caller d).rests = true)
    (hstopped : ∀ w, s.thread w = .stopped) (t : Thread C n) :
    ¬ (destroyer on s₀).Enabled Acts t s := by
  rintro ⟨e, hacts, henabled⟩
  obtain ⟨s', hnext⟩ := Option.isSome_iff_exists.mp henabled
  rcases destroyer_next hnext with ⟨rfl, -⟩ | ⟨x, rfl, -, hx⟩
  · cases t <;> cases hacts
  cases x with
  | call => cases t <;> cases hacts
  | caller d b =>
      rw [State.next, callerStep_rests (hrests d)] at hx
      cases hx
  | worker w k =>
      simp only [State.next, State.workerStep, hstopped w] at hx
      cases hx

/-- A worker that does not act stays where it is. -/
theorem thread_keeps (hnext : (destroyer on s₀).next s e = some s') {w : Fin n}
    (hquiet : ¬ Acts (.worker w) e) : s'.thread w = s.thread w := by
  rcases destroyer_next hnext with ⟨-, rfl⟩ | ⟨x, rfl, -, hx⟩
  · rfl
  cases x with
  | call d f => exact (call_moved hx).2 ▸ rfl
  | caller d b =>
      obtain ⟨p, hmoved⟩ := callerStep_moved hx
      rw [hmoved.thread]
  | worker v k =>
      obtain ⟨p, hmoved⟩ := workerStep_moved hx
      rw [hmoved.thread, Function.update_of_ne (Ne.symm hquiet)]

/-- A caller that does not act, and is in a function, stays where it is. -/
theorem caller_keeps (hnext : (destroyer on s₀).next s e = some s') {d : C}
    (hquiet : ¬ Acts (.caller d) e) (hrests : (s.caller d).rests = false) :
    s'.caller d = s.caller d := by
  rcases destroyer_next hnext with ⟨-, rfl⟩ | ⟨x, rfl, -, hx⟩
  · rfl
  cases x with
  | call v f =>
      obtain ⟨hv, rfl⟩ := call_moved hx
      refine Function.update_of_ne (fun hsame => ?_) ..
      rw [hsame, hv] at hrests
      cases hrests
  | caller v b =>
      obtain ⟨p, hmoved⟩ := callerStep_moved hx
      rw [hmoved.caller, Function.update_of_ne (Ne.symm hquiet)]
  | worker v k =>
      obtain ⟨p, hmoved⟩ := workerStep_moved hx
      rw [hmoved.caller]

/-- A thread that does not act stays in its section, or outside. -/
theorem sec_keeps (hnext : (destroyer on s₀).next s e = some s') {t : Thread C n}
    (hquiet : ¬ Acts t e) : s'.sec t = s.sec t := by
  cases t with
  | worker w => rw [State.sec, State.sec, thread_keeps hnext hquiet]
  | caller d =>
      cases hrests : (s.caller d).rests with
      | false => rw [State.sec, State.sec, caller_keeps hnext hquiet hrests]
      | true =>
          have hsec : ∀ f : Call, (f.entry : CallerPc n).sec = none := fun f => by cases f <;> rfl
          rcases destroyer_next hnext with ⟨-, rfl⟩ | ⟨x, rfl, -, hx⟩
          · rfl
          cases x with
          | call v f =>
              obtain ⟨-, rfl⟩ := call_moved hx
              rcases eq_or_ne d v with rfl | hne
              · have hself : (s.setCaller d f.entry).caller d = f.entry :=
                  Function.update_self ..
                rw [State.sec, State.sec, hself, hsec, CallerPc.sec_of_rests hrests]
              · have hother : (s.setCaller v f.entry).caller d = s.caller d :=
                  Function.update_of_ne hne ..
                rw [State.sec, State.sec, hother]
          | caller v b =>
              obtain ⟨p, hmoved⟩ := callerStep_moved hx
              rw [State.sec, State.sec, hmoved.caller, Function.update_of_ne (Ne.symm hquiet)]
          | worker v k =>
              obtain ⟨p, hmoved⟩ := workerStep_moved hx
              rw [State.sec, State.sec, hmoved.caller]

/-- A section has one or two steps. -/
theorem sec_next {t : Thread C n} {i : Fin n} {p : Phase} (hsec : s.sec t = some (i, p))
    (hnext : (destroyer on s₀).next s e = some s') (hacts : Acts t e) :
    s'.sec t = none ∨ p = .entered ∧ ∃ q, q ≠ .entered ∧ s'.sec t = some (i, q) := by
  rcases destroyer_next hnext with ⟨rfl, -⟩ | ⟨x, rfl, -, hx⟩
  · cases t <;> cases hacts
  cases t with
  | worker w =>
      cases x with
      | call | caller => cases hacts
      | worker v k =>
          obtain rfl : v = w := hacts
          left
          simp only [State.next] at hx
          cases hpc : s.thread v <;> rw [State.sec, hpc] at hsec <;> try cases hsec
          all_goals
            simp only [State.workerStep, hpc] at hx
            split at hx <;> obtain rfl := Option.some.inj hx
          all_goals simp [State.sec, State.setThread, WorkerPc.sec]
  | caller d =>
      cases x with
      | call | worker => cases hacts
      | caller v b =>
          obtain rfl : v = d := hacts
          simp only [State.next] at hx
          have hself : ∀ {p : CallerPc n}, s'.caller = Function.update s.caller v p →
              s'.sec (.caller v) = p.sec := fun hp => by
            rw [State.sec, hp, Function.update_self]
          cases hpc : s.caller v <;> rw [State.sec, hpc] at hsec <;>
            simp only [State.callerStep, hpc] at hx
          case insertCount | clearSubtract =>
              obtain ⟨rfl, rfl⟩ := Prod.mk.inj (Option.some.inj hsec)
              obtain rfl := Option.some.inj hx
              exact .inr ⟨rfl, _, by decide, hself rfl⟩
          case insertPush | clearDiscard =>
              obtain rfl := Option.some.inj hx
              exact .inl (hself rfl)
          all_goals cases hsec

/-- How many steps a function has left that a job calls. -/
def CallerPc.callSteps : CallerPc n → ℕ
  | .insertCheck => 6
  | .insertIndex => 5
  | .insertNext _ => 4
  | .insertLock _ => 3
  | .insertCount _ => 2
  | .insertPush _ | .poll => 1
  | _ => 0

omit [Fintype C] in
/-- A call inside a job comes nearer to its end. -/
theorem callerStep_callSteps {d : C} {expired : Bool} (hjob : (s.caller d).inJob = true)
    (h : s.callerStep d expired = some s') :
    (s'.caller d).callSteps < (s.caller d).callSteps := by
  have hself : ∀ {p : CallerPc n}, s'.caller = Function.update s.caller d p →
      p.callSteps < (s.caller d).callSteps → (s'.caller d).callSteps < (s.caller d).callSteps := by
    intro p hp hlt
    rwa [hp, Function.update_self]
  cases hpc : s.caller d <;> rw [hpc] at hjob hself <;> try cases hjob
  all_goals simp only [State.callerStep, hpc] at h
  case insertLock =>
      obtain ⟨s₁, hlock, rfl⟩ := Option.map_eq_some_iff.mp h
      obtain ⟨-, rfl⟩ := State.lock_eq_some hlock
      exact hself rfl (by simp [CallerPc.callSteps])
  case insertCheck =>
      obtain rfl := Option.some.inj h
      exact hself rfl (by split <;> simp [CallerPc.callSteps])
  all_goals
    obtain rfl := Option.some.inj h
    exact hself rfl (by simp [CallerPc.callSteps])

/-! ### Who acts -/

omit [Fintype C] in
/-- The destructor has not returned yet. -/
theorem Destroying.not_destroyed (h : Destroying c on s) : ¬ Destroyed c s := by
  intro hdone
  have hrests := hdone.caller c
  rw [CallerPc.rests_of_destroys h.destroys] at hrests
  cases hrests

/-- A step of the machine: the destructor returns, or goes on. -/
theorem Destroying.next (h : Destroying c on s) (hon : on c = none)
    (hnext : (destroyer on s₀).next s e = some s') : Destroyed c s' ∨ Destroying c on s' := by
  rcases destroyer_next hnext with ⟨-, rfl⟩ | ⟨x, rfl, hallowed, hx⟩
  · exact .inr h
  cases x with
  | call d f =>
      simp only [Allowed, Bool.and_eq_true, Bool.or_eq_true, decide_eq_true_eq] at hallowed
      obtain ⟨hf, w, hw, hcalls⟩ := hallowed
      have hd : d ≠ c := fun hsame => by rw [hsame, hon] at hw; cases hw
      exact .inr (h.call hd hf ⟨w, hw, hcalls⟩ hx)
  | caller d b =>
      rcases eq_or_ne d c with rfl | hd
      · exact (h.own hx).imp_right And.left
      · exact .inr (h.job hd hx)
  | worker w k =>
      refine .inr (h.worker hx fun hcalls => ?_)
      simpa [Allowed, hcalls] using hallowed

/-- The thread `d` is able to act. -/
theorem caller_enabled {d : C} (h : (s.callerStep d false).isSome) :
    (destroyer on s₀).Enabled Acts (.caller d) s :=
  ⟨some (.caller d false), rfl, h⟩

/-- The worker `w` is able to act, if its job is in no call. -/
theorem worker_enabled {w : Fin n} (h : (s.workerStep w w).isSome)
    (hends : (s.thread w).calls = true → ∀ d, on d = some w → (s.caller d).rests = true) :
    (destroyer on s₀).Enabled Acts (.worker w) s := by
  have hallowed : Allowed on s (.worker w w) = true := by
    cases hcalls : (s.thread w).calls with
    | false => simp [Allowed, hcalls]
    | true => simpa [Allowed, hcalls] using hends hcalls
  refine ⟨some (.worker w w), rfl, ?_⟩
  have hnext : (destroyer on s₀).next s (some (.worker w w)) = s.workerStep w w := if_pos hallowed
  rwa [hnext]

/-- A thread that holds a mutex is able to act. -/
theorem sec_enabled {t : Thread C n} {i : Fin n} {p : Phase} (hsec : s.sec t = some (i, p)) :
    (destroyer on s₀).Enabled Acts t s := by
  cases t with
  | worker w =>
      have hpc : s.thread w ≠ .stopped ∧ (s.thread w).wants w = none ∧
          (s.thread w).calls = false := by
        cases hpc : s.thread w <;> rw [State.sec, hpc] at hsec <;> try cases hsec
        all_goals exact ⟨by simp, rfl, rfl⟩
      refine worker_enabled (workerStep_isSome hpc.1 fun j hj => ?_) fun hcalls => ?_
      · rw [hpc.2.1] at hj
        cases hj
      · rw [hpc.2.2] at hcalls
        cases hcalls
  | caller d =>
      have hpc : (s.caller d).rests = false ∧ s.caller d ≠ .join ∧ (s.caller d).wants = none := by
        cases hpc : s.caller d <;> rw [State.sec, hpc] at hsec <;> try cases hsec
        all_goals exact ⟨rfl, by simp, rfl⟩
      refine caller_enabled (callerStep_isSome hpc.1 hpc.2.1 fun j hj => ?_)
      rw [hpc.2.2] at hj
      cases hj

variable {r : (destroyer on s₀).Run} (hfair : r.Fair Acts)
include hfair

/-- A thread that holds a mutex acts. -/
theorem sec_acts {t : Thread C n} {i : Fin n} {p : Phase} {m : ℕ}
    (hsec : (r.state m).sec t = some (i, p)) : ∃ k, Acts t (r.event (m + k)) :=
  hfair.moves (P := fun s => s.sec t = some (i, p)) hsec
    (fun j hj hquiet => (sec_keeps (r.step j) hquiet).trans hj)
    fun j _ => ⟨j, le_rfl, fun hj => sec_enabled hj⟩

/-- **Mutexes.** A mutex that is held is released. -/
theorem mutex_released (howned : Owned (r.state 0).sec (r.state 0).mutex) (i : Fin n) (m : ℕ) :
    ∃ j, m ≤ j ∧ (r.state j).mutex i = none := by
  have hkeep : ∀ s e s', Owned s.sec s.mutex → (destroyer on s₀).next s e = some s' →
      Owned s'.sec s'.mutex := by
    intro s e s' hs hnext
    rcases destroyer_next hnext with ⟨-, rfl⟩ | ⟨x, -, -, hx⟩
    · exact hs
    · exact (State.refined_next hs hx).1
  have hadvances : Machine.Run.Advances (destroyer on s₀) (· < ·) (fun s => Owned s.sec s.mutex)
      (fun s => s.mutex i = none)
      (fun s => if lockPhase s.sec s.mutex i = some .entered then 1 else 0) (fun s => s.mutex i)
      fun a e => ∃ t, a = some t ∧ Acts t e := by
    intro s e s' hs hheld hnext
    have hs' := hkeep s e s' hs hnext
    obtain ⟨t, ht⟩ := Option.ne_none_iff_exists'.mp hheld
    obtain ⟨p, hsec⟩ := (hs t i).mpr ht
    by_cases hacts : Acts t e
    · rcases sec_next hsec hnext hacts with hout | ⟨rfl, q, hq, hin⟩
      · left
        by_contra hheld'
        obtain ⟨u, hu⟩ := Option.ne_none_iff_exists'.mp hheld'
        obtain ⟨q, hq⟩ := (hs' u i).mpr hu
        have hne : u ≠ t := by
          rintro rfl
          rw [hout] at hq
          cases hq
        rw [sec_keeps hnext fun hu => hne (acts_unique hu hacts)] at hq
        exact hne (hs.other hsec ((hs u i).mp ⟨q, hq⟩))
      · refine .inr ⟨hs', .inl ?_⟩
        have hlast : lockPhase s'.sec s'.mutex i ≠ some .entered := by
          rw [hs'.lockPhase_eq hin, Ne, Option.some.injEq]
          exact hq
        simp only [if_neg hlast, if_pos (hs.lockPhase_eq hsec)]
        exact Nat.one_pos
    · have hsec' := (sec_keeps hnext hacts).trans hsec
      have ht' := (hs' t i).mp ⟨p, hsec'⟩
      refine .inr ⟨hs', .inr ⟨?_, ht'.trans ht.symm, ?_⟩⟩
      · simp only [hs.lockPhase_eq hsec, hs'.lockPhase_eq hsec']
      · rintro ⟨u, hu, hu'⟩
        exact hacts (Option.some.inj (ht.symm.trans hu) ▸ hu')
  have hgoal : ∃ k, ((r.drop m).state k).mutex i = none := by
    refine (r.drop m).reaches wellFounded_lt hadvances (fun k hs hheld => ?_)
      (r.invariant hkeep howned m)
    obtain ⟨t, ht⟩ := Option.ne_none_iff_exists'.mp hheld
    obtain ⟨p, hsec⟩ := (hs t i).mpr ht
    obtain ⟨j, hj⟩ := sec_acts hfair hsec
    exact ⟨j, t, ht, by rwa [Nat.add_assoc] at hj⟩
  obtain ⟨k, hk⟩ := hgoal
  exact ⟨m + k, Nat.le_add_right m k, hk⟩

/-- A caller that is in a function acts, unless it joins the workers. -/
theorem caller_acts (howned : Owned (r.state 0).sec (r.state 0).mutex) {d : C} {m : ℕ}
    (hrests : ((r.state m).caller d).rests = false) (hjoin : (r.state m).caller d ≠ .join) :
    ∃ k, Acts (.caller d) (r.event (m + k)) := by
  refine hfair.moves (P := fun s => s.caller d = (r.state m).caller d) rfl ?_ ?_
  · intro j hj hquiet
    exact (caller_keeps (r.step j) hquiet (hj ▸ hrests)).trans hj
  · intro i _
    cases hwants : ((r.state m).caller d).wants with
    | none =>
        refine ⟨i, le_rfl, fun hi =>
          caller_enabled (callerStep_isSome (hi ▸ hrests) (hi ▸ hjoin) ?_)⟩
        rw [hi, hwants]
        nofun
    | some k =>
        obtain ⟨j, hij, hfree⟩ := mutex_released hfair howned k i
        refine ⟨j, hij, fun hj => caller_enabled (callerStep_isSome (hj ▸ hrests) (hj ▸ hjoin) ?_)⟩
        rw [hj, hwants]
        rintro _ ⟨⟩
        exact hfree

variable (hon : on c = none) (hall : ∀ m, Destroying c on (r.state m))
include hall hon

/-- A call of a job ends. -/
theorem caller_rests {d : C} (hd : d ≠ c) (m : ℕ) :
    ∃ j, m ≤ j ∧ ((r.state j).caller d).rests = true := by
  have hadvances : Machine.Run.Advances (destroyer on s₀) (· < ·) (Destroying c on)
      (fun s => Destroyed c s ∨ (s.caller d).rests = true) (fun s => (s.caller d).callSteps)
      (fun _ => Thread.caller d) Acts := by
    intro s e s' hs hgoal hnext
    rw [not_or, Bool.not_eq_true] at hgoal
    rcases hs.next hon hnext with hdone | hs'
    · exact .inl (.inl hdone)
    refine .inr ⟨hs', ?_⟩
    by_cases hacts : Acts (.caller d) e
    · obtain ⟨hjob, -⟩ := (hs.jobs d hd).resolve_left (by simp [hgoal.2])
      rcases destroyer_next hnext with ⟨rfl, -⟩ | ⟨x, rfl, -, hx⟩
      · cases hacts
      cases x with
      | call | worker => cases hacts
      | caller v b =>
          obtain rfl : v = d := hacts
          exact .inl (callerStep_callSteps hjob hx)
    · exact .inr ⟨congrArg _ (caller_keeps hnext hacts hgoal.2), rfl, hacts⟩
  have hgoal : ∃ k, Destroyed c ((r.drop m).state k) ∨
      (((r.drop m).state k).caller d).rests = true := by
    refine (r.drop m).reaches wellFounded_lt hadvances (fun k hs hgoal => ?_) (hall m)
    rw [not_or, Bool.not_eq_true] at hgoal
    have hjoin : ((r.drop m).state k).caller d ≠ .join := fun hpc => by
      obtain ⟨hjob, -⟩ := (hs.jobs d hd).resolve_left (by simp [hgoal.2])
      rw [hpc] at hjob
      cases hjob
    obtain ⟨j, hj⟩ := caller_acts hfair (hall 0).owned hgoal.2 hjoin
    exact ⟨j, by rwa [Nat.add_assoc] at hj⟩
  obtain ⟨k, hdone | hk⟩ := hgoal
  · exact absurd hdone (hall (m + k)).not_destroyed
  · exact ⟨m + k, Nat.le_add_right m k, hk⟩

/-- A worker that has not stopped acts. Its job, if it runs one, ends. -/
theorem worker_acts (hone : ∀ d d' w, on d = some w → on d' = some w → d = d') {w : Fin n} {m : ℕ}
    (hstopped : (r.state m).thread w ≠ .stopped) : ∃ k, Acts (.worker w) (r.event (m + k)) := by
  refine hfair.moves (P := fun s => s.thread w = (r.state m).thread w) rfl
    (fun j hj hquiet => (thread_keeps (r.step j) hquiet).trans hj) fun i _ => ?_
  have henabled : ∀ {s : State C n}, s.thread w = (r.state m).thread w →
      (∀ k, ((r.state m).thread w).wants w = some k → s.mutex k = none) →
      (((r.state m).thread w).calls = true → ∀ d, on d = some w → (s.caller d).rests = true) →
      (destroyer on s₀).Enabled Acts (.worker w) s := by
    intro s hs hfree hends
    exact worker_enabled (workerStep_isSome (hs ▸ hstopped) (hs ▸ hfree)) (hs ▸ hends)
  cases hcalls : ((r.state m).thread w).calls with
  | true =>
      have hwants : ((r.state m).thread w).wants w = none := by
        cases hpc : (r.state m).thread w <;> rw [hpc] at hcalls <;> first | rfl | cases hcalls
      have hends : ∃ j, i ≤ j ∧ ∀ d, on d = some w → ((r.state j).caller d).rests = true := by
        by_cases hjob : ∃ d, on d = some w
        · obtain ⟨d, hd⟩ := hjob
          have hne : d ≠ c := fun hsame => by rw [hsame, hon] at hd; cases hd
          obtain ⟨j, hij, hj⟩ := caller_rests hfair hon hall hne i
          exact ⟨j, hij, fun v hv => hone d v w hd hv ▸ hj⟩
        · exact ⟨i, le_rfl, fun d hd => absurd ⟨d, hd⟩ hjob⟩
      obtain ⟨j, hij, hj⟩ := hends
      refine ⟨j, hij, fun hs => henabled hs ?_ fun _ => hj⟩
      rw [hwants]
      nofun
  | false =>
      cases hwants : ((r.state m).thread w).wants w with
      | none =>
          refine ⟨i, le_rfl, fun hs => henabled hs ?_ ?_⟩
          · rw [hwants]
            nofun
          · rw [hcalls]
            nofun
      | some k =>
          obtain ⟨j, hij, hfree⟩ := mutex_released hfair (hall 0).owned k i
          refine ⟨j, hij, fun hs => henabled hs ?_ ?_⟩
          · rw [hwants]
            rintro _ ⟨⟩
            exact hfree
          · rw [hcalls]
            nofun

end

end ThreadPool

end RsIo
