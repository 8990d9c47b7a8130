import RsIo.ThreadPool

/-!
# The Jobs of the Thread Pool

The pool keeps the ledger of its jobs: a state of the pool is read as a ledger, in which
the phase of a queue is that of the section that holds its mutex, and every step of a
caller or a worker is one step of the ledger.

## Main results

* `State.refined_next`: one step of the pool is one step of the ledger.
* `reachable_balanced`: the accounts are balanced in every state reached.
* `accounting`: what becomes of the accepted jobs, for any number of callers and workers.
-/

namespace RsIo

namespace ThreadPool

/-! ### The ledger of a pool -/

/-- The section a caller is in, and its phase. -/
def CallerPc.sec {n : ℕ} : CallerPc n → Option (Fin n × Phase)
  | insertCount index => some (index, .entered)
  | insertPush index => some (index, .counted)
  | clearSubtract k _ => some (k, .entered)
  | clearDiscard k _ => some (k, .subtracted)
  | _ => none

/-- The section worker `w` is in, and its phase. -/
def WorkerPc.sec {n : ℕ} (w : Fin n) : WorkerPc n → Option (Fin n × Phase)
  | fetchLocked => some (w, .entered)
  | stealLocked k => some (k, .entered)
  | _ => none

/-- What a worker has in hand. -/
def WorkerPc.hold {n : ℕ} : WorkerPc n → Hold
  | popped j => .popped j
  | calling j => .calling j
  | called j => .called j
  | _ => .nothing

namespace State

variable {C : Type} {n : ℕ} (s : State C n)

/-- The section a thread is in, and its phase. -/
def sec : Thread C n → Option (Fin n × Phase)
  | .caller c => (s.caller c).sec
  | .worker w => (s.thread w).sec w

/-- The ledger of the pool's jobs. -/
def ledger : Ledger (Fin n) where
  slot w := ⟨lockPhase s.sec s.mutex w, s.queue w⟩
  hold w := (s.thread w).hold
  unfinished := s.unfinishedJobs
  history := s.history

/-- The state `s'` is one step of the ledger away, and its mutexes are held by the threads
that are in the sections. -/
def Refined (s s' : State C n) : Prop :=
  Owned s'.sec s'.mutex ∧ Ledger.Step s.ledger s'.ledger

variable {s} {s' : State C n} {t : Thread C n} {i w : Fin n} {p q : Phase} {jobs : List ℕ}

/-- The slots after a change of the phase and the queue of one of them. -/
theorem ledger_slot {p : Option Phase}
    (hphase : lockPhase s'.sec s'.mutex = Function.update (lockPhase s.sec s.mutex) i p)
    (hqueue : s'.queue = Function.update s.queue i jobs) :
    s'.ledger.slot = Function.update s.ledger.slot i ⟨p, jobs⟩ := by
  funext k
  rcases eq_or_ne k i with rfl | hk
  · simp [ledger, hphase, hqueue]
  · simp [ledger, hphase, hqueue, hk]

/-- A lock that is taken was free. -/
theorem lock_eq_some {s₁ : State C n} (hlock : s.lock i t = some s₁) :
    s.mutex i = none ∧ s₁ = { s with mutex := Function.update s.mutex i (some t) } := by
  unfold lock at hlock
  split at hlock
  next hfree => exact ⟨hfree, (Option.some.inj hlock).symm⟩
  next => cases hlock

/-- What the workers have in hand after one of them moves. -/
theorem hold_setThread (s : State C n) (w : Fin n) (p : WorkerPc n) :
    (s.setThread w p).ledger.hold = Function.update s.ledger.hold w p.hold := by
  funext v
  rcases eq_or_ne v w with rfl | hv
  · simp [ledger, setThread]
  · simp [ledger, setThread, hv]

/-- A worker that keeps what it has in hand. -/
theorem hold_setThread_same (s : State C n) {w : Fin n} {p : WorkerPc n}
    (hp : p.hold = (s.thread w).hold) : (s.setThread w p).ledger.hold = s.ledger.hold := by
  rw [hold_setThread, hp]
  exact Function.update_eq_self w s.ledger.hold

variable [DecidableEq C]

/-- The slots when a thread takes a mutex. -/
theorem slot_acquire (h : Owned s.sec s.mutex) (ht : s.sec t = none) (hfree : s.mutex i = none)
    (s' : State C n)
    (hsec : s'.sec = Function.update s.sec t (some (i, p)))
    (hmutex : s'.mutex = Function.update s.mutex i (some t)) (hqueue : s'.queue = s.queue) :
    Owned s'.sec s'.mutex ∧
      s'.ledger.slot = Function.update s.ledger.slot i ⟨some p, s.queue i⟩ := by
  obtain ⟨howned, hphase⟩ := h.acquire (p := p) ht hfree
  rw [← hsec, ← hmutex] at howned hphase
  exact ⟨howned, ledger_slot hphase (by rw [hqueue, Function.update_eq_self])⟩

/-- The slots when a thread moves on within its section. -/
theorem slot_advance (h : Owned s.sec s.mutex) (ht : s.sec t = some (i, p))
    (s' : State C n)
    (hsec : s'.sec = Function.update s.sec t (some (i, q)))
    (hmutex : s'.mutex = s.mutex) (hqueue : s'.queue = s.queue) :
    Owned s'.sec s'.mutex ∧
      s'.ledger.slot = Function.update s.ledger.slot i ⟨some q, s.queue i⟩ := by
  obtain ⟨howned, hphase⟩ := h.advance ht q
  refine ⟨by rwa [hsec, hmutex], ledger_slot (by rw [hsec, hmutex, hphase]) ?_⟩
  rw [hqueue, Function.update_eq_self]

/-- The slots when a thread leaves its section, with the queue it leaves behind. -/
theorem slot_release (jobs : List ℕ) (h : Owned s.sec s.mutex) (ht : s.sec t = some (i, p))
    (s' : State C n)
    (hsec : s'.sec = Function.update s.sec t none)
    (hmutex : s'.mutex = Function.update s.mutex i none)
    (hqueue : s'.queue = Function.update s.queue i jobs) :
    Owned s'.sec s'.mutex ∧
      s'.ledger.slot = Function.update s.ledger.slot i ⟨none, jobs⟩ := by
  obtain ⟨howned, hphase⟩ := h.release ht
  rw [← hsec, ← hmutex] at howned hphase
  exact ⟨howned, ledger_slot hphase hqueue⟩

theorem sec_setCaller (s : State C n) (c : C) (p : CallerPc n) :
    (s.setCaller c p).sec = Function.update s.sec (.caller c) p.sec := by
  funext t
  cases t with
  | caller d =>
      rcases eq_or_ne d c with rfl | hd
      · simp [sec, setCaller]
      · simp [sec, setCaller, hd]
  | worker w => simp [sec, setCaller]

theorem sec_setThread (s : State C n) (w : Fin n) (p : WorkerPc n) :
    (s.setThread w p).sec = Function.update s.sec (.worker w) (p.sec w) := by
  funext t
  cases t with
  | caller d => simp [sec, setThread]
  | worker v =>
      rcases eq_or_ne v w with rfl | hv
      · simp [sec, setThread]
      · simp [sec, setThread, hv]

/-! ### The steps of a caller -/

variable {c : C}

/-- A caller moves between two places outside every section. -/
theorem refined_caller {p : CallerPc n} (h : Owned s.sec s.mutex)
    (hpc : (s.caller c).sec = none) (hp : p.sec = none) : Refined s (s.setCaller c p) := by
  have hsec : (s.setCaller c p).sec = s.sec := by
    rw [sec_setCaller, hp, ← hpc]
    exact Function.update_eq_self (Thread.caller c) s.sec
  have hledger : (s.setCaller c p).ledger = s.ledger :=
    Ledger.ext (by simp only [ledger, hsec]; rfl) rfl rfl rfl
  rw [Refined, hsec, hledger]
  exact ⟨h, .quiet _⟩

/-- A caller takes a mutex. -/
theorem refined_caller_lock {p : CallerPc n} (h : Owned s.sec s.mutex)
    (hpc : (s.caller c).sec = none) (hp : p.sec = some (i, .entered))
    (hstep : (s.lock i (.caller c)).map (fun s => s.setCaller c p) = some s') :
    Refined s s' := by
  obtain ⟨s₁, hlock, rfl⟩ := Option.map_eq_some_iff.mp hstep
  obtain ⟨hfree, rfl⟩ := lock_eq_some hlock
  obtain ⟨howned, hslot⟩ := slot_acquire (t := .caller c) (p := .entered) h hpc hfree
    (setCaller { s with mutex := Function.update s.mutex i (some (.caller c)) } c p)
    (by rw [sec_setCaller, hp]; rfl) rfl rfl
  refine ⟨howned, ?_⟩
  convert Ledger.Step.enter s.ledger i (Owned.lockPhase_none hfree) using 1
  exact Ledger.ext hslot rfl rfl rfl

/-- `insert()` counts its job. -/
theorem refined_count (h : Owned s.sec s.mutex) (hpc : s.caller c = .insertCount i) :
    Refined s ((s.setUnfinished (s.unfinishedJobs + 1)).setCaller c (.insertPush i)) := by
  have ht : s.sec (.caller c) = some (i, .entered) := by simp [sec, hpc, CallerPc.sec]
  obtain ⟨howned, hslot⟩ := slot_advance h ht
    ((s.setUnfinished (s.unfinishedJobs + 1)).setCaller c (.insertPush i))
    (sec_setCaller _ c _) rfl rfl
  refine ⟨howned, ?_⟩
  convert Ledger.Step.count s.ledger i (h.lockPhase_eq ht) using 1
  exact Ledger.ext hslot rfl rfl rfl

/-- `insert()` pushes its job and gives the mutex back. -/
theorem refined_push (h : Owned s.sec s.mutex) (hpc : s.caller c = .insertPush i)
    (hstep : s' = ((((s.setQueue i (s.queue i ++ [s.history.accepted])).setHistory
      { s.history with accepted := s.history.accepted + 1 }).unlock i).setCaller c .idle)) :
    Refined s s' := by
  have ht : s.sec (.caller c) = some (i, .counted) := by simp [sec, hpc, CallerPc.sec]
  subst hstep
  obtain ⟨howned, hslot⟩ := slot_release _ h ht
    ((((s.setQueue i (s.queue i ++ [s.history.accepted])).setHistory
      { s.history with accepted := s.history.accepted + 1 }).unlock i).setCaller c .idle)
    (sec_setCaller _ c _) rfl rfl
  refine ⟨howned, ?_⟩
  convert Ledger.Step.push s.ledger i (h.lockPhase_eq ht) using 1
  exact Ledger.ext hslot rfl rfl rfl

/-- `clear()` subtracts the jobs of a queue. -/
theorem refined_subtract {final : Bool} (h : Owned s.sec s.mutex)
    (hpc : s.caller c = .clearSubtract i final)
    (hstep : s' = (((s.setUnfinished (s.unfinishedJobs - (s.queue i).length)).setHistory
      { s.history with discarded := s.history.discarded + (s.queue i : List ℕ) }).setCaller c
        (.clearDiscard i final))) :
    Refined s s' := by
  have ht : s.sec (.caller c) = some (i, .entered) := by simp [sec, hpc, CallerPc.sec]
  subst hstep
  obtain ⟨howned, hslot⟩ := slot_advance h ht
    (((s.setUnfinished (s.unfinishedJobs - (s.queue i).length)).setHistory
      { s.history with discarded := s.history.discarded + (s.queue i : List ℕ) }).setCaller c
        (.clearDiscard i final))
    (sec_setCaller _ c _) rfl rfl
  refine ⟨howned, ?_⟩
  convert Ledger.Step.subtract s.ledger i (h.lockPhase_eq ht) using 1
  exact Ledger.ext hslot rfl rfl rfl

/-- `clear()` empties a queue and gives its mutex back. -/
theorem refined_discard {final : Bool} (h : Owned s.sec s.mutex)
    (hpc : s.caller c = .clearDiscard i final) :
    Refined s (((s.setQueue i []).unlock i).setCaller c (.clearNext (i + 1) final)) := by
  have ht : s.sec (.caller c) = some (i, .subtracted) := by simp [sec, hpc, CallerPc.sec]
  obtain ⟨howned, hslot⟩ := slot_release _ h ht
    (((s.setQueue i []).unlock i).setCaller c (.clearNext (i + 1) final))
    (sec_setCaller _ c _) rfl rfl
  refine ⟨howned, ?_⟩
  convert Ledger.Step.discard s.ledger i (h.lockPhase_eq ht) using 1
  exact Ledger.ext hslot rfl rfl rfl

/-- A step of a caller is a step of the ledger. -/
theorem refined_callerStep [NeZero n] {expired : Bool} (h : Owned s.sec s.mutex)
    (hstep : s.callerStep c expired = some s') : Refined s s' := by
  cases hpc : s.caller c <;> simp only [callerStep, hpc] at hstep
  case idle | returned => cases hstep
  case insertLock index =>
      exact refined_caller_lock h (by rw [hpc]; rfl) rfl hstep
  case insertCount index =>
      obtain rfl := Option.some.inj hstep
      exact refined_count h hpc
  case insertPush index =>
      exact refined_push h hpc (Option.some.inj hstep).symm
  case clearNext k final =>
      split at hstep
      next => exact refined_caller_lock h (by rw [hpc]; rfl) rfl hstep
      next =>
        obtain rfl := Option.some.inj hstep
        exact refined_caller h (by rw [hpc]; rfl) rfl
  case clearSubtract k final =>
      exact refined_subtract h hpc (Option.some.inj hstep).symm
  case clearDiscard k final =>
      obtain rfl := Option.some.inj hstep
      exact refined_discard h hpc
  case join =>
      split at hstep
      next =>
        obtain rfl := Option.some.inj hstep
        exact refined_caller h (by rw [hpc]; rfl) rfl
      next => cases hstep
  -- the other steps touch nothing that is on the ledger
  all_goals
    obtain rfl := Option.some.inj hstep
    refine refined_caller h (by rw [hpc]; rfl) ?_
    first
      | rfl
      | split <;> rfl

/-! ### The steps of a worker -/

/-- A worker moves between two places outside every section, with the same job in hand. -/
theorem refined_thread {p : WorkerPc n} (h : Owned s.sec s.mutex)
    (hpc : (s.thread w).sec w = none) (hp : p.sec w = none)
    (hhold : p.hold = (s.thread w).hold) : Refined s (s.setThread w p) := by
  have hsec : (s.setThread w p).sec = s.sec := by
    rw [sec_setThread, hp, ← hpc]
    exact Function.update_eq_self (Thread.worker w) s.sec
  have hledger : (s.setThread w p).ledger = s.ledger :=
    Ledger.ext (by simp only [ledger, hsec]; rfl) (hold_setThread_same s hhold) rfl rfl
  rw [Refined, hsec, hledger]
  exact ⟨h, .quiet _⟩

/-- A worker takes a mutex. -/
theorem refined_thread_lock {p : WorkerPc n} (h : Owned s.sec s.mutex)
    (hpc : (s.thread w).sec w = none) (hp : p.sec w = some (i, .entered))
    (hhold : p.hold = (s.thread w).hold)
    (hstep : (s.lock i (.worker w)).map (fun s => s.setThread w p) = some s') :
    Refined s s' := by
  obtain ⟨s₁, hlock, rfl⟩ := Option.map_eq_some_iff.mp hstep
  obtain ⟨hfree, rfl⟩ := lock_eq_some hlock
  obtain ⟨howned, hslot⟩ := slot_acquire (t := .worker w) (p := .entered) h hpc hfree
    (setThread { s with mutex := Function.update s.mutex i (some (.worker w)) } w p)
    (by rw [sec_setThread, hp]; rfl) rfl rfl
  refine ⟨howned, ?_⟩
  convert Ledger.Step.enter s.ledger i (Owned.lockPhase_none hfree) using 1
  exact Ledger.ext hslot (hold_setThread_same _ hhold) rfl rfl

/-- A worker that found no job gives the mutex back. -/
theorem refined_thread_leave {p : WorkerPc n} (h : Owned s.sec s.mutex)
    (hpc : (s.thread w).sec w = some (i, .entered)) (hp : p.sec w = none)
    (hhold : p.hold = (s.thread w).hold) : Refined s ((s.unlock i).setThread w p) := by
  have ht : s.sec (.worker w) = some (i, .entered) := hpc
  obtain ⟨howned, hslot⟩ := slot_release (s.queue i) h ht
    ((s.unlock i).setThread w p)
    ((sec_setThread _ w p).trans (by rw [hp]; rfl)) rfl
    (Function.update_eq_self i s.queue).symm
  refine ⟨howned, ?_⟩
  convert Ledger.Step.leave s.ledger i (h.lockPhase_eq ht) using 1
  exact Ledger.ext hslot (hold_setThread_same _ hhold) rfl rfl

/-- A worker takes a job out of a queue and gives the mutex back. -/
theorem refined_pop {j : ℕ} {q q' : List ℕ} (h : Owned s.sec s.mutex)
    (hpc : (s.thread w).sec w = some (i, .entered)) (hhold : (s.thread w).hold = .nothing)
    (hq : s.queue i = q ++ j :: q') :
    Refined s (((s.setQueue i (q ++ q')).unlock i).setThread w (.popped j)) := by
  have ht : s.sec (.worker w) = some (i, .entered) := hpc
  obtain ⟨howned, hslot⟩ := slot_release (q ++ q') h ht
    (((s.setQueue i (q ++ q')).unlock i).setThread w (.popped j))
    (sec_setThread _ w _) rfl rfl
  refine ⟨howned, ?_⟩
  convert Ledger.Step.pop s.ledger w i j q q' (h.lockPhase_eq ht) hq hhold
    using 1
  exact Ledger.ext hslot (hold_setThread _ w _) rfl rfl

/-- A worker moves on with its job: the ledger's step changes what it has in hand. -/
theorem refined_hold {p : WorkerPc n} {s₁ : State C n} (h : Owned s.sec s.mutex)
    (hpc : (s.thread w).sec w = none) (hp : p.sec w = none) (hsec : s₁.sec = s.sec)
    (hmutex : s₁.mutex = s.mutex)
    (hstep : Ledger.Step s.ledger (s₁.ledger.setHold w p.hold)) :
    Refined s (s₁.setThread w p) := by
  have hsec' : (s₁.setThread w p).sec = s.sec := by
    rw [sec_setThread, hp, hsec, ← hpc]
    exact Function.update_eq_self (Thread.worker w) s.sec
  have hmutex' : (s₁.setThread w p).mutex = s.mutex := hmutex
  refine ⟨by rwa [hsec', hmutex'], ?_⟩
  convert hstep using 1
  refine Ledger.ext ?_ (hold_setThread _ w p) rfl rfl
  simp only [ledger, hsec', hmutex', Ledger.setHold, hsec, hmutex]
  rfl

/-- A step of a worker is a step of the ledger. -/
theorem refined_workerStep {k : Fin n} (h : Owned s.sec s.mutex)
    (hstep : s.workerStep w k = some s') : Refined s s' := by
  have hhold : ∀ {p : WorkerPc n}, s.thread w = p → s.ledger.hold w = p.hold :=
    fun hpc => congrArg WorkerPc.hold hpc
  cases hpc : s.thread w <;> simp only [workerStep, hpc] at hstep
  case fetch =>
      exact refined_thread_lock h (by rw [hpc]; rfl) rfl (by rw [hpc]; rfl) hstep
  case fetchLocked =>
      split at hstep
      next job hlast =>
        obtain rfl := Option.some.inj hstep
        have hq : s.queue w = (s.queue w).dropLast ++ job :: [] :=
          (List.dropLast_append_getLast? job hlast).symm
        have hpop := refined_pop h (by rw [hpc]; rfl) (by rw [hpc]; rfl) hq
        rwa [List.append_nil] at hpop
      next =>
        obtain rfl := Option.some.inj hstep
        exact refined_thread_leave h (by rw [hpc]; rfl) rfl (by rw [hpc]; rfl)
  case steal =>
      obtain rfl := Option.some.inj hstep
      exact refined_thread h (by rw [hpc]; rfl) rfl (by rw [hpc]; rfl)
  case stealLock i =>
      exact refined_thread_lock h (by rw [hpc]; rfl) rfl (by rw [hpc]; rfl) hstep
  case stealLocked i =>
      split at hstep
      next job rest hq =>
        obtain rfl := Option.some.inj hstep
        exact refined_pop (q := []) h (by rw [hpc]; rfl) (by rw [hpc]; rfl) hq
      next =>
        obtain rfl := Option.some.inj hstep
        exact refined_thread_leave h (by rw [hpc]; rfl) rfl (by rw [hpc]; rfl)
  case popped job =>
      obtain rfl := Option.some.inj hstep
      exact refined_hold h (by rw [hpc]; rfl) rfl rfl rfl (.call s.ledger w job (hhold hpc))
  case calling job =>
      obtain rfl := Option.some.inj hstep
      exact refined_hold h (by rw [hpc]; rfl) rfl rfl rfl (.callEnd s.ledger w job (hhold hpc))
  case called job =>
      obtain rfl := Option.some.inj hstep
      exact refined_hold h (by rw [hpc]; rfl) rfl rfl rfl (.finish s.ledger w job (hhold hpc))
  case check =>
      obtain rfl := Option.some.inj hstep
      refine refined_thread h (by rw [hpc]; rfl) ?_ ?_
      · split <;> rfl
      · rw [hpc]
        split <;> rfl
  case stopped => cases hstep

/-- One step of the pool is one step of the ledger. -/
theorem refined_next [NeZero n] {e : Event C n} (h : Owned s.sec s.mutex)
    (hstep : s.next e = some s') : Refined s s' := by
  cases e with
  | call c f =>
      simp only [next] at hstep
      have hentry : (f.entry : CallerPc n).sec = none := by cases f <;> rfl
      split at hstep
      next hpc =>
        obtain rfl := Option.some.inj hstep
        exact refined_caller h (by rw [hpc]; rfl) hentry
      next zero hpc =>
        obtain rfl := Option.some.inj hstep
        exact refined_caller h (by rw [hpc]; rfl) hentry
      next => cases hstep
  | caller c expired => exact refined_callerStep h hstep
  | worker w k => exact refined_workerStep h hstep

end State

/-! ### Every run -/

variable {C : Type} [DecidableEq C] {n : ℕ} [NeZero n] {s s' : State C n}

/-- The mutexes of every state reached are held by the threads in the sections, and the
accounts of its jobs are balanced. -/
theorem reachable_balanced (h : (pool C n).Reachable s) :
    Owned s.sec s.mutex ∧ s.ledger.Balanced := by
  have hempty : (pool C n).start.ledger.IsEmpty :=
    ⟨fun _ => rfl, fun _ => rfl, rfl, rfl⟩
  have hfree : Owned (pool C n).start.sec (pool C n).start.mutex := by
    rintro (c | w) i <;> simp [pool, State.sec, CallerPc.sec, WorkerPc.sec]
  have hstep : ∀ s e s', Owned s.sec s.mutex → True → (pool C n).next s e = some s' →
      State.Refined s s' := fun s e s' hI _ hnext => State.refined_next hI hnext
  obtain ⟨howned, hrun⟩ := Machine.Reach.refines hfree hstep h
  exact ⟨howned, hempty.balanced.run hrun⟩

/-- Jobs are discarded only by a caller that is in `clear()`. -/
theorem discarded_next {e : Event C n} (hstep : s.next e = some s')
    (hne : s'.history.discarded ≠ s.history.discarded) :
    ∃ c expired k final, e = .caller c expired ∧ s.caller c = .clearSubtract k final := by
  cases e with
  | call c f =>
      simp only [State.next] at hstep
      split at hstep <;> cases hstep <;> exact absurd rfl hne
  | worker w k =>
      refine absurd ?_ hne
      simp only [State.next] at hstep
      cases hpc : s.thread w <;> simp only [State.workerStep, hpc] at hstep
      case fetch | stealLock =>
          obtain ⟨s₁, hlock, rfl⟩ := Option.map_eq_some_iff.mp hstep
          obtain ⟨-, rfl⟩ := State.lock_eq_some hlock
          rfl
      case fetchLocked | stealLocked => split at hstep <;> cases hstep <;> rfl
      case stopped => cases hstep
      all_goals
        obtain rfl := Option.some.inj hstep
        rfl
  | caller c expired =>
      simp only [State.next] at hstep
      cases hpc : s.caller c <;> simp only [State.callerStep, hpc] at hstep
      case clearSubtract k final => exact ⟨c, expired, k, final, rfl, hpc⟩
      all_goals refine absurd ?_ hne
      case insertLock =>
          obtain ⟨s₁, hlock, rfl⟩ := Option.map_eq_some_iff.mp hstep
          obtain ⟨-, rfl⟩ := State.lock_eq_some hlock
          rfl
      case clearNext =>
          split at hstep
          next =>
            obtain ⟨s₁, hlock, rfl⟩ := Option.map_eq_some_iff.mp hstep
            obtain ⟨-, rfl⟩ := State.lock_eq_some hlock
            rfl
          next =>
            obtain rfl := Option.some.inj hstep
            rfl
      case join =>
          split at hstep
          next =>
            obtain rfl := Option.some.inj hstep
            rfl
          next => cases hstep
      all_goals cases hstep <;> rfl

/-- In the step to `s'` the caller `c`, in `wait()`, `poll()`, `wait_until()` or the
`wait()` of `clear()`, read the counter and found zero. -/
def ObservesZero (s' : State C n) (c : C) : Prop :=
  s'.caller c = .returned true ∨ ∃ final, s'.caller c = .clearLeave final

/-- The counter was zero when it was observed to be. -/
theorem unfinished_of_observesZero {c : C} {expired : Bool}
    (hstep : s.next (.caller c expired) = some s') (hzero : ObservesZero s' c) :
    s.unfinishedJobs = 0 := by
  have hset : ∀ {s₁ : State C n} {p : CallerPc n}, s₁.setCaller c p = s' →
      p = .returned true ∨ ∃ final, p = .clearLeave final := by
    rintro s₁ p rfl
    have hpc : (s₁.setCaller c p).caller c = p := Function.update_self ..
    rwa [ObservesZero, hpc] at hzero
  by_contra hne
  simp only [State.next] at hstep
  cases hpc : s.caller c <;> simp only [State.callerStep, hpc] at hstep
  case idle | returned => cases hstep
  case insertLock =>
      obtain ⟨s₁, -, hs⟩ := Option.map_eq_some_iff.mp hstep
      simpa using hset hs
  case clearNext =>
      split at hstep
      next =>
        obtain ⟨s₁, -, hs⟩ := Option.map_eq_some_iff.mp hstep
        simpa using hset hs
      next => simpa using hset (Option.some.inj hstep)
  case join =>
      split at hstep
      next => simpa using hset (Option.some.inj hstep)
      next => cases hstep
  case insertCheck | clearLeave | waitUntilClock =>
      have hpc' := hset (Option.some.inj hstep)
      split at hpc' <;> simp at hpc'
  all_goals simpa [hne] using hset (Option.some.inj hstep)

/-- What becomes of the jobs, in every state that `n` workers and any callers can reach.
A job is executed at most once, and only if it was accepted and not discarded. It is
finished, discarded, queued or in the hand of a worker, and it is discarded only by a step
of `clear()`. When no mutex is held, the counter is the number of the queued jobs and of
those in hand. A caller that observes zero observes that every job accepted so far is
finished or discarded. -/
theorem accounting (h : (pool C n).Reachable s) :
    s.history.executed.Nodup ∧
    (∀ j ∈ s.history.executed, j < s.history.accepted ∧ j ∉ s.history.discarded) ∧
    s.history.finished ≤ s.history.executed ∧
    (∀ j < s.history.accepted, j ∈ s.history.finished ∨ j ∈ s.history.discarded ∨
      (∃ w, j ∈ s.queue w) ∨ ∃ w, (s.thread w).hold.job = some j) ∧
    (∀ e s', s.next e = some s' → s'.history.discarded ≠ s.history.discarded →
      ∃ c expired k final, e = .caller c expired ∧ s.caller c = .clearSubtract k final) ∧
    ((∀ w, s.mutex w = none) → s.unfinishedJobs = ∑ w, ((s.queue w).length : ℤ) +
      ∑ w, if (s.thread w).hold.job.isSome then 1 else 0) ∧
    (∀ c expired s', s.next (.caller c expired) = some s' → ObservesZero s' c →
      ∀ j < s.history.accepted, j ∈ s.history.finished ∨ j ∈ s.history.discarded) := by
  obtain ⟨-, hb⟩ := reachable_balanced h
  refine ⟨hb.executed_nodup, fun j hj => ⟨hb.executed_lt hj, hb.not_both hj⟩,
    hb.finished_le, ?_, ?_, ?_, ?_⟩
  · intro j hj
    rcases hb.somewhere hj with hf | hd | ⟨w, hw⟩ | hw
    · exact Or.inl hf
    · exact Or.inr (Or.inl hd)
    · exact Or.inr (Or.inr (Or.inl ⟨w, Slot.mem_queue_of_live hw⟩))
    · exact Or.inr (Or.inr (Or.inr hw))
  · intro e s' hstep hne
    exact discarded_next hstep hne
  · intro hfree
    exact hb.counter_unlocked fun w => Owned.lockPhase_none (hfree w)
  · intro c expired s' hstep hzero j hj
    exact hb.settled (unfinished_of_observesZero hstep hzero) hj

/-- One job is inserted and run by the second worker, which steals it, another is inserted
and discarded, and then the pool is polled. -/
private def insertStealClear : List (Event Unit 2) :=
  [.call () .insert] ++ List.replicate 6 (.caller () false) ++
    List.replicate 8 (.worker ⟨1, Nat.one_lt_two⟩ ⟨0, Nat.two_pos⟩) ++
  [.call () .insert] ++ List.replicate 6 (.caller () false) ++
  [.call () .clear] ++ List.replicate 10 (.caller () false) ++ [.call () .poll]

theorem accounting_insertStealClear : ∃ s : State Unit 2, (pool Unit 2).Reachable s ∧
    s.history = ⟨2, {0}, {0}, {1}⟩ ∧ s.history.executed.Nodup ∧
    s.unfinishedJobs = ∑ w, ((s.queue w).length : ℤ) +
      ∑ w, if (s.thread w).hold.job.isSome then 1 else 0 := by
  have hrun : ((pool Unit 2).replay (fun _ _ => True) (pool Unit 2).start insertStealClear).map
      (fun s => (s.history, decide (∀ w, s.mutex w = none))) =
        some (⟨2, {0}, {0}, {1}⟩, true) := by decide +kernel
  obtain ⟨s, hs, hfacts⟩ := Option.map_eq_some_iff.mp hrun
  obtain ⟨hhistory, hfree⟩ := Prod.mk.inj hfacts
  have hreach : (pool Unit 2).Reachable s := Machine.Reach.of_replay insertStealClear .start hs
  obtain ⟨hnodup, -, -, -, -, hcount, -⟩ := accounting hreach
  exact ⟨s, hreach, hhistory, hnodup, hcount (of_decide_eq_true hfree)⟩

end ThreadPool

end RsIo
