import RsIo.JobLedger

/-!
# The Thread Pool

`thread-pool.cpp` and `thread-pool.hpp` as a machine: every mutex-protected section is
split at its accesses to the atomic counters, and every atomic access is a step of its own.
The callers of the pool's functions and its worker threads take their steps in any order.

A queued callback is the number of its acceptance. Callbacks are taken to be non-null and
not to throw, which is what `insert()` asks for. A job that itself calls `insert()` or
`poll()` does so as one more caller. The atomic `int`s are integers: this is the pool as long as
fewer than `2 ^ 31` accepted jobs are unfinished at one time, and fewer than `2 ^ 31` callers are
in `clear()`.

`pool` is the machine. The numbers of the accepted, executed, finished and discarded jobs
are kept next to the data of the source, which has no such record.
-/

namespace RsIo

namespace ThreadPool

/-- `ThreadPool::adjust_threads`, where `hardware` is the hardware concurrency. -/
def adjustThreads (threads : ℤ) (hardware : ℕ) : ℤ :=
  let threads : ℤ := if threads ≤ 0 then hardware else threads
  if threads = 0 then 1 else threads

/-- A pool has at least one worker. -/
theorem adjustThreads_pos (threads : ℤ) (hardware : ℕ) : 0 < adjustThreads threads hardware := by
  simp only [adjustThreads]
  split_ifs <;> omega

/-- The member functions of the pool. `wait_for` is `wait_until` with a sum. -/
inductive Call
  | insert
  | clear
  | wait
  | poll
  | waitUntil
  | destroy
  deriving DecidableEq, Repr

/-- Where a caller is in the function it called. `final` says that `clear()` was called by
the destructor. -/
inductive CallerPc (n : ℕ)
  | idle
  | insertCheck
  | insertIndex
  | insertNext (index : Fin n)
  | insertLock (index : Fin n)
  | insertCount (index : Fin n)
  | insertPush (index : Fin n)
  | clearEnter (final : Bool)
  | clearNext (k : ℕ) (final : Bool)
  | clearSubtract (k : Fin n) (final : Bool)
  | clearDiscard (k : Fin n) (final : Bool)
  | clearWait (final : Bool)
  | clearLeave (final : Bool)
  | shutDown
  | join
  | wait
  | poll
  | waitUntil
  | waitUntilClock
  | returned (zero : Bool)
  deriving DecidableEq, Repr

/-- Where a worker thread is in `thread_payload`. -/
inductive WorkerPc (n : ℕ)
  | fetch
  | fetchLocked
  | steal
  | stealLock (k : Fin n)
  | stealLocked (k : Fin n)
  | popped (job : ℕ)
  | calling (job : ℕ)
  | called (job : ℕ)
  | check
  | stopped
  deriving DecidableEq, Repr

/-- A thread that can hold the mutex of a worker. -/
inductive Thread (C : Type) (n : ℕ)
  | caller (c : C)
  | worker (w : Fin n)
  deriving DecidableEq, Repr

/-- The pool, its workers and its callers. The members `mutex`, `queue` and `thread` of a
`worker` are functions of its index. The history is not in the source. In the source
`unfinishedJobs` and `clearCount` have the range of `int`, which `2 ^ 31` unfinished jobs exceed. -/
structure State (C : Type) (n : ℕ) where
  clearCount : ℤ
  nextWorker : Fin n
  unfinishedJobs : ℤ
  shuttingDown : Bool
  mutex : Fin n → Option (Thread C n)
  queue : Fin n → List ℕ
  thread : Fin n → WorkerPc n
  caller : C → CallerPc n
  history : History

/-- What happens next: an idle caller calls a function, a caller takes a step, for which
the clock may have `expired`, or a worker does, whose random index would be `k`. -/
inductive Event (C : Type) (n : ℕ)
  | call (c : C) (f : Call)
  | caller (c : C) (expired : Bool)
  | worker (w : Fin n) (k : Fin n)
  deriving DecidableEq, Repr

/-- The first step of a function. -/
def Call.entry {n : ℕ} : Call → CallerPc n
  | insert => .insertCheck
  | clear => .clearEnter false
  | wait => .wait
  | poll => .poll
  | waitUntil => .waitUntil
  | destroy => .clearEnter true

namespace State

variable {C : Type} [DecidableEq C] {n : ℕ}

/-- A caller moves on. -/
def setCaller (s : State C n) (c : C) (p : CallerPc n) : State C n :=
  { s with caller := Function.update s.caller c p }

/-- A worker moves on. -/
def setThread (s : State C n) (w : Fin n) (p : WorkerPc n) : State C n :=
  { s with thread := Function.update s.thread w p }

/-- The queue of a worker changes. -/
def setQueue (s : State C n) (w : Fin n) (q : List ℕ) : State C n :=
  { s with queue := Function.update s.queue w q }

/-- The number of unfinished jobs changes. -/
def setUnfinished (s : State C n) (k : ℤ) : State C n :=
  { s with unfinishedJobs := k }

/-- The history goes on. -/
def setHistory (s : State C n) (x : History) : State C n :=
  { s with history := x }

/-- The mutex of a worker is unlocked. -/
def unlock (s : State C n) (w : Fin n) : State C n :=
  { s with mutex := Function.update s.mutex w none }

/-- Takes a mutex, or blocks. -/
def lock (s : State C n) (w : Fin n) (t : Thread C n) : Option (State C n) :=
  match s.mutex w with
  | none => some { s with mutex := Function.update s.mutex w (some t) }
  | some _ => none

/-- One step of a caller. -/
def callerStep [NeZero n] (s : State C n) (c : C) (expired : Bool) : Option (State C n) :=
  match s.caller c with
  | .idle => none
  | .returned _ => none
  -- insert()
  | .insertCheck => some (s.setCaller c (if s.clearCount = 0 then .insertIndex else .idle))
  | .insertIndex => some (s.setCaller c (.insertNext s.nextWorker))
  | .insertNext index =>
      let next := ⟨(index + 1) % n, Nat.mod_lt _ (NeZero.pos n)⟩
      some ({ s with nextWorker := next }.setCaller c (.insertLock index))
  | .insertLock index =>
      (s.lock index (.caller c)).map fun s => s.setCaller c (.insertCount index)
  | .insertCount index =>
      some ((s.setUnfinished (s.unfinishedJobs + 1)).setCaller c (.insertPush index))
  | .insertPush index =>
      let s := s.setQueue index (s.queue index ++ [s.history.accepted])
      let s := s.setHistory { s.history with accepted := s.history.accepted + 1 }
      some ((s.unlock index).setCaller c .idle)
  -- clear(), and the destructor after it
  | .clearEnter final =>
      some ({ s with clearCount := s.clearCount + 1 }.setCaller c (.clearNext 0 final))
  | .clearNext k final =>
      if h : k < n then
        (s.lock ⟨k, h⟩ (.caller c)).map fun s => s.setCaller c (.clearSubtract ⟨k, h⟩ final)
      else
        some (s.setCaller c (.clearWait final))
  | .clearSubtract k final =>
      -- the lock is held until the queue is empty, so these jobs are lost from here on
      let discarded := s.history.discarded + (s.queue k : List ℕ)
      let s := s.setUnfinished (s.unfinishedJobs - (s.queue k).length)
      some ((s.setHistory { s.history with discarded := discarded }).setCaller c
        (.clearDiscard k final))
  | .clearDiscard k final =>
      some (((s.setQueue k []).unlock k).setCaller c (.clearNext (k + 1) final))
  | .clearWait final =>
      some (s.setCaller c (if s.unfinishedJobs = 0 then .clearLeave final else .clearWait final))
  | .clearLeave final =>
      some ({ s with clearCount := s.clearCount - 1 }.setCaller c
        (if final then .shutDown else .idle))
  | .shutDown => some ({ s with shuttingDown := true }.setCaller c .join)
  | .join => if ∀ w, s.thread w = .stopped then some (s.setCaller c .idle) else none
  -- wait(), poll() and wait_until()
  | .wait => some (s.setCaller c (if s.unfinishedJobs = 0 then .returned true else .wait))
  | .poll => some (s.setCaller c (.returned (s.unfinishedJobs = 0)))
  | .waitUntil =>
      some (s.setCaller c (if s.unfinishedJobs = 0 then .returned true else .waitUntilClock))
  | .waitUntilClock => some (s.setCaller c (if expired then .returned false else .waitUntil))

/-- One step of a worker thread, whose random index is `k` when it needs one. -/
def workerStep (s : State C n) (w k : Fin n) : Option (State C n) :=
  match s.thread w with
  | .fetch => (s.lock w (.worker w)).map fun s => s.setThread w .fetchLocked
  | .fetchLocked =>
      match (s.queue w).getLast? with
      | some job =>
          some (((s.setQueue w (s.queue w).dropLast).unlock w).setThread w (.popped job))
      | none => some ((s.unlock w).setThread w .steal)
  | .steal => some (s.setThread w (.stealLock k))
  | .stealLock k => (s.lock k (.worker w)).map fun s => s.setThread w (.stealLocked k)
  | .stealLocked k =>
      match s.queue k with
      | job :: rest => some (((s.setQueue k rest).unlock k).setThread w (.popped job))
      | [] => some ((s.unlock k).setThread w .check)
  | .popped job =>
      let executed := s.history.executed + {job}
      some ((s.setHistory { s.history with executed := executed }).setThread w (.calling job))
  | .calling job => some (s.setThread w (.called job))
  | .called job =>
      let finished := s.history.finished + {job}
      let s := s.setUnfinished (s.unfinishedJobs - 1)
      some ((s.setHistory { s.history with finished := finished }).setThread w .fetch)
  | .check => some (s.setThread w (if s.shuttingDown then .stopped else .fetch))
  | .stopped => none

/-- One step of the pool. A function is called by a caller that is in none. -/
def next [NeZero n] (s : State C n) : Event C n → Option (State C n)
  | .call c f =>
      match s.caller c with
      | .idle => some (s.setCaller c f.entry)
      | .returned _ => some (s.setCaller c f.entry)
      | _ => none
  | .caller c expired => s.callerStep c expired
  | .worker w k => s.workerStep w k

end State

/-- A pool of `n` workers, just constructed, and its callers. -/
def pool (C : Type) [DecidableEq C] (n : ℕ) [NeZero n] : Machine (State C n) (Event C n) where
  start :=
    { clearCount := 0, nextWorker := 0, unfinishedJobs := 0, shuttingDown := false,
      mutex := fun _ => none, queue := fun _ => [], thread := fun _ => .fetch,
      caller := fun _ => .idle, history := ⟨0, 0, 0, 0⟩ }
  next := State.next

end ThreadPool

end RsIo
