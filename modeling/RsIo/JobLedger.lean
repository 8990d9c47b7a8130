import RsIo.Transition
import Mathlib.Algebra.BigOperators.Fin
import Mathlib.Algebra.Order.BigOperators.Group.Finset
import Mathlib.Data.Multiset.Range
import Mathlib.Tactic.Abel
import Mathlib.Tactic.Linarith

/-!
# The Ledger of a Job Queue

What a pool of workers does to its jobs, with everything else left out. A job is the
number of its acceptance. It waits in the queue of one of the workers, is held by the
worker that popped it, and ends up finished or discarded. A counter of unfinished jobs is
kept next to the queues, and each queue is only touched inside a section of its lock.

## Main results

* `Ledger.Balanced.step`: every step keeps the accounts.
* `Ledger.Balanced.executed_nodup`, `Ledger.Balanced.not_both`: no job runs twice, and no
  job that runs has been discarded.
* `Ledger.Balanced.settled`: when the counter is zero every accepted job is settled.
-/

namespace RsIo

/-- How far a section on a queue has got: it has the lock, it has counted the job it is
about to push, or it has subtracted the jobs it is about to discard. -/
inductive Phase
  | entered
  | counted
  | subtracted
  deriving DecidableEq, Repr

/-- What a worker has in hand: nothing, or a job it popped, is running, or has run but
not yet counted as finished. -/
inductive Hold
  | nothing
  | popped (job : ℕ)
  | calling (job : ℕ)
  | called (job : ℕ)
  deriving DecidableEq, Repr

namespace Hold

/-- The job in hand. -/
def job : Hold → Option ℕ
  | nothing => none
  | popped j | calling j | called j => some j

/-- The job in hand, as a multiset. -/
def jobs : Hold → Multiset ℕ
  | nothing => 0
  | popped j | calling j | called j => {j}

/-- The job in hand if its callback has been invoked. -/
def started : Hold → Multiset ℕ
  | nothing | popped _ => 0
  | calling j | called j => {j}

/-- One if there is a job in hand. -/
def count : Hold → ℤ
  | nothing => 0
  | popped _ | calling _ | called _ => 1

/-- The held job is the only one. -/
theorem mem_jobs {h : Hold} {j : ℕ} : j ∈ h.jobs ↔ h.job = some j := by
  cases h <;> simp [jobs, job, eq_comm]

/-- One job is held, or none. -/
theorem count_eq (h : Hold) : h.count = if h.job.isSome then 1 else 0 := by
  cases h <;> rfl

/-- No fewer than no jobs are held. -/
theorem count_nonneg (h : Hold) : 0 ≤ h.count := by
  cases h <;> simp [count]

/-- Without a job nothing is held. -/
theorem jobs_of_count {h : Hold} (hc : h.count = 0) : h.jobs = 0 := by
  cases h <;> simp_all [count, jobs]

/-- A started job is held. -/
theorem started_le (h : Hold) : h.started ≤ h.jobs := by
  cases h <;> simp [started, jobs]

end Hold

/-- One queue, with the phase of the section that holds its lock. -/
structure Slot where
  phase : Option Phase
  queue : List ℕ

namespace Slot

/-- The jobs that still count as queued. Those that a section has subtracted do not. -/
def live (s : Slot) : Multiset ℕ :=
  match s.phase with
  | some .subtracted => 0
  | _ => s.queue

/-- What the slot owes to the counter: its live jobs, and the one that has been counted
but not pushed. -/
def owed (s : Slot) : ℤ :=
  match s.phase with
  | some .subtracted => 0
  | some .counted => s.queue.length + 1
  | _ => s.queue.length

/-- A live job is in the queue. -/
theorem mem_queue_of_live {s : Slot} {j : ℕ} (h : j ∈ s.live) : j ∈ s.queue := by
  unfold live at h
  split at h
  next => exact absurd h (Multiset.notMem_zero j)
  next => exact h

/-- Nothing less than nothing is owed. -/
theorem owed_nonneg (s : Slot) : 0 ≤ s.owed := by
  unfold owed
  split <;> omega

/-- If nothing is owed no job is live. -/
theorem live_of_owed {s : Slot} (h : s.owed = 0) : s.live = 0 := by
  unfold owed at h
  unfold live
  split at h
  next hp => rw [hp]
  next hp => omega
  next => split <;> simp_all

end Slot

/-- Which jobs have been accepted, invoked, finished and discarded so far. -/
structure History where
  accepted : ℕ
  executed : Multiset ℕ
  finished : Multiset ℕ
  discarded : Multiset ℕ
  deriving DecidableEq

/-- The ledger of a pool whose workers are `W`. -/
@[ext] structure Ledger (W : Type) where
  slot : W → Slot
  hold : W → Hold
  unfinished : ℤ
  history : History

namespace Ledger

variable {W : Type} [DecidableEq W]

/-- The ledger with another slot for `w`. -/
def setSlot (b : Ledger W) (w : W) (x : Slot) : Ledger W :=
  { b with slot := Function.update b.slot w x }

/-- The ledger with something else in the hand of worker `v`. -/
def setHold (b : Ledger W) (v : W) (x : Hold) : Ledger W :=
  { b with hold := Function.update b.hold v x }

/-- The ledger with another counter. -/
def setUnfinished (b : Ledger W) (n : ℤ) : Ledger W :=
  { b with unfinished := n }

/-- The ledger with another history. -/
def setHistory (b : Ledger W) (x : History) : Ledger W :=
  { b with history := x }

/-- What can happen to the ledger. -/
inductive Step : Ledger W → Ledger W → Prop
  /-- Nothing that is on the ledger changes. -/
  | quiet (b) : Step b b
  /-- A section takes the lock of a queue. -/
  | enter (b : Ledger W) (w) (hp : (b.slot w).phase = none) :
      Step b (b.setSlot w ⟨some .entered, (b.slot w).queue⟩)
  /-- A section that has done nothing gives the lock back. -/
  | leave (b : Ledger W) (w) (hp : (b.slot w).phase = some .entered) :
      Step b (b.setSlot w ⟨none, (b.slot w).queue⟩)
  /-- A job is counted before it is pushed. -/
  | count (b : Ledger W) (w) (hp : (b.slot w).phase = some .entered) :
      Step b ((b.setSlot w ⟨some .counted, (b.slot w).queue⟩).setUnfinished (b.unfinished + 1))
  /-- The counted job is pushed and the lock given back. The job gets its number. -/
  | push (b : Ledger W) (w) (hp : (b.slot w).phase = some .counted) :
      Step b ((b.setSlot w ⟨none, (b.slot w).queue ++ [b.history.accepted]⟩).setHistory
        { b.history with accepted := b.history.accepted + 1 })
  /-- The jobs of a queue are taken off the counter: from here on they are discarded. -/
  | subtract (b : Ledger W) (w) (hp : (b.slot w).phase = some .entered) :
      Step b (((b.setSlot w ⟨some .subtracted, (b.slot w).queue⟩).setUnfinished
        (b.unfinished - (b.slot w).queue.length)).setHistory
          { b.history with discarded := b.history.discarded + ((b.slot w).queue : List ℕ) })
  /-- The queue whose jobs have been subtracted is emptied and its lock given back. -/
  | discard (b : Ledger W) (w) (hp : (b.slot w).phase = some .subtracted) :
      Step b (b.setSlot w ⟨none, []⟩)
  /-- Worker `v` takes one job out of the queue of `w` and the lock is given back. -/
  | pop (b : Ledger W) (v w) (j : ℕ) (q q' : List ℕ) (hp : (b.slot w).phase = some .entered)
      (hq : (b.slot w).queue = q ++ j :: q') (hv : b.hold v = .nothing) :
      Step b ((b.setSlot w ⟨none, q ++ q'⟩).setHold v (.popped j))
  /-- A worker invokes the callback it popped. -/
  | call (b : Ledger W) (v) (j : ℕ) (hv : b.hold v = .popped j) :
      Step b ((b.setHold v (.calling j)).setHistory
        { b.history with executed := b.history.executed + {j} })
  /-- The callback returns. -/
  | callEnd (b : Ledger W) (v) (j : ℕ) (hv : b.hold v = .calling j) :
      Step b (b.setHold v (.called j))
  /-- The job is taken off the counter as finished. -/
  | finish (b : Ledger W) (v) (j : ℕ) (hv : b.hold v = .called j) :
      Step b (((b.setHold v .nothing).setUnfinished (b.unfinished - 1)).setHistory
        { b.history with finished := b.history.finished + {j} })

variable [Fintype W]

/-- The accounts of a ledger. Every accepted job is in exactly one place, the counter is
what the queues and the workers owe to it, the jobs that ran are the finished ones and
those in hand, and the jobs a section has subtracted are discarded. -/
structure Balanced (b : Ledger W) : Prop where
  places : ∑ w, (b.slot w).live + ∑ w, (b.hold w).jobs + b.history.finished +
    b.history.discarded = Multiset.range b.history.accepted
  counter : b.unfinished = ∑ w, (b.slot w).owed + ∑ w, (b.hold w).count
  ran : b.history.executed = b.history.finished + ∑ w, (b.hold w).started
  doomed : ∀ w, (b.slot w).phase = some .subtracted →
    ∀ j ∈ (b.slot w).queue, j ∈ b.history.discarded

/-- A ledger on which nothing has happened. -/
def IsEmpty (b : Ledger W) : Prop :=
  (∀ w, b.slot w = ⟨none, []⟩) ∧ (∀ w, b.hold w = .nothing) ∧ b.unfinished = 0 ∧
    b.history = ⟨0, 0, 0, 0⟩

omit [DecidableEq W] in
/-- The empty ledger is balanced. -/
theorem IsEmpty.balanced {b : Ledger W} (h : b.IsEmpty) : b.Balanced := by
  obtain ⟨hslot, hhold, hcount, hhist⟩ := h
  constructor
  · simp [hslot, hhold, hhist, Slot.live, Hold.jobs]
  · simp [hslot, hhold, hcount, Slot.owed, Hold.count]
  · simp [hhold, hhist, Hold.started]
  · simp [hslot]

/-- A slot takes on a new phase and queue, and the places of the other jobs stay. The jobs
it had subtracted, if any, are those of the new slot. -/
private theorem doomed_setSlot {b : Ledger W} (h : b.Balanced) {w : W} {x : Slot}
    {d : Multiset ℕ} (hle : b.history.discarded ≤ d)
    (hx : x.phase = some .subtracted → ∀ j ∈ x.queue, j ∈ d) :
    ∀ v, (Function.update b.slot w x v).phase = some .subtracted →
      ∀ j ∈ (Function.update b.slot w x v).queue, j ∈ d := by
  intro v hv j hj
  rcases eq_or_ne v w with rfl | hne
  · rw [Function.update_self] at hv hj
    exact hx hv j hj
  · rw [Function.update_of_ne hne] at hv hj
    exact Multiset.mem_of_le hle (h.doomed v hv j hj)

/-- A change of one slot that keeps its live jobs and what it owes. -/
private theorem Balanced.relock {b : Ledger W} (h : b.Balanced) {w : W} {x : Slot}
    (hlive : x.live = (b.slot w).live) (howed : x.owed = (b.slot w).owed)
    (hx : x.phase ≠ some .subtracted) : (b.setSlot w x).Balanced where
  places := by
    rw [setSlot, sum_update_same Slot.live hlive]
    exact h.places
  counter := by
    rw [setSlot, sum_update_same Slot.owed howed]
    exact h.counter
  ran := h.ran
  doomed := doomed_setSlot h le_rfl fun hp => absurd hp hx

/-- Every step keeps the accounts. -/
theorem Balanced.step {b b' : Ledger W} (h : b.Balanced) (hs : Step b b') : b'.Balanced := by
  cases hs with
  | quiet => exact h
  | enter w hp => exact h.relock (by simp [Slot.live, hp]) (by simp [Slot.owed, hp]) (by simp)
  | leave w hp => exact h.relock (by simp [Slot.live, hp]) (by simp [Slot.owed, hp]) (by simp)
  | discard w hp => exact h.relock (by simp [Slot.live, hp]) (by simp [Slot.owed, hp]) (by simp)
  | count w hp =>
      constructor
      · simp only [setSlot, setUnfinished]
        rw [sum_update_same Slot.live (by simp [Slot.live, hp])]
        exact h.places
      · simp only [setSlot, setUnfinished]
        rw [sum_update_gain Slot.owed (d := 1) (by simp [Slot.owed, hp]), h.counter]
        omega
      · exact h.ran
      · exact doomed_setSlot h le_rfl (by simp)
  | push w hp =>
      constructor
      · simp only [setSlot, setHistory]
        rw [sum_update_gain Slot.live (d := {b.history.accepted})
            (by simp [Slot.live, hp, ← Multiset.coe_add]),
          Multiset.range_succ, ← Multiset.singleton_add, ← h.places]
        abel
      · simp only [setSlot, setHistory]
        rw [sum_update_same Slot.owed (by simp [Slot.owed, hp])]
        exact h.counter
      · exact h.ran
      · exact doomed_setSlot h le_rfl (by simp)
  | subtract w hp =>
      constructor
      · simp only [setSlot, setHistory, setUnfinished]
        rw [← h.places, ← sum_update_lose Slot.live (x := ⟨some .subtracted, (b.slot w).queue⟩)
          (d := ((b.slot w).queue : List ℕ)) (f := b.slot) (i := w) (by simp [Slot.live, hp])]
        abel
      · have hsum := sum_update_lose Slot.owed (x := ⟨some .subtracted, (b.slot w).queue⟩)
          (d := ((b.slot w).queue.length : ℤ)) (f := b.slot) (i := w) (by simp [Slot.owed, hp])
        have hcount := h.counter
        simp only [setSlot, setHistory, setUnfinished]
        omega
      · exact h.ran
      · exact doomed_setSlot h (Multiset.le_add_right _ _)
          fun _ j hj => Multiset.mem_add.mpr (Or.inr hj)
  | pop v w j q q' hp hq hv =>
      constructor
      · simp only [setSlot, setHold]
        rw [← h.places, sum_update_gain Hold.jobs (d := {j}) (by simp [Hold.jobs, hv]),
          ← sum_update_lose Slot.live (x := ⟨none, q ++ q'⟩) (d := {j}) (f := b.slot) (i := w)
            (by
              simp only [Slot.live, hp, hq, ← Multiset.coe_add, ← Multiset.cons_coe]
              rw [← Multiset.singleton_add]
              abel)]
        abel
      · have hsum := sum_update_lose Slot.owed (x := ⟨none, q ++ q'⟩) (d := 1) (f := b.slot)
          (i := w) (by simp [Slot.owed, hp, hq]; omega)
        have hcount := h.counter
        simp only [setSlot, setHold]
        rw [sum_update_gain Hold.count (d := 1) (by simp [Hold.count, hv])]
        omega
      · simp only [setSlot, setHold]
        rw [sum_update_same Hold.started (by simp [Hold.started, hv])]
        exact h.ran
      · exact doomed_setSlot h le_rfl (by simp)
  | call v j hv =>
      constructor
      · simp only [setHold, setHistory]
        rw [sum_update_same Hold.jobs (by simp [Hold.jobs, hv])]
        exact h.places
      · simp only [setHold, setHistory]
        rw [sum_update_same Hold.count (by simp [Hold.count, hv])]
        exact h.counter
      · simp only [setHold, setHistory]
        rw [sum_update_gain Hold.started (d := {j}) (by simp [Hold.started, hv]), h.ran]
        abel
      · exact h.doomed
  | callEnd v j hv =>
      constructor
      · simp only [setHold]
        rw [sum_update_same Hold.jobs (by simp [Hold.jobs, hv])]
        exact h.places
      · simp only [setHold]
        rw [sum_update_same Hold.count (by simp [Hold.count, hv])]
        exact h.counter
      · simp only [setHold]
        rw [sum_update_same Hold.started (by simp [Hold.started, hv])]
        exact h.ran
      · exact h.doomed
  | finish v j hv =>
      constructor
      · simp only [setHold, setHistory, setUnfinished]
        rw [← h.places, ← sum_update_lose Hold.jobs (x := .nothing) (d := {j}) (f := b.hold)
          (i := v) (by simp [Hold.jobs, hv])]
        abel
      · have hsum := sum_update_lose Hold.count (x := .nothing) (d := 1) (f := b.hold)
          (i := v) (by simp [Hold.count, hv])
        have hcount := h.counter
        simp only [setHold, setHistory, setUnfinished]
        omega
      · simp only [setHold, setHistory, setUnfinished]
        rw [h.ran, ← sum_update_lose Hold.started (x := .nothing) (d := {j}) (f := b.hold)
          (i := v) (by simp [Hold.started, hv])]
        abel
      · exact h.doomed

/-- A run of steps keeps the accounts. -/
theorem Balanced.run {b b' : Ledger W} (h : b.Balanced)
    (hs : Relation.ReflTransGen Step b b') : b'.Balanced := by
  induction hs with
  | refl => exact h
  | tail _ hstep ih => exact ih.step hstep

/-! ### What balanced accounts say -/

omit [DecidableEq W]

/-- The jobs that ran, and the discarded ones, are accepted jobs, each at most once. -/
theorem Balanced.executed_le {b : Ledger W} (h : b.Balanced) :
    b.history.executed + b.history.discarded ≤ Multiset.range b.history.accepted := by
  have hstart : ∑ w, (b.hold w).started ≤ ∑ w, (b.hold w).jobs :=
    Finset.sum_le_sum fun w _ => (b.hold w).started_le
  rw [← h.places, h.ran]
  calc b.history.finished + ∑ w, (b.hold w).started + b.history.discarded
      ≤ b.history.finished + ∑ w, (b.hold w).jobs + b.history.discarded := by gcongr
    _ ≤ ∑ w, (b.slot w).live + (b.history.finished + ∑ w, (b.hold w).jobs +
          b.history.discarded) := Multiset.le_add_left _ _
    _ = _ := by abel

/-- No job runs twice. -/
theorem Balanced.executed_nodup {b : Ledger W} (h : b.Balanced) : b.history.executed.Nodup :=
  Multiset.nodup_of_le ((Multiset.le_add_right _ _).trans h.executed_le)
    (Multiset.nodup_range _)

/-- A finished job has run. -/
theorem Balanced.finished_le {b : Ledger W} (h : b.Balanced) :
    b.history.finished ≤ b.history.executed := by
  rw [h.ran]
  exact Multiset.le_add_right _ _

/-- Only accepted jobs run. -/
theorem Balanced.executed_lt {b : Ledger W} (h : b.Balanced) {j : ℕ}
    (hj : j ∈ b.history.executed) : j < b.history.accepted :=
  Multiset.mem_range.mp
    (Multiset.mem_of_le h.executed_le (Multiset.mem_add.mpr (Or.inl hj)))

/-- No job runs and is discarded. -/
theorem Balanced.not_both {b : Ledger W} (h : b.Balanced) {j : ℕ}
    (hj : j ∈ b.history.executed) : j ∉ b.history.discarded := by
  have hnodup := Multiset.nodup_of_le h.executed_le (Multiset.nodup_range _)
  exact Multiset.disjoint_left.mp (Multiset.nodup_add.mp hnodup).2.2 hj

/-- Every accepted job is somewhere. -/
theorem Balanced.somewhere {b : Ledger W} (h : b.Balanced) {j : ℕ}
    (hj : j < b.history.accepted) :
    j ∈ b.history.finished ∨ j ∈ b.history.discarded ∨ (∃ w, j ∈ (b.slot w).live) ∨
      ∃ w, (b.hold w).job = some j := by
  have hmem : j ∈ Multiset.range b.history.accepted := Multiset.mem_range.mpr hj
  rw [← h.places] at hmem
  simp only [Multiset.mem_add, Multiset.mem_sum, Finset.mem_univ, true_and,
    Hold.mem_jobs] at hmem
  tauto

/-- When the counter is zero every accepted job is settled: the queues hold no live job
and the workers have nothing in hand. -/
theorem Balanced.settled {b : Ledger W} (h : b.Balanced) (hzero : b.unfinished = 0) {j : ℕ}
    (hj : j < b.history.accepted) : j ∈ b.history.finished ∨ j ∈ b.history.discarded := by
  have hcount := h.counter
  have howed : 0 ≤ ∑ w, (b.slot w).owed := Finset.sum_nonneg fun w _ => (b.slot w).owed_nonneg
  have hhand : 0 ≤ ∑ w, (b.hold w).count := Finset.sum_nonneg fun w _ => (b.hold w).count_nonneg
  have howed0 : ∑ w, (b.slot w).owed = 0 := by omega
  have hhand0 : ∑ w, (b.hold w).count = 0 := by omega
  rw [Finset.sum_eq_zero_iff_of_nonneg fun w _ => (b.slot w).owed_nonneg] at howed0
  rw [Finset.sum_eq_zero_iff_of_nonneg fun w _ => (b.hold w).count_nonneg] at hhand0
  rcases h.somewhere hj with hf | hd | ⟨w, hw⟩ | ⟨w, hw⟩
  · exact Or.inl hf
  · exact Or.inr hd
  · rw [Slot.live_of_owed (howed0 w (Finset.mem_univ w))] at hw
    exact absurd hw (Multiset.notMem_zero j)
  · rw [← Hold.mem_jobs, Hold.jobs_of_count (hhand0 w (Finset.mem_univ w))] at hw
    exact absurd hw (Multiset.notMem_zero j)

/-- When no lock is held the counter is the number of queued jobs and of jobs in hand. -/
theorem Balanced.counter_unlocked {b : Ledger W} (h : b.Balanced)
    (hfree : ∀ w, (b.slot w).phase = none) :
    b.unfinished = ∑ w, ((b.slot w).queue.length : ℤ) +
      ∑ w, if (b.hold w).job.isSome then 1 else 0 := by
  rw [h.counter]
  congr 1
  · exact Finset.sum_congr rfl fun w _ => by simp [Slot.owed, hfree w]
  · exact Finset.sum_congr rfl fun w _ => (b.hold w).count_eq

end Ledger

end RsIo
