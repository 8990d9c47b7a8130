import RsIo.Transition
import Mathlib.Data.List.Basic
import Mathlib.Data.Multiset.AddSub

/-!
# The Signal Channel

The class `PosixSignal`, as it is on Linux, in the thread that constructs it, waits for it and
destroys it. Signals are sent to this thread at any time. A signal that the thread blocks is
pending, and one that is not real-time is pending once at most; the others are queued, while the
system has room. `SIGCONT` cancels the pending signals that would stop the process, and each of
these cancels `SIGCONT`, also when it is sent to another thread. Another thread may call `close`,
also while the thread is in `sigtimedwait`: it raises `SIGUSR1` for itself.

Which of the pending signals `sigwait` takes is not specified, so each may be taken.

The destructor calls `sigwait` once for each entry of the list that is pending, and waits for any
pending signal, also one that is not in the list.

## Main results

* `Accounted.step`: a signal that the channel listens for is pending, or was taken once, or was
  cancelled.
* `signals_accounted`: the signals that are read, in every run.
* `destroy_iff`: when the destructor returns at once and leaves no signal of the list pending.
* `destroy_clean`: it does so in every run of a channel for different signals that are not queued.
-/

namespace RsIo

/-! ### The signals of a thread -/

/-- The signals that a thread blocks, those that are pending, and those that had their effect. -/
structure Signals where
  blocked : ℤ → Bool
  pending : List ℤ
  delivered : List ℤ

namespace Signals

/-- `SIGKILL`, which no thread can block. -/
def sigkill : ℤ := 9
/-- `SIGSTOP`, which no thread can block. -/
def sigstop : ℤ := 19
/-- `SIGUSR1`, which `close` raises. -/
def sigusr1 : ℤ := 10
/-- `SIGCONT`. -/
def sigcont : ℤ := 18

/-- `SIGSTOP`, `SIGTSTP`, `SIGTTIN` and `SIGTTOU`. -/
def stops (s : ℤ) : Bool :=
  19 ≤ s && s ≤ 22

/-- Sending the signal `s` cancels a pending signal `t`. -/
def cancels (s t : ℤ) : Bool :=
  (s == sigcont && stops t) || (stops s && t == sigcont)

/-- A number that `sigaddset` accepts. -/
def valid (s : ℤ) : Bool :=
  1 ≤ s && s ≤ 64 && s ≠ 32 && s ≠ 33

/-- Signals between `SIGRTMIN` and `SIGRTMAX` are queued. -/
def realTime (s : ℤ) : Bool :=
  34 ≤ s && s ≤ 64

/-- A signal that a mask can contain. -/
def blockable (s : ℤ) : Bool :=
  s ≠ sigkill && s ≠ sigstop

/-- What a signal that is sent to any thread of the process does to the pending signals. -/
def cancel (k : Signals) (s : ℤ) : Signals :=
  { k with pending := k.pending.filter fun t => !cancels s t }

/-- A signal has its effect in the thread, or becomes pending. -/
def arrive (k : Signals) (s : ℤ) : Signals :=
  if !k.blocked s then
    { k with delivered := k.delivered ++ [s] }
  else if !realTime s && k.pending.contains s then
    k
  else
    { k with pending := k.pending ++ [s] }

/-- A signal is sent to the thread. What it cancels is cancelled also if the thread blocks it. -/
def send (k : Signals) (s : ℤ) : Signals :=
  (k.cancel s).arrive s

/-- The mask of the thread changes, and the pending signals that are not blocked any more have
their effect. -/
def setMask (k : Signals) (mask : ℤ → Bool) : Signals where
  blocked s := mask s && blockable s
  pending := k.pending.filter fun s => mask s && blockable s
  delivered := k.delivered ++ k.pending.filter fun s => !(mask s && blockable s)

/-- Takes the pending signal at the place `i`, if it is in the set. -/
def take (k : Signals) (set : ℤ → Bool) (i : ℕ) : Option (ℤ × Signals) :=
  match k.pending[i]? with
  | some s => if set s then some (s, { k with pending := k.pending.eraseIdx i }) else none
  | none => none

/-- A signal that is taken is gone from what is pending, also behind those that were cancelled. -/
theorem taken {cancelled pending rest : List ℤ} {s : ℤ} (h : pending.Perm (s :: rest)) :
    ([s] ++ (cancelled ++ rest)).Perm (cancelled ++ pending) := by
  have hmiddle : (cancelled ++ s :: rest).Perm (s :: (cancelled ++ rest)) := List.perm_middle
  exact hmiddle.symm.trans (h.symm.append_left cancelled)

/-- No other signals are cancelled. -/
theorem of_cancels {s t : ℤ} (h : cancels s t = true) : t = sigcont ∨ stops t = true := by
  simp only [cancels, Bool.or_eq_true, Bool.and_eq_true, beq_iff_eq] at h
  exact h.symm.imp And.right And.right

/-- A pending signal is cancelled or stays. -/
theorem cancel_perm (k : Signals) (s : ℤ) :
    ((k.cancel s).pending ++ k.pending.filter (cancels s)).Perm k.pending := by
  refine .trans ?_ (List.filter_append_perm (fun t => !cancels s t) k.pending)
  simp only [cancel, Bool.not_not]
  exact .refl _

/-- What `take` gives: a pending signal of the set. -/
theorem take_eq_some {k k' : Signals} {set : ℤ → Bool} {i : ℕ} {s : ℤ}
    (h : k.take set i = some (s, k')) :
    k.pending[i]? = some s ∧ set s = true ∧ k' = { k with pending := k.pending.eraseIdx i } := by
  unfold take at h
  split at h
  next t ht =>
    obtain ⟨hset, heq⟩ := Option.ite_none_right_eq_some.mp h
    obtain ⟨rfl, rfl⟩ := Prod.mk.inj (Option.some.inj heq)
    exact ⟨ht, hset, rfl⟩
  next => cases h

/-- A signal that is taken is pending no more. -/
theorem take_perm {k k' : Signals} {set : ℤ → Bool} {i : ℕ} {s : ℤ}
    (h : k.take set i = some (s, k')) : k.pending.Perm (s :: k'.pending) := by
  obtain ⟨hi, -, rfl⟩ := take_eq_some h
  obtain ⟨hlt, hget⟩ := List.getElem?_eq_some_iff.mp hi
  rw [← hget]
  exact (List.getElem_cons_eraseIdx_perm hlt).symm

end Signals

/-! ### The channel -/

open Signals

/-- A `PosixSignal`. -/
structure PosixSignal where
  signals : List ℤ
  newmask : ℤ → Bool
  oldmask : ℤ → Bool
  queue : List ℤ
  isOpen : Bool

namespace PosixSignal

/-- The constructor. -/
def new (list : List ℤ) (k : Signals) : PosixSignal × Signals :=
  let signals := list ++ [sigusr1]
  let newmask := fun s => valid s && signals.contains s
  (⟨signals, newmask, k.blocked, [], true⟩, k.setMask fun s => k.blocked s || newmask s)

/-- `PosixSignal::is_closed`. -/
def isClosed (p : PosixSignal) : Bool :=
  !p.isOpen

/-- `PosixSignal::read`. -/
def read (p : PosixSignal) : Option ℤ × PosixSignal :=
  if !p.isOpen then
    (none, p)
  else
    match p.queue with
    | [] => (none, p)
    | s :: queue => (some s, { p with queue := queue })

/-- `PosixSignal::close`, and the signal that is raised in the thread that calls it. -/
def close (p : PosixSignal) : Option ℤ × PosixSignal :=
  if p.isOpen then
    (some sigusr1, { p with isOpen := false })
  else
    (none, p)

/-- What `do_wait_for` does before it waits: it returns true, or goes on to `sigtimedwait`. -/
def ready (p : PosixSignal) : Bool :=
  !p.isOpen || !p.queue.isEmpty

/-- What `do_wait_for` does with the result of `sigtimedwait`. -/
def waited (p : PosixSignal) (s : Option ℤ) : Bool × PosixSignal :=
  if !p.isOpen then
    (true, p)
  else
    match s with
    | none => (false, p)
    | some s => (true, { p with queue := p.queue ++ [s] })

/-! ### Runs -/

/-- A channel in its thread, which may be in `sigtimedwait`. What was read, what was taken after
the channel was closed, what was cancelled, and what has been pending, are not in the source. -/
structure State where
  channel : PosixSignal
  thread : Signals
  inWait : Bool
  reads : List ℤ
  dropped : List ℤ
  cancelled : List ℤ
  arrived : List ℤ

/-- What happens next: a signal is sent to the thread or to another one, the thread calls
`do_wait_for`, comes back from `sigtimedwait` with the pending signal at the place `i` or with
none, reads, or closes the channel, or another thread closes it. -/
inductive Event
  | send (s : ℤ)
  | sendElsewhere (s : ℤ)
  | wait
  | wake (i : ℕ)
  | expire
  | read
  | close
  | closeElsewhere
  deriving DecidableEq, Repr

namespace State

/-- A signal cancels others. -/
def cancel (s : State) (x : ℤ) : State :=
  { s with
    thread := s.thread.cancel x
    cancelled := s.cancelled ++ s.thread.pending.filter (cancels x) }

/-- A signal reaches the thread. -/
def arrive (s : State) (x : ℤ) : State :=
  { s with
    thread := s.thread.arrive x
    arrived := s.arrived ++ (s.thread.arrive x).pending.drop s.thread.pending.length }

/-- A signal is sent to the thread. -/
def send (s : State) (x : ℤ) : State :=
  (s.cancel x).arrive x

/-- One step. Nothing happens inside a call that a thread has not come back from. -/
def next (s : State) : Event → Option State
  | .send x => some (s.send x)
  | .sendElsewhere x => some (s.cancel x)
  | .wait =>
      if s.inWait then none else some { s with inWait := !s.channel.ready }
  | .wake i =>
      if s.inWait then
        (s.thread.take s.channel.newmask i).map fun r =>
          { s with
            channel := (s.channel.waited (some r.1)).2
            thread := r.2
            inWait := false
            dropped := if s.channel.isOpen then s.dropped else s.dropped ++ [r.1] }
      else
        none
  | .expire =>
      -- `sigtimedwait` does not fail while there is a signal to be taken
      if s.inWait && !s.thread.pending.any s.channel.newmask then
        some { s with channel := (s.channel.waited none).2, inWait := false }
      else
        none
  | .read =>
      if s.inWait then
        none
      else
        let r := s.channel.read
        some { s with channel := r.2, reads := s.reads ++ r.1.toList }
  | .close =>
      if s.inWait then
        none
      else
        let r := s.channel.close
        let s := { s with channel := r.2 }
        some (if r.1 = some sigusr1 then s.send sigusr1 else s)
  | .closeElsewhere => some { s with channel := s.channel.close.2 }

/-- What a step can do. -/
inductive Step (s : State) : State → Prop
  | idle : Step s s
  | send (x : ℤ) : Step s (s.send x)
  | cancel (x : ℤ) : Step s (s.cancel x)
  /-- The thread goes into `sigtimedwait`, or comes back from it with no signal. -/
  | wait (inWait : Bool) : Step s { s with inWait := inWait }
  /-- `sigtimedwait` takes a signal for the queue. -/
  | take (x : ℤ) (k : Signals) (i : ℕ) (hopen : s.channel.isOpen = true)
      (htake : s.thread.take s.channel.newmask i = some (x, k)) :
      Step s { s with
        channel := { s.channel with queue := s.channel.queue ++ [x] }
        thread := k
        inWait := false }
  /-- `sigtimedwait` takes a signal after the channel was closed. -/
  | drop (x : ℤ) (k : Signals) (i : ℕ) (hclosed : s.channel.isOpen = false)
      (htake : s.thread.take s.channel.newmask i = some (x, k)) :
      Step s { s with thread := k, inWait := false, dropped := s.dropped ++ [x] }
  | read (x : ℤ) (queue : List ℤ) (hopen : s.channel.isOpen = true)
      (hqueue : s.channel.queue = x :: queue) :
      Step s { s with channel := { s.channel with queue := queue }, reads := s.reads ++ [x] }
  | close (hopen : s.channel.isOpen = true) :
      Step s (send { s with channel := { s.channel with isOpen := false } } sigusr1)
  | closeElsewhere (hopen : s.channel.isOpen = true) :
      Step s { s with channel := { s.channel with isOpen := false } }

/-- Every step is one of these. -/
theorem Step.of_next {s s' : State} {e : Event} (h : s.next e = some s') : Step s s' := by
  cases e with
  | send x => exact Option.some.inj h ▸ .send x
  | sendElsewhere x => exact Option.some.inj h ▸ .cancel x
  | wait =>
      simp only [next] at h
      split at h
      next => cases h
      next => exact Option.some.inj h ▸ .wait _
  | wake i =>
      simp only [next] at h
      split at h
      next =>
        obtain ⟨⟨x, k⟩, htake, rfl⟩ := Option.map_eq_some_iff.mp h
        cases hopen : s.channel.isOpen with
        | true => simpa [waited, hopen] using Step.take x k i hopen htake
        | false => simpa [waited, hopen] using Step.drop x k i hopen htake
      next => cases h
  | expire =>
      simp only [next] at h
      split at h
      next =>
        have hwaited : (s.channel.waited none).2 = s.channel := by
          unfold waited
          split <;> rfl
        rw [hwaited] at h
        exact Option.some.inj h ▸ .wait false
      next => cases h
  | read =>
      simp only [next] at h
      split at h
      next => cases h
      next =>
        obtain rfl := Option.some.inj h
        unfold PosixSignal.read
        split
        next => simpa using Step.idle (s := s)
        next hopen =>
          split
          next => simpa using Step.idle (s := s)
          next x queue hqueue => exact .read x queue (by simpa using hopen) hqueue
  | close =>
      simp only [next] at h
      split at h
      next => cases h
      next =>
        obtain rfl := Option.some.inj h
        unfold PosixSignal.close
        split
        next hopen => exact .close hopen
        next => exact .idle
  | closeElsewhere =>
      obtain rfl := Option.some.inj h
      unfold PosixSignal.close
      split
      next hopen => exact .closeElsewhere hopen
      next => exact .idle

end State

/-- A channel for the signals of a list, just constructed in the thread `k`. -/
def listen (list : List ℤ) (k : Signals) : Machine State Event where
  start :=
    let r := new list k
    ⟨r.1, r.2, false, [], [], [], r.2.pending⟩
  next := State.next

/-- Where the signals are that have been pending: they were read, or they are in the queue, or
they were dropped when the channel was closed, or they were cancelled, or they are pending. The
thread blocks what the channel listens for, which is the set `mask`. -/
structure Accounted (mask : ℤ → Bool) (k : Signals) (s : State) : Prop where
  listens : s.channel.newmask = mask
  account :
    (s.reads ++ s.channel.queue ++ s.dropped ++ (s.cancelled ++ s.thread.pending)).Perm s.arrived
  cancelled : ∀ x ∈ s.cancelled, x = sigcont ∨ stops x = true
  blocked : ∀ x, mask x = true → blockable x = true → s.thread.blocked x = true
  delivered : ∀ x, mask x = true → blockable x = true →
    s.thread.delivered.count x = k.delivered.count x
  opened : s.channel.isOpen = true → s.dropped = []

namespace Accounted

variable {mask : ℤ → Bool} {k : Signals} {s s' : State}

/-- A cancelled signal is pending no more. -/
theorem cancel (h : Accounted mask k s) (x : ℤ) : Accounted mask k (s.cancel x) := by
  refine ⟨h.listens, ?_, fun y hy => ?_, h.blocked, h.delivered, h.opened⟩
  · refine .trans (List.Perm.append_left _ ?_) h.account
    simp only [State.cancel, List.append_assoc]
    exact ((List.perm_append_comm.trans (s.thread.cancel_perm x)).append_left s.cancelled)
  · rcases List.mem_append.mp hy with hy | hy
    · exact h.cancelled y hy
    · exact of_cancels (List.mem_filter.mp hy).2

/-- A signal that the channel listens for becomes pending, unless it is already. -/
theorem arrive (h : Accounted mask k s) (x : ℤ) : Accounted mask k (s.arrive x) := by
  by_cases hblocked : s.thread.blocked x = true
  · by_cases hmerged : realTime x = false ∧ x ∈ s.thread.pending
    · have harrive : s.thread.arrive x = s.thread := by
        simp [Signals.arrive, hblocked, hmerged.1, hmerged.2]
      have hsame : s.arrive x = s := by
        rw [State.arrive, harrive, List.drop_length, List.append_nil]
      rwa [hsame]
    · have harrive : s.thread.arrive x = { s.thread with pending := s.thread.pending ++ [x] } := by
        simp only [Signals.arrive, hblocked]
        rw [if_neg (by simp), if_neg (by simpa using hmerged)]
      refine ⟨h.listens, ?_, h.cancelled, ?_, ?_, h.opened⟩ <;>
        simp only [State.arrive, harrive]
      · rw [List.drop_left, ← List.append_assoc s.cancelled, ← List.append_assoc _ _ [x]]
        exact h.account.append_right [x]
      · exact h.blocked
      · exact h.delivered
  · have harrive : s.thread.arrive x =
        { s.thread with delivered := s.thread.delivered ++ [x] } := by
      simp only [Signals.arrive, hblocked]
      rw [if_pos (by simp)]
    refine ⟨h.listens, ?_, h.cancelled, ?_, ?_, h.opened⟩ <;> simp only [State.arrive, harrive]
    · rw [List.drop_length, List.append_nil]
      exact h.account
    · exact h.blocked
    · intro y hy hy'
      have hne : x ≠ y := fun hsame => hblocked (hsame ▸ h.blocked y hy hy')
      rw [List.count_append, h.delivered y hy hy', List.count_singleton]
      simp [hne]

/-- What a signal does to the accounts. -/
theorem send (h : Accounted mask k s) (x : ℤ) : Accounted mask k (s.send x) :=
  (h.cancel x).arrive x

/-- No step loses a signal or makes one up. -/
theorem step (h : Accounted mask k s) {e : Event} (hnext : s.next e = some s') :
    Accounted mask k s' := by
  cases State.Step.of_next hnext with
  | idle => exact h
  | send x => exact h.send x
  | cancel x => exact h.cancel x
  | wait inWait => exact ⟨h.listens, h.account, h.cancelled, h.blocked, h.delivered, h.opened⟩
  | take x k' i hopen htake =>
      have hperm := take_perm htake
      obtain ⟨-, -, rfl⟩ := take_eq_some htake
      refine ⟨h.listens, ?_, h.cancelled, h.blocked, h.delivered, h.opened⟩
      have haccount := h.account
      simp only [h.opened hopen, List.append_nil] at haccount ⊢
      refine .trans ?_ haccount
      rw [← List.append_assoc s.reads, List.append_assoc _ [x]]
      exact (taken hperm).append_left _
  | drop x k' i hclosed htake =>
      have hperm := take_perm htake
      obtain ⟨-, -, rfl⟩ := take_eq_some htake
      refine ⟨h.listens, ?_, h.cancelled, h.blocked, h.delivered, fun hopen => ?_⟩
      · refine .trans ?_ h.account
        rw [← List.append_assoc _ s.dropped, List.append_assoc _ [x]]
        exact (taken hperm).append_left _
      · rw [hclosed] at hopen
        cases hopen
  | read x queue _ hqueue =>
      refine ⟨h.listens, ?_, h.cancelled, h.blocked, h.delivered, h.opened⟩
      have haccount := h.account
      rw [hqueue] at haccount
      simpa using haccount
  | close =>
      have hclosed : Accounted mask k { s with channel := { s.channel with isOpen := false } } :=
        ⟨h.listens, h.account, h.cancelled, h.blocked, h.delivered, nofun⟩
      exact hclosed.send sigusr1
  | closeElsewhere => exact ⟨h.listens, h.account, h.cancelled, h.blocked, h.delivered, nofun⟩

end Accounted

/-- Every signal is accounted for in every run. -/
theorem accounted_reachable {list : List ℤ} {k : Signals} {s : State}
    (h : (listen list k).Reachable s) : Accounted (new list k).1.newmask k s := by
  refine h.invariant ⟨rfl, by simp [listen, new], nofun, ?_, ?_, fun _ => rfl⟩
    fun s e s' hs _ hnext => hs.step hnext
  · intro x hx hblockable
    simp only [listen, new, setMask] at hx ⊢
    rw [hx, hblockable, Bool.or_true, Bool.true_and]
  · intro x hx hblockable
    simp only [listen, new, setMask] at hx ⊢
    rw [List.count_append, Nat.add_eq_left, List.count_eq_zero]
    intro hmem
    have hnot := (List.mem_filter.mp hmem).2
    rw [hx, hblockable, Bool.or_true] at hnot
    cases hnot

/-- The loop of the destructor, over the rest of the list. The set is what was pending when it
began. There is no result if a call of `sigwait` waits for a signal. -/
inductive Drains (set : ℤ → Bool) : List ℤ → Signals → Signals → Prop
  | nil (k : Signals) : Drains set [] k k
  | skip {t : ℤ} {ts : List ℤ} {k k' : Signals} :
      set t = false → Drains set ts k k' → Drains set (t :: ts) k k'
  | wait {t s : ℤ} {ts : List ℤ} {k k₁ k' : Signals} {i : ℕ} :
      set t = true → k.take set i = some (s, k₁) → Drains set ts k₁ k' → Drains set (t :: ts) k k'

/-- The destructor, if no signal is sent to the thread meanwhile. -/
def Destroys (p : PosixSignal) (k k' : Signals) : Prop :=
  ∃ k₁, Drains (k.pending.contains ·) p.signals k k₁ ∧ k' = k₁.setMask p.oldmask

/-- How often the destructor calls `sigwait`. -/
def sigwaits (p : PosixSignal) (k : Signals) : ℕ :=
  (p.signals.filter (k.pending.contains ·)).length

variable {set : ℤ → Bool} {ts : List ℤ} {k k' : Signals}

/-- Each call takes one of the signals. -/
theorem Drains.length (h : Drains set ts k k') :
    k'.pending.length + (ts.filter set).length = k.pending.length := by
  induction h with
  | nil => rfl
  | skip hset _ ih => rwa [List.filter_cons_of_neg (by simp [hset])]
  | wait hset htake _ ih =>
      have hlen := (take_perm htake).length_eq
      rw [List.filter_cons_of_pos hset]
      simp only [List.length_cons] at hlen ⊢
      omega

/-- No signal is added or has its effect. -/
theorem Drains.subset (h : Drains set ts k k') :
    k'.pending ⊆ k.pending ∧ k'.delivered = k.delivered := by
  induction h with
  | nil => exact ⟨List.Subset.refl _, rfl⟩
  | skip _ _ ih => exact ih
  | wait _ htake _ ih =>
      obtain ⟨-, -, rfl⟩ := take_eq_some htake
      exact ⟨fun x hx => List.mem_of_mem_eraseIdx (ih.1 hx), ih.2⟩

/-- Any of the pending signals can be taken. -/
theorem take_of_mem (hset : ∀ s ∈ k.pending, set s = true) {i : ℕ} (hi : i < k.pending.length) :
    k.take set i = some (k.pending[i], { k with pending := k.pending.eraseIdx i }) := by
  simp only [take, List.getElem?_eq_getElem hi, hset _ (List.getElem_mem hi), if_true]

/-- If there is a signal for each call, none waits. -/
theorem exists_drains (hset : ∀ s ∈ k.pending, set s = true)
    (hle : (ts.filter set).length ≤ k.pending.length) : ∃ k', Drains set ts k k' := by
  induction ts generalizing k with
  | nil => exact ⟨k, .nil k⟩
  | cons t ts ih =>
      cases ht : set t with
      | false =>
          rw [List.filter_cons_of_neg (by simp [ht])] at hle
          obtain ⟨k', hk'⟩ := ih hset hle
          exact ⟨k', .skip ht hk'⟩
      | true =>
          rw [List.filter_cons_of_pos ht, List.length_cons] at hle
          have hpos : 0 < k.pending.length := by omega
          have htake := take_of_mem hset hpos
          have hlen := (take_perm htake).length_eq
          rw [List.length_cons] at hlen
          obtain ⟨k', hk'⟩ := ih (k := { k with pending := k.pending.eraseIdx 0 })
            (fun s hs => hset s (List.mem_of_mem_eraseIdx hs)) (by simp only at hlen ⊢; omega)
          exact ⟨k', .wait ht htake hk'⟩

/-- The destructor waits for ever if it calls `sigwait` too often. -/
theorem destroys_iff (p : PosixSignal) (k : Signals) :
    (∃ k', p.Destroys k k') ↔ p.sigwaits k ≤ k.pending.length := by
  constructor
  · rintro ⟨-, k₁, hdrains, -⟩
    have hlen := hdrains.length
    change k₁.pending.length + p.sigwaits k = k.pending.length at hlen
    omega
  · intro hle
    change (p.signals.filter (k.pending.contains ·)).length ≤ _ at hle
    obtain ⟨k₁, hdrains⟩ := exists_drains (fun s hs => List.contains_iff_mem.mpr hs) hle
    exact ⟨_, k₁, hdrains, rfl⟩

/-- A thread in which no signal is blocked or pending. -/
def unblocked : Signals :=
  ⟨fun _ => false, [], []⟩

/-- A channel that listens for `SIGUSR1` lists it twice, so its thread cannot destroy it after
closing it. -/
example : ((listen [sigusr1] unblocked).replay (fun _ _ => True) (listen [sigusr1] unblocked).start
    [.close]).map (fun s => (s.channel.sigwaits s.thread, s.thread.pending.length)) =
      some (2, 1) := by
  decide +kernel

/-- What is pending in a thread that blocks only what the channel listens for, if these are
different signals that are not queued. -/
structure Single (list : List ℤ) (s : State) : Prop where
  signals : s.channel.signals = list ++ [sigusr1]
  newmask : s.channel.newmask = fun x => valid x && (list ++ [sigusr1]).contains x
  blocked : ∀ x, s.thread.blocked x = true → x ∈ list ++ [sigusr1]
  pending : ∀ x ∈ s.thread.pending, x ∈ list ++ [sigusr1]
  nodup : s.thread.pending.Nodup

/-- A cancelled signal is one less that is pending. -/
theorem Single.cancel {list : List ℤ} {s : State} (h : Single list s) (x : ℤ) :
    Single list (s.cancel x) :=
  ⟨h.signals, h.newmask, h.blocked, fun y hy => h.pending y (List.mem_of_mem_filter hy),
    h.nodup.filter _⟩

/-- A standard signal is not pending twice. -/
theorem Single.arrive {list : List ℤ} (hstandard : ∀ x ∈ list, realTime x = false) {s : State}
    (h : Single list s) (x : ℤ) : Single list (s.arrive x) := by
  refine ⟨h.signals, h.newmask, ?_, ?_, ?_⟩ <;> simp only [State.arrive, Signals.arrive] <;>
    split_ifs with hblocked hmerged
  · exact h.blocked
  · exact h.blocked
  · exact h.blocked
  · exact h.pending
  · exact h.pending
  · intro y hy
    rcases List.mem_append.mp hy with hy | hy
    · exact h.pending y hy
    · rw [List.mem_singleton.mp hy]
      exact h.blocked x (by simpa using hblocked)
  · exact h.nodup
  · exact h.nodup
  · rw [← List.concat_eq_append]
    refine h.nodup.concat fun hmem => ?_
    have hreal : realTime x = false := by
      rcases List.mem_append.mp (h.pending x hmem) with hlist | husr
      · exact hstandard x hlist
      · rw [List.mem_singleton.mp husr]
        rfl
    exact hmerged (by simp [hreal, hmem])

/-- What a signal does to what is pending. -/
theorem Single.send {list : List ℤ} (hstandard : ∀ x ∈ list, realTime x = false) {s : State}
    (h : Single list s) (x : ℤ) : Single list (s.send x) :=
  (h.cancel x).arrive hstandard x

/-- No step makes a signal pending twice. -/
theorem Single.step {list : List ℤ} (hstandard : ∀ x ∈ list, realTime x = false) {s s' : State}
    (h : Single list s) {e : Event} (hnext : s.next e = some s') : Single list s' := by
  cases State.Step.of_next hnext with
  | idle => exact h
  | send x => exact h.send hstandard x
  | cancel x => exact h.cancel x
  | wait | read | closeElsewhere => exact ⟨h.signals, h.newmask, h.blocked, h.pending, h.nodup⟩
  | take x k i _ htake | drop x k i _ htake =>
      obtain ⟨-, -, rfl⟩ := take_eq_some htake
      exact ⟨h.signals, h.newmask, h.blocked,
        fun y hy => h.pending y (List.mem_of_mem_eraseIdx hy),
        h.nodup.sublist (List.eraseIdx_sublist ..)⟩
  | close =>
      have hclosed : Single list { s with channel := { s.channel with isOpen := false } } :=
        ⟨h.signals, h.newmask, h.blocked, h.pending, h.nodup⟩
      exact hclosed.send hstandard sigusr1

/-- **A clean end.** If the list has no duplicates and neither `SIGUSR1` nor a real-time signal,
and the thread blocks nothing else, the destructor returns at once in whichever state it is
called. No signal is pending then, and none that the channel listened for has had its effect. -/
theorem destroy_clean {list : List ℤ} (hlist : list.Nodup) (husr : sigusr1 ∉ list)
    (hstandard : ∀ x ∈ list, realTime x = false) {k : Signals} (hk : ∀ x, k.blocked x = false)
    (hnone : k.pending = []) {s : State} (h : (listen list k).Reachable s) :
    (∃ k', s.channel.Destroys s.thread k') ∧ ∀ k', s.channel.Destroys s.thread k' →
      k'.pending = [] ∧ ∀ x ∈ list, valid x = true → blockable x = true →
        k'.delivered.count x = k.delivered.count x := by
  have hsingle : Single list s := by
    refine h.invariant ⟨rfl, rfl, fun x hx => ?_, ?_, ?_⟩ fun s e s' hs _ hnext =>
      hs.step hstandard hnext
    · simp only [listen, new, setMask, hk, Bool.false_or, Bool.and_eq_true] at hx
      exact List.contains_iff_mem.mp hx.1.2
    · simp [listen, new, setMask, hnone]
    · simp [listen, new, setMask, hnone]
  have hcalls : s.channel.sigwaits s.thread = s.thread.pending.length := by
    have hnodup : s.channel.signals.Nodup := by
      rw [hsingle.signals, ← List.concat_eq_append]
      exact hlist.concat husr
    refine List.Perm.length_eq ((List.perm_ext_iff_of_nodup (hnodup.filter _) hsingle.nodup).mpr ?_)
    intro x
    rw [List.mem_filter, List.contains_iff_mem, hsingle.signals]
    exact ⟨And.right, fun hx => ⟨hsingle.pending x hx, hx⟩⟩
  refine ⟨(destroys_iff s.channel s.thread).mpr hcalls.le, ?_⟩
  rintro _ ⟨k₁, hdrains, rfl⟩
  have hlen := hdrains.length
  change k₁.pending.length + s.channel.sigwaits s.thread = s.thread.pending.length at hlen
  have hnil : k₁.pending = [] := List.length_eq_zero_iff.mp (by omega)
  refine ⟨by simp [setMask, hnil], fun x hx hvalid hblockable => ?_⟩
  have hsame : (k₁.setMask s.channel.oldmask).delivered = s.thread.delivered := by
    simp [setMask, hnil, hdrains.subset.2]
  rw [hsame]
  exact (accounted_reachable h).delivered x (by simp [new, hvalid, hx]) hblockable

/-- `SIGINT` is sent twice before it is taken, and `SIGTERM` once, before the channel is closed. -/
private def interrupted : List Event :=
  [.send 2, .send 15, .send 2, .wait, .wake 0, .read, .close]

/-- The destructor is called when two signals are pending. -/
theorem destroy_clean_interrupted : ∃ s, (listen [2, 15] unblocked).Reachable s ∧
    s.reads = [2] ∧ s.thread.pending = [15, 10] ∧ ∃ k', s.channel.Destroys s.thread k' := by
  have hrun : ((listen [2, 15] unblocked).replay (fun _ _ => True) (listen [2, 15] unblocked).start
      interrupted).map (fun s => (s.reads, s.thread.pending)) = some ([2], [15, 10]) := by
    decide +kernel
  obtain ⟨s, hs, hfacts⟩ := Option.map_eq_some_iff.mp hrun
  obtain ⟨hreads, hpending⟩ := Prod.mk.inj hfacts
  have hreach : (listen [2, 15] unblocked).Reachable s := .of_replay interrupted .start hs
  exact ⟨s, hreach, hreads, hpending,
    (destroy_clean (by decide) (by decide) (by decide) (fun _ => rfl) rfl hreach).1⟩

end PosixSignal

end RsIo
