import RsIo.BufferChannel
import RsIo.Monitor
import RsIo.QueueDelivery
import RsIo.ValueChannel

/-!
# Channels That Many Threads Share

The classes `QueueChannel`, `ValueChannel` and `BufferChannel`, when any number of threads read,
write, wait and close. Each is a monitor: its calls are sections under its mutex, and those that
call `notify_all` say so. The calls of `Waiter` end in `do_wait_for`.

A notification may be left out if nobody can sleep. The one of `QueueChannel::read` is such a
one, and `BufferChannel::write` does not notify of an empty write.

## Main results

* `QueueChannel.shared_queue`: a message that is accepted leaves the queue once, in the order of
  the writes.
* `ValueChannel.shared_value`: the reads of all threads are some of the changes, in their order.
* `BufferChannel.shared_buffer`: the bytes, and who sleeps.
-/

namespace RsIo

/-! ### A queue -/

namespace QueueChannel

variable {T ι : Type}

/-- `QueueChannel::clear`. -/
def clear (s : QueueChannel T) : QueueChannel T :=
  { s with queue := [] }

/-- A call of a thread. -/
inductive Call (T : Type)
  | read
  | write (t : T)
  | clear
  | close

/-- A queue, with what was written to it while it was open, and what left it: what a thread
has read, or what was cleared. -/
structure Ledger (T ι : Type) where
  channel : QueueChannel T
  written : List T
  gone : List (Option ι × T)

namespace Ledger

/-- A queue to which nothing was written. -/
def new : Ledger T ι :=
  ⟨.new, [], []⟩

/-- What one call of the thread `i` does, and whether it notifies. -/
def call (s : Ledger T ι) (i : ι) : Call T → Ledger T ι × Bool
  | .read =>
      let r := s.channel.read
      ({ s with channel := r.2, gone := s.gone ++ r.1.toList.map (some i, ·) },
        r.1.isSome && !r.2.queue.isEmpty)
  | .write t =>
      let r := s.channel.write t
      ({ s with channel := r.2, written := if r.1 then s.written ++ [t] else s.written }, r.1)
  | .clear =>
      ({ s with channel := s.channel.clear, gone := s.gone ++ s.channel.queue.map (none, ·) },
        false)
  | .close => ({ s with channel := s.channel.close }, true)

/-- What the thread `i` has read. -/
def readBy [DecidableEq ι] (s : Ledger T ι) (i : ι) : List T :=
  (s.gone.filter (·.1 = some i)).map Prod.snd

/-- What left the queue, and what is in it, is what was written. -/
def Balanced (s : Ledger T ι) : Prop :=
  s.gone.map Prod.snd ++ s.channel.queue = s.written

/-- No call loses, repeats or reorders a message. -/
theorem Balanced.call {s : Ledger T ι} (h : s.Balanced) (i : ι) (c : Call T) :
    (s.call i c).1.Balanced := by
  cases c with
  | read =>
      have htags : (s.channel.read.1.toList.map (some i, ·)).map Prod.snd =
          s.channel.read.1.toList := by
        rw [List.map_map]
        exact List.map_id _
      change (s.gone ++ _).map Prod.snd ++ s.channel.read.2.queue = s.written
      rw [List.map_append, htags, List.append_assoc, ← (read_queue s.channel).1]
      exact h
  | write t =>
      cases hopen : s.channel.isOpen with
      | true =>
          change s.gone.map Prod.snd ++ (s.channel.write t).2.queue =
            if (s.channel.write t).1 then _ else _
          rw [write_open hopen, if_pos rfl, ← List.append_assoc]
          exact congrArg (· ++ [t]) h
      | false =>
          change s.gone.map Prod.snd ++ (s.channel.write t).2.queue =
            if (s.channel.write t).1 then _ else _
          rw [write_closed hopen, if_neg Bool.false_ne_true]
          exact h
  | clear =>
      have htags : (s.channel.queue.map ((none : Option ι), ·)).map Prod.snd =
          s.channel.queue := by
        rw [List.map_map]
        exact List.map_id _
      change (s.gone ++ _).map Prod.snd ++ [] = s.written
      rw [List.map_append, htags, List.append_nil]
      exact h
  | close => exact h

theorem readBy_append [DecidableEq ι] {s s' : Ledger T ι} {ts : List T} {o : Option ι}
    (h : s'.gone = s.gone ++ ts.map (o, ·)) (j : ι) :
    s'.readBy j = s.readBy j ++ if o = some j then ts else [] := by
  have hnew : ((ts.map (o, ·)).filter (·.1 = some j)).map Prod.snd =
      if o = some j then ts else [] := by
    clear h
    induction ts with
    | nil => simp
    | cons t ts ih => by_cases ho : o = some j <;> simp_all
  rw [readBy, h, List.filter_append, List.map_append, hnew, readBy]

/-- Nothing opens a closed queue, and nothing is written to it or read from it. -/
theorem call_closed [DecidableEq ι] {s : Ledger T ι} (h : s.channel.isOpen = false) (i : ι)
    (c : Call T) :
    (s.call i c).1.channel.isOpen = false ∧ (s.call i c).1.written = s.written ∧
      ∀ j, (s.call i c).1.readBy j = s.readBy j := by
  cases c with
  | read => simp [call, QueueChannel.read, h, readBy]
  | write t => simp [call, write_closed h, h, readBy]
  | clear =>
      refine ⟨h, rfl, fun j => ?_⟩
      rw [readBy_append (s := s) (o := none) rfl, if_neg nofun, List.append_nil]
  | close => exact ⟨rfl, rfl, fun _ => rfl⟩

end Ledger

/-- The monitor of a queue. -/
def monitor (T ι : Type) : Monitor (Ledger T ι) ι (Call T) where
  ready s := s.channel.doWaitFor
  call := Ledger.call

theorem doWaitFor_iff (s : QueueChannel T) :
    s.doWaitFor = true ↔ s.isOpen = false ∨ s.queue ≠ [] := by
  simp [doWaitFor]

/-- Only a write or a close can make the queue ready. -/
theorem monitor_wakes : (monitor T ι).Wakes := by
  intro s i c hready
  cases c with
  | read =>
      left
      obtain ⟨hqueue, hopen⟩ := read_queue s.channel
      rw [monitor, doWaitFor_iff] at hready ⊢
      refine hready.imp (fun h => hopen ▸ h) fun h hnil => h ?_
      exact (List.append_eq_nil_iff.mp (hqueue.symm.trans hnil)).2
  | write t =>
      cases hopen : s.channel.isOpen with
      | true => exact .inr (by simp [monitor, Ledger.call, write_open hopen])
      | false => exact .inl ((doWaitFor_iff s.channel).mpr (.inl hopen))
  | clear =>
      left
      rw [monitor, doWaitFor_iff] at hready ⊢
      exact hready.imp (fun h => h) fun h => absurd rfl h
  | close => exact .inr rfl

/-- The messages are accounted for, and no thread sleeps beside a ready queue. -/
theorem shared_invariant [DecidableEq ι] {s : Monitor.State (Ledger T ι) ι}
    (h : ((monitor T ι).threads Ledger.new).Reachable s) :
    s.object.Balanced ∧ (monitor T ι).Alert s :=
  ⟨Monitor.reachable_object (I := Ledger.Balanced) (o := Ledger.new) rfl
      (fun _ i c ho => ho.call i c) h,
    Monitor.Alert.reachable monitor_wakes h⟩

/-- **A shared queue.** Whatever the threads do, what left the queue and what is in it is what
was written, in this order, and what one thread has read is in the order of the writes. While
the queue is ready, each thread that waits for it returns true as soon as it has the mutex.
After the queue was closed nothing is accepted and nothing is read. -/
theorem shared_queue [DecidableEq ι] {s : Monitor.State (Ledger T ι) ι}
    (h : ((monitor T ι).threads Ledger.new).Reachable s) :
    (s.object.gone.map Prod.snd ++ s.object.channel.queue = s.object.written ∧
      ∀ i, (s.object.readBy i).Sublist s.object.written) ∧
    (s.object.channel.doWaitFor = true → ∀ i, (s.place i).waits = true →
      ∃ s', (monitor T ι).next s (.resume i) = some s' ∧ s'.place i = .returned true ∧
        s'.object = s.object) ∧
    (s.object.channel.isOpen = false →
      ∀ s', ((monitor T ι).threads Ledger.new).Later s s' →
        s'.object.written = s.object.written ∧ ∀ i, s'.object.readBy i = s.object.readBy i) := by
  obtain ⟨hbalanced, halert⟩ := shared_invariant h
  refine ⟨⟨hbalanced, fun i => ?_⟩, fun hready i hi => ?_, fun hclosed s' hlater => ?_⟩
  · have hread : (s.object.readBy i).Sublist (s.object.gone.map Prod.snd) :=
      (List.filter_sublist).map Prod.snd
    exact hread.trans (hbalanced ▸ List.sublist_append_left ..)
  · exact Monitor.no_lost_wakeup halert hready hi
  · have hkept := Monitor.later_object (m := monitor T ι) (o := Ledger.new)
      (I := fun o => o.channel.isOpen = false ∧ o.written = s.object.written ∧
        ∀ i, o.readBy i = s.object.readBy i) (fun o i c ho => ?_) hlater
      ⟨hclosed, rfl, fun _ => rfl⟩
    · exact hkept.2
    · obtain ⟨hshut, hwritten, hread⟩ := Ledger.call_closed ho.1 i c
      exact ⟨hshut, hwritten.trans ho.2.1, fun j => (hread j).trans (ho.2.2 j)⟩

/-- One thread falls asleep, and another one writes. -/
theorem shared_queue_woken :
    ∃ s, ((monitor ℕ Bool).threads Ledger.new).Reachable s ∧
      s.object.channel.queue = [5] ∧ s.place false = .woken false ∧
      ∃ s', (monitor ℕ Bool).next s (.resume false) = some s' ∧ s'.place false = .returned true ∧
        s'.object = s.object :=
  have hstart : ((monitor ℕ Bool).threads Ledger.new).Reachable _ := .start
  have hreach := Machine.Reach.step (e := .call true (.write 5))
    (.step (e := .wait false true) hstart trivial rfl) trivial rfl
  ⟨_, hreach, rfl, rfl, (shared_queue hreach).2.1 rfl false rfl⟩

end QueueChannel

/-! ### A value -/

namespace ValueChannel

variable {T ι : Type} [BEq T]

/-- A channel with a value, the values it was changed to, and the reads of the threads. -/
structure Feed (T ι : Type) where
  channel : ValueChannel T
  changes : List T
  reads : List (ι × T)

namespace Feed

/-- A value that has not changed yet. -/
def new (t : T) : Feed T ι :=
  ⟨.new t, [], []⟩

/-- What one call of the thread `i` does, and whether it notifies: a write does if the value
changes. -/
def call (s : Feed T ι) (i : ι) : Call T → Feed T ι × Bool
  | .read =>
      let r := s.channel.read
      ({ s with channel := r.2, reads := s.reads ++ r.1.toList.map (i, ·) }, false)
  | .write t =>
      let r := s.channel.write t
      let changed := r.1 && !t == s.channel.value
      ({ s with channel := r.2, changes := if changed then s.changes ++ [t] else s.changes },
        changed)
  | .wait => (s, false)
  | .close => ({ s with channel := s.channel.close }, true)

/-- The values that were read, by any thread. -/
def seen (s : Feed T ι) : List T :=
  s.reads.map Prod.snd

/-- A channel that started with the value `t`. A change is read before the next one, or never,
and one that is not read yet comes after those that were. -/
structure Ordered (t : T) (s : Feed T ι) : Prop where
  value : (t :: s.changes).getLast? = some s.channel.value
  distinct : (t :: s.changes).IsChain fun a b => (b == a) = false
  pending : s.channel.status = 1 → (s.seen ++ [s.channel.value]).Sublist s.changes
  sublist : s.seen.Sublist s.changes
  last : s.channel.status = 0 → (t :: s.seen).getLast? = some s.channel.value

/-- A call keeps the order. -/
theorem Ordered.call {t : T} {s : Feed T ι} (h : s.Ordered t) (i : ι) (c : Call T) :
    (s.call i c).1.Ordered t := by
  cases c with
  | read =>
      by_cases hstatus : s.channel.status = 1
      · have hread : (s.call i .read).1 =
            ⟨{ s.channel with status := 0 }, s.changes, s.reads ++ [(i, s.channel.value)]⟩ := by
          simp [Feed.call, read_changed hstatus]
        have hseen : (s.call i .read).1.seen = s.seen ++ [s.channel.value] := by
          rw [hread, seen, List.map_append]
          rfl
        refine ⟨hread ▸ h.value, hread ▸ h.distinct, fun hone => ?_, ?_, fun _ => ?_⟩
        · rw [hread] at hone
          cases hone
        · rw [hseen, hread]
          exact h.pending hstatus
        · rw [hseen, hread, ← List.cons_append, List.getLast?_concat]
      · have hread : (s.call i .read).1 = s := by
          simp [Feed.call, read_unchanged hstatus]
        exact hread.symm ▸ h
  | write u =>
      by_cases hclosed : s.channel.status = -1
      · have hwrite : (s.call i (.write u)).1 = s := by
          simp [Feed.call, write_closed hclosed]
        exact hwrite.symm ▸ h
      cases hsame : u == s.channel.value with
      | true =>
          have hwrite : (s.call i (.write u)).1 = s := by
            simp [Feed.call, ValueChannel.write, hclosed, hsame]
          exact hwrite.symm ▸ h
      | false =>
          have hwrite : (s.call i (.write u)).1 = ⟨⟨u, 1⟩, s.changes ++ [u], s.reads⟩ := by
            simp [Feed.call, ValueChannel.write, hclosed, hsame]
          rw [hwrite]
          refine ⟨?_, ?_, fun _ => ?_, ?_, fun hzero => (by cases hzero)⟩
          · rw [← List.cons_append, List.getLast?_concat]
          · rw [← List.cons_append, List.isChain_append]
            refine ⟨h.distinct, .singleton u, fun a ha b hb => ?_⟩
            rw [h.value, Option.mem_some_iff] at ha
            rw [List.head?_cons, Option.mem_some_iff] at hb
            rw [← ha, ← hb]
            exact hsame
          · exact h.sublist.append_right [u]
          · exact h.sublist.trans (List.sublist_append_left ..)
  | wait => exact h
  | close =>
      exact ⟨h.value, h.distinct, fun hone => (by cases hone), h.sublist,
        fun hzero => (by cases hzero)⟩

end Feed

/-- The monitor of a value. -/
def monitor (T ι : Type) [BEq T] : Monitor (Feed T ι) ι (Call T) where
  ready s := s.channel.doWaitFor
  call := Feed.call

/-- Only a change or a close can make the channel ready. -/
theorem monitor_wakes : (monitor T ι).Wakes := by
  intro s i c hready
  cases c with
  | read =>
      left
      by_cases hstatus : s.channel.status = 1
      · simp [monitor, doWaitFor, hstatus]
      · simpa [monitor, Feed.call, read_unchanged hstatus] using hready
  | write u =>
      by_cases hclosed : s.channel.status = -1
      · exact .inl (by simp [monitor, doWaitFor, hclosed])
      cases hsame : u == s.channel.value with
      | true =>
          simp only [monitor, Feed.call, ValueChannel.write, hclosed, hsame] at hready
          exact .inl hready
      | false => exact .inr (by simp [monitor, Feed.call, ValueChannel.write, hclosed, hsame])
  | wait => exact .inl hready
  | close => exact .inr rfl

/-- **A shared value.** The values that the threads read are some of those the channel was
changed to, in their order and none of them twice. A change differs from the value before it, and
the channel holds the last one. If it is open and not ready, this is what was read last. While it
is ready, each thread that waits for it returns true as soon as it has the mutex. -/
theorem shared_value [DecidableEq ι] {t : T} {s : Monitor.State (Feed T ι) ι}
    (h : ((monitor T ι).threads (Feed.new t)).Reachable s) :
    s.object.seen.Sublist s.object.changes ∧
    ((t :: s.object.changes).IsChain fun a b => (b == a) = false) ∧
    (t :: s.object.changes).getLast? = some s.object.channel.value ∧
    (s.object.channel.doWaitFor = false →
      (t :: s.object.seen).getLast? = some s.object.channel.value) ∧
    (s.object.channel.doWaitFor = true → ∀ i, (s.place i).waits = true →
      ∃ s', (monitor T ι).next s (.resume i) = some s' ∧ s'.place i = .returned true ∧
        s'.object = s.object) := by
  have hordered : s.object.Ordered t := by
    refine Monitor.reachable_object (m := monitor T ι) ?_ (fun _ i c ho => ho.call i c) h
    exact ⟨rfl, .singleton t, nofun, .refl _, fun _ => rfl⟩
  have halert := Monitor.Alert.reachable monitor_wakes h
  refine ⟨hordered.sublist, hordered.distinct, hordered.value, fun hidle => ?_,
    fun hready i hi => ?_⟩
  · have hstatus : s.object.channel.status = 0 := by simpa [doWaitFor] using hidle
    exact hordered.last hstatus
  · exact Monitor.no_lost_wakeup halert hready hi

/-- One thread falls asleep, and another one writes a new value. -/
theorem shared_value_woken :
    ∃ s, ((monitor ℕ Bool).threads (Feed.new 4)).Reachable s ∧
      s.object.changes = [5] ∧ s.place false = .woken false ∧
      ∃ s', (monitor ℕ Bool).next s (.resume false) = some s' ∧ s'.place false = .returned true ∧
        s'.object = s.object :=
  have hstart : ((monitor ℕ Bool).threads (Feed.new 4)).Reachable _ := .start
  have hreach := Machine.Reach.step (e := .call true (.write 5))
    (.step (e := .wait false true) hstart trivial rfl) trivial rfl
  ⟨_, hreach, rfl, rfl, (shared_value hreach).2.2.2.2 rfl false rfl⟩

end ValueChannel

/-! ### A buffer -/

namespace BufferChannel

variable {ι : Type}

/-- Whether the call notifies. -/
def notifies (s : BufferChannel) : Call → Bool
  | .write src =>
      let r := s.write src
      r.1 && decide (r.2.ofs < r.2.buf.length)
  | .close => true
  | _ => false

/-- The monitor of a buffer. -/
def monitor (ι : Type) : Monitor Traffic ι Call where
  ready s := s.channel.doWaitFor
  call s _ c := (s.after c, s.channel.notifies c)

theorem read_isOpen (s : BufferChannel) (hasDst : Bool) (n : ℕ) :
    (s.read hasDst n).2.isOpen = s.isOpen := by
  simp only [read]
  split_ifs <;> rfl

/-- A read makes no channel ready. -/
theorem read_ready {s : BufferChannel} {hasDst : Bool} {n : ℕ}
    (hready : (s.read hasDst n).2.doWaitFor = true) : s.doWaitFor = true := by
  rw [doWaitFor_iff, read_isOpen] at hready
  rw [doWaitFor_iff]
  refine hready.imp_left fun hne hnil => hne ?_
  exact (List.append_eq_nil_iff.mp ((read_append_pending s hasDst n).trans hnil)).2

/-- Only a write that leaves bytes to be read, or a close, can make the channel ready. -/
theorem monitor_wakes : (monitor ι).Wakes := by
  intro s i c hready
  cases c with
  | read hasDst n => exact .inl (read_ready hready)
  | write src =>
      cases hopen : s.channel.isOpen with
      | true =>
          right
          have hready := (doWaitFor_iff (s.channel.write src).2).mp hready
          rcases hready with hne | hclosed
          · have hlt := Nat.lt_of_not_le (mt List.drop_eq_nil_of_le hne)
            have htrue : (s.channel.write src).1 = true := by simp [write, hopen]
            simpa [monitor, notifies, htrue] using hlt
          · simp [write, hopen] at hclosed
      | false => exact .inl ((doWaitFor_iff s.channel).mpr (.inr hopen))
  | append dst => exact .inl (@read_ready s.channel true s.channel.block hready)
  | setBlockSize n => exact .inl hready
  | clear =>
      have hready := (doWaitFor_iff s.channel.clear).mp hready
      exact .inl ((doWaitFor_iff s.channel).mpr (hready.imp_left fun hne => absurd rfl hne))
  | wait => exact .inl hready
  | close => exact .inr rfl

/-- **A shared buffer.** While the channel is open the bytes that the threads read, and those
that are pending, are those that were written since it was last cleared. While it is ready,
each thread that waits for it returns true as soon as it has the mutex. -/
theorem shared_buffer [DecidableEq ι] {s : Monitor.State Traffic ι}
    (h : ((monitor ι).threads ⟨.new, [], []⟩).Reachable s) :
    (s.object.channel.isOpen = true →
      s.object.returned ++ s.object.channel.pending = s.object.written) ∧
    (s.object.channel.pending ≠ [] ∨ s.object.channel.isOpen = false →
      ∀ i, (s.place i).waits = true →
        ∃ s', (monitor ι).next s (.resume i) = some s' ∧ s'.place i = .returned true ∧
          s'.object = s.object) := by
  have hconserved : s.object.Conserved :=
    Monitor.reachable_object (m := monitor ι) (I := Traffic.Conserved)
      ⟨.inl rfl, fun _ => rfl⟩ (fun _ _ c ho => ho.after c) h
  have halert := Monitor.Alert.reachable monitor_wakes h
  exact ⟨hconserved.queue, fun hready i hi =>
    Monitor.no_lost_wakeup halert ((doWaitFor_iff s.object.channel).mpr hready) hi⟩

/-- One thread falls asleep, another one writes nothing, and then a byte. -/
theorem shared_buffer_woken :
    ∃ s, ((monitor Bool).threads ⟨.new, [], []⟩).Reachable s ∧
      s.object.written = [7] ∧ s.place false = .woken false ∧
      ∃ s', (monitor Bool).next s (.resume false) = some s' ∧ s'.place false = .returned true ∧
        s'.object = s.object :=
  have hstart : ((monitor Bool).threads ⟨.new, [], []⟩).Reachable _ := .start
  have hreach := Machine.Reach.step (e := .call true (.write [7]))
    (.step (e := .call true (.write [])) (.step (e := .wait false true) hstart trivial rfl)
      trivial rfl) trivial rfl
  ⟨_, hreach, rfl, rfl, (shared_buffer hreach).2 (.inl nofun) false rfl⟩

end BufferChannel

end RsIo
