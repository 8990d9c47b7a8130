import RsIo.TimerFlush
import Mathlib.Logic.Function.Basic

/-!
# A Timer that Several Threads Wait For

`TimerChannel::do_wait_for` looks at the clock and at the next tick under the mutex, waits on
the condition variable, which releases it, and takes the tick when the time that was left has
passed. It does not look at the next tick again. Another thread may have taken the tick in the
meantime, or discarded it with `flush()`.

A section under the mutex is one step here. A wait on the condition variable is over when the
channel is closed or its time has passed, and the thread goes on at some time after that. As in
the module on `flush()`, a count of nanoseconds that does not fit in 64 bits is undefined.

## Main results

* `TimerChannel.doWaitFor64_eq`: the sections of a thread that is alone on the channel.
* `TimerChannel.ticks_onTime`: no tick is early in a run without an overflow in which every
  thread that comes back finds the tick it waited for.
* `TimerChannel.early_of_not_onTime`: the next tick is early where a thread does not find it,
  if none was discarded.
-/

namespace RsIo

namespace TimerChannel

open Time (IsInt64 int64 int64_of)

/-- How the first section of `TimerChannel::do_wait_for` ends: it returns, takes a tick, or
waits until a given time, for less than what is left or for all of it. -/
inductive Checked
  | returned (ready : Bool)
  | tick
  | shortWait (deadline : ℤ)
  | tickWait (deadline : ℤ)
  deriving DecidableEq, Repr

/-- The first section of `TimerChannel::do_wait_for` at the time `now`. -/
def check (s : TimerChannel) (t now : ℤ) : Option Checked :=
  if !s.isOpen then
    some (.returned true)
  else if s.nextTick ≤ now then
    some .tick
  else if t ≤ 0 then
    some (.returned false)
  else
    (int64 (s.nextTick - now)).map fun remaining =>
      if t < remaining then .shortWait (now + t) else .tickWait (now + remaining)

/-- What follows if nobody else uses the channel. -/
def Checked.alone (s : TimerChannel) : Checked → Option (Bool × TimerChannel)
  | returned ready => some (ready, s)
  | tick => (s.step64 1).map fun s' => (true, s')
  | shortWait _ => some (!s.isOpen, s)
  | tickWait _ => if s.isOpen then (s.step64 1).map fun s' => (true, s') else some (true, s)

/-- A thread that is alone on the channel makes the sections one after the other. -/
theorem doWaitFor64_eq (s : TimerChannel) (t now : ℤ) :
    s.doWaitFor64 t now = (s.check t now).bind (Checked.alone s) := by
  cases hopen : s.isOpen with
  | false => simp [doWaitFor64, check, hopen, Checked.alone]
  | true =>
      simp only [doWaitFor64, check, hopen, Bool.not_true, Bool.false_eq_true, if_false]
      split_ifs
      · rfl
      · simp [Checked.alone]
      · rw [Option.bind_map]
        congr 1
        funext remaining
        simp only [Function.comp]
        split_ifs <;> simp [Checked.alone, hopen]

/-! ### Threads -/

/-- Where a thread is: not in `do_wait_for`, or in one of its waits. -/
inductive Place
  | outside
  | shortWait (deadline : ℤ)
  | tickWait (deadline : ℤ)
  deriving DecidableEq, Repr

/-- A timer, the clock, where the threads are, the times at which ticks were delivered, the
first one first, and how many ticks were discarded. -/
structure Clocked (T : Type) where
  timer : TimerChannel
  clock : ℤ
  place : T → Place
  ticks : List ℤ
  skipped : ℕ

/-- What happens: time passes, a thread calls `do_wait_for` or comes back from its wait, or some
thread calls `flush()` or `close()`. -/
inductive Event (T : Type)
  | pass (now : ℤ)
  | call (i : T) (t : ℤ)
  | wake (i : T)
  | flush
  | close

namespace Place

/-- The thread waits for a tick. -/
def isTickWait : Place → Bool
  | tickWait _ => true
  | _ => false

end Place

namespace Clocked

variable {T : Type}

/-- A call of `do_wait_for` that executes `step()` and returns true. -/
def deliver (s : Clocked T) : Option (Clocked T) :=
  (s.timer.step64 1).map fun timer => { s with timer := timer, ticks := s.ticks ++ [s.clock] }

/-- The thread `i` goes to another place. -/
def moved [DecidableEq T] (s : Clocked T) (i : T) (p : Place) : Clocked T :=
  { s with place := Function.update s.place i p }

/-- The thread `i` has made its first section. -/
def checked [DecidableEq T] (s : Clocked T) (i : T) : Checked → Option (Clocked T)
  | .returned _ => some s
  | .tick => s.deliver
  | .shortWait d => some (s.moved i (.shortWait d))
  | .tickWait d => some (s.moved i (.tickWait d))

/-- One step, if it can happen, and what follows, if that is defined. -/
def next [DecidableEq T] (s : Clocked T) : Event T → Option (Option (Clocked T))
  | .pass now => if s.clock ≤ now then some (some { s with clock := now }) else none
  | .call i t =>
      if s.place i = .outside then
        some ((s.timer.check t s.clock).bind (s.checked i))
      else none
  | .wake i =>
      match s.place i with
      | .outside => none
      | .shortWait d =>
          if s.timer.isOpen = false ∨ d ≤ s.clock then some (some (s.moved i .outside)) else none
      | .tickWait d =>
          if s.timer.isOpen = false ∨ d ≤ s.clock then
            let back := s.moved i .outside
            some (if s.timer.isOpen then back.deliver else some back)
          else none
  | .flush =>
      some ((s.timer.flush s.clock).map fun timer =>
        { s with timer := timer, skipped := s.skipped + (s.timer.count - timer.count) })
  | .close => some (some { s with timer := s.timer.close })

/-- A tick is taken and delivered. -/
structure Delivers (s s' : Clocked T) : Prop where
  isOpen : s.timer.isClosed = false
  timer : s'.timer = s.timer.step 1
  ticks : s'.ticks = s.ticks ++ [s.clock]
  skipped : s'.skipped = s.skipped

/-- The step does not overflow, and does not divide by zero. -/
def Fits (s : Clocked T) : Event T → Prop
  | .call _ t => s.timer.isClosed = false →
      (s.timer.nextTick ≤ s.clock → s.timer.StepFits 1) ∧
        (s.clock < s.timer.nextTick → 0 < t → IsInt64 (s.timer.nextTick - s.clock))
  | .wake i => (s.place i).isTickWait = true → s.timer.isClosed = false → s.timer.StepFits 1
  | .flush => s.timer.Fits (.flush s.clock)
  | _ => True

/-- A tick that fits is delivered. -/
theorem deliver_of_fits {s : Clocked T} (hopen : s.timer.isClosed = false)
    (h : s.timer.StepFits 1) : ∃ s', s.deliver = some s' ∧ Delivers s s' := by
  refine ⟨{ s with timer := s.timer.step 1, ticks := s.ticks ++ [s.clock] }, ?_, hopen, rfl, rfl,
    rfl⟩
  rw [deliver, step64_of_fits h]
  rfl

/-- A thread that comes back from its wait for a tick takes one. -/
theorem delivers_of_wake [DecidableEq T] {s s' : Clocked T} {i : T}
    (hwait : (s.place i).isTickWait = true) (hopen : s.timer.isClosed = false)
    (hfits : s.Fits (.wake i)) (h : s.next (.wake i) = some (some s')) : Delivers s s' := by
  simp only [next] at h
  split at h
  next hplace => rw [hplace] at hwait; cases hwait
  next hplace => rw [hplace] at hwait; cases hwait
  next =>
    obtain ⟨-, hback⟩ := Machine.of_guard h
    have hopen' : s.timer.isOpen = true := by simpa [isClosed] using hopen
    rw [if_pos hopen'] at hback
    obtain ⟨s'', hdeliver, hd⟩ :=
      deliver_of_fits (s := s.moved i .outside) hopen (hfits hwait hopen)
    obtain rfl := Option.some.inj (hdeliver.symm.trans hback)
    exact ⟨hd.isOpen, hd.timer, hd.ticks, hd.skipped⟩

/-- A step that fits is defined. A tick is taken by a thread that has just looked at the clock,
or by one that comes back from its wait. -/
theorem next_cases [DecidableEq T] {s : Clocked T} {e : Event T} {o : Option (Clocked T)}
    (hnext : IsInt64 s.timer.nextTick) (hfits : s.Fits e) (h : s.next e = some o) :
    ∃ s', o = some s' ∧
      ((s'.timer = s.timer ∧ s'.ticks = s.ticks ∧ s'.skipped = s.skipped) ∨
        (Delivers s s' ∧ s.timer.StepFits 1 ∧ (s.timer.nextTick ≤ s.clock ∨
          ∃ i, e = .wake i ∧ (s.place i).isTickWait = true)) ∨
        (e = .flush ∧ ∃ timer, s.timer.flush s.clock = some timer ∧
          s' = { s with timer := timer, skipped := s.skipped + (s.timer.count - timer.count) }) ∨
        s' = { s with timer := s.timer.close }) := by
  cases e with
  | pass now =>
      obtain ⟨-, rfl⟩ := Machine.of_guard h
      exact ⟨_, rfl, .inl ⟨rfl, rfl, rfl⟩⟩
  | call i t =>
      simp only [next] at h
      obtain ⟨-, rfl⟩ := Machine.of_guard h
      cases hclosed : s.timer.isClosed with
      | true =>
          have hopen : s.timer.isOpen = false := by simpa [isClosed] using hclosed
          exact ⟨s, by simp [check, hopen, checked], .inl ⟨rfl, rfl, rfl⟩⟩
      | false =>
          have hopen : s.timer.isOpen = true := by simpa [isClosed] using hclosed
          obtain ⟨hdue, hleft⟩ := hfits hclosed
          by_cases hnow : s.timer.nextTick ≤ s.clock
          · obtain ⟨s', hdeliver, hd⟩ := deliver_of_fits hclosed (hdue hnow)
            refine ⟨s', ?_, .inr (.inl ⟨hd, hdue hnow, .inl hnow⟩)⟩
            simpa [check, hopen, hnow, checked] using hdeliver
          by_cases ht : t ≤ 0
          · exact ⟨s, by simp [check, hopen, hnow, ht, checked], .inl ⟨rfl, rfl, rfl⟩⟩
          have hint := int64_of (hleft (by omega) (by omega))
          by_cases hlt : t < s.timer.nextTick - s.clock
          · have hcheck : s.timer.check t s.clock = some (.shortWait (s.clock + t)) := by
              simp [check, hopen, hnow, ht, hint, hlt]
            rw [hcheck]
            exact ⟨s.moved i (.shortWait (s.clock + t)), rfl, .inl ⟨rfl, rfl, rfl⟩⟩
          · have hcheck : s.timer.check t s.clock =
                some (.tickWait (s.clock + (s.timer.nextTick - s.clock))) := by
              simp [check, hopen, hnow, ht, hint, hlt]
            rw [hcheck]
            exact ⟨s.moved i (.tickWait (s.clock + (s.timer.nextTick - s.clock))), rfl,
              .inl ⟨rfl, rfl, rfl⟩⟩
  | wake i =>
      cases hplace : s.place i with
      | outside => simp [next, hplace] at h
      | shortWait d =>
          simp only [next, hplace] at h
          obtain ⟨-, rfl⟩ := Machine.of_guard h
          exact ⟨_, rfl, .inl ⟨rfl, rfl, rfl⟩⟩
      | tickWait d =>
          have hwait : (s.place i).isTickWait = true := by rw [hplace]; rfl
          simp only [next, hplace] at h
          obtain ⟨-, rfl⟩ := Machine.of_guard h
          cases hopen : s.timer.isOpen with
          | false => exact ⟨s.moved i .outside, by simp, .inl ⟨rfl, rfl, rfl⟩⟩
          | true =>
              have hclosed : s.timer.isClosed = false := by rw [isClosed, hopen]; rfl
              have hstep := hfits hwait hclosed
              obtain ⟨s', hdeliver, hd⟩ := deliver_of_fits (s := s.moved i .outside) hclosed hstep
              exact ⟨s', by simpa using hdeliver,
                .inr (.inl ⟨⟨hd.isOpen, hd.timer, hd.ticks, hd.skipped⟩, hstep,
                  .inr ⟨i, rfl, hwait⟩⟩)⟩
  | flush =>
      obtain ⟨timer, hflush, -⟩ := flush_spec hnext hfits
      obtain rfl := Option.some.inj h
      exact ⟨_, by rw [hflush]; rfl, .inr (.inr (.inl ⟨rfl, timer, hflush, rfl⟩))⟩
  | close =>
      obtain rfl := Option.some.inj h
      exact ⟨_, rfl, .inr (.inr (.inr rfl))⟩

end Clocked

/-- Any number of threads on a timer that is constructed at the time `start`, or `none` once
something undefined has happened. -/
def threads (T : Type) [DecidableEq T] (t : ℤ) (count : ℕ) (start : ℤ) :
    Machine (Option (Clocked T)) (Event T) where
  start := (construct t count start).map fun timer => ⟨timer, start, fun _ => .outside, [], 0⟩
  next o e := o.bind fun s => s.next e

/-- The condition on the step in which a thread comes back: the tick that it waited for has not
been taken or discarded, so that the next tick is not later than the clock shows. -/
def OnTime {T : Type} (s : Clocked T) : Event T → Prop
  | .wake i =>
      (s.place i).isTickWait = true → s.timer.isClosed = false → s.timer.nextTick ≤ s.clock
  | _ => True

/-- A thread that comes back finds the tick it waited for, and nothing overflows. -/
def Proceeds {T : Type} (o : Option (Clocked T)) (e : Event T) : Prop :=
  ∀ s, o = some s → OnTime s e ∧ s.Fits e

/-! ### The grid of the ticks -/

section Ticks

variable {T : Type} {t start : ℤ} {count : ℕ} {s s' : Clocked T} {e : Event T}
variable {o : Option (Clocked T)}

/-- The next tick of an open timer comes behind those that were delivered or discarded. -/
structure Paced (t start : ℤ) (s : Clocked T) : Prop where
  delta : s.timer.delta = max t 0
  stored : IsInt64 s.timer.nextTick
  next : s.timer.isClosed = false →
    s.timer.nextTick = start + ((s.ticks.length + s.skipped + 1 : ℕ) : ℤ) * max t 0

/-- No tick was delivered before its time. -/
def Clocked.Timely (t start : ℤ) (s : Clocked T) : Prop :=
  ∀ k τ, s.ticks[k]? = some τ → start + ((k + 1 : ℕ) : ℤ) * max t 0 ≤ τ

/-- Nothing undefined has happened, and no tick was delivered before its time. -/
def OnSchedule (t start : ℤ) (o : Option (Clocked T)) : Prop :=
  ∃ s, o = some s ∧ s.Timely t start

theorem Paced.deliver (h : Paced t start s) (hd : s.Delivers s') (hfits : s.timer.StepFits 1) :
    Paced t start s' := by
  obtain ⟨hdelta, hnext, -, hclosed⟩ := s.timer.step_spec 1
  refine ⟨by rw [hd.timer, hdelta, h.delta], by rw [hd.timer, hnext]; exact hfits.2,
    fun hopen => ?_⟩
  have hcount : min 1 s.timer.count = 1 := by
    rw [hd.timer] at hopen
    by_contra hlast
    rw [hclosed.mpr (.inr (by omega))] at hopen
    cases hopen
  rw [hd.timer, hnext, hcount, h.next hd.isOpen, hd.ticks, hd.skipped, h.delta, List.length_append,
    List.length_singleton, Int.add_assoc, ← Int.add_mul]
  congr 2
  omega

/-- Every step that fits is defined and keeps the pace. -/
theorem Paced.step [DecidableEq T] (h : Paced t start s) (hfits : s.Fits e)
    (hstep : s.next e = some o) : ∃ s', o = some s' ∧ Paced t start s' := by
  obtain ⟨s', rfl, ⟨htimer, hticks, hskipped⟩ | ⟨hd, hone, -⟩ | ⟨rfl, timer, hflush, rfl⟩ | rfl⟩ :=
    Clocked.next_cases h.stored hfits hstep
  · refine ⟨s', rfl, by rw [htimer, h.delta], by rw [htimer]; exact h.stored, fun hopen => ?_⟩
    rw [htimer, hticks, hskipped]
    exact h.next (htimer ▸ hopen)
  · exact ⟨s', rfl, h.deliver hd hone⟩
  · obtain ⟨timer', hflush', hdelta, hopen, hstored, skip, hcount, hnext⟩ :=
      flush_spec h.stored hfits
    obtain rfl := Option.some.inj (hflush'.symm.trans hflush)
    refine ⟨_, rfl, hdelta.trans h.delta, hstored, fun hclosed => ?_⟩
    have hskip : s.timer.count - timer'.count = skip := by omega
    change timer'.nextTick =
      start + ((s.ticks.length + (s.skipped + (s.timer.count - timer'.count)) + 1 : ℕ) : ℤ) * _
    rw [hnext, h.next (hopen hclosed), h.delta, hskip, Int.add_assoc, ← Int.add_mul]
    congr 2
    omega
  · exact ⟨_, rfl, h.delta, h.stored, fun hopen => by simp [close, isClosed] at hopen⟩

/-- A tick that is taken when it is due is on schedule. -/
theorem Clocked.Timely.deliver (h : s.Timely t start) (hp : Paced t start s) (hd : s.Delivers s')
    (hdue : s.timer.nextTick ≤ s.clock) : s'.Timely t start := by
  intro k τ hk
  rw [hd.ticks] at hk
  by_cases hlt : k < s.ticks.length
  · rw [List.getElem?_append_left hlt] at hk
    exact h k τ hk
  rw [List.getElem?_append_right (by omega), List.getElem?_singleton] at hk
  split at hk
  swap
  · cases hk
  rename_i hlast
  have hk' : k = s.ticks.length := by omega
  -- Ticks that were discarded only make this one later.
  have hle : ((k + 1 : ℕ) : ℤ) ≤ ((s.ticks.length + s.skipped + 1 : ℕ) : ℤ) := by omega
  calc
    start + ((k + 1 : ℕ) : ℤ) * max t 0
        ≤ start + ((s.ticks.length + s.skipped + 1 : ℕ) : ℤ) * max t 0 :=
      Int.add_le_add_left (Int.mul_le_mul_of_nonneg_right hle (Int.le_max_right t 0)) start
    _ = s.timer.nextTick := (hp.next hd.isOpen).symm
    _ ≤ s.clock := hdue
    _ = τ := Option.some.inj hk

/-- A step that meets the condition keeps the schedule. -/
theorem Clocked.Timely.step [DecidableEq T] (h : s.Timely t start) (hp : Paced t start s)
    (hok : OnTime s e) (hfits : s.Fits e) (hstep : s.next e = some (some s')) :
    s'.Timely t start := by
  obtain ⟨s'', hsome, hcases⟩ := Clocked.next_cases hp.stored hfits hstep
  obtain rfl := Option.some.inj hsome
  rcases hcases with ⟨-, hticks, -⟩ | ⟨hd, -, hdue | ⟨i, rfl, hwait⟩⟩ | ⟨-, timer, -, rfl⟩ | rfl
  · intro k τ hk
    rw [hticks] at hk
    exact h k τ hk
  · exact h.deliver hp hd hdue
  · exact h.deliver hp hd (hok hwait hd.isOpen)
  · exact h
  · exact h

/-- The first state, if its next tick fits. -/
theorem threads_start (T : Type) [DecidableEq T] (hfits : IsInt64 (start + max t 0)) :
    ∃ s, (threads T t count start).start = some s ∧ Paced t start s ∧ s.Timely t start := by
  have hnew : construct t count start = some (new t count start) := by
    rw [construct, int64_of hfits]
    rfl
  refine ⟨_, by rw [threads, hnew]; rfl, ⟨rfl, hfits, fun _ => ?_⟩, fun k τ hk => by cases hk⟩
  change start + max t 0 = start + ((0 + 0 + 1 : ℕ) : ℤ) * max t 0
  rw [Int.natCast_one, Int.one_mul]

/-- What holds in every run whose steps meet the conditions. -/
theorem paced_of_reach [DecidableEq T] (hfits : IsInt64 (start + max t 0))
    (h : (threads T t count start).Reach Proceeds o) :
    ∃ s, o = some s ∧ Paced t start s ∧ s.Timely t start := by
  refine Machine.Reach.invariant
    (I := fun o => ∃ s, o = some s ∧ Paced t start s ∧ s.Timely t start)
    (threads_start T hfits) ?_ h
  rintro _ e o' ⟨s, rfl, hp, hs⟩ hok hnext
  obtain ⟨htime, hstep⟩ := hok s rfl
  obtain ⟨s', rfl, hp'⟩ := hp.step hstep hnext
  exact ⟨s', rfl, hp', hs.step hp htime hstep hnext⟩

/-- **Ticks from several threads.** The tick with the number `k` is not delivered before `k`
intervals have passed, in every run without an overflow or a division by zero in which a thread
that comes back from its wait for a tick finds that tick. -/
theorem ticks_onTime [DecidableEq T] (hfits : IsInt64 (start + max t 0))
    (h : (threads T t count start).Reach Proceeds o) : OnSchedule t start o := by
  obtain ⟨s, hs, -, htimely⟩ := paced_of_reach hfits h
  exact ⟨s, hs, htimely⟩

/-- A thread that does not find the tick it waited for takes the next one before its time, and
it is early if no tick was discarded. -/
theorem early_of_not_onTime [DecidableEq T] (hfits : IsInt64 (start + max t 0))
    (h : (threads T t count start).Reach Proceeds (some s)) (hskipped : s.skipped = 0)
    (hok : ¬ OnTime s e) (hone : s.Fits e) (hstep : s.next e = some o) :
    ¬ OnSchedule t start o := by
  obtain ⟨_, hsame, hp, -⟩ := paced_of_reach hfits h
  obtain rfl := Option.some.inj hsame
  cases e with
  | wake i =>
      simp only [OnTime, not_forall, Int.not_le] at hok
      obtain ⟨hwait, hopen, hlate⟩ := hok
      rintro ⟨s', rfl, hs⟩
      have hd := Clocked.delivers_of_wake hwait hopen hone hstep
      have hlast := hs s.ticks.length s.clock (by rw [hd.ticks, List.getElem?_concat_length])
      rw [hp.next hopen, hskipped, Nat.add_zero] at hlate
      exact Int.not_lt.mpr hlast hlate
  | _ => exact absurd trivial hok

end Ticks

/-- One thread waits for the first of five ticks, and takes it at its time. -/
theorem ticks_onTime_alone :
    ∃ o, (threads Unit 10 5 0).Reach Proceeds o ∧ o.map Clocked.ticks = some [10] ∧
      OnSchedule 10 0 o := by
  have hcall : (threads Unit 10 5 0).Reach Proceeds _ :=
    .step .start (e := .call () 100)
      (fun s hs => by
        obtain rfl := Option.some.inj hs
        exact ⟨trivial, fun _ => ⟨fun _ => by decide, fun _ _ => by decide⟩⟩) rfl
  have hpass : (threads Unit 10 5 0).Reach Proceeds _ :=
    .step hcall (e := .pass 10) (fun _ _ => ⟨trivial, trivial⟩) rfl
  have hwake : (threads Unit 10 5 0).Reach Proceeds _ :=
    .step hpass (e := .wake ())
      (fun s hs => by
        obtain rfl := Option.some.inj hs
        exact ⟨fun _ _ => by decide, fun _ _ => by decide⟩) rfl
  exact ⟨_, hwake, rfl, ticks_onTime (by decide) hwake⟩

/-- Two threads wait for the same tick, and each takes one when it comes. -/
theorem ticks_onTime_fails :
    ¬ ∀ (T : Type) [DecidableEq T] (t start : ℤ) (count : ℕ) (o : Option (Clocked T)),
      (threads T t count start).Reachable o → OnSchedule t start o := by
  intro h
  have hrun : ∃ s, (threads Bool 10 5 0).Reachable (some s) ∧ s.ticks = [10, 10] :=
    ⟨_, .of_replay [.call true 100, .call false 100, .pass 10, .wake true, .wake false] .start
      rfl, rfl⟩
  obtain ⟨s, hreach, hticks⟩ := hrun
  obtain ⟨s', hsame, htimely⟩ := h Bool 10 0 5 _ hreach
  obtain rfl := Option.some.inj hsame
  have hsecond := htimely 1 10 (by rw [hticks]; rfl)
  revert hsecond
  decide

end TimerChannel

end RsIo
