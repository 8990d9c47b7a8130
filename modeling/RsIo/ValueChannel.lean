import RsIo.Transition
import Mathlib.Tactic.Common

/-!
# Values that Overwrite Each Other

A `ValueChannel` holds one value, which the next write replaces whether it was read or not. A
write of a value equal to the one it holds succeeds and does nothing else, even if what was
read last is another one. What that loses is nothing: the value that it leaves in place is
read later, or has been.

The type of the values has an equality of its own, which need not be that of Lean.

## Main results

* `ValueChannel.History.Sound.after`: how the status, the value and what was read and written
  depend on each other, kept by each call.
* `ValueChannel.read_last_write`: reads return what was written last, no update is lost, and a
  closed channel stays closed.
-/

namespace RsIo

/-- A `ValueChannel`. The status is 1 for a new value, 0 for no change and -1 if closed. -/
structure ValueChannel (T : Type) where
  value : T
  status : ℤ
  deriving DecidableEq, Repr

namespace ValueChannel

variable {T : Type}

/-- The constructor from a value, or with the value of a new object. -/
def new (t : T) : ValueChannel T where
  value := t
  status := 0

/-- `ValueChannel::close`. -/
def close (s : ValueChannel T) : ValueChannel T :=
  { s with status := -1 }

/-- `ValueChannel::is_closed`. -/
def isClosed (s : ValueChannel T) : Bool :=
  s.status == -1

/-- `ValueChannel::read`, with the value if it returns true. -/
def read (s : ValueChannel T) : Option T × ValueChannel T :=
  if s.status ≠ 1 then
    (none, s)
  else
    (some s.value, { s with status := 0 })

/-- `ValueChannel::write`, of either kind. -/
def write [BEq T] (s : ValueChannel T) (t : T) : Bool × ValueChannel T :=
  if s.status = -1 then
    (false, s)
  else if t == s.value then
    (true, s)
  else
    (true, { s with value := t, status := 1 })

/-- What `ValueChannel::do_wait_for` returns: the status as a truth value, as it is when the
wait is over. A poll does not wait. -/
def doWaitFor (s : ValueChannel T) : Bool :=
  s.status != 0

/-! ### One call -/

/-- Nothing is read from a closed channel. -/
theorem read_closed {s : ValueChannel T} (h : s.status = -1) : s.read = (none, s) := by
  rw [read, if_pos (by omega)]

/-- A value that has changed is read once. -/
theorem read_changed {s : ValueChannel T} (h : s.status = 1) :
    s.read = (some s.value, { s with status := 0 }) := by
  rw [read, if_neg (by omega)]

/-- A value that has not changed is not read. -/
theorem read_unchanged {s : ValueChannel T} (h : s.status ≠ 1) : s.read = (none, s) := by
  rw [read, if_pos h]

variable [BEq T]

/-- A closed channel takes no value. -/
theorem write_closed {s : ValueChannel T} (h : s.status = -1) (t : T) :
    s.write t = (false, s) := by
  rw [write, if_pos h]

/-- A write to an open channel succeeds, and leaves a value that is equal to what was written. -/
theorem write_open {s : ValueChannel T} (h : s.status ≠ -1) (t : T) :
    (s.write t).1 = true ∧ ((s.write t).2 = { value := t, status := 1 } ∨
      (s.write t).2 = s ∧ (t == s.value) = true) := by
  rw [write, if_neg h]
  split
  next heq => exact ⟨rfl, .inr ⟨rfl, heq⟩⟩
  next => exact ⟨rfl, .inl rfl⟩

/-- A change stays to be read whatever is written behind it. -/
theorem write_changed {s : ValueChannel T} (h : s.status = 1) (t : T) :
    (s.write t).2.status = 1 := by
  have hopen : s.status ≠ -1 := by omega
  rcases (write_open hopen t).2 with hnew | ⟨hsame, -⟩
  · rw [hnew]
  · rw [hsame, h]

/-! ### Runs -/

/-- A channel, with the value that was read last, which is the initial one before the first
read, and the value that was written last to the open channel. -/
structure History (T : Type) where
  channel : ValueChannel T
  seen : T
  accepted : Option T
  deriving DecidableEq, Repr

/-- A call. -/
inductive Call (T : Type)
  | read
  | write (t : T)
  | wait
  | close

namespace History

/-- What one call does to the channel and to the history. -/
def after (s : History T) : Call T → History T
  | .read =>
      let r := s.channel.read
      { s with channel := r.2, seen := r.1.getD s.seen }
  | .write t =>
      let r := s.channel.write t
      { s with channel := r.2, accepted := if r.1 then some t else s.accepted }
  | .wait => s
  | .close => { s with channel := s.channel.close }

/-- Any calls on a channel that starts with the value `t`: each holds the mutex. -/
def calls (t : T) : Machine (History T) (Call T) where
  start := ⟨.new t, t, none⟩
  next s e := some (s.after e)

/-- The status is one of the three. What is to be read was written last, as far as the equality
of the type can tell. What is not to be read was read last. -/
structure Sound (s : History T) : Prop where
  status : s.channel.status = 1 ∨ s.channel.status = 0 ∨ s.channel.status = -1
  changed : s.channel.status = 1 →
    ∃ w, s.accepted = some w ∧ (s.channel.value = w ∨ (w == s.channel.value) = true)
  unchanged : s.channel.status = 0 → s.channel.value = s.seen

/-- A read keeps the history sound. -/
theorem Sound.read {s : History T} (h : s.Sound) : (s.after .read).Sound := by
  by_cases hstatus : s.channel.status = 1
  · have hafter : s.after .read =
        { s with channel := { s.channel with status := 0 }, seen := s.channel.value } := by
      simp only [History.after, read_changed hstatus, Option.getD_some]
    rw [hafter]
    exact ⟨.inr (.inl rfl), by simp, fun _ => rfl⟩
  · have hafter : s.after .read = s := by
      simp only [History.after, read_unchanged hstatus, Option.getD_none]
    rw [hafter]
    exact h

/-- A write keeps the history sound. -/
theorem Sound.write {s : History T} (h : s.Sound) (t : T) : (s.after (.write t)).Sound := by
  by_cases hclosed : s.channel.status = -1
  · have hafter : s.after (.write t) = s := by
      simp only [History.after, write_closed hclosed, Bool.false_eq_true, if_false]
    rw [hafter]
    exact h
  obtain ⟨htrue, hnew | ⟨hsame, heq⟩⟩ := write_open hclosed t
  · have hafter : s.after (.write t) = { s with channel := ⟨t, 1⟩, accepted := some t } := by
      simp only [History.after, htrue, if_true, hnew]
    rw [hafter]
    exact ⟨.inl rfl, fun _ => ⟨t, rfl, .inl rfl⟩, by simp⟩
  · have hafter : s.after (.write t) = { s with accepted := some t } := by
      simp only [History.after, htrue, if_true, hsame]
    rw [hafter]
    exact ⟨h.status, fun _ => ⟨t, rfl, .inr heq⟩, h.unchanged⟩

/-- Any call does. -/
theorem Sound.after {s : History T} (h : s.Sound) (e : Call T) : (s.after e).Sound := by
  cases e with
  | read => exact h.read
  | write t => exact h.write t
  | wait => exact h
  | close => exact ⟨.inr (.inr rfl), by simp [History.after, close], by simp [History.after, close]⟩

/-- Nothing opens a closed channel. -/
theorem closed_after {s : History T} (h : s.channel.status = -1) (e : Call T) :
    (s.after e).channel.status = -1 := by
  cases e with
  | read => simpa only [History.after, read_closed h] using h
  | write t => simpa only [History.after, write_closed h] using h
  | wait => exact h
  | close => rfl

end History

/-- **No lost update.** A successful read returns the value that was written last (or the one it
was equal to, and swallowed for). Whenever the value differs from the one that was read last,
or from the initial one if none was read, an open channel is ready and the next read succeeds,
also if more is written before it. After `close` every read and every write fails. -/
theorem read_last_write {t : T} {s : History T} (h : (History.calls t).Reachable s) :
    (∀ v s', s.channel.read = (some v, s') →
      ∃ w, s.accepted = some w ∧ (v = w ∨ (w == v) = true)) ∧
    (s.channel.isClosed = false → s.channel.value ≠ s.seen →
      s.channel.doWaitFor = true ∧ s.channel.read.1 = some s.channel.value ∧
        ∀ ts : List T, (ts.foldl (fun c t => (c.write t).2) s.channel).read.1.isSome = true) ∧
    ∀ s', (History.calls t).Later (s.after .close) s' →
      s'.channel.read.1 = none ∧ ∀ v, (s'.channel.write v).1 = false := by
  have hsound : s.Sound := by
    refine Machine.Reach.invariant ⟨.inr (.inl rfl), by simp [History.calls, new], fun _ => rfl⟩
      (fun s e s' hs _ hnext => ?_) h
    rw [← Option.some.inj hnext]
    exact hs.after e
  refine ⟨fun v s' hread => ?_, fun hopen hne => ?_, fun s' hlater => ?_⟩
  · by_cases hstatus : s.channel.status = 1
    · rw [read_changed hstatus, Prod.mk.injEq, Option.some.injEq] at hread
      rw [← hread.1]
      exact hsound.changed hstatus
    · rw [read_unchanged hstatus] at hread
      simp at hread
  · have hstatus : s.channel.status = 1 := by
      rcases hsound.status with hone | hzero | hclosed
      · exact hone
      · exact absurd (hsound.unchanged hzero) hne
      · simp [isClosed, hclosed] at hopen
    refine ⟨by simp [doWaitFor, hstatus], by rw [read_changed hstatus], fun ts => ?_⟩
    have hready : (ts.foldl (fun c t => (c.write t).2) s.channel).status = 1 := by
      refine List.foldlRecOn (motive := fun c : ValueChannel T => c.status = 1) ts _ hstatus
        fun c hc t _ => ?_
      exact write_changed hc t
    rw [read_changed hready]
    rfl
  · have hclosed : s'.channel.status = -1 := by
      refine Machine.Later.invariant (I := fun s => s.channel.status = -1)
        (fun s e s' hs hnext => ?_) hlater rfl
      rw [← Option.some.inj hnext]
      exact History.closed_after hs e
    exact ⟨by rw [read_closed hclosed], fun v => by rw [write_closed hclosed]⟩

/-- A value that was not read yet: it, or what overwrites it, is read next. -/
theorem read_last_write_unread :
    (⟨6, 1⟩ : ValueChannel ℕ).doWaitFor = true ∧ (⟨6, 1⟩ : ValueChannel ℕ).read.1 = some 6 ∧
      ∀ ts : List ℕ,
        (ts.foldl (fun c t => (c.write t).2) (⟨6, 1⟩ : ValueChannel ℕ)).read.1.isSome = true :=
  have hreach : (History.calls 5).Reachable ⟨⟨6, 1⟩, 5, some 6⟩ :=
    .of_replay [.write 6] .start (by decide +kernel)
  (read_last_write hreach).2.1 (by decide) (by decide)

end ValueChannel

end RsIo
