import Mathlib.Algebra.Order.Ring.Int
import Mathlib.Tactic.Common

/-!
# Channels

A `Channel` as the dispatcher sees it: a state, and the virtual functions it calls on it.
`ChannelClass` is a class derived from `Channel`. What the clock shows and what happens
outside is an argument of the functions, of a type that the classes of one dispatcher
share.

`TimerChannel` is the class whose functions are written out here. Times and intervals are
integers, in whatever unit the clock has. The numbers of ticks do not depend on them. The same
functions on the 64-bit counts of the clock are in the module on `TimerChannel::flush`.

## Main results

* `TimerChannel.doWaitFor_step`: a wait that returns true on an open timer takes one tick,
  or finds no ticks left, and closes the timer when none remain.
-/

namespace RsIo

/-- A class derived from `Channel`. `doWaitFor s t x` is a call of `do_wait_for(t)` and
returns the new state. `read` is what a handler does before it invokes the callback, and
whether it does. `outside` is what the other threads do to the channel. -/
structure ChannelClass (ε : Type) where
  State : Type
  isSynchronous : Bool
  doWaitFor : State → ℤ → ε → Bool × State
  isClosed : State → Bool
  close : State → State
  read : State → ε → Bool × State
  outside : State → ε → State

/-- A `TimerChannel`. -/
structure TimerChannel where
  nextTick : ℤ
  count : ℕ
  delta : ℤ
  isOpen : Bool
  deriving DecidableEq, Repr

namespace TimerChannel

/-- The constructor, called at the time `now`. -/
def new (t : ℤ) (count : ℕ) (now : ℤ) : TimerChannel :=
  let delta := max t 0
  { nextTick := now + delta, count := count, delta := delta, isOpen := true }

def close (s : TimerChannel) : TimerChannel :=
  { s with isOpen := false }

def isClosed (s : TimerChannel) : Bool :=
  !s.isOpen

/-- `TimerChannel::step`. -/
def step (s : TimerChannel) (n : ℕ) : TimerChannel :=
  let n := min n s.count
  let count := s.count - n
  { s with
    count := count,
    nextTick := s.nextTick + n * s.delta,
    isOpen := if count = 0 then false else s.isOpen }

/-- `TimerChannel::do_wait_for`, for a caller that is alone on the channel, at the time
`now`. Nobody closes the timer while the condition variable waits, so that a wait shorter
than what remains of the interval times out. -/
def doWaitFor (s : TimerChannel) (t now : ℤ) : Bool × TimerChannel :=
  if !s.isOpen then
    (true, s)
  else if s.nextTick ≤ now then
    (true, s.step 1)
  else if t ≤ 0 then
    (false, s)
  else if t < s.nextTick - now then
    (!s.isOpen, s)
  else
    (true, s.step 1)

@[simp] theorem isClosed_close (s : TimerChannel) : s.close.isClosed = true := rfl

/-- A closed timer is left as it is by a wait, which returns at once. -/
theorem doWaitFor_closed {s : TimerChannel} (h : s.isClosed = true) (t now : ℤ) :
    s.doWaitFor t now = (true, s) := by
  have hopen : s.isOpen = false := by simpa [isClosed] using h
  simp [doWaitFor, hopen]

/-- A wait on an open timer returns false and does nothing, or returns true after one
step. -/
theorem doWaitFor_open {s : TimerChannel} (h : s.isClosed = false) (t now : ℤ) :
    s.doWaitFor t now = (false, s) ∨ s.doWaitFor t now = (true, s.step 1) := by
  have hopen : s.isOpen = true := by simpa [isClosed] using h
  unfold doWaitFor
  split_ifs <;> simp_all

/-- One step takes a tick if there is one, and closes the timer when none are left. -/
theorem step_one {s : TimerChannel} (h : s.isClosed = false) :
    (s.step 1).count = s.count - 1 ∧ ((s.step 1).isClosed = true ↔ s.count ≤ 1) := by
  have hopen : s.isOpen = true := by simpa [isClosed] using h
  have hcount : (s.step 1).count = s.count - 1 := by
    simp only [step]
    omega
  refine ⟨hcount, ?_⟩
  have hclosed : (s.step 1).isClosed = true ↔ (s.step 1).count = 0 := by
    simp [isClosed, step, hopen]
  rw [hclosed, hcount]
  omega

end TimerChannel

/-- The class `TimerChannel`, or one derived from it that is synchronous. The environment
shows the time to `clock`. Its handler is the callback itself, and other threads may close
it. -/
def timerClass {ε : Type} (isSynchronous : Bool) (clock : ε → ℤ) : ChannelClass ε where
  State := TimerChannel
  isSynchronous := isSynchronous
  doWaitFor s t x := s.doWaitFor t (clock x)
  isClosed := TimerChannel.isClosed
  close := TimerChannel.close
  read s _ := (true, s)
  outside s _ := s.close

end RsIo
