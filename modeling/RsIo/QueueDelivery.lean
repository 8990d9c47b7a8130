import RsIo.Dispatch

/-!
# The Delivery of Messages from a Queue

The class `QueueChannel`, and the handler thread that a `Dispatch` runs for it: the thread
waits for the channel, asks whether it is closed, reads a message, and passes it to the
callback, in separate steps. Any number of threads may write to the channel and close it
between them. A section under the mutex of the channel is one step, and the memory of a
message may run out in it. Nobody else reads from the channel or clears it.

## Main results

* `handlerStep_taskStep`: the handler is a handler of the dispatcher, for the class
  `queueClass`.
* `Delivered.step`: no step loses, repeats or reorders a message.
* `delivery_prefix`: what the callback gets is a beginning of what was written, whatever
  happens and whenever the channel is closed.
-/

namespace RsIo

/-- A `QueueChannel`. -/
structure QueueChannel (T : Type) where
  isOpen : Bool
  queue : List T
  deriving DecidableEq, Repr

namespace QueueChannel

variable {T : Type}

/-- The constructor. -/
def new : QueueChannel T where
  isOpen := true
  queue := []

/-- `QueueChannel::close`. -/
def close (s : QueueChannel T) : QueueChannel T :=
  { s with isOpen := false }

/-- `QueueChannel::is_closed`. -/
def isClosed (s : QueueChannel T) : Bool :=
  !s.isOpen

/-- `QueueChannel::read`, with the message if it returns true. -/
def read (s : QueueChannel T) : Option T × QueueChannel T :=
  if !s.isOpen then
    (none, s)
  else
    match s.queue with
    | [] => (none, s)
    | t :: queue => (some t, { s with queue := queue })

/-- `QueueChannel::write`, of either kind. -/
def write (s : QueueChannel T) (t : T) : Bool × QueueChannel T :=
  if !s.isOpen then
    (false, s)
  else
    (true, { s with queue := s.queue ++ [t] })

/-- What `QueueChannel::do_wait_for` returns: the condition it waits for, as it is when the
wait is over. -/
def doWaitFor (s : QueueChannel T) : Bool :=
  !s.isOpen || !s.queue.isEmpty

/-- What another thread does to a queue: it closes it or writes to it. -/
inductive Access (T : Type)
  | close
  | write (t : T)

/-- What an access does to the channel. -/
def access (s : QueueChannel T) : Access T → QueueChannel T
  | .close => s.close
  | .write t => (s.write t).2

/-- The class `QueueChannel`, for a dispatcher in which `view` shows what is done to the
queue from outside. -/
def queueClass {ε : Type} (view : ε → Access T) : ChannelClass ε where
  State := QueueChannel T
  isSynchronous := false
  doWaitFor s _ _ := (s.doWaitFor, s)
  isClosed := isClosed
  close := close
  read s _ := (s.read.1.isSome, s.read.2)
  outside s x := s.access (view x)

/-- A write to a closed queue returns false and changes nothing. -/
theorem write_closed {s : QueueChannel T} (h : s.isOpen = false) (t : T) :
    s.write t = (false, s) := by
  simp [write, h]

/-- A write to an open queue puts the message at its end. -/
theorem write_open {s : QueueChannel T} (h : s.isOpen = true) (t : T) :
    s.write t = (true, { s with queue := s.queue ++ [t] }) := by
  simp [write, h]

/-- A read takes the message at the front, or does nothing. -/
theorem read_queue (s : QueueChannel T) :
    s.queue = s.read.1.toList ++ s.read.2.queue ∧ s.read.2.isOpen = s.isOpen := by
  unfold read
  split_ifs with hopen
  · exact ⟨rfl, rfl⟩
  · split
    next hqueue => exact ⟨by simp, rfl⟩
    next t queue hqueue => exact ⟨by simp [hqueue], rfl⟩

/-! ### The handler -/

/-- Where the handler thread is: at one of the places of `Dispatch.TaskPc`, where it has
read a message that it is about to pass to the callback, or in the callback. -/
inductive HandlerPc (T : Type)
  | wait
  | check
  | read
  | got (t : T)
  | call (t : T)
  | fault (error : Bool)
  deriving DecidableEq, Repr

namespace HandlerPc

/-- The message that was read but not passed to the callback yet. -/
def unpassed : HandlerPc T → Option T
  | .got t => some t
  | _ => none

/-- The message the callback is running for. -/
def calling : HandlerPc T → Option T
  | .call t => some t
  | _ => none

/-- The message in hand. -/
def handled : HandlerPc T → Option T
  | .got t | .call t => some t
  | _ => none

/-- The handler has one message, which it may not have passed on yet. -/
theorem handled_toList (pc : HandlerPc T) :
    pc.handled.toList = pc.calling.toList ++ pc.unpassed.toList := by
  cases pc <;> rfl

/-- The place in the dispatcher's own description of a handler. -/
def toTask : HandlerPc T → Dispatch.TaskPc
  | .wait => .wait
  | .check => .check
  | .read => .read
  | .got _ | .call _ => .call
  | .fault error => .fault error

end HandlerPc

/-- One step of the handler thread, up to the report of a fault. The handler is the lambda
that `Dispatch::add` makes of the callback, and whatever it calls may throw. -/
def handlerStep (s : QueueChannel T) (throws : Bool) : HandlerPc T → HandlerPc T × QueueChannel T
  | .wait =>
      if throws then
        (.fault true, s)
      else
        (if s.doWaitFor then .check else .wait, s)
  | .check => (if s.isClosed then .fault false else .read, s)
  | .read =>
      -- a message that cannot be copied stays in the queue
      if throws then
        (.fault true, s)
      else
        match s.read with
        | (some t, s') => (.got t, s')
        | (none, s') => (.wait, s')
  | .got t => (.call t, s)
  | .call _ => (if throws then .fault true else .wait, s)
  | .fault error => (.fault error, s)

/-- The place where the next round begins. -/
def nextRound : Dispatch.TaskPc → Dispatch.TaskPc
  | .again _ => .wait
  | pc => pc

/-- A step of the handler is a step of the dispatcher's handler, which starts the next
round at once. To invoke the callback is no step of its own there. -/
theorem handlerStep_taskStep {ε : Type} (view : ε → Access T) (s : QueueChannel T)
    (throws : Bool) (t : ℤ) (x : ε) {pc : HandlerPc T} (hgot : ∀ m, pc ≠ .got m) :
    ((handlerStep s throws pc).1.toTask, (handlerStep s throws pc).2) =
      Prod.map nextRound id (Dispatch.taskStep (queueClass view) s t x throws pc.toTask) := by
  cases pc with
  | got m => exact absurd rfl (hgot m)
  | wait =>
    cases throws <;> cases hready : s.doWaitFor <;>
      simp [handlerStep, HandlerPc.toTask, Dispatch.taskStep, queueClass, nextRound, hready]
  | check =>
    cases hclosed : s.isClosed <;>
      simp [handlerStep, HandlerPc.toTask, Dispatch.taskStep, queueClass, nextRound, hclosed]
  | read =>
    obtain ⟨got, s', hread⟩ : ∃ got s', s.read = (got, s') := ⟨_, _, rfl⟩
    cases throws <;> cases got <;>
      simp [handlerStep, HandlerPc.toTask, Dispatch.taskStep, queueClass, nextRound, hread]
  | call m => cases throws <;> rfl
  | fault error => rfl

/-- What the handler has in hand moves on, and it reads only when it has nothing. -/
theorem handlerStep_spec (chan : QueueChannel T) (throws : Bool) (pc : HandlerPc T) :
    (handlerStep chan throws pc).1.calling.toList = pc.unpassed.toList ∧
      (handlerStep chan throws pc).1.unpassed.toList ++ (handlerStep chan throws pc).2.queue =
        chan.queue := by
  cases pc with
  | wait => cases throws <;> cases hready : chan.doWaitFor <;> simp [handlerStep, hready,
      HandlerPc.calling, HandlerPc.unpassed]
  | check => cases hclosed : chan.isClosed <;> simp [handlerStep, hclosed,
      HandlerPc.calling, HandlerPc.unpassed]
  | read =>
    have hqueue := (read_queue chan).1
    obtain ⟨got, chan', hread⟩ : ∃ got chan', chan.read = (got, chan') := ⟨_, _, rfl⟩
    rw [hread] at hqueue
    cases throws <;> cases got <;>
      simp_all [handlerStep, HandlerPc.calling, HandlerPc.unpassed]
  | got t => exact ⟨rfl, rfl⟩
  | call t => cases throws <;> exact ⟨rfl, rfl⟩
  | fault error => exact ⟨rfl, rfl⟩

/-- The handler does not open or close the channel before it reports a fault. -/
theorem handlerStep_isOpen (chan : QueueChannel T) (throws : Bool) (pc : HandlerPc T) :
    (handlerStep chan throws pc).2.isOpen = chan.isOpen := by
  cases pc with
  | read =>
    have hopen := (read_queue chan).2
    obtain ⟨got, chan', hread⟩ : ∃ got chan', chan.read = (got, chan') := ⟨_, _, rfl⟩
    rw [hread] at hopen
    cases throws <;> cases got <;> simp_all [handlerStep]
  | wait | call => cases throws <;> rfl
  | check | got | fault => rfl

/-! ### The machine -/

/-- A channel and its handler thread, if it has one. The messages whose `write()` returned
true, the arguments the callback was invoked with, and those of them whose call is over
are not in the source. -/
structure State (T : Type) where
  chan : QueueChannel T
  handler : Option (HandlerPc T)
  written : List T
  passed : List T
  finished : List T
  deriving DecidableEq, Repr

/-- What happens next: the channel is added to the dispatcher, a thread writes a message
or closes the channel, or the handler takes a step. A thread may be the handler's own,
in the callback. -/
inductive Event (T : Type)
  | add
  | write (t : T) (throws : Bool)
  | close
  | handler (throws : Bool)

namespace State

/-- The message in hand, while it is not passed on, while the callback runs, and in
either case. -/
def unpassed (s : State T) : Option T :=
  s.handler.bind HandlerPc.unpassed

/-- The message in the call of the handler. -/
def calling (s : State T) : Option T :=
  s.handler.bind HandlerPc.calling

/-- The message that was taken from the channel. -/
def handled (s : State T) : Option T :=
  s.handler.bind HandlerPc.handled

/-- A `write()`, whose result goes to the thread that called it. -/
def write (s : State T) (t : T) : State T :=
  let (accepted, chan) := s.chan.write t
  { s with chan := chan, written := if accepted then s.written ++ [t] else s.written }

/-- One step of the handler thread. -/
def handle (s : State T) (throws : Bool) : Option (State T) :=
  match s.handler with
  | none => none
  | some (.fault _) => some { s with chan := s.chan.close, handler := none }
  | some pc =>
      let (pc', chan) := handlerStep s.chan throws pc
      some { s with
        chan := chan,
        handler := some pc',
        passed := s.passed ++ pc.unpassed.toList,
        finished := s.finished ++ pc.calling.toList }

/-- One step of the machine. A message that cannot be copied into the queue is not
written. -/
def next (s : State T) : Event T → Option (State T)
  | .add =>
      match s.handler with
      | none => some { s with handler := some .wait }
      | some _ => none
  | .write t throws => some (if throws then s else s.write t)
  | .close => some { s with chan := s.chan.close }
  | .handler throws => s.handle throws

end State

/-- A channel that was just constructed. -/
def delivery (T : Type) : Machine (State T) (Event T) where
  start := { chan := new, handler := none, written := [], passed := [], finished := [] }
  next := State.next

/-! ### Where the messages are -/

/-- Every message that was written was passed to the callback, is about to be, or is in
the queue, in this order, and the last one passed may still be in the callback. -/
structure Delivered (s : State T) : Prop where
  passed : s.passed = s.finished ++ s.calling.toList
  written : s.written = s.passed ++ s.unpassed.toList ++ s.chan.queue

namespace Delivered

variable {s s' : State T}

/-- A message that is written goes to the end of both lists, or of none. -/
theorem write (h : Delivered s) (t : T) : Delivered (s.write t) := by
  cases hopen : s.chan.isOpen with
  | false =>
    have hwrite : s.write t = s := by simp [State.write, write_closed hopen]
    rw [hwrite]
    exact h
  | true =>
    have hwrite : s.write t =
        { s with
          chan := { s.chan with queue := s.chan.queue ++ [t] },
          written := s.written ++ [t] } := by
      simp [State.write, write_open hopen]
    rw [hwrite]
    refine ⟨h.passed, ?_⟩
    change s.written ++ [t] = s.passed ++ s.unpassed.toList ++ (s.chan.queue ++ [t])
    rw [h.written, List.append_assoc _ s.chan.queue [t]]

/-- A step of the handler passes on what it has in hand. -/
theorem handle (h : Delivered s) {throws : Bool} (hnext : s.handle throws = some s') :
    Delivered s' := by
  unfold State.handle at hnext
  split at hnext
  next => cases hnext
  next error hpc =>
    -- the fault is reported, by a handler with nothing in hand
    obtain rfl := Option.some.inj hnext
    have hpassed := h.passed
    have hwritten := h.written
    simp only [State.calling, State.unpassed, hpc] at hpassed hwritten
    exact ⟨hpassed, hwritten⟩
  next pc _ hpc =>
    obtain ⟨hcalling, hqueue⟩ := handlerStep_spec s.chan throws pc
    obtain ⟨pc', chan, hstep⟩ : ∃ pc' chan, handlerStep s.chan throws pc = (pc', chan) :=
      ⟨_, _, rfl⟩
    rw [hstep] at hnext hcalling hqueue
    obtain rfl := Option.some.inj hnext
    have hpassed := h.passed
    have hwritten := h.written
    simp only [State.calling, State.unpassed, hpc, Option.bind_some] at hpassed hwritten
    constructor
    · change s.passed ++ pc.unpassed.toList = s.finished ++ pc.calling.toList ++ pc'.calling.toList
      rw [← hpassed, hcalling]
    · change s.written =
        s.passed ++ pc.unpassed.toList ++ pc'.unpassed.toList ++ chan.queue
      rw [hwritten, List.append_assoc (s.passed ++ _), hqueue]

/-- Every step keeps the account of the messages. -/
theorem step (h : Delivered s) {e : Event T} (hnext : s.next e = some s') : Delivered s' := by
  cases e with
  | add =>
    simp only [State.next] at hnext
    split at hnext
    next hpc =>
      obtain rfl := Option.some.inj hnext
      have hpassed := h.passed
      have hwritten := h.written
      simp only [State.calling, State.unpassed, hpc] at hpassed hwritten
      exact ⟨hpassed, hwritten⟩
    next => cases hnext
  | write t throws =>
    obtain rfl := Option.some.inj hnext
    cases throws with
    | true => exact h
    | false => exact h.write t
  | close =>
    obtain rfl := Option.some.inj hnext
    exact ⟨h.passed, h.written⟩
  | handler throws => exact h.handle hnext

/-- The account holds in every state reached. -/
theorem reachable (h : (delivery T).Reachable s) : Delivered s :=
  h.invariant ⟨rfl, rfl⟩ fun _ _ _ hI _ hnext => hI.step hnext

/-- What was passed is what was written first. -/
theorem passed_isPrefix (h : Delivered s) : s.passed <+: s.written := by
  rw [h.written, List.append_assoc]
  exact List.prefix_append _ _

/-- What was handled, is handled, and is in the queue, is what was written. -/
theorem finished_handled (h : Delivered s) :
    s.finished ++ s.handled.toList ++ s.chan.queue = s.written := by
  have hhandled : s.handled.toList = s.calling.toList ++ s.unpassed.toList := by
    cases hpc : s.handler with
    | none => simp [State.handled, State.calling, State.unpassed, hpc]
    | some pc => simpa [State.handled, State.calling, State.unpassed, hpc] using pc.handled_toList
  rw [h.written, h.passed, hhandled, ← List.append_assoc]

end Delivered

/-! ### After the close -/

/-- Once the channel is closed it stays closed, and no write returns true. -/
theorem closed_step {s s' : State T} {written : List T} {e : Event T}
    (h : s.chan.isOpen = false ∧ s.written = written) (hnext : s.next e = some s') :
    s'.chan.isOpen = false ∧ s'.written = written := by
  obtain ⟨hclosed, hwritten⟩ := h
  cases e with
  | add =>
    simp only [State.next] at hnext
    split at hnext
    next => exact Option.some.inj hnext ▸ ⟨hclosed, hwritten⟩
    next => cases hnext
  | write t throws =>
    have hwrite : s.write t = s := by simp [State.write, write_closed hclosed]
    simp only [State.next, hwrite, ite_self] at hnext
    exact Option.some.inj hnext ▸ ⟨hclosed, hwritten⟩
  | close => exact Option.some.inj hnext ▸ ⟨rfl, hwritten⟩
  | handler throws =>
    simp only [State.next, State.handle] at hnext
    split at hnext
    next => cases hnext
    next => exact Option.some.inj hnext ▸ ⟨rfl, hwritten⟩
    next pc _ _ =>
      have hopen := handlerStep_isOpen s.chan throws pc
      obtain rfl := Option.some.inj hnext
      exact ⟨hopen.trans hclosed, hwritten⟩

/-- The callback gets a beginning of the messages that were written, in order. That, with
the message in hand and the queue, is all of them. Once the channel is closed writes
return false, and nothing but what was written before is ever delivered. -/
theorem delivery_prefix {s : State T} (h : (delivery T).Reachable s) :
    s.passed <+: s.written ∧
      s.passed ++ s.unpassed.toList ++ s.chan.queue = s.written ∧
      s.finished ++ s.handled.toList ++ s.chan.queue = s.written ∧
      (s.chan.isOpen = false → ∀ s', (delivery T).Later s s' →
        s'.passed <+: s.written ∧ ∀ t, (s'.chan.write t).1 = false) := by
  have hs := Delivered.reachable h
  refine ⟨hs.passed_isPrefix, hs.written.symm, hs.finished_handled, fun hclosed s' hlater => ?_⟩
  have hs' := Delivered.reachable (h.later hlater)
  obtain ⟨hclosed', hwritten⟩ :=
    hlater.invariant (I := fun r => r.chan.isOpen = false ∧ r.written = s.written)
      (fun _ _ _ hr hnext => closed_step hr hnext) ⟨hclosed, rfl⟩
  refine ⟨hwritten ▸ hs'.passed_isPrefix, fun t => ?_⟩
  rw [write_closed hclosed']

/-- Three messages are written, and the channel is closed when the first of them was read
but not passed on. A fourth message is refused. -/
private def closeInTime : List (Event ℕ) :=
  [.write 1 false, .add, .write 2 false, .handler false, .handler false, .write 3 false,
    .handler false, .close, .write 4 false, .handler false]

/-- Two messages are in the queue when the channel is closed. -/
theorem delivery_prefix_closeInTime : ∃ s : State ℕ,
    s.chan.isOpen = false ∧ s.passed = [1] ∧ s.written = [1, 2, 3] ∧
      s.passed <+: s.written ∧
      ∀ s', (delivery ℕ).Later s s' → s'.passed <+: [1, 2, 3] := by
  have hrun : ((delivery ℕ).replay (fun _ _ => True) (delivery ℕ).start closeInTime).map
      (fun s => (s.chan.isOpen, s.passed, s.written)) = some (false, [1], [1, 2, 3]) := by
    decide
  obtain ⟨s, hs, hfacts⟩ := Option.map_eq_some_iff.mp hrun
  simp only [Prod.mk.injEq] at hfacts
  obtain ⟨hclosed, hpassed, hwritten⟩ := hfacts
  obtain ⟨hfront, -, -, hlater⟩ := delivery_prefix (Machine.Reach.of_replay closeInTime .start hs)
  refine ⟨s, hclosed, hpassed, hwritten, hfront, fun s' h => ?_⟩
  rw [← hwritten]
  exact (hlater hclosed s' h).1

end QueueChannel

end RsIo
