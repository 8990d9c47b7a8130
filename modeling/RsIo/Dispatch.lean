import RsIo.Channel
import RsIo.Transition
import Mathlib.Data.List.Sort

/-!
# The Dispatcher

The class `Dispatch` of `channel.cpp` as a machine, for channels of any classes: the main
thread, which adds and destroys channels and calls `run()`, the handler threads of the
asynchronous channels, and whatever other threads do to the channels, in any order.

A handler, in its own thread or in the loop of `run()`, goes through the same places of
the program, `TaskPc`: it waits for the channel (or polls it), checks whether the channel
is closed, reads from it, and invokes the callback. A section under `faults_mutex_` is one
step, in which `set_fault` also closes the channel.

The channels are ordered by their addresses. `stop()` is a sequence of calls of `close()`
and `run()`, which the program can make here as it likes. The destructor of the handler
thread of a destroyed channel is not modelled: the thread goes on by itself.

## Main results

* `Step.of_next`: what one step can do.
* `Sound.reachable`: where the handlers and the faults are, in every state reached.
-/

namespace RsIo

namespace Dispatch

/-- Where a handler is. It is waiting for its channel, about to ask whether it is closed,
about to read from it, in the callback, at the end of one round (`handled` if the handler
was called), or about to report a fault. -/
inductive TaskPc
  | wait
  | check
  | read
  | call
  | again (handled : Bool)
  | fault (error : Bool)
  deriving DecidableEq, Repr

/-- A non-empty `result`: the channel, and whether there is an exception. -/
structure Fault (C : Type) where
  channel : C
  error : Bool
  deriving DecidableEq, Repr

/-- The local variables of `run()`. The interval is in microseconds. -/
structure Locals where
  calls : ℕ
  waits : ℕ
  interval : ℕ
  deriving DecidableEq, Repr

/-- Where the main thread is: in the program, or somewhere in `run()`. -/
inductive MainPc (C : Type)
  | idle
  | returned (result : Option (Fault C))
  | start
  | loop (visited : Option C) (l : Locals)
  | task (c : C) (pc : TaskPc) (l : Locals)
  | take (l : Locals)
  deriving DecidableEq, Repr

/-- `min_interval`, in microseconds. -/
def minInterval : ℕ := 1

/-- `max_interval`, in microseconds. -/
def maxInterval : ℕ := 1000

/-- The locals after a round of polling: `run()` sleeps longer and longer if it called no
handler, and yields otherwise. -/
def Locals.next (l : Locals) : Locals :=
  if l.calls = 0 then
    { calls := 0,
      waits := l.waits + 1,
      interval := if l.waits + 1 = 1 then minInterval else min (2 * l.interval) maxInterval }
  else
    { calls := 0, waits := 0, interval := l.interval }

/-- A dispatcher and its channels. `dispatch c` says that the pointer `dispatch_` of the
channel is set, and `thread c` where its handler thread is, if there is one. The numbers of
the successful `add()`s, of the results and of the callbacks are not in the source. -/
structure State {C ε : Type} (cls : C → ChannelClass ε) where
  chan : (c : C) → (cls c).State
  alive : C → Bool
  dispatch : C → Bool
  tasks : List C
  thread : C → Option TaskPc
  faults : List (Fault C)
  main : MainPc C
  adds : C → ℕ
  reports : C → ℕ
  calls : C → ℕ

/-- What happens next: the program calls `add()` or `run()` or destroys a channel, the main
thread takes a step inside `run()`, a handler thread takes one, or other threads do
something to a channel. A step may wait for `t`, sees the environment `x`, and what it
calls may throw. -/
inductive Event (C ε : Type)
  | add (c : C)
  | run
  | destroy (c : C)
  | main (x : ε) (throws : Bool)
  | thread (c : C) (t : ℤ) (x : ε) (throws : Bool)
  | outside (c : C) (x : ε)

/-- One step of a handler. The calls that may throw are in the `try` block. -/
def taskStep {ε : Type} (k : ChannelClass ε) (s : k.State) (t : ℤ) (x : ε) (throws : Bool) :
    TaskPc → TaskPc × k.State
  | .wait =>
      if throws then
        (.fault true, s)
      else
        let (ready, s') := k.doWaitFor s t x
        (if ready then .check else .again false, s')
  | .check => (if k.isClosed s then .fault false else .read, s)
  | .read =>
      if throws then
        (.fault true, s)
      else
        let (got, s') := k.read s x
        (if got then .call else .again true, s')
  | .call => (if throws then .fault true else .again true, s)
  | .again handled => (.again handled, s)
  | .fault error => (.fault error, s)

namespace State

variable {C ε : Type} [LinearOrder C] {cls : C → ChannelClass ε}

/-- The channels with a fault in the queue. -/
def faulty (s : State cls) : List C :=
  s.faults.map Fault.channel

/-- A channel changes. -/
def setChan (s : State cls) (c : C) (k : (cls c).State) : State cls :=
  { s with chan := Function.update s.chan c k }

/-- The main thread moves on. -/
def setMain (s : State cls) (pc : MainPc C) : State cls :=
  { s with main := pc }

/-- A handler thread moves on. -/
def setThread (s : State cls) (c : C) (pc : Option TaskPc) : State cls :=
  { s with thread := Function.update s.thread c pc }

/-- Counts a callback, if one was invoked. -/
def countCall (s : State cls) (c : C) (pc : TaskPc) : State cls :=
  if pc = .call then { s with calls := Function.update s.calls c (s.calls c + 1) } else s

/-- The handler of `c` takes a step. -/
def advance (s : State cls) (c : C) (pc : TaskPc) (t : ℤ) (x : ε) (throws : Bool) :
    TaskPc × State cls :=
  let (pc', k) := taskStep (cls c) (s.chan c) t x throws pc
  (pc', (s.setChan c k).countCall c pc')

/-- `Dispatch::add_channel`, for a channel that is not in the set. -/
def addChannel (s : State cls) (c : C) : State cls :=
  { s with
    tasks := s.tasks.orderedInsert (· ≤ ·) c,
    thread := Function.update s.thread c
      (if (cls c).isSynchronous then none else some .wait),
    dispatch := Function.update s.dispatch c true,
    adds := Function.update s.adds c (s.adds c + 1) }

/-- `Dispatch::drop_channel`. -/
def dropChannel (s : State cls) (c : C) : State cls :=
  { s with
    tasks := s.tasks.filter (· ≠ c),
    dispatch := Function.update s.dispatch c false }

/-- `Dispatch::set_fault`. -/
def setFault (s : State cls) (c : C) (error : Bool) : State cls :=
  { s with
    faults := s.faults ++ [⟨c, error⟩],
    chan := Function.update s.chan c ((cls c).close (s.chan c)) }

/-- The destructor of a channel, after which the channel is not alive. -/
def destroyChannel (s : State cls) (c : C) : State cls :=
  let s := if s.dispatch c then s.dropChannel c else s
  { s with alive := Function.update s.alive c false }

/-- The main thread is in the program, or in a callback that `run()` has invoked. -/
def inProgram (s : State cls) : Bool :=
  match s.main with
  | .idle | .returned _ | .task _ .call _ => true
  | _ => false

/-- The task that `run()` comes to after those it has visited. -/
def nextTask (s : State cls) : Option C → Option C
  | none => s.tasks.head?
  | some c => s.tasks.find? (c < ·)

/-- `run()` takes the first fault out of the queue, drops its channel and returns it. -/
def takeFault (s : State cls) (f : Fault C) (rest : List (Fault C)) : State cls :=
  let s := { s with
    faults := rest,
    reports := Function.update s.reports f.channel (s.reports f.channel + 1) }
  (s.dropChannel f.channel).setMain (.returned (some f))

/-- One step of `run()`. -/
def mainStep (s : State cls) (x : ε) (throws : Bool) : Option (State cls) :=
  match s.main with
  | .idle => none
  | .returned _ => none
  | .start =>
      if s.tasks = [] then
        some (s.setMain (.returned none))
      else
        some (s.setMain (.loop none ⟨0, 0, minInterval⟩))
  | .loop visited l =>
      match s.nextTask visited with
      | none => some (s.setMain (.take l))
      | some c =>
          if (cls c).isSynchronous then
            some (s.setMain (.task c .wait l))
          else
            some (s.setMain (.loop (some c) l))
  | .task c (.again handled) l =>
      some (s.setMain (.loop (some c) { l with calls := l.calls + handled.toNat }))
  | .task c (.fault error) l => some ((s.setFault c error).setMain (.take l))
  | .task c pc l =>
      -- poll() is a wait for no time
      let (pc', s) := s.advance c pc 0 x throws
      some (s.setMain (.task c pc' l))
  | .take l =>
      match s.faults with
      | f :: rest => some (s.takeFault f rest)
      | [] => some (s.setMain (.loop none l.next))

/-- One step of the handler thread of `c`. -/
def threadStep (s : State cls) (c : C) (t : ℤ) (x : ε) (throws : Bool) : Option (State cls) :=
  match s.thread c with
  | none => none
  | some (.again _) => some (s.setThread c (some .wait))
  | some (.fault error) => some ((s.setFault c error).setThread c none)
  | some pc =>
      let (pc', s) := s.advance c pc t x throws
      some (s.setThread c (some pc'))

/-- One step of the dispatcher. An `add()` of a channel that is in the set throws and
changes nothing. -/
def next (s : State cls) : Event C ε → Option (State cls)
  | .add c =>
      if s.inProgram && s.alive c then
        some (if c ∈ s.tasks then s else s.addChannel c)
      else
        none
  | .run =>
      match s.main with
      | .idle | .returned _ => some (s.setMain .start)
      | _ => none
  | .destroy c => if s.inProgram && s.alive c then some (s.destroyChannel c) else none
  | .main x throws => s.mainStep x throws
  | .thread c t x throws => s.threadStep c t x throws
  | .outside c x =>
      if s.alive c then some (s.setChan c ((cls c).outside (s.chan c) x)) else none

end State

/-- A dispatcher with nothing in it, and channels that have been constructed. -/
def dispatcher {C ε : Type} [LinearOrder C] (cls : C → ChannelClass ε)
    (chan : (c : C) → (cls c).State) : Machine (State cls) (Event C ε) where
  start :=
    { chan := chan, alive := fun _ => true, dispatch := fun _ => false, tasks := [],
      thread := fun _ => none, faults := [], main := .idle, adds := fun _ => 0,
      reports := fun _ => 0, calls := fun _ => 0 }
  next := State.next

/-! ### What one step can do -/

namespace State

variable {C ε : Type} [LinearOrder C] {cls : C → ChannelClass ε}

/-- A handler changes its channel, and counts its callback. -/
theorem advance_eq (s : State cls) (c : C) (pc : TaskPc) (t : ℤ) (x : ε) (throws : Bool) :
    s.advance c pc t x throws =
      ((taskStep (cls c) (s.chan c) t x throws pc).1,
        { s with
          chan := Function.update s.chan c (taskStep (cls c) (s.chan c) t x throws pc).2,
          calls :=
            if (taskStep (cls c) (s.chan c) t x throws pc).1 = .call then
              Function.update s.calls c (s.calls c + 1)
            else
              s.calls }) := by
  simp only [advance, countCall, setChan]
  split_ifs <;> rfl

/-- The next task is in the set. -/
theorem nextTask_mem {s : State cls} {visited : Option C} {c : C}
    (h : s.nextTask visited = some c) : c ∈ s.tasks := by
  cases visited with
  | none => exact List.mem_of_mem_head? h
  | some d => exact List.mem_of_find?_eq_some h

end State

variable {C ε : Type} [LinearOrder C] {cls : C → ChannelClass ε} {s s' : State cls}

/-- What one step can do. -/
inductive Step (s : State cls) : Event C ε → State cls → Prop
  | addAgain (c : C) (hc : c ∈ s.tasks) : Step s (.add c) s
  | add (c : C) (halive : s.alive c = true) (hc : c ∉ s.tasks) : Step s (.add c) (s.addChannel c)
  | run (hm : ∀ {c pc l}, s.main ≠ .task c pc l) : Step s .run (s.setMain .start)
  | destroy (c : C) : Step s (.destroy c) (s.destroyChannel c)
  | outside (c : C) (x : ε) :
      Step s (.outside c x) (s.setChan c ((cls c).outside (s.chan c) x))
  /-- `run()` moves on without touching a channel. -/
  | move (x : ε) (throws : Bool) (pc : MainPc C)
      (hm : ∀ {c pc' l}, s.main = .task c pc' l → ∃ handled, pc' = .again handled)
      (hpc : pc = .returned none ∨ (∃ visited l, pc = .loop visited l) ∨ ∃ l, pc = .take l) :
      Step s (.main x throws) (s.setMain pc)
  /-- `run()` comes to a synchronous channel. -/
  | enter (x : ε) (throws : Bool) (c : C) (l : Locals)
      (hm : ∀ {c pc l}, s.main ≠ .task c pc l) (hc : c ∈ s.tasks)
      (hsync : (cls c).isSynchronous = true) :
      Step s (.main x throws) (s.setMain (.task c .wait l))
  /-- A handler takes a step in `run()`. -/
  | mainTask (x : ε) (throws : Bool) (c : C) (pc : TaskPc) (l : Locals)
      (hm : s.main = .task c pc l) :
      Step s (.main x throws) ((s.advance c pc 0 x throws).2.setMain
        (.task c (s.advance c pc 0 x throws).1 l))
  /-- A handler in `run()` reports a fault. -/
  | mainFault (x : ε) (throws : Bool) (c : C) (error : Bool) (l : Locals)
      (hm : s.main = .task c (.fault error) l) :
      Step s (.main x throws) ((s.setFault c error).setMain (.take l))
  /-- `run()` returns a fault. -/
  | take (x : ε) (throws : Bool) (l : Locals) (f : Fault C) (rest : List (Fault C))
      (hm : s.main = .take l) (hf : s.faults = f :: rest) :
      Step s (.main x throws) (s.takeFault f rest)
  /-- A handler takes a step in its thread. -/
  | threadTask (c : C) (t : ℤ) (x : ε) (throws : Bool) (pc : TaskPc)
      (ht : s.thread c = some pc) :
      Step s (.thread c t x throws) ((s.advance c pc t x throws).2.setThread c
        (some (s.advance c pc t x throws).1))
  /-- A handler thread starts another round. -/
  | threadAgain (c : C) (t : ℤ) (x : ε) (throws : Bool) (handled : Bool)
      (ht : s.thread c = some (.again handled)) :
      Step s (.thread c t x throws) (s.setThread c (some .wait))
  /-- A handler thread reports a fault and ends. -/
  | threadFault (c : C) (t : ℤ) (x : ε) (throws : Bool) (error : Bool)
      (ht : s.thread c = some (.fault error)) :
      Step s (.thread c t x throws) ((s.setFault c error).setThread c none)

/-- A step inside `run()` is one of those listed. -/
theorem Step.of_mainStep {x : ε} {throws : Bool} (h : s.mainStep x throws = some s') :
    Step s (.main x throws) s' := by
  unfold State.mainStep at h
  split at h
  case h_1 | h_2 => cases h
  case h_3 hm =>
      have hnot : ∀ {c pc l}, s.main = .task c pc l → ∃ handled, pc = .again handled := by
        rw [hm]
        nofun
      split at h <;> obtain rfl := Option.some.inj h
      · exact .move x throws _ hnot (Or.inl rfl)
      · exact .move x throws _ hnot (Or.inr (Or.inl ⟨_, _, rfl⟩))
  case h_4 visited l hm =>
      have hnot : ∀ {c pc l}, s.main = .task c pc l → ∃ handled, pc = .again handled := by
        rw [hm]
        nofun
      split at h
      next => exact Option.some.inj h ▸ .move x throws _ hnot (Or.inr (Or.inr ⟨_, rfl⟩))
      next c hnext =>
        split at h <;> obtain rfl := Option.some.inj h
        next hsync =>
          exact .enter x throws c l (by rw [hm]; nofun) (State.nextTask_mem hnext) hsync
        next => exact .move x throws _ hnot (Or.inr (Or.inl ⟨_, _, rfl⟩))
  case h_5 c handled l hm =>
      refine Option.some.inj h ▸ .move x throws _ ?_ (Or.inr (Or.inl ⟨_, _, rfl⟩))
      intro d pc l' hd
      rw [hm] at hd
      cases hd
      exact ⟨handled, rfl⟩
  case h_6 c error l hm => exact Option.some.inj h ▸ .mainFault x throws c error l hm
  case h_7 c pc l _ _ hm => exact Option.some.inj h ▸ .mainTask x throws c pc l hm
  case h_8 l hm =>
      split at h
      next f rest hf => exact Option.some.inj h ▸ .take x throws l f rest hm hf
      next =>
        refine Option.some.inj h ▸ .move x throws _ ?_ (Or.inr (Or.inl ⟨_, _, rfl⟩))
        rw [hm]
        nofun

/-- A step of a handler thread is one of those listed. -/
theorem Step.of_threadStep {c : C} {t : ℤ} {x : ε} {throws : Bool}
    (h : s.threadStep c t x throws = some s') : Step s (.thread c t x throws) s' := by
  unfold State.threadStep at h
  split at h
  case h_1 => cases h
  case h_2 handled ht => exact Option.some.inj h ▸ .threadAgain c t x throws handled ht
  case h_3 error ht => exact Option.some.inj h ▸ .threadFault c t x throws error ht
  case h_4 pc _ _ ht => exact Option.some.inj h ▸ .threadTask c t x throws pc ht

/-- A step is one of those listed. -/
theorem Step.of_next {e : Event C ε} (h : s.next e = some s') : Step s e s' := by
  cases e with
  | add c =>
      simp only [State.next] at h
      split at h
      next hprog =>
        obtain ⟨-, halive⟩ := (Bool.and_eq_true _ _).mp hprog
        obtain rfl := Option.some.inj h
        split
        next hc => exact .addAgain c hc
        next hc => exact .add c halive hc
      next => cases h
  | run =>
      simp only [State.next] at h
      split at h
      next hm => exact Option.some.inj h ▸ .run (by rw [hm]; nofun)
      next hm => exact Option.some.inj h ▸ .run (by rw [hm]; nofun)
      next => cases h
  | destroy c =>
      simp only [State.next] at h
      split at h
      next => exact Option.some.inj h ▸ .destroy c
      next => cases h
  | main x throws => exact .of_mainStep h
  | thread c t x throws => exact .of_threadStep h
  | outside c x =>
      simp only [State.next] at h
      split at h
      next => exact Option.some.inj h ▸ .outside c x
      next => cases h

/-! ### Where the handlers and the faults are -/

/-- What holds in every state of a dispatcher. The loop of `run()` handles synchronous
channels and the threads asynchronous ones, a handler thread ends with the one fault it
reports, and an asynchronous channel with a thread or a fault is in the set, unless it was
destroyed. -/
structure Sound (s : State cls) : Prop where
  main_sync : ∀ {c pc l}, s.main = .task c pc l → (cls c).isSynchronous = true
  thread_async : ∀ {c pc}, s.thread c = some pc → (cls c).isSynchronous = false
  thread_clear : ∀ {c pc}, s.thread c = some pc → c ∉ s.faulty
  thread_placed : ∀ {c pc}, s.thread c = some pc → c ∈ s.tasks ∨ s.alive c = false
  fault_placed : ∀ {c}, (cls c).isSynchronous = false → c ∈ s.faulty →
    c ∈ s.tasks ∨ s.alive c = false
  fault_once : ∀ {c}, (cls c).isSynchronous = false → s.faulty.count c ≤ 1
  dispatch_iff : ∀ {c}, s.dispatch c = true ↔ c ∈ s.tasks
  tasks_alive : ∀ {c}, c ∈ s.tasks → s.alive c = true

namespace Sound

variable {c : C}

/-- The main thread may move to another place. -/
theorem setMain (h : Sound s) {m : MainPc C}
    (hm : ∀ {c pc l}, m = .task c pc l → (cls c).isSynchronous = true) : Sound (s.setMain m) :=
  { h with main_sync := hm }

/-- A handler may move on. -/
theorem advance (h : Sound s) (pc : TaskPc) (t : ℤ) (x : ε) (throws : Bool) :
    Sound (s.advance c pc t x throws).2 := by
  rw [State.advance_eq]
  exact { h with }

/-- A handler thread that is there moves on. -/
theorem setThread (h : Sound s) {pc pc' : TaskPc} (hpc : s.thread c = some pc) :
    Sound (s.setThread c (some pc')) := by
  have hthere : ∀ {d q}, (s.setThread c (some pc')).thread d = some q →
      ∃ q', s.thread d = some q' := by
    intro d q hq
    rcases eq_or_ne d c with rfl | hd
    · exact ⟨pc, hpc⟩
    · exact ⟨q, by simpa [State.setThread, hd] using hq⟩
  exact {
    h with
    thread_async := fun hq => h.thread_async (hthere hq).choose_spec
    thread_clear := fun hq => h.thread_clear (hthere hq).choose_spec
    thread_placed := fun hq => h.thread_placed (hthere hq).choose_spec }

/-- `set_fault` by a handler in `run()`. -/
theorem setFault_sync (h : Sound s) (hc : (cls c).isSynchronous = true) (error : Bool) :
    Sound (s.setFault c error) := by
  have hfaulty : (s.setFault c error).faulty = s.faulty ++ [c] := by
    simp [State.faulty, State.setFault]
  have hne : ∀ {d}, (cls d).isSynchronous = false → d ≠ c := by
    rintro d hd rfl
    rw [hc] at hd
    cases hd
  have hold : ∀ {d}, (cls d).isSynchronous = false → d ∈ s.faulty ++ [c] → d ∈ s.faulty :=
    fun hd hmem => (List.mem_append.mp hmem).elim id fun hmem =>
      absurd (List.mem_singleton.mp hmem) (hne hd)
  refine { h with thread_clear := ?_, fault_placed := ?_, fault_once := ?_ }
  · intro d pc hd
    rw [hfaulty]
    exact fun hmem => h.thread_clear hd (hold (h.thread_async hd) hmem)
  · intro d hd hmem
    rw [hfaulty] at hmem
    exact h.fault_placed hd (hold hd hmem)
  · intro d hd
    rw [hfaulty, List.count_append, List.count_eq_zero_of_not_mem (l := [c])
      (by simpa using hne hd)]
    exact h.fault_once hd

/-- `set_fault` by a handler thread, which then ends. -/
theorem setFault_thread (h : Sound s) {pc : TaskPc} (hpc : s.thread c = some pc)
    (error : Bool) : Sound ((s.setFault c error).setThread c none) := by
  have hfaulty : ((s.setFault c error).setThread c none).faulty = s.faulty ++ [c] := by
    simp [State.faulty, State.setFault, State.setThread]
  have hthere : ∀ {d q}, ((s.setFault c error).setThread c none).thread d = some q →
      d ≠ c ∧ s.thread d = some q := by
    intro d q hq
    rcases eq_or_ne d c with rfl | hd
    · simp [State.setThread] at hq
    · exact ⟨hd, by simpa [State.setThread, State.setFault, hd] using hq⟩
  refine {
    h with
    thread_async := fun hq => h.thread_async (hthere hq).2
    thread_clear := ?_
    thread_placed := fun hq => h.thread_placed (hthere hq).2
    fault_placed := ?_
    fault_once := ?_ }
  · intro d q hq
    obtain ⟨hd, hq⟩ := hthere hq
    rw [hfaulty]
    simp [h.thread_clear hq, hd]
  · intro d hd hmem
    rw [hfaulty, List.mem_append, List.mem_singleton] at hmem
    rcases hmem with hmem | rfl
    · exact h.fault_placed hd hmem
    · exact h.thread_placed hpc
  · intro d hd
    rw [hfaulty, List.count_append]
    rcases eq_or_ne d c with rfl | hne
    · rw [List.count_eq_zero_of_not_mem (h.thread_clear hpc), List.count_singleton_self]
    · rw [List.count_eq_zero_of_not_mem (l := [c]) (by simpa using hne)]
      exact h.fault_once hd

/-- `run()` returns the first fault. -/
theorem takeFault (h : Sound s) {f : Fault C} {rest : List (Fault C)}
    (hf : s.faults = f :: rest) : Sound (s.takeFault f rest) := by
  have hfaulty : s.faulty = f.channel :: (s.takeFault f rest).faulty := by
    rw [State.faulty, hf]
    rfl
  have htasks : ∀ {d}, d ∈ (s.takeFault f rest).tasks ↔ d ∈ s.tasks ∧ d ≠ f.channel := by
    intro d
    simp [State.takeFault, State.setMain, State.dropChannel]
  have hkeep : ∀ {d}, d ≠ f.channel → d ∈ s.tasks ∨ s.alive d = false →
      d ∈ (s.takeFault f rest).tasks ∨ (s.takeFault f rest).alive d = false :=
    fun hne hd => hd.imp (fun hd => htasks.mpr ⟨hd, hne⟩) id
  refine {
    main_sync := fun hm => by cases hm
    thread_async := h.thread_async
    thread_clear := fun hd hmem => h.thread_clear hd (hfaulty ▸ List.mem_cons_of_mem _ hmem)
    thread_placed := ?_
    fault_placed := ?_
    fault_once := ?_
    dispatch_iff := ?_
    tasks_alive := fun hd => h.tasks_alive (htasks.mp hd).1 }
  · intro d pc hd
    refine hkeep ?_ (h.thread_placed hd)
    rintro rfl
    exact h.thread_clear hd (hfaulty ▸ List.mem_cons_self)
  · intro d hd hmem
    have hone := h.fault_once hd
    rw [hfaulty] at hone
    refine hkeep ?_ (h.fault_placed hd (hfaulty ▸ List.mem_cons_of_mem _ hmem))
    rintro rfl
    rw [List.count_cons_self] at hone
    have hpos := List.count_pos_iff.mpr hmem
    omega
  · intro d hd
    have hone := h.fault_once hd
    rw [hfaulty] at hone
    exact (List.count_le_count_cons ..).trans hone
  · intro d
    rw [htasks]
    rcases eq_or_ne d f.channel with rfl | hne
    · simp [State.takeFault, State.setMain, State.dropChannel]
    · simpa [State.takeFault, State.setMain, State.dropChannel, hne] using h.dispatch_iff

/-- A channel that is not in the set is added. -/
theorem addChannel (h : Sound s) (halive : s.alive c = true) (hc : c ∉ s.tasks) :
    Sound (s.addChannel c) := by
  have htasks : ∀ {d}, d ∈ (s.addChannel c).tasks ↔ d = c ∨ d ∈ s.tasks := by
    intro d
    simp [State.addChannel]
  have hthread : ∀ {d pc}, (s.addChannel c).thread d = some pc →
      (d = c ∧ (cls c).isSynchronous = false) ∨ s.thread d = some pc := by
    intro d pc hd
    rcases eq_or_ne d c with rfl | hne
    · simp only [State.addChannel, Function.update_self] at hd
      split at hd
      next => cases hd
      next hs => exact Or.inl ⟨rfl, by simpa using hs⟩
    · right
      simpa [State.addChannel, hne] using hd
  have hplaced : ∀ {d}, d ∈ s.tasks ∨ s.alive d = false →
      d ∈ (s.addChannel c).tasks ∨ (s.addChannel c).alive d = false :=
    fun hd => hd.imp (fun hd => htasks.mpr (Or.inr hd)) id
  refine {
    main_sync := h.main_sync
    thread_async := ?_
    thread_clear := ?_
    thread_placed := ?_
    fault_placed := fun hd hmem => hplaced (h.fault_placed hd hmem)
    fault_once := h.fault_once
    dispatch_iff := ?_
    tasks_alive := ?_ }
  · intro d pc hd
    rcases hthread hd with ⟨rfl, hs⟩ | hd
    · exact hs
    · exact h.thread_async hd
  · intro d pc hd
    rcases hthread hd with ⟨rfl, hs⟩ | hd
    · intro hmem
      rcases h.fault_placed hs hmem with htask | hdead
      · exact hc htask
      · rw [halive] at hdead
        cases hdead
    · exact h.thread_clear hd
  · intro d pc hd
    rcases hthread hd with ⟨rfl, -⟩ | hd
    · exact Or.inl (htasks.mpr (Or.inl rfl))
    · exact hplaced (h.thread_placed hd)
  · intro d
    rw [htasks]
    rcases eq_or_ne d c with rfl | hne
    · simp [State.addChannel]
    · simpa [State.addChannel, hne] using h.dispatch_iff
  · intro d hd
    rcases htasks.mp hd with rfl | hd
    · exact halive
    · exact h.tasks_alive hd

/-- A channel is destroyed. -/
theorem destroyChannel (h : Sound s) : Sound (s.destroyChannel c) := by
  have htasks : ∀ {d}, d ∈ (s.destroyChannel c).tasks ↔ d ∈ s.tasks ∧ d ≠ c := by
    intro d
    simp only [State.destroyChannel]
    split
    next => simp [State.dropChannel]
    next hdisp =>
      refine ⟨fun hd => ⟨hd, ?_⟩, And.left⟩
      rintro rfl
      exact hdisp (h.dispatch_iff.mpr hd)
  have halive : (s.destroyChannel c).alive = Function.update s.alive c false := by
    simp only [State.destroyChannel]
    split <;> rfl
  have hdispatch : ∀ {d}, d ≠ c → (s.destroyChannel c).dispatch d = s.dispatch d := by
    intro d hd
    simp only [State.destroyChannel]
    split <;> simp [State.dropChannel, hd]
  have hgone : (s.destroyChannel c).dispatch c = false := by
    simp only [State.destroyChannel]
    split
    next => simp [State.dropChannel]
    next hdisp => simpa using hdisp
  have hrest : (s.destroyChannel c).main = s.main ∧ (s.destroyChannel c).thread = s.thread ∧
      (s.destroyChannel c).faulty = s.faulty := by
    simp only [State.destroyChannel]
    split <;> exact ⟨rfl, rfl, rfl⟩
  obtain ⟨hmain, hthread, hfaulty⟩ := hrest
  have hplaced : ∀ {d}, d ∈ s.tasks ∨ s.alive d = false →
      d ∈ (s.destroyChannel c).tasks ∨ (s.destroyChannel c).alive d = false := by
    intro d hd
    rcases eq_or_ne d c with rfl | hne
    · exact Or.inr (by simp [halive])
    · refine hd.imp (fun hd => htasks.mpr ⟨hd, hne⟩) fun hd => ?_
      rw [halive, Function.update_of_ne hne]
      exact hd
  refine {
    main_sync := fun hm => h.main_sync (hmain ▸ hm)
    thread_async := fun hd => h.thread_async (hthread ▸ hd)
    thread_clear := fun hd => hfaulty ▸ h.thread_clear (hthread ▸ hd)
    thread_placed := fun hd => hplaced (h.thread_placed (hthread ▸ hd))
    fault_placed := fun hd hmem => hplaced (h.fault_placed hd (hfaulty ▸ hmem))
    fault_once := fun hd => hfaulty ▸ h.fault_once hd
    dispatch_iff := ?_
    tasks_alive := ?_ }
  · intro d
    rw [htasks]
    rcases eq_or_ne d c with rfl | hne
    · simp [hgone]
    · simpa [hdispatch hne, hne] using h.dispatch_iff
  · intro d hd
    obtain ⟨hd, hne⟩ := htasks.mp hd
    rw [halive, Function.update_of_ne hne]
    exact h.tasks_alive hd

/-- Every step keeps a state sound. -/
theorem step {e : Event C ε} (h : Sound s) (hs : Step s e s') : Sound s' := by
  cases hs with
  | addAgain c hc => exact h
  | add c halive hc => exact h.addChannel halive hc
  | run hm => exact h.setMain fun hm => by cases hm
  | destroy c => exact h.destroyChannel
  | outside c x => exact { h with }
  | move x throws pc hm hpc =>
      refine h.setMain fun hm => ?_
      rcases hpc with rfl | ⟨visited, l, rfl⟩ | ⟨l, rfl⟩ <;> cases hm
  | enter x throws c l hm hc hsync =>
      refine h.setMain fun hm => ?_
      cases hm
      exact hsync
  | mainTask x throws c pc l hm =>
      refine (h.advance pc 0 x throws).setMain fun hm' => ?_
      cases hm'
      exact h.main_sync hm
  | mainFault x throws c error l hm =>
      exact (h.setFault_sync (h.main_sync hm) error).setMain fun hm => by cases hm
  | take x throws l f rest hm hf => exact h.takeFault hf
  | threadTask c t x throws pc ht =>
      refine setThread (h.advance pc t x throws) (?_ : _ = some pc)
      rw [State.advance_eq]
      exact ht
  | threadAgain c t x throws handled ht => exact h.setThread ht
  | threadFault c t x throws error ht => exact h.setFault_thread ht error

/-- Every state reached is sound. -/
theorem reachable {chan : (c : C) → (cls c).State} {ok : State cls → Event C ε → Prop}
    (h : (dispatcher cls chan).Reach ok s) : Sound s := by
  refine h.invariant ?_ fun s e s' hs _ hnext => hs.step (.of_next hnext)
  constructor <;> simp [dispatcher, State.faulty]

end Sound

end Dispatch

end RsIo
