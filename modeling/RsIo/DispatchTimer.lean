import RsIo.Dispatch
import Mathlib.Order.Fin.Basic

/-!
# The Ticks of a Timer in the Dispatcher

A `TimerChannel` with a count closes itself with its last tick: `step()` takes the tick
and closes the channel at once. A handler asks whether the channel is closed before it
invokes the callback, so that the last tick is never delivered.

The other channels of the dispatcher are of any classes, and their threads, handlers and
callbacks do what they like.

## Main results

* `Counted.taskStep`: what one step of the handler does to the ticks and the callbacks.
* `timer_calls`: `run()` reports the timer as closed after one callback less than its
  count, which is the count only if that is zero.
* `timer_loses_tick`: a run in which the second of two ticks is lost.
-/

namespace RsIo

namespace Dispatch

variable {C ε : Type} [LinearOrder C] {cls : C → ChannelClass ε} {s s' : State cls}

/-- The class `k` is `TimerChannel` or derived from it, for handlers that are the callback
itself. `view` is the timer in the state of the channel. -/
structure IsTimer (clock : ε → ℤ) (k : ChannelClass ε) (view : k.State → TimerChannel) :
    Prop where
  ready : ∀ s t x, (k.doWaitFor s t x).1 = ((view s).doWaitFor t (clock x)).1
  waited : ∀ s t x, view (k.doWaitFor s t x).2 = ((view s).doWaitFor t (clock x)).2
  isClosed : ∀ s, k.isClosed s = (view s).isClosed
  close : ∀ s, view (k.close s) = (view s).close
  read : ∀ s x, k.read s x = (true, s)

theorem isTimer_timerClass (isSynchronous : Bool) (clock : ε → ℤ) :
    IsTimer clock (timerClass isSynchronous clock) id := by
  constructor <;> intros <;> rfl

/-- The ticks that were taken but have not reached the callback yet. -/
def pending : Option TaskPc → ℕ
  | some .check | some .read => 1
  | _ => 0

/-- How the ticks of a timer with the count `n` are accounted for, when the callback has
been invoked `calls` times. While it is open, every tick remains, was delivered, or is on
its way. Once it is closed, one is missing. -/
structure Counted (n : ℕ) (timer : TimerChannel) (calls : ℕ) (pc : Option TaskPc) : Prop where
  ticks : timer.isClosed = false → calls + timer.count + pending pc = n
  left : timer.isClosed = false → 1 ≤ timer.count ∨ n = 0
  live : timer.isClosed = false → ∀ error, pc ≠ some (.fault error)
  closed : timer.isClosed = true → calls = n - 1
  unread : timer.isClosed = true → pc ≠ some .read
  noError : pc ≠ some (.fault true)

namespace Counted

variable {n calls : ℕ} {timer : TimerChannel} {pc : Option TaskPc}

/-- A timer that was just constructed. -/
theorem new (n : ℕ) (d now : ℤ) : Counted n (TimerChannel.new d n now) 0 none := by
  constructor <;> simp [TimerChannel.new, TimerChannel.isClosed, pending]
  omega

/-- A handler with no tick on its way leaves, or starts another round. -/
theorem rest (h : Counted n timer calls pc) (hp : pending pc = 0) {pc' : Option TaskPc}
    (hpc : pc' = none ∨ pc' = some .wait) : Counted n timer calls pc' := by
  have hp' : pending pc' = 0 := by rcases hpc with rfl | rfl <;> rfl
  refine ⟨fun ho => ?_, h.left, fun _ => ?_, h.closed, fun _ => ?_, ?_⟩
  · rw [hp', ← hp]
    exact h.ticks ho
  all_goals rcases hpc with rfl | rfl <;> simp

/-- A tick is taken. If it was the last one, the timer is closed and one callback is
missing. -/
theorem tick (h : Counted n timer calls (some .wait)) (hopen : timer.isClosed = false) :
    Counted n (timer.step 1) calls (some .check) := by
  obtain ⟨hcount, hclosed⟩ := TimerChannel.step_one hopen
  have hticks : calls + timer.count + 0 = n := h.ticks hopen
  have hleft := h.left hopen
  have hmore : (timer.step 1).isClosed = false → 1 < timer.count := by
    intro ho
    by_contra hlast
    rw [hclosed.mpr (by omega)] at ho
    cases ho
  refine {
    ticks := fun ho => ?_
    left := fun ho => ?_
    live := fun _ => by simp
    closed := fun hc => ?_
    unread := fun _ => by simp
    noError := by simp }
  · have hone : pending (some .check) = 1 := rfl
    have := hmore ho
    omega
  · have := hmore ho
    omega
  · have := hclosed.mp hc
    omega

/-- One step of the handler, in which nothing throws. -/
theorem taskStep {clock : ε → ℤ} {k : ChannelClass ε} {view : k.State → TimerChannel}
    (hk : IsTimer clock k view) {c : k.State} {pc : TaskPc} (t : ℤ) (x : ε)
    (h : Counted n (view c) calls (some pc)) :
    Counted n (view (taskStep k c t x false pc).2)
      (calls + if (taskStep k c t x false pc).1 = .call then 1 else 0)
      (some (taskStep k c t x false pc).1) := by
  cases pc with
  | wait =>
      have hready := hk.ready c t x
      have hwaited := hk.waited c t x
      have hagain : Counted n (view c) calls (some (.again false)) :=
        { h with live := by simp, unread := by simp, noError := by simp }
      have hcheck : (view c).isClosed = true → Counted n (view c) calls (some .check) := by
        intro hclosed
        exact {
          h with
          ticks := fun ho => by rw [hclosed] at ho; cases ho
          live := by simp
          unread := by simp
          noError := by simp }
      simp only [Dispatch.taskStep, Bool.false_eq_true, if_false]
      cases hc : (view c).isClosed with
      | true =>
          rw [TimerChannel.doWaitFor_closed hc] at hready hwaited
          rw [hready, hwaited]
          exact hcheck hc
      | false =>
          rcases TimerChannel.doWaitFor_open hc t (clock x) with hw | hw
          · rw [hw] at hready hwaited
            rw [hready, hwaited]
            exact hagain
          · rw [hw] at hready hwaited
            rw [hready, hwaited]
            exact h.tick hc
  | check =>
      simp only [Dispatch.taskStep, hk.isClosed]
      cases hc : (view c).isClosed with
      | true =>
          exact {
            h with
            ticks := fun ho => by rw [hc] at ho; cases ho
            live := fun ho => by rw [hc] at ho; cases ho
            unread := by simp
            noError := by simp }
      | false =>
          exact {
            h with
            live := by simp
            unread := fun ho => by rw [hc] at ho; cases ho
            noError := by simp }
  | read =>
      have hopen : (view c).isClosed = false := by
        by_contra hc
        exact h.unread (by simpa using hc) rfl
      have hticks : calls + (view c).count + 1 = n := h.ticks hopen
      simp only [Dispatch.taskStep, Bool.false_eq_true, if_false, hk.read, if_true]
      exact {
        ticks := fun _ => by simp only [pending]; omega
        left := h.left
        live := by simp
        closed := fun hc => by rw [hopen] at hc; cases hc
        unread := by simp
        noError := by simp }
  | call =>
      simp only [Dispatch.taskStep, Bool.false_eq_true, if_false]
      exact { h with live := by simp, unread := by simp, noError := by simp }
  | again handled => exact h
  | fault error => exact h

/-- The fault of a timer says that it was closed. -/
theorem fault {error : Bool} (h : Counted n timer calls (some (.fault error))) :
    error = false ∧ timer.isClosed = true := by
  constructor
  · cases error with
    | false => rfl
    | true => exact absurd rfl h.noError
  · by_contra hopen
    exact h.live (by simpa using hopen) error rfl

/-- The fault of a timer is queued. -/
theorem afterFault {error : Bool} (h : Counted n timer calls (some (.fault error))) :
    Counted n timer.close calls none := by
  constructor <;> simp [h.closed h.fault.2]

end Counted

/-- Where the handler of `c` is, in its thread or in `run()`. -/
def State.handler (s : State cls) (c : C) : Option TaskPc :=
  match s.thread c with
  | some pc => some pc
  | none =>
      match s.main with
      | .task d pc _ => if d = c then some pc else none
      | _ => none

/-- The channel that `run()` handles. -/
def State.handled (s : State cls) : Option C :=
  match s.main with
  | .task d _ _ => some d
  | _ => none

/-- Nobody else does anything to the channel `c`, and nothing that its handler calls
throws. -/
def LeavesAlone (c : C) (s : State cls) : Event C ε → Prop
  | .outside d _ => d ≠ c
  | .thread d _ _ throws => d = c → throws = false
  | .main _ throws => s.handled = some c → throws = false
  | _ => True

/-- Whether a step leaves a channel alone can be computed. -/
instance (c : C) (s : State cls) : DecidablePred (LeavesAlone c s)
  | .outside d _ => inferInstanceAs (Decidable (d ≠ c))
  | .thread d _ _ throws => inferInstanceAs (Decidable (d = c → throws = false))
  | .main _ throws => inferInstanceAs (Decidable (s.handled = some c → throws = false))
  | .add _ | .run | .destroy _ => isTrue trivial

/-! ### The handler of one channel -/

variable {c d : C}

/-- A handler that is in its thread. -/
theorem handler_thread {pc : TaskPc} (h : s.thread c = some pc) : s.handler c = some pc := by
  simp [State.handler, h]

/-- A handler that is in `run()`. -/
theorem handler_main {pc : TaskPc} {l : Locals} (h : s.thread c = none)
    (hm : s.main = .task c pc l) : s.handler c = some pc := by
  simp [State.handler, h, hm]

/-- No handler in a thread, and none in `run()`. -/
theorem handler_none (h : s.thread c = none) (hm : ∀ {pc l}, s.main ≠ .task c pc l) :
    s.handler c = none := by
  simp only [State.handler, h]
  split
  next d pc l hd =>
    refine if_neg ?_
    rintro rfl
    exact hm hd
  next => rfl

omit [LinearOrder C] in
theorem task_ne {d : C} (hne : d ≠ c) {pc pc' : TaskPc} {l l' : Locals} :
    MainPc.task d pc l ≠ .task c pc' l' := by
  rintro ⟨⟩
  exact hne rfl

/-- The handler of `c` does not depend on the main thread when it is in a thread, or when
the main thread is at no handler of `c` before and after. -/
theorem handler_congr (hthread : s'.thread c = s.thread c)
    (hmain : s.thread c = none → (∀ {pc l}, s.main ≠ .task c pc l) ∧
      ∀ {pc l}, s'.main ≠ .task c pc l) : s'.handler c = s.handler c := by
  cases ht : s.thread c with
  | some pc => rw [handler_thread ht, handler_thread (hthread.trans ht)]
  | none =>
      obtain ⟨hold, hnew⟩ := hmain ht
      rw [handler_none ht hold, handler_none (hthread.trans ht) hnew]

/-- The handler of a synchronous channel is not in a thread. -/
theorem Sound.thread_none (h : Sound s) {pc : TaskPc} {l : Locals}
    (hm : s.main = .task c pc l) : s.thread c = none := by
  cases ht : s.thread c with
  | none => rfl
  | some pc' =>
      have hsync := h.main_sync hm
      rw [h.thread_async ht] at hsync
      cases hsync

/-- The handler of an asynchronous channel is not in `run()`. -/
theorem Sound.main_ne (h : Sound s) {pc : TaskPc} (ht : s.thread c = some pc)
    {pc' : TaskPc} {l : Locals} : s.main ≠ .task c pc' l := by
  intro hm
  rw [h.thread_none hm] at ht
  cases ht

/-! ### The ticks of one timer -/

/-- The ticks of the timer `c` are accounted for, and its faults in the queue, and in the
result of `run()`, are those of a closed timer. -/
structure Ticking (c : C) (view : (cls c).State → TimerChannel) (n : ℕ) (s : State cls) :
    Prop where
  counted : Counted n (view (s.chan c)) (s.calls c) (s.handler c)
  queued : ∀ {f}, f ∈ s.faults → f.channel = c → (view (s.chan c)).isClosed = true
  result : ∀ {f}, s.main = .returned (some f) → f.channel = c →
    (view (s.chan c)).isClosed = true

namespace Ticking

variable {view : (cls c).State → TimerChannel} {clock : ε → ℤ} {n : ℕ}

/-- A step that leaves the timer alone, and whose handler stays where it is, or rests. -/
theorem keep (h : Ticking c view n s) (hchan : s'.chan c = s.chan c)
    (hcalls : s'.calls c = s.calls c)
    (hhandler : s'.handler c = s.handler c ∨ pending (s.handler c) = 0 ∧
      (s'.handler c = none ∨ s'.handler c = some .wait))
    (hqueue : ∀ {f}, f ∈ s'.faults → f.channel = c → f ∈ s.faults)
    (hmain : ∀ {f}, s'.main = .returned (some f) → f.channel = c →
      f ∈ s.faults ∨ s.main = .returned (some f)) : Ticking c view n s' := by
  refine ⟨?_, ?_, ?_⟩
  · rw [hchan, hcalls]
    rcases hhandler with hsame | ⟨hp, hrest⟩
    · rw [hsame]
      exact h.counted
    · exact h.counted.rest hp hrest
  · intro f hf hc
    rw [hchan]
    exact h.queued (hqueue hf hc) hc
  · intro f hf hc
    rw [hchan]
    rcases hmain hf hc with hf | hf
    · exact h.queued hf hc
    · exact h.result hf hc

omit [LinearOrder C] in
/-- A closed timer stays closed in its handler. -/
theorem taskStep_closed (hk : IsTimer clock (cls c) view) {k : (cls c).State}
    (hc : (view k).isClosed = true) (t : ℤ) (x : ε) (throws : Bool) (pc : TaskPc) :
    (view (taskStep (cls c) k t x throws pc).2).isClosed = true := by
  cases pc with
  | wait =>
      have hwaited := hk.waited k t x
      rw [TimerChannel.doWaitFor_closed hc] at hwaited
      cases throws with
      | true => exact hc
      | false => exact (congrArg TimerChannel.isClosed hwaited).trans hc
  | read =>
      cases throws with
      | true => exact hc
      | false => simpa [taskStep, hk.read] using hc
  | check | call | again | fault => exact hc

/-- The timer's own handler takes a step. -/
theorem own (hk : IsTimer clock (cls c) view) (h : Ticking c view n s) {pc : TaskPc} {t : ℤ}
    {x : ε} (hpc : s.handler c = some pc)
    (hchan : s'.chan c = (taskStep (cls c) (s.chan c) t x false pc).2)
    (hcalls : s'.calls c = s.calls c +
      if (taskStep (cls c) (s.chan c) t x false pc).1 = .call then 1 else 0)
    (hhandler : s'.handler c = some (taskStep (cls c) (s.chan c) t x false pc).1)
    (hqueue : s'.faults = s.faults) (hmain : ∀ {f}, s'.main = .returned (some f) →
      s.main = .returned (some f)) : Ticking c view n s' := by
  have hcounted := h.counted
  rw [hpc] at hcounted
  refine ⟨?_, ?_, ?_⟩
  · rw [hchan, hcalls, hhandler]
    exact hcounted.taskStep hk t x
  · intro f hf hc
    rw [hchan]
    exact taskStep_closed hk (h.queued (hqueue ▸ hf) hc) t x false pc
  · intro f hf hc
    rw [hchan]
    exact taskStep_closed hk (h.result (hmain hf) hc) t x false pc

/-- The timer's own handler reports that it was closed. -/
theorem ownFault (hk : IsTimer clock (cls c) view) (h : Ticking c view n s) {error : Bool}
    (hpc : s.handler c = some (.fault error))
    (hchan : s'.chan c = (cls c).close (s.chan c)) (hcalls : s'.calls c = s.calls c)
    (hhandler : s'.handler c = none) : Ticking c view n s' := by
  have hcounted := h.counted
  rw [hpc] at hcounted
  have hclosed : (view (s'.chan c)).isClosed = true := by
    rw [hchan, hk.close, TimerChannel.isClosed_close]
  refine ⟨?_, fun _ _ => hclosed, fun _ _ => hclosed⟩
  rw [hchan, hk.close, hcalls, hhandler]
  exact hcounted.afterFault

/-- The fault of another channel is not the one just queued. -/
theorem mem_faults_of_ne {error : Bool} {f : Fault C} (hf : f ∈ (s.setFault d error).faults)
    (hne : f.channel ≠ d) : f ∈ s.faults := by
  rcases List.mem_append.mp hf with hf | hf
  · exact hf
  · rw [List.mem_singleton.mp hf] at hne
    exact absurd rfl hne

/-- An added channel starts to wait in its thread, if it has one. -/
theorem handler_addChannel (hsound : Sound s) {d : C} (halive : s.alive d = true)
    (hd : d ∉ s.tasks) : (s.addChannel d).handler c = s.handler c ∨
      pending (s.handler c) = 0 ∧
        ((s.addChannel d).handler c = none ∨ (s.addChannel d).handler c = some .wait) := by
  rcases eq_or_ne d c with rfl | hne
  · -- the channel was not in the set, so it had no handler thread
    have hnone : s.thread d = none := by
      cases ht : s.thread d with
      | none => rfl
      | some pc =>
          rcases hsound.thread_placed ht with htask | hdead
          · exact absurd htask hd
          · rw [halive] at hdead
            cases hdead
    cases hsync : (cls d).isSynchronous with
    | true =>
        left
        simp [State.handler, State.addChannel, hsync, hnone]
    | false =>
        have hmain : ∀ {pc l}, s.main ≠ .task d pc l := by
          intro pc l hm
          rw [hsound.main_sync hm] at hsync
          cases hsync
        right
        rw [handler_none hnone hmain]
        exact ⟨rfl, Or.inr (handler_thread (by simp [State.addChannel, hsync]))⟩
  · left
    have hthread : (s.addChannel d).thread c = s.thread c :=
      Function.update_of_ne hne.symm ..
    simp only [State.handler, hthread]
    rfl

/-- A handler in `run()` is left when the main thread goes on to something else. -/
theorem handler_setMain {pc : MainPc C}
    (hleft : ∀ {pc' l}, s.main = .task c pc' l → pending (some pc') = 0)
    (hnew : ∀ {pc' l}, pc ≠ .task c pc' l) : (s.setMain pc).handler c = s.handler c ∨
      pending (s.handler c) = 0 ∧
        ((s.setMain pc).handler c = none ∨ (s.setMain pc).handler c = some .wait) := by
  cases ht : s.thread c with
  | some pc' => exact Or.inl ((handler_thread ht).symm ▸ handler_thread ht)
  | none =>
      have hrest : (s.setMain pc).handler c = none := handler_none ht hnew
      refine Or.inr ⟨?_, Or.inl hrest⟩
      by_cases hmain : ∃ pc' l, s.main = .task c pc' l
      · obtain ⟨pc', l, hmain⟩ := hmain
        rw [handler_main ht hmain]
        exact hleft hmain
      · rw [handler_none ht fun hd => hmain ⟨_, _, hd⟩]
        rfl

/-- Every step that leaves the timer alone keeps its ticks accounted for. -/
theorem step {e : Event C ε} (hk : IsTimer clock (cls c) view) (hsound : Sound s)
    (h : Ticking c view n s) (hok : LeavesAlone c s e) (hs : Step s e s') :
    Ticking c view n s' := by
  cases hs with
  | addAgain d hd => exact h
  | add d halive hd =>
      exact h.keep rfl rfl (handler_addChannel hsound halive hd) (fun hf _ => hf)
        fun hm _ => Or.inr hm
  | run hm =>
      refine h.keep rfl rfl (Or.inl ?_) (fun hf _ => hf) fun hm => by cases hm
      exact handler_congr rfl fun _ => ⟨hm, fun hm => by cases hm⟩
  | destroy d =>
      have hsame : (s.destroyChannel d).chan = s.chan ∧ (s.destroyChannel d).calls = s.calls ∧
          (s.destroyChannel d).thread = s.thread ∧ (s.destroyChannel d).main = s.main ∧
          (s.destroyChannel d).faults = s.faults := by
        simp only [State.destroyChannel]
        split <;> exact ⟨rfl, rfl, rfl, rfl, rfl⟩
      obtain ⟨hchan, hcalls, hthread, hmain, hfaults⟩ := hsame
      have hhandler : (s.destroyChannel d).handler c = s.handler c := by
        unfold State.handler
        rw [hthread, hmain]
      exact h.keep (congrFun hchan c) (congrFun hcalls c) (Or.inl hhandler)
        (fun hf _ => hfaults ▸ hf) fun hm _ => Or.inr (hmain ▸ hm)
  | outside d x =>
      exact h.keep (Function.update_of_ne (Ne.symm hok) ..) rfl (Or.inl rfl) (fun hf _ => hf)
        fun hm _ => Or.inr hm
  | move x throws pc hm hpc =>
      refine h.keep rfl rfl (handler_setMain (fun hmain => ?_) ?_) (fun hf _ => hf) fun hf => ?_
      · obtain ⟨handled, rfl⟩ := hm hmain
        rfl
      · rintro pc' l rfl
        rcases hpc with hpc | ⟨visited, l', hpc⟩ | ⟨l', hpc⟩ <;> cases hpc
      · rcases hpc with rfl | ⟨visited, l', rfl⟩ | ⟨l', rfl⟩ <;> cases hf
  | enter x throws d l hm hd hsync =>
      refine h.keep rfl rfl ?_ (fun hf _ => hf) fun hm => by cases hm
      cases ht : s.thread c with
      | some pc => exact Or.inl ((handler_thread ht).symm ▸ handler_thread ht)
      | none =>
          right
          rw [handler_none ht hm]
          refine ⟨rfl, ?_⟩
          rcases eq_or_ne d c with rfl | hne
          · exact Or.inr (handler_main ht rfl)
          · exact Or.inl (handler_none ht (task_ne hne))
  | mainTask x throws d pc l hm =>
      rw [State.advance_eq]
      rcases eq_or_ne d c with rfl | hne
      · obtain rfl : throws = false := hok (by simp [State.handled, hm])
        have hnone := hsound.thread_none hm
        refine h.own hk (handler_main hnone hm) (Function.update_self ..) ?_
          (handler_main hnone rfl) rfl fun hm => by cases hm
        simp only [State.setMain]
        split_ifs <;> simp
      · refine h.keep (Function.update_of_ne hne.symm ..) ?_ (Or.inl ?_) (fun hf _ => hf)
          fun hm => by cases hm
        · simp only [State.setMain]
          split_ifs <;> simp [hne.symm]
        · refine handler_congr rfl fun _ => ⟨fun hm' => ?_, task_ne hne⟩
          exact task_ne hne (hm.symm.trans hm')
  | mainFault x throws d error l hm =>
      rcases eq_or_ne d c with rfl | hne
      · have hnone := hsound.thread_none hm
        exact h.ownFault hk (handler_main hnone hm) (Function.update_self ..) rfl
          (handler_none hnone fun hm => by cases hm)
      · refine h.keep (Function.update_of_ne hne.symm ..) rfl (Or.inl ?_) ?_
          fun hm => by cases hm
        · refine handler_congr rfl fun _ => ⟨fun hm' => ?_, fun hm => by cases hm⟩
          exact task_ne hne (hm.symm.trans hm')
        · intro f hf hc
          exact mem_faults_of_ne hf (hc ▸ hne.symm)
  | take x throws l f rest hm hf =>
      refine h.keep rfl rfl (Or.inl ?_) ?_ ?_
      · refine handler_congr rfl fun _ => ⟨fun hm' => ?_, fun hm => by cases hm⟩
        rw [hm] at hm'
        cases hm'
      · intro f' hf' _
        exact hf ▸ List.mem_cons_of_mem _ hf'
      · intro f' hf' _
        obtain rfl : f = f' := Option.some.inj (MainPc.returned.inj hf')
        exact Or.inl (hf ▸ List.mem_cons_self)
  | threadTask d t x throws pc ht =>
      rw [State.advance_eq]
      rcases eq_or_ne d c with rfl | hne
      · obtain rfl : throws = false := hok rfl
        refine h.own hk (handler_thread ht) (Function.update_self ..) ?_
          (handler_thread (Function.update_self ..)) rfl id
        simp only [State.setThread]
        split_ifs <;> simp
      · refine h.keep (Function.update_of_ne hne.symm ..) ?_ (Or.inl ?_) (fun hf _ => hf)
          fun hm _ => Or.inr hm
        · simp only [State.setThread]
          split_ifs <;> simp [hne.symm]
        · simp [State.handler, State.setThread, hne.symm]
  | threadAgain d t x throws handled ht =>
      refine h.keep rfl rfl ?_ (fun hf _ => hf) fun hm _ => Or.inr hm
      rcases eq_or_ne d c with rfl | hne
      · right
        rw [handler_thread ht]
        exact ⟨rfl, Or.inr (handler_thread (Function.update_self ..))⟩
      · left
        simp [State.handler, State.setThread, hne.symm]
  | threadFault d t x throws error ht =>
      rcases eq_or_ne d c with rfl | hne
      · exact h.ownFault hk (handler_thread ht) (Function.update_self ..) rfl
          (handler_none (Function.update_self ..) (hsound.main_ne ht))
      · refine h.keep (Function.update_of_ne hne.symm ..) rfl (Or.inl ?_) ?_
          fun hm _ => Or.inr hm
        · simp [State.handler, State.setThread, State.setFault, hne.symm]
        · intro f hf hc
          exact mem_faults_of_ne hf (hc ▸ hne.symm)

end Ticking

/-- A timer with the count `n` is in a dispatcher with any other channels, nobody else
closes or flushes it, and neither it nor its callback throws. When `run()` reports it as
closed, the callback was invoked `n` times if and only if `n` is zero. -/
theorem timer_calls {c : C} {view : (cls c).State → TimerChannel} {clock : ε → ℤ}
    (hk : IsTimer clock (cls c) view) {chan : (c : C) → (cls c).State} {n : ℕ} {d now : ℤ}
    (hnew : view (chan c) = TimerChannel.new d n now)
    (h : (dispatcher cls chan).Reach (LeavesAlone c) s)
    (hret : s.main = .returned (some ⟨c, false⟩)) : s.calls c = n ↔ n = 0 := by
  have hticking : Sound s ∧ Ticking c view n s := by
    have hstart : (dispatcher cls chan).Reach (LeavesAlone c) (dispatcher cls chan).start := .start
    refine h.invariant (I := fun s => Sound s ∧ Ticking c view n s)
      ⟨Sound.reachable hstart, ?_, (fun hm => by cases hm), (fun hm => by cases hm)⟩ ?_
    · have hstart := Counted.new n d now
      rw [← hnew] at hstart
      exact hstart
    · rintro s e s' ⟨hsound, hs⟩ hok hnext
      exact ⟨hsound.step (.of_next hnext), hs.step hk hsound hok (.of_next hnext)⟩
  obtain ⟨-, hcounted, -, hresult⟩ := hticking
  rw [hcounted.closed (hresult hret rfl)]
  omega

/-- An asynchronous timer with two ticks. -/
private def twoTicks (_ : Fin 1) : ChannelClass ℤ :=
  timerClass false id

/-- It is new. -/
private def twoTicksNew (c : Fin 1) : (twoTicks c).State :=
  TimerChannel.new 1 2 0

/-- The first tick is delivered, the second closes the timer, and `run()` reports that. -/
private def runTwoTicks : List (Event (Fin 1) ℤ) :=
  [.add 0] ++ List.replicate 8 (.thread 0 1000 5 false) ++ [.run] ++
    List.replicate 4 (.main 5 false)

/-- The run in which the last tick is lost. -/
private theorem replay_runTwoTicks : ∃ s : State twoTicks,
    (dispatcher twoTicks twoTicksNew).Reach (LeavesAlone 0) s ∧
      s.main = .returned (some ⟨0, false⟩) ∧ s.calls 0 = 1 := by
  have hrun : ((dispatcher twoTicks twoTicksNew).replay (LeavesAlone 0)
      (dispatcher twoTicks twoTicksNew).start runTwoTicks).map (fun s => (s.main, s.calls 0)) =
      some (.returned (some ⟨0, false⟩), 1) := by decide
  obtain ⟨s, hs, hfacts⟩ := Option.map_eq_some_iff.mp hrun
  simp only [Prod.mk.injEq] at hfacts
  exact ⟨s, Machine.Reach.of_replay runTwoTicks .start hs, hfacts.1, hfacts.2⟩

/-- The handler is called once. -/
theorem timer_calls_twoTicks : ∃ s : State twoTicks,
    s.main = .returned (some ⟨0, false⟩) ∧ (s.calls 0 = 2 ↔ 2 = 0) := by
  obtain ⟨s, hs, hmain, -⟩ := replay_runTwoTicks
  have hk : IsTimer id (twoTicks 0) id := isTimer_timerClass false id
  exact ⟨s, hmain, timer_calls (d := 1) (n := 2) hk rfl hs hmain⟩

/-- A timer with two ticks is reported as closed after one callback. -/
theorem timer_loses_tick : ∃ s : State twoTicks,
    (dispatcher twoTicks twoTicksNew).Reach (LeavesAlone 0) s ∧
      s.main = .returned (some ⟨0, false⟩) ∧ s.calls 0 ≠ 2 := by
  obtain ⟨s, hs, hmain, hcalls⟩ := replay_runTwoTicks
  exact ⟨s, hs, hmain, by rw [hcalls]; decide⟩

end Dispatch

end RsIo
