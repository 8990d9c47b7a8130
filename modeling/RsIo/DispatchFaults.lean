import RsIo.Dispatch

/-!
# Which Channels the Dispatcher Returns

`run()` is documented to return the channels that were closed or whose callback threw. The
polling loop sets a fault for every closed synchronous channel it comes to, whether or not
one is queued already: when the fault of another channel is first in the queue, the next
`run()` polls the channel again, and its second fault is returned after the channel has
left the set. The destructor of a channel takes it out of the set but leaves its fault in
the queue.

## Main results

* `run_once`: while no channel of the set is destroyed, and the loop polls none whose fault
  is queued, `run()` returns channels of the set, one result for each `add()`.
* `run_twice`: two channels that close are enough for a third result.
* `run_alive`: while no channel is destroyed that has a fault queued or a handler
  running, `run()` touches and returns no destroyed channel.
* `run_destroyed`: a channel destroyed with its fault in the queue is returned.
-/

namespace RsIo

namespace Dispatch

variable {C ε : Type} [LinearOrder C] {cls : C → ChannelClass ε} {s s' : State cls}

/-- In the step to `s'`, `run()` returns the fault `f`. -/
def Returns (s s' : State cls) (f : Fault C) : Prop :=
  s.main ≠ s'.main ∧ s'.main = .returned (some f)

/-- Only the first fault of the queue is returned. -/
theorem Returns.take {e : Event C ε} {f : Fault C} (hr : Returns s s' f)
    (hnext : s.next e = some s') :
    ∃ l rest, s.main = .take l ∧ s.faults = f :: rest ∧ s' = s.takeFault f rest := by
  obtain ⟨hne, hmain⟩ := hr
  cases Step.of_next hnext with
  | addAgain | add | outside => exact absurd rfl hne
  | run | enter | mainTask | mainFault => cases hmain
  | destroy c =>
      refine absurd ?_ hne
      simp only [State.destroyChannel]
      split <;> rfl
  | move x throws pc hold hpc =>
      rcases hpc with rfl | ⟨visited, l, rfl⟩ | ⟨l, rfl⟩ <;> cases hmain
  | take x throws l f' rest hm hf =>
      obtain rfl : f' = f := Option.some.inj (MainPc.returned.inj hmain)
      exact ⟨l, rest, hm, hf, rfl⟩
  | threadTask c t x throws pc ht =>
      rw [State.advance_eq] at hne
      exact absurd rfl hne
  | threadAgain | threadFault => exact absurd rfl hne

/-! ### One result for each channel added -/

/-- The step destroys no channel of the set. -/
def KeepsChannels (s : State cls) : Event C ε → Prop
  | .destroy c => c ∉ s.tasks
  | _ => True

/-- The channel that `run()` is about to poll. -/
def State.polled (s : State cls) : Option C :=
  match s.main with
  | .task c .wait _ => some c
  | _ => none

/-- The step does not poll a channel with a fault in the queue. -/
def PollsFresh (s : State cls) : Event C ε → Prop
  | .main _ _ => ∀ c ∈ s.polled, c ∉ s.faulty
  | _ => True

/-- The channels in the queue are in the set, each with one fault, and a channel has been
added once more than it was returned if it is in the set. -/
structure Tidy (s : State cls) : Prop where
  sound : Sound s
  thread_tasks : ∀ {c pc}, s.thread c = some pc → c ∈ s.tasks
  nodup : s.faulty.Nodup
  faults_tasks : ∀ {c}, c ∈ s.faulty → c ∈ s.tasks
  main_tasks : ∀ {c pc l}, s.main = .task c pc l → c ∈ s.tasks
  main_clear : ∀ {c pc l}, s.main = .task c pc l → pc ≠ .wait → c ∉ s.faulty
  counts : ∀ c, s.adds c = s.reports c + if c ∈ s.tasks then 1 else 0

namespace Tidy

/-- A fault is queued for a channel of the set that has none. -/
theorem setFault (h : Tidy s) {c : C} {m : MainPc C} {thread : C → Option TaskPc}
    {chan : (c : C) → (cls c).State} {error : Bool} (hclear : c ∉ s.faulty) (hc : c ∈ s.tasks)
    (hs' : s' = { s with
      faults := s.faults ++ [⟨c, error⟩], main := m, thread := thread, chan := chan })
    (hsound : Sound s')
    (ht : ∀ {d pc}, thread d = some pc → ∃ pc', s.thread d = some pc')
    (hm : ∀ {d pc l}, m = .task d pc l → s.main = .task d pc l ∧ d ≠ c) : Tidy s' := by
  have hfaulty : s'.faulty = s.faulty ++ [c] := by
    rw [hs']
    simp [State.faulty]
  refine {
    sound := hsound
    thread_tasks := ?_
    nodup := ?_
    faults_tasks := ?_
    main_tasks := ?_
    main_clear := ?_
    counts := fun d => by rw [hs']; exact h.counts d }
  · intro d pc hd
    rw [hs'] at hd ⊢
    obtain ⟨pc', hd'⟩ := ht hd
    exact h.thread_tasks hd'
  · rw [hfaulty]
    exact List.nodup_append.mpr ⟨h.nodup, List.nodup_singleton c,
      fun a ha b hb hab => hclear (List.mem_singleton.mp hb ▸ hab ▸ ha)⟩
  · intro d hd
    rw [hfaulty, List.mem_append, List.mem_singleton] at hd
    have htasks : s'.tasks = s.tasks := by rw [hs']
    rw [htasks]
    rcases hd with hd | rfl
    · exact h.faults_tasks hd
    · exact hc
  · intro d pc l hmain
    rw [hs'] at hmain ⊢
    exact h.main_tasks (hm hmain).1
  · intro d pc l hmain hpc
    have hmain' : m = .task d pc l := by rw [hs'] at hmain; exact hmain
    obtain ⟨hold, hne⟩ := hm hmain'
    rw [hfaulty]
    simp [h.main_clear hold hpc, hne]

/-- A channel that is not in the set is added. -/
theorem addChannel (h : Tidy s) {c : C} (hc : c ∉ s.tasks) (hsound : Sound (s.addChannel c)) :
    Tidy (s.addChannel c) := by
  have htasks : ∀ {d}, d ∈ (s.addChannel c).tasks ↔ d = c ∨ d ∈ s.tasks := by
    intro d
    simp [State.addChannel]
  refine {
    sound := hsound
    thread_tasks := ?_
    nodup := h.nodup
    faults_tasks := fun hd => htasks.mpr (Or.inr (h.faults_tasks hd))
    main_tasks := fun hm => htasks.mpr (Or.inr (h.main_tasks hm))
    main_clear := h.main_clear
    counts := ?_ }
  · intro d pc hd
    rw [htasks]
    rcases eq_or_ne d c with rfl | hne
    · exact Or.inl rfl
    · have hthere : s.thread d = some pc := by simpa [State.addChannel, hne] using hd
      exact Or.inr (h.thread_tasks hthere)
  · intro d
    have hcount := h.counts d
    simp only [htasks]
    rcases eq_or_ne d c with rfl | hne
    · rw [if_neg hc] at hcount
      simp [State.addChannel, hcount]
    · simpa [State.addChannel, hne] using hcount

/-- A channel that is not in the set is destroyed: the set, the threads and the queue are
what they were. -/
theorem destroyChannel (h : Tidy s) {c : C} (hc : c ∉ s.tasks)
    (hsound : Sound (s.destroyChannel c)) : Tidy (s.destroyChannel c) := by
  have hdispatch : s.dispatch c = false := by
    rw [← Bool.not_eq_true, h.sound.dispatch_iff]
    exact hc
  have hs : s.destroyChannel c = { s with alive := Function.update s.alive c false } := by
    simp [State.destroyChannel, hdispatch]
  rw [hs] at hsound ⊢
  exact { h with sound := hsound }

/-- `run()` returns the first fault. -/
theorem takeFault (h : Tidy s) {f : Fault C} {rest : List (Fault C)}
    (hf : s.faults = f :: rest) (hsound : Sound (s.takeFault f rest)) :
    Tidy (s.takeFault f rest) := by
  have hfaulty : s.faulty = f.channel :: (s.takeFault f rest).faulty := by
    rw [State.faulty, hf]
    rfl
  have hnodup := h.nodup
  rw [hfaulty, List.nodup_cons] at hnodup
  have htasks : ∀ {d}, d ∈ (s.takeFault f rest).tasks ↔ d ∈ s.tasks ∧ d ≠ f.channel := by
    intro d
    simp [State.takeFault, State.setMain, State.dropChannel]
  refine {
    sound := hsound
    thread_tasks := ?_
    nodup := hnodup.2
    faults_tasks := ?_
    main_tasks := fun hm => by cases hm
    main_clear := fun hm => by cases hm
    counts := ?_ }
  · intro d pc hd
    refine htasks.mpr ⟨h.thread_tasks hd, ?_⟩
    rintro rfl
    exact h.sound.thread_clear hd (hfaulty ▸ List.mem_cons_self)
  · intro d hd
    refine htasks.mpr ⟨h.faults_tasks (hfaulty ▸ List.mem_cons_of_mem _ hd), ?_⟩
    rintro rfl
    exact hnodup.1 hd
  · intro d
    have hcount := h.counts d
    simp only [htasks]
    rcases eq_or_ne d f.channel with rfl | hne
    · rw [if_pos (h.faults_tasks (hfaulty ▸ List.mem_cons_self))] at hcount
      simp [State.takeFault, State.setMain, State.dropChannel, hcount]
    · simpa [State.takeFault, State.setMain, State.dropChannel, hne] using hcount

/-- The thread of a channel takes a step: the channels with a thread are in the set. -/
theorem tasks_of_setThread (h : Tidy s) {c d : C} {pc pc' : TaskPc} {q : Option TaskPc}
    (ht : s.thread c = some pc) (hd : (s.setThread c q).thread d = some pc') :
    d ∈ s.tasks := by
  rcases eq_or_ne d c with rfl | hne
  · exact h.thread_tasks ht
  · have hthere : s.thread d = some pc' := by simpa [State.setThread, hne] using hd
    exact h.thread_tasks hthere

/-- A step that destroys no channel of the set, and polls none with a fault in the queue,
keeps a state tidy. -/
theorem step {e : Event C ε} (h : Tidy s) (hkeep : KeepsChannels s e) (hfresh : PollsFresh s e)
    (hs : Step s e s') : Tidy s' := by
  have hsound := h.sound.step hs
  cases hs with
  | addAgain c hc => exact h
  | add c halive hc => exact h.addChannel hc hsound
  | run =>
      exact {
        h with
        sound := hsound
        main_tasks := fun hm => by cases hm
        main_clear := fun hm => by cases hm }
  | destroy c => exact h.destroyChannel hkeep hsound
  | outside c x => exact { h with sound := hsound }
  | move x throws pc hold hpc =>
      have hnot : ∀ {c pc' l}, pc ≠ .task c pc' l := by
        rintro c pc' l rfl
        rcases hpc with hpc | ⟨visited, l', hpc⟩ | ⟨l', hpc⟩ <;> cases hpc
      exact {
        h with
        sound := hsound
        main_tasks := fun hm => absurd hm hnot
        main_clear := fun hm => absurd hm hnot }
  | enter x throws c l hold hc hsync =>
      exact {
        h with
        sound := hsound
        main_tasks := fun hm => by cases hm; exact hc
        main_clear := fun hm hpc => by cases hm; exact absurd rfl hpc }
  | mainTask x throws c pc l hm =>
      have hclear : c ∉ s.faulty := by
        rcases eq_or_ne pc .wait with rfl | hpc
        · exact hfresh c (by simp [State.polled, hm])
        · exact h.main_clear hm hpc
      have htask := h.main_tasks hm
      rw [State.advance_eq] at hsound ⊢
      exact {
        h with
        sound := hsound
        main_tasks := fun hm' => by cases hm'; exact htask
        main_clear := fun hm' _ => by cases hm'; exact hclear }
  | mainFault x throws c error l hm =>
      exact h.setFault (h.main_clear hm (by simp)) (h.main_tasks hm) rfl hsound
        (fun hd => ⟨_, hd⟩) fun hm => by cases hm
  | take x throws l f rest hm hf => exact h.takeFault hf hsound
  | threadTask c t x throws pc ht =>
      rw [State.advance_eq] at hsound ⊢
      exact { h with sound := hsound, thread_tasks := fun hd => h.tasks_of_setThread ht hd }
  | threadAgain c t x throws handled ht =>
      exact { h with sound := hsound, thread_tasks := fun hd => h.tasks_of_setThread ht hd }
  | threadFault c t x throws error ht =>
      refine h.setFault (h.sound.thread_clear ht) (h.thread_tasks ht) rfl hsound ?_ ?_
      · intro d pc hd
        rcases eq_or_ne d c with rfl | hne
        · exact ⟨_, ht⟩
        · exact ⟨pc, by simpa [State.setFault, hne] using hd⟩
      · intro d pc l hm
        refine ⟨hm, ?_⟩
        rintro rfl
        have hsync := h.sound.main_sync hm
        rw [h.sound.thread_async ht] at hsync
        cases hsync

end Tidy

/-- In every run in which no channel is destroyed while it is in the set and the loop polls
no channel with a fault in the queue, a channel is returned at most once for each time it was
added, and only while it is in the set, and the queue holds at most one fault for each channel and
none for a channel that has left the set. -/
theorem run_once {chan : (c : C) → (cls c).State}
    (h : (dispatcher cls chan).Reach (fun s e => KeepsChannels s e ∧ PollsFresh s e) s) :
    (∀ c, s.reports c ≤ s.adds c) ∧ s.faulty.Nodup ∧ (∀ c ∈ s.faulty, c ∈ s.tasks) ∧
      ∀ e s' f, s.next e = some s' → Returns s s' f → f.channel ∈ s.tasks := by
  have htidy : Tidy s := by
    refine h.invariant ?_ fun s e s' hs hok hnext => hs.step hok.1 hok.2 (.of_next hnext)
    constructor <;> simp [dispatcher, State.faulty]
    constructor <;> simp [State.faulty]
  refine ⟨fun c => ?_, htidy.nodup, fun c => htidy.faults_tasks, ?_⟩
  · rw [htidy.counts c]
    exact Nat.le_add_right _ _
  · intro e s' f hnext hr
    obtain ⟨l, rest, -, hf, -⟩ := hr.take hnext
    refine htidy.faults_tasks ?_
    rw [State.faulty, hf]
    exact List.mem_cons_self

/-- Whether a step keeps the channels can be computed. -/
instance (s : State cls) : DecidablePred (KeepsChannels s)
  | .destroy c => inferInstanceAs (Decidable (c ∉ s.tasks))
  | .add _ | .run | .main .. | .thread .. | .outside .. => isTrue trivial

/-- Whether a poll is fresh can be computed. -/
instance (s : State cls) : DecidablePred (PollsFresh s)
  | .main _ _ => inferInstanceAs (Decidable (∀ c ∈ s.polled, c ∉ s.faulty))
  | .add _ | .run | .destroy _ | .thread .. | .outside .. => isTrue trivial

/-- A synchronous timer and two asynchronous ones. The first two have one tick. -/
private def threeTimers (c : Fin 3) : ChannelClass ℤ :=
  timerClass (c = 0) id

/-- All of them are new. -/
private def threeTimersNew : (c : Fin 3) → (threeTimers c).State
  | 0 => TimerChannel.new 1 1 0
  | 1 => TimerChannel.new 1 1 0
  | 2 => TimerChannel.new 100 1 0

/-- One synchronous timer closes and is returned, and is destroyed after that. -/
theorem run_once_timer : ∃ s : State threeTimers,
    s.main = .returned (some ⟨0, false⟩) ∧ s.tasks = [2] ∧ s.alive 0 = false ∧
      s.reports 0 ≤ s.adds 0 ∧ s.faulty.Nodup := by
  have hrun : ((dispatcher threeTimers threeTimersNew).replay
      (fun s e => KeepsChannels s e ∧ PollsFresh s e) (dispatcher threeTimers threeTimersNew).start
        ([.add 0, .add 2, .run] ++ List.replicate 6 (.main 5 false) ++ [.destroy 0])).map
        (fun s => (s.main, s.tasks, s.alive 0)) =
      some (.returned (some ⟨0, false⟩), [2], false) := by decide +kernel
  obtain ⟨s, hs, hfacts⟩ := Option.map_eq_some_iff.mp hrun
  simp only [Prod.mk.injEq] at hfacts
  obtain ⟨hreports, hnodup, -⟩ := run_once (Machine.Reach.of_replay _ .start hs)
  exact ⟨s, hfacts.1, hfacts.2.1, hfacts.2.2, hreports 0, hnodup⟩

/-- The second timer closes, and then the first. The first `run()` returns the second
timer and the next one the first, after polling it again. -/
private def closeTwo : List (Event (Fin 3) ℤ) :=
  [.add 0, .add 1, .add 2] ++ List.replicate 3 (.thread 1 1000 5 false) ++
    [.run] ++ List.replicate 6 (.main 5 false) ++ [.run] ++ List.replicate 6 (.main 5 false) ++
    [.run] ++ List.replicate 3 (.main 5 false)

/-- A channel has left the set when its second fault is returned. -/
theorem run_twice : ∃ s s' : State threeTimers,
    (dispatcher threeTimers threeTimersNew).Reach KeepsChannels s ∧
      s.next (.main 5 false) = some s' ∧ Returns s s' ⟨0, false⟩ ∧ (0 : Fin 3) ∉ s.tasks ∧
      s'.adds 0 = 1 ∧ s'.reports 0 = 2 := by
  have hrun : ((dispatcher threeTimers threeTimersNew).replay KeepsChannels
      (dispatcher threeTimers threeTimersNew).start closeTwo).map
        (fun s => (s.main, s.faults, s.tasks, s.adds 0, s.reports 0)) =
      some (.take ⟨0, 0, 1⟩, [⟨0, false⟩], [2], 1, 1) := by decide +kernel
  obtain ⟨s, hs, hfacts⟩ := Option.map_eq_some_iff.mp hrun
  simp only [Prod.mk.injEq] at hfacts
  obtain ⟨hmain, hfaults, htasks, hadds, hreports⟩ := hfacts
  refine ⟨s, s.takeFault ⟨0, false⟩ [], Machine.Reach.of_replay closeTwo .start hs, ?_, ?_, ?_,
    hadds, ?_⟩
  · simp only [State.next, State.mainStep, hmain, hfaults]
  · refine ⟨fun hm => ?_, rfl⟩
    rw [hmain] at hm
    cases hm
  · simp [htasks]
  · simp [State.takeFault, State.setMain, State.dropChannel, hreports]

/-! ### Channels that are destroyed -/

/-- The channel that the step of `run()` calls a member function of. -/
def State.touched (s : State cls) : Option C :=
  match s.main with
  | .loop visited _ => s.nextTask visited
  | .task c _ _ => some c
  | .take _ => s.faults.head?.map Fault.channel
  | _ => none

/-- The handler of `c` is in its thread or in `run()`. -/
def State.handles (s : State cls) (c : C) : Bool :=
  (s.thread c).isSome || match s.main with
    | .task d _ _ => d = c
    | _ => false

/-- The step does not destroy a channel that has a fault in the queue, or whose handler
runs. -/
def DestroysIdle (s : State cls) : Event C ε → Prop
  | .destroy c => c ∉ s.faulty ∧ s.handles c = false
  | _ => True

/-- Whether a step destroys only idle channels can be computed. -/
instance (s : State cls) : DecidablePred (DestroysIdle s)
  | .destroy c => inferInstanceAs (Decidable (c ∉ s.faulty ∧ s.handles c = false))
  | .add _ | .run | .main .. | .thread .. | .outside .. => isTrue trivial

/-- The channels in the queue, and those with a handler, have not been destroyed. -/
structure Kept (s : State cls) : Prop where
  sound : Sound s
  faulty_alive : ∀ {c}, c ∈ s.faulty → s.alive c = true
  thread_alive : ∀ {c pc}, s.thread c = some pc → s.alive c = true
  main_alive : ∀ {c pc l}, s.main = .task c pc l → s.alive c = true

namespace Kept

/-- A fault is queued for a channel that has not been destroyed. -/
theorem setFault (h : Kept s) {c : C} {error : Bool} (hc : s.alive c = true)
    (hfaults : s'.faults = s.faults ++ [⟨c, error⟩]) (halive : s'.alive = s.alive)
    (hthread : ∀ {d pc}, s'.thread d = some pc → s.thread d = some pc)
    (hmain : ∀ {d pc l}, s'.main = .task d pc l → s.main = .task d pc l) (hsound : Sound s') :
    Kept s' := by
  refine {
    sound := hsound
    faulty_alive := ?_
    thread_alive := fun hd => halive ▸ h.thread_alive (hthread hd)
    main_alive := fun hm => halive ▸ h.main_alive (hmain hm) }
  intro d hd
  rw [State.faulty, hfaults, List.map_append, List.mem_append] at hd
  rw [halive]
  rcases hd with hd | hd
  · exact h.faulty_alive hd
  · rw [List.mem_singleton.mp hd]
    exact hc

/-- The thread of a channel takes a step: the channels with a thread are the same ones. -/
theorem alive_of_setThread (h : Kept s) {c d : C} {pc pc' : TaskPc} {q : Option TaskPc}
    (ht : s.thread c = some pc) (hd : (s.setThread c q).thread d = some pc') :
    s.alive d = true := by
  rcases eq_or_ne d c with rfl | hne
  · exact h.thread_alive ht
  · have hthere : s.thread d = some pc' := by simpa [State.setThread, hne] using hd
    exact h.thread_alive hthere

/-- An idle channel without faults is destroyed. -/
theorem destroyChannel (h : Kept s) {c : C} (hclear : c ∉ s.faulty)
    (hidle : s.handles c = false) (hsound : Sound (s.destroyChannel c)) :
    Kept (s.destroyChannel c) := by
  obtain ⟨hthread, hmain⟩ := (Bool.or_eq_false_iff).mp hidle
  have hrest : (s.destroyChannel c).main = s.main ∧ (s.destroyChannel c).thread = s.thread ∧
      (s.destroyChannel c).faulty = s.faulty ∧
      (s.destroyChannel c).alive = Function.update s.alive c false := by
    simp only [State.destroyChannel]
    split <;> exact ⟨rfl, rfl, rfl, rfl⟩
  obtain ⟨hmain', hthread', hfaulty', halive'⟩ := hrest
  have hkeep : ∀ {d}, d ≠ c → s.alive d = true → (s.destroyChannel c).alive d = true := by
    intro d hne hd
    rw [halive', Function.update_of_ne hne, hd]
  refine ⟨hsound, ?_, ?_, ?_⟩
  · intro d hd
    rw [hfaulty'] at hd
    exact hkeep (fun e => hclear (e ▸ hd)) (h.faulty_alive hd)
  · intro d pc hd
    rw [hthread'] at hd
    refine hkeep ?_ (h.thread_alive hd)
    rintro rfl
    simp [hd] at hthread
  · intro d pc l hm
    rw [hmain'] at hm
    refine hkeep ?_ (h.main_alive hm)
    rintro rfl
    simp [hm] at hmain

/-- A step that destroys only idle channels keeps the others. -/
theorem step {e : Event C ε} (h : Kept s) (hok : DestroysIdle s e) (hs : Step s e s') :
    Kept s' := by
  have hsound := h.sound.step hs
  cases hs with
  | addAgain c hc => exact h
  | add c halive hc =>
      refine { h with sound := hsound, thread_alive := ?_ }
      intro d pc hd
      rcases eq_or_ne d c with rfl | hne
      · exact halive
      · have hthere : s.thread d = some pc := by simpa [State.addChannel, hne] using hd
        exact h.thread_alive hthere
  | run => exact { h with sound := hsound, main_alive := fun hm => by cases hm }
  | destroy c => exact h.destroyChannel hok.1 hok.2 hsound
  | outside c x => exact { h with sound := hsound }
  | move x throws pc hold hpc =>
      refine { h with sound := hsound, main_alive := ?_ }
      intro c pc' l hm
      obtain rfl : pc = .task c pc' l := hm
      rcases hpc with hpc | ⟨visited, l', hpc⟩ | ⟨l', hpc⟩ <;> cases hpc
  | enter x throws c l hold hc hsync =>
      refine { h with sound := hsound, main_alive := ?_ }
      intro d pc l' hm
      cases hm
      exact h.sound.tasks_alive hc
  | mainTask x throws c pc l hm =>
      rw [State.advance_eq] at hsound ⊢
      refine { h with sound := hsound, main_alive := ?_ }
      intro d pc' l' hm'
      cases hm'
      exact h.main_alive hm
  | mainFault x throws c error l hm =>
      exact h.setFault (h.main_alive hm) rfl rfl id (fun hm => by cases hm) hsound
  | take x throws l f rest hm hf =>
      refine { h with sound := hsound, faulty_alive := ?_, main_alive := fun hm => by cases hm }
      intro d hd
      refine h.faulty_alive ?_
      rw [State.faulty, hf]
      exact List.mem_cons_of_mem _ hd
  | threadTask c t x throws pc ht =>
      rw [State.advance_eq] at hsound ⊢
      exact { h with sound := hsound, thread_alive := fun hd => h.alive_of_setThread ht hd }
  | threadAgain c t x throws handled ht =>
      exact { h with sound := hsound, thread_alive := fun hd => h.alive_of_setThread ht hd }
  | threadFault c t x throws error ht =>
      refine h.setFault (h.thread_alive ht) rfl rfl ?_ id hsound
      intro d pc hd
      rcases eq_or_ne d c with rfl | hne
      · simp [State.setThread] at hd
      · simpa [State.setThread, State.setFault, hne] using hd

end Kept

/-- In every run in which no channel is destroyed that has a fault in the queue, or whose
handler runs, no destroyed channel has a fault in the queue, and `run()` neither calls a
member function of a destroyed channel, nor drops it, nor returns it. -/
theorem run_alive {chan : (c : C) → (cls c).State}
    (h : (dispatcher cls chan).Reach DestroysIdle s) :
    (∀ c, s.alive c = false → c ∉ s.faulty) ∧
      (∀ c, s.touched = some c → s.alive c = true) ∧
      ∀ e s' f, s.next e = some s' → Returns s s' f → s.alive f.channel = true := by
  have hkept : Kept s := by
    refine h.invariant ?_ fun s e s' hs hok hnext => hs.step hok (.of_next hnext)
    constructor <;> simp [dispatcher, State.faulty]
    constructor <;> simp [State.faulty]
  refine ⟨?_, ?_, ?_⟩
  · intro c hdead hc
    rw [hkept.faulty_alive hc] at hdead
    cases hdead
  · intro c hc
    unfold State.touched at hc
    split at hc
    next => exact hkept.sound.tasks_alive (State.nextTask_mem hc)
    next hm => exact Option.some.inj hc ▸ hkept.main_alive hm
    next =>
      obtain ⟨f, hf, rfl⟩ := Option.map_eq_some_iff.mp hc
      exact hkept.faulty_alive (List.mem_map_of_mem (List.mem_of_mem_head? hf))
    next => cases hc
  · intro e s' f hnext hr
    obtain ⟨l, rest, -, hf, -⟩ := hr.take hnext
    refine hkept.faulty_alive ?_
    rw [State.faulty, hf]
    exact List.mem_cons_self

/-- A synchronous timer is destroyed while it is in the set, and another one is returned. -/
theorem run_alive_timer : ∃ s : State threeTimers,
    s.main = .returned (some ⟨1, false⟩) ∧ s.adds 0 = 1 ∧ s.alive 0 = false ∧
      (0 : Fin 3) ∉ s.faulty := by
  have hrun : ((dispatcher threeTimers threeTimersNew).replay DestroysIdle
      (dispatcher threeTimers threeTimersNew).start
        ([.add 0, .add 1, .destroy 0] ++ List.replicate 3 (.thread 1 1000 5 false) ++ [.run] ++
          List.replicate 4 (.main 5 false))).map
        (fun s => (s.main, s.adds 0, s.alive 0)) =
      some (.returned (some ⟨1, false⟩), 1, false) := by decide +kernel
  obtain ⟨s, hs, hfacts⟩ := Option.map_eq_some_iff.mp hrun
  simp only [Prod.mk.injEq] at hfacts
  obtain ⟨hmain, hadds, halive⟩ := hfacts
  obtain ⟨hqueue, -, -⟩ := run_alive (Machine.Reach.of_replay _ .start hs)
  exact ⟨s, hmain, hadds, halive, hqueue 0 halive⟩

/-- Two asynchronous timers, of which the first has one tick. -/
private def twoTimers (_ : Fin 2) : ChannelClass ℤ :=
  timerClass false id

/-- Both of them are new. -/
private def twoTimersNew : (c : Fin 2) → (twoTimers c).State
  | 0 => TimerChannel.new 1 1 0
  | 1 => TimerChannel.new 100 1 0

/-- The first timer closes, its thread queues the fault and ends, and the timer is
destroyed before `run()` is called. -/
private def destroyFirst : List (Event (Fin 2) ℤ) :=
  [.add 0, .add 1] ++ List.replicate 3 (.thread 0 1000 5 false) ++ [.destroy 0, .run] ++
    List.replicate 3 (.main 5 false)

/-- A destroyed channel is returned, and touched. -/
theorem run_destroyed : ∃ s s' : State twoTimers,
    (dispatcher twoTimers twoTimersNew).Reachable s ∧ s.next (.main 5 false) = some s' ∧
      Returns s s' ⟨0, false⟩ ∧ s.touched = some 0 ∧ s.alive 0 = false := by
  have hrun : ((dispatcher twoTimers twoTimersNew).replay (fun _ _ => True)
      (dispatcher twoTimers twoTimersNew).start destroyFirst).map
        (fun s => (s.main, s.faults, s.alive 0)) =
      some (.take ⟨0, 0, 1⟩, [⟨0, false⟩], false) := by decide +kernel
  obtain ⟨s, hs, hfacts⟩ := Option.map_eq_some_iff.mp hrun
  simp only [Prod.mk.injEq] at hfacts
  obtain ⟨hmain, hfaults, halive⟩ := hfacts
  refine ⟨s, s.takeFault ⟨0, false⟩ [], Machine.Reach.of_replay destroyFirst .start hs, ?_, ?_,
    ?_, halive⟩
  · simp only [State.next, State.mainStep, hmain, hfaults]
  · refine ⟨fun hm => ?_, rfl⟩
    rw [hmain] at hm
    cases hm
  · simp [State.touched, hmain, hfaults]

end Dispatch

end RsIo
