import RsIo.DispatchFaults
import RsIo.Progress
import Mathlib.Algebra.Order.BigOperators.Group.List
import Mathlib.Algebra.Order.Group.Nat

/-!
# Stopping the Dispatcher

`Dispatch::stop` closes every channel of the set and then calls `run()` until the set is empty.
It is a further part of the program of the main thread, on top of the machine of the
dispatcher: while the main thread closes the channels, and while it is in a call of `run()`, the
handler threads and everybody else go on. The call is made by the program, not by a callback.

How often `run()` is called, and how often the loop inside it goes round, depends on when the
handler threads find that their channels are closed. Some of the calls return a channel that
has left the set, as `run_twice` shows. What makes `stop()` return all the same is that a
channel stays closed, so that every handler is on its way to the fault it reports.

## Main results

* `Attended.step`: an asynchronous channel of the set has a handler thread or a fault.
* `Stopping.advances`: what one step does while the channels are closed and dropped.
* `stop_returns`: `stop()` returns, and leaves an empty set, closed channels and no handlers.
-/

namespace RsIo

/-- A closed channel stays closed, and a wait for it is over at once. -/
structure ChannelClass.Sticky {ε : Type} (k : ChannelClass ε) : Prop where
  close : ∀ s, k.isClosed (k.close s) = true
  wait : ∀ {s}, k.isClosed s = true → ∀ t x,
    (k.doWaitFor s t x).1 = true ∧ k.isClosed (k.doWaitFor s t x).2 = true
  read : ∀ {s}, k.isClosed s = true → ∀ x, k.isClosed (k.read s x).2 = true
  outside : ∀ {s}, k.isClosed s = true → ∀ x, k.isClosed (k.outside s x) = true

/-- A timer stays closed. -/
theorem timerClass_sticky {ε : Type} (isSynchronous : Bool) (clock : ε → ℤ) :
    (timerClass isSynchronous clock).Sticky where
  close _ := rfl
  wait h t x := by
    have hwait := TimerChannel.doWaitFor_closed h t (clock x)
    exact ⟨congrArg Prod.fst hwait, (congrArg (fun r => r.2.isClosed) hwait).trans h⟩
  read h _ := h
  outside _ _ := rfl

namespace Dispatch

variable {C ε : Type} [LinearOrder C] {cls : C → ChannelClass ε}

/-- Where the main thread is in `stop()`: outside it, past the channels it has closed, in the
loop that calls `run()`, or back in the program. -/
inductive StopPc (C : Type)
  | off
  | closing (visited : Option C)
  | draining
  | done
  deriving DecidableEq, Repr

/-- A dispatcher, and where the main thread is in `stop()`. -/
structure Stopping (cls : C → ChannelClass ε) where
  base : State cls
  pc : StopPc C

/-- What happens next: the program calls `stop()`, or anything that can happen to a dispatcher.
A step of the main thread in `stop()` is a `main` event. -/
inductive StopEvent (C ε : Type)
  | stop
  | event (e : Event C ε)

namespace Stopping

/-- Whether `run()` has not been called, or has returned. -/
def outsideRun (s : State cls) : Bool :=
  match s.main with
  | .idle | .returned _ => true
  | _ => false

/-- One step. Callbacks that `run()` invokes inside `stop()` may add and destroy channels. -/
def next (s : Stopping cls) : StopEvent C ε → Option (Stopping cls)
  | .stop => if s.pc = .off ∧ outsideRun s.base then some { s with pc := .closing none } else none
  | .event e =>
      match s.pc, e with
      | .off, e | .done, e => (s.base.next e).map fun b => { s with base := b }
      | .closing visited, .main _ _ =>
          match s.base.nextTask visited with
          | some c =>
              some ⟨s.base.setChan c ((cls c).close (s.base.chan c)), .closing (some c)⟩
          | none => some { s with pc := .draining }
      | .closing _, .thread c t x throws =>
          (s.base.next (.thread c t x throws)).map fun b => { s with base := b }
      | .closing _, .outside c x =>
          (s.base.next (.outside c x)).map fun b => { s with base := b }
      | .closing _, _ => none
      | .draining, .run => none
      | .draining, e =>
          if outsideRun s.base then
            match e with
            | .main _ _ =>
                if s.base.tasks = [] then
                  some { s with pc := .done }
                else
                  some { s with base := s.base.setMain .start }
            | .add _ | .run | .destroy _ => none
            | e => (s.base.next e).map fun b => { s with base := b }
          else
            (s.base.next e).map fun b => { s with base := b }

end Stopping

/-- A dispatcher with nothing in it, whose program calls `stop()` once. -/
def stopper (cls : C → ChannelClass ε) (chan : (c : C) → (cls c).State) :
    Machine (Stopping cls) (StopEvent C ε) where
  start := ⟨(dispatcher cls chan).start, .off⟩
  next := Stopping.next

/-! ### Handlers and faults of the channels in the set -/

variable {s s' : State cls}

/-- The tasks are in the order of the addresses, and an asynchronous channel of the set has a
handler thread or a fault in the queue. -/
structure Attended (s : State cls) : Prop where
  kept : Kept s
  sorted : s.tasks.Pairwise (· < ·)
  handled : ∀ {c}, c ∈ s.tasks → (cls c).isSynchronous = false →
    s.thread c ≠ none ∨ c ∈ s.faulty

namespace Attended

/-- A channel that is not in the set is put where its address belongs. -/
theorem sorted_addChannel (h : s.tasks.Pairwise (· < ·)) {c : C} (hc : c ∉ s.tasks) :
    (s.addChannel c).tasks.Pairwise (· < ·) := by
  change (s.tasks.orderedInsert (· ≤ ·) c).Pairwise (· < ·)
  have hle : s.tasks.Pairwise (· ≤ ·) := h.imp le_of_lt
  have hsorted : (s.tasks.orderedInsert (· ≤ ·) c).Pairwise (· ≤ ·) := hle.orderedInsert c _
  have hnodup : (s.tasks.orderedInsert (· ≤ ·) c).Nodup := by
    rw [(List.perm_orderedInsert (· ≤ ·) c s.tasks).nodup_iff]
    exact List.nodup_cons.mpr ⟨hc, h.imp ne_of_lt⟩
  exact (hsorted.and hnodup).imp fun h => lt_of_le_of_ne h.1 h.2

/-- A channel that has a handler thread is in the set. -/
theorem thread_tasks (h : Attended s) {c : C} {pc : TaskPc} (hc : s.thread c = some pc) :
    c ∈ s.tasks := by
  rcases h.kept.sound.thread_placed hc with htask | hdead
  · exact htask
  · rw [h.kept.thread_alive hc] at hdead
    cases hdead

/-- A step that destroys only idle channels leaves no channel of the set unattended. -/
theorem step {e : Event C ε} (h : Attended s) (hok : DestroysIdle s e) (hs : Step s e s') :
    Attended s' := by
  have hkept := h.kept.step hok hs
  cases hs with
  | addAgain c hc => exact h
  | add c halive hc =>
      refine ⟨hkept, sorted_addChannel h.sorted hc, fun {d} hd hasync => ?_⟩
      rcases eq_or_ne d c with rfl | hne
      · exact Or.inl (by simp [State.addChannel, hasync])
      · have hmem : d ∈ s.tasks := by simpa [State.addChannel, hne] using hd
        exact (h.handled hmem hasync).imp
          (fun ht => by simpa [State.addChannel, hne] using ht) id
  | run => exact ⟨hkept, h.sorted, h.handled⟩
  | destroy c =>
      have hrest : (s.destroyChannel c).tasks.Sublist s.tasks ∧
          (s.destroyChannel c).thread = s.thread ∧ (s.destroyChannel c).faulty = s.faulty := by
        simp only [State.destroyChannel]
        split
        next => exact ⟨List.filter_sublist, rfl, rfl⟩
        next => exact ⟨List.Sublist.refl _, rfl, rfl⟩
      obtain ⟨htasks, hthread, hfaulty⟩ := hrest
      refine ⟨hkept, h.sorted.sublist htasks, fun {d} hd hasync => ?_⟩
      rw [hthread, hfaulty]
      exact h.handled (htasks.subset hd) hasync
  | outside c x => exact ⟨hkept, h.sorted, h.handled⟩
  | move x throws pc hold hpc => exact ⟨hkept, h.sorted, h.handled⟩
  | enter x throws c l hold hc hsync => exact ⟨hkept, h.sorted, h.handled⟩
  | mainTask x throws c pc l hm =>
      rw [State.advance_eq] at hkept ⊢
      exact ⟨hkept, h.sorted, h.handled⟩
  | mainFault x throws c error l hm =>
      refine ⟨hkept, h.sorted, fun hd hasync => (h.handled hd hasync).imp id fun hf => ?_⟩
      simp [State.faulty, State.setFault, State.setMain] at hf ⊢
      exact Or.inl hf
  | take x throws l f rest hm hf =>
      refine ⟨hkept, h.sorted.sublist List.filter_sublist, fun {d} hd hasync => ?_⟩
      have hd' : d ∈ s.tasks ∧ d ≠ f.channel := by
        simpa [State.takeFault, State.setMain, State.dropChannel] using hd
      refine (h.handled hd'.1 hasync).imp id fun hmem => ?_
      rw [State.faulty, hf, List.map_cons, List.mem_cons] at hmem
      exact hmem.resolve_left hd'.2
  | threadTask c t x throws pc ht =>
      rw [State.advance_eq] at hkept ⊢
      refine ⟨hkept, h.sorted, fun {d} hd hasync => (h.handled hd hasync).imp (fun hd => ?_) id⟩
      rcases eq_or_ne d c with rfl | hne
      · simp [State.setThread]
      · simpa [State.setThread, hne] using hd
  | threadAgain c t x throws handled ht =>
      refine ⟨hkept, h.sorted, fun {d} hd hasync => (h.handled hd hasync).imp (fun hd => ?_) id⟩
      rcases eq_or_ne d c with rfl | hne
      · simp [State.setThread]
      · simpa [State.setThread, hne] using hd
  | threadFault c t x throws error ht =>
      refine ⟨hkept, h.sorted, fun {d} hd hasync => ?_⟩
      have hfaulty : ((s.setFault c error).setThread c none).faulty = s.faulty ++ [c] := by
        simp [State.faulty, State.setFault, State.setThread]
      rw [hfaulty]
      rcases eq_or_ne d c with rfl | hne
      · exact Or.inr (by simp)
      · refine (h.handled hd hasync).imp (fun hd => ?_) (fun hd => List.mem_append_left _ hd)
        simpa [State.setThread, State.setFault, hne] using hd

end Attended

/-! ### Closed channels -/

/-- A handler of a closed channel goes on to the next place on its way to the fault, and leaves
the channel closed. -/
def TaskPc.toGo : TaskPc → ℕ
  | .fault _ => 1
  | .check => 2
  | .wait => 3
  | .again _ => 4
  | .call => 5
  | .read => 6

/-- A handler of a closed channel leaves it closed, and comes nearer to its end. -/
theorem taskStep_closed {k : ChannelClass ε} (hk : k.Sticky) {st : k.State}
    (h : k.isClosed st = true) (t : ℤ) (x : ε) (throws : Bool) (pc : TaskPc) :
    k.isClosed (taskStep k st t x throws pc).2 = true ∧
      ((∀ handled, pc ≠ .again handled) → (∀ error, pc ≠ .fault error) →
        (taskStep k st t x throws pc).1.toGo < pc.toGo) ∧
      (pc = .wait → (taskStep k st t x throws pc).1 = .check ∨
        ∃ error, (taskStep k st t x throws pc).1 = .fault error) ∧
      (pc = .check → ∃ error, (taskStep k st t x throws pc).1 = .fault error) := by
  cases pc with
  | wait =>
      obtain ⟨hready, hclosed⟩ := hk.wait h t x
      cases throws <;> simp [taskStep, hready, hclosed, h, TaskPc.toGo]
  | check => simp [taskStep, h, TaskPc.toGo]
  | read =>
      have hclosed := hk.read h x
      cases throws <;> cases hgot : (k.read st x).1 <;>
        simp [taskStep, hgot, hclosed, h, TaskPc.toGo]
  | call => cases throws <;> simp [taskStep, h, TaskPc.toGo]
  | again handled => simp [taskStep, h]
  | fault error => simp [taskStep, h]

/-- A closed channel stays closed, whatever happens to the dispatcher. -/
theorem closed_step (hcls : ∀ c, (cls c).Sticky) {c : C} {e : Event C ε}
    (h : (cls c).isClosed (s.chan c) = true) (hs : Step s e s') :
    (cls c).isClosed (s'.chan c) = true := by
  have hset : ∀ {d : C} {k : (cls d).State}, (d = c → (cls d).isClosed k = true) →
      (cls c).isClosed (Function.update s.chan d k c) = true := by
    intro d k hk
    rcases eq_or_ne c d with rfl | hne
    · rw [Function.update_self]
      exact hk rfl
    · rw [Function.update_of_ne hne]
      exact h
  cases hs with
  | addAgain | add | run | move | enter | threadAgain | take => exact h
  | destroy d =>
      simp only [State.destroyChannel]
      split <;> exact h
  | outside d x =>
      refine hset ?_
      rintro rfl
      exact (hcls d).outside h x
  | mainTask x throws d pc l hm =>
      rw [State.advance_eq]
      refine hset ?_
      rintro rfl
      exact (taskStep_closed (hcls d) h 0 x throws pc).1
  | mainFault x throws d error l hm => exact hset fun _ => (hcls d).close _
  | threadTask d t x throws pc ht =>
      rw [State.advance_eq]
      refine hset ?_
      rintro rfl
      exact (taskStep_closed (hcls d) h t x throws pc).1
  | threadFault d t x throws error ht => exact hset fun _ => (hcls d).close _

/-! ### The loops over the set -/

/-- The channels of the set behind the one that a loop has come to. -/
def State.left (s : State cls) : Option C → List C
  | none => s.tasks
  | some c => s.tasks.filter (c < ·)

/-- The next channel is the first of those that are left. -/
theorem State.nextTask_eq (s : State cls) (visited : Option C) :
    s.nextTask visited = (s.left visited).head? := by
  cases visited with
  | none => rfl
  | some c => exact List.head?_filter.symm

/-- What is left is in the set. -/
theorem State.left_subset (s : State cls) (visited : Option C) : s.left visited ⊆ s.tasks := by
  cases visited with
  | none => exact fun _ h => h
  | some c => exact List.filter_sublist.subset

/-- The loop goes from one channel to the one behind it. -/
theorem State.left_next (h : s.tasks.Pairwise (· < ·)) {visited : Option C} {c : C}
    {rest : List C} (hleft : s.left visited = c :: rest) : s.left (some c) = rest := by
  have hrest : ∀ {l : List C}, (c :: l).Pairwise (· < ·) → (c :: l).filter (c < ·) = l := by
    intro l hl
    rw [List.filter_cons_of_neg (by simp), List.filter_eq_self]
    exact fun d hd => decide_eq_true (List.rel_of_pairwise_cons hl hd)
  cases visited with
  | none =>
      have htasks : s.tasks = c :: rest := hleft
      rw [State.left, htasks]
      exact hrest (htasks ▸ h)
  | some b =>
      have hb : s.tasks.filter (b < ·) = c :: rest := hleft
      have hlt : b < c := by
        have hmem : c ∈ s.tasks.filter (b < ·) := hb ▸ List.mem_cons_self
        simpa using (List.mem_filter.mp hmem).2
      have hboth : s.tasks.filter (c < ·) = (s.tasks.filter (b < ·)).filter (c < ·) := by
        rw [List.filter_filter]
        refine List.filter_congr fun d _ => ?_
        by_cases hd : c < d
        · simp [hd, hlt.trans hd]
        · simp [hd]
      rw [State.left, hboth, hb]
      exact hrest (hb ▸ h.sublist List.filter_sublist)

/-! ### What is left to do -/

/-- How far the handler threads of the set are from their faults. -/
def State.handling (s : State cls) : ℕ :=
  (s.tasks.map fun c => ((s.thread c).map TaskPc.toGo).getD 0).sum

/-- The faults in front of the first one for a channel of the set. -/
def State.stale (s : State cls) : List (Fault C) :=
  s.faults.takeWhile fun f => !s.tasks.contains f.channel

/-- The main thread has nothing to do until a handler thread reports a fault. -/
def State.Waiting (s : State cls) : Prop :=
  s.tasks ≠ [] ∧ s.faults = [] ∧ ∀ c ∈ s.tasks, (cls c).isSynchronous = false

/-- Whether the dispatcher waits can be computed. -/
instance (s : State cls) : Decidable s.Waiting :=
  inferInstanceAs (Decidable (_ ∧ _ ∧ _))

/-- How far the main thread is from the next fault it returns, if it does not wait. -/
def State.distance (s : State cls) : ℕ :=
  match s.main with
  | .idle | .returned _ => s.tasks.length + 6
  | .start => s.tasks.length + 5
  | .loop visited _ =>
      (s.left visited).length +
        if ∃ c ∈ s.left visited, (cls c).isSynchronous = true then 4
        else if s.faults = [] then s.tasks.length + 6 else 2
  | .task _ .wait _ => 4
  | .task _ .check _ => 3
  | .task .. => 2
  | .take _ => if s.faults = [] then s.tasks.length + 5 else 1

/-- Pairs in the order of their first components, and then of the second. -/
def Shorter : ℕ × ℕ × ℕ × ℕ × ℕ → ℕ × ℕ × ℕ × ℕ × ℕ → Prop :=
  Prod.Lex (· < ·) (Prod.Lex (· < ·) (Prod.Lex (· < ·) (Prod.Lex (· < ·) (· < ·))))

/-- The measure cannot go down for ever. -/
theorem shorter_wellFounded : WellFounded Shorter :=
  have hlt : WellFounded fun m n : ℕ => m < n := Nat.lt_wfRel.wf
  WellFounded.prod_lex hlt (.prod_lex hlt (.prod_lex hlt (.prod_lex hlt hlt)))

namespace Stopping

/-- What is left to do in `stop()`: first the channels that are not closed yet, and then the
handlers, the channels of the set, the faults in front of theirs, and the way to the next. -/
def toDo (s : Stopping cls) : ℕ × ℕ × ℕ × ℕ × ℕ :=
  match s.pc with
  | .closing visited => ((s.base.left visited).length + 1, 0, 0, 0, 0)
  | .draining =>
      (0, s.base.handling, s.base.tasks.length, s.base.stale.length,
        if s.base.Waiting then 0 else s.base.distance)
  | .off | .done => (0, 0, 0, 0, 0)

/-- Who can do some of it: a handler thread that the main thread waits for, or else the main
thread. -/
def helpful (s : Stopping cls) : Option C :=
  if s.pc = .draining ∧ s.base.Waiting then
    s.base.tasks.find? fun c => (s.base.thread c).isSome
  else
    none

/-- The step of the main thread, or of the handler thread of a channel. -/
def Acts : Option C → StopEvent C ε → Prop
  | none, .event (.main _ _) => True
  | some c, .event (.thread d _ _ _) => d = c
  | _, _ => False

/-- While the channels of the set `all` are closed, those that the loop has passed are closed. -/
structure Closing (all : List C) (s : State cls) (visited : Option C) : Prop where
  attended : Attended s
  outside : outsideRun s = true
  tasks : s.tasks = all
  closed : ∀ c ∈ s.tasks, c ∉ s.left visited → (cls c).isClosed (s.chan c) = true

/-- While the channels are dropped, they are all closed, and the loop of `run()` polls channels
of the set. -/
structure Draining (all : List C) (s : State cls) : Prop where
  attended : Attended s
  tasks : s.tasks ⊆ all
  closed : ∀ c ∈ all, (cls c).isClosed (s.chan c) = true
  running : outsideRun s = false → s.tasks ≠ []
  polling : ∀ {c pc l}, s.main = .task c pc l →
    c ∈ s.tasks ∧ (pc = .wait ∨ pc = .check ∨ ∃ error, pc = .fault error)

/-- `stop()` is closing or dropping the channels that were in the set. -/
inductive Settling (all : List C) : Stopping cls → Prop
  | closing {s : State cls} {visited : Option C} (h : Closing all s visited) :
      Settling all ⟨s, .closing visited⟩
  | draining {s : State cls} (h : Draining all s) : Settling all ⟨s, .draining⟩

/-- `stop()` has returned: the set is empty, no channel points to the dispatcher, no handler is
left, and the channels that were in the set are closed. -/
structure Settled (all : List C) (s : Stopping cls) : Prop where
  pc : s.pc = .done
  outside : outsideRun s.base = true
  tasks : s.base.tasks = []
  dispatch : ∀ c, s.base.dispatch c = false
  thread : ∀ c, s.base.thread c = none
  closed : ∀ c ∈ all, (cls c).isClosed (s.base.chan c) = true

/-- The order of the measure, number by number. -/
theorem shorter_iff {a b c d e a' b' c' d' e' : ℕ} :
    Shorter (a, b, c, d, e) (a', b', c', d', e') ↔
      a < a' ∨ a = a' ∧ (b < b' ∨ b = b' ∧ (c < c' ∨ c = c' ∧ (d < d' ∨ d = d' ∧ e < e'))) := by
  simp only [Shorter, Prod.lex_def]

/-! ### The loop that closes the channels -/

section

variable {all : List C} {visited : Option C}

/-- Another channel is closed. -/
theorem Closing.close (hcls : ∀ c, (cls c).Sticky) (h : Closing all s visited) {c : C}
    {rest : List C} (hleft : s.left visited = c :: rest) :
    Closing all (s.setChan c ((cls c).close (s.chan c))) (some c) := by
  refine {
    attended := ⟨{ h.attended.kept with sound := { h.attended.kept.sound with } },
      h.attended.sorted, h.attended.handled⟩
    outside := h.outside
    tasks := h.tasks
    closed := fun d hd hpast => ?_ }
  have hrest : d ∉ rest := by
    rw [← State.left_next h.attended.sorted hleft]
    exact hpast
  rcases eq_or_ne d c with rfl | hne
  · simp only [State.setChan, Function.update_self]
    exact (hcls d).close _
  · simp only [State.setChan, Function.update_of_ne hne]
    refine h.closed d hd ?_
    rw [hleft, List.mem_cons]
    exact fun hmem => hmem.elim hne hrest

/-- The last channel has been closed. -/
theorem Closing.closed_all (h : Closing all s visited) (hleft : s.left visited = []) :
    Draining all s where
  attended := h.attended
  tasks := h.tasks ▸ fun _ hc => hc
  closed c hc := h.closed c (h.tasks ▸ hc) (by simp [hleft])
  running hrun := by
    rw [h.outside] at hrun
    cases hrun
  polling hm := by
    have hout := h.outside
    rw [outsideRun, hm] at hout
    cases hout

/-- The step is one of a handler thread, or of something outside. -/
def IsSide : Event C ε → Prop
  | .thread .. | .outside .. => True
  | _ => False

/-- Nobody but the main thread moves it, or changes the set. -/
theorem side_step {e : Event C ε} (hside : IsSide e) (hs : Step s e s') :
    s'.tasks = s.tasks ∧ s'.main = s.main := by
  cases hs with
  | addAgain | add | run | destroy | move | enter | mainTask | mainFault | take =>
      exact hside.elim
  | threadTask c t x throws pc ht =>
      rw [State.advance_eq]
      exact ⟨rfl, rfl⟩
  | outside | threadAgain | threadFault => exact ⟨rfl, rfl⟩

/-- A step of the others destroys nothing. -/
theorem IsSide.destroysIdle {e : Event C ε} (hside : IsSide e) : DestroysIdle s e := by
  cases e with
  | destroy c => exact hside.elim
  | add | run | main | thread | outside => exact trivial

/-- What is left depends on the set. -/
theorem left_congr (htasks : s'.tasks = s.tasks) : s'.left visited = s.left visited := by
  cases visited with
  | none => exact htasks
  | some c => rw [State.left, State.left, htasks]

/-- What others do while the channels are closed. -/
theorem Closing.side (hcls : ∀ c, (cls c).Sticky) (h : Closing all s visited) {e : Event C ε}
    (hside : IsSide e) (hs : Step s e s') : Closing all s' visited := by
  obtain ⟨htasks, hmain⟩ := side_step hside hs
  have hout : outsideRun s' = outsideRun s := by rw [outsideRun, outsideRun, hmain]
  refine ⟨h.attended.step hside.destroysIdle hs, hout.trans h.outside, htasks.trans h.tasks, ?_⟩
  intro c hc hpast
  rw [left_congr htasks] at hpast
  exact closed_step hcls (h.closed c (htasks ▸ hc) hpast) hs

end

/-! ### The loop that drops them -/

section

variable {all : List C}

/-- What others do while the channels are dropped. -/
theorem Draining.side (hcls : ∀ c, (cls c).Sticky) (h : Draining all s) {e : Event C ε}
    (hside : IsSide e) (hs : Step s e s') : Draining all s' := by
  obtain ⟨htasks, hmain⟩ := side_step hside hs
  have hout : outsideRun s' = outsideRun s := by rw [outsideRun, outsideRun, hmain]
  exact {
    attended := h.attended.step hside.destroysIdle hs
    tasks := htasks ▸ h.tasks
    closed := fun c hc => closed_step hcls (h.closed c hc) hs
    running := fun hrun => htasks ▸ h.running (hout ▸ hrun)
    polling := fun hm => htasks ▸ h.polling (hmain ▸ hm) }

/-- A handler that moves on to a place nearer to its fault. -/
theorem handling_lt {c : C} {pc : TaskPc} {q : Option TaskPc} (hc : c ∈ s.tasks)
    (hpc : s.thread c = some pc) (hq : (q.map TaskPc.toGo).getD 0 < pc.toGo)
    (htasks : s'.tasks = s.tasks) (hthread : s'.thread = Function.update s.thread c q) :
    s'.handling < s.handling := by
  have hat : ((s'.thread c).map TaskPc.toGo).getD 0 < ((s.thread c).map TaskPc.toGo).getD 0 := by
    rw [hthread, Function.update_self, hpc]
    exact hq
  rw [State.handling, State.handling, htasks]
  refine List.sum_lt_sum _ _ (fun d _ => ?_) ⟨c, hc, hat⟩
  rcases eq_or_ne d c with rfl | hne
  · exact hat.le
  · rw [hthread, Function.update_of_ne hne]

/-- A handler thread of a closed channel comes nearer to its fault with each step. -/
theorem Draining.thread (hcls : ∀ c, (cls c).Sticky) (h : Draining all s) {c : C} {t : ℤ} {x : ε}
    {throws : Bool} (hnext : s.threadStep c t x throws = some s') :
    s'.handling < s.handling := by
  have hmem : ∀ {pc}, s.thread c = some pc → c ∈ s.tasks := h.attended.thread_tasks
  unfold State.threadStep at hnext
  split at hnext
  next => cases hnext
  next handled hpc =>
    obtain rfl := Option.some.inj hnext
    exact handling_lt (hmem hpc) hpc (by simp [TaskPc.toGo]) rfl rfl
  next error hpc =>
    obtain rfl := Option.some.inj hnext
    exact handling_lt (hmem hpc) hpc (by simp [TaskPc.toGo]) rfl rfl
  next pc hagain hfault hpc =>
    rw [State.advance_eq] at hnext
    obtain rfl := Option.some.inj hnext
    refine handling_lt (hmem hpc) hpc ?_ rfl rfl
    exact (taskStep_closed (hcls c) (h.closed c (h.tasks (hmem hpc))) t x throws pc).2.1
      hagain hfault

/-- The main thread comes to another place, and changes nothing else. -/
theorem Draining.setMain (h : Draining all s) {m : MainPc C}
    (hrun : outsideRun (s.setMain m) = false → s.tasks ≠ [])
    (hm : ∀ {c pc l}, m = .task c pc l →
      c ∈ s.tasks ∧ (cls c).isSynchronous = true ∧
        (pc = .wait ∨ pc = .check ∨ ∃ error, pc = .fault error)) :
    Draining all (s.setMain m) := by
  have hsound : Sound (s.setMain m) := h.attended.kept.sound.setMain fun hpc => (hm hpc).2.1
  refine {
    attended := ⟨⟨hsound, h.attended.kept.faulty_alive, h.attended.kept.thread_alive, ?_⟩,
      h.attended.sorted, h.attended.handled⟩
    tasks := h.tasks
    closed := h.closed
    running := hrun
    polling := fun hpc => ⟨(hm hpc).1, (hm hpc).2.2⟩ }
  exact fun hpc => h.attended.kept.sound.tasks_alive (hm hpc).1

/-- What a step of the main thread may lead to while the channels are dropped: less is left to
do, or it only moves on, and goes on waiting. -/
def Drained (all : List C) (s s' : State cls) : Prop :=
  Draining all s' ∧ (Shorter (toDo ⟨s', .draining⟩) (toDo ⟨s, .draining⟩) ∨
    s.Waiting ∧ ∃ m, s' = s.setMain m)

/-- The main thread comes nearer to the next fault, or waits. -/
theorem Draining.moved (h : Draining all s) {m : MainPc C}
    (hrun : outsideRun (s.setMain m) = false → s.tasks ≠ [])
    (hm : ∀ {c pc l}, m = .task c pc l →
      c ∈ s.tasks ∧ (cls c).isSynchronous = true ∧
        (pc = .wait ∨ pc = .check ∨ ∃ error, pc = .fault error))
    (hlt : ¬ s.Waiting → (s.setMain m).distance < s.distance) : Drained all s (s.setMain m) := by
  refine ⟨h.setMain hrun hm, ?_⟩
  by_cases hwait : s.Waiting
  · exact Or.inr ⟨hwait, m, rfl⟩
  · have hsame : ¬ (s.setMain m).Waiting := hwait
    refine Or.inl (shorter_iff.mpr (Or.inr ⟨rfl, Or.inr ⟨rfl, Or.inr ⟨rfl, Or.inr ⟨rfl, ?_⟩⟩⟩⟩))
    rw [if_neg hwait, if_neg hsame]
    exact hlt hwait

/-- A call of `run()` begins. -/
theorem Draining.begin (h : Draining all s) (htasks : s.tasks ≠ []) (hm : s.main = .start)
    (l : Locals) : Drained all s (s.setMain (.loop none l)) := by
  refine h.moved (fun _ => htasks) (fun hpc => by cases hpc) fun hwait => ?_
  have hstart : s.distance = s.tasks.length + 5 := by rw [State.distance, hm]
  rw [hstart]
  change s.tasks.length + (if ∃ c ∈ s.tasks, (cls c).isSynchronous = true then 4
    else if s.faults = [] then s.tasks.length + 6 else 2) < s.tasks.length + 5
  split
  next => omega
  next hasync =>
    rw [if_neg]
    · omega
    · exact fun hfaults => hwait ⟨htasks, hfaults, fun c hc =>
        Bool.eq_false_iff.mpr fun hsync => hasync ⟨c, hc, hsync⟩⟩

/-- The loop of `run()` comes to the next channel, or to its end. -/
theorem Draining.loop (h : Draining all s) (htasks : s.tasks ≠ []) {visited : Option C}
    {l : Locals} (hm : s.main = .loop visited l) {x : ε} {throws : Bool}
    (hnext : s.mainStep x throws = some s') : Drained all s s' := by
  have hdist : s.distance = (s.left visited).length +
      if ∃ c ∈ s.left visited, (cls c).isSynchronous = true then 4
      else if s.faults = [] then s.tasks.length + 6 else 2 := by
    rw [State.distance, hm]
  simp only [State.mainStep, hm, State.nextTask_eq] at hnext
  cases hleft : s.left visited with
  | nil =>
      rw [hleft] at hnext hdist
      obtain rfl := Option.some.inj hnext
      refine h.moved (fun _ => htasks) (fun hpc => by cases hpc) fun _ => ?_
      rw [hdist]
      change (if s.faults = [] then s.tasks.length + 5 else 1) < _
      simp only [List.length_nil, List.not_mem_nil, false_and, exists_false, if_false]
      split <;> omega
  | cons c rest =>
      rw [hleft] at hnext hdist
      have hc : c ∈ s.tasks := s.left_subset visited (hleft ▸ List.mem_cons_self)
      cases hsync : (cls c).isSynchronous with
      | true =>
          simp only [List.head?_cons, hsync, if_true] at hnext
          obtain rfl := Option.some.inj hnext
          refine h.moved (fun _ => htasks) (fun hpc => ?_) fun _ => ?_
          · cases hpc
            exact ⟨hc, hsync, Or.inl rfl⟩
          · rw [hdist, if_pos ⟨c, List.mem_cons_self, hsync⟩]
            change 4 < _
            simp
      | false =>
          simp only [List.head?_cons, hsync, Bool.false_eq_true, if_false] at hnext
          obtain rfl := Option.some.inj hnext
          refine h.moved (fun _ => htasks) (fun hpc => by cases hpc) fun _ => ?_
          have hrest := State.left_next h.attended.sorted hleft
          have hsame : (∃ d ∈ c :: rest, (cls d).isSynchronous = true) ↔
              ∃ d ∈ rest, (cls d).isSynchronous = true := by
            simp [hsync]
          rw [hdist]
          change (s.left (some c)).length + (if ∃ d ∈ s.left (some c),
            (cls d).isSynchronous = true then 4
              else if s.faults = [] then s.tasks.length + 6 else 2) < _
          simp only [hrest, hsame, List.length_cons]
          omega

/-- A handler in `run()` finds that its channel is closed. -/
theorem Draining.poll (hcls : ∀ c, (cls c).Sticky) (h : Draining all s) {c : C} {pc : TaskPc}
    {l : Locals} (hm : s.main = .task c pc l) {x : ε} {throws : Bool}
    (hnext : s.mainStep x throws = some s') : Drained all s s' := by
  obtain ⟨hc, hpc⟩ := h.polling hm
  have hsync := h.attended.kept.sound.main_sync hm
  have htasks : s.tasks ≠ [] := List.ne_nil_of_mem hc
  have hwait : ¬ s.Waiting := fun hwait => by
    rw [hwait.2.2 c hc] at hsync
    cases hsync
  obtain ⟨-, -, hready, hcheck⟩ :=
    taskStep_closed (hcls c) (h.closed c (h.tasks hc)) 0 x throws pc
  have hstep := Step.of_mainStep hnext
  have hidle : DestroysIdle s (.main x throws) := trivial
  have hattended := h.attended.step hidle hstep
  have hclosed : ∀ d ∈ all, (cls d).isClosed (s'.chan d) = true :=
    fun d hd => closed_step hcls (h.closed d hd) hstep
  have hfirst : (s.advance c pc 0 x throws).1 = (taskStep (cls c) (s.chan c) 0 x throws pc).1 := by
    rw [State.advance_eq]
  -- before the fault the handler goes on to another place
  have hgo : ∀ {pc'}, s' = (s.advance c pc 0 x throws).2.setMain (.task c pc' l) →
      (pc' = .wait ∨ pc' = .check ∨ ∃ error, pc' = .fault error) →
      s'.distance < s.distance → Drained all s s' := by
    rintro pc' rfl hpc' hlt
    have hsame : ∀ {m}, ((s.advance c pc 0 x throws).2.setMain m).tasks = s.tasks ∧
        ((s.advance c pc 0 x throws).2.setMain m).handling = s.handling ∧
        ((s.advance c pc 0 x throws).2.setMain m).stale = s.stale ∧
        ¬ ((s.advance c pc 0 x throws).2.setMain m).Waiting := by
      intro m
      rw [State.advance_eq]
      exact ⟨rfl, rfl, rfl, hwait⟩
    obtain ⟨htasks', hhandling, hstale, hwait'⟩ := @hsame (.task c pc' l)
    refine ⟨⟨hattended, htasks' ▸ h.tasks, hclosed, fun _ => htasks' ▸ htasks, fun hm => ?_⟩,
      Or.inl ?_⟩
    · cases hm
      exact ⟨htasks' ▸ hc, hpc'⟩
    · refine shorter_iff.mpr (Or.inr ⟨rfl, Or.inr ⟨hhandling, Or.inr
        ⟨congrArg List.length htasks', Or.inr ⟨congrArg List.length hstale, ?_⟩⟩⟩⟩)
      rw [if_neg hwait, if_neg hwait']
      exact hlt
  rcases hpc with rfl | rfl | ⟨error, rfl⟩
  · simp only [State.mainStep, hm] at hnext
    have hs' := (Option.some.inj hnext).symm
    have hnow : s.distance = 4 := by rw [State.distance, hm]
    have hthen := hready rfl
    rw [← hfirst] at hthen
    refine hgo hs' (hthen.elim (fun h => Or.inr (Or.inl h)) fun h => Or.inr (Or.inr h)) ?_
    rw [hnow, hs']
    rcases hthen with hpc | ⟨error, hpc⟩ <;> rw [hpc]
    · exact Nat.lt_succ_self 3
    · exact Nat.lt_of_sub_pos (by decide : 0 < 4 - 2)
  · simp only [State.mainStep, hm] at hnext
    have hs' := (Option.some.inj hnext).symm
    have hnow : s.distance = 3 := by rw [State.distance, hm]
    have hthen := hcheck rfl
    rw [← hfirst] at hthen
    refine hgo hs' (Or.inr (Or.inr hthen)) ?_
    obtain ⟨error, hpc⟩ := hthen
    rw [hnow, hs', hpc]
    exact Nat.lt_succ_self 2
  · simp only [State.mainStep, hm] at hnext
    obtain rfl := Option.some.inj hnext
    refine ⟨⟨hattended, h.tasks, hclosed, (fun _ => htasks), (fun hm => by cases hm)⟩,
      Or.inl ?_⟩
    have hstale : ((s.setFault c error).setMain (.take l)).stale = s.stale := by
      have hfaults : ((s.setFault c error).setMain (.take l)).faults =
          s.faults ++ [⟨c, error⟩] := rfl
      rw [State.stale, State.stale, hfaults, List.takeWhile_append]
      split
      next hall =>
        have hmem : c ∈ ((s.setFault c error).setMain (.take l)).tasks := hc
        rw [List.takeWhile_cons_of_neg (by simpa using hmem), List.append_nil]
        exact ((List.takeWhile_prefix _).eq_of_length hall).symm
      next => rfl
    have hnow : s.distance = 2 := by rw [State.distance, hm]
    have hfaults : ¬ ((s.setFault c error).setMain (.take l)).Waiting :=
      fun hwait => by simpa [State.setFault, State.setMain] using hwait.2.1
    have hthen : ((s.setFault c error).setMain (.take l)).distance = 1 := by
      simp [State.distance, State.setFault, State.setMain]
    refine shorter_iff.mpr
      (Or.inr ⟨rfl, Or.inr ⟨rfl, Or.inr ⟨rfl, Or.inr ⟨congrArg List.length hstale, ?_⟩⟩⟩⟩)
    rw [if_neg hwait, if_neg hfaults, hnow, hthen]
    exact Nat.one_lt_two

/-- `run()` returns a fault, which is that of a channel in the set or of one that has left it. -/
theorem Draining.take (h : Draining all s) {l : Locals} {f : Fault C} {rest : List (Fault C)}
    (hm : s.main = .take l) (hf : s.faults = f :: rest) (x : ε) (throws : Bool) :
    Drained all s (s.takeFault f rest) := by
  have hstep : Step s (.main x throws) (s.takeFault f rest) := .take x throws l f rest hm hf
  have hidle : DestroysIdle s (.main x throws) := trivial
  have hattended := h.attended.step hidle hstep
  have htasks : (s.takeFault f rest).tasks = s.tasks.filter (· ≠ f.channel) := rfl
  have hsub : (s.takeFault f rest).tasks.Sublist s.tasks := List.filter_sublist
  have hhandling : (s.takeFault f rest).handling ≤ s.handling :=
    (hsub.map _).sum_le_sum (by simp)
  refine ⟨⟨hattended, fun c hc => h.tasks (hsub.subset hc), h.closed,
    (fun hrun => by cases hrun), (fun hm => by cases hm)⟩, Or.inl ?_⟩
  by_cases hmem : f.channel ∈ s.tasks
  · have hlen : (s.takeFault f rest).tasks.length < s.tasks.length := by
      rw [htasks]
      exact List.length_filter_lt_length_iff_exists.mpr ⟨f.channel, hmem, by simp⟩
    refine shorter_iff.mpr (Or.inr ⟨rfl, ?_⟩)
    rcases hhandling.lt_or_eq with hlt | heq
    · exact Or.inl hlt
    · exact Or.inr ⟨heq, Or.inl hlen⟩
  · have hsame : (s.takeFault f rest).tasks = s.tasks := by
      rw [htasks, List.filter_eq_self]
      intro c hc
      have hne : c ≠ f.channel := fun heq => hmem (heq ▸ hc)
      simpa using hne
    have hstale : (s.takeFault f rest).stale.length + 1 = s.stale.length := by
      change (rest.takeWhile fun g => !(s.takeFault f rest).tasks.contains g.channel).length + 1 =
        (s.faults.takeWhile fun g => !s.tasks.contains g.channel).length
      rw [hsame, hf, List.takeWhile_cons_of_pos (by simpa using hmem), List.length_cons]
    refine shorter_iff.mpr (Or.inr ⟨rfl, ?_⟩)
    rcases hhandling.lt_or_eq with hlt | heq
    · exact Or.inl hlt
    · refine Or.inr ⟨heq, Or.inr ⟨congrArg List.length hsame, Or.inl ?_⟩⟩
      exact Nat.lt_of_succ_le hstale.le

/-- A step of `run()` while the channels are dropped. -/
theorem Draining.main (hcls : ∀ c, (cls c).Sticky) (h : Draining all s)
    (hrun : outsideRun s = false) {x : ε} {throws : Bool}
    (hnext : s.mainStep x throws = some s') : Drained all s s' := by
  have htasks := h.running hrun
  cases hm : s.main with
  | idle => simp [outsideRun, hm] at hrun
  | returned result => simp [outsideRun, hm] at hrun
  | start =>
      simp only [State.mainStep, hm, if_neg htasks] at hnext
      exact Option.some.inj hnext ▸ h.begin htasks hm _
  | loop visited l => exact h.loop htasks hm hnext
  | task c pc l => exact h.poll hcls hm hnext
  | take l =>
      cases hf : s.faults with
      | cons f rest =>
          simp only [State.mainStep, hm, hf] at hnext
          exact Option.some.inj hnext ▸ h.take hm hf x throws
      | nil =>
          simp only [State.mainStep, hm, hf] at hnext
          obtain rfl := Option.some.inj hnext
          refine h.moved (fun _ => htasks) (fun hpc => by cases hpc) fun hwait => ?_
          have hsync : ∃ c ∈ s.tasks, (cls c).isSynchronous = true := by
            by_contra hnone
            refine hwait ⟨htasks, hf, fun c hc => ?_⟩
            exact Bool.eq_false_iff.mpr fun hsync => hnone ⟨c, hc, hsync⟩
          have hnow : s.distance = s.tasks.length + 5 := by
            simp only [State.distance, hm, hf, if_true]
          rw [hnow]
          change s.tasks.length + (if ∃ c ∈ s.tasks, (cls c).isSynchronous = true then 4
            else if s.faults = [] then s.tasks.length + 6 else 2) < _
          rw [if_pos hsync]
          omega

end

/-! ### The run -/

section

variable {all : List C} {s s' : Stopping cls}

/-- The main thread is outside `run()`, or in the program between two calls. -/
theorem Draining.settled (h : Draining all s.base) (hout : outsideRun s.base = true)
    (htasks : s.base.tasks = []) : Settled all { s with pc := .done } where
  pc := rfl
  outside := hout
  tasks := htasks
  dispatch c := by
    have hiff := h.attended.kept.sound.dispatch_iff (c := c)
    rw [htasks] at hiff
    simpa using hiff.not.mpr (by simp)
  thread c := by
    cases hc : s.base.thread c with
    | none => rfl
    | some pc =>
        have hmem := h.attended.thread_tasks hc
        rw [htasks] at hmem
        exact absurd hmem (List.not_mem_nil)
  closed := h.closed

/-- While the channels are closed nobody else has to go on. -/
theorem helpful_closing {s : State cls} {visited : Option C} :
    helpful ⟨s, .closing visited⟩ = none := if_neg fun h => by cases h.1

/-- In a state in which the main thread waits, a handler thread can help. -/
theorem helpful_waiting {s : State cls} (h : Attended s) (hwait : s.Waiting) :
    ∃ c, helpful ⟨s, .draining⟩ = some c ∧ s.thread c ≠ none := by
  have hhelp : helpful ⟨s, .draining⟩ = s.tasks.find? fun c => (s.thread c).isSome :=
    if_pos ⟨rfl, hwait⟩
  obtain ⟨c, hc⟩ := List.exists_mem_of_ne_nil _ hwait.1
  have hthread : s.thread c ≠ none :=
    (h.handled hc (hwait.2.2 c hc)).resolve_right (by simp [State.faulty, hwait.2.1])
  cases hfind : s.tasks.find? fun c => (s.thread c).isSome with
  | none =>
      rw [List.find?_eq_none] at hfind
      exact absurd (hfind c hc) (by simpa [Option.isSome_iff_ne_none] using hthread)
  | some d =>
      refine ⟨d, hhelp.trans hfind, ?_⟩
      have hd := List.find?_some hfind
      exact Option.isSome_iff_ne_none.mp hd

/-- A handler thread that can help is there. -/
theorem helpful_some {s : Stopping cls} {c : C} (h : helpful s = some c) :
    s.base.thread c ≠ none := by
  unfold helpful at h
  split at h
  next =>
    have hsome := List.find?_some h
    exact Option.isSome_iff_ne_none.mp hsome
  next => cases h

/-- What one step leads to, from a state in which `stop()` has not returned. -/
def Advanced (all : List C) (s s' : Stopping cls) (e : StopEvent C ε) : Prop :=
  Settling all s' ∧ (Shorter (toDo s') (toDo s) ∨
    toDo s' = toDo s ∧ helpful s' = helpful s ∧ ¬ Acts (helpful s) e)

/-- What one step does while `stop()` closes the channels. -/
theorem Closing.step (hcls : ∀ c, (cls c).Sticky) {s : State cls} {visited : Option C}
    (h : Closing all s visited) {e : Event C ε}
    (hnext : Stopping.next ⟨s, .closing visited⟩ (.event e) = some s') :
    Advanced all ⟨s, .closing visited⟩ s' (.event e) := by
  have hside : ∀ {b : State cls}, IsSide e → s.next e = some b →
      Advanced all ⟨s, .closing visited⟩ ⟨b, .closing visited⟩ (.event e) := by
    intro b hside hb
    have htasks := (side_step hside (.of_next hb)).1
    have htodo : toDo ⟨b, .closing visited⟩ = toDo ⟨s, .closing visited⟩ :=
      congrArg (fun l : List C => (l.length + 1, 0, 0, 0, 0)) (left_congr htasks)
    refine ⟨.closing (h.side hcls hside (.of_next hb)), Or.inr ⟨htodo, ?_, ?_⟩⟩
    · rw [helpful_closing, helpful_closing]
    · rw [helpful_closing]
      cases e with
      | add | run | destroy | thread | outside => exact id
      | main => exact hside.elim
  cases e with
  | add | run | destroy => cases hnext
  | thread c t x throws =>
      obtain ⟨b, hb, rfl⟩ := Option.map_eq_some_iff.mp hnext
      exact hside trivial hb
  | outside c x =>
      obtain ⟨b, hb, rfl⟩ := Option.map_eq_some_iff.mp hnext
      exact hside trivial hb
  | main x throws =>
      simp only [Stopping.next, State.nextTask_eq] at hnext
      cases hleft : s.left visited with
      | nil =>
          rw [hleft] at hnext
          obtain rfl := Option.some.inj hnext
          refine ⟨.draining (h.closed_all hleft), Or.inl ?_⟩
          exact shorter_iff.mpr (Or.inl (Nat.succ_pos _))
      | cons c rest =>
          rw [hleft] at hnext
          obtain rfl := Option.some.inj hnext
          refine ⟨.closing (h.close hcls hleft), Or.inl (shorter_iff.mpr (Or.inl ?_))⟩
          have hrest : (s.setChan c ((cls c).close (s.chan c))).left (some c) = rest :=
            State.left_next h.attended.sorted hleft
          rw [hrest, hleft, List.length_cons]
          exact Nat.lt_succ_self _

/-- What a step of the main thread leads to, as the progress rule asks for it. -/
theorem Drained.advanced {s b : State cls} (hs : Attended s) (h : Drained all s b) {x : ε}
    {throws : Bool} : Advanced all ⟨s, .draining⟩ ⟨b, .draining⟩ (.event (.main x throws)) := by
  refine ⟨.draining h.1, h.2.imp id ?_⟩
  rintro ⟨hwait, m, rfl⟩
  have hwait' : (s.setMain m).Waiting := hwait
  obtain ⟨c, hhelp, -⟩ := helpful_waiting hs hwait
  refine ⟨?_, rfl, ?_⟩
  · change (0, s.handling, s.tasks.length, s.stale.length, _) = (0, _, _, _, _)
    rw [if_pos hwait, if_pos hwait']
  · rw [hhelp]
    exact id

/-- No callback is running while the channels are dropped. -/
theorem Draining.inProgram {s : State cls} (h : Draining all s) (hrun : outsideRun s = false) :
    s.inProgram = false := by
  cases hm : s.main with
  | idle | returned => simp [outsideRun, hm] at hrun
  | start | loop | take => simp [State.inProgram, hm]
  | task c pc l =>
      rcases (h.polling hm).2 with rfl | rfl | ⟨error, rfl⟩ <;> simp [State.inProgram, hm]

/-- What one step does while `stop()` drops the channels. -/
theorem Draining.step (hcls : ∀ c, (cls c).Sticky) {s : State cls} (h : Draining all s)
    {e : Event C ε} (hnext : Stopping.next ⟨s, .draining⟩ (.event e) = some s') :
    Settled all s' ∨ Advanced all ⟨s, .draining⟩ s' (.event e) := by
  cases e with
  | run => cases hnext
  | add c | destroy c =>
      simp only [Stopping.next] at hnext
      split at hnext
      next => cases hnext
      next hrun => simp [State.next, h.inProgram (by simpa using hrun)] at hnext
  | thread c t x throws =>
      simp only [Stopping.next, ite_self] at hnext
      obtain ⟨b, hb, rfl⟩ := Option.map_eq_some_iff.mp hnext
      have hside := h.side hcls (e := .thread c t x throws) trivial (.of_next hb)
      exact Or.inr ⟨.draining hside,
        Or.inl (shorter_iff.mpr (Or.inr ⟨rfl, Or.inl (h.thread hcls hb)⟩))⟩
  | outside c x =>
      simp only [Stopping.next, ite_self] at hnext
      obtain ⟨b, hb, rfl⟩ := Option.map_eq_some_iff.mp hnext
      have hside := h.side hcls (e := .outside c x) trivial (.of_next hb)
      have hchan : b = s.setChan c ((cls c).outside (s.chan c) x) := by
        simp only [State.next] at hb
        split at hb
        next => exact (Option.some.inj hb).symm
        next => cases hb
      rw [hchan] at hside ⊢
      refine Or.inr ⟨.draining hside, Or.inr ⟨rfl, rfl, ?_⟩⟩
      cases helpful ⟨s, .draining⟩ <;> exact id
  | main x throws =>
      cases hrun : outsideRun s with
      | true =>
          simp only [Stopping.next, hrun, if_true] at hnext
          split at hnext
          next htasks =>
            obtain rfl := Option.some.inj hnext
            exact Or.inl (h.settled (s := ⟨s, .draining⟩) hrun htasks)
          next htasks =>
            obtain rfl := Option.some.inj hnext
            have hnow : s.distance = s.tasks.length + 6 := by
              cases hm : s.main with
              | idle | returned => simp only [State.distance, hm]
              | start | loop | task | take => simp [outsideRun, hm] at hrun
            refine Or.inr (Drained.advanced h.attended ?_)
            refine h.moved (fun _ => htasks) (fun hpc => by cases hpc) fun _ => ?_
            rw [hnow]
            exact Nat.lt_succ_self _
      | false =>
          simp only [Stopping.next, hrun, Bool.false_eq_true, if_false] at hnext
          obtain ⟨b, hb, rfl⟩ := Option.map_eq_some_iff.mp hnext
          exact Or.inr ((h.main hcls hrun hb).advanced h.attended)

/-- In the middle of `stop()` the main thread is neither outside it nor back. -/
theorem Settling.running (h : Settling all s) : s.pc ≠ .off ∧ s.pc ≠ .done := by
  cases h <;> exact ⟨nofun, nofun⟩

/-- `stop()` makes progress with every step of those who can help. -/
theorem advances (hcls : ∀ c, (cls c).Sticky) (chan : (c : C) → (cls c).State) (all : List C) :
    Machine.Run.Advances (stopper cls chan) Shorter (Settling all) (Settled all) toDo helpful
      Acts := by
  rintro s e s' hs - hnext
  cases e with
  | stop =>
      simp only [stopper, Stopping.next, hs.running.1, false_and, if_false] at hnext
      cases hnext
  | event e =>
      cases hs with
      | closing h => exact Or.inr (h.step hcls hnext)
      | draining h => exact h.step hcls hnext

end

end Stopping

open Stopping

/-- **Stopping.** If no channel was destroyed while it had a fault in the queue or a handler that
ran, `stop()` returns if the main thread and the handler threads go on, whatever the others do,
and whichever faults are in the queue. It leaves an empty set, in which no channel
points to the dispatcher and no handler thread is left, and the channels that were in the set are
closed. -/
theorem stop_returns (hcls : ∀ c, (cls c).Sticky) {chan : (c : C) → (cls c).State}
    {s : State cls} (hreach : (dispatcher cls chan).Reach DestroysIdle s)
    (r : (stopper cls chan).Run) (hstart : r.state 0 = ⟨s, .off⟩) (hcall : r.event 0 = .stop)
    (hmain : ∀ n, (r.state n).pc ≠ .done → ∃ k, Acts none (r.event (n + k)))
    (hthread : ∀ n c, (r.state n).pc ≠ .done → (r.state n).base.thread c ≠ none →
      ∃ k, Acts (some c) (r.event (n + k))) :
    ∃ n, Settled s.tasks (r.state n) := by
  have hattended : Attended s := by
    refine hreach.invariant ?_ fun s e s' hs hok hnext => hs.step hok (.of_next hnext)
    have hsound : Sound (dispatcher cls chan).start :=
      Sound.reachable (.start : (dispatcher cls chan).Reach (fun _ _ => True) _)
    exact ⟨⟨hsound, fun h => absurd h List.not_mem_nil, nofun, nofun⟩, .nil,
      fun h => absurd h List.not_mem_nil⟩
  have hfirst : outsideRun s = true ∧ r.state 1 = ⟨s, .closing none⟩ := by
    have hstep := r.step 0
    rw [hstart, hcall] at hstep
    simp only [stopper, Stopping.next, true_and] at hstep
    split at hstep
    next hout => exact ⟨hout, (Option.some.inj hstep).symm⟩
    next => cases hstep
  have hclosing : Settling s.tasks (r.state 1) := by
    rw [hfirst.2]
    exact .closing ⟨hattended, hfirst.1, rfl, fun c hc hpast => absurd hc hpast⟩
  have hends : ∃ n, Settled s.tasks ((r.drop 1).state n) := by
    refine (r.drop 1).reaches shorter_wellFounded (advances hcls chan s.tasks) ?_ hclosing
    intro n hs _
    have hpc := hs.running.2
    have hshift : ∀ {a : Option C}, (∃ k, Acts a (r.event (1 + n + k))) →
        ∃ k, Acts a ((r.drop 1).event (n + k)) := by
      rintro a ⟨k, hk⟩
      exact ⟨k, by rwa [Nat.add_assoc] at hk⟩
    cases hhelp : helpful ((r.drop 1).state n) with
    | none => exact hshift (hmain (1 + n) hpc)
    | some c => exact hshift (hthread (1 + n) c hpc (helpful_some hhelp))
  obtain ⟨n, hn⟩ := hends
  exact ⟨1 + n, hn⟩

/-- The synchronous one of two channels. -/
private abbrev firstOfTwo : Fin 2 := ⟨0, Nat.two_pos⟩

/-- The asynchronous one. -/
private abbrev secondOfTwo : Fin 2 := ⟨1, Nat.one_lt_two⟩

/-- A synchronous timer and an asynchronous one, with many ticks. -/
private def twoKinds (c : Fin 2) : ChannelClass ℤ :=
  timerClass (c = firstOfTwo) id

/-- Both of them are new. -/
private def twoKindsNew (_ : Fin 2) : TimerChannel :=
  TimerChannel.new 100 10 0

/-- Both timers are closed, the thread of the second one ends, and `run()` is called twice. -/
private def stopTwo : List (StopEvent (Fin 2) ℤ) :=
  [.stop] ++ List.replicate 3 (.event (.main 5 false)) ++
    List.replicate 3 (.event (.thread secondOfTwo 1000 5 false)) ++
    List.replicate 15 (.event (.main 5 false))

/-- The events of the run that stops them. -/
private def stopTwoEvent : ℕ → StopEvent (Fin 2) ℤ :=
  Machine.script stopTwo (.event (.outside firstOfTwo 5))

/-- The dispatcher with both channels. -/
private def twoAdded : State twoKinds :=
  ((dispatcher twoKinds twoKindsNew).start.addChannel firstOfTwo).addChannel secondOfTwo

/-- The states of the run. -/
private abbrev stopTwoState : ℕ → Stopping twoKinds :=
  (stopper twoKinds twoKindsNew).follow ⟨twoAdded, .off⟩ stopTwoEvent

/-- After the last of the events nothing but idle steps happen. -/
private theorem stopTwoState_done (n : ℕ) :
    ((stopTwoState (22 + n)).pc = .done ∧ (stopTwoState (22 + n)).base.alive 0 = true) ∧
      ((stopper twoKinds twoKindsNew).next (stopTwoState (22 + n))
        (stopTwoEvent (22 + n))).isSome := by
  refine Machine.follow_idle (m := stopper twoKinds twoKindsNew)
    (e := .event (.outside firstOfTwo 5))
    (P := fun s : Stopping twoKinds => s.pc = .done ∧ s.base.alive 0 = true)
    (Machine.script_add stopTwo _) (by decide +kernel) ?_ n
  rintro ⟨b, pc⟩ ⟨rfl, halive⟩
  have halive' : b.alive firstOfTwo = true := halive
  refine ⟨⟨b.setChan firstOfTwo ((twoKinds firstOfTwo).outside (b.chan firstOfTwo) 5), .done⟩,
    ⟨rfl, halive'⟩, ?_⟩
  simp only [stopper, Stopping.next, State.next, halive', if_true, Option.map_some]

/-- Two channels are added and stopped. -/
theorem stop_returns_two :
    ∃ (r : (stopper twoKinds twoKindsNew).Run) (n : ℕ), Settled [0, 1] (r.state n) := by
  have hsome : ∀ n, ((stopper twoKinds twoKindsNew).next (stopTwoState n)
      (stopTwoEvent n)).isSome :=
    Machine.forall_script (by decide +kernel) fun n => (stopTwoState_done n).2
  have hfirst : (dispatcher twoKinds twoKindsNew).Reach DestroysIdle
      ((dispatcher twoKinds twoKindsNew).start.addChannel 0) :=
    .step (e := .add 0) .start trivial rfl
  have hreach : (dispatcher twoKinds twoKindsNew).Reach DestroysIdle twoAdded :=
    .step (e := .add 1) hfirst trivial rfl
  have hmain : ∀ n, (stopTwoState n).pc ≠ .done →
      ∃ k, Acts none (stopTwoEvent (n + k)) := by
    refine Machine.forall_script (fun n hn _ => ⟨21 - n, ?_⟩)
      fun n hpc => absurd (stopTwoState_done n).1.1 hpc
    have hsum : n + (21 - n) = 21 := by omega
    rw [hsum]
    exact trivial
  have hthread : ∀ n (c : Fin 2), (stopTwoState n).pc ≠ .done →
      (stopTwoState n).base.thread c ≠ none → ∃ k, Acts (some c) (stopTwoEvent (n + k)) := by
    refine Machine.forall_script (fun n hn c _ hc => ⟨6 - n, ?_⟩)
      fun n c hpc => absurd (stopTwoState_done n).1.1 hpc
    have hlast : ∀ n < 22, ∀ c : Fin 2, (stopTwoState n).base.thread c ≠ none → n ≤ 6 ∧ c = 1 := by
      decide +kernel
    obtain ⟨hle, rfl⟩ := hlast n hn c hc
    have hsum : n + (6 - n) = 6 := by omega
    rw [hsum]
    exact rfl
  obtain ⟨n, hn⟩ := stop_returns (fun c => timerClass_sticky _ _) hreach (.of _ _ _ hsome) rfl rfl
    hmain hthread
  exact ⟨.of _ _ _ hsome, n, hn⟩

end Dispatch

end RsIo
