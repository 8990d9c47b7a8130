import RsIo.Transition
import Mathlib.Tactic.Common

/-!
# Waiting on a Condition Variable

An object with a mutex, a condition variable, and a condition that threads wait for. The member
functions are sections under the mutex, and some of them end with `notify_all`. A wait is
`cv.wait_for(lock, t, ready)`, for a positive `t` or none: the thread asks whether the condition
holds, and while it does not the thread gives the mutex back and falls asleep, in one step. It
is woken by a notification, when its time is over, or for no reason, and asks again as soon as
it has the mutex.

## Main results

* `Monitor.Alert.step`: if whatever makes the condition true notifies, no thread sleeps while it
  is true.
* `Monitor.wait_returns`: what a wait returns.
* `Monitor.no_lost_wakeup`: a thread that waits for what is there already is about to return.
-/

namespace RsIo

/-- The condition that is waited for, and the calls: the new state, and whether the section
ends with `notify_all`. -/
structure Monitor (σ T κ : Type) where
  ready : σ → Bool
  call : σ → T → κ → σ × Bool

namespace Monitor

/-- Where a thread is: not in a wait, asleep on the condition variable, woken but not in the
mutex yet, perhaps since its time is over, or back from a wait, with its result. -/
inductive Place
  | outside
  | asleep
  | woken (timeout : Bool)
  | returned (result : Bool)
  deriving DecidableEq, Repr

/-- The object, and its threads. -/
structure State (σ T : Type) where
  object : σ
  place : T → Place

/-- What happens next: a thread calls a member function, waits for a positive time or polls, is
woken because its time is over or for no reason, or has the mutex again. -/
inductive Event (T κ : Type)
  | call (t : T) (c : κ)
  | wait (t : T) (timed : Bool)
  | rouse (t : T) (timeout : Bool)
  | resume (t : T)

variable {σ T κ : Type}

/-- The thread is in a wait. -/
def Place.waits : Place → Bool
  | .asleep | .woken _ => true
  | .outside | .returned _ => false

/-- `notify_all`. -/
def wakeAll (place : T → Place) : T → Place := fun t =>
  match place t with
  | .asleep => .woken false
  | p => p

variable [DecidableEq T] (m : Monitor σ T κ)

/-- One section, or one step of a thread that sleeps. -/
def next (s : State σ T) : Event T κ → Option (State σ T)
  | .call t c =>
      if (s.place t).waits then
        none
      else
        let (object, notifies) := m.call s.object t c
        some ⟨object, if notifies then wakeAll s.place else s.place⟩
  | .wait t timed =>
      if (s.place t).waits then
        none
      else
        some { s with
          place := Function.update s.place t
            (if m.ready s.object then .returned true
              else if timed then .asleep else .returned false) }
  | .rouse t timeout =>
      match s.place t with
      | .asleep => some { s with place := Function.update s.place t (.woken timeout) }
      | _ => none
  | .resume t =>
      match s.place t with
      | .woken timeout =>
          some { s with
            place := Function.update s.place t
              (if m.ready s.object then .returned true
                else if timeout then .returned false else .asleep) }
      | _ => none

/-- The object with its threads outside. -/
def threads (object : σ) : Machine (State σ T) (Event T κ) where
  start := ⟨object, fun _ => .outside⟩
  next := m.next

/-- What makes the condition true notifies. -/
def Wakes : Prop :=
  ∀ o t c, m.ready (m.call o t c).1 = true → m.ready o = true ∨ (m.call o t c).2 = true

/-- No thread sleeps while the condition holds. -/
def Alert (s : State σ T) : Prop :=
  m.ready s.object = true → ∀ t, s.place t ≠ .asleep

variable {m} {s s' : State σ T}

omit [DecidableEq T] in
/-- A notification does not take a thread out of its wait. -/
theorem wakeAll_returned {place : T → Place} {t : T} {result : Bool}
    (h : wakeAll place t = .returned result) : place t = .returned result := by
  unfold wakeAll at h
  split at h
  next => cases h
  next => exact h

omit [DecidableEq T] in
theorem wakeAll_ne (place : T → Place) (t : T) : wakeAll place t ≠ .asleep := by
  unfold wakeAll
  split
  next => nofun
  next h => exact h

/-- A thread that moves, and does not fall asleep while the condition holds. -/
theorem Alert.update (h : m.Alert s) {t : T} {p : Place}
    (hp : m.ready s.object = true → p ≠ .asleep) :
    m.Alert { s with place := Function.update s.place t p } := by
  intro hready u
  change Function.update s.place t p u ≠ .asleep
  rcases eq_or_ne u t with rfl | hne
  · rw [Function.update_self]
    exact hp hready
  · rw [Function.update_of_ne hne]
    exact h hready u

/-- A step after which the condition holds leaves no thread asleep. -/
theorem Alert.step (hm : m.Wakes) (h : m.Alert s) {e : Event T κ} (hnext : m.next s e = some s') :
    m.Alert s' := by
  cases e with
  | call t c =>
      simp only [next] at hnext
      split at hnext
      next => cases hnext
      next =>
        obtain rfl := Option.some.inj hnext
        intro hready u
        split
        next => exact wakeAll_ne s.place u
        next hquiet => exact h ((hm s.object t c hready).resolve_right hquiet) u
  | wait t timed =>
      simp only [next] at hnext
      split at hnext
      next => cases hnext
      next =>
        obtain rfl := Option.some.inj hnext
        exact h.update fun hready => by simp [hready]
  | rouse t timeout =>
      simp only [next] at hnext
      split at hnext
      next => exact Option.some.inj hnext ▸ h.update fun _ => nofun
      next => cases hnext
  | resume t =>
      simp only [next] at hnext
      split at hnext
      next =>
        obtain rfl := Option.some.inj hnext
        exact h.update fun hready => by simp [hready]
      next => cases hnext

/-- No thread sleeps while the condition holds, in any state reached. -/
theorem Alert.reachable (hm : m.Wakes) {o : σ} (h : (m.threads o).Reachable s) : m.Alert s :=
  h.invariant (fun _ _ => nofun) fun _ _ _ hs _ hnext => hs.step hm hnext

/-- Only a call changes the object. -/
theorem next_object {I : σ → Prop} (hcall : ∀ o t c, I o → I (m.call o t c).1)
    {e : Event T κ} (hnext : m.next s e = some s') (h : I s.object) : I s'.object := by
  cases e with
  | call t c =>
      simp only [next] at hnext
      split at hnext
      next => cases hnext
      next => exact Option.some.inj hnext ▸ hcall s.object t c h
  | wait t timed =>
      simp only [next] at hnext
      split at hnext
      next => cases hnext
      next => exact Option.some.inj hnext ▸ h
  | rouse t timeout =>
      simp only [next] at hnext
      split at hnext
      next => exact Option.some.inj hnext ▸ h
      next => cases hnext
  | resume t =>
      simp only [next] at hnext
      split at hnext
      next => exact Option.some.inj hnext ▸ h
      next => cases hnext

/-- An invariant of the calls holds of the object in every state reached. -/
theorem reachable_object {I : σ → Prop} {o : σ} (hstart : I o)
    (hcall : ∀ o t c, I o → I (m.call o t c).1) (h : (m.threads o).Reachable s) : I s.object :=
  h.invariant (I := fun s => I s.object) hstart fun _ _ _ hs _ hnext => next_object hcall hnext hs

/-- What the calls keep is kept. -/
theorem later_object {I : σ → Prop} {o : σ} (hcall : ∀ o t c, I o → I (m.call o t c).1)
    (hlater : (m.threads o).Later s s') (h : I s.object) : I s'.object :=
  hlater.invariant (I := fun s => I s.object) (fun _ _ _ hs hnext => next_object hcall hnext hs) h

/-- A thread returns from a wait with the condition as it is, and without it only from a poll
or when its time is over. -/
theorem wait_returns {e : Event T κ} (hnext : m.next s e = some s') {t : T} {result : Bool}
    (hbefore : s.place t ≠ .returned result) (hafter : s'.place t = .returned result) :
    result = m.ready s.object ∧
      (result = false → e = .wait t false ∨ s.place t = .woken true) := by
  have hat : ∀ {u : T} {p : Place}, Function.update s.place u p t = .returned result →
      u = t ∧ p = .returned result := by
    intro u p hu
    rcases eq_or_ne t u with rfl | hne
    · rw [Function.update_self] at hu
      exact ⟨rfl, hu⟩
    · rw [Function.update_of_ne hne] at hu
      exact absurd hu hbefore
  cases e with
  | call u c =>
      simp only [next] at hnext
      split at hnext
      next => cases hnext
      next =>
        obtain rfl := Option.some.inj hnext
        refine absurd ?_ hbefore
        cases hnotify : (m.call s.object u c).2 with
        | true => exact wakeAll_returned (by simpa only [hnotify, if_true] using hafter)
        | false => simpa only [hnotify, Bool.false_eq_true, if_false] using hafter
  | wait u timed =>
      simp only [next] at hnext
      split at hnext
      next => cases hnext
      next =>
        obtain rfl := Option.some.inj hnext
        obtain ⟨rfl, hp⟩ := hat hafter
        cases hready : m.ready s.object <;> cases timed <;> simp_all
  | rouse u timeout =>
      simp only [next] at hnext
      split at hnext
      next =>
        obtain rfl := Option.some.inj hnext
        cases (hat hafter).2
      next => cases hnext
  | resume u =>
      simp only [next] at hnext
      split at hnext
      next timeout hwoken =>
        obtain rfl := Option.some.inj hnext
        obtain ⟨rfl, hp⟩ := hat hafter
        cases hready : m.ready s.object <;> cases timeout <;> simp_all
      next => cases hnext

/-- A thread in a wait, while the condition holds, has been woken, and its next step returns
true. -/
theorem no_lost_wakeup (h : m.Alert s) (hready : m.ready s.object = true) {t : T}
    (ht : (s.place t).waits = true) :
    ∃ s', m.next s (.resume t) = some s' ∧ s'.place t = .returned true ∧
      s'.object = s.object := by
  cases hp : s.place t with
  | outside | returned => rw [hp] at ht; cases ht
  | asleep => exact absurd hp (h hready t)
  | woken timeout =>
      have hnext : m.next s (.resume t) =
          some { s with place := Function.update s.place t (.returned true) } := by
        simp only [next, hp, hready, if_true]
      exact ⟨_, hnext, Function.update_self .., rfl⟩

end Monitor

end RsIo
