import Mathlib.Algebra.BigOperators.Group.Finset.Basic
import Mathlib.Logic.Relation
import Mathlib.Logic.Function.Basic
import Mathlib.Data.Fintype.Basic

/-!
# Machines, Runs and Ownership

A `Machine` is a start state and a partial function from a state and an event to the
next state. Nondeterminism is in the choice of the events. `Reach ok s` says that `s` is
reached by steps that all satisfy `ok`, so a statement about every run is one about
`Reach` with the condition that is always true.

The second half is about threads that hold locks. `Owned sec lock` says that the two
descriptions of who holds what agree: `sec`, which gives the section each thread is in,
and `lock`, which gives the holder of each lock.

## Main results

* `Machine.Reach.invariant`: what holds at the start and is kept by a step holds of
  every state reached.
* `Machine.Later.invariant`: what is kept by a step holds of every state that comes later.
* `Machine.Reach.refines`: a map that takes every step to a step of a relation takes
  every state reached to one reached in the relation.
* `Owned.acquire`, `Owned.advance`, `Owned.release`: how the phases of the locks change
  when one thread moves.
-/

universe u v w

/-- A state machine with one start state and a partial step function. -/
structure Machine (σ : Type u) (ε : Type v) where
  start : σ
  next : σ → ε → Option σ

namespace Machine

variable {σ : Type u} {ε : Type v} {τ : Type w}

/-- A step that needs `p`, and was taken. -/
theorem of_guard {p : Prop} [Decidable p] {s s' : σ}
    (h : (if p then some s else none) = some s') : p ∧ s = s' := by
  rwa [Option.ite_none_right_eq_some, Option.some.injEq] at h

/-- The states reached by steps that satisfy `ok`. -/
inductive Reach (m : Machine σ ε) (ok : σ → ε → Prop) : σ → Prop
  | start : Reach m ok m.start
  | step {s s' : σ} {e : ε} : Reach m ok s → ok s e → m.next s e = some s' → Reach m ok s'

/-- The states reached by any steps. -/
abbrev Reachable (m : Machine σ ε) : σ → Prop :=
  m.Reach fun _ _ => True

variable {m : Machine σ ε} {ok : σ → ε → Prop}

/-- The invariant rule. -/
theorem Reach.invariant {I : σ → Prop} (hstart : I m.start)
    (hstep : ∀ s e s', I s → ok s e → m.next s e = some s' → I s') :
    ∀ {s : σ}, m.Reach ok s → I s := by
  intro s h
  induction h with
  | start => exact hstart
  | step _ hok hnext ih => exact hstep _ _ _ ih hok hnext

/-- The simulation rule: `abs` takes the states that satisfy the invariant `I` to states
of the relation `R`, one step to one step. -/
theorem Reach.refines {I : σ → Prop} {R : τ → τ → Prop} {abs : σ → τ} (hstart : I m.start)
    (hstep : ∀ s e s', I s → ok s e → m.next s e = some s' → I s' ∧ R (abs s) (abs s'))
    {s : σ} (h : m.Reach ok s) :
    I s ∧ Relation.ReflTransGen R (abs m.start) (abs s) := by
  refine Reach.invariant (I := fun s => I s ∧ Relation.ReflTransGen R (abs m.start) (abs s))
    ⟨hstart, .refl⟩ ?_ h
  rintro s e s' ⟨hI, hR⟩ hok hnext
  obtain ⟨hI', hone⟩ := hstep s e s' hI hok hnext
  exact ⟨hI', hR.tail hone⟩

/-- `s'` is `s`, or comes after it in a run. -/
abbrev Later (m : Machine σ ε) : σ → σ → Prop :=
  Relation.ReflTransGen fun s s' => ∃ e, m.next s e = some s'

/-- What comes after a state that is reached is reached. -/
theorem Reach.later {s s' : σ} (h : m.Reachable s) (hl : m.Later s s') : m.Reachable s' := by
  induction hl with
  | refl => exact h
  | tail _ hnext ih =>
    obtain ⟨e, he⟩ := hnext
    exact ih.step trivial he

/-- What a step keeps still holds later. -/
theorem Later.invariant {I : σ → Prop} (hstep : ∀ s e s', I s → m.next s e = some s' → I s')
    {s s' : σ} (hl : m.Later s s') (h : I s) : I s' := by
  induction hl with
  | refl => exact h
  | tail _ hnext ih =>
    obtain ⟨e, he⟩ := hnext
    exact hstep _ e _ ih he

/-- Runs a list of events, stopping with `none` at one that cannot happen or that `ok`
does not allow. -/
def replay (m : Machine σ ε) (ok : σ → ε → Prop) [∀ s e, Decidable (ok s e)] :
    σ → List ε → Option σ
  | s, [] => some s
  | s, e :: es => if ok s e then (m.next s e).bind fun s' => replay m ok s' es else none

/-- A replayed list of events is a run. -/
theorem Reach.of_replay [∀ s e, Decidable (ok s e)] :
    ∀ (es : List ε) {s s' : σ}, m.Reach ok s → m.replay ok s es = some s' → m.Reach ok s'
  | [], s, s', h, hr => by
      simp only [replay, Option.some.injEq] at hr
      exact hr ▸ h
  | e :: es, s, s', h, hr => by
      simp only [replay] at hr
      split at hr
      next hok =>
        obtain ⟨s₁, hs₁, hrest⟩ := Option.bind_eq_some_iff.mp hr
        exact of_replay es (h.step hok hs₁) hrest
      next => cases hr

end Machine

/-! ### Sums in which one term changes -/

section Sums

variable {ι : Type u} {α : Type w} {M : Type v} [Fintype ι] [DecidableEq ι] [AddCommMonoid M]
  (g : α → M) {f : ι → α} {i : ι} {x : α} {d : M}

/-- A term that grows by `d` makes the sum grow by `d`. -/
theorem sum_update_gain (h : g x = g (f i) + d) :
    ∑ k, g (Function.update f i x k) = ∑ k, g (f k) + d := by
  have hrest : ∑ k ∈ Finset.univ.erase i, g (Function.update f i x k) =
      ∑ k ∈ Finset.univ.erase i, g (f k) :=
    Finset.sum_congr rfl fun k hk => by
      rw [Function.update_of_ne (Finset.ne_of_mem_erase hk)]
  rw [← Finset.add_sum_erase _ _ (Finset.mem_univ i), hrest, Function.update_self, h,
    add_right_comm, Finset.add_sum_erase _ (fun k => g (f k)) (Finset.mem_univ i)]

/-- A term that shrinks by `d` makes the sum shrink by `d`. -/
theorem sum_update_lose (h : g (f i) = g x + d) :
    ∑ k, g (Function.update f i x k) + d = ∑ k, g (f k) := by
  have hback := sum_update_gain g (f := Function.update f i x) (i := i) (x := f i) (d := d)
    (by rw [h, Function.update_self])
  rw [Function.update_idem, Function.update_eq_self] at hback
  exact hback.symm

/-- A term that keeps its value keeps the sum. -/
theorem sum_update_same (h : g x = g (f i)) :
    ∑ k, g (Function.update f i x k) = ∑ k, g (f k) := by
  rw [sum_update_gain g (d := 0) (by rw [h, add_zero]), add_zero]

end Sums

/-! ### Threads and the locks they hold -/

/-- `sec t` is the lock thread `t` holds, with the phase of the section it is in, and
`lock w` is the thread that holds `w`. The two agree. -/
def Owned {T : Type u} {W : Type v} {P : Type w} (sec : T → Option (W × P))
    (lock : W → Option T) : Prop :=
  ∀ t w, (∃ p, sec t = some (w, p)) ↔ lock w = some t

/-- The phase of the section that holds the lock `w`. -/
def lockPhase {T : Type u} {W : Type v} {P : Type w} (sec : T → Option (W × P))
    (lock : W → Option T) (i : W) : Option P :=
  (lock i).bind fun t => (sec t).map Prod.snd

namespace Owned

variable {T : Type u} {W : Type v} {P : Type w} {sec : T → Option (W × P)}
  {lock : W → Option T} {t : T} {i : W} {p : P}

/-- The phase of a lock that a thread holds is the phase that thread is in. -/
theorem lockPhase_eq (h : Owned sec lock) (ht : sec t = some (i, p)) :
    lockPhase sec lock i = some p := by
  have hlock : lock i = some t := (h t i).mp ⟨p, ht⟩
  simp [lockPhase, hlock, ht]

/-- A lock that is not held has no phase. -/
theorem lockPhase_none (hlock : lock i = none) : lockPhase sec lock i = none := by
  simp [lockPhase, hlock]

/-- Two threads do not hold one lock. -/
theorem other (h : Owned sec lock) (ht : sec t = some (i, p)) {u : T} (hu : lock i = some u) :
    u = t := by
  have hlock : lock i = some t := (h t i).mp ⟨p, ht⟩
  exact (Option.some.inj (hlock.symm.trans hu)).symm

variable [DecidableEq T]

/-- The phase of a lock that `t` does not hold does not depend on what `t` does. -/
theorem lockPhase_update (x : Option (W × P)) {k : W} (hk : lock k ≠ some t) :
    lockPhase (Function.update sec t x) lock k = lockPhase sec lock k := by
  unfold lockPhase
  cases hlock : lock k with
  | none => rfl
  | some u =>
    have hne : u ≠ t := fun e => hk (e ▸ hlock)
    simp [Function.update_of_ne hne]

variable [DecidableEq W]

/-- A thread outside every section takes a free lock. -/
theorem acquire (h : Owned sec lock) (ht : sec t = none) (hi : lock i = none) :
    Owned (Function.update sec t (some (i, p))) (Function.update lock i (some t)) ∧
      lockPhase (Function.update sec t (some (i, p))) (Function.update lock i (some t)) =
        Function.update (lockPhase sec lock) i (some p) := by
  constructor
  · intro u k
    rcases eq_or_ne u t with rfl | hu <;> rcases eq_or_ne k i with rfl | hk
    · simp
    · have hfree : lock k ≠ some u := fun hlock => by
        obtain ⟨q, hq⟩ := (h u k).mpr hlock
        rw [ht] at hq
        cases hq
      simp [hk, hk.symm, hfree]
    · have hfree : ¬ ∃ q, sec u = some (k, q) := fun hq => by
        have hlock := (h u k).mp hq
        rw [hi] at hlock
        cases hlock
      simpa [hu, hu.symm] using hfree
    · simpa [hu, hk] using h u k
  · funext k
    rcases eq_or_ne k i with rfl | hk
    · simp [lockPhase]
    · have hfree : lock k ≠ some t := fun hlock => by
        obtain ⟨q, hq⟩ := (h t k).mpr hlock
        rw [ht] at hq
        cases hq
      have hkeep : lockPhase (Function.update sec t (some (i, p))) lock k = lockPhase sec lock k :=
        lockPhase_update _ hfree
      simpa [lockPhase, Function.update_of_ne hk] using hkeep

/-- A thread moves on within its section. -/
theorem advance (h : Owned sec lock) (ht : sec t = some (i, p)) (q : P) :
    Owned (Function.update sec t (some (i, q))) lock ∧
      lockPhase (Function.update sec t (some (i, q))) lock =
        Function.update (lockPhase sec lock) i (some q) := by
  have hlock : lock i = some t := (h t i).mp ⟨p, ht⟩
  constructor
  · intro u k
    rcases eq_or_ne u t with rfl | hu
    · rw [← h u k]
      simp [ht]
    · simpa [hu] using h u k
  · funext k
    rcases eq_or_ne k i with rfl | hk
    · simp [lockPhase, hlock]
    · rw [Function.update_of_ne hk]
      refine lockPhase_update _ fun hlock' => hk ?_
      obtain ⟨r, hr⟩ := (h t k).mpr hlock'
      rw [ht] at hr
      exact ((Prod.mk.inj (Option.some.inj hr)).1).symm

/-- A thread leaves its section. -/
theorem release (h : Owned sec lock) (ht : sec t = some (i, p)) :
    Owned (Function.update sec t none) (Function.update lock i none) ∧
      lockPhase (Function.update sec t none) (Function.update lock i none) =
        Function.update (lockPhase sec lock) i none := by
  have hlock : lock i = some t := (h t i).mp ⟨p, ht⟩
  have honly : ∀ k, k ≠ i → lock k ≠ some t := by
    intro k hk hlock'
    obtain ⟨r, hr⟩ := (h t k).mpr hlock'
    rw [ht] at hr
    exact hk ((Prod.mk.inj (Option.some.inj hr)).1).symm
  constructor
  · intro u k
    rcases eq_or_ne u t with rfl | hu <;> rcases eq_or_ne k i with rfl | hk
    · simp
    · simpa [hk] using honly k hk
    · have hnot : ¬ ∃ q, sec u = some (k, q) := fun hq =>
        hu (h.other ht ((h u k).mp hq))
      simpa [hu] using hnot
    · simpa [hu, hk] using h u k
  · funext k
    rcases eq_or_ne k i with rfl | hk
    · simp [lockPhase]
    · have hkeep : lockPhase (Function.update sec t none) lock k = lockPhase sec lock k :=
        lockPhase_update _ (honly k hk)
      simpa [lockPhase, Function.update_of_ne hk] using hkeep

end Owned
