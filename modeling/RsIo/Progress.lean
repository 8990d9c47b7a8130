import RsIo.Transition
import Mathlib.Order.WellFounded

/-!
# Runs that Make Progress

An endless run of a machine, and the rule that such a run comes to a goal. Each state that is
not yet the goal names an agent who is able to help. A step of this agent lowers a rank, a step
of anybody else lowers it or leaves the rank and the agent as they are. If the agents that could
help take a step sooner or later, the goal is reached, since a rank cannot be lowered for ever.

A thread that waits for a lock is able to act only now and then, so the fairness that is asked
for is the strong one: an agent who is able to act again and again acts.

## Main results

* `Machine.Run.invariant`: what a step keeps holds all along the run.
* `Machine.Run.reaches`: the progress rule.
* `Machine.Run.Fair.moves`: an agent who is able to act again and again, as long as he did not.
-/

universe u v w

namespace Machine

variable {σ : Type u} {ε : Type v}

/-- An endless run, from any state. -/
structure Run (m : Machine σ ε) where
  state : ℕ → σ
  event : ℕ → ε
  step : ∀ n, m.next (state n) (event n) = some (state (n + 1))

/-- The events of a list, and then one that goes on for ever. -/
def script (es : List ε) (e : ε) (n : ℕ) : ε :=
  es.getD n e

theorem script_add (es : List ε) (e : ε) (n : ℕ) : script es e (es.length + n) = e := by
  rw [script, List.getD_eq_getElem?_getD, List.getElem?_eq_none (Nat.le_add_right es.length n)]
  rfl

/-- What holds at the events of a list, and after them. -/
theorem forall_script {P : ℕ → Prop} {k : ℕ} (hfirst : ∀ n < k, P n) (hrest : ∀ n, P (k + n))
    (n : ℕ) : P n := by
  rcases Nat.lt_or_ge n k with hlt | hge
  · exact hfirst n hlt
  · obtain ⟨j, rfl⟩ := Nat.exists_eq_add_of_le hge
    exact hrest j

/-- The states on the way when the events happen one after the other, as far as they can. -/
def follow (m : Machine σ ε) (s : σ) (event : ℕ → ε) : ℕ → σ
  | 0 => s
  | n + 1 => (m.next (m.follow s event n) (event n)).getD (m.follow s event n)

/-- From some time on only one event happens, which is always possible. -/
theorem follow_idle {m : Machine σ ε} {s : σ} {event : ℕ → ε} {k : ℕ} {e : ε}
    (he : ∀ n, event (k + n) = e) {P : σ → Prop} (hk : P (m.follow s event k))
    (hidle : ∀ s, P s → ∃ s', P s' ∧ m.next s e = some s') (n : ℕ) :
    P (m.follow s event (k + n)) ∧ (m.next (m.follow s event (k + n)) (event (k + n))).isSome := by
  have hP : P (m.follow s event (k + n)) := by
    induction n with
    | zero => exact hk
    | succ n ih =>
        obtain ⟨s', hs', hnext⟩ := hidle _ ih
        rwa [← Nat.add_assoc, follow, he, hnext, Option.getD_some]
  obtain ⟨s', -, hnext⟩ := hidle _ hP
  refine ⟨hP, ?_⟩
  rw [he, hnext]
  rfl

/-- The agent is able to act. -/
def Enabled {A : Type*} (m : Machine σ ε) (acts : A → ε → Prop) (a : A) (s : σ) : Prop :=
  ∃ e, acts a e ∧ (m.next s e).isSome

namespace Run

/-- The run along events that can all happen. -/
def of (m : Machine σ ε) (s : σ) (event : ℕ → ε)
    (h : ∀ n, (m.next (m.follow s event n) (event n)).isSome) : m.Run where
  state := m.follow s event
  event := event
  step n := by
    obtain ⟨s', hs'⟩ := Option.isSome_iff_exists.mp (h n)
    rw [follow, hs', Option.getD_some]

variable {m : Machine σ ε} (r : m.Run)

/-- What a step keeps holds all along the run. -/
theorem invariant {I : σ → Prop} (hstep : ∀ s e s', I s → m.next s e = some s' → I s')
    (h : I (r.state 0)) (n : ℕ) : I (r.state n) := by
  induction n with
  | zero => exact h
  | succ n ih => exact hstep _ _ _ ih (r.step n)

/-- The run from some time on. -/
def drop (k : ℕ) : m.Run where
  state n := r.state (k + n)
  event n := r.event (k + n)
  step n := r.step (k + n)

/-- What each step leads to: the goal, or a lower rank, or nothing new, if somebody else than
the agent who could help took it. -/
def Advances {α : Type w} {A : Type*} (m : Machine σ ε) (lt : α → α → Prop) (I G : σ → Prop)
    (rank : σ → α) (helpful : σ → A) (acts : A → ε → Prop) : Prop :=
  ∀ s e s', I s → ¬ G s → m.next s e = some s' → G s' ∨ I s' ∧
    (lt (rank s') (rank s) ∨ rank s' = rank s ∧ helpful s' = helpful s ∧ ¬ acts (helpful s) e)

variable {α : Type w} {A : Type*} {lt : α → α → Prop} {I G : σ → Prop} {rank : σ → α}
  {helpful : σ → A} {acts : A → ε → Prop}

/-- Until the agent acts, the run comes to the goal, or to a lower rank, or nothing changes. -/
theorem waits (hstep : Advances m lt I G rank helpful acts) {n : ℕ} (hI : I (r.state n))
    (hG : ¬ G (r.state n)) (k : ℕ) :
    (∃ i, G (r.state i)) ∨ (∃ i, I (r.state i) ∧ lt (rank (r.state i)) (rank (r.state n))) ∨
      (I (r.state (n + k)) ∧ ¬ G (r.state (n + k)) ∧ rank (r.state (n + k)) = rank (r.state n) ∧
        helpful (r.state (n + k)) = helpful (r.state n) ∧
        ∀ j < k, ¬ acts (helpful (r.state n)) (r.event (n + j))) := by
  induction k with
  | zero => exact Or.inr (Or.inr ⟨hI, hG, rfl, rfl, by simp⟩)
  | succ k ih =>
      rcases ih with hgoal | hlow | ⟨hI', hG', hrank, hhelp, hquiet⟩
      · exact Or.inl hgoal
      · exact Or.inr (Or.inl hlow)
      rcases hstep _ _ _ hI' hG' (r.step (n + k)) with hgoal | ⟨hI'', hlow | hsame⟩
      · exact Or.inl ⟨_, hgoal⟩
      · exact Or.inr (Or.inl ⟨_, hI'', hrank ▸ hlow⟩)
      by_cases hgoal : G (r.state (n + (k + 1)))
      · exact Or.inl ⟨_, hgoal⟩
      obtain ⟨hrank', hhelp', hact⟩ := hsame
      refine Or.inr (Or.inr ⟨hI'', hgoal, hrank'.trans hrank, hhelp'.trans hhelp, ?_⟩)
      intro j hj
      rcases Nat.lt_succ_iff_lt_or_eq.mp hj with hlt | rfl
      · exact hquiet j hlt
      · rw [← hhelp]
        exact hact

/-- **The progress rule.** A run reaches the goal if every agent who could help takes a step
sooner or later. -/
theorem reaches (hwf : WellFounded lt) (hstep : Advances m lt I G rank helpful acts)
    (hfair : ∀ n, I (r.state n) → ¬ G (r.state n) →
      ∃ k, acts (helpful (r.state n)) (r.event (n + k)))
    (h : I (r.state 0)) : ∃ n, G (r.state n) := by
  have hall : ∀ a n, rank (r.state n) = a → I (r.state n) → ∃ i, G (r.state i) := by
    intro a
    induction a using hwf.induction with
    | _ a ih =>
      intro n hrank hI
      by_cases hG : G (r.state n)
      · exact ⟨n, hG⟩
      obtain ⟨k, hk⟩ := hfair n hI hG
      rcases r.waits hstep hI hG (k + 1) with hgoal | ⟨i, hI', hlow⟩ | ⟨-, -, -, -, hquiet⟩
      · exact hgoal
      · exact ih _ (hrank ▸ hlow) i rfl hI'
      · exact absurd hk (hquiet k k.lt_succ_self)
  exact hall _ 0 rfl h

/-! ### Fairness -/

/-- An agent who is able to act again and again acts. -/
def Fair (acts : A → ε → Prop) : Prop :=
  ∀ a n, (∀ i, n ≤ i → ∃ j, i ≤ j ∧ m.Enabled acts a (r.state j)) → ∃ k, acts a (r.event (n + k))

variable {r}

theorem Fair.drop (h : r.Fair acts) (k : ℕ) : (r.drop k).Fair acts := by
  intro a n hready
  obtain ⟨j, hj⟩ := h a (k + n) fun i hi => by
    obtain ⟨i, rfl⟩ := Nat.exists_eq_add_of_le (Nat.le_of_add_right_le hi)
    obtain ⟨j, hij, hj⟩ := hready i (Nat.le_of_add_le_add_left hi)
    exact ⟨k + j, Nat.add_le_add_left hij k, hj⟩
  exact ⟨j, by rwa [Nat.add_assoc] at hj⟩

/-- A run that comes to its end is fair. -/
theorem fair_of_idle {k : ℕ} (h : ∀ n a, ¬ m.Enabled acts a (r.state (k + n))) : r.Fair acts := by
  intro a n hready
  obtain ⟨j, hj, henabled⟩ := hready (n + k) (Nat.le_add_right n k)
  obtain ⟨i, rfl⟩ := Nat.exists_eq_add_of_le ((Nat.le_add_left k n).trans hj)
  exact absurd henabled (h i a)

/-- An agent acts who is able to do so again and again, as long as he does nothing. What others
do keeps the property `P`. -/
theorem Fair.moves (h : r.Fair acts) {a : A} {n : ℕ} {P : σ → Prop} (hP : P (r.state n))
    (hkeep : ∀ i, P (r.state i) → ¬ acts a (r.event i) → P (r.state (i + 1)))
    (hready : ∀ i, n ≤ i → ∃ j, i ≤ j ∧ (P (r.state j) → m.Enabled acts a (r.state j))) :
    ∃ k, acts a (r.event (n + k)) := by
  by_contra hnever
  rw [not_exists] at hnever
  have hall : ∀ k, P (r.state (n + k)) := by
    intro k
    induction k with
    | zero => exact hP
    | succ k ih => exact hkeep _ ih (hnever k)
  refine absurd (h a n fun i hi => ?_) (not_exists.mpr hnever)
  obtain ⟨j, hij, hj⟩ := hready i hi
  obtain ⟨k, rfl⟩ := Nat.exists_eq_add_of_le (hi.trans hij)
  exact ⟨n + k, hij, hj (hall k)⟩

end Run

end Machine
