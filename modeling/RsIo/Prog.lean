import Mathlib.Tactic.Common

/-!
# Programs with a State

A `Prog` changes a state, and returns a value or throws an error. It may also fail to
return: it is then `none`, as a recursion that runs out of fuel is.

`Ensures m s Q` says what holds of the result and of the state after `m`, if it returns or
throws at all, and `Halts m s` says that it does. Their rules follow the program.

## Main results

* `Prog.Ensures.bind`: the rule for two programs, one after the other.
* `Prog.Ensures.forM`, `Prog.Ensures.forM_map`: the rule for a loop over a list, with an
  invariant.
* `Prog.Halts.bind`, `Prog.Halts.forM_map`: the rules for termination.
* `Prog.runEach_eq`: programs that simulate functions, called in any order.
-/

universe u

/-- A program with states `σ`, errors `ε` and results `α`. -/
def Prog (ε σ α : Type u) : Type u :=
  σ → Option (Except ε α × σ)

namespace Prog

variable {ε σ α β : Type u}

/-- Returns a value. -/
def ret (a : α) : Prog ε σ α := fun s => some (.ok a, s)

/-- Runs `m`, and then `f` on its result, unless `m` throws. -/
def andThen (m : Prog ε σ α) (f : α → Prog ε σ β) : Prog ε σ β := fun s =>
  match m s with
  | none => none
  | some (.error e, s') => some (.error e, s')
  | some (.ok a, s') => f a s'

/-- A program stops at the first error, and at the first call that does not return. -/
instance : Monad (Prog ε σ) where
  pure := ret
  bind := andThen

/-- Throws an error. -/
def throw (e : ε) : Prog ε σ α := fun s => some (.error e, s)

/-- Does not return. -/
def diverge : Prog ε σ α := fun _ => none

/-- The state. -/
def get : Prog ε σ σ := fun s => some (.ok s, s)

/-- The value `f` has in the state, and the state it leaves. -/
def step (f : σ → α × σ) : Prog ε σ α := fun s => some (.ok (f s).1, (f s).2)

/-- Runs `m`, and `handler` if it throws. -/
def tryCatch (m : Prog ε σ α) (handler : ε → Prog ε σ α) : Prog ε σ α := fun s =>
  match m s with
  | some (.error e, s') => handler e s'
  | r => r

/-- A program goes on with the value of its first part. -/
theorem bind_of_ok {m : Prog ε σ α} {f : α → Prog ε σ β} {s s' : σ} {a : α}
    (h : m s = some (.ok a, s')) : (m >>= f) s = f a s' := by
  change andThen m f s = f a s'
  rw [andThen, h]

/-- A program ends with the error of its first part. -/
theorem bind_of_error {m : Prog ε σ α} {f : α → Prog ε σ β} {s s' : σ} {e : ε}
    (h : m s = some (.error e, s')) : (m >>= f) s = some (.error e, s') := by
  change andThen m f s = some (.error e, s')
  rw [andThen, h]

/-- The state is read. -/
theorem get_bind {f : σ → Prog ε σ β} (s : σ) : (get >>= f) s = f s s := rfl

/-- A step is made. -/
theorem step_bind {f : σ → α × σ} {g : α → Prog ε σ β} (s : σ) :
    (step f >>= g) s = g (f s).1 (f s).2 := rfl

/-- What holds after a program that returns or throws. -/
def Ensures (m : Prog ε σ α) (s : σ) (Q : Except ε α → σ → Prop) : Prop :=
  ∀ r s', m s = some (r, s') → Q r s'

/-- The rest of a program, which is left out after an error. -/
def After (f : α → Prog ε σ β) (Q : Except ε β → σ → Prop) : Except ε α → σ → Prop
  | .ok a, s => (f a).Ensures s Q
  | .error e, s => Q (.error e) s

namespace Ensures

variable {s : σ} {Q R : Except ε α → σ → Prop}

/-- Less may be ensured. -/
theorem mono {m : Prog ε σ α} (h : m.Ensures s R) (hQ : ∀ r s', R r s' → Q r s') :
    m.Ensures s Q := fun r s' hr => hQ r s' (h r s' hr)

/-- Two things are ensured if each one is. -/
theorem and {m : Prog ε σ α} (h : m.Ensures s Q) (h' : m.Ensures s R) :
    m.Ensures s fun r s' => Q r s' ∧ R r s' := fun r s' hr => ⟨h r s' hr, h' r s' hr⟩

/-- A program that returns a value. -/
theorem ret {a : α} (h : Q (.ok a) s) : (Pure.pure a : Prog ε σ α).Ensures s Q := by
  intro r s' hr
  obtain ⟨rfl, rfl⟩ := Prod.mk.inj (Option.some.inj hr)
  exact h

/-- A program that throws. -/
theorem throw {e : ε} (h : Q (.error e) s) : (Prog.throw e : Prog ε σ α).Ensures s Q := by
  intro r s' hr
  obtain ⟨rfl, rfl⟩ := Prod.mk.inj (Option.some.inj hr)
  exact h

/-- A program that does not return ensures anything. -/
theorem diverge : (Prog.diverge : Prog ε σ α).Ensures s Q := fun _ _ hr => by cases hr

/-- A program that reads the state. -/
theorem get {Q : Except ε σ → σ → Prop} (h : Q (.ok s) s) :
    (Prog.get : Prog ε σ σ).Ensures s Q := by
  intro r s' hr
  obtain ⟨rfl, rfl⟩ := Prod.mk.inj (Option.some.inj hr)
  exact h

/-- A program of one step. -/
theorem step {f : σ → α × σ} (h : Q (.ok (f s).1) (f s).2) :
    (Prog.step f : Prog ε σ α).Ensures s Q := by
  intro r s' hr
  obtain ⟨rfl, rfl⟩ := Prod.mk.inj (Option.some.inj hr)
  exact h

/-- One program after another. -/
theorem bind {m : Prog ε σ α} {f : α → Prog ε σ β} {Q : Except ε β → σ → Prop}
    (h : m.Ensures s (After f Q)) : (m >>= f).Ensures s Q := by
  intro r s' hr
  change (match m s with
    | none => none
    | some (.error e, s') => some (.error e, s')
    | some (.ok a, s') => f a s') = some (r, s') at hr
  cases hm : m s with
  | none =>
      rw [hm] at hr
      cases hr
  | some rs =>
      obtain ⟨r₁, s₁⟩ := rs
      have hafter := h r₁ s₁ hm
      rw [hm] at hr
      cases r₁ with
      | error e =>
          obtain ⟨rfl, rfl⟩ := Prod.mk.inj (Option.some.inj hr)
          exact hafter
      | ok a => exact hafter r s' hr

/-- A program that reads the state first. -/
theorem get_bind {f : σ → Prog ε σ β} {Q : Except ε β → σ → Prop} (h : (f s).Ensures s Q) :
    (Prog.get >>= f).Ensures s Q := bind (get h)

/-- A program after one whose run is known. -/
theorem bind_run {m : Prog ε σ α} {f : α → Prog ε σ β} {Q : Except ε β → σ → Prop} {a : α}
    {s' : σ} (h : m s = some (.ok a, s')) (hf : (f a).Ensures s' Q) : (m >>= f).Ensures s Q := by
  intro r s'' hr
  rw [bind_of_ok h] at hr
  exact hf r s'' hr

/-- Both branches ensure it. -/
theorem ite {c : Prop} [Decidable c] {m m' : Prog ε σ α} (h : c → m.Ensures s Q)
    (h' : ¬ c → m'.Ensures s Q) : (if c then m else m').Ensures s Q := by
  split
  next hc => exact h hc
  next hc => exact h' hc

/-- The handler ensures it for an error, and the program otherwise. -/
theorem tryCatch {m : Prog ε σ α} {handler : ε → Prog ε σ α}
    (h : m.Ensures s fun r s' =>
      match r with
      | .ok a => Q (.ok a) s'
      | .error e => (handler e).Ensures s' Q) : (Prog.tryCatch m handler).Ensures s Q := by
  intro r s' hr
  unfold Prog.tryCatch at hr
  split at hr
  next e s₁ hm => exact h _ _ hm r s' hr
  next hm =>
    have hq := h r s' hr
    cases r with
    | ok a => exact hq
    | error e => exact absurd hr (hm e s')

/-- A loop keeps what each of its rounds keeps. `I` may look at the elements that have been
handled. An error leaves the loop. -/
theorem forM {f : α → Prog ε σ PUnit} {Q : Except ε PUnit → σ → Prop}
    (I : List α → σ → Prop) (l : List α) (hI : I [] s)
    (hround : ∀ done a rest s, l = done ++ a :: rest → I done s →
      (f a).Ensures s (fun r s' => match r with
        | .ok _ => I (done ++ [a]) s'
        | .error e => Q (.error e) s'))
    (hend : ∀ s, I l s → Q (.ok ⟨⟩) s) : (l.forM f).Ensures s Q := by
  have hrest : ∀ rest done s, l = done ++ rest → I done s → (rest.forM f).Ensures s Q := by
    intro rest
    induction rest with
    | nil =>
        intro done s hl hdone
        rw [List.append_nil] at hl
        exact ret (hend s (hl ▸ hdone))
    | cons a rest ih =>
        intro done s hl hdone
        change (f a >>= fun _ => rest.forM f).Ensures s Q
        refine bind ((hround done a rest s hl hdone).mono fun r s' hr => ?_)
        cases r with
        | ok u => exact ih (done ++ [a]) s' (by simp [hl]) hr
        | error e => exact hr
  exact hrest l [] s rfl hI

/-- The rule for a loop over the images of a list. -/
theorem forM_map {ι : Type u} {g : ι → α} {f : α → Prog ε σ PUnit}
    {Q : Except ε PUnit → σ → Prop} (I : List ι → σ → Prop) (l : List ι) (hI : I [] s)
    (hround : ∀ done a rest s, l = done ++ a :: rest → I done s →
      (f (g a)).Ensures s (fun r s' => match r with
        | .ok _ => I (done ++ [a]) s'
        | .error e => Q (.error e) s'))
    (hend : ∀ s, I l s → Q (.ok ⟨⟩) s) : ((l.map g).forM f).Ensures s Q := by
  refine forM (fun done s => ∃ done₀, done₀.map g = done ∧ done₀ <+: l ∧ I done₀ s) (l.map g)
    ⟨[], rfl, List.nil_prefix, hI⟩ ?_ ?_
  · rintro done b rest s hsplit ⟨done₀, rfl, ⟨rest₀, rfl⟩, hdone⟩
    rw [List.map_append] at hsplit
    have hrest := List.append_cancel_left hsplit
    obtain ⟨a, rest₁, rfl, rfl, -⟩ := List.map_eq_cons_iff.mp hrest
    refine (hround done₀ a rest₁ s rfl hdone).mono fun r s' hr => ?_
    cases r with
    | ok u => exact ⟨done₀ ++ [a], by simp, ⟨rest₁, by simp⟩, hr⟩
    | error e => exact hr
  · rintro s ⟨done₀, hmap, hprefix, hdone⟩
    have hlen := congrArg List.length hmap
    rw [List.length_map, List.length_map] at hlen
    exact hend s ( hprefix.eq_of_length hlen ▸ hdone)

end Ensures

/-- The program returns or throws. -/
def Halts (m : Prog ε σ α) (s : σ) : Prop :=
  ∃ r s', m s = some (r, s')

namespace Halts

variable {s : σ}

/-- A value is returned. -/
theorem ret {a : α} : (Pure.pure a : Prog ε σ α).Halts s := ⟨_, _, rfl⟩

/-- An error is thrown. -/
theorem throw {e : ε} : (Prog.throw e : Prog ε σ α).Halts s := ⟨_, _, rfl⟩

/-- A step comes to an end. -/
theorem step {f : σ → α × σ} : (Prog.step f : Prog ε σ α).Halts s := ⟨_, _, rfl⟩

/-- Reading the state comes to an end. -/
theorem get_bind {f : σ → Prog ε σ β} (h : (f s).Halts s) : (Prog.get >>= f).Halts s := h

/-- One program after another. -/
theorem bind {m : Prog ε σ α} {f : α → Prog ε σ β} (h : m.Halts s)
    (hf : m.Ensures s fun r s' => ∀ a, r = .ok a → (f a).Halts s') : (m >>= f).Halts s := by
  obtain ⟨r, s', hm⟩ := h
  cases r with
  | error e => exact ⟨_, _, bind_of_error hm⟩
  | ok a =>
      rw [Halts, bind_of_ok hm]
      exact hf _ _ hm a rfl

/-- One program after another that halts whatever came before it. -/
theorem bind_of_forall {m : Prog ε σ α} {f : α → Prog ε σ β} (h : m.Halts s)
    (hf : ∀ a s', (f a).Halts s') : (m >>= f).Halts s :=
  bind h fun _ s' _ a _ => hf a s'

/-- Both branches come to an end. -/
theorem ite {c : Prop} [Decidable c] {m m' : Prog ε σ α} (h : c → m.Halts s)
    (h' : ¬ c → m'.Halts s) : (if c then m else m').Halts s := by
  split
  next hc => exact h hc
  next hc => exact h' hc

/-- The program and its handler come to an end. -/
theorem tryCatch {m : Prog ε σ α} {handler : ε → Prog ε σ α} (h : m.Halts s)
    (hh : ∀ e s', (handler e).Halts s') : (Prog.tryCatch m handler).Halts s := by
  obtain ⟨r, s', hm⟩ := h
  cases r with
  | error e =>
      rw [Halts, Prog.tryCatch, hm]
      exact hh e s'
  | ok a => exact ⟨.ok a, s', by rw [Prog.tryCatch, hm]⟩

/-- A loop halts if each of its rounds does and keeps the invariant. -/
theorem forM_map {ι : Type u} {g : ι → α} {f : α → Prog ε σ PUnit} (I : List ι → σ → Prop)
    (l : List ι) (hI : I [] s)
    (hround : ∀ done a rest s, l = done ++ a :: rest → I done s →
      (f (g a)).Halts s ∧
        (f (g a)).Ensures s fun r s' => ∀ u, r = .ok u → I (done ++ [a]) s') :
    ((l.map g).forM f).Halts s := by
  have hrest : ∀ rest done s, l = done ++ rest → I done s → ((rest.map g).forM f).Halts s := by
    intro rest
    induction rest with
    | nil => exact fun _ _ _ _ => ret
    | cons a rest ih =>
        intro done s hl hdone
        obtain ⟨hhalts, hnext⟩ := hround done a rest s hl hdone
        change (f (g a) >>= fun _ => (rest.map g).forM f).Halts s
        exact bind hhalts (hnext.mono fun r s' hr u hu =>
          ih (done ++ [a]) s' (by simp [hl]) (hr u hu))
  exact hrest l [] s rfl hI

end Halts

/-! ### Programs that are called one after another -/

/-- Runs one program after another, whether they throw or not, and collects the results. -/
def runEach {ι : Type u} (f : ι → Prog ε σ α) : List ι → σ → Option (List (Except ε α) × σ)
  | [], s => some ([], s)
  | i :: is, s =>
      (f i s).bind fun x => (runEach f is x.2).map fun y => (x.1 :: y.1, y.2)

/-- The results of functions that are called one after another. -/
def answers {ι τ : Type u} (g : ι → τ → Except ε α × τ) : List ι → τ → List (Except ε α) × τ
  | [], a => ([], a)
  | i :: is, a => ((g i a).1 :: (answers g is (g i a).2).1, (answers g is (g i a).2).2)

/-- If each program does what a function does on the states that `R` relates, they have the same
results, in whichever order they are called. -/
theorem runEach_eq {ι τ : Type u} {f : ι → Prog ε σ α} {g : ι → τ → Except ε α × τ}
    {R : σ → τ → Prop}
    (hstep : ∀ i s a, R s a → ∃ s', f i s = some ((g i a).1, s') ∧ R s' (g i a).2) :
    ∀ (is : List ι) {s : σ} {a : τ}, R s a →
      ∃ s', runEach f is s = some ((answers g is a).1, s') ∧ R s' (answers g is a).2
  | [], s, a, h => ⟨s, rfl, h⟩
  | i :: is, s, a, h => by
      obtain ⟨s₁, hone, hR⟩ := hstep i s a h
      obtain ⟨s', hrest, hR'⟩ := runEach_eq hstep is hR
      refine ⟨s', ?_, hR'⟩
      rw [runEach, hone, Option.bind_some, hrest, Option.map_some]
      rfl

end Prog
