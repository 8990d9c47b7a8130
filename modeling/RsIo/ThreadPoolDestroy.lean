import RsIo.ThreadPoolStop

/-!
# The Destructor of a Thread Pool Returns

What is left to do in `~ThreadPool`: the steps of the destructor, and, while it waits for the
counter, the jobs. A job that is inserted counts more than one that is queued, and this more
than one that a worker has. After `clear()` has begun no job is inserted but those whose call
is past the check.

The worker that helps is one that has a job, or one whose own queue is not empty: it looks there
first, so the random index of the others does not matter.

## Main results

* `busy_next`: a step of anybody else than the destructor leaves less to do, or changes nothing.
* `destroy_returns`: the destructor returns. The workers have stopped, and every job that was
  accepted has run or is discarded.
-/

namespace RsIo

namespace ThreadPool

variable {C : Type} {n : ℕ}

/-! ### What is left to do -/

/-- What a caller in `insert` has to do, if it is past the check. -/
def CallerPc.inserting : CallerPc n → ℕ
  | .insertIndex => 9
  | .insertNext _ => 8
  | .insertLock _ => 7
  | .insertCount _ => 6
  | .insertPush _ => 5
  | _ => 0

/-- What a worker that has a job has to do. -/
def WorkerPc.handling : WorkerPc n → ℕ
  | .popped _ => 3
  | .calling _ => 2
  | .called _ => 1
  | _ => 0

/-- How far a worker is from a look into its own queue. -/
def WorkerPc.toPop : WorkerPc n → ℕ
  | .steal => 6
  | .stealLock _ => 5
  | .stealLocked _ => 4
  | .check => 3
  | .fetch => 2
  | .fetchLocked => 1
  | _ => 0

/-- How far a worker is from its end, when there is nothing to do. -/
def WorkerPc.toStop : WorkerPc n → ℕ
  | .fetch => 6
  | .fetchLocked => 5
  | .steal => 4
  | .stealLock _ => 3
  | .stealLocked _ => 2
  | .check => 1
  | _ => 0

/-- The jobs that are inserted, queued and handled, and the counter. -/
structure Busy (C : Type) (n : ℕ) where
  inserting : C → ℕ
  queue : Fin n → List ℕ
  handling : Fin n → ℕ
  unfinished : ℤ

/-- What is left to do. -/
def Busy.work [Fintype C] (b : Busy C n) : ℕ :=
  ∑ d, b.inserting d + ∑ w, 4 * (b.queue w).length + ∑ w, b.handling w

/-- What has still to be done. -/
def State.busy (s : State C n) : Busy C n where
  inserting d := (s.caller d).inserting
  queue := s.queue
  handling w := (s.thread w).handling
  unfinished := s.unfinishedJobs

open Classical in
/-- A thread that is able to do some of it, or else `c`. -/
noncomputable def Busy.helper (c : C) (b : Busy C n) : Thread C n :=
  if h : ∃ d, b.inserting d ≠ 0 then
    .caller h.choose
  else if h : ∃ w, b.handling w ≠ 0 then
    .worker h.choose
  else if h : ∃ w, b.queue w ≠ [] then
    .worker h.choose
  else
    .caller c

/-- Somebody inserts a job, or a worker has one, or else it is the destructor's turn. -/
theorem Busy.helper_cases (c : C) (b : Busy C n) :
    (∃ d, b.helper c = .caller d ∧ b.inserting d ≠ 0) ∨
    (∃ w, b.helper c = .worker w ∧ (b.handling w ≠ 0 ∨ b.queue w ≠ [])) ∨
    b.helper c = .caller c ∧ (∀ d, b.inserting d = 0) ∧ (∀ w, b.handling w = 0) ∧
      ∀ w, b.queue w = [] := by
  unfold helper
  split_ifs with hinsert hhandle hqueue
  · exact .inl ⟨_, rfl, hinsert.choose_spec⟩
  · exact .inr (.inl ⟨_, rfl, .inl hhandle.choose_spec⟩)
  · exact .inr (.inl ⟨_, rfl, .inr hqueue.choose_spec⟩)
  · push Not at hinsert hhandle hqueue
    exact .inr (.inr ⟨rfl, hinsert, hhandle, hqueue⟩)

section

variable [DecidableEq C] {s s' : State C n}

/-- A caller moves on and does nothing else. -/
theorem busy_caller {d : C} {p : CallerPc n} (hcaller : s'.caller = Function.update s.caller d p)
    (hthread : s'.thread = s.thread) (hqueue : s'.queue = s.queue)
    (hcount : s'.unfinishedJobs = s.unfinishedJobs)
    (hp : p.inserting = (s.caller d).inserting) : s'.busy = s.busy := by
  have hinsert : (fun v => (s'.caller v).inserting) = fun v => (s.caller v).inserting := by
    funext v
    rw [hcaller]
    rcases eq_or_ne v d with rfl | hne
    · rw [Function.update_self, hp]
    · rw [Function.update_of_ne hne]
  rw [State.busy, State.busy, hinsert, hqueue, hthread, hcount]

omit [DecidableEq C] in
/-- A worker moves on and does nothing else. -/
theorem busy_worker {w : Fin n} {p : WorkerPc n}
    (hthread : s'.thread = Function.update s.thread w p)
    (hcaller : s'.caller = s.caller) (hqueue : s'.queue = s.queue)
    (hcount : s'.unfinishedJobs = s.unfinishedJobs)
    (hp : p.handling = (s.thread w).handling) : s'.busy = s.busy := by
  have hhandle : (fun v => (s'.thread v).handling) = fun v => (s.thread v).handling := by
    funext v
    rw [hthread]
    rcases eq_or_ne v w with rfl | hne
    · rw [Function.update_self, hp]
    · rw [Function.update_of_ne hne]
  rw [State.busy, State.busy, hhandle, hqueue, hcaller, hcount]

variable [Fintype C]

/-- A caller moves on in `insert`, and pushes the jobs that `q` has more than the queue. -/
theorem work_caller {d : C} {p : CallerPc n} {i : Fin n} {q : List ℕ}
    (hcaller : s'.caller = Function.update s.caller d p) (hthread : s'.thread = s.thread)
    (hqueue : s'.queue = Function.update s.queue i q)
    (hlt : p.inserting + 4 * q.length < (s.caller d).inserting + 4 * (s.queue i).length)
    (hle : (s.queue i).length ≤ q.length) : s'.busy.work < s.busy.work := by
  have hinsert := sum_update_lose CallerPc.inserting (f := s.caller) (i := d) (x := p)
    (d := (s.caller d).inserting - p.inserting) (by omega)
  have hjobs := sum_update_gain (fun q : List ℕ => 4 * q.length) (f := s.queue) (i := i) (x := q)
    (d := 4 * q.length - 4 * (s.queue i).length) (by omega)
  simp only [Busy.work, State.busy, hcaller, hthread, hqueue]
  omega

omit [DecidableEq C] in
/-- A worker moves on with its job, or takes one. -/
theorem work_worker {w : Fin n} {p : WorkerPc n} {i : Fin n} {q : List ℕ}
    (hthread : s'.thread = Function.update s.thread w p) (hcaller : s'.caller = s.caller)
    (hqueue : s'.queue = Function.update s.queue i q)
    (hlt : p.handling + 4 * q.length < (s.thread w).handling + 4 * (s.queue i).length)
    (hle : q.length ≤ (s.queue i).length) : s'.busy.work < s.busy.work := by
  have hjobs := sum_update_lose (fun q : List ℕ => 4 * q.length) (f := s.queue) (i := i) (x := q)
    (d := 4 * (s.queue i).length - 4 * q.length) (by omega)
  have hhandle : ∑ v, (Function.update s.thread w p v).handling + (s.thread w).handling =
      ∑ v, (s.thread v).handling + p.handling := by
    rcases Nat.le_total p.handling (s.thread w).handling with hp | hp
    · have hlose := sum_update_lose WorkerPc.handling (f := s.thread) (i := w) (x := p)
        (d := (s.thread w).handling - p.handling) (by omega)
      omega
    · have hgain := sum_update_gain WorkerPc.handling (f := s.thread) (i := w) (x := p)
        (d := p.handling - (s.thread w).handling) (by omega)
      omega
  simp only [Busy.work, State.busy, hcaller, hthread, hqueue]
  omega

/-! ### Steps -/

omit [DecidableEq C] in
/-- A worker that has a job does some of the work. One that has none does nothing, or takes a
job, and comes closer to its own queue if there is something in it. -/
theorem workerStep_busy {w k : Fin n} (h : s.workerStep w k = some s') :
    s'.busy.work < s.busy.work ∨ s'.busy = s.busy ∧ (s.thread w).handling = 0 ∧
      (s.queue w ≠ [] → (s'.thread w).toPop < (s.thread w).toPop) := by
  have hself : ∀ {p : WorkerPc n}, s'.thread = Function.update s.thread w p → s'.thread w = p :=
    fun hp => by rw [hp, Function.update_self]
  have hsame : ∀ i, s.queue = Function.update s.queue i (s.queue i) := fun i =>
    (Function.update_eq_self i s.queue).symm
  cases hpc : s.thread w <;> simp only [State.workerStep, hpc] at h
  case fetch | stealLock =>
      obtain ⟨s₁, hlock, rfl⟩ := Option.map_eq_some_iff.mp h
      obtain ⟨-, rfl⟩ := State.lock_eq_some hlock
      refine .inr ⟨busy_worker rfl rfl rfl rfl (by rw [hpc]; rfl), rfl, fun _ => ?_⟩
      rw [hself rfl]
      exact Nat.lt_succ_self _
  case fetchLocked =>
      split at h
      next j hlast =>
        obtain rfl := Option.some.inj h
        have hne : s.queue w ≠ [] := by
          rintro hnil
          rw [hnil] at hlast
          cases hlast
        have hlen := List.length_pos_iff.mpr hne
        refine .inl (work_worker (i := w) rfl rfl rfl ?_ ?_)
        · rw [hpc, List.length_dropLast]
          simp only [WorkerPc.handling]
          omega
        · rw [List.length_dropLast]
          omega
      next hlast =>
        obtain rfl := Option.some.inj h
        exact .inr ⟨busy_worker rfl rfl rfl rfl (by rw [hpc]; rfl), rfl,
          fun hne => absurd (List.getLast?_eq_none_iff.mp hlast) hne⟩
  case steal =>
      obtain rfl := Option.some.inj h
      refine .inr ⟨busy_worker rfl rfl rfl rfl (by rw [hpc]; rfl), rfl, fun _ => ?_⟩
      rw [hself rfl]
      exact Nat.lt_succ_self _
  case stealLocked =>
      split at h
      next j rest hqueue =>
        obtain rfl := Option.some.inj h
        refine .inl (work_worker (i := _) rfl rfl rfl ?_ ?_)
        · rw [hpc, hqueue, List.length_cons]
          simp only [WorkerPc.handling]
          omega
        · rw [hqueue, List.length_cons]
          omega
      next hqueue =>
        obtain rfl := Option.some.inj h
        refine .inr ⟨busy_worker rfl rfl rfl rfl (by rw [hpc]; rfl), rfl, fun _ => ?_⟩
        rw [hself rfl]
        exact Nat.lt_succ_self _
  case popped | calling | called =>
      obtain rfl := Option.some.inj h
      refine .inl (work_worker (i := w) rfl rfl (hsame w) ?_ le_rfl)
      rw [hpc]
      simp [WorkerPc.handling]
  case check =>
      obtain rfl := Option.some.inj h
      refine .inr ⟨busy_worker rfl rfl rfl rfl (by rw [hpc]; split <;> rfl), rfl, fun _ => ?_⟩
      rw [hself rfl]
      split <;> simp [WorkerPc.toPop]
  case stopped => cases h

/-- A job that is past the check of `insert` does some of the work. Another one does nothing, if
`clear()` has begun. -/
theorem callerStep_busy [NeZero n] {d : C} {expired : Bool} (hjob : (s.caller d).inJob = true)
    (hclear : s.clearCount ≠ 0) (h : s.callerStep d expired = some s') :
    s'.busy.work < s.busy.work ∨ s'.busy = s.busy ∧ (s.caller d).inserting = 0 := by
  have hsame : ∀ i, s.queue = Function.update s.queue i (s.queue i) := fun i =>
    (Function.update_eq_self i s.queue).symm
  cases hpc : s.caller d <;> rw [hpc] at hjob <;> try cases hjob
  all_goals simp only [State.callerStep, hpc] at h
  case insertCheck =>
      rw [if_neg hclear] at h
      obtain rfl := Option.some.inj h
      exact .inr ⟨busy_caller rfl rfl rfl rfl (by rw [hpc]; rfl), rfl⟩
  case insertLock i =>
      obtain ⟨s₁, hlock, rfl⟩ := Option.map_eq_some_iff.mp h
      obtain ⟨-, rfl⟩ := State.lock_eq_some hlock
      refine .inl (work_caller (i := i) rfl rfl (hsame i) ?_ le_rfl)
      rw [hpc]
      simp [CallerPc.inserting]
  case insertPush i =>
      obtain rfl := Option.some.inj h
      refine .inl (work_caller (i := i) rfl rfl rfl ?_ ?_)
      · rw [hpc, List.length_append]
        simp only [CallerPc.inserting, List.length_singleton]
        omega
      · exact List.length_append ▸ Nat.le_add_right ..
  case poll =>
      obtain rfl := Option.some.inj h
      exact .inr ⟨busy_caller rfl rfl rfl rfl (by rw [hpc]; rfl), rfl⟩
  all_goals
    obtain rfl := Option.some.inj h
    refine .inl (work_caller (i := 0) rfl rfl (hsame 0) ?_ le_rfl)
    rw [hpc]
    simp [CallerPc.inserting]

variable [NeZero n] {c : C} {on : C → Option (Fin n)} {s₀ : State C n} {e : Option (Event C n)}

/-- Between its first step and its last ones the destructor is in `clear()`. -/
theorem Destroying.clearing (h : Destroying c on s) (henter : s.caller c ≠ .clearEnter true)
    (hleaves : (s.caller c).leaves = false) : s.clearCount ≠ 0 := by
  have hone : (s.caller c).clearing = 1 := by
    have hdestroys := h.destroys
    cases hpc : s.caller c <;> rw [hpc] at hdestroys henter hleaves <;>
      first | rfl | simp_all [CallerPc.destroys, CallerPc.leaves]
  have hle := Finset.single_le_sum (f := fun d => (s.caller d).clearing)
    (fun d _ => (s.caller d).clearing_nonneg) (Finset.mem_univ c)
  rw [(reachable_counts h.reach).1]
  simp only [hone] at hle
  omega

/-- A step of anybody else than the destructor, after its first step, leaves less to do, or
changes nothing. -/
theorem Destroying.busy_next (h : Destroying c on s)
    (henter : s.caller c ≠ .clearEnter true) (hnext : (destroyer on s₀).next s e = some s')
    (hother : ¬ Acts (.caller c) e) :
    s'.busy.work < s.busy.work ∨ s'.busy = s.busy ∧
      (∀ d, Acts (.caller d) e → (s.caller d).inserting = 0) ∧
      ∀ w, Acts (.worker w) e → (s.thread w).handling = 0 ∧
        (s.queue w ≠ [] → (s'.thread w).toPop < (s.thread w).toPop) := by
  rcases destroyer_next hnext with ⟨rfl, rfl⟩ | ⟨x, rfl, hallowed, hx⟩
  · exact .inr ⟨rfl, fun _ => False.elim, fun _ => False.elim⟩
  cases x with
  | call d f =>
      obtain ⟨hrests, rfl⟩ := call_moved hx
      refine .inr ⟨busy_caller rfl rfl rfl rfl ?_, fun _ => False.elim, fun _ => False.elim⟩
      simp only [Allowed, Bool.and_eq_true, Bool.or_eq_true, decide_eq_true_eq] at hallowed
      have hzero : (s.caller d).inserting = 0 := by
        cases hpc : s.caller d <;> rw [hpc] at hrests <;> first | rfl | cases hrests
      rw [hzero]
      rcases hallowed.1 with rfl | rfl <;> rfl
  | caller d b =>
      have hd : d ≠ c := fun hsame => hother hsame
      obtain ⟨hjob, w, -, hcalls⟩ := (h.jobs d hd).resolve_left fun hrests => by
        rw [State.next, callerStep_rests hrests] at hx
        cases hx
      have hleaves : (s.caller c).leaves = false := by
        by_contra hleaves
        rw [Bool.not_eq_false] at hleaves
        exact WorkerPc.hold_of_calls hcalls ((h.quiet hleaves).2.1 w)
      refine (callerStep_busy hjob (h.clearing henter hleaves) hx).imp_right ?_
      rintro ⟨hbusy, hzero⟩
      exact ⟨hbusy, fun v hv => (show d = v from hv) ▸ hzero, fun _ => False.elim⟩
  | worker w k =>
      refine (workerStep_busy hx).imp_right ?_
      rintro ⟨hbusy, hzero, hpop⟩
      exact ⟨hbusy, fun _ => False.elim, fun v hv => (show w = v from hv) ▸ ⟨hzero, hpop⟩⟩

/-! ### The destructor -/

/-- Less is left to do. -/
def Less : ℕ × ℕ × ℕ → ℕ × ℕ × ℕ → Prop :=
  Prod.Lex (· < ·) (Prod.Lex (· < ·) (· < ·))

/-- The measure cannot go down for ever. -/
theorem less_wellFounded : WellFounded Less :=
  have hlt : WellFounded fun m n : ℕ => m < n := Nat.lt_wfRel.wf
  WellFounded.prod_lex hlt (.prod_lex hlt hlt)

/-- The order of the measure, number by number. -/
theorem less_iff {a b d a' b' d' : ℕ} :
    Less (a, b, d) (a', b', d') ↔ a < a' ∨ a = a' ∧ (b < b' ∨ b = b' ∧ d < d') := by
  simp only [Less, Prod.lex_def]

/-- The destructor waits for the counter. -/
def State.Waiting (s : State C n) (c : C) : Prop :=
  s.caller c = .clearWait true ∧ s.unfinishedJobs ≠ 0

/-- Whether the destructor waits for jobs can be computed. -/
instance (s : State C n) (c : C) : Decidable (s.Waiting c) :=
  inferInstanceAs (Decidable (_ ∧ _))

open Classical in
/-- Who helps: a worker that has not stopped while the destructor joins them, somebody who has
jobs while it waits for them, and else the destructor itself. -/
noncomputable def helpful (c : C) (s : State C n) : Thread C n :=
  if s.caller c = .join then
    if h : ∃ w, s.thread w ≠ .stopped then .worker h.choose else .caller c
  else if s.Waiting c then
    s.busy.helper c
  else
    .caller c

omit [DecidableEq C] [Fintype C] [NeZero n] in
/-- While the destructor waits somebody else helps. -/
theorem helpful_waiting {c : C} (h : s.Waiting c) : helpful c s = s.busy.helper c := by
  have hjoin : s.caller c ≠ .join := by
    rw [h.1]
    nofun
  rw [helpful, if_neg hjoin, if_pos h]

/-- How far the one who helps is from his next job. -/
def toPopOf (s : State C n) : Thread C n → ℕ
  | .worker w => (s.thread w).toPop
  | .caller _ => 0

/-- What is left to do in the destructor: its own steps, the jobs or the steps of the workers,
and the way to the next job. -/
noncomputable def toDo (c : C) (s : State C n) : ℕ × ℕ × ℕ :=
  ((s.caller c).stage,
    if s.caller c = .clearEnter true then 0
    else if s.caller c = .join then ∑ w, (s.thread w).toStop
    else s.busy.work,
    if s.Waiting c then toPopOf s (s.busy.helper c) else 0)

omit [Fintype C] in
/-- When nobody has a job the counter is zero. -/
theorem Destroying.unfinished_zero (h : Destroying c on s)
    (hinsert : ∀ d, (s.caller d).inserting = 0) (hhandle : ∀ w, (s.thread w).handling = 0)
    (hqueue : ∀ w, s.queue w = []) : s.unfinishedJobs = 0 := by
  have howed : ∀ w, (s.ledger.slot w).owed = 0 := by
    intro w
    simp only [State.ledger, Slot.owed, hqueue w]
    split
    next => rfl
    next hphase =>
      exfalso
      obtain ⟨t, ht, hsec⟩ := Option.bind_eq_some_iff.mp hphase
      obtain ⟨⟨i, p⟩, hsec, rfl⟩ := Option.map_eq_some_iff.mp hsec
      cases t with
      | worker v => simp only [State.sec, WorkerPc.sec] at hsec; split at hsec <;> cases hsec
      | caller d =>
          have hd := hinsert d
          simp only [State.sec, CallerPc.sec] at hsec
          split at hsec <;> cases hsec
          next hpc =>
            rw [hpc] at hd
            cases hd
    next => rfl
  have hcount : ∀ w, (s.ledger.hold w).count = 0 := by
    intro w
    have hw := hhandle w
    cases hpc : s.thread w <;> rw [hpc] at hw <;> try cases hw
    all_goals simp [State.ledger, hpc, WorkerPc.hold, Hold.count]
  have hcounter := h.balanced.counter
  simp only [howed, hcount, Finset.sum_const_zero, add_zero] at hcounter
  exact hcounter

omit [Fintype C] in
/-- While the destructor waits somebody else helps. -/
theorem Destroying.helper_ne (h : Destroying c on s) (hwait : s.Waiting c) :
    s.busy.helper c ≠ .caller c := by
  rcases s.busy.helper_cases c with ⟨d, hd, hinsert⟩ | ⟨w, hw, -⟩ | ⟨-, hinsert, hhandle, hqueue⟩
  · rw [hd]
    rintro ⟨⟩
    exact hinsert (congrArg CallerPc.inserting hwait.1)
  · rw [hw]
    nofun
  · exact absurd (h.unfinished_zero hinsert hhandle hqueue) hwait.2

omit [Fintype C] in
/-- A worker that acts while the destructor joins comes closer to its end. -/
theorem Destroying.stops (h : Destroying c on s) (hjoin : s.caller c = .join) {w k : Fin n}
    (hnext : s.workerStep w k = some s') : (s'.thread w).toStop < (s.thread w).toStop := by
  obtain ⟨hqueue, hhold, -⟩ := h.quiet (by rw [hjoin]; rfl)
  have hshut := h.shutting.mpr hjoin
  have hw := hhold w
  have hself : ∀ {p : WorkerPc n}, s'.thread = Function.update s.thread w p → s'.thread w = p :=
    fun hp => by rw [hp, Function.update_self]
  cases hpc : s.thread w <;> simp only [State.workerStep, hpc] at hnext
  case popped | calling | called => rw [hpc] at hw; cases hw
  case stopped => cases hnext
  case fetch | stealLock =>
      obtain ⟨s₁, hlock, rfl⟩ := Option.map_eq_some_iff.mp hnext
      obtain ⟨-, rfl⟩ := State.lock_eq_some hlock
      rw [hself rfl]
      exact Nat.lt_succ_self _
  case fetchLocked | stealLocked =>
      simp only [hqueue, List.getLast?_nil] at hnext
      obtain rfl := Option.some.inj hnext
      rw [hself rfl]
      exact Nat.lt_succ_self _
  case steal =>
      obtain rfl := Option.some.inj hnext
      rw [hself rfl]
      exact Nat.lt_succ_self _
  case check =>
      obtain rfl := Option.some.inj hnext
      rw [hself rfl, if_pos hshut]
      exact Nat.one_pos

/-- The step of somebody else while the destructor joins. -/
theorem Destroying.join_next (h : Destroying c on s) (hjoin : s.caller c = .join)
    (hnext : (destroyer on s₀).next s e = some s') (hother : ¬ Acts (.caller c) e) :
    s' = s ∧ (∀ w, ¬ Acts (.worker w) e) ∨
      s'.caller = s.caller ∧ ∑ w, (s'.thread w).toStop < ∑ w, (s.thread w).toStop := by
  have hleaves : (s.caller c).leaves = true := by rw [hjoin]; rfl
  rcases destroyer_next hnext with ⟨rfl, rfl⟩ | ⟨x, rfl, hallowed, hx⟩
  · exact .inl ⟨rfl, nofun⟩
  cases x with
  | call d f =>
      simp only [Allowed, Bool.and_eq_true, Bool.or_eq_true, decide_eq_true_eq] at hallowed
      obtain ⟨-, w, -, hcalls⟩ := hallowed
      exact absurd ((h.quiet hleaves).2.1 w) (WorkerPc.hold_of_calls hcalls)
  | caller d b =>
      have hrests := h.rests_of_leaves hleaves (d := d) fun hsame => hother hsame
      rw [State.next, callerStep_rests hrests] at hx
      cases hx
  | worker w k =>
      obtain ⟨p, hmoved⟩ := workerStep_moved hx
      have hlt := h.stops hjoin hx
      rw [hmoved.thread, Function.update_self] at hlt
      have hsum := sum_update_lose WorkerPc.toStop (f := s.thread) (i := w) (x := p)
        (d := (s.thread w).toStop - p.toStop) (by omega)
      exact .inr ⟨hmoved.caller, by rw [hmoved.thread]; omega⟩

/-- The step of somebody else leaves less to do, or what there is, if he does not help. -/
theorem Destroying.other (h : Destroying c on s)
    (hnext : (destroyer on s₀).next s e = some s') (hother : ¬ Acts (.caller c) e) :
    Less (toDo c s') (toDo c s) ∨
      toDo c s' = toDo c s ∧ helpful c s' = helpful c s ∧ ¬ Acts (helpful c s) e := by
  have hcaller : s'.caller c = s.caller c :=
    caller_keeps hnext hother (CallerPc.rests_of_destroys h.destroys)
  by_cases henter : s.caller c = .clearEnter true
  · right
    have hwait : ∀ {t : State C n}, t.caller c = .clearEnter true → ¬ t.Waiting c := by
      rintro t ht ⟨hpc, -⟩
      rw [ht] at hpc
      cases hpc
    have henter' := hcaller.trans henter
    refine ⟨?_, ?_, ?_⟩
    · simp only [toDo, henter, henter', if_true, if_neg (hwait henter), if_neg (hwait henter')]
    · simp [helpful, henter, henter', hwait henter, hwait henter']
    · simpa [helpful, henter, hwait henter] using hother
  by_cases hjoin : s.caller c = .join
  · have hjoin' := hcaller.trans hjoin
    have hwait : ∀ {t : State C n}, t.caller c = .join → ¬ t.Waiting c := by
      rintro t ht ⟨hpc, -⟩
      rw [ht] at hpc
      cases hpc
    rcases h.join_next hjoin hnext hother with ⟨rfl, hquiet⟩ | ⟨-, hlt⟩
    · refine .inr ⟨rfl, rfl, ?_⟩
      simp only [helpful, hjoin, if_true]
      split
      next => exact hquiet _
      next => exact hother
    · left
      simp only [toDo, hjoin, hjoin', if_true, if_neg (hwait hjoin), if_neg (hwait hjoin')]
      exact less_iff.mpr (.inr ⟨rfl, .inl (by simpa using hlt)⟩)
  rcases h.busy_next henter hnext hother with hlt | ⟨hbusy, hinsert, hhandle⟩
  · left
    simp only [toDo, hcaller, if_neg henter, if_neg hjoin]
    exact less_iff.mpr (.inr ⟨rfl, .inl hlt⟩)
  have hcount : s'.unfinishedJobs = s.unfinishedJobs := congrArg Busy.unfinished hbusy
  have hwaiting : s'.Waiting c ↔ s.Waiting c := by
    rw [State.Waiting, State.Waiting, hcaller, hcount]
  have hhelpful : helpful c s' = helpful c s := by
    simp only [helpful, hcaller, if_neg hjoin, hwaiting, hbusy]
  by_cases hwait : s.Waiting c
  · have hhelper := helpful_waiting hwait
    by_cases hacts : Acts (s.busy.helper c) e
    · -- a worker whose queue is not empty comes closer to it
      left
      rcases s.busy.helper_cases c with ⟨d, hd, hne⟩ | ⟨w, hw, hne⟩ | ⟨hc, -⟩
      · exact absurd (hinsert d (hd ▸ hacts)) hne
      · obtain ⟨hzero, hpop⟩ := hhandle w (hw ▸ hacts)
        have hlt := hpop (hne.resolve_left fun hne => hne hzero)
        simp only [toDo, hcaller, if_neg henter, if_neg hjoin, hwaiting, if_pos hwait, hbusy, hw]
        exact less_iff.mpr (.inr ⟨rfl, .inr ⟨rfl, hlt⟩⟩)
      · exact absurd (hc ▸ hacts) hother
    · refine .inr ⟨?_, hhelpful, hhelper ▸ hacts⟩
      have hpop : toPopOf s' (s.busy.helper c) = toPopOf s (s.busy.helper c) := by
        cases hhelp : s.busy.helper c with
        | caller d => rfl
        | worker w =>
            rw [hhelp] at hacts
            simp only [toPopOf, thread_keeps hnext hacts]
      simp only [toDo, hcaller, if_neg henter, if_neg hjoin, hwaiting, if_pos hwait, hbusy, hpop]
  · refine .inr ⟨?_, hhelpful, ?_⟩
    · simp only [toDo, hcaller, if_neg henter, if_neg hjoin, hwaiting, if_neg hwait, hbusy]
    · simpa only [helpful, if_neg hjoin, if_neg hwait] using hother

/-- Every step but the last leaves less to do, or what there is, if nobody helps. -/
theorem advances (hon : on c = none) :
    Machine.Run.Advances (destroyer on s₀) Less (Destroying c on) (Destroyed c) (toDo c)
      (helpful c) Acts := by
  intro s e s' h _ hnext
  by_cases hacts : Acts (.caller c) e
  · rcases destroyer_next hnext with ⟨rfl, -⟩ | ⟨x, rfl, -, hx⟩
    · cases hacts
    cases x with
    | call | worker => cases hacts
    | caller d b =>
        obtain rfl : d = c := hacts
        rcases h.own hx with hdone | ⟨hs', hlt | ⟨rfl, hpc, hne⟩⟩
        · exact .inl hdone
        · exact .inr ⟨hs', .inl (less_iff.mpr (.inl hlt))⟩
        · refine .inr ⟨h, .inr ⟨rfl, rfl, fun hhelp => ?_⟩⟩
          have hself : Acts (.caller d) (some (.caller d b : Event C n)) := rfl
          rw [helpful_waiting ⟨hpc, hne⟩] at hhelp
          exact h.helper_ne ⟨hpc, hne⟩ (acts_unique hhelp hself)
  · rcases h.next hon hnext with hdone | hs'
    · exact .inl hdone
    · exact .inr ⟨hs', h.other hnext hacts⟩

/-- The one who helps acts. -/
theorem helpful_acts {r : (destroyer on s₀).Run} (hfair : r.Fair Acts) (hon : on c = none)
    (hone : ∀ d d' w, on d = some w → on d' = some w → d = d')
    (hall : ∀ m, Destroying c on (r.state m)) (m : ℕ) :
    ∃ k, Acts (helpful c (r.state m)) (r.event (m + k)) := by
  have hself := CallerPc.rests_of_destroys (hall m).destroys
  by_cases hjoin : (r.state m).caller c = .join
  · simp only [helpful, hjoin, if_true]
    split
    next hrunning => exact worker_acts hfair hon hall hone hrunning.choose_spec
    next hstopped =>
      push Not at hstopped
      -- all workers have stopped, so the destructor can join them
      refine hfair.moves (P := fun s => s.caller c = .join ∧ ∀ w, s.thread w = .stopped)
        ⟨hjoin, hstopped⟩ (fun j hj hquiet => ?_) fun i _ => ⟨i, le_rfl, fun hi => ?_⟩
      · refine ⟨(caller_keeps (r.step j) hquiet (by rw [hj.1]; rfl)).trans hj.1, fun w => ?_⟩
        by_cases hacts : Acts (.worker w) (r.event j)
        · rcases destroyer_next (r.step j) with ⟨he, -⟩ | ⟨x, he, -, hx⟩
          · rw [he] at hacts
            cases hacts
          rw [he] at hacts
          cases x with
          | call | caller => cases hacts
          | worker v k =>
              obtain rfl : v = w := hacts
              simp only [State.next, State.workerStep, hj.2 v] at hx
              cases hx
        · exact (thread_keeps (r.step j) hacts).trans (hj.2 w)
      · refine ⟨some (.caller c false), rfl, ?_⟩
        have hnext : (destroyer on s₀).next (r.state i) (some (.caller c false)) =
            some ((r.state i).setCaller c .idle) := by
          have hallowed : Allowed on (r.state i) (.caller c false) = true := rfl
          simp only [destroyer, hallowed, if_true, State.next, State.callerStep, hi.1, hi.2,
            implies_true]
        rw [hnext]
        rfl
  by_cases hwait : (r.state m).Waiting c
  · rw [helpful_waiting hwait]
    rcases (r.state m).busy.helper_cases c with ⟨d, hd, hne⟩ | ⟨w, hw, -⟩ | ⟨hc, -⟩
    · rw [hd]
      have hne : ((r.state m).caller d).inserting ≠ 0 := hne
      refine caller_acts hfair (hall 0).owned ?_ fun hpc => hne (by rw [hpc]; rfl)
      cases hpc : (r.state m).caller d <;> rw [hpc] at hne <;> first | rfl | exact absurd rfl hne
    · rw [hw]
      refine worker_acts hfair hon hall hone fun hstopped => ?_
      exact hjoin ((hall m).shutting.mp ((reachable_counts (hall m).reach).2 w hstopped))
    · exact absurd hc ((hall m).helper_ne hwait)
  · have hhelper : helpful c (r.state m) = .caller c := by
      simp only [helpful, if_neg hjoin, if_neg hwait]
    rw [hhelper]
    exact caller_acts hfair (hall 0).owned hself hjoin

/-- **The destructor.** The pool is destroyed by the caller `c`, which is no job, when no other
caller is in a function, except for `insert` and `poll`, in jobs that the workers run. If every
job returns, and no thread waits for ever for a mutex that is free again and again, the destructor
returns: the workers have stopped, the queues are empty, no mutex is held, and each job that was
accepted has been executed once or discarded once. -/
theorem destroy_returns (hon : on c = none)
    (hone : ∀ d d' w, on d = some w → on d' = some w → d = d')
    (hreach : (pool C n).Reachable s₀) (hcall : s₀.caller c = .clearEnter true)
    (halive : s₀.shuttingDown = false)
    (hjobs : ∀ d, d ≠ c → (s₀.caller d).rests = true ∨
      (s₀.caller d).inJob = true ∧ ∃ w, on d = some w ∧ (s₀.thread w).calls = true)
    (r : (destroyer on s₀).Run) (hstart : r.state 0 = s₀) (hfair : r.Fair Acts) :
    ∃ m, Destroyed c (r.state m) := by
  have hfirst : Destroying c on (r.state 0) := by
    rw [hstart]
    refine ⟨hreach, by rw [hcall]; rfl, hjobs, ?_, ?_⟩
    · rw [halive, hcall]
      exact iff_of_false nofun nofun
    · rw [hcall]
      nofun
  by_contra hnever
  have hall : ∀ m, Destroying c on (r.state m) := by
    intro m
    induction m with
    | zero => exact hfirst
    | succ m ih => exact (ih.next hon (r.step m)).resolve_left fun hdone => hnever ⟨_, hdone⟩
  exact hnever (r.reaches less_wellFounded (advances hon)
    (fun m _ _ => helpful_acts hfair hon hone hall m) hfirst)

end

/-- There is a worker. -/
private theorem oneWorker : NeZero 1 := ⟨Nat.one_ne_zero⟩

/-- The only worker. -/
private abbrev theWorker : Fin 1 := ⟨0, Nat.one_pos⟩

/-- A pool with one worker and two callers. -/
private abbrev smallPool : Machine (State Bool 1) (Event Bool 1) :=
  @pool Bool _ 1 oneWorker

/-- A worker that runs a job, which is in a call of `insert` past the check, and a caller that
starts to destroy the pool. -/
private def beforeDestroy : List (Event Bool 1) :=
  [.call false .insert] ++ List.replicate 6 (.caller false false) ++
    List.replicate 3 (.worker theWorker theWorker) ++ [.call true .insert] ++
    List.replicate 2 (.caller true false) ++ [.call false .destroy]

/-- The queue is cleared, the job inserts another one and polls, both jobs end, and the worker is
told to stop. -/
private def toTheEnd : List (Event Bool 1) :=
  List.replicate 5 (.caller false false) ++ List.replicate 4 (.caller true false) ++
    [.call true .poll, .caller true false] ++ List.replicate 7 (.worker theWorker theWorker) ++
    List.replicate 3 (.caller false false) ++ List.replicate 6 (.worker theWorker theWorker) ++
    [.caller false false]

/-- The pool when the destructor is called. -/
private def destroyed : State Bool 1 :=
  (smallPool.replay (fun _ _ => True) smallPool.start beforeDestroy).getD smallPool.start

/-- The second caller is a job of the worker. -/
private def onOne (d : Bool) : Option (Fin 1) :=
  if d then some theWorker else none

/-- The events up to the end. -/
private abbrev endEvent : ℕ → Option (Event Bool 1) :=
  Machine.script (toTheEnd.map some) none

/-- After the last event nothing happens any more. -/
private theorem endEvent_done (k : ℕ) :
    ((∀ d, (((destroyer onOne destroyed).follow destroyed endEvent (28 + k)).caller d).rests =
        true) ∧
      ∀ w, ((destroyer onOne destroyed).follow destroyed endEvent (28 + k)).thread w = .stopped) ∧
    ((destroyer onOne destroyed).next ((destroyer onOne destroyed).follow destroyed endEvent
      (28 + k)) (endEvent (28 + k))).isSome :=
  Machine.follow_idle (m := destroyer onOne destroyed)
    (P := fun s => (∀ d, (s.caller d).rests = true) ∧ ∀ w, s.thread w = .stopped)
    (Machine.script_add (toTheEnd.map some) none) (by decide +kernel) (fun s hs => ⟨s, hs, rfl⟩) k

/-- The destructor is called while a job runs that inserts another one. -/
theorem destroy_returns_job :
    ∃ (r : (destroyer onOne destroyed).Run) (m : ℕ), Destroyed false (r.state m) := by
  have hsome : ∀ m, ((destroyer onOne destroyed).next
      ((destroyer onOne destroyed).follow destroyed endEvent m) (endEvent m)).isSome :=
    Machine.forall_script (k := 28) (by decide +kernel) fun k => (endEvent_done k).2
  have hreach : (pool Bool 1).Reachable destroyed := by
    have hreplay : ((pool Bool 1).replay (fun _ _ => True) (pool Bool 1).start
        beforeDestroy).isSome := by decide +kernel
    obtain ⟨s, hs⟩ := Option.isSome_iff_exists.mp hreplay
    rw [destroyed, hs]
    exact .of_replay beforeDestroy .start hs
  have hfair : (Machine.Run.of (destroyer onOne destroyed) destroyed endEvent hsome).Fair Acts :=
    Machine.Run.fair_of_idle (k := 28) fun k =>
      not_enabled (endEvent_done k).1.1 (endEvent_done k).1.2
  have hone : ∀ d d' w, onOne d = some w → onOne d' = some w → d = d' := by decide
  exact ⟨.of (destroyer onOne destroyed) destroyed endEvent hsome,
    destroy_returns (c := false) rfl hone hreach (by decide +kernel) (by decide +kernel)
      (by decide +kernel) (.of (destroyer onOne destroyed) destroyed endEvent hsome) rfl hfair⟩

end ThreadPool

end RsIo
