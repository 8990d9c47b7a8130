import RsIo.SocketSet
import Mathlib.Data.List.InsertIdx

/-!
# What a Set of Sockets Has Recorded

A `SocketSet` keeps the channels in one list and their handles in another, and edits both at the
same position. A list of pairs stands for the two: each insertion that has not been erased, with
the channel and the handle that it had then. `current_` points to one of the channels.

Here `select()` is any function that may return anything, and the handles of the channels may
change at any time. A call of `FD_SET` with a handle that does not fit may leave any set behind.

## Main results

* `doSelectWith_eq`: `do_select` finds the first entry that was reported.
* `inStep_of_reach`: the two lists, and what `read` yields, in every run of defined calls.
* `recorded_of_sets`: the runs with the sockets of `Net` are among these.
-/

namespace RsIo

/-- What `select()` leaves behind: its result, and the handles in the sets of those that can be
read and of those with an exception. -/
structure Selected where
  rc : NetResult
  rfds : Finset ℤ
  efds : Finset ℤ

/-- `FD_ISSET` for either of the sets. -/
def Selected.isSet (r : Selected) (h : ℤ) : Bool := h ∈ r.rfds || h ∈ r.efds

variable {C : Type}

/-- `select()` for the sockets of a program. -/
def Net.selected (w : Net C) (fds : Finset ℤ) : Selected := ⟨(w.select fds).1, (w.select fds).2, ∅⟩

namespace SocketSet

/-! ### The calls with any `select()` -/

/-- The handles that `do_select` passes on. -/
def fds (sockets : List ℤ) : Finset ℤ := (sockets.filter (· ≠ noSocket)).toFinset

/-- `SocketSet::do_select`, for handles that fit, whatever `select()` does. -/
def doSelectWith (select : Finset ℤ → Selected) (sockets : List ℤ) :
    Except NetError (ℤ × Option ℕ) :=
  let r := select (fds sockets)
  if r.rc.res = 0 then .ok (0, none)
  else if r.rc.res = -1 ∧ r.rc.err = eBadF then .ok (-1, none)
  else if r.rc.res = -1 then .error (.system r.rc.err "select()")
  else
    match sockets.findIdx? fun h => h ≠ noSocket ∧ r.isSet h = true with
    | none => .ok (0, none)
    | some pos => .ok (1, some pos)

/-- `SocketSet::do_wait_for`, whatever `select()` does. -/
def doWaitForWith (select : Finset ℤ → Selected) (s : SocketSet C) :
    Except NetError (Bool × SocketSet C) :=
  if ! s.isOpen || s.current.isSome then .ok (true, s)
  else (doSelectWith select s.natives).map fun r => (r.1 != 0, s.remember r.1 r.2)

/-- `SocketSet::read`, whatever `select()` does. -/
def readWith (select : Finset ℤ → Selected) (s : SocketSet C) :
    Except NetError (Option C × SocketSet C) :=
  if ! s.isOpen || s.channels.isEmpty then .ok (none, s)
  else
    match s.current with
    | some c => .ok (some c, { s with current := none })
    | none => (doSelectWith select s.natives).map fun r => (r.2.bind (s.channels[·]?), s)

/-- The call, with the choice as an argument. -/
theorem doSelect_eq_with (w : Net C) (sockets : List ℤ) :
    doSelect w sockets = doSelectWith w.selected sockets := by
  have hset : ∀ h, (w.selected (fds sockets)).isSet h = true ↔ h ∈ (w.select (fds sockets)).2 := by
    intro h
    rw [Selected.isSet, Bool.or_eq_true, decide_eq_true_iff, decide_eq_true_iff]
    exact or_iff_left (Finset.notMem_empty h)
  simp only [doSelectWith, hset]
  rfl

/-- The wait, with the choice as an argument. -/
theorem doWaitFor_eq_with (w : Net C) (s : SocketSet C) :
    s.doWaitFor w = s.doWaitForWith w.selected := by
  rw [doWaitFor, doWaitForWith, doSelect_eq_with]

/-- The read, with the choice as an argument. -/
theorem read_eq_with (w : Net C) (s : SocketSet C) : s.read w = s.readWith w.selected := by
  rw [read, readWith, doSelect_eq_with]
  cases doSelectWith w.selected s.natives <;> rfl

/-! ### What the calls can do -/

section Cases

variable {select : Finset ℤ → Selected} {s t : SocketSet C}

/-- A wait changes nothing, or remembers a channel of the list. -/
theorem doWaitForWith_cases {b : Bool} (h : s.doWaitForWith select = .ok (b, t)) :
    t = s ∨ ∃ c ∈ s.channels, t = { s with current := some c } := by
  rw [doWaitForWith] at h
  split at h
  next => exact .inl (Prod.mk.inj (Except.ok.inj h)).2.symm
  next =>
    cases hselect : doSelectWith select s.natives with
    | error err =>
        rw [hselect] at h
        cases h
    | ok r =>
        rw [hselect] at h
        obtain ⟨-, rfl⟩ := Prod.mk.inj (Except.ok.inj h)
        obtain ⟨rc, index⟩ := r
        cases index with
        | none => exact .inl rfl
        | some i =>
            dsimp only [remember]
            split
            next hi =>
              refine .inr ⟨s.channels[i], List.getElem_mem hi.2, ?_⟩
              rw [List.getElem?_eq_getElem hi.2]
            next => exact .inl rfl

/-- A read that yields a channel takes the one that is remembered, or changes nothing and takes
the one at the position that `do_select` finds. -/
theorem readWith_cases {c : Option C} (h : s.readWith select = .ok (c, t)) :
    (∃ d, s.current = some d ∧ c = some d ∧ t = { s with current := none }) ∨
      t = s ∧ (c = none ∨ s.current = none ∧ ∃ rc index,
        doSelectWith select s.natives = .ok (rc, index) ∧ c = index.bind (s.channels[·]?)) := by
  rw [readWith] at h
  split at h
  next =>
    obtain ⟨rfl, rfl⟩ := Prod.mk.inj (Except.ok.inj h)
    exact .inr ⟨rfl, .inl rfl⟩
  split at h
  next d hcurrent =>
    obtain ⟨rfl, rfl⟩ := Prod.mk.inj (Except.ok.inj h)
    exact .inl ⟨d, hcurrent, rfl, rfl⟩
  next hnone =>
    cases hselect : doSelectWith select s.natives with
    | error err =>
        rw [hselect] at h
        cases h
    | ok r =>
        rw [hselect] at h
        obtain ⟨rfl, rfl⟩ := Prod.mk.inj (Except.ok.inj h)
        exact .inr ⟨rfl, .inr ⟨hnone, r.1, r.2, rfl, rfl⟩⟩

end Cases

/-! ### What is recorded -/

/-- A call of the set with what `select()` does then, or a change of the handles. `wild` is the
set after a wait or a read that is undefined. -/
inductive Call (C : Type)
  | insert (c : C)
  | erase (c : C)
  | clear
  | close
  | waitFor (select : Finset ℤ → Selected) (wild : SocketSet C)
  | read (select : Finset ℤ → Selected) (wild : SocketSet C)
  | sockets (sock : C → ℤ)

/-- The handle in each channel and a `SocketSet`. Next to it all insertions so far, with the
channel and its handle at that time, and those of them that are still in force. -/
structure Recorded (C : Type) where
  sock : C → ℤ
  set : SocketSet C
  inserted : List (C × ℤ)
  entries : List (C × ℤ)

/-- One call. An insertion is in force until the first one of its channel is erased, or all are.
A call that throws leaves the set as it is. -/
def Recorded.after [DecidableEq C] (s : Recorded C) : Call C → Recorded C
  | .insert c =>
      { s with
        set := s.set.doInsert c (s.sock c)
        inserted := s.inserted ++ [(c, s.sock c)]
        entries := s.entries ++ [(c, s.sock c)] }
  | .erase c => { s with set := s.set.doErase c, entries := s.entries.eraseP (·.1 = c) }
  | .clear => { s with set := s.set.clear, entries := [] }
  | .close => { s with set := { s.set with isOpen := false } }
  | .waitFor select wild =>
      { s with
        set :=
          if s.set.WaitDefined then
            ((s.set.doWaitForWith select).map Prod.snd).toOption.getD s.set
          else wild }
  | .read select wild =>
      { s with
        set :=
          if s.set.ReadDefined then
            ((s.set.readWith select).map Prod.snd).toOption.getD s.set
          else wild }
  | .sockets sock => { s with sock := sock }

/-- A new set and any handles, with any calls in any order. -/
def recorded [DecidableEq C] (sock : C → ℤ) : Machine (Recorded C) (Call C) where
  start := ⟨sock, {}, [], []⟩
  next s e := some (s.after e)

/-- The call is defined. -/
def Recorded.Defined (s : Recorded C) : Call C → Prop
  | .waitFor .. => s.set.WaitDefined
  | .read .. => s.set.ReadDefined
  | _ => True

/-- The first entry whose handle `select()` reports. -/
def firstReported (select : Finset ℤ → Selected) (entries : List (C × ℤ)) : Option (C × ℤ) :=
  let r := select (fds (entries.map Prod.snd))
  entries.find? fun e => e.2 ≠ noSocket ∧ r.isSet e.2 = true

/-- The channels and the handles are those of the entries, each of which was inserted. The one
that is remembered is a member, `do_select` returns positions in the list only, and what a
`read` that is defined yields is a member, which was remembered or is the first one that is
reported. -/
structure InStep (s : Recorded C) : Prop where
  length_eq : s.set.natives.length = s.set.channels.length
  channels : s.set.channels = s.entries.map Prod.fst
  natives : s.set.natives = s.entries.map Prod.snd
  sublist : s.entries.Sublist s.inserted
  current : ∀ c, s.set.current = some c → c ∈ s.set.channels
  bounds : FitsFdSet s.set.natives → ∀ select rc i,
    doSelectWith select s.set.natives = .ok (rc, some i) → i < s.set.channels.length
  reads : s.set.ReadDefined → ∀ select c t, s.set.readWith select = .ok (some c, t) →
    c ∈ s.set.channels ∧ (s.set.current = some c ∨
      s.set.current = none ∧ ∃ h, firstReported select s.entries = some (c, h))

/-- The lists are those of the entries, and what is remembered is one of them. -/
structure Aligned (s : SocketSet C) (entries : List (C × ℤ)) : Prop where
  channels : s.channels = entries.map Prod.fst
  natives : s.natives = entries.map Prod.snd
  current : ∀ c, s.current = some c → c ∈ s.channels

/-! ### Selecting an entry -/

section Select

variable {select : Finset ℤ → Selected} {s t : SocketSet C} {entries : List (C × ℤ)}

/-- The position that `do_select` returns is that of the first entry that is reported. -/
theorem doSelectWith_eq {rc : ℤ} {index : Option ℕ}
    (h : doSelectWith select (entries.map Prod.snd) = .ok (rc, index)) :
    index = none ∨ rc = 1 ∧ index.bind (entries[·]?) = firstReported select entries ∧
      ∃ i < entries.length, index = some i := by
  rw [doSelectWith] at h
  split at h
  next => exact .inl (Prod.mk.inj (Except.ok.inj h)).2.symm
  split at h
  next => exact .inl (Prod.mk.inj (Except.ok.inj h)).2.symm
  split at h
  next => cases h
  split at h
  next => exact .inl (Prod.mk.inj (Except.ok.inj h)).2.symm
  next pos hpos =>
    obtain ⟨rfl, rfl⟩ := Prod.mk.inj (Except.ok.inj h)
    rw [List.findIdx?_map] at hpos
    obtain ⟨hlt, -⟩ := List.findIdx?_eq_some_iff_getElem.mp hpos
    refine .inr ⟨rfl, ?_, pos, hlt, rfl⟩
    rw [firstReported, List.find?_eq_bind_findIdx?_getElem?, ← hpos]
    rfl

namespace Aligned

/-- There are as many handles as channels. -/
theorem length_eq (h : Aligned s entries) : s.natives.length = s.channels.length := by
  rw [h.channels, h.natives, List.length_map, List.length_map]

/-- The index of a ready socket is that of a channel. -/
theorem bounds (h : Aligned s entries) {rc : ℤ} {i : ℕ}
    (hselect : doSelectWith select s.natives = .ok (rc, some i)) : i < s.channels.length := by
  rw [h.natives] at hselect
  rw [h.channels, List.length_map]
  rcases doSelectWith_eq hselect with hnone | ⟨-, -, j, hj, hindex⟩
  · cases hnone
  · rwa [Option.some.inj hindex]

/-- What a read yields was remembered, or is the first channel that is reported. -/
theorem reads (h : Aligned s entries) {c : C} (hread : s.readWith select = .ok (some c, t)) :
    c ∈ s.channels ∧ (s.current = some c ∨
      s.current = none ∧ ∃ g, firstReported select entries = some (c, g)) := by
  rcases readWith_cases hread with ⟨d, hcurrent, hd, -⟩ | ⟨-, hc | ⟨hnone, rc, index, hselect, hc⟩⟩
  · obtain rfl := Option.some.inj hd
    exact ⟨h.current c hcurrent, .inl hcurrent⟩
  · cases hc
  · rw [h.natives] at hselect
    rcases doSelectWith_eq hselect with rfl | ⟨-, hfirst, i, -, rfl⟩
    · cases hc
    · dsimp only [Option.bind_some] at hc hfirst
      rw [h.channels, List.getElem?_map, hfirst] at hc
      obtain ⟨e, he, rfl⟩ := Option.map_eq_some_iff.mp hc.symm
      refine ⟨?_, .inr ⟨hnone, e.2, he⟩⟩
      rw [h.channels]
      exact List.mem_map_of_mem (List.mem_of_find?_eq_some he)

/-- An empty set has no entries. -/
theorem empty {s : SocketSet C} (hchannels : s.channels = []) (hnatives : s.natives = [])
    (hcurrent : s.current = none) : Aligned s [] where
  channels := hchannels
  natives := hnatives
  current c hc := by
    rw [hcurrent] at hc
    cases hc

/-- An inserted channel is the last entry. -/
theorem insert (h : Aligned s entries) (c : C) (g : ℤ) :
    Aligned (s.doInsert c g) (entries ++ [(c, g)]) where
  channels := by rw [doInsert, List.map_append, ← h.channels, List.map_singleton]
  natives := by rw [doInsert, List.map_append, ← h.natives, List.map_singleton]
  current d hd := List.mem_append_left _ (h.current d hd)

/-- The first entry of a channel stands where the channel is found first. -/
theorem erase [DecidableEq C] (h : Aligned s entries) (c : C) :
    Aligned (s.doErase c) (entries.eraseP (·.1 = c)) := by
  suffices hlists : (s.doErase c).channels = (entries.eraseP (·.1 = c)).map Prod.fst ∧
      (s.doErase c).natives = (entries.eraseP (·.1 = c)).map Prod.snd from
    ⟨hlists.1, hlists.2, fun d hd => mem_doErase hd (h.current d (current_doErase hd).1)⟩
  have hfind : s.channels.findIdx? (· = c) = entries.findIdx? (·.1 = c) := by
    rw [h.channels, List.findIdx?_map]
    rfl
  rw [doErase, hfind, List.eraseP_eq_eraseIdx]
  cases entries.findIdx? (·.1 = c) with
  | none => exact ⟨h.channels, h.natives⟩
  | some i =>
      dsimp only
      rw [← List.eraseIdx_map, ← List.eraseIdx_map, h.channels, h.natives]
      exact ⟨rfl, rfl⟩

/-- Waiting keeps the entries. -/
theorem waitFor (h : Aligned s entries) {b : Bool}
    (hwait : s.doWaitForWith select = .ok (b, t)) : Aligned t entries := by
  rcases doWaitForWith_cases hwait with rfl | ⟨c, hc, rfl⟩
  · exact h
  · refine ⟨h.channels, h.natives, fun d hd => ?_⟩
    rwa [← Option.some.inj hd]

/-- Reading keeps the entries. -/
theorem read (h : Aligned s entries) {c : Option C} (hread : s.readWith select = .ok (c, t)) :
    Aligned t entries := by
  rcases readWith_cases hread with ⟨d, -, -, rfl⟩ | ⟨rfl, -⟩
  · exact ⟨h.channels, h.natives, fun c hc => by cases hc⟩
  · exact h

/-- One call that is defined. -/
theorem after [DecidableEq C] {s : Recorded C} (h : Aligned s.set s.entries) {e : Call C}
    (hdef : s.Defined e) : Aligned (s.after e).set (s.after e).entries := by
  cases e with
  | insert c => exact h.insert c (s.sock c)
  | erase c => exact h.erase c
  | clear => exact empty rfl rfl rfl
  | close => exact ⟨h.channels, h.natives, h.current⟩
  | waitFor select wild =>
      have hdef : s.set.WaitDefined := hdef
      simp only [Recorded.after, if_pos hdef]
      cases hwait : s.set.doWaitForWith select with
      | ok r => exact h.waitFor hwait
      | error => exact h
  | read select wild =>
      have hdef : s.set.ReadDefined := hdef
      simp only [Recorded.after, if_pos hdef]
      cases hread : s.set.readWith select with
      | ok r => exact h.read hread
      | error => exact h
  | sockets => exact h

end Aligned

end Select

/-! ### Runs -/

section Runs

variable [DecidableEq C]

/-- The entries are among the insertions. -/
theorem entries_sublist {s : Recorded C} (h : s.entries.Sublist s.inserted) (e : Call C) :
    (s.after e).entries.Sublist (s.after e).inserted := by
  cases e with
  | insert c => exact h.append (.refl _)
  | erase c => exact (List.eraseP_sublist).trans h
  | clear => exact List.nil_sublist _
  | close => exact h
  | waitFor => exact h
  | read => exact h
  | sockets => exact h

/-- **Entries.** In every run in which the waits and reads that come to `select()` have handles
that fit, whatever `select()` does, the channels and the handles are those of the insertions that
are in force, and `read` yields a member. -/
theorem inStep_of_reach {sock : C → ℤ} {s : Recorded C}
    (h : (recorded sock).Reach Recorded.Defined s) : InStep s := by
  obtain ⟨halign, hsub⟩ := h.invariant
    (I := fun s => Aligned s.set s.entries ∧ s.entries.Sublist s.inserted)
    ⟨.empty rfl rfl rfl, .refl _⟩ fun s e s' hs hdef hnext => by
      rw [← Option.some.inj hnext]
      exact ⟨hs.1.after hdef, entries_sublist hs.2 e⟩
  exact {
    length_eq := halign.length_eq
    channels := halign.channels
    natives := halign.natives
    sublist := hsub
    current := halign.current
    bounds := fun _ select rc i hselect => halign.bounds hselect
    reads := fun _ select c t hread => halign.reads hread }

/-- A channel that is inserted twice, with another handle the second time. A wait reports the
first handle, and then the channel is erased once. -/
theorem inStep_of_reach_twice :
    ∃ s : Recorded Unit, InStep s ∧ s.set.natives = [6] ∧ s.set.current = none := by
  have hinsert : (recorded fun _ : Unit => (5 : ℤ)).Reach Recorded.Defined _ :=
    .step .start (e := .insert ()) trivial rfl
  have hagain : (recorded fun _ : Unit => (5 : ℤ)).Reach Recorded.Defined _ :=
    .step (.step hinsert (e := .sockets fun _ => 6) trivial rfl) (e := .insert ()) trivial rfl
  have hwait : (recorded fun _ : Unit => (5 : ℤ)).Reach Recorded.Defined _ :=
    .step hagain (e := .waitFor (fun _ => ⟨⟨1, 0⟩, {5}, ∅⟩) {})
      (fun _ _ => by decide) rfl
  exact ⟨_, inStep_of_reach (.step hwait (e := .erase ()) trivial rfl), by decide, by decide⟩

/-- A wait for a handle that does not fit may leave a set of one channel and no handle. -/
theorem inStep_fails :
    ¬ ∀ (sock : Unit → ℤ) (s : Recorded Unit), (recorded sock).Reachable s → InStep s := by
  intro h
  have hset := h (fun _ => 5000) _ (.step (.step .start (e := .insert ()) trivial rfl)
    (e := .waitFor (fun _ => ⟨⟨0, 0⟩, ∅, ∅⟩) ⟨[()], [], none, true⟩) trivial rfl)
  exact absurd hset.length_eq (by decide)

/-- The call for an event that is defined. -/
def Event.call (w : Net C) : Event C → Call C
  | .insert c => .insert c
  | .erase c => .erase c
  | .clear => .clear
  | .close => .close
  | .waitFor => .waitFor w.selected {}
  | .read => .read w.selected {}
  | .change e => .sockets (w.change e).sock

/-- The call for an event that is defined is defined. -/
theorem defined_call {s : Recorded C} {w : Net C} {e : Event C} (h : s.set.Defined e) :
    s.Defined (e.call w) := by
  cases e with
  | waitFor | read => exact h
  | insert | erase | clear | close | change => trivial

/-- The call for an event does to the handles and the set what the event does. -/
theorem after_call {s : Recorded C} {w : Net C} (h : s.sock = w.sock) {e : Event C}
    (hdef : s.set.Defined e) : (s.after (e.call w)).sock = (step w s.set e).1.sock ∧
      (s.after (e.call w)).set = (step w s.set e).2 := by
  cases e with
  | insert c => exact ⟨h, by rw [step, ← h]; rfl⟩
  | erase c => exact ⟨h, rfl⟩
  | clear => exact ⟨h, rfl⟩
  | close => exact ⟨h, rfl⟩
  | waitFor =>
      have hdef : s.set.WaitDefined := hdef
      refine ⟨h, ?_⟩
      simp only [step, Event.call, Recorded.after, doWaitFor_eq_with, if_pos hdef]
      cases s.set.doWaitForWith w.selected <;> rfl
  | read =>
      have hdef : s.set.ReadDefined := hdef
      refine ⟨h, ?_⟩
      simp only [step, Event.call, Recorded.after, read_eq_with, if_pos hdef]
      cases s.set.readWith w.selected <;> rfl
  | change e => exact ⟨rfl, rfl⟩

/-- A run with the sockets of a program is one of these runs. -/
theorem recorded_of_sets {w₀ : Net C} {s : Net C × SocketSet C} (h : (sets w₀).Reachable s) :
    ∃ t, (recorded w₀.sock).Reach Recorded.Defined t ∧ t.sock = s.1.sock ∧ t.set = s.2 := by
  induction h with
  | start => exact ⟨_, .start, rfl, rfl⟩
  | step _ _ hnext ih =>
      rename_i s s' e _ _
      obtain ⟨t, ht, hsock, hset⟩ := ih
      obtain ⟨hdef, rfl⟩ := Machine.of_guard hnext
      rw [← hset] at hdef
      obtain ⟨hsock', hset'⟩ := after_call hsock hdef
      rw [hset] at hsock' hset'
      exact ⟨_, ht.step (e := e.call s.1) (defined_call hdef) rfl, hsock', hset'⟩

end Runs

end SocketSet

end RsIo
