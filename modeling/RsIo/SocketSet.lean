import RsIo.Socket
import RsIo.SocketAddress
import RsIo.Transition
import Mathlib.Data.Finset.Basic
import Mathlib.Data.Finset.Filter

/-!
# Sets of Sockets

`class SocketSet` keeps the channels that were inserted and, next to them, the native handles
they had at that time. `do_select` asks the system about the handles. It tells a timeout, a
channel that is ready, and a handle that is no longer open apart by its return value, but
only a ready channel has an index.

`do_wait_for` takes a handle that is no longer open for success, but has no channel to
remember then, and the `read` that follows does not find one either.

`do_select` calls `FD_SET` for every handle without a look at its size. A handle from
`FD_SETSIZE` on has no bit in an `fd_set`, and the call is undefined.

## Main results

* `members_of_reach`: what is known of the members of a set in every run.
* `waitKept_iff`: when a `read` after a successful wait yields a channel.
-/

namespace RsIo

/-- `no_socket`. -/
def noSocket : ℤ := -1

/-- The sockets of a program: the handle in each channel, which of the handles are open, and
which of them can be read. -/
structure Net (C : Type) where
  sock : C → ℤ
  isOpen : ℤ → Bool
  isReadable : ℤ → Bool

/-- What happens to the members of a set: data arrives for a handle, or a channel is closed. -/
inductive Change (C : Type)
  | arrive (h : ℤ)
  | close (c : C)

/-- A `SocketSet`. -/
@[ext]
structure SocketSet (C : Type) where
  channels : List C := []
  natives : List ℤ := []
  current : Option C := none
  isOpen : Bool := true

variable {C : Type}

namespace Net

/-- `select()`: it fails if one of the handles is not open, and otherwise keeps those that
can be read. -/
def select (w : Net C) (fds : Finset ℤ) : NetResult × Finset ℤ :=
  if ∃ h ∈ fds, w.isOpen h = false then (⟨-1, eBadF⟩, fds)
  else
    let ready := fds.filter (w.isReadable · = true)
    (⟨ready.card, 0⟩, ready)

/-- A change; `Socket::do_close` closes the handle if there is one. -/
def change [DecidableEq C] (w : Net C) : Change C → Net C
  | .arrive h => { w with isReadable := Function.update w.isReadable h true }
  | .close c =>
      if w.sock c ≠ noSocket then
        { w with
          isOpen := Function.update w.isOpen (w.sock c) false
          sock := Function.update w.sock c noSocket }
      else w

/-- The channel can be read, or it is closed. -/
def Ready (w : Net C) (c : C) : Prop := w.sock c = noSocket ∨ w.isReadable (w.sock c) = true

end Net

namespace SocketSet

/-- `FD_SETSIZE`. -/
def fdSetSize : ℤ := 1024

/-- Every handle has a bit in an `fd_set`. -/
def FitsFdSet (sockets : List ℤ) : Prop :=
  ∀ h ∈ sockets, h ≠ noSocket → 0 ≤ h ∧ h < fdSetSize

/-- Whether all handles fit into an `fd_set` can be computed. -/
instance (sockets : List ℤ) : Decidable (FitsFdSet sockets) :=
  inferInstanceAs (Decidable (∀ h ∈ sockets, h ≠ noSocket → 0 ≤ h ∧ h < fdSetSize))

/-- `SocketSet::do_select`, for handles that fit: its return value, and the index if it is
set. -/
def doSelect (w : Net C) (sockets : List ℤ) : Except NetError (ℤ × Option ℕ) :=
  let (rc, fds) := w.select (sockets.filter (· ≠ noSocket)).toFinset
  if rc.res = 0 then .ok (0, none)
  else if rc.res = -1 ∧ rc.err = eBadF then .ok (-1, none)
  else if rc.res = -1 then .error (.system rc.err "select()")
  else
    match sockets.findIdx? fun h => h ≠ noSocket ∧ h ∈ fds with
    | none => .ok (0, none)
    | some pos => .ok (1, some pos)

/-- The end of `SocketSet::do_wait_for`: the channel at the index is remembered. -/
def remember (s : SocketSet C) (rc : ℤ) (index : Option ℕ) : SocketSet C :=
  match index with
  | some i =>
      if rc ≠ 0 ∧ i < s.channels.length then { s with current := s.channels[i]? } else s
  | none => s

/-- `SocketSet::do_wait_for`, where `w` is the state of the sockets in which `select()`
returns. -/
def doWaitFor (w : Net C) (s : SocketSet C) : Except NetError (Bool × SocketSet C) :=
  if ! s.isOpen || s.current.isSome then .ok (true, s)
  else (doSelect w s.natives).map fun (rc, index) => (rc != 0, s.remember rc index)

/-- `SocketSet::read`: the channel, if it returned true. -/
def read (w : Net C) (s : SocketSet C) : Except NetError (Option C × SocketSet C) :=
  if ! s.isOpen || s.channels.isEmpty then .ok (none, s)
  else
    match s.current with
    | some c => .ok (some c, { s with current := none })
    | none => do
        let (_, index) ← doSelect w s.natives
        return (index.bind (s.channels[·]?), s)

/-- A wait is defined: if it comes to `do_select`, then with handles that fit. -/
def WaitDefined (s : SocketSet C) : Prop :=
  s.isOpen = true → s.current = none → FitsFdSet s.natives

/-- A read is defined: if it comes to `do_select`, then with handles that fit. -/
def ReadDefined (s : SocketSet C) : Prop :=
  s.isOpen = true → s.channels.isEmpty = false → s.current = none → FitsFdSet s.natives

/-- Whether a wait is defined can be computed. -/
instance (s : SocketSet C) : Decidable s.WaitDefined :=
  inferInstanceAs (Decidable (s.isOpen = true → s.current = none → FitsFdSet s.natives))

/-- Whether a read is defined can be computed. -/
instance (s : SocketSet C) : Decidable s.ReadDefined :=
  inferInstanceAs (Decidable
    (s.isOpen = true → s.channels.isEmpty = false → s.current = none → FitsFdSet s.natives))

/-- `SocketSet::clear`. -/
def clear (s : SocketSet C) : SocketSet C :=
  { s with channels := [], natives := [], current := none }

/-- `SocketSet::do_insert`. -/
def doInsert (s : SocketSet C) (c : C) (h : ℤ) : SocketSet C :=
  { s with channels := s.channels ++ [c], natives := s.natives ++ [h] }

/-- `SocketSet::do_erase`. -/
def doErase [DecidableEq C] (s : SocketSet C) (c : C) : SocketSet C :=
  match s.channels.findIdx? (· = c) with
  | none => s
  | some i =>
      { s with
        natives := s.natives.eraseIdx i
        channels := s.channels.eraseIdx i
        current := if s.current = some c then none else s.current }

/-! ### Runs -/

/-- A call of the set, or a change of the sockets. -/
inductive Event (C : Type)
  | insert (c : C)
  | erase (c : C)
  | clear
  | close
  | waitFor
  | read
  | change (e : Change C)

/-- One event. A call that throws leaves the set as it is. -/
def step [DecidableEq C] (w : Net C) (s : SocketSet C) : Event C → Net C × SocketSet C
  | .insert c => (w, s.doInsert c (w.sock c))
  | .erase c => (w, s.doErase c)
  | .clear => (w, s.clear)
  | .close => (w, { s with isOpen := false })
  | .waitFor => (w, match s.doWaitFor w with | .ok (_, s) => s | .error _ => s)
  | .read => (w, match s.read w with | .ok (_, s) => s | .error _ => s)
  | .change e => (w.change e, s)

/-- The event is defined. -/
def Defined (s : SocketSet C) : Event C → Prop
  | .waitFor => s.WaitDefined
  | .read => s.ReadDefined
  | _ => True

/-- Whether a call is defined can be computed. -/
instance (s : SocketSet C) : DecidablePred s.Defined
  | .waitFor => inferInstanceAs (Decidable s.WaitDefined)
  | .read => inferInstanceAs (Decidable s.ReadDefined)
  | .insert _ | .erase _ | .clear | .close | .change _ => isTrue trivial

/-- A new set and any sockets. A run ends where a call is undefined. -/
def sets [DecidableEq C] (w : Net C) : Machine (Net C × SocketSet C) (Event C) where
  start := (w, {})
  next s e := if s.2.Defined e then some (step s.1 s.2 e) else none

/-! ### What the system says of the handles -/

/-- One of the handles that were stored has been closed. -/
def HasClosed (w : Net C) (sockets : List ℤ) : Prop :=
  ∃ h ∈ sockets, h ≠ noSocket ∧ w.isOpen h = false

/-- A wait is over at once if a socket is closed. -/
theorem doSelect_of_closed {w : Net C} {sockets : List ℤ} (h : HasClosed w sockets) :
    doSelect w sockets = .ok (-1, none) := by
  have hclosed : ∃ h ∈ (sockets.filter (· ≠ noSocket)).toFinset, w.isOpen h = false := by
    obtain ⟨h, hmem, hne, hclosed⟩ := h
    exact ⟨h, by simp [hmem, hne], hclosed⟩
  rw [doSelect, Net.select, if_pos hclosed]
  rfl

/-- If all the handles are open, the one at the index can be read, and without an index there
is none that can. -/
theorem doSelect_of_open {w : Net C} {sockets : List ℤ} (h : ¬ HasClosed w sockets) :
    doSelect w sockets = .ok (0, none) ∨
      ∃ i h, sockets[i]? = some h ∧ h ≠ noSocket ∧ w.isOpen h = true ∧ w.isReadable h = true ∧
        doSelect w sockets = .ok (1, some i) := by
  rw [doSelect, Net.select, if_neg]
  swap
  · rintro ⟨g, hmem, hclosed⟩
    simp only [List.mem_toFinset, List.mem_filter, decide_eq_true_eq] at hmem
    exact h ⟨g, hmem.1, hmem.2, hclosed⟩
  dsimp only
  split
  next => exact .inl rfl
  rw [if_neg (by omega), if_neg (by omega)]
  split
  next => exact .inl rfl
  next i hi =>
    obtain ⟨hlt, hfound, -⟩ := List.findIdx?_eq_some_iff_getElem.mp hi
    simp only [Finset.mem_filter, List.mem_toFinset, List.mem_filter, decide_eq_true_eq] at hfound
    refine .inr ⟨i, sockets[i], List.getElem?_eq_getElem hlt, hfound.1, ?_, hfound.2.2, rfl⟩
    by_contra hclosed
    exact h ⟨sockets[i], List.getElem_mem hlt, hfound.1, by simpa using hclosed⟩

/-! ### Erasing -/

section Erase

variable [DecidableEq C] {s : SocketSet C} {c d : C}

/-- An erasure takes out the first of the channels that is there. -/
theorem channels_doErase (s : SocketSet C) (c : C) :
    (s.doErase c).channels = s.channels.erase c := by
  have herase : s.channels.erase c = s.channels.eraseP fun d => decide (d = c) := by
    rw [List.erase_eq_eraseP']
    rfl
  rw [herase, List.eraseP_eq_eraseIdx, doErase]
  cases s.channels.findIdx? fun d => decide (d = c) <;> rfl

/-- The current channel is another one after it was erased. -/
theorem current_doErase (hd : (s.doErase c).current = some d) :
    s.current = some d ∧ (c ∈ s.channels → d ≠ c) := by
  rw [doErase] at hd
  split at hd
  next hnone =>
    refine ⟨hd, fun hc => ?_⟩
    rw [List.findIdx?_eq_none_iff] at hnone
    exact absurd (hnone c hc) (by simp)
  next =>
    dsimp only at hd
    split at hd
    next => cases hd
    next hc =>
      refine ⟨hd, fun _ => ?_⟩
      rintro rfl
      exact hc hd

/-- What is still remembered stays in the list. -/
theorem mem_doErase (hd : (s.doErase c).current = some d) (hmem : d ∈ s.channels) :
    d ∈ (s.doErase c).channels := by
  rw [channels_doErase]
  by_cases hc : c ∈ s.channels
  · exact (List.mem_erase_of_ne ((current_doErase hd).2 hc)).mpr hmem
  · rwa [List.erase_of_not_mem hc]

end Erase

/-! ### The members -/

/-- A handle that is stored for a channel and still open is the one of the channel, and the
channel that is remembered is a member that is ready. -/
structure Members (w : Net C) (s : SocketSet C) : Prop where
  length_eq : s.natives.length = s.channels.length
  handle : ∀ (i : ℕ) (c : C) (h : ℤ), s.channels[i]? = some c → s.natives[i]? = some h →
    h ≠ noSocket → w.isOpen h = true → w.sock c = h
  current : ∀ c, s.current = some c → c ∈ s.channels ∧ w.Ready c

/-- An empty set has no members. -/
theorem members_empty (w : Net C) : Members w {} where
  length_eq := rfl
  handle := by simp
  current := by simp

/-- What a wait can end with: something to read was remembered before, a handle is not open,
or there is a member to remember or none. -/
theorem doWaitFor_cases {w : Net C} {s : SocketSet C} (hs : Members w s) :
    ((s.isOpen = false ∨ s.current ≠ none) ∧ s.doWaitFor w = .ok (true, s)) ∨
      (s.isOpen = true ∧ s.current = none ∧
        (HasClosed w s.natives ∧ s.doWaitFor w = .ok (true, s) ∨
          ¬ HasClosed w s.natives ∧ (s.doWaitFor w = .ok (false, s) ∨
            ∃ c ∈ s.channels, w.Ready c ∧
              s.doWaitFor w = .ok (true, { s with current := some c })))) := by
  by_cases hopen : s.isOpen = false ∨ s.current ≠ none
  · refine .inl ⟨hopen, ?_⟩
    rw [doWaitFor, if_pos]
    simpa [Option.isSome_iff_ne_none] using hopen
  rw [not_or, not_not, Bool.not_eq_false] at hopen
  refine .inr ⟨hopen.1, hopen.2, ?_⟩
  have hrun : s.doWaitFor w =
      (doSelect w s.natives).map fun (rc, index) => (rc != 0, s.remember rc index) := by
    rw [doWaitFor, if_neg (by simp [hopen])]
  by_cases hclosed : HasClosed w s.natives
  · exact .inl ⟨hclosed, by rw [hrun, doSelect_of_closed hclosed]; rfl⟩
  refine .inr ⟨hclosed, ?_⟩
  rcases doSelect_of_open hclosed with hselect | ⟨i, h, hi, hne, hisOpen, hreadable, hselect⟩
  · exact .inl (by rw [hrun, hselect]; rfl)
  · have hlt : i < s.channels.length := by
      rw [← hs.length_eq]
      exact (List.getElem?_eq_some_iff.mp hi).1
    have hc := List.getElem?_eq_getElem hlt
    have hremember : s.remember 1 (some i) = { s with current := some s.channels[i] } := by
      rw [remember, if_pos ⟨by decide, hlt⟩, hc]
    refine .inr ⟨s.channels[i], List.getElem_mem hlt, .inr ?_, ?_⟩
    · rw [hs.handle i _ h hc hi hne hisOpen]
      exact hreadable
    · rw [hrun, hselect, ← hremember]
      rfl

/-- What a read changes is what is remembered. -/
theorem read_set {w : Net C} {s s' : SocketSet C} {c : Option C} (h : s.read w = .ok (c, s')) :
    s' = s ∨ s' = { s with current := none } := by
  rw [read] at h
  split at h
  next => exact .inl (Prod.mk.inj (Except.ok.inj h)).2.symm
  next =>
    split at h
    next => exact .inr (Prod.mk.inj (Except.ok.inj h)).2.symm
    next =>
      cases hselect : doSelect w s.natives with
      | error err =>
          rw [hselect] at h
          cases h
      | ok r =>
          rw [hselect] at h
          exact .inl (Prod.mk.inj (Except.ok.inj h)).2.symm

/-- A change keeps what is ready. -/
theorem ready_change [DecidableEq C] {w : Net C} {c : C} (h : w.Ready c) (e : Change C) :
    (w.change e).Ready c := by
  cases e with
  | arrive g =>
      refine h.imp_right fun hreadable => ?_
      change Function.update w.isReadable g true (w.sock c) = true
      rw [Function.update_apply]
      split
      next => rfl
      next => exact hreadable
  | close d =>
      rw [Net.change]
      split
      next =>
        by_cases hcd : c = d
        · exact .inl (by rw [hcd]; exact Function.update_self ..)
        · have hsock : Function.update w.sock d noSocket c = w.sock c :=
            Function.update_of_ne hcd ..
          rw [Net.Ready]
          dsimp only
          rwa [hsock]
      next => exact h

namespace Members

variable {w : Net C} {s : SocketSet C}

/-- The network can change. -/
theorem change [DecidableEq C] (h : Members w s) (e : Change C) : Members (w.change e) s where
  length_eq := h.length_eq
  handle := by
    intro i c g hc hg hne hopen
    cases e with
    | arrive k => exact h.handle i c g hc hg hne hopen
    | close d =>
        rw [Net.change] at hopen ⊢
        split at hopen
        next hd =>
          rw [if_pos hd]
          dsimp only at hopen ⊢
          have hgd : g ≠ w.sock d := by
            rintro rfl
            rw [Function.update_self] at hopen
            cases hopen
          rw [Function.update_of_ne hgd] at hopen
          have hsock := h.handle i c g hc hg hne hopen
          rw [Function.update_of_ne (by rintro rfl; exact hgd hsock.symm), hsock]
        next hd =>
          rw [if_neg hd]
          exact h.handle i c g hc hg hne hopen
  current c hc := ⟨(h.current c hc).1, ready_change (h.current c hc).2 e⟩

/-- An inserted channel is a member. -/
theorem insert (h : Members w s) (c : C) : Members w (s.doInsert c (w.sock c)) where
  length_eq := by simp [doInsert, h.length_eq]
  handle := by
    intro i d g hd hg hne hopen
    simp only [doInsert] at hd hg
    by_cases hi : i < s.channels.length
    · rw [List.getElem?_append_left hi] at hd
      rw [List.getElem?_append_left (h.length_eq ▸ hi)] at hg
      exact h.handle i d g hd hg hne hopen
    · rw [List.getElem?_append_right (Nat.le_of_not_lt hi)] at hd
      rw [List.getElem?_append_right (h.length_eq ▸ Nat.le_of_not_lt hi), h.length_eq] at hg
      rw [List.getElem?_singleton] at hd hg
      split at hd
      next hlast =>
        rw [if_pos hlast] at hg
        rw [← Option.some.inj hd, Option.some.inj hg]
      next => cases hd
  current d hd := ⟨List.mem_append_left _ (h.current d hd).1, (h.current d hd).2⟩

/-- An erased channel is no member. -/
theorem erase [DecidableEq C] (h : Members w s) (c : C) : Members w (s.doErase c) := by
  suffices hlists : (s.doErase c).natives.length = (s.doErase c).channels.length ∧
      ∀ (i : ℕ) (d : C) (g : ℤ), (s.doErase c).channels[i]? = some d →
        (s.doErase c).natives[i]? = some g → g ≠ noSocket → w.isOpen g = true → w.sock d = g by
    refine ⟨hlists.1, hlists.2, fun d hd => ?_⟩
    obtain ⟨hmem, hready⟩ := h.current d (current_doErase hd).1
    exact ⟨mem_doErase hd hmem, hready⟩
  rw [doErase]
  split
  next => exact ⟨h.length_eq, h.handle⟩
  next i hi =>
    obtain ⟨hlt, -⟩ := List.findIdx?_eq_some_iff_getElem.mp hi
    constructor
    · dsimp only
      rw [List.length_eraseIdx_of_lt (h.length_eq ▸ hlt), List.length_eraseIdx_of_lt hlt,
        h.length_eq]
    · intro j d g hd hg
      dsimp only at hd hg
      rw [List.getElem?_eraseIdx] at hd hg
      split at hd
      next hj =>
        rw [if_pos hj] at hg
        exact h.handle j d g hd hg
      next hj =>
        rw [if_neg hj] at hg
        exact h.handle (j + 1) d g hd hg

/-- A cleared set has no members. -/
theorem clear (w : Net C) (s : SocketSet C) : Members w s.clear where
  length_eq := rfl
  handle := by simp [SocketSet.clear]
  current := by simp [SocketSet.clear]

/-- Waiting keeps the members. -/
theorem waitFor (h : Members w s) {b : Bool} {s' : SocketSet C}
    (hwait : s.doWaitFor w = .ok (b, s')) : Members w s' := by
  have hsame (b' : Bool) (hrun : s.doWaitFor w = .ok (b', s)) : Members w s' := by
    rw [hrun] at hwait
    exact (Prod.mk.inj (Except.ok.inj hwait)).2 ▸ h
  rcases doWaitFor_cases h with ⟨-, hrun⟩ | ⟨-, -, ⟨-, hrun⟩ | ⟨-, hrun | ⟨c, hc, hready, hrun⟩⟩⟩
  · exact hsame _ hrun
  · exact hsame _ hrun
  · exact hsame _ hrun
  · rw [hrun] at hwait
    rw [← (Prod.mk.inj (Except.ok.inj hwait)).2]
    refine { h with current := fun d hd => ?_ }
    rw [← Option.some.inj hd]
    exact ⟨hc, hready⟩

/-- Reading keeps the members. -/
theorem read (h : Members w s) {c : Option C} {s' : SocketSet C} (hread : s.read w = .ok (c, s')) :
    Members w s' := by
  rcases read_set hread with rfl | rfl
  · exact h
  · exact { h with current := by simp }

/-- Every event keeps the members. -/
theorem step [DecidableEq C] (h : Members w s) (e : Event C) :
    Members (SocketSet.step w s e).1 (SocketSet.step w s e).2 := by
  cases e with
  | insert c => exact h.insert c
  | erase c => exact h.erase c
  | clear => exact clear w s
  | close => exact { h with }
  | waitFor =>
      rw [SocketSet.step]
      split
      next hwait => exact h.waitFor hwait
      next => exact h
  | read =>
      rw [SocketSet.step]
      split
      next hread => exact h.read hread
      next => exact h
  | change e => exact h.change e

end Members

variable [DecidableEq C]

/-- The members are right in every run. -/
theorem members_of_reach {w₀ : Net C} {s : Net C × SocketSet C} (h : (sets w₀).Reachable s) :
    Members s.1 s.2 := by
  refine h.invariant (I := fun s => Members s.1 s.2) (members_empty w₀) ?_
  rintro s e s' hs - hnext
  obtain ⟨-, rfl⟩ := Machine.of_guard hnext
  exact hs.step e

/-! ### Reading after a wait -/

/-- If the set is open, a wait is defined, and if it succeeds, whatever happens to the sockets
then, the next read is defined and yields a member that is ready. -/
def WaitKept (w : Net C) (s : SocketSet C) : Prop :=
  s.isOpen = true → s.WaitDefined ∧
    ∀ s', s.doWaitFor w = .ok (true, s') → ∀ changes : List (Change C),
      let w' := changes.foldl Net.change w
      s'.ReadDefined ∧ ∃ c s'', s'.read w' = .ok (some c, s'') ∧ c ∈ s'.channels ∧ w'.Ready c

/-- What is remembered is read. -/
theorem read_of_current {w : Net C} {s : SocketSet C} (hs : Members w s) (hopen : s.isOpen = true)
    {c : C} (hc : s.current = some c) (changes : List (Change C)) :
    let w' := changes.foldl Net.change w
    s.ReadDefined ∧ ∃ c s', s.read w' = .ok (some c, s') ∧ c ∈ s.channels ∧ w'.Ready c := by
  intro w'
  obtain ⟨hmem, hready⟩ := hs.current c hc
  refine ⟨fun _ _ hnone => ?_, c, { s with current := none }, ?_, hmem, ?_⟩
  · rw [hc] at hnone
    cases hnone
  · rw [read, if_neg, hc]
    simp [hopen, List.ne_nil_of_mem hmem]
  · have hlater : ∀ (changes : List (Change C)) (w : Net C), w.Ready c →
        (changes.foldl Net.change w).Ready c := by
      intro changes
      induction changes with
      | nil => exact fun _ h => h
      | cons e changes ih => exact fun w h => ih _ (ready_change h e)
    exact hlater changes w hready

/-- **Waiting and reading.** In every run, a wait of an open set is defined, and the read
after it yields a member that is ready, exactly if the set still remembers one, or all the
handles that it stores fit and are open. -/
theorem waitKept_iff {w₀ w : Net C} {s : SocketSet C} (h : (sets w₀).Reachable (w, s)) :
    WaitKept w s ↔
      (s.isOpen = true → s.current = none →
        FitsFdSet s.natives ∧ ¬ HasClosed w s.natives) := by
  have hs : Members w s := members_of_reach h
  constructor
  · intro hkept hopen hnone
    refine ⟨(hkept hopen).1 hopen hnone, fun hclosed => ?_⟩
    have hwait : s.doWaitFor w = .ok (true, s) := by
      rw [doWaitFor, if_neg (by simp [hopen, hnone]), doSelect_of_closed hclosed]
      rfl
    obtain ⟨-, c, s', hread, -⟩ := (hkept hopen).2 s hwait []
    have hempty : s.channels ≠ [] := by
      obtain ⟨h, hmem, -⟩ := hclosed
      rw [← List.length_pos_iff, ← hs.length_eq]
      exact List.length_pos_of_mem hmem
    rw [List.foldl_nil, read, if_neg (by simp [hopen, hempty]), hnone] at hread
    dsimp only at hread
    rw [doSelect_of_closed hclosed] at hread
    cases hread
  · intro hok hopen
    refine ⟨fun _ hnone => (hok hopen hnone).1, fun s' hwait changes => ?_⟩
    rcases doWaitFor_cases hs with ⟨hcases, hrun⟩ | ⟨-, hnone, ⟨hclosed, -⟩ | ⟨-, hrun | hrun⟩⟩
    · obtain rfl : s = s' := (Prod.mk.inj (Except.ok.inj (hrun.symm.trans hwait))).2
      obtain ⟨c, hc⟩ := Option.ne_none_iff_exists'.mp (hcases.resolve_left (by simp [hopen]))
      exact read_of_current hs hopen hc changes
    · exact absurd hclosed (hok hopen hnone).2
    · rw [hrun] at hwait
      cases hwait
    · obtain ⟨c, -, -, hrun⟩ := hrun
      obtain rfl := (Prod.mk.inj (Except.ok.inj (hrun.symm.trans hwait))).2
      exact read_of_current (hs.waitFor hrun) hopen rfl changes

/-- A set with one socket that can be read. -/
theorem waitKept_iff_readable :
    let w : Net Unit := ⟨fun _ => 5, fun _ => true, fun _ => true⟩
    let s : SocketSet Unit := ⟨[()], [5], none, true⟩
    WaitKept w s ↔
      (s.isOpen = true → s.current = none →
        FitsFdSet s.natives ∧ ¬ HasClosed w s.natives) :=
  waitKept_iff (.step .start (e := .insert ()) trivial rfl)

/-- The wait succeeds because of a member that has been closed, and the read finds nothing. -/
theorem waitKept_fails :
    ¬ ∀ (w₀ : Net Unit) (s : Net Unit × SocketSet Unit), (sets w₀).Reachable s →
      WaitKept s.1 s.2 := by
  intro h
  have hkept := h ⟨fun _ => 5, fun _ => true, fun _ => false⟩ _ (.step (.step .start
    (e := .insert ()) trivial rfl) (e := .change (.close ())) trivial rfl)
  obtain ⟨-, c, s', hread, -⟩ := (hkept rfl).2 _ rfl []
  cases hread

end SocketSet

end RsIo
