import RsIo.SocketSetEntries
import Mathlib.Data.Finset.Card

/-!
# A Set of Sockets as a Set

`do_insert` of `SocketSet` puts a channel at the end of its list, also if it is there already.
`do_erase` takes the first one out. As long as no channel is inserted that is a member, the list
is that of a finite set.

## Main results

* `isSet_of_reach`: the set in a run in which no member is inserted.
* `not_isSet_insert`: a member that is inserted is counted twice.
-/

namespace RsIo

namespace SocketSet

variable {C : Type}

/-- The set after a call: the members that a set is meant to have. -/
def membersAfter [DecidableEq C] (members : Finset C) : Event C → Finset C
  | .insert c => insert c members
  | .erase c => members.erase c
  | .clear => ∅
  | _ => members

/-- The sockets, a `SocketSet` and the set that it stands for. -/
structure Counted (C : Type) where
  net : Net C
  set : SocketSet C
  members : Finset C

/-- One event. -/
def Counted.after [DecidableEq C] (s : Counted C) (e : Event C) : Counted C :=
  let t := step s.net s.set e
  ⟨t.1, t.2, membersAfter s.members e⟩

/-- A new set and any sockets, with any events in any order. -/
def counted [DecidableEq C] (w : Net C) : Machine (Counted C) (Event C) where
  start := ⟨w, {}, ∅⟩
  next s e := some (s.after e)

/-- The set has the size and the members of the set that it stands for, and waits and reads
report members only, whatever happens to the sockets. -/
structure IsSet (s : Counted C) : Prop where
  size : s.set.channels.length = s.members.card
  mem : ∀ c, c ∈ s.set.channels ↔ c ∈ s.members
  waits : ∀ w b t, s.set.doWaitFor w = .ok (b, t) → ∀ c, t.current = some c → c ∈ s.members
  reads : ∀ w c t, s.set.read w = .ok (some c, t) → c ∈ s.members

/-- A channel that is inserted is not a member. -/
def Fresh (s : Counted C) (e : Event C) : Prop := ∀ c, e = .insert c → c ∉ s.members

/-! ### What the list holds -/

/-- The list has every member once, and a channel that is remembered is one of them. -/
structure Lists (s : SocketSet C) (members : Finset C) : Prop where
  nodup : s.channels.Nodup
  mem : ∀ c, c ∈ s.channels ↔ c ∈ members
  current : ∀ c, s.current = some c → c ∈ members

variable {w : Net C} {s t : SocketSet C} {members : Finset C}

/-- A wait remembers a channel from the list, or what it did before. -/
theorem doWaitFor_current {b : Bool} (h : s.doWaitFor w = .ok (b, t)) :
    t.channels = s.channels ∧ ∀ c, t.current = some c → c ∈ s.channels ∨ s.current = some c := by
  rw [doWaitFor_eq_with] at h
  rcases doWaitForWith_cases h with rfl | ⟨d, hd, rfl⟩
  · exact ⟨rfl, fun c hc => .inr hc⟩
  · refine ⟨rfl, fun c hc => .inl ?_⟩
    rwa [← Option.some.inj hc]

/-- A read yields a channel from the list, or what is remembered. -/
theorem read_some {c : C} (h : s.read w = .ok (some c, t)) :
    c ∈ s.channels ∨ s.current = some c := by
  rw [read_eq_with] at h
  rcases readWith_cases h with ⟨d, hcurrent, hd, -⟩ | ⟨-, hc | ⟨-, rc, index, -, hc⟩⟩
  · exact .inr (hcurrent.trans hd.symm)
  · cases hc
  · obtain ⟨i, -, hi⟩ := Option.bind_eq_some_iff.mp hc.symm
    exact .inl (List.mem_of_getElem? hi)

namespace Lists

theorem isSet {n : Net C} (h : Lists s members) : IsSet ⟨n, s, members⟩ where
  size := by
    classical
    rw [← List.toFinset_card_of_nodup h.nodup]
    congr 1
    ext c
    rw [List.mem_toFinset, h.mem]
  mem := h.mem
  waits w b t hwait c hc := by
    rcases (doWaitFor_current hwait).2 c hc with hmem | hcurrent
    · exact (h.mem c).mp hmem
    · exact h.current c hcurrent
  reads w c t hread := by
    rcases read_some hread with hmem | hcurrent
    · exact (h.mem c).mp hmem
    · exact h.current c hcurrent

theorem empty (s : SocketSet C) (h : s.channels = []) (hcurrent : s.current = none) :
    Lists s ∅ where
  nodup := h ▸ List.nodup_nil
  mem c := by simp [h]
  current c hc := by
    rw [hcurrent] at hc
    cases hc

theorem waitFor (h : Lists s members) {b : Bool} (hwait : s.doWaitFor w = .ok (b, t)) :
    Lists t members := by
  obtain ⟨hchannels, hcurrent⟩ := doWaitFor_current hwait
  refine ⟨hchannels ▸ h.nodup, hchannels ▸ h.mem, fun c hc => ?_⟩
  exact (hcurrent c hc).elim (h.mem c).mp (h.current c)

theorem read (h : Lists s members) {c : Option C} (hread : s.read w = .ok (c, t)) :
    Lists t members := by
  rcases read_set hread with rfl | rfl
  · exact h
  · exact ⟨h.nodup, h.mem, fun c hc => by cases hc⟩

variable [DecidableEq C]

theorem insert (h : Lists s members) {c : C} (hc : c ∉ members) (g : ℤ) :
    Lists (s.doInsert c g) (insert c members) where
  nodup := by
    rw [doInsert, List.nodup_append]
    refine ⟨h.nodup, List.nodup_singleton c, fun d hd e he => ?_⟩
    rw [List.mem_singleton.mp he]
    rintro rfl
    exact hc ((h.mem d).mp hd)
  mem d := by
    rw [doInsert, List.mem_append, List.mem_singleton, h.mem, Finset.mem_insert, or_comm]
  current d hd := Finset.mem_insert_of_mem (h.current d hd)

theorem erase (h : Lists s members) (c : C) : Lists (s.doErase c) (members.erase c) where
  nodup := channels_doErase s c ▸ h.nodup.erase c
  mem d := by
    rw [channels_doErase, h.nodup.mem_erase_iff, h.mem, Finset.mem_erase]
  current d hd := by
    obtain ⟨hcurrent, hne⟩ := current_doErase hd
    have hmem := h.current d hcurrent
    refine Finset.mem_erase.mpr ⟨?_, hmem⟩
    rintro rfl
    exact hne ((h.mem d).mpr hmem) rfl

/-- One event, if no member is inserted. -/
theorem after {s : Counted C} (h : Lists s.set s.members) {e : Event C} (hfresh : Fresh s e) :
    Lists (s.after e).set (s.after e).members := by
  cases e with
  | insert c => exact h.insert (hfresh c rfl) _
  | erase c => exact h.erase c
  | clear => exact empty _ rfl rfl
  | close => exact ⟨h.nodup, h.mem, h.current⟩
  | waitFor =>
      simp only [Counted.after, membersAfter, step]
      cases hwait : s.set.doWaitFor s.net with
      | ok r => exact h.waitFor hwait
      | error => exact h
  | read =>
      simp only [Counted.after, membersAfter, step]
      cases hread : s.set.read s.net with
      | ok r => exact h.read hread
      | error => exact h
  | change e => exact h

end Lists

/-! ### Runs -/

variable [DecidableEq C]

/-- A member that is inserted once more is counted once more. -/
theorem not_isSet_insert {s : Counted C} (h : IsSet s) {e : Event C} (hbad : ¬ Fresh s e) :
    ¬ IsSet (s.after e) := by
  intro hafter
  simp only [Fresh, not_forall, not_not] at hbad
  obtain ⟨c, rfl, hc⟩ := hbad
  have hsize := hafter.size
  change (s.set.channels ++ [c]).length = (Insert.insert c s.members).card at hsize
  rw [List.length_append, List.length_singleton, Finset.insert_eq_of_mem hc, h.size] at hsize
  omega

/-- **Sets.** In every run in which no channel is inserted that is a member, a `SocketSet` is the
set of the channels that were inserted and not erased since. -/
theorem isSet_of_reach {w : Net C} {s : Counted C} (h : (counted w).Reach Fresh s) : IsSet s := by
  refine (Machine.Reach.invariant (I := fun s => Lists s.set s.members)
    (Lists.empty _ rfl rfl) (fun s e s' hs hfresh hnext => ?_) h).isSet
  rw [← Option.some.inj hnext]
  exact hs.after hfresh

/-- Two sockets, one of which is erased. -/
theorem isSet_of_reach_erase :
    let w : Net Bool := ⟨fun c => if c then 5 else 6, fun _ => true, fun _ => true⟩
    IsSet ((((counted w).start.after (.insert true)).after (.insert false)).after
      (.erase true)) := by
  intro w
  have hfirst : (counted w).Reach Fresh ((counted w).start.after (.insert true)) :=
    .step .start (fun c h => Finset.notMem_empty c) rfl
  have hsecond : (counted w).Reach Fresh
      (((counted w).start.after (.insert true)).after (.insert false)) := by
    refine .step hfirst (fun c h => ?_) rfl
    obtain rfl := Event.insert.inj h
    decide
  exact isSet_of_reach (.step hsecond (e := .erase true) (fun c h => by cases h) rfl)

/-- A socket that is inserted twice makes a set of two. -/
theorem isSet_fails :
    ¬ ∀ (w : Net Unit) (s : Counted Unit), (counted w).Reachable s → IsSet s := by
  intro hall
  have hset := hall ⟨fun _ => 5, fun _ => true, fun _ => true⟩ _ (.step (.step .start
    (e := .insert ()) trivial rfl) (e := .insert ()) trivial rfl)
  exact absurd hset.size (by decide)

end SocketSet

end RsIo
