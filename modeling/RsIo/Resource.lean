import RsIo.Transition
import Mathlib.Logic.Equiv.Basic

/-!
# Owned Handles

The class template `Resource` of `utility.hpp` holds a handle and calls a deleter on it when
the object is destroyed. Handles pass from one object to another by moves, and leave the
objects by `release`.

The objects of a program are the cells of a `Heap`, by their addresses. Each member function
changes cells in the order in which the source assigns to them, so the source and the target
of an operation may be one object. The heap also records the handles that the objects were
constructed from, those that were released, and the calls of the deleter.

What has become of each handle is its `Status`. A handle has one status at a time, which is
what the class is for: `Agrees` relates the heap to it.

## Main results

* `Agrees.move`: handles that only change places.
* `step_agrees`: every operation keeps the heap and the statuses in agreement.
* `custody`: in every run a handle has one owner, or it was released or deleted, once.
* `fdioClosed_spec`: what follows for the descriptors that are closed.
-/

namespace RsIo

namespace Resource

universe u v

variable {ι : Type u} {T : Type v}

/-- The `value_` of the objects that are alive, by their addresses, and what happened to the
handles. -/
structure Heap (ι : Type u) (T : Type v) where
  value : ι → Option T
  constructed : List T
  released : List T
  deleted : List T

namespace Heap

variable [DecidableEq ι] [DecidableEq T] (null : T) (s : Heap ι T)

/-- Assigns to `value_`. -/
def assign (i : ι) (t : Option T) : Heap ι T :=
  { s with value := Function.update s.value i t }

/-- `Resource(T t)`. -/
def construct (i : ι) (t : T) : Heap ι T :=
  { s.assign i (some t) with constructed := s.constructed ++ [t] }

/-- `Resource()`. -/
def constructNull (i : ι) : Heap ι T := s.assign i (some null)

/-- `std::exchange(value_, Null)`. -/
def exchange (i : ι) : Option T × Heap ι T := (s.value i, s.assign i (some null))

/-- `Resource(Resource&& r)`. -/
def moveConstruct (i r : ι) : Heap ι T :=
  let (t, s) := s.exchange null r
  s.assign i t

/-- `reset()`: the deleter is called before the handle is overwritten. -/
def reset (i : ι) : Heap ι T :=
  match s.value i with
  | none => s
  | some t =>
      if t ≠ null then
        let s := { s with deleted := s.deleted ++ [t] }
        s.assign i (some null)
      else s

/-- `operator=(Resource&& r)`. -/
def moveAssign (i r : ι) : Heap ι T :=
  if r ≠ i then
    let s := s.reset null i
    let (t, s) := s.exchange null r
    s.assign i t
  else s

/-- `swap(a, b)`. -/
def swap (a b : ι) : Heap ι T :=
  let t := s.value a
  let s := s.assign a (s.value b)
  s.assign b t

/-- `release()`, which returns the handle. -/
def release (i : ι) : Heap ι T :=
  let (t, s) := s.exchange null i
  { s with released := s.released ++ t.toList }

/-- `~Resource()`. -/
def destroy (i : ι) : Heap ι T :=
  let s := s.reset null i
  s.assign i none

/-! ### Assigning and resetting -/

section Reset

variable {null} {s} {i : ι}

omit [DecidableEq T] in
/-- The new value of an object. -/
@[simp] theorem assign_value (t : Option T) :
    (s.assign i t).value = Function.update s.value i t := rfl

omit [DecidableEq T] in
/-- An assignment constructs nothing. -/
@[simp] theorem assign_constructed (t : Option T) :
    (s.assign i t).constructed = s.constructed := rfl

omit [DecidableEq T] in
/-- An assignment releases nothing. -/
@[simp] theorem assign_released (t : Option T) : (s.assign i t).released = s.released := rfl

omit [DecidableEq T] in
/-- An assignment deletes nothing. -/
@[simp] theorem assign_deleted (t : Option T) : (s.assign i t).deleted = s.deleted := rfl

/-- An object that was destroyed is not reset. -/
theorem reset_of_none (hi : s.value i = none) : s.reset null i = s := by
  rw [reset, hi]

/-- An object that holds nothing deletes nothing. -/
theorem reset_of_null (hi : s.value i = some null) : s.reset null i = s := by
  rw [reset, hi]
  exact if_neg (not_not.mpr rfl)

/-- An object deletes what it holds. -/
theorem reset_of_ne {t : T} (hi : s.value i = some t) (ht : t ≠ null) :
    s.reset null i = { s with deleted := s.deleted ++ [t] }.assign i (some null) := by
  rw [reset, hi]
  exact if_pos ht

/-- What a reset leaves as it was: which objects there are, and which handles came and were
released. -/
theorem reset_frame (null : T) (s : Heap ι T) (i : ι) :
    (∀ k, (s.reset null i).value k = none ↔ s.value k = none) ∧
      (s.reset null i).constructed = s.constructed ∧
      (s.reset null i).released = s.released := by
  cases hi : s.value i with
  | none =>
      rw [reset_of_none hi]
      exact ⟨fun _ => Iff.rfl, rfl, rfl⟩
  | some t =>
      rcases eq_or_ne t null with rfl | ht
      · rw [reset_of_null hi]
        exact ⟨fun _ => Iff.rfl, rfl, rfl⟩
      · rw [reset_of_ne hi ht]
        refine ⟨fun k => ?_, rfl, rfl⟩
        rcases eq_or_ne k i with rfl | hk
        · simp [hi]
        · rw [assign_value, Function.update_of_ne hk]

omit [DecidableEq T] in
/-- What a move into a new object leaves as it was. -/
theorem moveConstruct_frame (null : T) {s : Heap ι T} (i : ι) {r : ι} (hr : s.value r ≠ none) :
    (∀ k, (s.moveConstruct null i r).value k = none ↔ s.value k = none ∧ k ≠ i) ∧
      (s.moveConstruct null i r).constructed = s.constructed ∧
      (s.moveConstruct null i r).released = s.released := by
  refine ⟨fun k => ?_, rfl, rfl⟩
  simp only [moveConstruct, exchange, assign_value]
  rcases eq_or_ne k i with rfl | hk
  · simp [hr]
  · rw [Function.update_of_ne hk]
    rcases eq_or_ne k r with rfl | hkr
    · simp [hr]
    · simp [hkr, hk]

/-- An assignment from another object is a reset and a move. -/
theorem moveAssign_of_ne {r : ι} (h : r ≠ i) :
    s.moveAssign null i r = (s.reset null i).moveConstruct null i r :=
  if_pos h

/-- What an assignment leaves as it was. -/
theorem moveAssign_frame (null : T) {s : Heap ι T} {i r : ι} (hi : s.value i ≠ none)
    (hr : s.value r ≠ none) :
    (∀ k, (s.moveAssign null i r).value k = none ↔ s.value k = none) ∧
      (s.moveAssign null i r).constructed = s.constructed ∧
      (s.moveAssign null i r).released = s.released := by
  by_cases hne : r ≠ i
  · rw [moveAssign_of_ne hne]
    obtain ⟨hvalue, hconstructed, hreleased⟩ := reset_frame null s i
    obtain ⟨hvalue', hconstructed', hreleased'⟩ :=
      moveConstruct_frame null i (mt (hvalue r).mp hr)
    refine ⟨fun k => ?_, hconstructed'.trans hconstructed, hreleased'.trans hreleased⟩
    rw [hvalue' k, hvalue k, and_iff_left_iff_imp]
    rintro hk rfl
    exact hi hk
  · rw [moveAssign, if_neg hne]
    exact ⟨fun _ => Iff.rfl, rfl, rfl⟩

/-- What the end of an object leaves as it was. -/
theorem destroy_frame (null : T) (s : Heap ι T) (i : ι) :
    (∀ k, (s.destroy null i).value k = none ↔ s.value k = none ∨ k = i) ∧
      (s.destroy null i).constructed = s.constructed ∧
      (s.destroy null i).released = s.released := by
  obtain ⟨hvalue, hconstructed, hreleased⟩ := reset_frame null s i
  refine ⟨fun k => ?_, hconstructed, hreleased⟩
  rw [destroy, assign_value]
  rcases eq_or_ne k i with rfl | hk
  · simp
  · rw [Function.update_of_ne hk, hvalue k, or_iff_left hk]

/-- Destroying an object that was reset is destroying it. -/
theorem reset_destroy : (s.reset null i).destroy null i = s.destroy null i := by
  have htwice : (s.reset null i).reset null i = s.reset null i := by
    cases hi : s.value i with
    | none => rw [reset_of_none hi, reset_of_none hi]
    | some t =>
        rcases eq_or_ne t null with rfl | ht
        · rw [reset_of_null hi, reset_of_null hi]
        · rw [reset_of_ne hi ht]
          exact reset_of_null (Function.update_self ..)
  rw [destroy, destroy, htwice]

end Reset

end Heap

/-! ### Runs -/

/-- What a program does with objects. -/
inductive Op (ι : Type u) (T : Type v)
  | construct (i : ι) (t : T)
  | constructNull (i : ι)
  | moveConstruct (i r : ι)
  | moveAssign (i r : ι)
  | swap (a b : ι)
  | reset (i : ι)
  | release (i : ι)
  | destroy (i : ι)

variable [DecidableEq ι] [DecidableEq T] (null : T)

/-- One operation. An object is constructed where there is none, and the other operations
need the objects that they work on. -/
def step (s : Heap ι T) : Op ι T → Option (Heap ι T)
  | .construct i t => if s.value i = none then some (s.construct i t) else none
  | .constructNull i => if s.value i = none then some (s.constructNull null i) else none
  | .moveConstruct i r =>
      if s.value i = none ∧ s.value r ≠ none then some (s.moveConstruct null i r) else none
  | .moveAssign i r =>
      if s.value i ≠ none ∧ s.value r ≠ none then some (s.moveAssign null i r) else none
  | .swap a b => if s.value a ≠ none ∧ s.value b ≠ none then some (s.swap a b) else none
  | .reset i => if s.value i ≠ none then some (s.reset null i) else none
  | .release i => if s.value i ≠ none then some (s.release null i) else none
  | .destroy i => if s.value i ≠ none then some (s.destroy null i) else none

/-- A program that starts without objects. -/
def machine : Machine (Heap ι T) (Op ι T) where
  start := ⟨fun _ => none, [], [], []⟩
  next := step null

/-- A handle that an object is constructed from is fresh, or null. -/
def Fresh (s : Heap ι T) : Op ι T → Prop
  | .construct _ t => t = null ∨ t ∉ s.constructed
  | _ => True

/-- Whether an operation constructs a fresh value can be computed. -/
instance (s : Heap ι T) : ∀ op, Decidable (Fresh null s op)
  | .construct _ t => inferInstanceAs (Decidable (t = null ∨ t ∉ s.constructed))
  | .constructNull _ | .moveConstruct _ _ | .moveAssign _ _ | .swap _ _ | .reset _ | .release _
  | .destroy _ => .isTrue trivial

/-! ### What became of the handles -/

/-- What became of a handle. -/
inductive Status (ι : Type u)
  | unused
  | heldBy (i : ι)
  | released
  | deleted
  deriving DecidableEq

/-- The heap and the statuses of the handles that are not null agree. -/
structure Agrees (s : Heap ι T) (status : T → Status ι) : Prop where
  held : ∀ i t, t ≠ null → (s.value i = some t ↔ status t = .heldBy i)
  constructed : ∀ t, t ≠ null → (t ∈ s.constructed ↔ status t ≠ .unused)
  released : ∀ t, t ≠ null → (t ∈ s.released ↔ status t = .released)
  deleted : ∀ t, s.deleted.count t = if t ≠ null ∧ status t = .deleted then 1 else 0

namespace Agrees

variable {null} {s s' : Heap ι T} {status : T → Status ι}

/-- The status of a handle after two objects have changed places. -/
def rename (i j : ι) : Status ι → Status ι
  | .heldBy k => .heldBy (Equiv.swap i j k)
  | st => st

omit [DecidableEq T] in
/-- Two objects exchange what they hold. -/
theorem rename_eq_heldBy_iff (i j k : ι) (st : Status ι) :
    rename i j st = .heldBy k ↔ st = .heldBy (Equiv.swap i j k) := by
  cases st with
  | heldBy l =>
      rw [rename, Status.heldBy.injEq, Status.heldBy.injEq, Equiv.swap_apply_eq_iff]
  | unused => simp [rename]
  | released => simp [rename]
  | deleted => simp [rename]

/-- Handles that only change places. -/
theorem move (h : Agrees null s status) (i j : ι)
    (hvalue : ∀ k t, t ≠ null → (s'.value k = some t ↔ s.value (Equiv.swap i j k) = some t))
    (hconstructed : ∀ t, t ≠ null → (t ∈ s'.constructed ↔ t ∈ s.constructed))
    (hreleased : ∀ t, t ≠ null → (t ∈ s'.released ↔ t ∈ s.released))
    (hdeleted : s'.deleted = s.deleted) : ∃ status', Agrees null s' status' := by
  have hst : ∀ t, ∀ st : Status ι, (∀ k, st ≠ .heldBy k) →
      (rename i j (status t) = st ↔ status t = st) := by
    intro t st hst
    cases status t <;> cases st <;> simp_all [rename]
  refine ⟨fun t => rename i j (status t), fun k t ht => ?_, fun t ht => ?_, fun t ht => ?_,
    fun t => ?_⟩
  · rw [hvalue k t ht, h.held _ t ht, rename_eq_heldBy_iff]
  · rw [hconstructed t ht, h.constructed t ht, ne_eq, ne_eq, hst t .unused (by simp)]
  · rw [hreleased t ht, h.released t ht, hst t .released (by simp)]
  · simp only [hdeleted, h.deleted t, hst t .deleted (by simp)]

/-- A handle that leaves its object, released or deleted. -/
theorem retire (h : Agrees null s status) {i : ι} {t : T} (ht : t ≠ null)
    (hi : s.value i = some t) {st : Status ι} (hst : st = .released ∨ st = .deleted)
    (hvalue : ∀ k u, u ≠ null → (s'.value k = some u ↔ s.value k = some u ∧ u ≠ t))
    (hconstructed : s'.constructed = s.constructed)
    (hreleased : ∀ u, u ≠ null → (u ∈ s'.released ↔ u ∈ s.released ∨ (st = .released ∧ u = t)))
    (hdeleted : s'.deleted = if st = .deleted then s.deleted ++ [t] else s.deleted) :
    Agrees null s' (Function.update status t st) := by
  have hheld : status t = .heldBy i := (h.held i t ht).mp hi
  have hnot : ∀ k, st ≠ .heldBy k := fun k => by rcases hst with rfl | rfl <;> simp
  have hused : st ≠ .unused := by rcases hst with rfl | rfl <;> simp
  refine ⟨fun k u hu => ?_, fun u hu => ?_, fun u hu => ?_, fun u => ?_⟩
  · rw [hvalue k u hu, h.held k u hu]
    rcases eq_or_ne u t with rfl | hne
    · simp [hnot k]
    · simp [hne]
  · rw [hconstructed, h.constructed u hu]
    rcases eq_or_ne u t with rfl | hne
    · simp [hheld, hused]
    · simp [hne]
  · rw [hreleased u hu, h.released u hu]
    rcases eq_or_ne u t with rfl | hne
    · simp [hheld]
    · simp [hne]
  · have hcount := h.deleted u
    rw [hdeleted]
    rcases eq_or_ne u t with rfl | hne
    · rcases hst with rfl | rfl <;> simp_all
    · rcases hst with rfl | rfl <;> simp_all [hne.symm]

/-- A fresh handle that an object is constructed from. -/
theorem acquire (h : Agrees null s status) {i : ι} {t : T} (ht : t ≠ null)
    (hi : s.value i = none) (hfresh : t ∉ s.constructed) :
    Agrees null (s.construct i t) (Function.update status t (.heldBy i)) := by
  have hunused : status t = .unused := by
    by_contra hne
    exact hfresh ((h.constructed t ht).mpr hne)
  refine ⟨fun k u hu => ?_, fun u hu => ?_, fun u hu => ?_, fun u => ?_⟩
  · have hheld := h.held k u hu
    rcases eq_or_ne k i with rfl | hk <;> rcases eq_or_ne u t with rfl | hne
    · simp [Heap.construct, Heap.assign]
    · rw [hi] at hheld
      simp [Heap.construct, Heap.assign, hne, hne.symm, ← hheld]
    · simp [Heap.construct, Heap.assign, hk, hk.symm, hheld, hunused]
    · simp [Heap.construct, Heap.assign, hk, hne, hheld]
  · have hconstructed := h.constructed u hu
    rcases eq_or_ne u t with rfl | hne
    · simp [Heap.construct]
    · simp [Heap.construct, Heap.assign, hne, hconstructed]
  · have hreleased := h.released u hu
    rcases eq_or_ne u t with rfl | hne
    · simp [Heap.construct, Heap.assign, hreleased, hunused]
    · simp [Heap.construct, Heap.assign, hne, hreleased]
  · have hdeleted := h.deleted u
    rcases eq_or_ne u t with rfl | hne
    · simp_all [Heap.construct, Heap.assign]
    · simp_all [Heap.construct, Heap.assign]

/-- A handle has at most one owner. -/
theorem unique (h : Agrees null s status) {t : T} (ht : t ≠ null) {i j : ι}
    (hi : s.value i = some t) (hj : s.value j = some t) : i = j := by
  have hsame := ((h.held i t ht).mp hi).symm.trans ((h.held j t ht).mp hj)
  rwa [Status.heldBy.injEq] at hsame

/-- An object that is set to null was the only one to hold its handle. -/
theorem value_assign_null (h : Agrees null s status) {i : ι} {t : T} (ht : t ≠ null)
    (hi : s.value i = some t) (k : ι) (u : T) (hu : u ≠ null) :
    (s.assign i (some null)).value k = some u ↔ s.value k = some u ∧ u ≠ t := by
  rcases eq_or_ne k i with rfl | hk
  · simp only [Heap.assign, Function.update_self, Option.some.injEq, hi]
    exact ⟨fun h => absurd h.symm hu, fun h => absurd h.1.symm h.2⟩
  · have hother : s.value k = some u → u ≠ t := by
      rintro hku rfl
      exact hk (h.unique hu hku hi)
    simp only [Heap.assign, Function.update_of_ne hk]
    exact ⟨fun hku => ⟨hku, hother hku⟩, And.left⟩

/-- Objects that hold what they held, up to null. -/
theorem congr (h : Agrees null s status)
    (hvalue : ∀ k t, t ≠ null → (s'.value k = some t ↔ s.value k = some t))
    (hconstructed : ∀ t, t ≠ null → (t ∈ s'.constructed ↔ t ∈ s.constructed))
    (hreleased : ∀ t, t ≠ null → (t ∈ s'.released ↔ t ∈ s.released))
    (hdeleted : s'.deleted = s.deleted) : Agrees null s' status where
  held k t ht := (hvalue k t ht).trans (h.held k t ht)
  constructed t ht := (hconstructed t ht).trans (h.constructed t ht)
  released t ht := (hreleased t ht).trans (h.released t ht)
  deleted t := by rw [hdeleted, h.deleted t]

/-- A value was deleted if this is its status. -/
theorem mem_deleted (h : Agrees null s status) {t : T} :
    t ∈ s.deleted ↔ t ≠ null ∧ status t = .deleted := by
  rw [← List.count_pos_iff, h.deleted t]
  split <;> simp_all

/-- The deleter is called once on a handle that is neither null nor released. -/
theorem deleted_once (h : Agrees null s status) (t : T) :
    s.deleted.count t ≤ 1 ∧ (t ∈ s.deleted → t ≠ null ∧ t ∉ s.released) := by
  constructor
  · rw [h.deleted t]
    split <;> omega
  · intro ht
    obtain ⟨hnull, hst⟩ := h.mem_deleted.mp ht
    refine ⟨hnull, fun hrel => ?_⟩
    rw [h.released t hnull, hst] at hrel
    cases hrel

/-- A handle that was neither released nor deleted has an owner. -/
theorem exists_owner (h : Agrees null s status) {t : T} (hnull : t ≠ null)
    (ht : t ∈ s.constructed) (hreleased : t ∉ s.released) (hdeleted : t ∉ s.deleted) :
    ∃ i, s.value i = some t := by
  rw [h.constructed t hnull] at ht
  rw [h.released t hnull] at hreleased
  rw [h.mem_deleted] at hdeleted
  cases hst : status t with
  | unused => exact absurd hst ht
  | released => exact absurd hst hreleased
  | deleted => exact absurd ⟨hnull, hst⟩ hdeleted
  | heldBy i => exact ⟨i, (h.held i t hnull).mpr hst⟩

end Agrees

/-! ### The operations -/

section Operations

variable {null} {s s' : Heap ι T} {status : T → Status ι}

/-- `reset` deletes the value of the object. -/
theorem reset_spec (h : Agrees null s status) {i : ι} {t : T} (hi : s.value i = some t) :
    (s.reset null i).value = Function.update s.value i (some null) ∧
      ∃ status', Agrees null (s.reset null i) status' := by
  rcases eq_or_ne t null with rfl | ht
  · have hsame : Function.update s.value i (some t) = s.value := by
      rw [← hi, Function.update_eq_self]
    rw [Heap.reset_of_null hi, hsame]
    exact ⟨rfl, status, h⟩
  · rw [Heap.reset_of_ne hi ht]
    exact ⟨rfl, _, h.retire ht hi (.inr rfl) (h.value_assign_null ht hi) rfl
      (fun u _ => by simp) rfl⟩

/-- A handle that goes from one object to another, which holds none. -/
theorem transfer (h : Agrees null s status) {i r : ι} (hne : r ≠ i)
    (hi : ∀ t, t ≠ null → s.value i ≠ some t) :
    ∃ status', Agrees null ((s.assign r (some null)).assign i (s.value r)) status' := by
  refine h.move i r (fun k t ht => ?_) (fun _ _ => Iff.rfl) (fun _ _ => Iff.rfl) rfl
  simp only [Heap.assign]
  rcases eq_or_ne k i with rfl | hk
  · rw [Function.update_self, Equiv.swap_apply_left]
  · rw [Function.update_of_ne hk]
    rcases eq_or_ne k r with rfl | hkr
    · rw [Function.update_self, Equiv.swap_apply_right]
      exact iff_of_false (fun h => ht (Option.some.inj h).symm) (hi t ht)
    · rw [Function.update_of_ne hkr, Equiv.swap_apply_of_ne_of_ne hk hkr]

/-- A new object holds its value. -/
theorem construct_agrees (h : Agrees null s status) {i : ι} {t : T} (hi : s.value i = none)
    (hfresh : t = null ∨ t ∉ s.constructed) : ∃ status', Agrees null (s.construct i t) status' := by
  by_cases ht : t = null
  · refine ⟨status, h.congr (fun k u hu => ?_) (fun u hu => ?_) (fun _ _ => Iff.rfl) rfl⟩
    · simp only [Heap.construct, Heap.assign, ht]
      rcases eq_or_ne k i with rfl | hk
      · simp [hi, hu.symm]
      · rw [Function.update_of_ne hk]
    · simp [Heap.construct, ht, hu]
  · exact ⟨_, h.acquire ht hi (hfresh.resolve_left ht)⟩

/-- A new object may hold nothing. -/
theorem constructNull_agrees (h : Agrees null s status) {i : ι} (hi : s.value i = none) :
    Agrees null (s.constructNull null i) status := by
  refine h.congr (fun k t ht => ?_) (fun _ _ => Iff.rfl) (fun _ _ => Iff.rfl) rfl
  simp only [Heap.constructNull, Heap.assign]
  rcases eq_or_ne k i with rfl | hk
  · simp [hi, ht.symm]
  · rw [Function.update_of_ne hk]

/-- An assignment from the object itself changes nothing. -/
theorem moveAssign_agrees (h : Agrees null s status) {i r : ι} {t : T} (hi : s.value i = some t) :
    ∃ status', Agrees null (s.moveAssign null i r) status' := by
  rw [Heap.moveAssign]
  by_cases hne : r ≠ i
  · obtain ⟨hvalue, status', h'⟩ := reset_spec h hi
    rw [if_pos hne]
    refine transfer h' hne fun u hu hnull => ?_
    rw [hvalue, Function.update_self] at hnull
    exact hu (Option.some.inj hnull).symm
  · rw [if_neg hne]
    exact ⟨status, h⟩

/-- Two objects may be swapped that are one and the same. -/
theorem swap_agrees (h : Agrees null s status) (a b : ι) :
    ∃ status', Agrees null (s.swap a b) status' := by
  refine h.move a b (fun k t _ => ?_) (fun _ _ => Iff.rfl) (fun _ _ => Iff.rfl) rfl
  simp only [Heap.swap, Heap.assign]
  rcases eq_or_ne k b with rfl | hk
  · rw [Function.update_self, Equiv.swap_apply_right]
  · rw [Function.update_of_ne hk]
    rcases eq_or_ne k a with rfl | hka
    · rw [Function.update_self, Equiv.swap_apply_left]
    · rw [Function.update_of_ne hka, Equiv.swap_apply_of_ne_of_ne hka hk]

/-- A released value is held by no object. -/
theorem release_agrees (h : Agrees null s status) {i : ι} {t : T} (hi : s.value i = some t) :
    ∃ status', Agrees null (s.release null i) status' := by
  have hrelease : s.release null i =
      { s.assign i (some null) with released := s.released ++ [t] } := by
    simp only [Heap.release, Heap.exchange, hi, Option.toList_some, Heap.assign]
  rw [hrelease]
  by_cases ht : t = null
  · have hsame : Function.update s.value i (some null) = s.value := by
      rw [← ht, ← hi, Function.update_eq_self]
    refine ⟨status, h.congr (fun k u _ => ?_) (fun _ _ => Iff.rfl) (fun u hu => ?_) rfl⟩
    · rw [Heap.assign, hsame]
    · simp [ht, hu]
  · exact ⟨_, h.retire ht hi (.inl rfl) (h.value_assign_null ht hi) rfl (fun u _ => by simp) rfl⟩

/-- A destroyed object deletes its value. -/
theorem destroy_agrees (h : Agrees null s status) {i : ι} {t : T} (hi : s.value i = some t) :
    ∃ status', Agrees null (s.destroy null i) status' := by
  obtain ⟨hvalue, status', h'⟩ := reset_spec h hi
  refine ⟨status', h'.congr (fun k u hu => ?_) (fun _ _ => Iff.rfl) (fun _ _ => Iff.rfl) rfl⟩
  simp only [Heap.destroy, Heap.assign]
  rcases eq_or_ne k i with rfl | hk
  · simp [hvalue, hu.symm]
  · rw [Function.update_of_ne hk]

/-- Every operation keeps the heap and the statuses in agreement. -/
theorem step_agrees {op : Op ι T} (h : Agrees null s status) (hfresh : Fresh null s op)
    (hstep : step null s op = some s') : ∃ status', Agrees null s' status' := by
  have hlive : ∀ {i : ι}, s.value i ≠ none → ∃ t, s.value i = some t :=
    Option.ne_none_iff_exists'.mp
  cases op with
  | construct i t =>
      obtain ⟨hi, rfl⟩ := Machine.of_guard hstep
      exact construct_agrees h hi hfresh
  | constructNull i =>
      obtain ⟨hi, rfl⟩ := Machine.of_guard hstep
      exact ⟨status, constructNull_agrees h hi⟩
  | moveConstruct i r =>
      obtain ⟨⟨hi, hr⟩, rfl⟩ := Machine.of_guard hstep
      refine transfer h (fun heq => hr (heq ▸ hi)) fun t _ ht => ?_
      rw [hi] at ht
      cases ht
  | moveAssign i r =>
      obtain ⟨⟨hi, -⟩, rfl⟩ := Machine.of_guard hstep
      obtain ⟨t, ht⟩ := hlive hi
      exact moveAssign_agrees h ht
  | swap a b =>
      obtain ⟨-, rfl⟩ := Machine.of_guard hstep
      exact swap_agrees h a b
  | reset i =>
      obtain ⟨hi, rfl⟩ := Machine.of_guard hstep
      obtain ⟨t, ht⟩ := hlive hi
      exact (reset_spec h ht).2
  | release i =>
      obtain ⟨hi, rfl⟩ := Machine.of_guard hstep
      obtain ⟨t, ht⟩ := hlive hi
      exact release_agrees h ht
  | destroy i =>
      obtain ⟨hi, rfl⟩ := Machine.of_guard hstep
      obtain ⟨t, ht⟩ := hlive hi
      exact destroy_agrees h ht

end Operations

/-! ### Every run -/

section Runs

variable {null} {s : Heap ι T}

/-- In every run each value has one status. -/
theorem run_agrees (h : (machine null).Reach (Fresh null) s) : ∃ status, Agrees null s status := by
  have hstart : Agrees null (machine null : Machine (Heap ι T) (Op ι T)).start
      fun _ => .unused := by
    refine ⟨fun i t _ => ?_, fun t _ => ?_, fun t _ => ?_, fun t => ?_⟩ <;> simp [machine]
  refine Machine.Reach.invariant (I := fun s => ∃ status, Agrees null s status)
    ⟨_, hstart⟩ ?_ h
  rintro s op s' ⟨status, hs⟩ hfresh hnext
  exact step_agrees hs hfresh hnext

/-- A handle has one owner until it is released or deleted, which happens at most once. -/
theorem custody (h : (machine null).Reach (Fresh null) s) :
    (∀ t, t ≠ null → ∀ i j, s.value i = some t → s.value j = some t → i = j) ∧
      (∀ t, s.deleted.count t ≤ 1) ∧
      (∀ t ∈ s.deleted, t ≠ null ∧ t ∉ s.released) ∧
      ∀ t ∈ s.constructed, t ≠ null → t ∉ s.released → t ∉ s.deleted →
        ∃! i, s.value i = some t := by
  obtain ⟨status, hs⟩ := run_agrees h
  refine ⟨fun t ht i j hi hj => hs.unique ht hi hj, fun t => (hs.deleted_once t).1,
    fun t ht => (hs.deleted_once t).2 ht, fun t ht hnull hreleased hdeleted => ?_⟩
  obtain ⟨i, hi⟩ := hs.exists_owner hnull ht hreleased hdeleted
  exact ⟨i, hi, fun j hj => hs.unique hnull hj hi⟩

/-- Descriptor 7 is moved twice and released, 8 is deleted when 9 is moved over it. -/
theorem custody_descriptors : ∃ s : Heap ℕ ℤ, (machine (-1)).Reach (Fresh (-1)) s ∧
    s.constructed = [7, 8, 9] ∧ s.released = [7] ∧ s.deleted = [8] ∧
    s.deleted.count 8 ≤ 1 ∧ ∃! i, s.value i = some 9 := by
  let ops : List (Op ℕ ℤ) := [.construct 0 7, .construct 1 8, .construct 2 9, .constructNull 3,
    .moveAssign 3 0, .moveAssign 1 1, .swap 3 0, .moveAssign 1 2, .release 0, .destroy 3]
  obtain ⟨s, hs⟩ : ∃ s, (machine (-1)).replay (Fresh (-1)) (machine (-1)).start ops = some s :=
    ⟨_, rfl⟩
  have hreach := Machine.Reach.of_replay ops .start hs
  obtain ⟨-, hcount, -, hheld⟩ := custody hreach
  cases hs
  exact ⟨_, hreach, rfl, rfl, rfl, hcount 8, hheld 9 (by decide) (by decide) (by decide)
    (by decide)⟩

/-! ### Descriptors -/

/-- `Fdio::deleter`: the descriptors of the standard streams stay open. -/
def fdioDeleter (fd : ℤ) : Option ℤ := if 2 < fd then some fd else none

/-- The descriptors that the objects of a program have closed. -/
def fdioClosed (s : Heap ι ℤ) : List ℤ := s.deleted.filterMap fdioDeleter

/-- No descriptor is closed twice, and no released one and no standard stream is closed. -/
theorem fdioClosed_spec {s : Heap ι ℤ} (h : (machine (-1)).Reach (Fresh (-1)) s) :
    (fdioClosed s).Nodup ∧ ∀ fd ∈ fdioClosed s, 2 < fd ∧ fd ∉ s.released := by
  obtain ⟨status, hs⟩ := run_agrees h
  have hfilter : fdioClosed s = s.deleted.filter fun fd => 2 < fd := by
    rw [fdioClosed, ← List.filterMap_eq_filter]
    exact congrArg (fun f => s.deleted.filterMap f)
      (funext fun fd => by simp [fdioDeleter, Option.guard])
  rw [hfilter]
  constructor
  · exact (List.nodup_iff_count_le_one.mpr fun fd => (hs.deleted_once fd).1).filter _
  · intro fd hfd
    obtain ⟨hmem, hlt⟩ := List.mem_filter.mp hfd
    exact ⟨of_decide_eq_true hlt, ((hs.deleted_once fd).2 hmem).2⟩

end Runs

end Resource

end RsIo
