import RsIo.TempFile

/-!
# The Streams of Temporary Files

The half of a `TempFile` that the base class owns is right in every run. Each operation on
temporary files is one operation on the resources that hold their streams, or none, so what
holds of every run of resources holds of the streams.

## Main results

* `run_streams`: every run of temporary files is a run of resources.
* `streams_spec`: a stream that was opened is closed once, or has one owner.
-/

namespace RsIo

namespace TempFile

open Resource (Heap)

variable {ι E : Type} [DecidableEq E] [DecidableEq ι] {entry : Bytes → E} {hex : UInt64 → Bytes}

/-- The stream goes from the local object to the base class: the object is constructed from
it. -/
theorem adopt_eq {h : Heap (Option ι) ℕ} (i : ι) (file : ℕ) (hlocal : h.value none = none) :
    adopt (h.constructNull 0 (some i)) i file = h.construct (some i) file := by
  have hne : (none : Option ι) ≠ some i := (Option.some_ne_none i).symm
  have hbase : ((h.constructNull 0 (some i)).construct none file).value (some i) = some 0 := by
    rw [Heap.construct, Heap.assign_value, Function.update_of_ne hne.symm, Heap.constructNull,
      Heap.assign_value, Function.update_self]
  rw [adopt, Heap.moveAssign, if_pos hne, Heap.reset_of_null hbase]
  simp only [Heap.exchange, Heap.destroy]
  rw [Heap.reset_of_null (by
    rw [Heap.assign_value, Function.update_of_ne hne, Heap.assign_value, Function.update_self])]
  simp only [Heap.construct, Heap.constructNull, Heap.assign, Function.update_self]
  rw [Heap.mk.injEq]
  refine ⟨funext fun k => ?_, rfl, rfl, rfl⟩
  cases k with
  | none => rw [Function.update_self, Function.update_of_ne hne, hlocal]
  | some j =>
      rcases eq_or_ne j i with rfl | hj
      · simp
      · simp [hj]

omit [DecidableEq E] in
/-- A base class that is constructed and destroyed again leaves nothing behind. -/
theorem abandon_streams {s : State ι E} {i : ι} (hi : s.streams.value (some i) = none)
    (files : Finset E) : (s.abandon i files).streams = s.streams := by
  have hbase : (s.streams.constructNull 0 (some i)).value (some i) = some 0 :=
    Function.update_self ..
  simp only [State.abandon, Heap.destroy]
  rw [Heap.reset_of_null hbase]
  simp only [Heap.constructNull, Heap.assign, Function.update_idem, ← hi, Function.update_eq_self]

/-- The streams of a run are those of a run of resources. -/
structure Sound (s : State ι E) : Prop where
  reach : (Resource.machine 0).Reach (Resource.Fresh 0) s.streams
  alive : ∀ i, s.streams.value (some i) = none ↔ s.where_ i = none
  noLocal : s.streams.value none = none
  opened : ∀ t, t ≠ 0 → (t ∈ s.streams.constructed ↔ t ≤ s.opened)
  released : s.streams.released = []

section Steps

variable {s s' : State ι E}

omit [DecidableEq E] in
/-- A new object may have a stream. -/
theorem construct_sound (h : Sound s) {i : ι} (hi : s.where_ i = none) (stream : Bool)
    (p : Path) (files : Finset E) : Sound (s.construct i stream p files) := by
  have hbase : s.streams.value (some i) = none := (h.alive i).mpr hi
  have hstreams : (s.construct i stream p files).streams =
      s.streams.construct (some i) (if stream then s.opened + 1 else 0) :=
    adopt_eq i _ h.noLocal
  refine ⟨?_, fun j => ?_, ?_, fun t ht => ?_, ?_⟩
  · rw [hstreams]
    refine h.reach.step (e := .construct (some i) (if stream then s.opened + 1 else 0)) ?_
      (if_pos hbase)
    cases stream with
    | false => exact .inl rfl
    | true =>
        refine .inr fun hmem => ?_
        have hle := (h.opened (s.opened + 1) (Nat.succ_ne_zero _)).mp hmem
        omega
  · rw [hstreams, State.construct]
    rcases eq_or_ne j i with rfl | hj
    · simp [Heap.construct]
    · simp [Heap.construct, hj, h.alive j]
  · rw [hstreams, Heap.construct, Heap.assign_value,
      Function.update_of_ne (Option.some_ne_none i).symm, h.noLocal]
  · have hmem : t ∈ (s.construct i stream p files).streams.constructed ↔
        t ≤ s.opened ∨ t = if stream then s.opened + 1 else 0 := by
      rw [hstreams, Heap.construct, List.mem_append, List.mem_singleton,
        h.opened t ht]
    rw [hmem, State.construct]
    cases stream with
    | false => simp [ht]
    | true => simp only [if_true]; omega
  · rw [hstreams]
    exact h.released

omit [DecidableEq E] in
/-- A move empties one object and fills another one. -/
theorem moveWhere_eq_none_iff {i r : ι} (hr : s.where_ r ≠ none) (k : ι) :
    s.moveWhere i r k = none ↔ s.where_ k = none ∧ k ≠ i := by
  rw [State.moveWhere]
  rcases eq_or_ne k r with rfl | hkr
  · simp [hr]
  · rw [Function.update_of_ne hkr]
    rcases eq_or_ne k i with rfl | hk
    · simp [hr]
    · simp [hk]

omit [DecidableEq E] in
/-- An object that is moved into a new one keeps its stream. -/
theorem moveConstruct_sound (h : Sound s) {i r : ι} (hi : s.where_ i = none)
    (hr : s.where_ r ≠ none) : Sound (s.moveConstruct i r) := by
  have hr' : s.streams.value (some r) ≠ none := mt (h.alive r).mp hr
  obtain ⟨hvalue, hconstructed, hreleased⟩ :=
    Heap.moveConstruct_frame 0 (some i) hr'
  refine ⟨?_, fun j => ?_, ?_, fun t ht => ?_, hreleased.trans h.released⟩
  · exact h.reach.step (e := .moveConstruct (some i) (some r)) trivial
      (if_pos ⟨(h.alive i).mpr hi, hr'⟩)
  · simp only [State.moveConstruct, hvalue, h.alive j, moveWhere_eq_none_iff hr, ne_eq,
      Option.some.injEq]
  · exact (hvalue none).mpr ⟨h.noLocal, (Option.some_ne_none i).symm⟩
  · exact (iff_of_eq (congrArg (t ∈ ·) hconstructed)).trans (h.opened t ht)

omit [DecidableEq E] in
/-- An object that is moved into another one keeps its stream. -/
theorem moveAssign_sound (h : Sound s) {i r : ι} (hi : s.where_ i ≠ none)
    (hr : s.where_ r ≠ none) : Sound (s.moveAssign i r) := by
  have hi' : s.streams.value (some i) ≠ none := mt (h.alive i).mp hi
  have hr' : s.streams.value (some r) ≠ none := mt (h.alive r).mp hr
  obtain ⟨hvalue, hconstructed, hreleased⟩ := Heap.moveAssign_frame 0 hi' hr'
  refine ⟨?_, fun j => ?_, ?_, fun t ht => ?_, hreleased.trans h.released⟩
  · exact h.reach.step (e := .moveAssign (some i) (some r)) trivial (if_pos ⟨hi', hr'⟩)
  · simp only [State.moveAssign, hvalue, h.alive j, moveWhere_eq_none_iff hr]
    rw [iff_self_and]
    rintro hj rfl
    exact hi hj
  · exact (hvalue none).mpr h.noLocal
  · exact (iff_of_eq (congrArg (t ∈ ·) hconstructed)).trans (h.opened t ht)

/-- A destroyed object has no stream. -/
theorem destroy_sound (h : Sound s) {i : ι} (hi : s.where_ i ≠ none) :
    Sound (s.destroy entry i) := by
  have hi' : s.streams.value (some i) ≠ none := mt (h.alive i).mp hi
  have hstreams : (s.destroy entry i).streams = s.streams.destroy 0 (some i) := by
    simp only [State.destroy]
    split
    · exact Heap.reset_destroy
    · rfl
  have hrest : (s.destroy entry i).where_ = Function.update s.where_ i none ∧
      (s.destroy entry i).opened = s.opened := by
    simp only [State.destroy]
    split <;> exact ⟨rfl, rfl⟩
  obtain ⟨hvalue, hconstructed, hreleased⟩ :=
    Heap.destroy_frame 0 s.streams (some i)
  refine ⟨?_, fun j => ?_, ?_, fun t ht => ?_, ?_⟩
  · rw [hstreams]
    exact h.reach.step (e := .destroy (some i)) trivial (if_pos hi')
  · rw [hstreams, hvalue, hrest.1, h.alive j]
    rcases eq_or_ne j i with rfl | hj
    · simp
    · simp [hj]
  · rw [hstreams, hvalue]
    exact .inl h.noLocal
  · rw [hstreams, hconstructed, hrest.2, h.opened t ht]
  · rw [hstreams, hreleased, h.released]

omit [DecidableEq E] in
/-- A constructor that throws changes no stream. -/
theorem abandon_sound (h : Sound s) {i : ι} (hi : s.where_ i = none) (files : Finset E) :
    Sound (s.abandon i files) := by
  have hstreams := abandon_streams ((h.alive i).mpr hi) files
  refine ⟨?_, fun j => ?_, ?_, fun t ht => ?_, ?_⟩
  · rw [hstreams]
    exact h.reach
  · rw [hstreams]
    exact h.alive j
  · rw [hstreams]
    exact h.noLocal
  · rw [hstreams]
    exact h.opened t ht
  · rw [hstreams]
    exact h.released

/-- A step leaves each stream with one object. -/
theorem step_sound {op : Op ι} (h : Sound s) (hstep : step entry hex s op = some s') :
    Sound s' := by
  cases op with
  | anonymous i env =>
      obtain ⟨hi, rfl⟩ := Machine.of_guard hstep
      rw [State.anonymous]
      split
      · exact construct_sound h hi true _ _
      · exact abandon_sound h hi _
  | named i env dir pre =>
      obtain ⟨hi, hnamed⟩ := Option.ite_none_right_eq_some.mp hstep
      obtain ⟨⟨r, files⟩, -, rfl⟩ := Option.map_eq_some_iff.mp hnamed
      cases r with
      | ok p => exact construct_sound h hi env.stream p files
      | error e => exact abandon_sound h hi files
  | moveConstruct i r =>
      obtain ⟨⟨hi, hr⟩, rfl⟩ := Machine.of_guard hstep
      exact moveConstruct_sound h hi hr
  | moveAssign i r =>
      obtain ⟨⟨hi, hr⟩, rfl⟩ := Machine.of_guard hstep
      exact moveAssign_sound h hi hr
  | destroy i =>
      obtain ⟨hi, rfl⟩ := Machine.of_guard hstep
      exact destroy_sound h hi

end Steps

/-! ### Every run -/

/-- In every run a stream belongs to one object. -/
theorem run_streams {s : State ι E} (h : (machine entry hex).Reachable s) : Sound s := by
  refine Machine.Reach.invariant (I := Sound) ⟨.start, fun _ => ?_, rfl, fun t ht => ?_, rfl⟩
    (fun s op s' hs _ hnext => step_sound hs hnext) h
  · exact iff_of_true rfl rfl
  · exact iff_of_false List.not_mem_nil fun hle => ht (Nat.le_zero.mp hle)

/-- Every stream that was opened is closed once, or it is open and one object has it. This
does not depend on what is moved over what. -/
theorem streams_spec {s : State ι E} (h : (machine entry hex).Reachable s) :
    s.streams.deleted.Nodup ∧ ∀ t, t ≠ 0 → t ≤ s.opened → t ∉ s.streams.deleted →
      ∃! i, s.streams.value (some i) = some t := by
  have hs := run_streams h
  obtain ⟨status, hagrees⟩ := Resource.run_agrees hs.reach
  refine ⟨List.nodup_iff_count_le_one.mpr fun t => (hagrees.deleted_once t).1, ?_⟩
  intro t ht hopened hdeleted
  have hnotReleased : t ∉ s.streams.released := by
    rw [hs.released]
    exact List.not_mem_nil
  obtain ⟨j, hj⟩ :=
    hagrees.exists_owner ht ((hs.opened t ht).mpr hopened) hnotReleased hdeleted
  cases j with
  | none =>
      rw [hs.noLocal] at hj
      cases hj
  | some i =>
      exact ⟨i, hj, fun k hk => Option.some.inj (hagrees.unique ht hk hj)⟩

end TempFile

end RsIo
