import Mathlib.Order.Lattice

/-!
# Ordered Sets

A set that is kept in the order of a comparison, as `std::set` is. An element is put in front of
the first one that is not less, unless that is equivalent to it: neither of the two is less than
the other.

The comparison is the order of a key in a linear order.

## Main results

* `OrderedSet.insert_spec`: what an insertion does to a set.
* `OrderedSet.firsts_eq`: the elements of a list whose insertion has succeeded are the first
  ones with their key.
-/

namespace RsIo

namespace OrderedSet

universe u v

variable {α : Type u} {β : Type v}

/-- Inserts an element: the elements of the set in their order, and whether it was new. -/
def insert (lt : α → α → Bool) (x : α) : List α → List α × Bool
  | [] => ([x], true)
  | y :: s =>
      if lt y x then
        let r := insert lt x s
        (y :: r.1, r.2)
      else if lt x y then
        (x :: y :: s, true)
      else
        (y :: s, false)

/-- The elements of a list that are new when the list is inserted from the front to the back. -/
def firsts (lt : α → α → Bool) : List α → List α → List α
  | _, [] => []
  | s, x :: xs =>
      let r := insert lt x s
      if r.2 then x :: firsts lt r.1 xs else firsts lt r.1 xs

/-- An element that is not new changes nothing. -/
theorem insert_of_not {lt : α → α → Bool} {x : α} {s : List α} (h : (insert lt x s).2 = false) :
    (insert lt x s).1 = s := by
  induction s with
  | nil => cases h
  | cons y s ih =>
      rw [insert] at h ⊢
      split at h
      next hyx =>
        rw [if_pos hyx]
        exact congrArg _ (ih h)
      next hyx =>
        rw [if_neg hyx]
        split at h
        next => cases h
        next hxy => rw [if_neg hxy]

variable [LinearOrder β] {lt : α → α → Bool} {key : α → β}

/-- The elements are in the order of their keys, and no two have the same. -/
def Sorted (key : α → β) (s : List α) : Prop := s.Pairwise fun a b => key a < key b

/-- No element of the list has the key of `x`. -/
def isNew (key : α → β) (s : List α) (x : α) : Bool := s.all fun y => key y ≠ key x

theorem isNew_iff {s : List α} {x : α} : isNew key s x = true ↔ ∀ y ∈ s, key y ≠ key x := by
  simp [isNew]

variable (hlt : ∀ a b, lt a b = true ↔ key a < key b)
include hlt

/-- An element is new if none has its key. Then it is the one element that is added. -/
theorem insert_spec {s : List α} (hs : Sorted key s) (x : α) :
    ((insert lt x s).2 = true ↔ ∀ y ∈ s, key y ≠ key x) ∧ Sorted key (insert lt x s).1 ∧
      ∀ z, z ∈ (insert lt x s).1 ↔ z ∈ s ∨ z = x ∧ (insert lt x s).2 = true := by
  induction s with
  | nil => simp [insert, Sorted]
  | cons y s ih =>
      obtain ⟨hy, hs⟩ := List.pairwise_cons.mp hs
      obtain ⟨hnew, hsorted, hmem⟩ := ih hs
      rw [insert]
      split
      next hyx =>
        have hyx := (hlt y x).mp hyx
        refine ⟨?_, List.pairwise_cons.mpr ⟨fun z hz => ?_, hsorted⟩, fun z => ?_⟩
        · rw [hnew, List.forall_mem_cons]
          exact (and_iff_right hyx.ne).symm
        · rcases (hmem z).mp hz with hz | ⟨rfl, -⟩
          · exact hy z hz
          · exact hyx
        · rw [List.mem_cons, List.mem_cons, hmem, or_assoc]
      next hyx =>
        have hle : key x ≤ key y := not_lt.mp (mt (hlt y x).mpr hyx)
        split
        next hxy =>
          have hxy := (hlt x y).mp hxy
          have hall : ∀ z ∈ y :: s, key x < key z := by
            intro z hz
            rcases List.mem_cons.mp hz with rfl | hz
            · exact hxy
            · exact hxy.trans (hy z hz)
          refine ⟨iff_of_true rfl fun z hz => (hall z hz).ne', ?_, fun z => ?_⟩
          · exact List.pairwise_cons.mpr ⟨hall, List.pairwise_cons.mpr ⟨hy, hs⟩⟩
          · rw [List.mem_cons, or_comm]
            exact or_congr_right (and_iff_left rfl).symm
        next hxy =>
          have heq : key y = key x := le_antisymm (not_lt.mp (mt (hlt x y).mpr hxy)) hle
          refine ⟨iff_of_false (by simp) fun hne => ?_, List.pairwise_cons.mpr ⟨hy, hs⟩, ?_⟩
          · exact hne y List.mem_cons_self heq
          · simp

/-- The new elements are those with a key that is not in the set, and of these the first with
each key. -/
theorem firsts_eq {eqv : α → α → Bool} (heqv : ∀ a b, eqv a b = true ↔ key a = key b)
    {s : List α} (hs : Sorted key s) (xs : List α) :
    firsts lt s xs = (xs.filter (isNew key s)).eraseDupsBy eqv := by
  induction xs generalizing s with
  | nil => rfl
  | cons x xs ih =>
      obtain ⟨hnew, hsorted, hmem⟩ := insert_spec hlt hs x
      rw [← isNew_iff] at hnew
      rw [firsts, ih hsorted]
      split
      next h =>
        rw [List.filter_cons_of_pos (hnew.mp h), List.eraseDupsBy_cons, List.filter_filter]
        congr 2
        refine List.filter_congr fun z _ => ?_
        -- What is new after the insertion was new before, and has another key than `x`.
        rw [Bool.eq_iff_iff, Bool.and_eq_true, decide_eq_true_iff, ← Bool.not_eq_true, heqv,
          isNew_iff, isNew_iff]
        simp only [hmem, h, and_true]
        constructor
        · intro hz
          exact ⟨(hz x (.inr rfl)).symm, fun y hy => hz y (.inl hy)⟩
        · rintro ⟨hne, hz⟩ y (hy | rfl)
          · exact hz y hy
          · exact Ne.symm hne
      next h =>
        rw [List.filter_cons_of_neg (mt hnew.mpr h), insert_of_not (Bool.eq_false_iff.mpr h)]

end OrderedSet

end RsIo
