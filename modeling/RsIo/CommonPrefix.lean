import Mathlib.Data.List.Infix

/-!
# Longest Common Prefixes

`std::mismatch` counts the elements that two lists share from the front. What they share is
their longest common prefix, and the longest common prefix of more lists is found by taking
it of two at a time, in any order.

## Main results

* `commonPrefix_spec`: the longest common prefix of two lists.
* `exists_split`: where two lists part.
* `IsLongest.foldl`: a function that takes the longest common prefix of two things, folded
  over a list of them.
-/

namespace CommonPrefix

variable {α : Type}

/-- `k` is a prefix of all the lists, and all their common prefixes are prefixes of it. -/
def IsLongest (k : List α) (ls : List (List α)) : Prop :=
  (∀ l ∈ ls, k <+: l) ∧ ∀ j, (∀ l ∈ ls, j <+: l) → j <+: k

namespace IsLongest

variable {k k' : List α} {ls ls' : List (List α)}

theorem unique (h : IsLongest k ls) (h' : IsLongest k' ls) : k = k' :=
  (h'.2 k h.1).eq_of_length_le (h.2 k' h'.1).length_le

/-- The order of the lists does not matter. -/
theorem perm (h : IsLongest k ls) (hp : ls.Perm ls') : IsLongest k ls' :=
  ⟨fun l hl => h.1 l (hp.mem_iff.mpr hl), fun j hj => h.2 j fun l hl => hj l (hp.mem_iff.mp hl)⟩

theorem singleton (l : List α) : IsLongest l [l] :=
  ⟨fun _ hm => List.mem_singleton.mp hm ▸ List.prefix_rfl, fun _ hj => hj l List.mem_cons_self⟩

/-- The longest common prefix of one more list. -/
theorem concat {l : List α} (h : IsLongest k ls) (h' : IsLongest k' [k, l]) :
    IsLongest k' (ls ++ [l]) := by
  have hk : k' <+: k := h'.1 k (by simp)
  constructor
  · intro m hm
    rcases List.mem_append.mp hm with hm | hm
    · exact hk.trans (h.1 m hm)
    · exact h'.1 m (by simp [List.mem_singleton.mp hm])
  · intro j hj
    refine h'.2 j fun m hm => ?_
    rcases List.mem_cons.mp hm with rfl | hm
    · exact h.2 j fun m hm => hj m (List.mem_append_left _ hm)
    · exact hj m (List.mem_append_right _ hm)

/-- A function that takes the longest common prefix of two things, folded over a list of
them, takes that of all. `P` holds of the things it works on. -/
theorem foldl {β : Type} {P : β → Prop} {f : β → β → β} {key : β → List α}
    (hf : ∀ x y, P x → P y → P (f x y) ∧ IsLongest (key (f x y)) [key x, key y])
    {x : β} {xs : List β} (hP : ∀ y ∈ x :: xs, P y) :
    P (xs.foldl f x) ∧ IsLongest (key (xs.foldl f x)) ((x :: xs).map key) := by
  induction xs using List.reverseRecOn with
  | nil => exact ⟨hP x List.mem_cons_self, singleton _⟩
  | append_singleton xs y ih =>
      obtain ⟨hPx, hx⟩ := ih fun z hz => hP z (by
        rcases List.mem_cons.mp hz with rfl | hz <;> simp [*])
      obtain ⟨hPy, hy⟩ := hf _ y hPx (hP y (by simp))
      rw [List.foldl_concat, ← List.cons_append, List.map_append]
      exact ⟨hPy, hx.concat hy⟩

end IsLongest

/-! ### Two lists -/

variable [DecidableEq α]

/-- `std::mismatch`: the number of elements from the front on that two lists share. -/
def mismatch : List α → List α → ℕ
  | a :: l, b :: m => if a = b then mismatch l m + 1 else 0
  | _, _ => 0

/-- The longest common prefix of two lists. -/
def commonPrefix (l m : List α) : List α := l.take (mismatch l m)

theorem mismatch_append (k l m : List α) :
    mismatch (k ++ l) (k ++ m) = k.length + mismatch l m := by
  induction k with
  | nil => rw [List.nil_append, List.nil_append, List.length_nil, Nat.zero_add]
  | cons a k ih =>
      rw [List.cons_append, List.cons_append, mismatch, if_pos rfl, ih, List.length_cons]
      omega

theorem mismatch_eq_zero_iff {l m : List α} :
    mismatch l m = 0 ↔ ∀ a, l.head? = some a → m.head? ≠ some a := by
  rcases l with _ | ⟨a, l⟩ <;> rcases m with _ | ⟨b, m⟩
  · simp [mismatch]
  · simp [mismatch]
  · simp [mismatch]
  · by_cases h : a = b <;> simp [mismatch, h, Ne.symm]

/-- Two lists have their longest common prefix in front, and then part. -/
theorem exists_split (l m : List α) :
    ∃ l' m', l = commonPrefix l m ++ l' ∧ m = commonPrefix l m ++ m' ∧
      mismatch l m = (commonPrefix l m).length ∧ mismatch l' m' = 0 := by
  induction l generalizing m with
  | nil => exact ⟨[], m, by simp [commonPrefix, mismatch]⟩
  | cons a l ih =>
      cases m with
      | nil => exact ⟨a :: l, [], by simp [commonPrefix, mismatch]⟩
      | cons b m =>
          by_cases h : a = b
          · subst h
            obtain ⟨l', m', hl, hm, hlen, hzero⟩ := ih m
            have hcons : commonPrefix (a :: l) (a :: m) = a :: commonPrefix l m := by
              rw [commonPrefix, mismatch, if_pos rfl, List.take_succ_cons]
              rfl
            refine ⟨l', m', ?_, ?_, ?_, hzero⟩
            · rw [hcons, List.cons_append, ← hl]
            · rw [hcons, List.cons_append, ← hm]
            · rw [hcons, mismatch, if_pos rfl, hlen, List.length_cons]
          · exact ⟨a :: l, b :: m, by simp [commonPrefix, mismatch, h]⟩

theorem commonPrefix_append (k l m : List α) :
    commonPrefix (k ++ l) (k ++ m) = k ++ commonPrefix l m := by
  rw [commonPrefix, mismatch_append, List.take_append, List.take_of_length_le (by omega),
    Nat.add_sub_cancel_left, commonPrefix]

/-- **The longest common prefix of two lists.** -/
theorem commonPrefix_spec (l m : List α) : IsLongest (commonPrefix l m) [l, m] := by
  obtain ⟨l', m', hl, hm, -, hzero⟩ := exists_split l m
  generalize commonPrefix l m = k at hl hm
  subst hl hm
  constructor
  · intro n hn
    rcases List.mem_cons.mp hn with rfl | hn
    · exact List.prefix_append k l'
    · rw [List.mem_singleton.mp hn]
      exact List.prefix_append k m'
  · intro j hj
    have hl : j <+: k ++ l' := hj _ (by simp)
    have hm : j <+: k ++ m' := hj _ (by simp)
    by_contra hjk
    -- `j` goes on behind `k`, so both lists do, with the same element
    have hlen : k.length < j.length := by
      by_contra hle
      exact hjk (List.prefix_of_prefix_length_le hl (List.prefix_append k l') (by omega))
    obtain ⟨i, rfl⟩ := List.prefix_of_prefix_length_le (List.prefix_append k l') hl (by omega)
    rw [List.prefix_append_right_inj] at hl hm
    cases i with
    | nil => simp at hlen
    | cons a i =>
        obtain ⟨u, rfl⟩ := hl
        obtain ⟨v, rfl⟩ := hm
        exact mismatch_eq_zero_iff.mp hzero a rfl rfl

end CommonPrefix
