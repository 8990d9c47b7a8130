import Mathlib.Data.List.TakeWhile
import Mathlib.Data.List.Infix

/-!
# Backtracking Regular Expressions

Regular expressions in the manner of Perl, over any alphabet. Where an expression can
match in several ways the order of the attempts decides: a repetition takes as many
characters as it can before it gives some back, and an optional part is tried before it is
left out. `run` follows that order with a continuation, which says what has to match after
the expression and may refuse an attempt, so that the next one is made.

A match reports the text of each capturing group. `Matches` says what an expression
matches without the order, and `run_sound` that `run` returns nothing else.

## Main results

* `run_sound`: what a run returns is a match and a result of its continuation.
* `run_complete`: a run that gives up has offered every match to its continuation.
* `runMany_eq_some_iff`: a repetition returns what its longest accepted attempt gives.
-/

/-- A regular expression. `many` repeats a class of characters and `group` captures. -/
inductive Regex (α : Type)
  | empty
  | char (p : α → Bool)
  | many (p : α → Bool)
  | seq (r q : Regex α)
  | opt (r : Regex α)
  | group (n : ℕ) (r : Regex α)

namespace Regex

variable {α β : Type}

/-- The text that each capturing group matched, by the number of the group. -/
abbrev Captures (α : Type) := List (ℕ × List α)

/-- The length of what a group matched, zero if it took no part in the match. -/
def Captures.count (m : Captures α) (n : ℕ) : ℕ := ((m.lookup n).getD []).length

/-- Whether a group took part in the match. -/
def Captures.matched (m : Captures α) (n : ℕ) : Bool := (m.lookup n).isSome

/-- What a group captures that matches nonempty text or takes no part in the match. -/
def capture (n : ℕ) (s : List α) : Captures α := if s.isEmpty then [] else [(n, s)]

/-- The literal text `s`. -/
def literal [BEq α] (s : List α) : Regex α :=
  s.foldr (fun c r => seq (char (· == c)) r) empty

/-- One or more characters of a class. -/
def many1 (p : α → Bool) : Regex α := seq (char p) (many p)

/-- The attempts of a repetition, longest first. -/
def runMany (p : α → Bool) : List α → (List α → Option β) → Option β
  | [], k => k []
  | c :: s, k => if p c then (runMany p s k).or (k (c :: s)) else k (c :: s)

/-- All attempts to match `r` at the front of `s`, in order, until the continuation accepts
what the groups captured and what is left of `s`. -/
def run : Regex α → List α → (Captures α → List α → Option β) → Option β
  | empty, s, k => k [] s
  | char p, s, k =>
      match s with
      | [] => none
      | c :: s => if p c then k [] s else none
  | many p, s, k => runMany p s (k [])
  | seq r q, s, k => run r s fun m s => run q s fun m' s => k (m ++ m') s
  | opt r, s, k => (run r s k).or (k [] s)
  | group n r, s, k => run r s fun m s' => k ((n, s.take (s.length - s'.length)) :: m) s'

/-- The first match of the whole of `s`. -/
def fullMatch (r : Regex α) (s : List α) : Option (Captures α) :=
  run r s fun m s => if s.isEmpty then some m else none

/-- Nothing is not captured. -/
@[simp] theorem capture_nil (n : ℕ) : capture n ([] : List α) = [] := rfl

/-- A group captures something. -/
theorem capture_of_ne_nil (n : ℕ) {s : List α} (h : s ≠ []) : capture n s = [(n, s)] := by
  rw [capture, if_neg (by simpa using h)]

/-- Another group does not change what was captured. -/
theorem lookup_capture_append (n k : ℕ) (s : List α) (m : Captures α) :
    ((capture n s ++ m).lookup k).getD [] =
      if k = n ∧ s ≠ [] then s else (m.lookup k).getD [] := by
  cases s with
  | nil => simp
  | cons c s =>
      by_cases h : k = n
      · simp [h, capture]
      · simp [h, capture, List.lookup_cons, beq_eq_false_iff_ne.mpr h]

/-- A group captures what it matched. -/
theorem lookup_capture (n k : ℕ) (s : List α) :
    ((capture n s).lookup k).getD [] = if k = n then s else [] := by
  have h := lookup_capture_append n k s []
  rw [List.append_nil] at h
  rw [h]
  cases s <;> simp

/-- What a group captured is the text without what is left. -/
theorem take_length_sub (s t : List α) : (s ++ t).take ((s ++ t).length - t.length) = s := by
  rw [List.length_append, Nat.add_sub_cancel, List.take_left]

/-! ### Matches without the order -/

/-- `r` can match exactly `s` and then captures `m`. -/
def Matches : Regex α → List α → Captures α → Prop
  | empty, s, m => s = [] ∧ m = []
  | char p, s, m => ∃ c, p c = true ∧ s = [c] ∧ m = []
  | many p, s, m => (∀ c ∈ s, p c = true) ∧ m = []
  | seq r q, s, m =>
      ∃ s₁ m₁ s₂ m₂, Matches r s₁ m₁ ∧ Matches q s₂ m₂ ∧ s = s₁ ++ s₂ ∧ m = m₁ ++ m₂
  | opt r, s, m => Matches r s m ∨ s = [] ∧ m = []
  | group n r, s, m => ∃ m', Matches r s m' ∧ m = (n, s) :: m'

/-- What one or more characters match. -/
theorem matches_many1 {p : α → Bool} {s : List α} {m : Captures α} (h : (many1 p).Matches s m) :
    s ≠ [] ∧ (∀ c ∈ s, p c = true) ∧ m = [] := by
  obtain ⟨_, _, t, _, ⟨c, hc, rfl, rfl⟩, ⟨ht, rfl⟩, rfl, rfl⟩ := h
  exact ⟨by simp, by simpa [hc] using ht, rfl⟩

/-- One or more characters are matched. -/
theorem matches_many1_of {p : α → Bool} {s : List α} (hne : s ≠ [])
    (h : ∀ c ∈ s, p c = true) : (many1 p).Matches s [] := by
  obtain ⟨c, t, rfl⟩ := List.exists_cons_of_ne_nil hne
  exact ⟨[c], [], t, [], ⟨c, h c List.mem_cons_self, rfl, rfl⟩,
    ⟨fun d hd => h d (List.mem_cons_of_mem c hd), rfl⟩, rfl, rfl⟩

/-- A literal matches itself. -/
theorem matches_literal_self [BEq α] [LawfulBEq α] (w : List α) : (literal w).Matches w [] := by
  induction w with
  | nil => exact ⟨rfl, rfl⟩
  | cons c w ih => exact ⟨[c], [], w, [], ⟨c, beq_self_eq_true c, rfl, rfl⟩, ih, rfl, rfl⟩

/-- A literal matches nothing else. -/
theorem matches_literal [BEq α] [LawfulBEq α] {w s : List α} {m : Captures α}
    (h : (literal w).Matches s m) : s = w ∧ m = [] := by
  induction w generalizing s m with
  | nil => exact h
  | cons c w ih =>
      obtain ⟨_, _, t, _, ⟨d, hd, rfl, rfl⟩, ht, rfl, rfl⟩ := h
      obtain ⟨rfl, rfl⟩ := ih ht
      rw [beq_iff_eq.mp hd]
      exact ⟨rfl, rfl⟩

/-- The matcher takes some characters of the class. -/
theorem runMany_sound {p : α → Bool} {s : List α} {k : List α → Option β} {x : β}
    (h : runMany p s k = some x) :
    ∃ s₁ s₂, s = s₁ ++ s₂ ∧ (∀ c ∈ s₁, p c = true) ∧ k s₂ = some x := by
  induction s with
  | nil => exact ⟨[], [], rfl, by simp, h⟩
  | cons c s ih =>
      rw [runMany] at h
      split at h
      · rename_i hc
        rcases Option.or_eq_some_iff.mp h with hmore | ⟨-, hhere⟩
        · obtain ⟨s₁, s₂, rfl, hall, hk⟩ := ih hmore
          exact ⟨c :: s₁, s₂, rfl, by simpa [hc] using hall, hk⟩
        · exact ⟨[], c :: s, rfl, by simp, hhere⟩
      · exact ⟨[], c :: s, rfl, by simp, h⟩

/-- **Soundness.** What a run returns comes from a match at the front of the string. -/
theorem run_sound {r : Regex α} {s : List α} {k : Captures α → List α → Option β} {x : β}
    (h : run r s k = some x) :
    ∃ s₁ s₂ m, s = s₁ ++ s₂ ∧ Matches r s₁ m ∧ k m s₂ = some x := by
  induction r generalizing s k with
  | empty => exact ⟨[], s, [], rfl, ⟨rfl, rfl⟩, h⟩
  | char p =>
      cases s with
      | nil => simp [run] at h
      | cons c s =>
          simp only [run] at h
          split at h
          · rename_i hc
            exact ⟨[c], s, [], rfl, ⟨c, hc, rfl, rfl⟩, h⟩
          · simp at h
  | many p =>
      obtain ⟨s₁, s₂, rfl, hall, hk⟩ := runMany_sound h
      exact ⟨s₁, s₂, [], rfl, ⟨hall, rfl⟩, hk⟩
  | seq r q ihr ihq =>
      obtain ⟨s₁, t, m₁, rfl, hr, ht⟩ := ihr h
      obtain ⟨s₂, u, m₂, rfl, hq, hk⟩ := ihq ht
      exact ⟨s₁ ++ s₂, u, m₁ ++ m₂, by rw [List.append_assoc],
        ⟨s₁, m₁, s₂, m₂, hr, hq, rfl, rfl⟩, hk⟩
  | opt r ih =>
      rcases Option.or_eq_some_iff.mp h with htake | ⟨-, hskip⟩
      · obtain ⟨s₁, s₂, m, rfl, hm, hk⟩ := ih htake
        exact ⟨s₁, s₂, m, rfl, .inl hm, hk⟩
      · exact ⟨[], s, [], rfl, .inr ⟨rfl, rfl⟩, hskip⟩
  | group n r ih =>
      obtain ⟨s₁, s₂, m, rfl, hm, hk⟩ := ih h
      rw [take_length_sub] at hk
      exact ⟨s₁, s₂, (n, s₁) :: m, rfl, ⟨m, hm, rfl⟩, hk⟩

/-- What the matcher finds is a match. -/
theorem fullMatch_sound {r : Regex α} {s : List α} {m : Captures α} (h : fullMatch r s = some m) :
    Matches r s m := by
  obtain ⟨s₁, s₂, m', rfl, hm, hk⟩ := run_sound h
  cases s₂ with
  | nil =>
      rw [List.isEmpty_nil, if_pos rfl, Option.some.injEq] at hk
      rwa [List.append_nil, ← hk]
  | cons c s => simp at hk

/-- If the matcher fails, it fails behind any of the characters. -/
theorem runMany_complete {p : α → Bool} {s₁ s₂ : List α} {k : List α → Option β}
    (h : runMany p (s₁ ++ s₂) k = none) (hall : ∀ c ∈ s₁, p c = true) : k s₂ = none := by
  induction s₁ with
  | nil =>
      cases s₂ with
      | nil => exact h
      | cons c s =>
          rw [List.nil_append, runMany] at h
          split at h
          · exact (Option.or_eq_none_iff.mp h).2
          · exact h
  | cons c s₁ ih =>
      rw [List.cons_append, runMany, if_pos (hall c List.mem_cons_self)] at h
      exact ih (Option.or_eq_none_iff.mp h).1 fun d hd => hall d (List.mem_cons_of_mem c hd)

/-- **Completeness.** A run that gives up has offered every match to its continuation. -/
theorem run_complete {r : Regex α} {s₁ s₂ : List α} {m : Captures α}
    {k : Captures α → List α → Option β} (h : run r (s₁ ++ s₂) k = none)
    (hm : Matches r s₁ m) : k m s₂ = none := by
  induction r generalizing s₁ s₂ m k with
  | empty =>
      obtain ⟨rfl, rfl⟩ := hm
      exact h
  | char p =>
      obtain ⟨c, hc, rfl, rfl⟩ := hm
      simpa [run, hc] using h
  | many p =>
      obtain ⟨hall, rfl⟩ := hm
      exact runMany_complete h hall
  | seq r q ihr ihq =>
      obtain ⟨t₁, m₁, t₂, m₂, hr, hq, rfl, rfl⟩ := hm
      rw [run, List.append_assoc] at h
      exact ihq (k := fun m s => k (m₁ ++ m) s) (ihr h hr) hq
  | opt r ih =>
      rw [run, Option.or_eq_none_iff] at h
      rcases hm with hm | ⟨rfl, rfl⟩
      · exact ih h.1 hm
      · exact h.2
  | group n r ih =>
      obtain ⟨m', hm, rfl⟩ := hm
      have hk := ih h hm
      rwa [take_length_sub] at hk

/-- A run returns something exactly if its continuation accepts some match. -/
theorem run_isSome_iff {r : Regex α} {s : List α} {k : Captures α → List α → Option β} :
    (run r s k).isSome = true ↔
      ∃ s₁ s₂ m, s = s₁ ++ s₂ ∧ Matches r s₁ m ∧ (k m s₂).isSome = true := by
  constructor
  · intro h
    obtain ⟨x, hx⟩ := Option.isSome_iff_exists.mp h
    obtain ⟨s₁, s₂, m, hs, hm, hk⟩ := run_sound hx
    exact ⟨s₁, s₂, m, hs, hm, by rw [hk, Option.isSome_some]⟩
  · rintro ⟨s₁, s₂, m, rfl, hm, hk⟩
    by_contra hnone
    rw [run_complete (Option.not_isSome_iff_eq_none.mp hnone) hm] at hk
    simp at hk

/-! ### The order of the attempts -/

/-- A repetition returns what its longest accepted attempt gives. -/
theorem runMany_eq_some_iff {p : α → Bool} {s : List α} {k : List α → Option β} {x : β} :
    runMany p s k = some x ↔ ∃ a b, s = a ++ b ∧ (∀ c ∈ a, p c = true) ∧ k b = some x ∧
      ∀ a' b', b = a' ++ b' → a' ≠ [] → (∀ c ∈ a', p c = true) → k b' = none := by
  constructor
  · intro h
    induction s with
    | nil => exact ⟨[], [], rfl, by simp, h, by simp_all⟩
    | cons c s ih =>
        rw [runMany] at h
        split at h
        · rename_i hc
          rcases Option.or_eq_some_iff.mp h with hmore | ⟨hnone, hhere⟩
          · obtain ⟨a, b, rfl, hall, hk, hlonger⟩ := ih hmore
            exact ⟨c :: a, b, rfl, by simpa [hc] using hall, hk, hlonger⟩
          · refine ⟨[], c :: s, rfl, by simp, hhere, fun a' b' hs hne hall => ?_⟩
            cases a' with
            | nil => exact absurd rfl hne
            | cons d a' =>
                obtain ⟨rfl, rfl⟩ := List.cons.inj hs
                exact runMany_complete hnone fun e he => hall e (List.mem_cons_of_mem c he)
        · rename_i hc
          refine ⟨[], c :: s, rfl, by simp, h, fun a' b' hs hne hall => ?_⟩
          cases a' with
          | nil => exact absurd rfl hne
          | cons d a' =>
              obtain ⟨rfl, rfl⟩ := List.cons.inj hs
              exact absurd (hall c List.mem_cons_self) hc
  · rintro ⟨a, b, rfl, hall, hk, hlonger⟩
    induction a with
    | nil =>
        cases b with
        | nil => exact hk
        | cons c b =>
            rw [List.nil_append, runMany]
            split
            · rename_i hc
              cases hmore : runMany p b k with
              | none => exact hk
              | some y =>
                  obtain ⟨s₁, s₂, rfl, hs₁, hy⟩ := runMany_sound hmore
                  rw [hlonger (c :: s₁) s₂ rfl (by simp) (by simpa [hc] using hs₁)] at hy
                  simp at hy
            · exact hk
    | cons c a ih =>
        rw [List.cons_append, runMany, if_pos (hall c List.mem_cons_self),
          ih fun d hd => hall d (List.mem_cons_of_mem c hd)]
        rfl

/-- One or more characters as a group: the longest accepted attempt. -/
theorem run_group_many1_eq_some_iff {n : ℕ} {p : α → Bool} {s : List α}
    {k : Captures α → List α → Option β} {x : β} :
    run (group n (many1 p)) s k = some x ↔
      ∃ a b, s = a ++ b ∧ a ≠ [] ∧ (∀ c ∈ a, p c = true) ∧ k [(n, a)] b = some x ∧
        ∀ a' b', b = a' ++ b' → a' ≠ [] → (∀ c ∈ a', p c = true) →
          k [(n, a ++ a')] b' = none := by
  cases s with
  | nil =>
      refine iff_of_false (by simp [run, many1]) ?_
      rintro ⟨a, b, hs, hne, -⟩
      exact hne (List.append_eq_nil_iff.mp hs.symm).1
  | cons c s =>
      by_cases hc : p c = true
      · have hrun : run (group n (many1 p)) (c :: s) k =
            runMany p s fun t => k [(n, (c :: s).take ((c :: s).length - t.length))] t := by
          simp [run, many1, hc]
        rw [hrun, runMany_eq_some_iff]
        constructor
        · rintro ⟨a, b, rfl, hall, hk, hlonger⟩
          refine ⟨c :: a, b, rfl, by simp, by simpa [hc] using hall, ?_, ?_⟩
          · rwa [← List.cons_append, take_length_sub] at hk
          · rintro a' b' rfl hne hall'
            have h := hlonger a' b' rfl hne hall'
            rwa [← List.cons_append, ← List.append_assoc, take_length_sub] at h
        · rintro ⟨a, b, hs, hne, hall, hk, hlonger⟩
          cases a with
          | nil => exact absurd rfl hne
          | cons d a =>
              rw [List.cons_append, List.cons.injEq] at hs
              obtain ⟨rfl, rfl⟩ := hs
              refine ⟨a, b, rfl, fun e he => hall e (List.mem_cons_of_mem c he), ?_, ?_⟩
              · rwa [← List.cons_append, take_length_sub]
              · rintro a' b' rfl hne' hall'
                rw [← List.cons_append, ← List.append_assoc, take_length_sub]
                exact hlonger a' b' rfl hne' hall'
      · refine iff_of_false (by simp [run, many1, hc]) ?_
        rintro ⟨a, b, hs, hne, hall, -⟩
        cases a with
        | nil => exact hne rfl
        | cons d a =>
            obtain ⟨rfl, rfl⟩ := List.cons.inj hs
            exact hc (hall c List.mem_cons_self)

section Literal

variable [BEq α] [LawfulBEq α]

/-- A literal consumes itself. -/
theorem run_literal_append (w s : List α) (k : Captures α → List α → Option β) :
    run (literal w) (w ++ s) k = k [] s := by
  induction w generalizing k with
  | nil => rfl
  | cons c w ih =>
      have h := ih fun m s => k ([] ++ m) s
      simpa [literal, run] using h

/-- A literal is not matched if the text does not begin with it. -/
theorem run_literal_eq_none {w s : List α} (h : ¬ w <+: s) (k : Captures α → List α → Option β) :
    run (literal w) s k = none := by
  by_contra hne
  obtain ⟨x, hx⟩ := Option.ne_none_iff_exists'.mp hne
  obtain ⟨s₁, s₂, m, rfl, hm, -⟩ := run_sound hx
  obtain ⟨rfl, -⟩ := matches_literal hm
  exact h (List.prefix_append _ _)

end Literal

end Regex
