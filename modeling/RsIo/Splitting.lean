import Mathlib.Data.List.Basic

/-!
# Splitting at a Separator and Putting Together

More on `List.splitOn` and `List.intercalate`: what the pieces of a list are, and how the
text of two lists of pieces is put together.
-/

namespace Splitting

variable {α : Type} {sep : α}

/-- The text of two lists of pieces has one separator between them. -/
theorem intercalate_append {l m : List (List α)} (hl : l ≠ []) (hm : m ≠ []) :
    [sep].intercalate (l ++ m) = [sep].intercalate l ++ sep :: [sep].intercalate m := by
  induction l with
  | nil => exact absurd rfl hl
  | cons e l ih =>
      rcases eq_or_ne l [] with rfl | hne
      · rw [List.singleton_append, List.intercalate_cons_of_ne_nil hm, List.intercalate_singleton,
          List.append_assoc, List.singleton_append]
      · rw [List.cons_append, List.intercalate_cons_of_ne_nil (by simp [hne]), ih hne,
          List.intercalate_cons_of_ne_nil hne]
        simp

/-- The pieces with one more at the end. -/
theorem intercalate_concat {l : List (List α)} (hl : l ≠ []) (e : List α) :
    [sep].intercalate (l ++ [e]) = [sep].intercalate l ++ sep :: e := by
  rw [intercalate_append hl (by simp), List.intercalate_singleton]

theorem head?_intercalate {e : List α} {l : List (List α)} (he : e ≠ []) :
    ([sep].intercalate (e :: l)).head? = e.head? := by
  obtain ⟨c, t, rfl⟩ := List.exists_cons_of_ne_nil he
  rw [List.intercalate_cons_cons_left, List.head?_cons, List.head?_cons]

theorem intercalate_ne_nil {e : List α} {l : List (List α)} (he : e ≠ []) :
    [sep].intercalate (e :: l) ≠ [] := by
  obtain ⟨c, t, rfl⟩ := List.exists_cons_of_ne_nil he
  rw [List.intercalate_cons_cons_left]
  exact List.cons_ne_nil c _

/-- Pieces that are each followed by the separator, without the last one. -/
theorem dropLast_flatMap_concat (l : List (List α)) :
    (l.flatMap (· ++ [sep])).dropLast = [sep].intercalate l := by
  induction l with
  | nil => rfl
  | cons e l ih =>
      rcases eq_or_ne l [] with rfl | hne
      · rw [List.flatMap_singleton, List.dropLast_concat, List.intercalate_singleton]
      · have hrest : l.flatMap (· ++ [sep]) ≠ [] := by simpa using List.exists_mem_of_ne_nil l hne
        rw [List.flatMap_cons, List.dropLast_append_of_ne_nil hrest, ih,
          List.intercalate_cons_of_ne_nil hne]

variable [BEq α] [LawfulBEq α]

/-- The pieces that are not empty are found again. -/
theorem filter_splitOn_intercalate {l : List (List α)} (h : ∀ e ∈ l, sep ∉ e) :
    (([sep].intercalate l).splitOn sep).filter (! ·.isEmpty) = l.filter (! ·.isEmpty) := by
  rcases eq_or_ne l [] with rfl | hne
  · rfl
  · rw [List.splitOn_intercalate sep h hne]

/-- The pieces do not contain the separator. -/
theorem not_mem_of_mem_splitOn {s e : List α} (h : e ∈ s.splitOn sep) : sep ∉ e := by
  induction s generalizing e with
  | nil =>
      rw [List.splitOn_nil, List.mem_singleton] at h
      rw [h]
      exact List.not_mem_nil
  | cons c s ih =>
      obtain ⟨first, rest, hs⟩ := List.exists_cons_of_ne_nil (List.splitOn_ne_nil sep s)
      rw [List.splitOn_cons_eq_if_modifyHead] at h
      rw [hs] at h ih
      split at h
      · rcases List.mem_cons.mp h with rfl | h
        · exact List.not_mem_nil
        · exact ih h
      · rename_i hc
        rcases List.mem_cons.mp h with rfl | h
        · rw [List.mem_cons, not_or]
          exact ⟨fun he => hc (by simp [he]), ih List.mem_cons_self⟩
        · exact ih (List.mem_cons_of_mem first h)

/-- A piece other than the first stands behind a separator, and ends at the next one or at
the end of the list. -/
theorem mem_tail_splitOn {s e : List α} (h : e ∈ (s.splitOn sep).tail) :
    ∃ u v, s = u ++ sep :: (e ++ v) ∧ (v = [] ∨ v.head? = some sep) := by
  obtain ⟨first, rest, hs⟩ := List.exists_cons_of_ne_nil (List.splitOn_ne_nil sep s)
  rw [hs, List.tail_cons] at h
  obtain ⟨l, m, rfl⟩ := List.append_of_mem h
  have htext : [sep].intercalate (s.splitOn sep) = s := List.intercalate_splitOn sep
  rw [hs, ← List.cons_append, intercalate_append (by simp) (by simp)] at htext
  rcases eq_or_ne m [] with rfl | hm
  · exact ⟨_, [], by rw [← htext, List.intercalate_singleton, List.append_nil], .inl rfl⟩
  · refine ⟨[sep].intercalate (first :: l), sep :: [sep].intercalate m, ?_, .inr rfl⟩
    rw [← htext, List.intercalate_cons_of_ne_nil hm, List.append_assoc, List.singleton_append]

end Splitting
