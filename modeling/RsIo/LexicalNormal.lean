import Mathlib.Data.List.Basic

/-!
# Lexical Normal Forms

A way through a tree of directories is a list of steps: to a child, to the parent (`up`), or
nowhere (`self`). In its normal form no step leads nowhere, and no step to the parent follows
one to a child. A way that starts at the root does not leave it, and another one may begin
with steps to the parent.

The normal form is built on a stack, from the first step on.

## Main results

* `foldl_filter`: steps that lead nowhere do not count.
* `foldl_back`: as many steps up as there are steps to a child lead back.
* `foldl_bottom`: what follows a step up out of the start does not undo it.
-/

namespace LexicalNormal

variable {α : Type} [DecidableEq α] (self up : α) (isRooted : Bool)

/-- One more step, on the stack of those that count. -/
def push (stack : List α) (e : α) : List α :=
  if e = self then stack
  else if e = up then
    match stack with
    | [] => if isRooted then [] else [up]
    | top :: rest => if top = up then up :: top :: rest else rest
  else e :: stack

/-- The normal form of a way. -/
def normal (steps : List α) : List α := (steps.foldl (push self up isRooted) []).reverse

variable {self up : α} {isRooted : Bool}

@[simp]
theorem push_self (stack : List α) : push self up isRooted stack self = stack := if_pos rfl

/-- A step to a child. -/
theorem push_child {e : α} (hself : e ≠ self) (hup : e ≠ up) (stack : List α) :
    push self up isRooted stack e = e :: stack := by
  simp only [push, if_neg hself, if_neg hup]

/-- A step up undoes a step to a child. -/
theorem push_up {top : α} (hne : up ≠ self) (htop : top ≠ up) (rest : List α) :
    push self up isRooted (top :: rest) up = rest := by
  simp only [push, if_neg hne, if_true, if_neg htop]

theorem foldl_filter {keeps : α → Bool} {steps : List α}
    (h : ∀ e ∈ steps, keeps e = false → e = self) (stack : List α) :
    (steps.filter keeps).foldl (push self up isRooted) stack =
      steps.foldl (push self up isRooted) stack := by
  induction steps generalizing stack with
  | nil => rfl
  | cons e steps ih =>
      have ih := fun s => ih (fun d hd => h d (List.mem_cons_of_mem e hd)) s
      by_cases he : keeps e = true
      · rw [List.filter_cons_of_pos he, List.foldl_cons, List.foldl_cons, ih]
      · obtain rfl := h e List.mem_cons_self (by simpa using he)
        rw [List.filter_cons_of_neg he, List.foldl_cons, push_self, ih]

/-- Steps to children, and back. -/
theorem foldl_back (hne : up ≠ self) {steps : List α} (h : ∀ e ∈ steps, e ≠ self ∧ e ≠ up)
    (stack : List α) :
    (steps ++ List.replicate steps.length up).foldl (push self up isRooted) stack = stack := by
  induction steps generalizing stack with
  | nil => rfl
  | cons e steps ih =>
      have he := h e List.mem_cons_self
      have hback := ih (fun d hd => h d (List.mem_cons_of_mem e hd)) (e :: stack)
      rw [List.length_cons, List.replicate_succ', ← List.append_assoc, List.foldl_concat,
        List.cons_append, List.foldl_cons, push_child he.1 he.2, hback, push_up hne he.2]

/-- A step up out of the start of a way stays in front of what follows it. -/
theorem foldl_bottom (steps stack : List α) :
    steps.foldl (push self up false) (stack ++ [up]) =
      steps.foldl (push self up false) stack ++ [up] := by
  induction steps generalizing stack with
  | nil => rfl
  | cons e steps ih =>
      rw [List.foldl_cons, List.foldl_cons, ← ih]
      congr 1
      by_cases hself : e = self
      · rw [hself, push_self, push_self]
      · by_cases hup : e = up
        · subst hup
          cases stack with
          | nil => simp [push, hself]
          | cons top rest => by_cases htop : top = e <;> simp [push, hself, htop]
        · rw [push_child hself hup, push_child hself hup, List.cons_append]

/-- So the normal form of the whole way is another one. -/
theorem foldl_bottom_ne (steps : List α) :
    steps.foldl (push self up false) [up] ≠ steps.foldl (push self up false) [] := by
  intro h
  have hbottom : steps.foldl (push self up false) [up] =
      steps.foldl (push self up false) [] ++ [up] := foldl_bottom steps []
  rw [h] at hbottom
  simpa using congrArg List.length hbottom

end LexicalNormal
