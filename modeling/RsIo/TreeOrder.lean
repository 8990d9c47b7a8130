import Mathlib.Data.List.Flatten
import Mathlib.Data.List.Nodup
import Mathlib.Data.List.Perm.Basic
import Mathlib.Logic.Relation
import Mathlib.Tactic.Common

/-!
# The Orders of a Tree

A tree given by the function `kids`, which lists the children of a node. Below a node of
finite height there are finitely many others, and `order` lists it with them, each node
before what is below it, or after.

The number in `order` only bounds the depth: `order_eq` is the recursion without it, for
every node whose height it bounds.

## Main results

* `order_eq`: a node stands next to the orders of its children.
* `mem_order`: the order of a node is what can be reached from it.
* `order_perm`: both orders list the same nodes.
* `nodup_order`: no node is listed twice, if the nodes have addresses in the tree.
-/

universe u v

namespace TreeOrder

variable {α : Type u} (kids : α → List α)

/-- No way down from `a` is longer than `d`. -/
def Height : ℕ → α → Prop
  | 0, a => kids a = []
  | d + 1, a => ∀ b ∈ kids a, Height d b

/-- A node before or after what is below it. -/
def place (post : Bool) (a : α) (below : List α) : List α :=
  if post then below ++ [a] else a :: below

/-- A node with what is below it, down to the depth `d`. -/
def order (post : Bool) : ℕ → α → List α
  | 0, a => [a]
  | d + 1, a => place post a ((kids a).flatMap (order post d))

variable {kids} {post : Bool} {d : ℕ} {a b : α}

@[simp] theorem place_nil : place post a [] = [a] := by
  cases post <;> rfl

theorem mem_place {below : List α} : b ∈ place post a below ↔ b = a ∨ b ∈ below := by
  cases post <;> simp [place, or_comm]

/-- What is placed next to a node can be told from the result. -/
theorem place_inj {below below' : List α} (h : place post a below = place post a below') :
    below = below' := by
  cases post with
  | true => exact List.append_cancel_right h
  | false => exact List.tail_eq_of_cons_eq h

@[simp] theorem length_place (below : List α) :
    (place post a below).length = below.length + 1 := by
  cases post <;> simp [place]

/-- A bound on the height can be raised. -/
theorem Height.succ (h : Height kids d a) : Height kids (d + 1) a := by
  induction d generalizing a with
  | zero =>
    intro b hb
    rw [show kids a = [] from h] at hb
    cases hb
  | succ d ih => exact fun b hb => ih (h b hb)

/-- The height of a child. -/
theorem Height.kid (h : Height kids d a) (hb : b ∈ kids a) : Height kids d b := by
  cases d with
  | zero =>
    rw [show kids a = [] from h] at hb
    cases hb
  | succ d => exact (h b hb).succ

/-- A larger bound on the depth makes no difference. -/
theorem order_succ (h : Height kids d a) : order kids post (d + 1) a = order kids post d a := by
  induction d generalizing a with
  | zero =>
    have hnil : kids a = [] := h
    simp [order, hnil]
  | succ d ih =>
    have hkids : (kids a).flatMap (order kids post (d + 1)) =
        (kids a).flatMap (order kids post d) :=
      List.flatMap_congr fun b hb => ih (h b hb)
    rw [order, hkids, order]

/-- A node stands next to the orders of its children. -/
theorem order_eq (h : Height kids d a) :
    order kids post d a = place post a ((kids a).flatMap (order kids post d)) := by
  rw [← order_succ h, order]

/-- The order of a node is what can be reached from it. -/
theorem mem_order (h : Height kids d a) :
    b ∈ order kids post d a ↔ Relation.ReflTransGen (fun x y => y ∈ kids x) a b := by
  induction d generalizing a with
  | zero =>
    have hnil : kids a = [] := h
    rw [order, List.mem_singleton]
    constructor
    · rintro rfl
      exact .refl
    · intro hr
      rcases Relation.ReflTransGen.cases_head hr with rfl | ⟨c, hc, -⟩
      · rfl
      · rw [hnil] at hc
        cases hc
  | succ d ih =>
    rw [order, mem_place, List.mem_flatMap]
    constructor
    · rintro (rfl | ⟨c, hc, hb⟩)
      · exact .refl
      · exact .head hc ((ih (h c hc)).mp hb)
    · intro hr
      rcases Relation.ReflTransGen.cases_head hr with rfl | ⟨c, hc, hcb⟩
      · exact .inl rfl
      · exact .inr ⟨c, hc, (ih (h c hc)).mpr hcb⟩

/-- Both orders list the same nodes. -/
theorem order_perm (d : ℕ) (a : α) : (order kids true d a).Perm (order kids false d a) := by
  induction d generalizing a with
  | zero => exact .refl _
  | succ d ih =>
    have hkids : ((kids a).flatMap (order kids true d)).Perm
        ((kids a).flatMap (order kids false d)) :=
      List.Perm.flatMap_left _ fun b _ => ih b
    exact (List.perm_append_singleton _ _).trans (hkids.cons a)

/-! ### Addresses -/

variable {β : Type v} {key : α → List β}

/-- The address of a node is the beginning of every address below it. -/
theorem key_isPrefix (hkey : ∀ a, ∀ b ∈ kids a, ∃ n, key b = key a ++ [n])
    (h : b ∈ order kids post d a) : key a <+: key b := by
  induction d generalizing a with
  | zero =>
    rw [order, List.mem_singleton] at h
    subst h
    exact List.prefix_rfl
  | succ d ih =>
    rw [order, mem_place, List.mem_flatMap] at h
    rcases h with rfl | ⟨c, hc, hb⟩
    · exact List.prefix_rfl
    · obtain ⟨n, hn⟩ := hkey a c hc
      have hac : key a <+: key c := hn ▸ List.prefix_append _ _
      exact hac.trans (ih hb)

/-- A node is not below its children. -/
theorem not_mem_below (hkey : ∀ a, ∀ b ∈ kids a, ∃ n, key b = key a ++ [n]) (d : ℕ) (a : α) :
    a ∉ (kids a).flatMap (order kids post d) := by
  intro hmem
  obtain ⟨b, hb, hab⟩ := List.mem_flatMap.mp hmem
  obtain ⟨n, hn⟩ := hkey a b hb
  have hlen := (key_isPrefix hkey hab).length_le
  rw [hn, List.length_append, List.length_singleton] at hlen
  omega

/-- The orders of the children have no node in common. -/
theorem nodup_below (hkey : ∀ a, ∀ b ∈ kids a, ∃ n, key b = key a ++ [n])
    (hkids : ∀ a, ((kids a).map key).Nodup) (hnodup : ∀ a, (order kids post d a).Nodup) (a : α) :
    ((kids a).flatMap (order kids post d)).Nodup := by
  refine List.nodup_flatMap.mpr ⟨fun b _ => hnodup b, ?_⟩
  refine (List.Nodup.of_map key (hkids a)).imp_of_mem ?_
  intro b c hb hc hbc x hxb hxc
  -- the addresses of two children are of one length, and differ
  obtain ⟨n, hn⟩ := hkey a b hb
  obtain ⟨m, hm⟩ := hkey a c hc
  have hlen : (key b).length = (key c).length := by simp [hn, hm]
  have hfront : key b <+: key c :=
    List.prefix_of_prefix_length_le (key_isPrefix hkey hxb) (key_isPrefix hkey hxc)
      (Nat.le_of_eq hlen)
  exact hbc (List.inj_on_of_nodup_map (hkids a) hb hc (hfront.eq_of_length hlen))

/-- No node is listed twice, if the address of a child is that of its parent and one more
step, which is another one for every child. -/
theorem nodup_order (hkey : ∀ a, ∀ b ∈ kids a, ∃ n, key b = key a ++ [n])
    (hkids : ∀ a, ((kids a).map key).Nodup) (d : ℕ) (a : α) : (order kids post d a).Nodup := by
  induction d generalizing a with
  | zero => exact List.nodup_singleton a
  | succ d ih =>
    have hnot : a ∉ (kids a).flatMap (order kids post d) := not_mem_below hkey d a
    have hbelow := nodup_below hkey hkids ih a
    rw [order]
    cases post with
    | true => exact List.Nodup.append hbelow (List.nodup_singleton a) (by simpa using hnot)
    | false => exact List.nodup_cons.mpr ⟨hnot, hbelow⟩

end TreeOrder
