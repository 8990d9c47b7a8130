import Mathlib.Data.List.Infix
import Mathlib.Data.List.Nodup
import Mathlib.Logic.Function.Basic
import Mathlib.Tactic.Ring
import Mathlib.Tactic.Common

/-!
# File Trees

A tree of files, directories and symbolic links, and the way a file name is resolved in
it. A location is the list of the names on the way from the root, so that a link, or a
name that goes through `..`, has a location of its own and leads to another one.

The names and the contents are of any types. A `FileTree` carries the proof that it is a
tree: every node but the root is in a directory, which lists it once.

## Main results

* `FileTree.insert`, `FileTree.write`, `FileTree.erase`, `FileTree.move`: the changes of
  a tree that keep it one.
* `FileTree.walk_mono`: a name that leads somewhere leads there in every larger tree.
* `FileTree.walk_append`: a name that goes on after another one goes on from its place.
* `FileTree.walk_child`: how the name of an entry is resolved after that of its directory.
-/

universe u v

/-- One element of a file name, between two slashes. -/
inductive PathElem (N : Type u)
  | empty
  | self
  | parent
  | name (n : N)
  deriving DecidableEq, Repr

/-- A file name. -/
structure FileName (N : Type u) where
  isAbsolute : Bool
  elements : List (PathElem N)
  deriving DecidableEq, Repr

/-- A node of a file tree. -/
inductive Entry (N : Type u) (B : Type v)
  | file (content : B)
  | dir
  | link (target : FileName N)
  deriving DecidableEq, Repr

/-- A file tree: the node at every location, and the names each directory lists. -/
structure FileTree (N : Type u) (B : Type v) where
  look : List N → Option (Entry N B)
  names : List N → List N
  root : look [] = some .dir
  closed : ∀ l n, look (l ++ [n]) ≠ none → look l = some .dir
  listed : ∀ l n, n ∈ names l ↔ look (l ++ [n]) ≠ none
  nodup : ∀ l, (names l).Nodup

namespace FileTree

variable {N : Type u} {B : Type v} {t t' : FileTree N B}

/-- There is nothing below what is not a directory. -/
theorem look_below (t : FileTree N B) {l : List N} (h : t.look l ≠ some .dir) (n : N) :
    t.look (l ++ [n]) = none := by
  by_contra hne
  exact h (t.closed l n hne)

/-- What is on the way to a node is a directory. -/
theorem look_isPrefix (t : FileTree N B) {s l : List N} (hs : s <+: l) (hne : s ≠ l)
    (hl : t.look l ≠ none) : t.look s = some .dir := by
  obtain ⟨r, rfl⟩ := hs
  induction r using List.reverseRecOn with
  | nil => simp at hne
  | append_singleton r n ih =>
      rw [← List.append_assoc] at hl
      have hdir := t.closed (s ++ r) n hl
      rcases eq_or_ne r [] with rfl | hr
      · simpa using hdir
      · exact ih (by simpa using hr.symm) (by rw [hdir]; simp)

/-- A directory without names is empty. -/
theorem look_of_names_nil (t : FileTree N B) {l : List N} (h : t.names l = []) (n : N) :
    t.look (l ++ [n]) = none := by
  have hn := t.listed l n
  rw [h] at hn
  simpa using hn

/-- What is not a directory lists no names. -/
theorem names_of_look (t : FileTree N B) {l : List N} (h : t.look l ≠ some .dir) :
    t.names l = [] := by
  refine List.eq_nil_iff_forall_not_mem.mpr fun n hn => ?_
  exact (t.listed l n).mp hn (t.look_below h n)

/-- There is nothing at or below a name that a directory does not list. -/
theorem look_of_not_listed (t : FileTree N B) {l : List N} {n : N} (hn : n ∉ t.names l)
    (r : List N) : t.look (l ++ n :: r) = none := by
  by_contra hne
  refine hn ((t.listed l n).mpr ?_)
  rcases eq_or_ne r [] with rfl | hr
  · exact hne
  · have hway : l ++ [n] <+: l ++ n :: r := ⟨r, by simp⟩
    rw [t.look_isPrefix hway (by simpa using hr.symm) hne]
    simp

/-- The next name of a directory, when its list is gone through, is not among those before. -/
theorem next_not_done (t : FileTree N B) {l ns done rest : List N} {n : N}
    (hns : ns <+: t.names l) (hsplit : ns = done ++ n :: rest) : n ∉ done := by
  intro hdone
  have hnodup := hns.sublist.nodup (t.nodup l)
  rw [hsplit] at hnodup
  exact List.disjoint_of_nodup_append hnodup hdone List.mem_cons_self

/-- The tree with nothing in it. -/
def empty [DecidableEq N] : FileTree N B where
  look l := if l = [] then some .dir else none
  names _ := []
  root := rfl
  closed l n h := by simp at h
  listed l n := by simp
  nodup _ := List.nodup_nil

/-! ### Larger trees -/

/-- Every node of `t` is in `t'`, unchanged. -/
def Extends (t' t : FileTree N B) : Prop :=
  ∀ l e, t.look l = some e → t'.look l = some e

namespace Extends

/-- A tree extends itself. -/
theorem refl (t : FileTree N B) : t.Extends t := fun _ _ h => h

/-- A tree that is extended twice is extended. -/
theorem trans {t'' : FileTree N B} (h' : t''.Extends t') (h : t'.Extends t) : t''.Extends t :=
  fun l e hl => h' l e (h l e hl)

end Extends

/-- The trees have the same nodes at the locations that satisfy `P`. -/
def SameOn (P : List N → Prop) (t t' : FileTree N B) : Prop :=
  ∀ l, P l → t'.look l = t.look l

namespace SameOn

variable {P Q : List N → Prop}

/-- A tree is the same as itself. -/
theorem refl (t : FileTree N B) : SameOn P t t := fun _ _ => rfl

/-- What is the same twice is the same. -/
theorem trans {t'' : FileTree N B} (h : SameOn P t t') (h' : SameOn P t' t'') :
    SameOn P t t'' := fun l hl => (h' l hl).trans (h l hl)

/-- Less may be the same. -/
theorem mono (h : SameOn P t t') (hQ : ∀ l, Q l → P l) : SameOn Q t t' :=
  fun l hl => h l (hQ l hl)

end SameOn

/-! ### Changes of a tree -/

/-- The node at `s`, with what is below it, can be moved to the name `n` in `l`, where there
is nothing, or a node without entries. -/
structure Movable (t : FileTree N B) (s l : List N) (n : N) : Prop where
  source : t.look s ≠ none
  dir : t.look l = some .dir
  outside : ¬ s <+: l ++ [n]
  leaf : t.names (l ++ [n]) = []

namespace Movable

variable {s l : List N} {n : N}

/-- The target is not above the source, since it has no entries. -/
theorem not_above (h : Movable t s l n) : ¬ l ++ [n] <+: s := by
  rintro ⟨r, rfl⟩
  cases r with
  | nil => exact h.outside (by simp)
  | cons m r =>
      have hbelow := t.look_of_names_nil h.leaf m
      have hsplit : l ++ [n] ++ m :: r = l ++ [n] ++ [m] ++ r := by simp
      refine h.source ?_
      by_contra hne
      rcases eq_or_ne r [] with rfl | hr
      · exact hne hbelow
      · have hdir := t.look_isPrefix (s := l ++ [n] ++ [m]) ⟨r, hsplit.symm⟩ (by simp [hr]) hne
        rw [hbelow] at hdir
        cases hdir

/-- A movable node is not moved below itself. -/
theorem not_below (h : Movable t s l n) : ¬ s <+: l := fun hs =>
  h.outside (hs.trans (List.prefix_append _ _))

end Movable

section Changes

variable [DecidableEq N]

/-- A new node in a directory. -/
def insert (t : FileTree N B) (l : List N) (n : N) (e : Entry N B)
    (hdir : t.look l = some .dir) (hnew : t.look (l ++ [n]) = none) : FileTree N B where
  look := Function.update t.look (l ++ [n]) (some e)
  names := Function.update t.names l (t.names l ++ [n])
  root := by
    rw [Function.update_of_ne (by simp)]
    exact t.root
  closed k m hk := by
    have hkl : k ≠ l ++ [n] ∨ k = l ++ [n] := ne_or_eq _ _
    rcases hkl with hkl | rfl
    · rw [Function.update_of_ne hkl]
      by_cases hsame : k ++ [m] = l ++ [n]
      · obtain ⟨rfl, -⟩ := List.append_inj' hsame rfl
        exact hdir
      · rw [Function.update_of_ne hsame] at hk
        exact t.closed k m hk
    · rw [Function.update_of_ne (by simp)] at hk
      have hbelow := t.closed _ m hk
      rw [hnew] at hbelow
      cases hbelow
  listed k m := by
    by_cases hkl : k = l
    · subst hkl
      rw [Function.update_self, List.mem_append, List.mem_singleton, t.listed k m]
      by_cases hmn : m = n
      · subst hmn
        simp
      · rw [Function.update_of_ne (by simpa using hmn)]
        simp [hmn]
    · rw [Function.update_of_ne hkl, t.listed k m, Function.update_of_ne]
      intro hsame
      exact hkl (List.append_inj' hsame rfl).1
  nodup k := by
    by_cases hkl : k = l
    · subst hkl
      rw [Function.update_self]
      refine List.nodup_append.mpr ⟨t.nodup k, List.nodup_singleton n, ?_⟩
      intro a ha b hb hab
      rw [List.mem_singleton.mp hb] at hab
      subst hab
      exact (t.listed k a).mp ha hnew
    · rw [Function.update_of_ne hkl]
      exact t.nodup k

/-- The tree with one entry. -/
def single (n : N) (e : Entry N B) : FileTree N B :=
  empty.insert [] n e empty.root rfl

/-- New content for a file. -/
def write (t : FileTree N B) (l : List N) (c : B) (hfile : ∃ c', t.look l = some (.file c')) :
    FileTree N B where
  look := Function.update t.look l (some (.file c))
  names := t.names
  root := by
    obtain ⟨c', hc⟩ := hfile
    rcases eq_or_ne l [] with rfl | hl
    · rw [t.root] at hc
      cases hc
    · rw [Function.update_of_ne hl.symm]
      exact t.root
  closed k m hk := by
    obtain ⟨c', hc⟩ := hfile
    have hdir : t.look k = some .dir := by
      refine t.closed k m ?_
      by_cases hkl : k ++ [m] = l
      · rw [hkl, hc]
        simp
      · rwa [Function.update_of_ne hkl] at hk
    rw [Function.update_of_ne, hdir]
    rintro rfl
    rw [hc] at hdir
    cases hdir
  listed k m := by
    obtain ⟨c', hc⟩ := hfile
    rw [t.listed k m]
    by_cases hkl : k ++ [m] = l
    · rw [hkl, Function.update_self, hc]
      simp
    · rw [Function.update_of_ne hkl]
  nodup := t.nodup

/-- A node without entries is taken out of its directory. -/
def erase (t : FileTree N B) (l : List N) (n : N) (hleaf : t.names (l ++ [n]) = []) :
    FileTree N B where
  look := Function.update t.look (l ++ [n]) none
  names := Function.update t.names l ((t.names l).filter (· ≠ n))
  root := by
    rw [Function.update_of_ne (by simp)]
    exact t.root
  closed k m hk := by
    by_cases hsame : k ++ [m] = l ++ [n]
    · rw [hsame, Function.update_self] at hk
      exact absurd rfl hk
    · rw [Function.update_of_ne hsame] at hk
      rw [Function.update_of_ne, t.closed k m hk]
      rintro rfl
      exact hk (t.look_of_names_nil hleaf m)
  listed k m := by
    by_cases hkl : k = l
    · subst hkl
      rw [Function.update_self, List.mem_filter, t.listed k m]
      by_cases hmn : m = n
      · subst hmn
        simp
      · rw [Function.update_of_ne (by simpa using hmn)]
        simp [hmn]
    · rw [Function.update_of_ne hkl, t.listed k m, Function.update_of_ne]
      intro hsame
      exact hkl (List.append_inj' hsame rfl).1
  nodup k := by
    by_cases hkl : k = l
    · subst hkl
      rw [Function.update_self]
      exact (t.nodup k).filter _
    · rw [Function.update_of_ne hkl]
      exact t.nodup k

/-- Whether a node can be moved can be computed. -/
instance [DecidableEq B] (t : FileTree N B) (s l : List N) (n : N) :
    Decidable (Movable t s l n) :=
  decidable_of_iff (t.look s ≠ none ∧ t.look l = some .dir ∧ ¬ s <+: l ++ [n] ∧
    t.names (l ++ [n]) = [])
    ⟨fun ⟨hs, hl, ho, hn⟩ => ⟨hs, hl, ho, hn⟩,
      fun h => ⟨h.source, h.dir, h.outside, h.leaf⟩⟩

/-- The nodes after a move. -/
private def moveLook (t : FileTree N B) (s d l : List N) : Option (Entry N B) :=
  if d <+: l then t.look (s ++ l.drop d.length) else if s <+: l then none else t.look l

/-- The names in the directory `l` after a move to the name `n` in `d`. -/
private def moveNames (t : FileTree N B) (s d : List N) (n : N) (l : List N) : List N :=
  if d ++ [n] <+: l then
    t.names (s ++ l.drop (d ++ [n]).length)
  else if s <+: l then
    []
  else
    (t.names l).filter (fun m => l ++ [m] ≠ s ∧ l ++ [m] ≠ d ++ [n]) ++ if l = d then [n] else []

/-- Below the target of a move there is what was below its source. -/
private theorem moveLook_target (t : FileTree N B) (s d r : List N) :
    t.moveLook s d (d ++ r) = t.look (s ++ r) := by
  simp [moveLook]

/-- A node is moved, with what is below it. What was at the target is lost. -/
def move (t : FileTree N B) (s l : List N) (n : N) (h : Movable t s l n) : FileTree N B where
  look := t.moveLook s (l ++ [n])
  names := t.moveNames s l n
  root := by
    have hs : ¬ s <+: [] := fun hs => h.not_below (hs.trans (List.nil_prefix))
    simp [moveLook, hs, t.root]
  closed k m hk := by
    by_cases htarget : l ++ [n] <+: k
    · obtain ⟨r, rfl⟩ := htarget
      rw [List.append_assoc (l ++ [n]) r [m], moveLook_target, ← List.append_assoc] at hk
      rw [moveLook_target]
      exact t.closed _ m hk
    · by_cases hsame : k ++ [m] = l ++ [n]
      · obtain ⟨rfl, -⟩ := List.append_inj' hsame rfl
        simp only [moveLook, htarget, h.not_below, if_false]
        exact h.dir
      · have hout : ¬ l ++ [n] <+: k ++ [m] := fun hp =>
          (List.prefix_concat_iff.mp hp).elim (fun he => hsame he.symm) htarget
        simp only [moveLook, hout, htarget, if_false] at hk ⊢
        split at hk
        next => exact absurd rfl hk
        next hs =>
          rw [if_neg fun hp => hs (hp.trans (List.prefix_append _ _))]
          exact t.closed k m hk
  listed k m := by
    by_cases htarget : l ++ [n] <+: k
    · have hin := htarget
      obtain ⟨r, rfl⟩ := htarget
      rw [List.append_assoc (l ++ [n]) r [m], moveLook_target, ← List.append_assoc]
      simp only [moveNames, hin, if_true, List.drop_left]
      exact t.listed _ m
    · simp only [moveNames, moveLook, htarget, if_false]
      by_cases hs : s <+: k
      · have hs' : s <+: k ++ [m] := hs.trans (List.prefix_append _ _)
        have hout : ¬ l ++ [n] <+: k ++ [m] := by
          intro hp
          rcases List.prefix_concat_iff.mp hp with he | hp
          · exact h.outside (he ▸ hs')
          · exact htarget hp
        simp [hs, hs', hout]
      · rw [if_neg hs, List.mem_append, List.mem_filter, t.listed k m]
        by_cases hsame : k ++ [m] = l ++ [n]
        · obtain ⟨rfl, hm⟩ := List.append_inj' hsame rfl
          obtain rfl := (List.cons.inj hm).1
          simp [h.source]
        · have hout : ¬ l ++ [n] <+: k ++ [m] := fun hp =>
            (List.prefix_concat_iff.mp hp).elim (fun he => hsame he.symm) htarget
          have hnot : m ∉ (if k = l then [n] else []) := by
            split
            next hkl =>
              subst hkl
              simpa using hsame
            next => simp
          rw [if_neg hout]
          by_cases hmoved : k ++ [m] = s
          · have hp : s <+: k ++ [m] := hmoved ▸ List.prefix_rfl
            simp only [hmoved] at hnot ⊢
            simp [hnot]
          · have hp : ¬ s <+: k ++ [m] := fun hp =>
              (List.prefix_concat_iff.mp hp).elim (fun he => hmoved he.symm) hs
            simp [hp, hmoved, hsame, hnot]
  nodup k := by
    unfold moveNames
    split_ifs with htarget hs hkl
    · exact t.nodup _
    · exact List.nodup_nil
    · subst hkl
      refine List.nodup_append.mpr ⟨(t.nodup k).filter _, List.nodup_singleton n, ?_⟩
      intro a ha b hb hab
      rw [List.mem_singleton.mp hb] at hab
      subst hab
      simp at ha
    · rw [List.append_nil]
      exact (t.nodup k).filter _

/-- A new node is there. -/
theorem look_insert {l : List N} {n : N} {e : Entry N B} (hdir : t.look l = some .dir)
    (hnew : t.look (l ++ [n]) = none) :
    (t.insert l n e hdir hnew).look (l ++ [n]) = some e :=
  Function.update_self ..

/-- A new node changes nothing elsewhere. -/
theorem look_insert_of_ne {l k : List N} {n : N} {e : Entry N B} (hdir : t.look l = some .dir)
    (hnew : t.look (l ++ [n]) = none) (hk : k ≠ l ++ [n]) :
    (t.insert l n e hdir hnew).look k = t.look k :=
  Function.update_of_ne hk ..

/-- The new content is there. -/
theorem look_write {l : List N} {c : B} (hfile : ∃ c', t.look l = some (.file c')) :
    (t.write l c hfile).look l = some (.file c) :=
  Function.update_self ..

/-- New content changes nothing elsewhere. -/
theorem look_write_of_ne {l k : List N} {c : B} (hfile : ∃ c', t.look l = some (.file c'))
    (hk : k ≠ l) : (t.write l c hfile).look k = t.look k :=
  Function.update_of_ne hk ..

/-- Nothing else is erased. -/
theorem look_erase_of_ne {l k : List N} {n : N} (hleaf : t.names (l ++ [n]) = [])
    (hk : k ≠ l ++ [n]) : (t.erase l n hleaf).look k = t.look k :=
  Function.update_of_ne hk ..

/-- An erased node is gone. -/
theorem look_erase {l : List N} {n : N} (hleaf : t.names (l ++ [n]) = []) :
    (t.erase l n hleaf).look (l ++ [n]) = none :=
  Function.update_self ..

/-- The tree before the erasure extends the one after it. -/
theorem extends_erase {l : List N} {n : N} (hleaf : t.names (l ++ [n]) = []) :
    t.Extends (t.erase l n hleaf) := by
  intro k e hk
  rcases eq_or_ne k (l ++ [n]) with rfl | hne
  · rw [look_erase] at hk
    cases hk
  · rwa [look_erase_of_ne hleaf hne] at hk

/-- What is neither at the source of a move nor at its target stays where it is. -/
theorem look_move {s l k : List N} {n : N} (h : Movable t s l n) (hs : ¬ s <+: k)
    (hk : ¬ l ++ [n] <+: k) : (t.move s l n h).look k = t.look k := by
  change t.moveLook s (l ++ [n]) k = t.look k
  rw [moveLook, if_neg hk, if_neg hs]

/-- What was at the source of a move is at its target. -/
theorem look_move_target {s l : List N} {n : N} (h : Movable t s l n) (r : List N) :
    (t.move s l n h).look (l ++ [n] ++ r) = t.look (s ++ r) :=
  moveLook_target ..

end Changes

/-! ### Resolving a file name -/

/-- Where a file name leads: to a node, or to a name that a directory does not have. -/
inductive Place (N : Type u)
  | found (l : List N)
  | missing (l : List N) (n : N)
  deriving DecidableEq, Repr

/-- The location of a place. -/
def Place.loc {N : Type u} : Place N → List N
  | found l => l
  | missing l n => l ++ [n]

/-- Why a file name leads nowhere. A name that is too long is refused before it is
followed. -/
inductive WalkError
  | noEntry
  | notDir
  | loop
  | tooLong
  deriving DecidableEq, Repr

/-- Follows the elements of a name from the directory `cur`, up to a link, from which
`next` goes on. A link at the end is followed if `follow` is set. -/
def walkElems (t : FileTree N B) (follow : Bool)
    (next : List N → List (PathElem N) → Except WalkError (Place N)) :
    List N → List (PathElem N) → Except WalkError (Place N)
  | cur, [] => .ok (.found cur)
  | cur, e :: es =>
      match t.look cur with
      | some .dir =>
          match e with
          | .empty => walkElems t follow next cur es
          | .self => walkElems t follow next cur es
          | .parent => walkElems t follow next cur.dropLast es
          | .name n =>
              match t.look (cur ++ [n]) with
              | none => if es = [] then .ok (.missing cur n) else .error .noEntry
              | some (.link target) =>
                  if es = [] ∧ follow = false then
                    .ok (.found (cur ++ [n]))
                  else
                    next (if target.isAbsolute then [] else cur) (target.elements ++ es)
              | some _ => walkElems t follow next (cur ++ [n]) es
      | some _ => .error .notDir
      | none => .error .noEntry

/-- Goes on after a link, of which `links` are allowed. -/
def walkAfter (t : FileTree N B) (follow : Bool) :
    ℕ → List N → List (PathElem N) → Except WalkError (Place N)
  | 0, _, _ => .error .loop
  | links + 1, cur, es => walkElems t follow (walkAfter t follow links) cur es

/-- Follows the elements of a name from the directory `cur`, through at most `links`
links. -/
def walk (t : FileTree N B) (follow : Bool) (links : ℕ) (cur : List N)
    (es : List (PathElem N)) : Except WalkError (Place N) :=
  walkElems t follow (walkAfter t follow links) cur es

variable {follow : Bool} {links : ℕ} {cur l : List N} {n : N} {es : List (PathElem N)}
  {p : Place N}

/-- A walk without steps is at its end. -/
@[simp] theorem walk_nil : t.walk follow links cur [] = .ok (.found cur) := rfl

/-- An empty element or a dot is skipped. -/
theorem walk_skip {e : PathElem N} (hcur : t.look cur = some .dir)
    (he : e = .empty ∨ e = .self) :
    t.walk follow links cur (e :: es) = t.walk follow links cur es := by
  rcases he with rfl | rfl <;> simp [walk, walkElems, hcur]

/-- Two dots go up. -/
theorem walk_parent (hcur : t.look cur = some .dir) :
    t.walk follow links cur (.parent :: es) = t.walk follow links cur.dropLast es := by
  simp [walk, walkElems, hcur]

/-- The last name may be missing. -/
theorem walk_missing (hcur : t.look cur = some .dir) (hn : t.look (cur ++ [n]) = none) :
    t.walk follow links cur [.name n] = .ok (.missing cur n) := by
  simp [walk, walkElems, hcur, hn]

/-- A link at the end is not followed if it should not be. -/
theorem walk_stop {target : FileName N} (hcur : t.look cur = some .dir)
    (hn : t.look (cur ++ [n]) = some (.link target)) :
    t.walk false links cur [.name n] = .ok (.found (cur ++ [n])) := by
  simp [walk, walkElems, hcur, hn]

/-- A link is followed by walking along its target. -/
theorem walk_link {target : FileName N} (hes : ¬ (es = [] ∧ follow = false))
    (hcur : t.look cur = some .dir) (hn : t.look (cur ++ [n]) = some (.link target)) :
    t.walk follow (links + 1) cur (.name n :: es) =
      t.walk follow links (if target.isAbsolute then [] else cur) (target.elements ++ es) := by
  simp only [walk, walkElems, hcur, hn, if_neg hes]
  rfl

/-- A name that is no link goes down. -/
theorem walk_name {e : Entry N B} (hcur : t.look cur = some .dir)
    (hn : t.look (cur ++ [n]) = some e) (he : ∀ target, e ≠ .link target) :
    t.walk follow links cur (.name n :: es) = t.walk follow links (cur ++ [n]) es := by
  cases e with
  | link target => exact absurd rfl (he target)
  | file c => simp [walk, walkElems, hcur, hn]
  | dir => simp [walk, walkElems, hcur, hn]

/-- The names on the way to a node lead there. -/
theorem walk_names {ns : List N} (hcur : t.look cur = some .dir)
    (h : t.look (cur ++ ns) ≠ none) :
    t.walk false links cur (ns.map .name) = .ok (.found (cur ++ ns)) := by
  induction ns generalizing cur with
  | nil => rw [List.append_nil]; rfl
  | cons n ns ih =>
      have hassoc : cur ++ n :: ns = cur ++ [n] ++ ns := by simp
      rw [hassoc] at h ⊢
      rcases eq_or_ne ns [] with rfl | hns
      · rw [List.append_nil] at h ⊢
        cases he : t.look (cur ++ [n]) with
        | none => exact absurd he h
        | some e =>
            cases e with
            | link target => exact walk_stop hcur he
            | file c => exact walk_name hcur he (by simp)
            | dir => exact walk_name hcur he (by simp)
      · have hdir := t.look_isPrefix (List.prefix_append (cur ++ [n]) ns)
          (by simpa using hns.symm) h
        rw [List.map_cons, walk_name hcur hdir (by simp)]
        exact ih hdir h

/-- The rule for what holds of the place a name leads to, one element at a time. -/
theorem walk_rule {f : Bool} {P : ℕ → List N → List (PathElem N) → Place N → Prop}
    (hnil : ∀ k cur, P k cur [] (.found cur))
    (hskip : ∀ k cur e es p, t.look cur = some .dir → e = .empty ∨ e = .self → P k cur es p →
      P k cur (e :: es) p)
    (hparent : ∀ k cur es p, t.look cur = some .dir → P k cur.dropLast es p →
      P k cur (.parent :: es) p)
    (hmissing : ∀ k cur n, t.look cur = some .dir → t.look (cur ++ [n]) = none →
      P k cur [.name n] (.missing cur n))
    (hstop : ∀ k cur n target, f = false → t.look cur = some .dir →
      t.look (cur ++ [n]) = some (.link target) → P k cur [.name n] (.found (cur ++ [n])))
    (hlink : ∀ k cur n target es p, ¬ (es = [] ∧ f = false) → t.look cur = some .dir →
      t.look (cur ++ [n]) = some (.link target) →
      P k (if target.isAbsolute then [] else cur) (target.elements ++ es) p →
      P (k + 1) cur (.name n :: es) p)
    (hname : ∀ k cur n e es p, t.look cur = some .dir → t.look (cur ++ [n]) = some e →
      (∀ target, e ≠ .link target) → P k (cur ++ [n]) es p → P k cur (.name n :: es) p)
    (h : t.walk f links cur es = .ok p) : P links cur es p := by
  have hone : ∀ k, (∀ cur es p, t.walkAfter f k cur es = .ok p →
      ∃ k', k = k' + 1 ∧ P k' cur es p) →
      ∀ es cur p, t.walk f k cur es = .ok p → P k cur es p := by
    intro k hnext es
    induction es with
    | nil =>
        intro cur p h
        obtain rfl := Except.ok.inj h
        exact hnil k cur
    | cons e es ih =>
        intro cur p h
        simp only [walk, walkElems] at h
        split at h
        next hcur =>
          cases e with
          | empty => exact hskip k _ _ _ _ hcur (Or.inl rfl) (ih cur p h)
          | self => exact hskip k _ _ _ _ hcur (Or.inr rfl) (ih cur p h)
          | parent => exact hparent k _ _ _ hcur (ih _ p h)
          | name n =>
              simp only at h
              split at h
              next hnone =>
                split at h
                next hes =>
                  subst hes
                  obtain rfl := Except.ok.inj h
                  exact hmissing k cur n hcur hnone
                next => cases h
              next target htarget =>
                split at h
                next hes =>
                  obtain ⟨rfl, hf⟩ := hes
                  obtain rfl := Except.ok.inj h
                  exact hstop k cur n target hf hcur htarget
                next hes =>
                  obtain ⟨k', rfl, hp⟩ := hnext _ _ p h
                  exact hlink k' cur n target es p hes hcur htarget hp
              next e hne he =>
                exact hname k cur n e es p hcur he (fun target ht => hne target ht) (ih _ p h)
        next => cases h
        next => cases h
  induction links generalizing cur es p with
  | zero => exact hone 0 (fun _ _ _ h => by cases h) es cur p h
  | succ k ih => exact hone (k + 1) (fun _ _ _ h => ⟨k, rfl, ih h⟩) es cur p h

/-- The location of a directory that is not the root is in a directory. -/
theorem look_dropLast (h : t.look cur = some .dir) : t.look cur.dropLast = some .dir := by
  rcases eq_or_ne cur [] with rfl | hne
  · exact h
  · refine t.look_isPrefix (List.dropLast_prefix cur) ?_ (by rw [h]; simp)
    intro he
    have hlen := congrArg List.length he
    rw [List.length_dropLast] at hlen
    have hpos := List.length_pos_iff.mpr hne
    omega

/-- A found place is there, and a missing one is missing from a directory. -/
def Place.In (t : FileTree N B) : Place N → Prop
  | .found l => t.look l ≠ none
  | .missing l n => t.look l = some .dir ∧ t.look (l ++ [n]) = none

/-- There is no place below what is no directory. -/
theorem Place.In.not_below {s : List N} {e : Entry N B} (hp : Place.In t p)
    (hs : t.look s = some e) (he : e ≠ .dir) (hne : p.loc ≠ s) : ¬ s <+: p.loc := by
  intro hbelow
  have hdir : t.look s = some .dir := by
    cases p with
    | found l => exact t.look_isPrefix hbelow (Ne.symm hne) hp
    | missing l n =>
        rcases List.prefix_concat_iff.mp hbelow with heq | hl
        · exact absurd heq.symm hne
        · rcases eq_or_ne s l with rfl | hsl
          · exact hp.1
          · exact t.look_isPrefix hl hsl (by rw [hp.1]; simp)
  exact he (Option.some.inj (hs.symm.trans hdir))

/-- A name that is followed from a directory leads to a place of the tree. -/
theorem walk_spec (h : t.walk follow links cur es = .ok p) (hcur : t.look cur = some .dir) :
    Place.In t p := by
  refine walk_rule (P := fun _ cur _ p => t.look cur ≠ none → Place.In t p)
    ?_ ?_ ?_ ?_ ?_ ?_ ?_ h (by rw [hcur]; simp)
  · exact fun _ _ h => h
  · exact fun _ _ _ _ _ _ _ ih h => ih h
  · exact fun _ cur _ _ hcur ih _ => ih (by rw [look_dropLast hcur]; simp)
  · exact fun _ _ _ hcur hn _ => ⟨hcur, hn⟩
  · intro _ cur n target _ _ hn _
    simp [Place.In, hn]
  · intro _ cur n target _ _ _ _ _ ih h
    refine ih ?_
    split
    · rw [t.root]
      simp
    · exact h
  · intro _ cur n e es p _ hn _ ih _
    exact ih (by simp [hn])

/-- A name that leads somewhere leads there in every larger tree, where a missing name may
be there. -/
theorem walk_mono (hext : t'.Extends t) (h : t.walk follow links cur es = .ok (.found l)) :
    t'.walk follow links cur es = .ok (.found l) := by
  refine walk_rule (P := fun k cur es p => ∀ l, p = .found l →
    t'.walk follow k cur es = .ok (.found l)) ?_ ?_ ?_ ?_ ?_ ?_ ?_ h l rfl
  · rintro k cur l ⟨⟩
    rfl
  · intro k cur e es p hcur he ih l hl
    rw [walk_skip (hext _ _ hcur) he]
    exact ih l hl
  · intro k cur es p hcur ih l hl
    rw [walk_parent (hext _ _ hcur)]
    exact ih l hl
  · rintro k cur n - - l ⟨⟩
  · rintro k cur n target rfl hcur hn l ⟨⟩
    exact walk_stop (hext _ _ hcur) (hext _ _ hn)
  · intro k cur n target es p hes hcur hn ih l hl
    rw [walk_link hes (hext _ _ hcur) (hext _ _ hn)]
    exact ih l hl
  · intro k cur n e es p hcur hn he ih l hl
    rw [walk_name (hext _ _ hcur) (hext _ _ hn) he]
    exact ih l hl

/-- A name that does not follow a link at its end leads to one location, in every larger
tree. -/
theorem walk_loc (hext : t'.Extends t) (h : t.walk false links cur es = .ok p) :
    ∃ p', t'.walk false links cur es = .ok p' ∧ p'.loc = p.loc := by
  refine walk_rule (f := false) (P := fun k cur es p =>
    ∃ p', t'.walk false k cur es = .ok p' ∧ p'.loc = p.loc) ?_ ?_ ?_ ?_ ?_ ?_ ?_ h
  · exact fun k cur => ⟨_, rfl, rfl⟩
  · intro k cur e es p hcur he ih
    rwa [walk_skip (hext _ _ hcur) he]
  · intro k cur es p hcur ih
    rwa [walk_parent (hext _ _ hcur)]
  · intro k cur n hcur hn
    cases he : t'.look (cur ++ [n]) with
    | none => exact ⟨_, walk_missing (hext _ _ hcur) he, rfl⟩
    | some e =>
        cases e with
        | link target => exact ⟨_, walk_stop (hext _ _ hcur) he, rfl⟩
        | file c => exact ⟨_, walk_name (hext _ _ hcur) he (by simp), rfl⟩
        | dir => exact ⟨_, walk_name (hext _ _ hcur) he (by simp), rfl⟩
  · exact fun k cur n target _ hcur hn => ⟨_, walk_stop (hext _ _ hcur) (hext _ _ hn), rfl⟩
  · intro k cur n target es p hes hcur hn ih
    rwa [walk_link hes (hext _ _ hcur) (hext _ _ hn)]
  · intro k cur n e es p hcur hn he ih
    rwa [walk_name (hext _ _ hcur) (hext _ _ hn) he]

/-- There is no walk from a node that does not exist. -/
theorem walk_none {e : PathElem N} (hcur : t.look cur = none) :
    t.walk follow links cur (e :: es) = .error .noEntry := by
  simp [walk, walkElems, hcur]

/-- If a name that led somewhere leads nowhere in a smaller tree, it is because something on
the way is gone. -/
theorem walk_error_of_extends (hext : t.Extends t') {err : WalkError}
    (h : t.walk false links cur es = .ok p) (h' : t'.walk false links cur es = .error err) :
    err = .noEntry := by
  have hsame : ∀ {l : List N} {e : Entry N B}, t.look l = some e →
      t'.look l = none ∨ t'.look l = some e := by
    intro l e hl
    cases hl' : t'.look l with
    | none => exact .inl rfl
    | some e' => exact .inr (by rw [← hl, hext l e' hl'])
  -- at each element, either the directory is gone or the name goes on as it did
  have hgone : ∀ {k : ℕ} {cur : List N} {e : PathElem N} {es : List (PathElem N)},
      t.look cur = some .dir → t'.walk false k cur (e :: es) = .error err →
      err = .noEntry ∨ t'.look cur = some .dir := by
    intro k cur e es hcur h'
    refine (hsame hcur).imp_left fun hnone => ?_
    rw [walk_none hnone] at h'
    exact (Except.error.inj h').symm
  refine walk_rule (f := false) (P := fun k cur es _ =>
    t'.walk false k cur es = .error err → err = .noEntry) ?_ ?_ ?_ ?_ ?_ ?_ ?_ h h'
  · rintro k cur ⟨⟩
  · intro k cur e es p hcur he ih h'
    refine (hgone hcur h').elim id fun hcur' => ih ?_
    rwa [walk_skip hcur' he] at h'
  · intro k cur es p hcur ih h'
    refine (hgone hcur h').elim id fun hcur' => ih ?_
    rwa [walk_parent hcur'] at h'
  · intro k cur m hcur hm h'
    refine (hgone hcur h').elim id fun hcur' => ?_
    cases hm' : t'.look (cur ++ [m]) with
    | none =>
        rw [walk_missing hcur' hm'] at h'
        cases h'
    | some e => exact absurd ((hext _ e hm').symm.trans hm) (by simp)
  · intro k cur m target _ hcur hm h'
    refine (hgone hcur h').elim id fun hcur' => ?_
    rcases hsame hm with hm' | hm'
    · rw [walk_missing hcur' hm'] at h'
      cases h'
    · rw [walk_stop hcur' hm'] at h'
      cases h'
  · intro k cur m target es p hes hcur hm ih h'
    refine (hgone hcur h').elim id fun hcur' => ?_
    rcases hsame hm with hm' | hm'
    · have hes' : es ≠ [] := fun heq => hes ⟨heq, rfl⟩
      simp only [walk, walkElems, hcur', hm', if_neg hes'] at h'
      exact (Except.error.inj h').symm
    · rw [walk_link hes hcur' hm'] at h'
      exact ih h'
  · intro k cur m e es p hcur hm he ih h'
    refine (hgone hcur h').elim id fun hcur' => ?_
    rcases hsame hm with hm' | hm'
    · rcases eq_or_ne es [] with rfl | hes
      · rw [walk_missing hcur' hm'] at h'
        cases h'
      · simp only [walk, walkElems, hcur', hm', if_neg hes] at h'
        exact (Except.error.inj h').symm
    · rw [walk_name hcur' hm' he] at h'
      exact ih h'

/-- If a name leads to what is not a link, or is missing, it leads there whether a link at
its end is followed or not. -/
theorem walk_follow (h : t.walk false links cur es = .ok p)
    (hp : ∀ target, t.look p.loc ≠ some (.link target)) :
    t.walk true links cur es = .ok p := by
  refine walk_rule (f := false) (P := fun k cur es p =>
    (∀ target, t.look p.loc ≠ some (.link target)) → t.walk true k cur es = .ok p)
    ?_ ?_ ?_ ?_ ?_ ?_ ?_ h hp
  · exact fun k cur _ => rfl
  · intro k cur e es p hcur he ih hp
    rw [walk_skip hcur he]
    exact ih hp
  · intro k cur es p hcur ih hp
    rw [walk_parent hcur]
    exact ih hp
  · exact fun k cur n hcur hn _ => walk_missing hcur hn
  · exact fun k cur n target _ _ hn hp => absurd hn (hp target)
  · intro k cur n target es p hes hcur hn ih hp
    rw [walk_link (by simp) hcur hn]
    exact ih hp
  · intro k cur n e es p hcur hn he ih hp
    rw [walk_name hcur hn he]
    exact ih hp

/-- A name that leads somewhere leads there without a link at its end being followed, or
to such a link. -/
theorem walk_nofollow (h : t.walk true links cur es = .ok p) :
    ∃ p', t.walk false links cur es = .ok p' ∧
      (p' = p ∨ ∃ target, t.look p'.loc = some (.link target)) := by
  refine walk_rule (f := true) (P := fun k cur es p => ∃ p', t.walk false k cur es = .ok p' ∧
    (p' = p ∨ ∃ target, t.look p'.loc = some (.link target))) ?_ ?_ ?_ ?_ ?_ ?_ ?_ h
  · exact fun k cur => ⟨_, rfl, Or.inl rfl⟩
  · intro k cur e es p hcur he ih
    rwa [walk_skip hcur he]
  · intro k cur es p hcur ih
    rwa [walk_parent hcur]
  · exact fun k cur n hcur hn => ⟨_, walk_missing hcur hn, Or.inl rfl⟩
  · rintro k cur n target ⟨⟩
  · intro k cur n target es p _ hcur hn ih
    rcases eq_or_ne es [] with rfl | hes
    · exact ⟨_, walk_stop hcur hn, Or.inr ⟨target, hn⟩⟩
    · rwa [walk_link (by simp [hes]) hcur hn]
  · intro k cur n e es p hcur hn he ih
    rwa [walk_name hcur hn he]

/-- The name of an entry is resolved in the directory that the rest of the name leads
to. -/
theorem walk_child (h : t.walk true links cur es = .ok (.found l))
    (hl : t.look l = some .dir) (n : N) :
    t.walk false links cur (es ++ [.name n]) =
      .ok (if t.look (l ++ [n]) = none then .missing l n else .found (l ++ [n])) := by
  refine walk_rule (f := true) (P := fun k cur es p => ∀ l, p = .found l →
    t.look l = some .dir → t.walk false k cur (es ++ [.name n]) =
      .ok (if t.look (l ++ [n]) = none then .missing l n else .found (l ++ [n])))
    ?_ ?_ ?_ ?_ ?_ ?_ ?_ h l rfl hl
  · rintro k cur l ⟨⟩ hl
    rw [List.nil_append]
    cases he : t.look (cur ++ [n]) with
    | none => exact walk_missing hl he
    | some e =>
        cases e with
        | link target => exact walk_stop hl he
        | file c => exact walk_name hl he (by simp)
        | dir => exact walk_name hl he (by simp)
  · intro k cur e es p hcur he ih l hp hl
    rw [List.cons_append, walk_skip hcur he]
    exact ih l hp hl
  · intro k cur es p hcur ih l hp hl
    rw [List.cons_append, walk_parent hcur]
    exact ih l hp hl
  · rintro k cur m - - l ⟨⟩
  · rintro k cur m target ⟨⟩
  · intro k cur m target es p _ hcur hm ih l hp hl
    rw [List.cons_append, walk_link (by simp) hcur hm, ← List.append_assoc]
    exact ih l hp hl
  · intro k cur m e es p hcur hm he ih l hp hl
    rw [List.cons_append, walk_name hcur hm he]
    exact ih l hp hl

/-- A name that goes on after another one is followed from where that one leads to, with
the links that are left. -/
theorem walk_append (h : t.walk true links cur es = .ok (.found l)) :
    ∃ k ≤ links, ∀ f es', es' ≠ [] →
      t.walk f links cur (es ++ es') = t.walk f k l es' := by
  refine walk_rule (f := true) (P := fun j cur es p => ∀ l, p = .found l → ∃ k ≤ j,
    ∀ f es', es' ≠ [] → t.walk f j cur (es ++ es') = t.walk f k l es') ?_ ?_ ?_ ?_ ?_ ?_ ?_ h l rfl
  · rintro j cur l ⟨⟩
    exact ⟨j, le_rfl, fun f es' _ => by rw [List.nil_append]⟩
  · intro j cur e es p hcur he ih l hp
    obtain ⟨k, hk, hwalk⟩ := ih l hp
    exact ⟨k, hk, fun f es' hes => by rw [List.cons_append, walk_skip hcur he, hwalk f es' hes]⟩
  · intro j cur es p hcur ih l hp
    obtain ⟨k, hk, hwalk⟩ := ih l hp
    exact ⟨k, hk, fun f es' hes => by rw [List.cons_append, walk_parent hcur, hwalk f es' hes]⟩
  · rintro j cur m - - l ⟨⟩
  · rintro j cur m target ⟨⟩
  · intro j cur m target es p _ hcur hm ih l hp
    obtain ⟨k, hk, hwalk⟩ := ih l hp
    refine ⟨k, Nat.le_succ_of_le hk, fun f es' hes => ?_⟩
    rw [List.cons_append, walk_link (by simp [hes]) hcur hm, ← List.append_assoc, hwalk f es' hes]
  · intro j cur m e es p hcur hm he ih l hp
    obtain ⟨k, hk, hwalk⟩ := ih l hp
    exact ⟨k, hk, fun f es' hes => by rw [List.cons_append, walk_name hcur hm he, hwalk f es' hes]⟩

/-- A name that ends in the name of an entry does not lead to the root, if a link at its end
is not followed. -/
theorem walk_ne_root (h : t.walk false links cur es = .ok p)
    (hes : es.getLast? = some (.name n)) : p.loc ≠ [] := by
  refine (walk_rule (f := false) (P := fun _ cur es p => (es = [] → p = .found cur) ∧
    (es.getLast? = some (.name n) → p.loc ≠ [])) ?_ ?_ ?_ ?_ ?_ ?_ ?_ h).2 hes
  · exact fun _ _ => ⟨fun _ => rfl, by simp⟩
  · rintro _ cur e es p - he ⟨-, ih⟩
    refine ⟨by simp, fun hlast => ih ?_⟩
    rw [List.getLast?_cons] at hlast
    cases hes : es.getLast? with
    | none =>
        rw [hes] at hlast
        rcases he with rfl | rfl
        · cases hlast
        · cases hlast
    | some e' => rwa [hes] at hlast
  · rintro _ cur es p - ⟨-, ih⟩
    refine ⟨by simp, fun hlast => ih ?_⟩
    rw [List.getLast?_cons] at hlast
    cases hes : es.getLast? with
    | none =>
        rw [hes] at hlast
        cases hlast
    | some e' => rwa [hes] at hlast
  · exact fun _ _ _ _ _ => ⟨by simp, by simp [Place.loc]⟩
  · exact fun _ _ _ _ _ _ _ => ⟨by simp, by simp [Place.loc]⟩
  · rintro _ cur m target es p hes - - ⟨-, ih⟩
    refine ⟨by simp, fun hlast => ih ?_⟩
    have hne : es ≠ [] := fun heq => hes ⟨heq, rfl⟩
    rw [List.getLast?_append_of_ne_nil _ hne]
    rwa [List.getLast?_cons_of_ne_nil hne] at hlast
  · rintro _ cur m e es p - - - ⟨hnil, ih⟩
    refine ⟨by simp, fun hlast => ?_⟩
    rcases eq_or_ne es [] with rfl | hne
    · rw [hnil rfl]
      simp [Place.loc]
    · refine ih ?_
      rwa [List.getLast?_cons_of_ne_nil hne] at hlast

/-- What a path starts with that has only names from some place on: another part, or a name. -/
theorem cons_eq_append_names {e : PathElem N} {rest es : List (PathElem N)} {ns : List N}
    (h : e :: rest = es ++ ns.map .name) :
    (∃ es', es = e :: es' ∧ rest = es' ++ ns.map .name) ∨
      es = [] ∧ ∃ m ns', ns = m :: ns' ∧ e = .name m ∧ rest = ns'.map .name := by
  cases es with
  | nil =>
      cases ns with
      | nil => cases h
      | cons m ns =>
          obtain ⟨rfl, hrest⟩ := List.cons.inj h
          exact .inr ⟨rfl, m, ns, rfl, rfl, hrest⟩
  | cons e' es =>
      obtain ⟨rfl, hrest⟩ := List.cons.inj h
      exact .inl ⟨es, rfl, hrest⟩

/-- If no node is more than `d` levels deep, a name that leads to a node ends in at most so
many names of entries: each one goes a level down, or through a link. -/
theorem walk_names_length {f : Bool} {d : ℕ} (hd : ∀ l, t.look l ≠ none → l.length ≤ d)
    {ns : List N} (h : t.walk f links cur (es ++ ns.map .name) = .ok (.found l)) :
    ns.length ≤ links * (d + 1) + d := by
  have hdeep : ∀ {cur : List N} {m : N} {e : Entry N B}, t.look (cur ++ [m]) = some e →
      cur.length + 1 ≤ d := by
    intro cur m e hm
    simpa using hd (cur ++ [m]) (by simp [hm])
  -- names that come first start at the depth of the directory
  have hall := walk_rule (f := f) (P := fun k cur all p => ∀ l es ns, p = .found l →
    all = es ++ ns.map .name →
      ns.length ≤ k * (d + 1) + if es = [] then d - cur.length else d)
    ?_ ?_ ?_ ?_ ?_ ?_ ?_ h l es ns rfl rfl
  · split_ifs at hall with hes
    · omega
    · exact hall
  · rintro k cur l es ns - hall
    have hns : ns = [] := by simpa using (List.append_eq_nil_iff.mp hall.symm).2
    simp [hns]
  · intro k cur e rest p _ he ih l es ns hp hall
    rcases cons_eq_append_names hall with ⟨es, rfl, hrest⟩ | ⟨-, m, ns, -, rfl, -⟩
    · have hle := ih l es ns hp hrest
      rw [if_neg (by simp)]
      split_ifs at hle <;> omega
    · rcases he with he | he <;> cases he
  · intro k cur rest p _ ih l es ns hp hall
    rcases cons_eq_append_names hall with ⟨es, rfl, hrest⟩ | ⟨-, m, ns, -, hname, -⟩
    · have hle := ih l es ns hp hrest
      rw [if_neg (by simp)]
      split_ifs at hle <;> omega
    · cases hname
  · rintro k cur m - - l es ns ⟨⟩
  · intro k cur m target _ _ hm l es ns _ hall
    have hle := hdeep hm
    rcases cons_eq_append_names hall with ⟨es, rfl, hrest⟩ | ⟨rfl, m, ns, rfl, -, hrest⟩
    · have hns := List.append_eq_nil_iff.mp hrest.symm
      simp [List.map_eq_nil_iff.mp hns.2]
    · rw [List.map_eq_nil_iff.mp hrest.symm, if_pos rfl, List.length_singleton]
      omega
  · intro k cur m target rest p _ _ _ ih l es ns hp hall
    have hlink : (k + 1) * (d + 1) = k * (d + 1) + d + 1 := by ring
    rcases cons_eq_append_names hall with ⟨es, rfl, hrest⟩ | ⟨rfl, m, ns, rfl, -, hrest⟩
    · have hle := ih l (target.elements ++ es) ns hp (by rw [hrest, List.append_assoc])
      rw [if_neg (by simp), hlink]
      split_ifs at hle <;> omega
    · have hle := ih l target.elements ns hp (by rw [hrest])
      rw [if_pos rfl, List.length_cons, hlink]
      split_ifs at hle <;> omega
  · intro k cur m e rest p _ hm _ ih l es ns hp hall
    have hle := hdeep hm
    rcases cons_eq_append_names hall with ⟨es, rfl, hrest⟩ | ⟨rfl, m, ns, rfl, -, hrest⟩
    · have hle' := ih l es ns hp hrest
      rw [if_neg (by simp)]
      split_ifs at hle' <;> omega
    · have hle' := ih l [] ns hp (by rw [hrest, List.nil_append])
      rw [if_pos rfl, List.length_append, List.length_singleton] at hle'
      rw [if_pos rfl, List.length_cons]
      omega

/-- Nothing comes after a name that is missing. -/
theorem walk_missing_append {f : Bool} {es' : List (PathElem N)}
    (h : t.walk false links cur es = .ok (.missing l n)) (hes' : es' ≠ []) :
    t.walk f links cur (es ++ es') = .error .noEntry := by
  refine walk_rule (f := false) (P := fun j cur es p => ∀ l n, p = .missing l n →
    t.walk f j cur (es ++ es') = .error .noEntry) ?_ ?_ ?_ ?_ ?_ ?_ ?_ h l n rfl
  · rintro j cur l n ⟨⟩
  · intro j cur e es p hcur he ih l n hp
    rw [List.cons_append, walk_skip hcur he]
    exact ih l n hp
  · intro j cur es p hcur ih l n hp
    rw [List.cons_append, walk_parent hcur]
    exact ih l n hp
  · intro j cur m hcur hm _ _ _
    simp [walk, walkElems, hcur, hm, hes']
  · rintro j cur m target - - - l n ⟨⟩
  · intro j cur m target es p _ hcur hm ih l n hp
    rw [List.cons_append, walk_link (by simp [hes']) hcur hm, ← List.append_assoc]
    exact ih l n hp
  · intro j cur m e es p hcur hm he ih l n hp
    rw [List.cons_append, walk_name hcur hm he]
    exact ih l n hp

/-- What a name goes on from is a directory. -/
theorem walk_append_inv {f : Bool} {es' : List (PathElem N)}
    (h : t.walk f links cur (es ++ es') = .ok p) (hes' : es' ≠ []) :
    ∃ l, t.walk true links cur es = .ok (.found l) ∧ t.look l = some .dir := by
  have hstart : ∀ {k : ℕ} {cur : List N}, t.look cur = some .dir →
      ∃ l, t.walk true k cur [] = .ok (.found l) ∧ t.look l = some .dir :=
    fun hcur => ⟨_, walk_nil, hcur⟩
  refine walk_rule (f := f) (P := fun k cur all _ => ∀ es, all = es ++ es' →
    ∃ l, t.walk true k cur es = .ok (.found l) ∧ t.look l = some .dir)
    ?_ ?_ ?_ ?_ ?_ ?_ ?_ h es rfl
  · intro k cur es hall
    exact absurd (List.append_eq_nil_iff.mp hall.symm).2 hes'
  · intro k cur e rest p hcur he ih es hall
    cases es with
    | nil => exact hstart hcur
    | cons e' es =>
        obtain ⟨rfl, hrest⟩ := List.cons.inj hall
        rw [walk_skip hcur he]
        exact ih es hrest
  · intro k cur rest p hcur ih es hall
    cases es with
    | nil => exact hstart hcur
    | cons e' es =>
        obtain ⟨rfl, hrest⟩ := List.cons.inj hall
        rw [walk_parent hcur]
        exact ih es hrest
  · intro k cur m hcur _ es hall
    cases es with
    | nil => exact hstart hcur
    | cons e' es => exact absurd (List.append_eq_nil_iff.mp (List.cons.inj hall).2.symm).2 hes'
  · intro k cur m target _ hcur _ es hall
    cases es with
    | nil => exact hstart hcur
    | cons e' es => exact absurd (List.append_eq_nil_iff.mp (List.cons.inj hall).2.symm).2 hes'
  · intro k cur m target rest p _ hcur hm ih es hall
    cases es with
    | nil => exact hstart hcur
    | cons e' es =>
        obtain ⟨rfl, hrest⟩ := List.cons.inj hall
        rw [walk_link (by simp) hcur hm]
        exact ih _ (by rw [hrest]; exact (List.append_assoc ..).symm)
  · intro k cur m e rest p hcur hm he ih es hall
    cases es with
    | nil => exact hstart hcur
    | cons e' es =>
        obtain ⟨rfl, hrest⟩ := List.cons.inj hall
        rw [walk_name hcur hm he]
        exact ih es hrest

/-- If two trees differ only in a location that is a file or missing in both, a name leads to
the same location in both. -/
theorem walk_swap {f : Bool} {k : List N} (hsame : SameOn (· ≠ k) t t')
    (hk : ∀ e, t.look k = some e → ∃ c, e = .file c)
    (hk' : ∀ e, t'.look k = some e → ∃ c, e = .file c)
    (h : t.walk f links cur es = .ok p) (hcur : t.look cur = some .dir) :
    ∃ p', t'.walk f links cur es = .ok p' ∧ p'.loc = p.loc := by
  have hdir : ∀ {l}, t.look l = some .dir → l ≠ k := by
    rintro l hl rfl
    obtain ⟨c, hc⟩ := hk _ hl
    cases hc
  have hlink : ∀ {l target}, t.look l = some (.link target) → l ≠ k := by
    rintro l target hl rfl
    obtain ⟨c, hc⟩ := hk _ hl
    cases hc
  -- the name ends at `k` if it comes there
  have hlast : ∀ {i cur m}, t.look cur = some .dir → cur ++ [m] = k →
      ∃ p', t'.walk f i cur [.name m] = .ok p' ∧ p'.loc = cur ++ [m] := by
    intro i cur m hcur hm
    have hcur' : t'.look cur = some .dir := (hsame cur (hdir hcur)).trans hcur
    cases he : t'.look (cur ++ [m]) with
    | none => exact ⟨_, walk_missing hcur' he, rfl⟩
    | some e =>
        obtain ⟨c, rfl⟩ := hk' e (hm ▸ he)
        exact ⟨_, walk_name hcur' he (by simp), rfl⟩
  refine (walk_rule (f := f) (P := fun i cur es p => (es = [] → p = .found cur) ∧
    (cur = k → es = []) ∧ (cur ≠ k → ∃ p', t'.walk f i cur es = .ok p' ∧ p'.loc = p.loc))
    ?_ ?_ ?_ ?_ ?_ ?_ ?_ h).2.2 (hdir hcur)
  · exact fun i cur => ⟨fun _ => rfl, fun _ => rfl, fun _ => ⟨_, rfl, rfl⟩⟩
  · rintro i cur e es p hcur he ⟨-, -, ih⟩
    refine ⟨by simp, fun heq => absurd heq (hdir hcur), fun hne => ?_⟩
    rw [walk_skip ((hsame cur hne).trans hcur) he]
    exact ih hne
  · rintro i cur es p hcur ⟨-, -, ih⟩
    refine ⟨by simp, fun heq => absurd heq (hdir hcur), fun hne => ?_⟩
    rw [walk_parent ((hsame cur hne).trans hcur)]
    exact ih (hdir (look_dropLast hcur))
  · intro i cur m hcur hm
    refine ⟨by simp, fun heq => absurd heq (hdir hcur), fun hne => ?_⟩
    by_cases heq : cur ++ [m] = k
    · exact hlast hcur heq
    · exact ⟨_, walk_missing ((hsame cur hne).trans hcur) ((hsame _ heq).trans hm), rfl⟩
  · rintro i cur m target rfl hcur hm
    refine ⟨by simp, fun heq => absurd heq (hdir hcur), fun hne => ?_⟩
    exact ⟨_, walk_stop ((hsame cur hne).trans hcur) ((hsame _ (hlink hm)).trans hm), rfl⟩
  · rintro i cur m target es p hes hcur hm ⟨-, -, ih⟩
    refine ⟨by simp, fun heq => absurd heq (hdir hcur), fun hne => ?_⟩
    rw [walk_link hes ((hsame cur hne).trans hcur) ((hsame _ (hlink hm)).trans hm)]
    refine ih ?_
    split
    · exact hdir t.root
    · exact hne
  · rintro i cur m e es p hcur hm he ⟨hnil, hstop, ih⟩
    refine ⟨by simp, fun heq => absurd heq (hdir hcur), fun hne => ?_⟩
    by_cases heq : cur ++ [m] = k
    · obtain rfl := hstop heq
      obtain rfl := hnil rfl
      exact hlast hcur heq
    · rw [walk_name ((hsame cur hne).trans hcur) ((hsame _ heq).trans hm) he]
      exact ih heq

/-- No link is followed if none is left. -/
theorem walk_zero {target : FileName N} (hcur : t.look cur = some .dir)
    (hn : t.look (cur ++ [n]) = some (.link target)) :
    t.walk true 0 cur [.name n] = .error .loop := by
  simp [walk, walkElems, walkAfter, hcur, hn]

end FileTree
