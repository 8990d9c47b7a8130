import RsIo.FileTree

/-!
# A Tree While It Is Copied

The copy of what is at one place of a tree to another place, node by node: each directory
before its entries, and these in the order of its list. Here are the order, and the nodes
of the tree at each point of the copy.

## Main results

* `FileTree.lookCopied_child`: the copy of a directory goes on as the copy of an entry.
-/

universe u v

namespace FileTree

variable {N : Type u} {B : Type v} [DecidableEq N]

/-- Below `s`, the node at `i` comes before the one at `j`. -/
def Earlier (t : FileTree N B) : List N → List N → List N → Prop
  | _, _, [] => False
  | _, [], _ :: _ => True
  | s, m :: i, m' :: j =>
      (t.names s).idxOf m < (t.names s).idxOf m' ∨ m = m' ∧ Earlier t (s ++ [m]) i j

@[simp] theorem not_earlier_nil (t : FileTree N B) (s i : List N) : ¬ t.Earlier s i [] := by
  cases i <;> exact not_false

instance decidableEarlier (t : FileTree N B) : ∀ s i j, Decidable (t.Earlier s i j)
  | s, i, [] => .isFalse (not_earlier_nil t s i)
  | _, [], _ :: _ => .isTrue trivial
  | s, m :: i, m' :: j =>
      have : Decidable (t.Earlier (s ++ [m]) i j) := decidableEarlier t (s ++ [m]) i j
      inferInstanceAs (Decidable ((t.names s).idxOf m < (t.names s).idxOf m' ∨
        m = m' ∧ t.Earlier (s ++ [m]) i j))

/-- The nodes of the tree while what is at `s` is copied to `d`, each node as `f` makes it,
when the one at `j` below `s` is next. -/
def lookCopied (f : Entry N B → Entry N B) (t : FileTree N B) (s d j k : List N) :
    Option (Entry N B) :=
  if d <+: k ∧ t.Earlier s (k.drop d.length) j then
    (t.look (s ++ k.drop d.length)).map f
  else
    t.look k

variable {f : Entry N B → Entry N B} {t t' : FileTree N B} {s d i j k done rest : List N} {m m' : N}

@[simp] theorem earlier_nil_cons : t.Earlier s [] (m :: j) := trivial

theorem earlier_cons_cons : t.Earlier s (m :: i) (m' :: j) ↔
    (t.names s).idxOf m < (t.names s).idxOf m' ∨ m = m' ∧ t.Earlier (s ++ [m]) i j :=
  Iff.rfl

/-- The order below a node depends on the lists there. -/
theorem earlier_congr (h : ∀ k, t'.names (s ++ k) = t.names (s ++ k)) :
    t'.Earlier s i j ↔ t.Earlier s i j := by
  induction j generalizing s i with
  | nil => simp
  | cons m' j ih =>
      cases i with
      | nil => simp
      | cons m i =>
          have hs : t'.names s = t.names s := by simpa using h []
          have hbelow := ih (s := s ++ [m]) (i := i) fun k => by
            rw [List.append_assoc]
            exact h _
          rw [earlier_cons_cons, earlier_cons_cons, hs, hbelow]

/-- What is before an entry in the list of its directory. -/
theorem idxOf_lt_iff (hnames : t.names s = done ++ m :: rest) :
    (t.names s).idxOf m' < (t.names s).idxOf m ↔ m' ∈ done := by
  have hnot : m ∉ done := t.next_not_done List.prefix_rfl hnames
  rw [hnames, List.idxOf_append_of_notMem hnot, List.idxOf_cons_self, Nat.add_zero]
  by_cases hm' : m' ∈ done
  · rw [List.idxOf_append_of_mem hm']
    simp [hm', List.idxOf_lt_length_iff]
  · rw [List.idxOf_append_of_notMem hm']
    simp [hm']

/-! ### The nodes -/

/-- Before the copy starts. -/
@[simp] theorem lookCopied_nil : lookCopied f t s d [] k = t.look k := by
  simp [lookCopied]

/-- Apart from the copy. -/
theorem lookCopied_of_not_below (h : ¬ d <+: k) : lookCopied f t s d j k = t.look k := by
  simp [lookCopied, h]

/-- In what is copied by now. -/
theorem lookCopied_of_earlier (h : t.Earlier s i j) :
    lookCopied f t s d j (d ++ i) = (t.look (s ++ i)).map f := by
  simp [lookCopied, h]

/-- In what is not copied yet. -/
theorem lookCopied_of_not_earlier (h : ¬ t.Earlier s i j) :
    lookCopied f t s d j (d ++ i) = t.look (d ++ i) := by
  simp [lookCopied, h]

/-- The copy only adds to the tree, if there was nothing at its place. -/
theorem lookCopied_of_look (hd : t.look d = none) {e : Entry N B} (hk : t.look k = some e) :
    lookCopied f t s d j k = some e := by
  rw [lookCopied_of_not_below, hk]
  intro hbelow
  rcases eq_or_ne d k with rfl | hne
  · rw [hd] at hk
    cases hk
  · have hdir := t.look_isPrefix hbelow hne (by simp [hk])
    rw [hd] at hdir
    cases hdir

/-- **The copy of a directory goes on as the copy of an entry.** In `t'` the directory is
there, with the entries in `done`, and the entry `m` is next. -/
theorem lookCopied_child (hnames : t.names s = done ++ m :: rest)
    (hdir : t'.look d = (t.look s).map f)
    (hdone : ∀ m' ∈ done, ∀ k, t'.look (d ++ m' :: k) = (t.look (s ++ m' :: k)).map f)
    (hfresh : ∀ m', m' ∉ done → ∀ k, t'.look (d ++ m' :: k) = t.look (d ++ m' :: k))
    (houtside : SameOn (fun k => ¬ d <+: k) t t')
    (hsame : ∀ k, t'.look (s ++ m :: k) = t.look (s ++ m :: k))
    (hlists : ∀ k, t'.names (s ++ m :: k) = t.names (s ++ m :: k)) :
    lookCopied f t' (s ++ [m]) (d ++ [m]) j k = lookCopied f t s d (m :: j) k := by
  have hnot : m ∉ done := t.next_not_done List.prefix_rfl hnames
  by_cases hbelow : d <+: k
  · obtain ⟨r, rfl⟩ := hbelow
    cases r with
    | nil =>
        rw [lookCopied_of_not_below fun h => by simpa using h.length_le,
          lookCopied_of_earlier earlier_nil_cons, List.append_nil, List.append_nil, hdir]
    | cons m' r =>
        have hearlier : t.Earlier s (m' :: r) (m :: j) ↔
            m' ∈ done ∨ m' = m ∧ t.Earlier (s ++ [m']) r j := by
          rw [earlier_cons_cons, idxOf_lt_iff hnames]
        by_cases hm' : m' = m
        · subst hm'
          have hrest : t'.Earlier (s ++ [m']) r j ↔ t.Earlier s (m' :: r) (m' :: j) := by
            rw [hearlier, earlier_congr (t := t)]
            · simp [hnot]
            · intro k
              rw [List.append_assoc]
              exact hlists k
          have hsplit : ∀ l : List N, l ++ m' :: r = l ++ [m'] ++ r := by simp
          by_cases hr : t.Earlier s (m' :: r) (m' :: j)
          · rw [lookCopied_of_earlier hr, hsplit d, lookCopied_of_earlier (hrest.mpr hr),
              ← hsplit, hsame]
          · rw [lookCopied_of_not_earlier hr, hsplit d,
              lookCopied_of_not_earlier (hrest.not.mpr hr), ← hsplit, hfresh m' hnot]
        · rw [lookCopied_of_not_below]
          · by_cases hm : m' ∈ done
            · rw [lookCopied_of_earlier (hearlier.mpr (.inl hm)), hdone m' hm]
            · rw [lookCopied_of_not_earlier (by simp [hearlier, hm, hm']), hfresh m' hm]
          · intro h
            obtain ⟨r', hr'⟩ := (List.prefix_append_right_inj d).mp h
            exact hm' (List.cons.inj hr').1.symm
  · rw [lookCopied_of_not_below hbelow, lookCopied_of_not_below, houtside k hbelow]
    exact fun h => hbelow ((List.prefix_append d [m]).trans h)

end FileTree
