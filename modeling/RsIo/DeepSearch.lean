import RsIo.FileFrame
import RsIo.TreeOrder

/-!
# Deep Search

The iterators `Path::directory_iterator` and `Path::search_iterator`, on the Unix branch,
over a file system that does not change. A directory range is the list of the paths that
are still to come, and the search iterator keeps a stack of them. The loops of the
iterator, and the loop of the caller from `begin` to `end`, take a bound on the number of
their turns, and do not return beyond it.

Whether a string is valid UTF-8 is decided by a function of another library.

## Main results

* `SearchIterator.Sound.turn`, `SearchIterator.remaining_turn`: what one turn of the loop
  of `operator++` does to the paths that are still to come.
* `SearchIterator.drain_eq`: the caller's loop ends, and goes through those paths.
* `deepSearch_eq`: the search is the order of the tree, if the descent to the first path
  stays in it.
-/

namespace RsIo

/-- The text of an element of a name. -/
def elemText : PathElem Bytes → Bytes
  | .empty => []
  | .self => [dot]
  | .parent => [dot, dot]
  | .name n => n

namespace FilePath

/-- `Path::name`. -/
def text (p : FilePath) : Bytes :=
  (if p.isAbsolute then [slash] else []) ++
    List.intercalate [slash] (p.elements.map elemText)

/-- `Path::is_hidden`. -/
def isHidden (p : FilePath) : Bool :=
  match p.isAbsolute, p.elements with
  | false, [] => false
  | false, [.self] => false
  | false, [.parent] => false
  | _, es => ((es.getLast?.map elemText).getD []).head? == some dot

theorem isDirectory_iff {w : World} {p : FilePath} {flags : PathFlags} :
    p.isDirectory w flags = true ↔ ∃ l, w.getStat p flags = some (l, .dir) := by
  unfold isDirectory
  constructor
  · intro h
    split at h
    next l hl => exact ⟨l, hl⟩
    next => cases h
  · rintro ⟨l, hl⟩
    simp [hl]

/-- What is a directory if links are not followed is one if they are. -/
theorem isDirectory_of_flags {w : World} {p : FilePath} {flags : PathFlags}
    (h : p.isDirectory w flags = true) : p.isDirectory w {} = true := by
  cases hflag : flags.noFollow with
  | false => simpa [isDirectory, World.getStat, hflag] using h
  | true =>
    obtain ⟨l, hl⟩ := isDirectory_iff.mp h
    rw [World.getStat_eq_some, hflag] at hl
    have hfollow := World.resolve_follow hl.1 (by simp [hl.2])
    exact isDirectory_iff.mpr ⟨l, World.getStat_eq_some.mpr ⟨hfollow, hl.2⟩⟩

variable (isValidUtf : Bytes → Bool) (w : World) (p : FilePath) (flags : PathFlags)

/-- What `readdir` lists, if the directory can be opened: the directory itself, its parent
and its entries. -/
def readdir : Option (List (PathElem Bytes)) :=
  let dir : FilePath := if p.isAbsolute = false ∧ p.elements = [] then ⟨false, [.self]⟩ else p
  match w.getStat dir {} with
  | some (l, .dir) => some (.self :: .parent :: (w.tree.names l).map .name)
  | _ => none

/-- Whether a `directory_iterator` stops at an entry with the given name. -/
def isListed (e : PathElem Bytes) : Bool :=
  e ≠ .self && e ≠ .parent && (!flags.unicode || isValidUtf (elemText e)) &&
    (!flags.noHidden || !(p.join ⟨false, [e]⟩).isHidden)

/-- `Path::directory`: the paths a `directory_iterator` goes through. -/
def directoryRange : List FilePath :=
  if flags.unicode && !isValidUtf p.text then
    []
  else
    match p.readdir w with
    | some entries => (entries.filter (p.isListed isValidUtf flags)).map fun e =>
          p.join ⟨false, [e]⟩
    | none => []

end FilePath

/-- A `search_iterator`. The ranges on its stack, the innermost first, begin with the paths
it is at. The stack is empty at the end. -/
structure SearchIterator where
  stack : List (List FilePath)
  flagset : PathFlags
  revisit : Bool

namespace SearchIterator

section Source

variable (isValidUtf : Bytes → Bool) (w : World)

/-- `operator*`. -/
def current (s : SearchIterator) : Option FilePath :=
  s.stack.head?.bind List.head?

/-- The loop of the constructor: goes to the first path of the directory it is at. -/
def dive : ℕ → SearchIterator → Option SearchIterator
  | 0, _ => none
  | turns + 1, s =>
      match s.current with
      | none => some s
      | some p =>
          match p.directoryRange isValidUtf w s.flagset with
          | [] => some s
          | range => dive turns { s with stack := range :: s.stack }

/-- The constructor. -/
def new (turns : ℕ) (dir : FilePath) (flags : PathFlags) : Option SearchIterator :=
  if !dir.isDirectory w flags then
    some ⟨[], flags, false⟩
  else
    match dir.directoryRange isValidUtf w flags with
    | [] => some ⟨[], flags, false⟩
    | range =>
        let s : SearchIterator := ⟨[range], flags, false⟩
        (if flags.bottomUp then s.dive isValidUtf w turns else some s).map fun s =>
          { s with revisit := flags.bottomUp && s.current.any fun p => p.isDirectory w {} }

/-- One turn of the loop of `operator++`. -/
def turn (s : SearchIterator) : SearchIterator :=
  match s.stack with
  | (p :: rest) :: below =>
      if p.isDirectory w s.flagset && !s.revisit then
        match p.directoryRange isValidUtf w s.flagset with
        | [] => { s with revisit := true }
        | range => { s with stack := range :: s.stack, revisit := false }
      else
        match rest with
        | [] => { s with stack := below, revisit := true }
        | _ => { s with stack := rest :: below, revisit := false }
  | _ => s

/-- The condition of the loop of `operator++`. -/
def goesOn (s : SearchIterator) : Bool :=
  (s.current.any fun p => p.isDirectory w s.flagset) && s.revisit != s.flagset.bottomUp

/-- `operator++`. -/
def increment : ℕ → SearchIterator → Option SearchIterator
  | 0, _ => none
  | turns + 1, s =>
      let s := s.turn isValidUtf w
      if s.goesOn w then increment turns s else some s

/-- The paths a loop from an iterator to the end goes through. -/
def drain : ℕ → SearchIterator → Option (List FilePath)
  | 0, _ => none
  | turns + 1, s =>
      match s.current with
      | none => some []
      | some p => do
          let next ← s.increment isValidUtf w turns
          let rest ← drain turns next
          pure (p :: rest)

end Source

end SearchIterator

/-- The paths a loop over `deep_search()` goes through. -/
def deepSearch (isValidUtf : Bytes → Bool) (w : World) (turns : ℕ) (dir : FilePath)
    (flags : PathFlags) : Option (List FilePath) := do
  let first ← SearchIterator.new isValidUtf w turns dir flags
  first.drain isValidUtf w turns

/-! ### What is still to come -/

namespace SearchIterator

open TreeOrder

variable (isValidUtf : Bytes → Bool) (w : World) (flags : PathFlags)

/-- What a search finds in a path: it enters nothing but directories. -/
def kids (p : FilePath) : List FilePath :=
  if p.isDirectory w flags then p.directoryRange isValidUtf w flags else []

/-- The paths at and below a path, in the order of the search, down to the depth `d`. -/
def visits (d : ℕ) (p : FilePath) : List FilePath :=
  order (kids isValidUtf w flags) flags.bottomUp d p

/-- What is still to come of a range whose first path has been entered: a search in bottom
up order has not shown that path yet. -/
def leftBelow (d : ℕ) : List FilePath → List FilePath
  | [] => []
  | p :: rest =>
      (if flags.bottomUp then [p] else []) ++ rest.flatMap (visits isValidUtf w flags d)

/-- The paths that are still to come. -/
def remaining (d : ℕ) (s : SearchIterator) : List FilePath :=
  match s.stack with
  | [] => []
  | range :: below =>
      (if s.revisit then
        leftBelow isValidUtf w flags d range
      else
        range.flatMap (visits isValidUtf w flags d)) ++
      below.flatMap (leftBelow isValidUtf w flags d)

/-- A bound on the turns that are left: two for every path, one to enter it and one to go
past it. -/
def turnsLeft (d : ℕ) (s : SearchIterator) : ℕ :=
  let weigh : List FilePath → ℕ := fun range =>
    match range with
    | [] => 0
    | _ :: rest => 1 + 2 * (rest.flatMap (visits isValidUtf w flags d)).length
  match s.stack with
  | [] => 0
  | range :: below =>
      (if s.revisit then weigh range
        else 2 * (range.flatMap (visits isValidUtf w flags d)).length) +
      (below.map weigh).sum

/-- The ranges on the stack are of finite height and not empty. In top down order the paths
that were entered are directories. -/
structure Sound (d : ℕ) (s : SearchIterator) : Prop where
  flagset : s.flagset = flags
  nonempty : ∀ range ∈ s.stack, range ≠ []
  height : ∀ range ∈ s.stack, ∀ p ∈ range, Height (kids isValidUtf w flags) d p
  entered : flags.bottomUp = false → ∀ range ∈ s.stack.tail, ∀ p ∈ range.head?,
    p.isDirectory w flags = true
  revisited : flags.bottomUp = false → s.revisit = true → ∀ p ∈ s.current,
    p.isDirectory w flags = true

variable {isValidUtf w flags} {d : ℕ} {s : SearchIterator} {p : FilePath}
  {rest : List FilePath} {below : List (List FilePath)}

variable (isValidUtf) in
theorem kids_of_isDirectory (h : p.isDirectory w flags = true) :
    kids isValidUtf w flags p = p.directoryRange isValidUtf w flags :=
  if_pos h

theorem kids_of_not (h : p.isDirectory w flags = false) : kids isValidUtf w flags p = [] := by
  simp [kids, h]

theorem current_eq (h : s.stack = (p :: rest) :: below) : s.current = some p := by
  simp [current, h]

theorem goesOn_eq (hflags : s.flagset = flags) (h : s.stack = (p :: rest) :: below) :
    s.goesOn w = (p.isDirectory w flags && s.revisit != flags.bottomUp) := by
  simp [goesOn, current_eq h, hflags]

variable (isValidUtf w) in
/-- What one turn of the loop does: it enters a directory, finds that there is nothing in
it, goes to the next path of a range, or leaves a range behind. -/
theorem turn_cases (hflags : s.flagset = flags) (h : s.stack = (p :: rest) :: below) :
    (p.isDirectory w flags = true ∧ s.revisit = false ∧ kids isValidUtf w flags p ≠ [] ∧
        s.turn isValidUtf w = ⟨kids isValidUtf w flags p :: s.stack, flags, false⟩) ∨
      (p.isDirectory w flags = true ∧ s.revisit = false ∧ kids isValidUtf w flags p = [] ∧
        s.turn isValidUtf w = ⟨s.stack, flags, true⟩) ∨
      ((p.isDirectory w flags = false ∨ s.revisit = true) ∧ rest ≠ [] ∧
        s.turn isValidUtf w = ⟨rest :: below, flags, false⟩) ∨
      ((p.isDirectory w flags = false ∨ s.revisit = true) ∧ rest = [] ∧
        s.turn isValidUtf w = ⟨below, flags, true⟩) := by
  obtain ⟨stack, flagset, revisit⟩ := s
  obtain rfl : flagset = flags := hflags
  obtain rfl : stack = (p :: rest) :: below := h
  simp only [turn]
  split_ifs with henter
  · rw [Bool.and_eq_true, Bool.not_eq_true'] at henter
    have hkids := kids_of_isDirectory isValidUtf henter.1
    rw [← hkids]
    cases hrange : kids isValidUtf w flagset p with
    | nil => exact .inr (.inl ⟨henter.1, henter.2, rfl, rfl⟩)
    | cons q range => exact .inl ⟨henter.1, henter.2, by simp, rfl⟩
  · have hleave : p.isDirectory w flagset = false ∨ revisit = true := by
      cases hdir : p.isDirectory w flagset with
      | false => exact .inl rfl
      | true => exact .inr (by simpa [hdir] using henter)
    cases rest with
    | nil => exact .inr (.inr (.inr ⟨hleave, rfl, rfl⟩))
    | cons q rest => exact .inr (.inr (.inl ⟨hleave, by simp, rfl⟩))

/-- A turn keeps the iterator sound. -/
theorem Sound.turn (h : Sound isValidUtf w flags d s) :
    Sound isValidUtf w flags d (s.turn isValidUtf w) := by
  cases hstack : s.stack with
  | nil =>
    have hsame : s.turn isValidUtf w = s := by simp [SearchIterator.turn, hstack]
    rwa [hsame]
  | cons range below =>
    cases range with
    | nil => exact absurd rfl (h.nonempty [] (by simp [hstack]))
    | cons p rest =>
      have hp : ∀ q ∈ p :: rest, Height (kids isValidUtf w flags) d q :=
        h.height _ (by simp [hstack])
      have hbelow : ∀ range ∈ below, range ≠ [] ∧ ∀ q ∈ range,
          Height (kids isValidUtf w flags) d q := fun range hr =>
        ⟨h.nonempty _ (by simp [hstack, hr]), h.height _ (by simp [hstack, hr])⟩
      have hentered : flags.bottomUp = false → ∀ range ∈ below, ∀ q ∈ range.head?,
          q.isDirectory w flags = true := by
        simpa [hstack] using h.entered
      rcases turn_cases isValidUtf w h.flagset hstack with
        ⟨hdir, -, hne, hturn⟩ | ⟨hdir, -, -, hturn⟩ | ⟨-, hne, hturn⟩ | ⟨-, -, hturn⟩
      all_goals rw [hturn]
      · refine ⟨rfl, ?_, ?_, ?_, by simp⟩
        · rw [hstack]
          simp only [List.mem_cons]
          rintro range (rfl | rfl | hr)
          exacts [hne, by simp, (hbelow range hr).1]
        · rw [hstack]
          simp only [List.mem_cons]
          rintro range (rfl | rfl | hr)
          exacts [fun q hq => (hp p (by simp)).kid hq, hp, (hbelow range hr).2]
        · intro hpost range hr
          simp only [List.tail_cons, hstack, List.mem_cons] at hr
          rcases hr with rfl | hr
          · simpa using hdir
          · exact hentered hpost range hr
      · refine ⟨rfl, h.nonempty, h.height, h.entered, ?_⟩
        intro _ _ q hq
        obtain rfl : p = q := by simpa [current, hstack] using hq
        exact hdir
      · refine ⟨rfl, ?_, ?_, hentered, by simp⟩
        · simp only [List.mem_cons]
          rintro range (rfl | hr)
          exacts [hne, (hbelow range hr).1]
        · simp only [List.mem_cons]
          rintro range (rfl | hr)
          exacts [fun q hq => hp q (by simp [hq]), (hbelow range hr).2]
      · refine ⟨rfl, fun range hr => (hbelow range hr).1, fun range hr => (hbelow range hr).2,
          fun hpost range hr => hentered hpost range (List.mem_of_mem_tail hr), ?_⟩
        intro hpost _ q hq
        obtain ⟨range, hr, hq⟩ := Option.bind_eq_some_iff.mp hq
        exact hentered hpost range (List.mem_of_mem_head? hr) q hq

/-- A path that is entered stands next to what is found in it. -/
theorem visits_eq (h : Height (kids isValidUtf w flags) d p) :
    visits isValidUtf w flags d p = place flags.bottomUp p
      ((kids isValidUtf w flags p).flatMap (visits isValidUtf w flags d)) :=
  order_eq h

/-- A turn at a path that the loop does not stop at changes nothing about what is still to
come, and one at a path that has been shown leaves that path behind. -/
theorem remaining_turn (h : Sound isValidUtf w flags d s)
    (hstack : s.stack = (p :: rest) :: below) :
    remaining isValidUtf w flags d s =
      (if s.goesOn w then [] else [p]) ++
        remaining isValidUtf w flags d (s.turn isValidUtf w) := by
  have hvisits := visits_eq (h.height (p :: rest) (by simp [hstack]) p (by simp))
  have hgoes := goesOn_eq (w := w) h.flagset hstack
  have hleave : ∀ t : SearchIterator, (p.isDirectory w flags = false ∨ s.revisit = true) →
      remaining isValidUtf w flags d t = rest.flatMap (visits isValidUtf w flags d) ++
        below.flatMap (leftBelow isValidUtf w flags d) →
      remaining isValidUtf w flags d s =
        (if s.goesOn w then [] else [p]) ++ remaining isValidUtf w flags d t := by
    intro t hcase ht
    rw [ht, hgoes, remaining, hstack]
    cases hrevisit : s.revisit with
    | false =>
      have hdir : p.isDirectory w flags = false := by simpa [hrevisit] using hcase
      rw [kids_of_not hdir] at hvisits
      simp [hdir, hvisits]
    | true =>
      cases hpost : flags.bottomUp with
      | true => simp [leftBelow, hpost]
      | false =>
        have hdir := h.revisited hpost hrevisit p (by simp [current_eq hstack])
        simp [leftBelow, hpost, hdir]
  rcases turn_cases isValidUtf w h.flagset hstack with
    ⟨hdir, hrevisit, hne, hturn⟩ | ⟨hdir, hrevisit, hnil, hturn⟩ | ⟨hcase, hne, hturn⟩ |
    ⟨hcase, hnil, hturn⟩
  · rw [hturn, hgoes]
    cases hpost : flags.bottomUp <;>
      simp [remaining, hstack, hrevisit, hvisits, hpost, hdir, leftBelow, place]
  · rw [hnil] at hvisits
    rw [hturn, hgoes]
    cases hpost : flags.bottomUp <;>
      simp [remaining, hstack, hrevisit, hvisits, hpost, hdir, leftBelow]
  · exact hturn ▸ hleave _ hcase (by simp [remaining])
  · refine hturn ▸ hleave _ hcase ?_
    subst hnil
    cases below <;> simp [remaining]

/-- A turn is one of those that are left. -/
theorem turnsLeft_turn (h : Sound isValidUtf w flags d s)
    (hstack : s.stack = (p :: rest) :: below) :
    turnsLeft isValidUtf w flags d (s.turn isValidUtf w) <
      turnsLeft isValidUtf w flags d s := by
  have hvisits := visits_eq (h.height (p :: rest) (by simp [hstack]) p (by simp))
  have hlength := congrArg List.length hvisits
  rw [length_place] at hlength
  rcases turn_cases isValidUtf w h.flagset hstack with
    ⟨hdir, hrevisit, hne, hturn⟩ | ⟨hdir, hrevisit, hnil, hturn⟩ | ⟨hcase, hne, hturn⟩ |
    ⟨hcase, hnil, hturn⟩
  · rw [hturn]
    simp only [turnsLeft, hstack, hrevisit, List.flatMap_cons, List.length_append, List.map_cons,
      List.sum_cons, Bool.false_eq_true, if_false]
    omega
  · rw [hturn]
    simp only [turnsLeft, hstack, hrevisit, List.flatMap_cons, List.length_append,
      Bool.false_eq_true, if_false, if_true]
    omega
  · rw [hturn]
    cases hrevisit : s.revisit
    all_goals
      simp only [turnsLeft, hstack, hrevisit, List.flatMap_cons, List.length_append,
        Bool.false_eq_true, if_false, if_true]
      omega
  · rw [hturn]
    subst hnil
    cases hrevisit : s.revisit <;> cases below
    all_goals
      simp only [turnsLeft, hstack, hrevisit, List.flatMap_cons, List.length_append,
        List.map_cons, List.sum_cons, Bool.false_eq_true, if_false, if_true]
      omega

/-- A sound iterator that is not at the end is at a path. -/
theorem Sound.stack_eq (h : Sound isValidUtf w flags d s) (hne : s.stack ≠ []) :
    ∃ p rest below, s.stack = (p :: rest) :: below := by
  obtain ⟨range, below, hstack⟩ := List.exists_cons_of_ne_nil hne
  obtain ⟨p, rest, rfl⟩ := List.exists_cons_of_ne_nil (h.nonempty range (by simp [hstack]))
  exact ⟨p, rest, below, hstack⟩

/-- The loop of `operator++` ends. It leaves behind the path it was called at, which has
been shown. -/
theorem increment_spec (turns : ℕ) (h : Sound isValidUtf w flags d s)
    (hstack : s.stack = (p :: rest) :: below) (hturns : turnsLeft isValidUtf w flags d s ≤ turns) :
    ∃ s', s.increment isValidUtf w turns = some s' ∧ Sound isValidUtf w flags d s' ∧
      s'.goesOn w = false ∧
      turnsLeft isValidUtf w flags d s' < turnsLeft isValidUtf w flags d s ∧
      remaining isValidUtf w flags d s =
        (if s.goesOn w then [] else [p]) ++ remaining isValidUtf w flags d s' := by
  induction turns generalizing s p rest below with
  | zero =>
    have hless := turnsLeft_turn h hstack
    omega
  | succ turns ih =>
    have hless := turnsLeft_turn h hstack
    have hrem := remaining_turn h hstack
    have hturn := h.turn
    rw [increment]
    cases hgoes : (s.turn isValidUtf w).goesOn w with
    | false => exact ⟨s.turn isValidUtf w, by simp, hturn, hgoes, hless, hrem⟩
    | true =>
      have hne : (s.turn isValidUtf w).stack ≠ [] := by
        intro hnil
        simp [goesOn, current, hnil] at hgoes
      obtain ⟨p', rest', below', hstack'⟩ := hturn.stack_eq hne
      obtain ⟨s', hs', hsound, hstop, hless', hrem'⟩ := ih hturn hstack' (by omega)
      rw [hgoes, if_pos rfl, List.nil_append] at hrem'
      refine ⟨s', by simpa [hgoes] using hs', hsound, hstop, by omega, ?_⟩
      rw [hrem, hrem']

/-- The caller's loop ends, and goes through what was still to come. -/
theorem drain_eq (turns : ℕ) (h : Sound isValidUtf w flags d s) (hstop : s.goesOn w = false)
    (hturns : turnsLeft isValidUtf w flags d s < turns) :
    s.drain isValidUtf w turns = some (remaining isValidUtf w flags d s) := by
  induction turns generalizing s with
  | zero => omega
  | succ turns ih =>
    rw [drain]
    rcases eq_or_ne s.stack [] with hnil | hne
    · simp [current, remaining, hnil]
    · obtain ⟨p, rest, below, hstack⟩ := h.stack_eq hne
      obtain ⟨s', hs', hsound, hstop', hless, hrem⟩ :=
        increment_spec turns h hstack (by omega)
      rw [hstop] at hrem
      simp [current_eq hstack, hs', ih hsound hstop' (by omega), hrem]

/-! ### The first path -/

variable (isValidUtf w flags) in
/-- `q` is the first path in the range of `p`. -/
def First (p q : FilePath) : Prop :=
  (p.directoryRange isValidUtf w flags).head? = some q

/-- The rule for the loop of the constructor, which ends if there is a last first path. -/
theorem dive_rule {I : SearchIterator → Prop}
    (hstep : ∀ s p rest below, I s → s.stack = (p :: rest) :: below →
      p.directoryRange isValidUtf w flags ≠ [] →
      I { s with stack := p.directoryRange isValidUtf w flags :: s.stack })
    (hflags : ∀ s, I s → s.flagset = flags)
    (hacc : Acc (fun q p => First isValidUtf w flags p q) p) (hI : I s)
    (hstack : s.stack = (p :: rest) :: below) :
    ∃ turns t q, (∀ n ≥ turns, s.dive isValidUtf w n = some t) ∧ I t ∧ t.current = some q ∧
      q.directoryRange isValidUtf w flags = [] := by
  induction hacc generalizing s rest below with
  | intro p _ ih =>
    have hcurrent := current_eq hstack
    cases hrange : p.directoryRange isValidUtf w flags with
    | nil =>
      refine ⟨1, s, p, fun n hn => ?_, hI, hcurrent, hrange⟩
      obtain ⟨n, rfl⟩ := Nat.exists_eq_add_of_le' hn
      simp [dive, hcurrent, hflags s hI, hrange]
    | cons q range =>
      have hI' := hstep s p rest below hI hstack (by simp [hrange])
      rw [hrange] at hI'
      obtain ⟨turns, t, b, hdive, hbt⟩ := ih q (by simp [First, hrange]) hI' rfl
      refine ⟨turns + 1, t, b, fun n hn => ?_, hbt⟩
      obtain ⟨k, rfl⟩ := Nat.exists_eq_add_of_le' hn
      rw [← Nat.add_assoc, dive]
      simpa [hcurrent, hflags s hI, hrange] using hdive (k + turns) (by omega)

/-- Once the constructor has come to a path in which there is nothing, it notes whether that
is a directory, which makes no difference to what is still to come. -/
theorem revisit_spec (h : Sound isValidUtf w flags d s) (hpost : flags.bottomUp = true)
    (hstack : s.stack = (p :: rest) :: below) (hrevisit : s.revisit = false)
    (hnil : p.directoryRange isValidUtf w flags = []) {s' : SearchIterator}
    (hs' : s' = { s with revisit := p.isDirectory w {} }) :
    Sound isValidUtf w flags d s' ∧ s'.goesOn w = false ∧
      remaining isValidUtf w flags d s' = remaining isValidUtf w flags d s ∧
      p ∈ remaining isValidUtf w flags d s := by
  subst hs'
  have hkids : kids isValidUtf w flags p = [] := by
    unfold kids
    split_ifs
    · exact hnil
    · rfl
  have hvisits := visits_eq (h.height (p :: rest) (by simp [hstack]) p (by simp))
  rw [hkids, List.flatMap_nil, place_nil] at hvisits
  refine ⟨⟨h.flagset, h.nonempty, h.height, by simp [hpost], by simp [hpost]⟩, ?_, ?_, ?_⟩
  · rw [goesOn_eq (s := { s with revisit := p.isDirectory w {} }) h.flagset hstack]
    cases hdir : p.isDirectory w flags with
    | false => rfl
    | true => simp [hpost, FilePath.isDirectory_of_flags hdir]
  · cases hdir : p.isDirectory w {} <;>
      simp [remaining, hstack, hrevisit, leftBelow, hpost, hvisits]
  · simp [remaining, hstack, hrevisit, hvisits]

variable (isValidUtf w flags) in
/-- The search of the path `p` ends, and goes through the paths `found`. -/
def Finds (p : FilePath) (found : List FilePath) : Prop :=
  ∃ turns, ∀ n ≥ turns, deepSearch isValidUtf w n p flags = some found

/-- A search finds the same in every run. -/
theorem Finds.unique {found found' : List FilePath} (h : Finds isValidUtf w flags p found)
    (h' : Finds isValidUtf w flags p found') : found = found' := by
  obtain ⟨turns, hturns⟩ := h
  obtain ⟨turns', hturns'⟩ := h'
  have hsame := hturns (turns + turns') (by omega)
  rw [hturns' (turns + turns') (by omega)] at hsame
  exact (Option.some.inj hsame).symm

/-- What is not a directory has nothing below it. -/
theorem finds_of_not (h : p.isDirectory w flags = false) : Finds isValidUtf w flags p [] := by
  refine ⟨1, fun n hn => ?_⟩
  obtain ⟨n, rfl⟩ := Nat.exists_eq_add_of_le' hn
  simp [deepSearch, SearchIterator.new, h, drain, current]

/-- An empty directory has nothing below it. -/
theorem finds_of_nil (h : p.isDirectory w flags = true)
    (hnil : p.directoryRange isValidUtf w flags = []) : Finds isValidUtf w flags p [] := by
  refine ⟨1, fun n hn => ?_⟩
  obtain ⟨n, rfl⟩ := Nat.exists_eq_add_of_le' hn
  simp [deepSearch, SearchIterator.new, h, hnil, drain, current]

/-- In top down order the search begins with the first path of the directory. -/
theorem finds_topDown (hpost : flags.bottomUp = false) (h : p.isDirectory w flags = true)
    (hheight : Height (kids isValidUtf w flags) d p) :
    Finds isValidUtf w flags p
      ((kids isValidUtf w flags p).flatMap (visits isValidUtf w flags d)) := by
  have hkids := kids_of_isDirectory isValidUtf h
  cases hrange : p.directoryRange isValidUtf w flags with
  | nil =>
    rw [hkids, hrange]
    exact finds_of_nil h hrange
  | cons q range =>
    have hsound : Sound isValidUtf w flags d ⟨[q :: range], flags, false⟩ :=
      ⟨rfl, by simp, by simpa [← hrange, ← hkids] using fun a ha => hheight.kid ha, by simp,
        by simp⟩
    have hrem : remaining isValidUtf w flags d ⟨[q :: range], flags, false⟩ =
        (kids isValidUtf w flags p).flatMap (visits isValidUtf w flags d) := by
      simp [remaining, hkids, hrange]
    refine ⟨turnsLeft isValidUtf w flags d ⟨[q :: range], flags, false⟩ + 1, fun n hn => ?_⟩
    have hdrain := drain_eq n hsound (by simp [goesOn, hpost]) (by omega)
    rw [← hrem, ← hdrain]
    simp [deepSearch, SearchIterator.new, h, hrange, hpost]

/-- In bottom up order the search begins where the constructor has gone down to. -/
theorem finds_bottomUp {I : SearchIterator → Prop} (hpost : flags.bottomUp = true)
    (h : p.isDirectory w flags = true) (hne : p.directoryRange isValidUtf w flags ≠ [])
    (hacc : ∀ q, First isValidUtf w flags p q → Acc (fun q p => First isValidUtf w flags p q) q)
    (hI : ∀ s, I s → Sound isValidUtf w flags d s ∧ s.revisit = false)
    (hstart : I ⟨[p.directoryRange isValidUtf w flags], flags, false⟩)
    (hstep : ∀ s p rest below, I s → s.stack = (p :: rest) :: below →
      p.directoryRange isValidUtf w flags ≠ [] →
      I { s with stack := p.directoryRange isValidUtf w flags :: s.stack }) :
    ∃ s q, I s ∧ s.current = some q ∧ q.directoryRange isValidUtf w flags = [] ∧
      q ∈ remaining isValidUtf w flags d s ∧
      Finds isValidUtf w flags p (remaining isValidUtf w flags d s) := by
  obtain ⟨q, range, hrange⟩ := List.exists_cons_of_ne_nil hne
  rw [hrange] at hstart
  obtain ⟨turns, s, q', hdive, hs, hcurrent, hend⟩ :=
    dive_rule hstep (fun s hs => (hI s hs).1.flagset) (hacc q (by simp [First, hrange])) hstart rfl
  obtain ⟨hsound, hrevisit⟩ := hI s hs
  have hstack : ∃ rest below, s.stack = (q' :: rest) :: below := by
    have hnil : s.stack ≠ [] := by
      intro hnil
      simp [current, hnil] at hcurrent
    obtain ⟨p', rest, below, hstack⟩ := hsound.stack_eq hnil
    obtain rfl : p' = q' := by simpa [current, hstack] using hcurrent
    exact ⟨rest, below, hstack⟩
  obtain ⟨rest, below, hstack⟩ := hstack
  obtain ⟨s', hs'⟩ : ∃ s', s' = { s with revisit := q'.isDirectory w {} } := ⟨_, rfl⟩
  obtain ⟨hsound', hstop, hrem, hmem⟩ := revisit_spec hsound hpost hstack hrevisit hend hs'
  refine ⟨s, q', hs, hcurrent, hend, hmem, turns + (turnsLeft isValidUtf w flags d s' + 1),
    fun n hn => ?_⟩
  have hdrain := drain_eq n hsound' hstop (by omega)
  rw [← hrem, ← hdrain]
  simp [deepSearch, SearchIterator.new, h, hrange, hpost, hdive n (by omega), hcurrent, hs']

/-- To go down into a directory is a turn of the loop of `operator++`, and changes nothing
about what is still to come. -/
theorem dive_step (h : Sound isValidUtf w flags d s) (hpost : flags.bottomUp = true)
    (hstack : s.stack = (p :: rest) :: below) (hrevisit : s.revisit = false)
    (hdir : p.isDirectory w flags = true) (hne : p.directoryRange isValidUtf w flags ≠ []) :
    Sound isValidUtf w flags d { s with stack := p.directoryRange isValidUtf w flags :: s.stack } ∧
      remaining isValidUtf w flags d
          { s with stack := p.directoryRange isValidUtf w flags :: s.stack } =
        remaining isValidUtf w flags d s := by
  have hturn : s.turn isValidUtf w =
      { s with stack := p.directoryRange isValidUtf w flags :: s.stack } := by
    rw [← kids_of_isDirectory isValidUtf hdir] at hne ⊢
    rcases turn_cases isValidUtf w h.flagset hstack with
      ⟨-, -, -, hturn⟩ | ⟨-, -, hnil, -⟩ | ⟨hcase, -⟩ | ⟨hcase, -⟩
    · rw [hturn, ← h.flagset, ← hrevisit]
    · exact absurd hnil hne
    · simp [hdir, hrevisit] at hcase
    · simp [hdir, hrevisit] at hcase
  have hgoes : s.goesOn w = true := by
    rw [goesOn_eq h.flagset hstack, hdir, hrevisit, hpost]
    rfl
  have hrem := remaining_turn h hstack
  rw [hgoes, if_pos rfl, List.nil_append] at hrem
  rw [← hturn]
  exact ⟨h.turn, hrem.symm⟩

/-- The first path of a range is in it. -/
theorem First.mem {q : FilePath} (h : First isValidUtf w flags p q) :
    q ∈ p.directoryRange isValidUtf w flags :=
  List.mem_of_mem_head? h

theorem First.ne_nil {q : FilePath} (h : First isValidUtf w flags p q) :
    p.directoryRange isValidUtf w flags ≠ [] :=
  List.ne_nil_of_mem h.mem

variable (isValidUtf w flags) in
/-- The constructor goes down through paths that satisfy `S`, and the paths that are still
to come are `found`. -/
structure Descends (d : ℕ) (S : FilePath → Prop) (found : List FilePath) (s : SearchIterator) :
    Prop where
  sound : Sound isValidUtf w flags d s
  revisit : s.revisit = false
  remaining : remaining isValidUtf w flags d s = found
  current : ∀ p ∈ s.current, S p

section Order

variable {S : FilePath → Prop} (hfirst : ∀ p q, S p → First isValidUtf w flags p q → S q)
  (hdir : ∀ p, S p → p.directoryRange isValidUtf w flags ≠ [] → p.isDirectory w flags = true)
include hfirst hdir

/-- First paths that are directories of a tree lead down to its leaves. -/
theorem acc_of_height (hS : S p) (hheight : Height (kids isValidUtf w flags) d p) :
    Acc (fun q p => First isValidUtf w flags p q) p := by
  induction d generalizing p with
  | zero =>
    refine Acc.intro p fun q hq => ?_
    have hkids := kids_of_isDirectory isValidUtf (hdir p hS hq.ne_nil)
    exact absurd (hkids ▸ hheight : p.directoryRange isValidUtf w flags = []) hq.ne_nil
  | succ d ih =>
    refine Acc.intro p fun q hq => ih (hfirst p q hS hq) (hheight q ?_)
    rw [kids_of_isDirectory isValidUtf (hdir p hS hq.ne_nil)]
    exact hq.mem

/-- If the constructor goes down through directories only, the search in bottom up order
goes through the order of the tree. -/
theorem finds_bottomUp_order (hpost : flags.bottomUp = true) (h : p.isDirectory w flags = true)
    (hheight : Height (kids isValidUtf w flags) d p)
    (hS : ∀ q, First isValidUtf w flags p q → S q) :
    Finds isValidUtf w flags p
      ((kids isValidUtf w flags p).flatMap (visits isValidUtf w flags d)) := by
  have hkids := kids_of_isDirectory isValidUtf h
  rcases eq_or_ne (p.directoryRange isValidUtf w flags) [] with hnil | hne
  · rw [hkids, hnil]
    exact finds_of_nil h hnil
  · have hbelow : ∀ q ∈ p.directoryRange isValidUtf w flags,
        Height (kids isValidUtf w flags) d q := fun q hq =>
      hheight.kid (hkids.symm ▸ hq)
    have hstart : Descends isValidUtf w flags d S
        ((kids isValidUtf w flags p).flatMap (visits isValidUtf w flags d))
        ⟨[p.directoryRange isValidUtf w flags], flags, false⟩ := by
      refine ⟨⟨rfl, by simpa using hne, by simpa using hbelow, by simp, by simp⟩, rfl, ?_, ?_⟩
      · simp [remaining, hkids]
      · exact fun q hq => hS q (by simpa [current, First] using hq)
    have hstep : ∀ s a rest below, Descends isValidUtf w flags d S
        ((kids isValidUtf w flags p).flatMap (visits isValidUtf w flags d)) s →
        s.stack = (a :: rest) :: below → a.directoryRange isValidUtf w flags ≠ [] →
        Descends isValidUtf w flags d S
          ((kids isValidUtf w flags p).flatMap (visits isValidUtf w flags d))
          { s with stack := a.directoryRange isValidUtf w flags :: s.stack } := by
      intro s a rest below hs hstack hne
      have ha : S a := hs.current a (by simp [current_eq hstack])
      obtain ⟨hsound, hrem⟩ := dive_step hs.sound hpost hstack hs.revisit (hdir a ha hne) hne
      refine ⟨hsound, hs.revisit, hrem.trans hs.remaining, fun q hq => hfirst a q ha ?_⟩
      simpa [current, First] using hq
    obtain ⟨s, q, hs, -, -, -, hfinds⟩ := finds_bottomUp hpost h hne
      (fun q hq => acc_of_height hfirst hdir (hS q hq) (hbelow q hq.mem))
      (fun s hs => ⟨hs.sound, hs.revisit⟩) hstart hstep
    exact hs.remaining ▸ hfinds

end Order

end SearchIterator

end RsIo
