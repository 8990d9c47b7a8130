import RsIo.FileFrame

/-!
# Making Missing Directories

`make_directory()` with the `recurse` flag, when no call fails by accident. It looks at the
path from the right: a call that fails because a directory is missing is made again after
the parent was made. `makePrefixes` says what `mkdir -p` does, from the left.

The two agree as long as only names come behind the first missing directory. A `..` there
leads back to a directory that was just made on the way to it, and the second call for this
directory is an error.

## Main results

* `FilePath.makeDirectory_recurse_iff`: when `make_directory()` makes the directories that
  `mkdir -p` makes.
-/

namespace RsIo

open FileTree (Place)

namespace World

variable {w : World} {p : FilePath} {l : Loc} {n : Bytes} {e : Entry Bytes Bytes}

/-- A node can be created where one is missing. -/
theorem create_of_missing (h : w.resolve false p = .ok (.missing l n)) :
    ∃ t, w.create p e = .ok (t, ()) ∧ w.Adds l n e { w with tree := t } := by
  have hin : w.tree.look l = some .dir ∧ w.tree.look (l ++ [n]) = none := resolve_in h
  refine ⟨w.tree.insert l n e hin.1 hin.2, ?_, .of_insert hin.1 hin.2⟩
  unfold create
  rw [h]
  exact dif_pos hin

theorem create_of_found (h : w.resolve false p = .ok (.found l)) :
    w.create p e = .error eExist := by
  unfold create
  rw [h]

/-- Nothing can be created below what is missing. -/
theorem create_below_missing (h : w.resolve false p = .ok (.missing l n))
    (es : List (PathElem Bytes)) (hes : es ≠ []) :
    w.create { p with elements := p.elements ++ es } e = .error eNoEnt := by
  obtain ⟨-, hwalk⟩ := resolve_eq_ok.mp h
  have hnone : w.resolve false { p with elements := p.elements ++ es } = .error .noEntry := by
    rw [resolve_eq_walk (by simp [hes])]
    exact FileTree.walk_missing_append hwalk hes
  unfold create
  rw [hnone]
  rfl

end World

namespace FilePath

variable {w w' w₁ : World} {p q : FilePath} {flags : PathFlags} {t : Tree}

theorem isDirectory_grows (h : w.Grows w') (hp : p.isDirectory w {} = true) :
    p.isDirectory w' {} = true := by
  obtain ⟨l, hl⟩ := isDirectory_eq_true.mp hp
  obtain ⟨hfollow, hdir⟩ := World.getStat_eq_some.mp hl
  exact isDirectory_eq_true.mpr
    ⟨l, World.getStat_eq_some.mpr ⟨h.resolve_mono hfollow, h.added _ _ hdir⟩⟩

/-- A directory cannot be made again. -/
theorem mkdir_of_isDirectory (hp : p.isDirectory w {} = true) : w.mkdir p = .error eExist := by
  obtain ⟨l, hl⟩ := isDirectory_eq_true.mp hp
  obtain ⟨place, hplace, hor⟩ := World.resolve_nofollow (World.getStat_eq_some.mp hl).1
  cases place with
  | found k => exact World.create_of_found hplace
  | missing k m =>
      have hnone : w.tree.look (k ++ [m]) = none := (World.resolve_in hplace).2
      rcases hor with heq | ⟨target, htarget⟩
      · cases heq
      · exact absurd (htarget.symm.trans hnone) (by simp)

/-! ### One call -/

section Once

variable {above : ℕ → FsProg Unit}

theorem makeDirectoryOnce_made (hw : w.Faultless) (h : w.mkdir p = .ok (t, ())) :
    makeDirectoryOnce p flags above w = some (.ok (), { w.next with tree := t }) := by
  rw [makeDirectoryOnce, Prog.bind_of_ok (hw.sysCall_ok h)]
  rfl

theorem makeDirectoryOnce_there (hw : w.Faultless) (h : p.isDirectory w {} = true) :
    makeDirectoryOnce p flags above w = some (.ok (), w.next) := by
  have hact : w.next.mkdir p = .error eExist := mkdir_of_isDirectory h
  rw [makeDirectoryOnce, Prog.bind_of_ok (hw.sysCall_error hact)]
  exact congrFun (if_pos ⟨rfl, h⟩) w.next

/-- If the parent is missing, it is made, and then the call is made once more. -/
theorem makeDirectoryOnce_again (hw : w.Faultless) (hp : p.elements ≠ [])
    (h : w.mkdir p = .error eNoEnt) :
    makeDirectoryOnce p { recurse := true } above w =
      (above eNoEnt >>= fun _ => sysCall (fun w => w.mkdir p) >>= check [p]) w.next := by
  rw [makeDirectoryOnce, Prog.bind_of_ok (hw.sysCall_error h)]
  have hne : ¬ eNoEnt = eExist := by decide
  simp [Prog.get_bind, hne, hp]

end Once

/-- `make_directory()` for a path of one more element. -/
theorem makeDirectory_concat (p : FilePath) (e : PathElem Bytes) (flags : PathFlags) :
    (makeDirectory { p with elements := p.elements ++ [e] } flags : FsProg Unit) =
      makeDirectoryOnce { p with elements := p.elements ++ [e] } flags fun _ =>
        makeDirectory p flags := by
  simp [makeDirectory, makeDirectoryRev]

/-! ### Behind the first missing directory -/

/-- An empty directory at a path. -/
def EmptyDirectory (w : World) (p : FilePath) : Prop :=
  ∃ l, w.getStat p {} = some (l, .dir) ∧ ∀ m, w.tree.look (l ++ [m]) = none

theorem EmptyDirectory.isDirectory (h : EmptyDirectory w p) : p.isDirectory w {} = true := by
  obtain ⟨l, hl, -⟩ := h
  exact isDirectory_eq_true.mpr ⟨l, hl⟩

/-- A directory that was just made is empty. -/
theorem emptyDirectory_of_adds {l : Loc} {n : Bytes} (hp : w.resolve false p = .ok (.missing l n))
    (hadds : w.Adds l n .dir w') : EmptyDirectory w' p := by
  refine ⟨l ++ [n], World.getStat_eq_some.mpr ⟨?_, hadds.look⟩, hadds.look_below⟩
  exact World.resolve_follow (hadds.found hp) (by simp [hadds.look])

/-- `mkdir` for a name in an empty directory. -/
theorem EmptyDirectory.mkdir_name (h : EmptyDirectory w p) (n : Bytes) :
    ∃ t, w.mkdir (p.descend [n]) = .ok (t, ()) ∧ w.Grows { w with tree := t } ∧
      EmptyDirectory { w with tree := t } (p.descend [n]) := by
  obtain ⟨l, hl, hempty⟩ := h
  obtain ⟨hfollow, hdir⟩ := World.getStat_eq_some.mp hl
  have hchild := World.resolve_child hfollow hdir n
  rw [if_pos (hempty n)] at hchild
  obtain ⟨t, hact, hadds⟩ := World.create_of_missing (e := .dir) hchild
  exact ⟨t, hact, hadds.grows, emptyDirectory_of_adds hchild hadds⟩

/-- `mkdir` for an element that is no name, behind a directory. -/
theorem mkdir_of_not_name (hp : p.isDirectory w {} = true) {x : PathElem Bytes}
    (hx : ∀ n, x ≠ .name n) :
    w.mkdir { p with elements := p.elements ++ [x] } = .error eExist := by
  obtain ⟨l, hl⟩ := isDirectory_eq_true.mp hp
  obtain ⟨hfollow, hdir⟩ := World.getStat_eq_some.mp hl
  obtain ⟨-, hwalk⟩ := World.resolve_eq_ok.mp hfollow
  obtain ⟨k, -, happend⟩ := FileTree.walk_append hwalk
  have hfound : ∃ l', w.tree.walk false k l [x] = .ok (.found l') := by
    cases x with
    | empty => exact ⟨l, FileTree.walk_skip hdir (.inl rfl)⟩
    | self => exact ⟨l, FileTree.walk_skip hdir (.inr rfl)⟩
    | parent => exact ⟨l.dropLast, FileTree.walk_parent hdir⟩
    | name n => exact absurd rfl (hx n)
  obtain ⟨l', hl'⟩ := hfound
  refine World.create_of_found (l := l') (World.resolve_eq_ok.mpr ⟨by simp, ?_⟩)
  rw [← hl']
  exact happend false [x] (by simp)

section Missing

variable {l : Loc} {n : Bytes}

/-- The directories named behind a missing one are made, from left to right. -/
theorem makeDirectory_names (hw : w.Faultless) (hq : w.resolve false q = .ok (.missing l n))
    (ns : List Bytes) :
    ∃ w', makeDirectory (q.descend ns) { recurse := true } w = some (.ok (), w') ∧
      w'.Faultless ∧ w.Grows w' ∧ EmptyDirectory w' (q.descend ns) ∧
      ∀ ns', ns' <+: ns → (q.descend ns').isDirectory w' {} = true := by
  -- the last name is made last, in the world that the call for the others leaves
  induction ns using List.reverseRecOn generalizing w with
  | nil =>
      obtain ⟨above, habove⟩ := makeDirectory_eq q { recurse := true }
      obtain ⟨t, hact, hadds⟩ := World.create_of_missing (e := .dir) hq
      have hempty := emptyDirectory_of_adds hq hadds
      refine ⟨{ w.next with tree := t }, ?_, hw.next, ?_, by rwa [descend_nil],
        fun ns' hns' => ?_⟩
      · rw [descend_nil, habove]
        exact makeDirectoryOnce_made hw hact
      · exact ⟨hadds.grows.added, hadds.grows.cwd, hadds.grows.lossless⟩
      · rw [List.prefix_nil.mp hns', descend_nil]
        exact hempty.isDirectory
  | append_singleton ns n' ih =>
      obtain ⟨w₁, hrun, hw₁, hgrows, hempty, hall⟩ := ih hw.next hq
      obtain ⟨t', hact, hgrows', hempty'⟩ := hempty.mkdir_name n'
      have hbelow := World.create_below_missing (e := .dir) hq ((ns ++ [n']).map .name)
        (by simp)
      have hgrows₁ : w₁.Grows { w₁.next with tree := t' } :=
        ⟨hgrows'.added, hgrows'.cwd, hgrows'.lossless⟩
      refine ⟨{ w₁.next with tree := t' }, ?_, hw₁.next,
        (w.like_next.grows.trans hgrows).trans hgrows₁, ?_, fun ns' hns' => ?_⟩
      · change w.mkdir (q.descend (ns ++ [n'])) = _ at hbelow
        rw [descend_append] at hbelow ⊢
        have hconcat := makeDirectory_concat (q.descend ns) (.name n') { recurse := true }
        change makeDirectory ((q.descend ns).descend [n']) _ = _ at hconcat
        rw [hconcat]
        refine (makeDirectoryOnce_again hw (by simp [descend]) hbelow).trans ?_
        rw [Prog.bind_of_ok hrun, Prog.bind_of_ok (hw₁.sysCall_ok hact)]
        rfl
      · rw [descend_append]
        exact hempty'
      · rcases List.prefix_concat_iff.mp hns' with rfl | hns'
        · rw [descend_append]
          exact hempty'.isDirectory
        · exact isDirectory_grows hgrows₁ (hall ns' hns')

/-- Behind an element that is no name, the call for a directory that was just made is an
error. -/
theorem makeDirectory_throws (hw : w.Faultless) (hq : w.resolve false q = .ok (.missing l n))
    (ns : List Bytes) {x : PathElem Bytes} (hx : ∀ n, x ≠ .name n) (es : List (PathElem Bytes)) :
    ∃ err w', makeDirectory
      { q with elements := q.elements ++ (ns.map .name ++ x :: es) } { recurse := true } w =
        some (.error err, w') := by
  induction es using List.reverseRecOn generalizing w with
  | nil =>
      obtain ⟨w₁, hrun, hw₁, -, hempty, -⟩ := makeDirectory_names hw.next hq ns
      have hbelow := World.create_below_missing (e := .dir) hq (ns.map .name ++ [x])
        (by simp)
      have hact := mkdir_of_not_name hempty.isDirectory hx
      rw [← List.append_assoc] at hbelow ⊢
      have hconcat := makeDirectory_concat (q.descend ns) x { recurse := true }
      refine ⟨⟨eExist, [⟨q.isAbsolute, q.elements ++ ns.map .name ++ [x]⟩]⟩, w₁.next,
        (congrFun hconcat w).trans ?_⟩
      refine (makeDirectoryOnce_again hw (by simp) hbelow).trans ?_
      rw [Prog.bind_of_ok hrun]
      exact Prog.bind_of_ok (hw₁.sysCall_error hact)
  | append_singleton es e ih =>
      obtain ⟨err, w₁, hrun⟩ := ih hw.next hq
      have hbelow := World.create_below_missing (e := .dir) hq
        (ns.map .name ++ x :: (es ++ [e])) (by simp)
      have hsplit : q.elements ++ (ns.map .name ++ x :: (es ++ [e])) =
          q.elements ++ (ns.map .name ++ x :: es) ++ [e] := by simp
      rw [hsplit] at hbelow ⊢
      have hconcat := makeDirectory_concat
        { q with elements := q.elements ++ (ns.map .name ++ x :: es) } e { recurse := true }
      refine ⟨err, w₁, (congrFun hconcat w).trans ?_⟩
      exact (makeDirectoryOnce_again hw (by simp) hbelow).trans (Prog.bind_of_error hrun)

end Missing

/-! ### From the left -/

/-- What `mkdir -p` does about the elements that come after `q`: each longer prefix that is
no directory is made. The tree is that after the last one, and there is none if a prefix is
neither a directory nor missing from one. The empty path cannot be made. -/
def makePrefixes (w : World) (q : FilePath) : List (PathElem Bytes) → Option Tree
  | [] => if q.isAbsolute = false ∧ q.elements = [] then none else some w.tree
  | e :: es =>
      let q' : FilePath := { q with elements := q.elements ++ [e] }
      if q'.isDirectory w {} then
        makePrefixes w q' es
      else
        match w.mkdir q' with
        | .ok (t, ()) => makePrefixes { w with tree := t } q' es
        | .error _ => none

/-- The path and all its prefixes are directories. -/
def AllDirectories (w : World) (p : FilePath) : Prop :=
  ∀ es, es <+: p.elements → ¬ (p.isAbsolute = false ∧ es = []) →
    isDirectory w { p with elements := es } {} = true

/-- Behind each prefix that is no directory there are only names. -/
def NamesBehindMissing (w : World) (p : FilePath) : Prop :=
  ∀ es e rest, p.elements = es ++ e :: rest →
    isDirectory w { p with elements := es ++ [e] } {} = false → ∀ x ∈ rest, ∃ n, x = .name n

/-- If `mkdir -p` goes through, all the prefixes are directories, or there is a first one
that is missing. -/
theorem first_missing {es : List (PathElem Bytes)} (h : (makePrefixes w q es).isSome) :
    (∀ es', es' <+: es → es' ≠ [] →
      isDirectory w { q with elements := q.elements ++ es' } {} = true) ∨
    ∃ done e rest l n, es = done ++ e :: rest ∧
      (∀ es', es' <+: done → es' ≠ [] →
        isDirectory w { q with elements := q.elements ++ es' } {} = true) ∧
      w.resolve false { q with elements := q.elements ++ (done ++ [e]) } =
        .ok (.missing l n) := by
  induction es generalizing q with
  | nil => exact .inl fun es' h hne => absurd (List.prefix_nil.mp h) hne
  | cons e es ih =>
      rw [makePrefixes] at h
      -- the prefixes of `e :: es` are those of `es` behind `e`
      have hcons : ∀ {es₀ : List (PathElem Bytes)},
          isDirectory w { q with elements := q.elements ++ [e] } {} = true →
          (∀ es', es' <+: es₀ → es' ≠ [] →
            isDirectory w { q with elements := q.elements ++ [e] ++ es' } {} = true) →
          ∀ es', es' <+: e :: es₀ → es' ≠ [] →
            isDirectory w { q with elements := q.elements ++ es' } {} = true := by
        intro es₀ hdir hall es' hes' hne
        rcases List.prefix_cons_iff.mp hes' with rfl | ⟨tail, rfl, htail⟩
        · exact absurd rfl hne
        · rcases eq_or_ne tail [] with rfl | hne'
          · exact hdir
          · rw [List.append_cons]
            exact hall tail htail hne'
      by_cases hdir : isDirectory w { q with elements := q.elements ++ [e] } {} = true
      · rw [if_pos hdir] at h
        rcases ih h with hall | ⟨done, e', rest, l, n, rfl, hall, hmissing⟩
        · exact .inl (hcons hdir hall)
        · refine .inr ⟨e :: done, e', rest, l, n, rfl, hcons hdir hall, ?_⟩
          rw [List.cons_append, List.append_cons]
          exact hmissing
      · rw [if_neg hdir] at h
        cases hact : w.mkdir { q with elements := q.elements ++ [e] } with
        | error err =>
            rw [hact] at h
            cases h
        | ok tu =>
            obtain ⟨t, u⟩ := tu
            obtain ⟨l, n, -, -, hmissing, -⟩ := World.create_eq_ok hact
            refine .inr ⟨[], e, es, l, n, rfl, fun es' h hne => ?_, hmissing⟩
            exact absurd (List.prefix_nil.mp h) hne

theorem isDirectory_of_missing {l : Loc} {n : Bytes}
    (h : w.resolve false p = .ok (.missing l n)) : p.isDirectory w {} = false := by
  rw [Bool.eq_false_iff, ne_eq, isDirectory_eq_true]
  rintro ⟨k, hk⟩
  obtain ⟨place, hplace, hor⟩ := World.resolve_nofollow (World.getStat_eq_some.mp hk).1
  obtain rfl := Except.ok.inj (hplace.symm.trans h)
  have hnone : w.tree.look (l ++ [n]) = none := (World.resolve_in h).2
  rcases hor with heq | ⟨target, htarget⟩
  · cases heq
  · exact absurd (htarget.symm.trans hnone) (by simp)

/-- All the prefixes of a path, of which the last ones are names behind a prefix. -/
theorem allDirectories_of_names {done : List (PathElem Bytes)} {e : PathElem Bytes}
    {ns : List Bytes} (hp : p.elements = done ++ e :: ns.map .name)
    (hdone : AllDirectories w { p with elements := done })
    (hnames : ∀ ns', ns' <+: ns →
      isDirectory w (descend { p with elements := done ++ [e] } ns') {} = true) :
    AllDirectories w p := by
  intro es hes hne
  rw [hp, List.append_cons] at hes
  rcases List.prefix_or_prefix_of_prefix hes (List.prefix_append _ _) with hbefore | ⟨es', rfl⟩
  · rcases List.prefix_concat_iff.mp hbefore with rfl | hbefore
    · simpa using hnames [] List.nil_prefix
    · exact hdone es hbefore hne
  · have htake := List.prefix_iff_eq_take.mp ((List.prefix_append_right_inj _).mp hes)
    rw [← List.map_take] at htake
    rw [htake]
    exact hnames _ (List.take_prefix ..)

/-- `make_directory()` with the `recurse` flag returns, and then its path and all the
prefixes are directories. -/
def MakesAll (w : World) (p : FilePath) : Prop :=
  ∃ w', makeDirectory p { recurse := true } w = some (.ok (), w') ∧ AllDirectories w' p

theorem makesAll_of_all (hw : w.Faultless) (hp : AllDirectories w p)
    (hne : ¬ (p.isAbsolute = false ∧ p.elements = [])) : MakesAll w p := by
  obtain ⟨above, habove⟩ := makeDirectory_eq p { recurse := true }
  refine ⟨w.next, ?_, hp⟩
  rw [habove]
  exact makeDirectoryOnce_there hw (hp p.elements List.prefix_rfl hne)

/-- Some elements are all names, or there is a first one that is none. -/
theorem names_or_not (es : List (PathElem Bytes)) :
    (∃ ns : List Bytes, es = ns.map .name) ∨
      ∃ (ns : List Bytes) (x : PathElem Bytes) (rest : List (PathElem Bytes)),
        es = ns.map .name ++ x :: rest ∧ ∀ n, x ≠ .name n := by
  induction es with
  | nil => exact .inl ⟨[], rfl⟩
  | cons e es ih =>
      by_cases he : ∃ n, e = .name n
      · obtain ⟨n, rfl⟩ := he
        rcases ih with ⟨ns, rfl⟩ | ⟨ns, x, rest, rfl, hx⟩
        · exact .inl ⟨n :: ns, rfl⟩
        · exact .inr ⟨n :: ns, x, rest, rfl, hx⟩
      · exact .inr ⟨[], e, es, rfl, fun n hn => he ⟨n, hn⟩⟩

/-- What comes behind any missing prefix comes behind the first one. -/
theorem namesBehindMissing_of_first {done rest : List (PathElem Bytes)} {e : PathElem Bytes}
    (hp : p.elements = done ++ e :: rest)
    (hall : ∀ es, es <+: done → es ≠ [] → isDirectory w ⟨p.isAbsolute, es⟩ {} = true)
    (hrest : ∀ x ∈ rest, ∃ n, x = .name n) : NamesBehindMissing w p := by
  intro es e' rest' hp' hmissing x hx
  refine hrest x ?_
  have hsplit : done ++ [e] ++ rest = es ++ [e'] ++ rest' := by simpa using hp.symm.trans hp'
  rcases List.prefix_or_prefix_of_prefix ⟨rest', hsplit.symm⟩ (List.prefix_append _ rest)
    with hbefore | ⟨between, hbetween⟩
  · rcases List.prefix_concat_iff.mp hbefore with heq | hbefore
    · rw [heq] at hsplit
      rwa [List.append_cancel_left hsplit]
    · rw [hall _ hbefore (by simp)] at hmissing
      cases hmissing
  · rw [← hbetween, List.append_assoc (done ++ [e])] at hsplit
    rw [List.append_cancel_left hsplit]
    exact List.mem_append_right between hx

/-- **Making missing directories.** If no call fails by accident and each prefix of the path
is a directory, or is missing from one when those before it were made, `make_directory()`
with the `recurse` flag makes them all if and only if there are only names behind each
missing one. -/
theorem makeDirectory_recurse_iff (hw : w.Faultless)
    (hway : (makePrefixes w ⟨p.isAbsolute, []⟩ p.elements).isSome) :
    MakesAll w p ↔ NamesBehindMissing w p := by
  have hne : ¬ (p.isAbsolute = false ∧ p.elements = []) := by
    rintro ⟨habs, hp⟩
    rw [hp, makePrefixes, if_pos ⟨habs, rfl⟩] at hway
    cases hway
  have hroot : p.isAbsolute = true → isDirectory w ⟨p.isAbsolute, []⟩ {} = true := by
    intro habs
    rw [isDirectory_eq_true, habs]
    exact ⟨[], World.getStat_eq_some.mpr ⟨rfl, w.tree.root⟩⟩
  have hprefixes : ∀ {done : List (PathElem Bytes)},
      (∀ es, es <+: done → es ≠ [] → isDirectory w ⟨p.isAbsolute, [] ++ es⟩ {} = true) →
      AllDirectories w { p with elements := done } := by
    intro done hall es hes hne'
    rcases eq_or_ne es [] with rfl | hnil
    · exact hroot (by simpa using hne')
    · exact hall es hes hnil
  rcases first_missing hway with hall | ⟨done, e, rest, l, n, hp, hall, hmissing⟩
  · -- nothing is missing
    refine iff_of_true (makesAll_of_all hw (hprefixes hall) hne) fun es e rest hp hmissing => ?_
    have hdir := hall (es ++ [e]) ⟨rest, by rw [hp]; simp⟩ (by simp)
    rw [List.nil_append, hmissing] at hdir
    cases hdir
  · constructor
    · rintro ⟨w', hrun, -⟩
      refine namesBehindMissing_of_first hp hall ?_
      rcases names_or_not rest with ⟨ns, rfl⟩ | ⟨ns, x, rest, rfl, hx⟩
      · exact fun x hx => (List.mem_map.mp hx).imp fun n hn => hn.2.symm
      · obtain ⟨err, w'', hthrow⟩ := makeDirectory_throws hw hmissing ns hx rest
        have hsame : (⟨p.isAbsolute, [] ++ (done ++ [e]) ++ (ns.map .name ++ x :: rest)⟩ :
            FilePath) = p := by
          rw [List.nil_append, List.append_assoc, List.singleton_append, ← hp]
        rw [hsame, hrun] at hthrow
        cases hthrow
    · intro hbehind
      have hrest := hbehind done e rest hp (isDirectory_of_missing hmissing)
      rcases names_or_not rest with ⟨ns, rfl⟩ | ⟨ns, x, rest, rfl, hx⟩
      · obtain ⟨w', hrun, -, hgrows, -, hnames⟩ := makeDirectory_names hw hmissing ns
        have hsame : (descend ⟨p.isAbsolute, [] ++ (done ++ [e])⟩ ns : FilePath) = p := by
          rw [descend, List.nil_append, List.append_assoc, List.singleton_append, ← hp]
        rw [hsame] at hrun
        refine ⟨w', hrun, allDirectories_of_names hp (fun es hes hne' => ?_) hnames⟩
        exact isDirectory_grows hgrows (hprefixes hall es hes hne')
      · obtain ⟨n, hn⟩ := hrest x (by simp)
        exact absurd hn (hx n)

/-- A file system with nothing in it. -/
def bareWorld : World := ⟨.empty, [], [], []⟩

/-- The path `a/b`. -/
def twoNames : FilePath := ⟨false, [.name [97], .name [98]]⟩

/-- `make_directory()` makes `a` and `a/b`. -/
theorem makeDirectory_recurse_two : MakesAll bareWorld twoNames := by
  refine (makeDirectory_recurse_iff (fun _ h => by cases h) (by decide)).mpr ?_
  intro es e rest hp _ x hx
  have hmem : x ∈ twoNames.elements := by
    rw [hp]
    simp [hx]
  simp only [twoNames, List.mem_cons, List.not_mem_nil, or_false] at hmem
  rcases hmem with rfl | rfl
  · exact ⟨_, rfl⟩
  · exact ⟨_, rfl⟩

/-- The path `a/..`. -/
def nameAndBack : FilePath := ⟨false, [.name [97], .parent]⟩

/-- `make_directory()` makes `a`, and throws since `a/..` is there. -/
theorem makeDirectory_recurse_fails :
    bareWorld.Faultless ∧ (makePrefixes bareWorld ⟨false, []⟩ nameAndBack.elements).isSome ∧
      ¬ MakesAll bareWorld nameAndBack := by
  refine ⟨(fun _ h => by cases h), by decide, ?_⟩
  rintro ⟨w', hrun, -⟩
  have hthrow : (makeDirectory nameAndBack { recurse := true } bareWorld).map
      (fun r => r.1.toOption) = some none := by decide
  rw [hrun] at hthrow
  cases hthrow

end FilePath

end RsIo
