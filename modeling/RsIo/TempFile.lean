import RsIo.OpenMode
import RsIo.PathName
import RsIo.Resource
import Mathlib.Data.Finset.Insert

/-!
# Temporary Files

A `TempFile` of `stdio.cpp` is a `Cstdio` with the path of its file in `where_`. The base
class owns the stream, which is a `Resource`. The file in the directory belongs to the derived
class: the constructor creates it and the destructor removes it. The moves are defaulted, so
they move the stream and the path, each in its own way.

A move of the stream into an object closes the stream that was there. A move of the path
overwrites the path that was there, and the file it led to is left behind.

A file on the disk is the directory entry that its name leads to, which does not change while
the program runs. Moving a string leaves an empty one behind, also when it is moved to itself,
and removing a file succeeds.

## Main results

* `newNamed_cases`: the constructor creates one file, or throws and creates none.
* `run_tidy`: as long as nothing is moved over the path of a file, the files on the disk are
  those of the objects.
* `moveAssign_tidy_iff`: and only as long.
-/

namespace RsIo

open StdString

namespace Path

/-- The ASCII character `~`. -/
def tilde : UInt8 := 126

/-- `Path::resolve`, with `get_user_home` and `get_current_directory` given. -/
def resolve (userHome : Bytes → Path) (cwd : Path) (p : Path) : Except IoError Path :=
  let result : Path :=
    if p.empty then cwd
    else
      let result : Path :=
        if p.filename.head? = some tilde then
          let pos := findIf isSlash p.filename 0
          let user := substr p.filename 1 (pos.getD p.filename.length - 1)
          let tail := (pos.map fun q => p.filename.drop (q + 1)).getD []
          let home := userHome user
          if home.empty then ⟨[]⟩ else join home (ofBytes tail)
        else ⟨[]⟩
      if result.empty && p.isRelative && ! cwd.empty then join cwd p else result
  let result := if result.empty then p else result
  if result.isAbsolute then .ok result else .error ⟨eNoEnt, p.name⟩

/-- A resolved path is absolute. -/
theorem resolve_isAbsolute {userHome : Bytes → Path} {cwd p q : Path}
    (h : resolve userHome cwd p = .ok q) : q.isAbsolute = true := by
  have hchecked : ∀ {r : Path} {e : IoError},
      (if r.isAbsolute then Except.ok r else .error e) = .ok q → q.isAbsolute = true := by
    intro r e hr
    split at hr
    next habs =>
      cases hr
      exact habs
    next => cases hr
  exact hchecked h

/-- An absolute path is not empty. -/
theorem empty_of_isAbsolute {p : Path} (h : p.isAbsolute = true) : p.empty = false := by
  cases hp : p.filename with
  | nil => simp [isAbsolute, hp] at h
  | cons c s => simp [empty, hp]

end Path

namespace TempFile

open RsIo.Path

/-- What the system answers while a constructor runs. `device` gives the two values drawn in
each round, `openError` the error of `open()`, if not `EEXIST` for a temporary file, and
`stream` says whether `fdopen()` and `std::tmpfile()` succeed. -/
structure Env where
  isDirectory : Path → Bool
  userHome : Bytes → Path
  currentDirectory : Path
  device : ℕ → UInt32 × UInt32
  openError : Bytes → ℕ
  stream : Bool

/-- The variables of the loop in the constructor. -/
structure Attempt where
  where_ : Path
  isOpen : Bool
  err : ℕ

/-- `max_tries` in the constructor. -/
def maxTries : ℕ := 100

variable {ι E : Type} [DecidableEq E] (entry : Bytes → E) (hex : UInt64 → Bytes)

/-- `Fdio(where_, O_RDWR | O_CREAT | O_EXCL)`. The constructor throws if `open()` fails. -/
def newExclusive (env : Env) (f : Path) : Prog IoError (Finset E) Bool := do
  let err ← Prog.step fun files =>
    let err := if entry f.name ∈ files then eExist else env.openError f.name
    (err, if err = 0 then insert (entry f.name) files else files)
  if err ≠ 0 then .throw ⟨err, f.name⟩ else pure true

/-- The name that the constructor tries in round `i`. -/
def candidate (env : Env) (dir : Path) (pre : Bytes) (i : ℕ) : Path :=
  let x := (env.device i).1.toUInt64
  let y := (env.device i).2.toUInt64
  let z := (x <<< 32) + y
  join dir (ofBytes (pre ++ hex z))

/-- The loop of the constructor, with the rounds that are left and the number of the round. After
a round that does not throw `errno` is 0. -/
def tryNames (env : Env) (dir : Path) (pre : Bytes) :
    ℕ → ℕ → Attempt → Prog IoError (Finset E) Attempt
  | 0, _, fdio => pure fdio
  | tries + 1, i, fdio =>
      if fdio.isOpen then pure fdio
      else
        match resolve env.userHome env.currentDirectory (candidate hex env dir pre i) with
        | .error e => .throw e
        | .ok p => do
            let isOpen ← newExclusive entry env p
            tryNames env dir pre tries (i + 1) ⟨p, isOpen, 0⟩

/-- `TempFile(const Path& dir, const std::string& prefix)`, up to `fdopen()`. The result is
`where_`. -/
def newNamed (env : Env) (dir : Path) (pre : Bytes) : Prog IoError (Finset E) Path :=
  if ! dir.empty && ! env.isDirectory dir then .throw ⟨eNoEnt, []⟩
  else do
    let fdio ← tryNames entry hex env dir pre maxTries 0 ⟨⟨[]⟩, false, 0⟩
    if ! fdio.isOpen then .throw ⟨fdio.err, []⟩ else pure fdio.where_

/-! ### Objects -/

/-- The objects of a program and the temporary files on the disk. The streams are numbered as
they are opened, from 1 on, and 0 is the null pointer. The address `none` is that of the local
variable `io` of the constructors. -/
structure State (ι E : Type) where
  streams : Resource.Heap (Option ι) ℕ
  opened : ℕ
  where_ : ι → Option Path
  files : Finset E

variable [DecidableEq ι]

/-- `Cstdio io(file)`, which is moved into the base class and destroyed. -/
def adopt (h : Resource.Heap (Option ι) ℕ) (i : ι) (file : ℕ) : Resource.Heap (Option ι) ℕ :=
  let h := h.construct none file
  let h := h.moveAssign 0 (some i) none
  h.destroy 0 none

namespace State

variable (s : State ι E)

/-- The end of a constructor that does not throw. -/
def construct (i : ι) (stream : Bool) (p : Path) (files : Finset E) : State ι E :=
  let h := s.streams.constructNull 0 (some i)
  let opened := if stream then s.opened + 1 else s.opened
  { streams := adopt h i (if stream then s.opened + 1 else 0)
    opened := opened
    where_ := Function.update s.where_ i (some p)
    files := files }

/-- A constructor that throws: the base class is destroyed. -/
def abandon (i : ι) (files : Finset E) : State ι E :=
  let h := s.streams.constructNull 0 (some i)
  { s with streams := h.destroy 0 (some i), files := files }

/-- `TempFile()`. -/
def anonymous (i : ι) (env : Env) : State ι E :=
  if env.stream then s.construct i true ⟨[]⟩ s.files else s.abandon i s.files

/-- `TempFile(const Path& dir, const std::string& prefix)`. A null pointer from `fdopen()` is
not looked at. -/
def named (i : ι) (env : Env) (dir : Path) (pre : Bytes) : Option (State ι E) :=
  (newNamed entry hex env dir pre s.files).map fun r =>
    match r.1 with
    | .ok p => s.construct i env.stream p r.2
    | .error _ => s.abandon i r.2

/-- `where_` moved from one object to another. -/
def moveWhere (i r : ι) : ι → Option Path :=
  Function.update (Function.update s.where_ i (s.where_ r)) r (some ⟨[]⟩)

/-- `TempFile(TempFile&& r)`. -/
def moveConstruct (i r : ι) : State ι E :=
  { s with streams := s.streams.moveConstruct 0 (some i) (some r), where_ := s.moveWhere i r }

/-- `operator=(TempFile&& r)`. -/
def moveAssign (i r : ι) : State ι E :=
  { s with streams := s.streams.moveAssign 0 (some i) (some r), where_ := s.moveWhere i r }

/-- `~TempFile()`, and the destructor of the base class. -/
def destroy (i : ι) : State ι E :=
  let p := (s.where_ i).getD ⟨[]⟩
  let s :=
    if ! p.empty then
      { s with streams := s.streams.reset 0 (some i), files := s.files.erase (entry p.name) }
    else s
  { s with streams := s.streams.destroy 0 (some i), where_ := Function.update s.where_ i none }

end State

/-! ### Runs -/

/-- What a program does with objects. -/
inductive Op (ι : Type)
  | anonymous (i : ι) (env : Env)
  | named (i : ι) (env : Env) (dir : Path) (pre : Bytes)
  | moveConstruct (i r : ι)
  | moveAssign (i r : ι)
  | destroy (i : ι)

/-- One operation. An object is constructed where there is none, and the other operations
need the objects that they work on. -/
def step (s : State ι E) : Op ι → Option (State ι E)
  | .anonymous i env => if s.where_ i = none then some (s.anonymous i env) else none
  | .named i env dir pre => if s.where_ i = none then s.named entry hex i env dir pre else none
  | .moveConstruct i r =>
      if s.where_ i = none ∧ s.where_ r ≠ none then some (s.moveConstruct i r) else none
  | .moveAssign i r =>
      if s.where_ i ≠ none ∧ s.where_ r ≠ none then some (s.moveAssign i r) else none
  | .destroy i => if s.where_ i ≠ none then some (s.destroy entry i) else none

/-- A program that starts without objects. -/
def machine : Machine (State ι E) (Op ι) where
  start := ⟨⟨fun _ => none, [], [], []⟩, 0, fun _ => none, ∅⟩
  next := step entry hex

/-- The object that is assigned to has no file of its own. -/
def Vacant (s : State ι E) : Op ι → Prop
  | .moveAssign i _ => (s.where_ i).all Path.empty = true
  | _ => True

/-- Whether a move overwrites no file can be computed. -/
instance (s : State ι E) : ∀ op, Decidable (Vacant s op)
  | .moveAssign i _ => inferInstanceAs (Decidable ((s.where_ i).all Path.empty = true))
  | .anonymous _ _ | .named _ _ _ _ | .moveConstruct _ _ | .destroy _ => .isTrue trivial

/-! ### The constructor -/

section Construction

omit [DecidableEq ι] in
/-- An open file ends the search for a name. -/
theorem tryNames_open (env : Env) (dir : Path) (pre : Bytes) (tries i : ℕ) {fdio : Attempt}
    (h : fdio.isOpen = true) : tryNames entry hex env dir pre tries i fdio = pure fdio := by
  cases tries with
  | zero => rfl
  | succ tries => rw [tryNames, if_pos h]

/-- `open()` creates a file that is not there, or the constructor of `Fdio` throws. -/
theorem newExclusive_cases (env : Env) (f : Path) (files : Finset E) :
    (∃ e, newExclusive entry env f files = some (.error e, files)) ∨
      (entry f.name ∉ files ∧
        newExclusive entry env f files = some (.ok true, insert (entry f.name) files)) := by
  rw [newExclusive, Prog.step_bind]
  by_cases hmem : entry f.name ∈ files
  · simp only [if_pos hmem]
    exact .inl ⟨⟨eExist, f.name⟩, rfl⟩
  · simp only [if_neg hmem]
    by_cases herr : env.openError f.name = 0
    · simp only [herr, if_true]
      exact .inr ⟨hmem, rfl⟩
    · simp only [ne_eq, herr, not_false_eq_true, if_true]
      exact .inl ⟨⟨env.openError f.name, f.name⟩, rfl⟩

/-- The constructor creates one file that was not there, at an absolute path, or throws and
creates none. The loop is left in its first round, since the constructor of `Fdio` throws. -/
theorem newNamed_cases (env : Env) (dir : Path) (pre : Bytes) (files : Finset E) :
    (∃ e, newNamed entry hex env dir pre files = some (.error e, files)) ∨
      ∃ p : Path, p.isAbsolute = true ∧ entry p.name ∉ files ∧
        newNamed entry hex env dir pre files =
          some (.ok p, insert (entry p.name) files) := by
  rw [newNamed]
  by_cases hdir : (! dir.empty && ! env.isDirectory dir) = true
  · rw [if_pos hdir]
    exact .inl ⟨_, rfl⟩
  · rw [if_neg hdir, maxTries, tryNames, if_neg Bool.false_ne_true]
    cases hresolve : resolve env.userHome env.currentDirectory (candidate hex env dir pre 0) with
    | error e => exact .inl ⟨e, rfl⟩
    | ok p =>
        rcases newExclusive_cases entry env p files with ⟨e, hthrow⟩ | ⟨hnew, hopen⟩
        · refine .inl ⟨e, ?_⟩
          exact Prog.bind_of_error (Prog.bind_of_error hthrow)
        · refine .inr ⟨p, resolve_isAbsolute hresolve, hnew, ?_⟩
          have hloop := Prog.bind_of_ok (f := fun isOpen =>
            tryNames entry hex env dir pre 99 (0 + 1) ⟨p, isOpen, 0⟩) hopen
          rw [tryNames_open entry hex env dir pre 99 (0 + 1) rfl] at hloop
          exact Prog.bind_of_ok hloop

end Construction

/-! ### Files and their owners -/

/-- The file of an object with a given `where_`. -/
def fileOf (p : Option Path) : Option E :=
  p.bind fun p => if p.empty then none else some (entry p.name)

/-- The files that the objects own. -/
def owned (s : State ι E) : ι → Option E :=
  fileOf entry ∘ s.where_

/-- The files are exactly those owned by the objects, and each has one owner. -/
structure Tidy (own : ι → Option E) (files : Finset E) : Prop where
  present : ∀ e, e ∈ files ↔ ∃ i, own i = some e
  unique : ∀ e i j, own i = some e → own j = some e → i = j

namespace Tidy

variable {own : ι → Option E} {files : Finset E}

/-- A new file with its owner. -/
theorem add (h : Tidy own files) {i : ι} {e : E} (hi : own i = none) (he : e ∉ files) :
    Tidy (Function.update own i (some e)) (insert e files) := by
  have hnew : ∀ j, own j ≠ some e := fun j hj => he ((h.present e).mpr ⟨j, hj⟩)
  have hcases : ∀ e' j, Function.update own i (some e) j = some e' ↔
      j = i ∧ e' = e ∨ own j = some e' := by
    intro e' j
    by_cases hj : j = i
    · rw [hj, Function.update_self, hi, Option.some.injEq]
      simp [eq_comm]
    · simp [hj]
  refine ⟨fun e' => ?_, fun e' j k hj hk => ?_⟩
  · simp only [Finset.mem_insert, h.present e', hcases, exists_or, exists_eq_left]
  · rcases (hcases e' j).mp hj with ⟨rfl, rfl⟩ | hj <;>
      rcases (hcases e' k).mp hk with ⟨hki, hke⟩ | hk
    · exact hki.symm
    · exact absurd hk (hnew k)
    · exact absurd (hke ▸ hj) (hnew j)
    · exact h.unique e' j k hj hk

/-- A file that is removed when its owner is destroyed. -/
theorem remove (h : Tidy own files) {i : ι} {e : E} (hi : own i = some e) :
    Tidy (Function.update own i none) (files.erase e) := by
  have hkept : ∀ e' j, Function.update own i none j = some e' ↔ own j = some e' ∧ e' ≠ e := by
    intro e' j
    rcases eq_or_ne j i with rfl | hne
    · rw [Function.update_self, hi, Option.some.injEq]
      exact iff_of_false (by simp) fun h => h.2 h.1.symm
    · rw [Function.update_of_ne hne]
      refine ⟨fun hj => ⟨hj, ?_⟩, And.left⟩
      rintro rfl
      exact hne (h.unique e' j i hj hi)
  refine ⟨fun e' => ?_, fun e' j k hj hk => ?_⟩
  · simp only [Finset.mem_erase, h.present e', hkept, exists_and_right]
    exact And.comm
  · exact h.unique e' j k ((hkept e' j).mp hj).1 ((hkept e' k).mp hk).1

omit [DecidableEq E] in
/-- The file of `r` goes over to `i`, which has none. -/
theorem move (h : Tidy own files) {i : ι} (hi : own i = none) (r : ι) :
    Tidy (Function.update (Function.update own i (own r)) r none) files := by
  have hswap : Function.update (Function.update own i (own r)) r none = own ∘ Equiv.swap i r := by
    funext k
    rw [Function.comp_apply]
    rcases eq_or_ne k r with rfl | hkr
    · rw [Function.update_self, Equiv.swap_apply_right, hi]
    · rw [Function.update_of_ne hkr]
      rcases eq_or_ne k i with rfl | hki
      · rw [Function.update_self, Equiv.swap_apply_left]
      · rw [Function.update_of_ne hki, Equiv.swap_apply_of_ne_of_ne hki hkr]
  rw [hswap]
  refine ⟨fun e => ?_, fun e j k hj hk => ?_⟩
  · rw [h.present e]
    exact (Equiv.swap i r).surjective.exists
  · exact (Equiv.swap i r).injective (h.unique e _ _ hj hk)

omit [DecidableEq E] in
/-- The file of an object that is assigned to has no owner any more. -/
theorem not_move (h : Tidy own files) {i : ι} {e : E} (hi : own i = some e) (r : ι) :
    ¬ Tidy (Function.update (Function.update own i (own r)) r none) files := by
  intro h'
  obtain ⟨j, hj⟩ := (h'.present e).mp ((h.present e).mpr ⟨i, hi⟩)
  rcases eq_or_ne j r with rfl | hjr
  · rw [Function.update_self] at hj
    cases hj
  · rw [Function.update_of_ne hjr] at hj
    rcases eq_or_ne j i with rfl | hji
    · rw [Function.update_self] at hj
      exact hjr (h.unique e j r hi hj)
    · rw [Function.update_of_ne hji] at hj
      exact hji (h.unique e j i hj hi)

end Tidy

/-! ### Steps -/

section Steps

variable {entry hex} {s s' : State ι E}

omit [DecidableEq E] in
/-- An object without a path has no file. -/
theorem fileOf_eq_none_iff (entry : Bytes → E) {p : Option Path} :
    fileOf entry p = none ↔ p.all Path.empty = true := by
  cases p with
  | none => simp [fileOf]
  | some p => cases hp : p.empty <;> simp [fileOf, hp]

omit [DecidableEq E] in
/-- A new object has the file that it created. -/
theorem owned_construct (i : ι) (stream : Bool) (p : Path) (files : Finset E) :
    owned entry (s.construct i stream p files) =
      Function.update (owned entry s) i (fileOf entry (some p)) :=
  Function.comp_update ..

omit [DecidableEq E] in
/-- A move gives the file of one object to another one. -/
theorem comp_moveWhere (i r : ι) :
    fileOf entry ∘ s.moveWhere i r =
      Function.update (Function.update (owned entry s) i (owned entry s r)) r none := by
  rw [State.moveWhere, Function.comp_update, Function.comp_update]
  rfl

/-- A destroyed object removes its file. -/
theorem destroy_tidy (h : Tidy (owned entry s) s.files) {i : ι} {p : Path}
    (hi : s.where_ i = some p) :
    Tidy (owned entry (s.destroy entry i)) (s.destroy entry i).files := by
  have hwhere : (s.destroy entry i).where_ = Function.update s.where_ i none := by
    simp only [State.destroy]
    split <;> rfl
  have howned : owned entry (s.destroy entry i) = Function.update (owned entry s) i none := by
    rw [owned, hwhere, Function.comp_update]
    rfl
  have hfile : owned entry s i = fileOf entry (some p) := congrArg (fileOf entry) hi
  rw [howned]
  cases hp : p.empty with
  | true =>
      have hfiles : (s.destroy entry i).files = s.files := by
        simp only [State.destroy, hi, Option.getD_some, hp, Bool.not_true, Bool.false_eq_true,
          if_false]
      have hnone : owned entry s i = none := by
        rw [hfile]
        simp [fileOf, hp]
      rwa [hfiles, ← hnone, Function.update_eq_self]
  | false =>
      have hfiles : (s.destroy entry i).files = s.files.erase (entry p.name) := by
        simp only [State.destroy, hi, Option.getD_some, hp, Bool.not_false, if_true]
      rw [hfiles]
      refine h.remove ?_
      rw [hfile]
      simp [fileOf, hp]

/-- A constructor creates the file of its object, or no file. -/
theorem construct_tidy (h : Tidy (owned entry s) s.files) {i : ι} (hi : s.where_ i = none)
    (stream : Bool) {p : Path} {files : Finset E}
    (hfiles : p.empty = true ∧ files = s.files ∨
      p.empty = false ∧ entry p.name ∉ s.files ∧ files = insert (entry p.name) s.files) :
    Tidy (owned entry (s.construct i stream p files)) (s.construct i stream p files).files := by
  have hnone : owned entry s i = none := congrArg (fileOf entry) hi
  rw [owned_construct]
  rcases hfiles with ⟨hp, rfl⟩ | ⟨hp, hnew, rfl⟩
  · have hfile : fileOf entry (some p) = owned entry s i := by
      rw [hnone]
      simp [fileOf, hp]
    rw [hfile, Function.update_eq_self]
    exact h
  · have hfile : fileOf entry (some p) = some (entry p.name) := by
      simp [fileOf, hp]
    rw [hfile]
    exact h.add hnone hnew

omit [DecidableEq E] in
/-- An assignment keeps the files with their owners exactly if the object that is assigned to
has none. -/
theorem moveAssign_tidy_iff (h : Tidy (owned entry s) s.files) (i r : ι) :
    Tidy (owned entry (s.moveAssign i r)) (s.moveAssign i r).files ↔
      (s.where_ i).all Path.empty = true := by
  have howned : owned entry (s.moveAssign i r) =
      Function.update (Function.update (owned entry s) i (owned entry s r)) r none :=
    comp_moveWhere i r
  rw [howned, ← fileOf_eq_none_iff entry]
  constructor
  · intro h'
    by_contra hi
    obtain ⟨e, he⟩ := Option.ne_none_iff_exists'.mp hi
    exact h.not_move he r h'
  · intro hi
    exact h.move hi r

/-- A step leaves each file with one object. -/
theorem step_tidy {op : Op ι} (h : Tidy (owned entry s) s.files) (hok : Vacant s op)
    (hstep : step entry hex s op = some s') : Tidy (owned entry s') s'.files := by
  cases op with
  | anonymous i env =>
      obtain ⟨hi, rfl⟩ := Machine.of_guard hstep
      rw [State.anonymous]
      split
      · exact construct_tidy h hi true (.inl ⟨rfl, rfl⟩)
      · exact h
  | named i env dir pre =>
      obtain ⟨hi, hnamed⟩ := Option.ite_none_right_eq_some.mp hstep
      rw [State.named] at hnamed
      rcases newNamed_cases entry hex env dir pre s.files with
        ⟨e, hthrow⟩ | ⟨p, habs, hnew, hcreate⟩
      · rw [hthrow, Option.map_some, Option.some.injEq] at hnamed
        subst hnamed
        exact h
      · rw [hcreate, Option.map_some, Option.some.injEq] at hnamed
        subst hnamed
        exact construct_tidy h hi env.stream (.inr ⟨empty_of_isAbsolute habs, hnew, rfl⟩)
  | moveConstruct i r =>
      obtain ⟨⟨hi, -⟩, rfl⟩ := Machine.of_guard hstep
      have howned : owned entry (s.moveConstruct i r) =
          Function.update (Function.update (owned entry s) i (owned entry s r)) r none :=
        comp_moveWhere i r
      rw [howned]
      exact h.move (congrArg (fileOf entry) hi) r
  | moveAssign i r =>
      obtain ⟨-, rfl⟩ := Machine.of_guard hstep
      exact (moveAssign_tidy_iff h i r).mpr hok
  | destroy i =>
      obtain ⟨hi, rfl⟩ := Machine.of_guard hstep
      obtain ⟨p, hp⟩ := Option.ne_none_iff_exists'.mp hi
      exact destroy_tidy h hp

end Steps

/-! ### Every run -/

/-- **The files on the disk.** In a run in which nothing is moved over the path of a file, the
temporary files are exactly those of the objects, and each has one owner. -/
theorem run_tidy {s : State ι E} (h : (machine entry hex).Reach Vacant s) :
    Tidy (owned entry s) s.files := by
  let start : State ι E := (machine entry hex).start
  have hstart : Tidy (owned entry start) start.files := by
    refine ⟨fun e => ?_, fun e i j hi _ => ?_⟩
    · simp [start, machine, owned, fileOf]
    · cases hi
  refine Machine.Reach.invariant (I := fun s => Tidy (owned entry s) s.files) hstart ?_ h
  intro s op s' hs hok hnext
  exact step_tidy hs hok hnext

/-- The sixteen digits of `Format::hex` for a 64-bit number. -/
def hexDigits (z : UInt64) : Bytes :=
  (List.range 16).map fun k => hexDigit (z.toNat / 16 ^ (15 - k) % 16)

/-- A system on which everything succeeds and the device gives the same values again. -/
def calmEnv (x y : UInt32) : Env where
  isDirectory _ := true
  userHome _ := ⟨[]⟩
  currentDirectory := ⟨bytes "/home"⟩
  device _ := (x, y)
  openError _ := 0
  stream := true

/-- An object is made, moved twice and destroyed, and another one is left. -/
theorem run_tidy_moves : ∃ s : State ℕ Bytes,
    (machine id hexDigits).Reach Vacant s ∧ s.files = {bytes "/tmp/a0000000000000005"} ∧
      Tidy (owned id s) s.files := by
  let ops : List (Op ℕ) := [.named 0 (calmEnv 0 4) ⟨bytes "/tmp"⟩ (bytes "a"),
    .named 1 (calmEnv 0 5) ⟨bytes "/tmp"⟩ (bytes "a"), .moveConstruct 2 0, .moveAssign 0 2,
    .destroy 0, .moveAssign 2 1]
  obtain ⟨s, hs⟩ : ∃ s, (machine id hexDigits).replay Vacant (machine id hexDigits).start ops =
      some s := Option.isSome_iff_exists.mp (by decide +kernel)
  have hreach := Machine.Reach.of_replay ops .start hs
  refine ⟨s, hreach, ?_, run_tidy id hexDigits hreach⟩
  have hfiles : ((machine id hexDigits).replay Vacant (machine id hexDigits).start ops).map
      State.files = some {bytes "/tmp/a0000000000000005"} := by decide +kernel
  rw [hs, Option.map_some, Option.some.injEq] at hfiles
  exact hfiles

/-- A second temporary file that is moved over a first one leaves the first one on the disk
without an owner. -/
theorem run_tidy_fails :
    ¬ ∀ (entry : Bytes → Bytes) (hex : UInt64 → Bytes) (s : State ℕ Bytes),
      (machine entry hex).Reachable s → Tidy (owned entry s) s.files := by
  intro h
  let ops : List (Op ℕ) := [.named 0 (calmEnv 0 4) ⟨bytes "/tmp"⟩ (bytes "a"),
    .named 1 (calmEnv 0 5) ⟨bytes "/tmp"⟩ (bytes "a")]
  let ran := (machine id hexDigits).replay (fun _ _ => True) (machine id hexDigits).start ops
  obtain ⟨s, hs⟩ : ∃ s, ran = some s := Option.isSome_iff_exists.mp (by decide +kernel)
  have hreach : (machine id hexDigits).Reachable s := Machine.Reach.of_replay ops .start hs
  have hwhere : ran.map (fun s => (s.where_ 0, s.where_ 1)) =
      some (some ⟨bytes "/tmp/a0000000000000004"⟩, some ⟨bytes "/tmp/a0000000000000005"⟩) := by
    decide +kernel
  rw [hs, Option.map_some, Option.some.injEq, Prod.mk.injEq] at hwhere
  have hstep : (machine id hexDigits).next s (.moveAssign 0 1) = some (s.moveAssign 0 1) :=
    if_pos (by rw [hwhere.1, hwhere.2]; exact ⟨Option.some_ne_none _, Option.some_ne_none _⟩)
  have hafter := h id hexDigits _ (hreach.step trivial hstep)
  have hvacant := (moveAssign_tidy_iff (h id hexDigits s hreach) 0 1).mp hafter
  rw [hwhere.1] at hvacant
  revert hvacant
  decide

end TempFile

end RsIo
