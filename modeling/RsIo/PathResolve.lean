import RsIo.Growing
import RsIo.PathRelative
import RsIo.TempFile

/-!
# Resolving Paths

`Path::resolve` makes a path absolute, `Path::resolve_symlink` reads where a link leads. The
names come from the system, in buffers that are made larger until they fit. What a name stands
for may change between two calls, so each call has a number.

A name from the system is a C string, and is given here by the bytes in front of its zero.

## Main results

* `resolveSymlink_whole`: what is read is never a part of a target, however long it is.
* `resolveIn_returns`: what a path is resolved to, and that it is then its own resolution.
* `relativeTo_resolveIn`: a path that was resolved is found again from the current directory.
-/

namespace RsIo

open StdString CommonPrefix

namespace Path

/-! ### Links -/

/-- One round of the loop of `Path::resolve_symlink`, with what `readlink()` finds, of which it
writes as much as fits in a buffer of `n` bytes. -/
def readLink (p : Path) (found : Except ℕ Bytes) (n : ℕ) : Option (Except IoError Path) :=
  match found with
  | .error err =>
      if err = eInval ∨ err = eNoEnt ∨ err = eNotDir then some (.ok p)
      else some (.error ⟨err, p.name⟩)
  | .ok target =>
      let buf := target.take n
      if buf.length ≤ n - 2 then some (.ok (ofBytes buf)) else none

/-- `Path::resolve_symlink`, where call number `i` finds `link i`. -/
def resolveSymlink (p : Path) (link : ℕ → Except ℕ Bytes) (rounds : ℕ) :
    Option (Except IoError Path) :=
  Growing.run (2 * ·) (fun i => readLink p (link i)) rounds 256

/-- Where a path leads. What is no link leads to itself. -/
def leadsTo (p : Path) : Except ℕ Bytes → Except IoError Path
  | .error err =>
      if err = eInval ∨ err = eNoEnt ∨ err = eNotDir then .ok p else .error ⟨err, p.name⟩
  | .ok target => .ok (ofBytes target)

/-- How large the buffer has to be for what `readlink()` finds. -/
def linkRoom : Except ℕ Bytes → ℕ
  | .error _ => 0
  | .ok target => target.length + 2

/-- The buffer is large enough, or has to grow. -/
theorem readLink_eq {p : Path} {found : Except ℕ Bytes} {n : ℕ} (hn : 2 ≤ n) :
    readLink p found n = if linkRoom found ≤ n then some (leadsTo p found) else none := by
  cases found with
  | error err =>
      rw [readLink, linkRoom, if_pos n.zero_le, leadsTo]
      split <;> rfl
  | ok target =>
      have hroom : linkRoom (.ok target) = target.length + 2 := rfl
      simp only [readLink, List.length_take]
      split
      next hfits =>
        rw [if_pos (by omega), leadsTo, List.take_of_length_le (by omega)]
      next hfits => rw [if_neg (by omega)]

/-- **Links are read whole.** If one of the calls has room for what it finds, the loop ends. The
result is all that the last call finds, for which the calls before it had no room. -/
theorem resolveSymlink_whole (p : Path) (link : ℕ → Except ℕ Bytes) {rounds k : ℕ}
    (hk : k < rounds) (hroom : linkRoom (link k) ≤ 2 ^ k * 256) :
    ∃ j ≤ k, resolveSymlink p link rounds = some (leadsTo p (link j)) ∧
      linkRoom (link j) ≤ 2 ^ j * 256 ∧ ∀ i < j, 2 ^ i * 256 < linkRoom (link i) := by
  have hcall : ∀ i m, 256 ≤ m → readLink p (link i) m =
      if linkRoom (link i) ≤ m then some (leadsTo p (link i)) else none :=
    fun i m hm => readLink_eq (le_trans (by decide) hm)
  exact Growing.run_double hcall hk hroom

/-- A link to a name of 300 bytes. -/
private def longLink (_ : ℕ) : Except ℕ Bytes := .ok (List.replicate 300 dot)

/-- The target of this link is read in the second round. -/
theorem resolveSymlink_whole_long :
    ∃ j ≤ 1, resolveSymlink ⟨bytes "a"⟩ longLink 2 = some (leadsTo ⟨bytes "a"⟩ (longLink j)) ∧
      linkRoom (longLink j) ≤ 2 ^ j * 256 ∧ ∀ i < j, 2 ^ i * 256 < linkRoom (longLink i) :=
  resolveSymlink_whole ⟨bytes "a"⟩ longLink (by decide) (by
    rw [longLink, linkRoom, List.length_replicate]
    decide)

/-! ### Directories from the system -/

/-- A record of the user database, and how large a buffer `getpwuid_r()` and `getpwnam_r()`
need for it. -/
structure Passwd where
  name : Option Bytes
  dir : Option Bytes
  room : ℕ

/-- What the system answers: the variables `HOME` and `USER`, and what each call finds in the user
database, for the effective user or for a name, and as the current directory. -/
structure System where
  home : Option Bytes
  user : Option Bytes
  passwd : Option Bytes → ℕ → Except ℕ (Option Passwd)
  cwd : ℕ → Except ℕ Bytes

/-- A pointer to a string that is neither null nor points to a zero. -/
def given (ptr : Option Bytes) : Option Bytes := ptr.filter fun s => ! s.isEmpty

/-- The directory of users whose own one is not known. -/
def homes : Path := ⟨bytes "/home"⟩

/-- One round of the loop of `get_user_home`. Other errors than `ERANGE` leave the pointer to the
record null. -/
def lookUp (found : Except ℕ (Option Passwd)) (n : ℕ) : Option (Option Passwd) :=
  match found with
  | .error rc => if rc = eRange then none else some none
  | .ok none => some none
  | .ok (some pwd) => if n < pwd.room then none else some (some pwd)

/-- What `get_user_home` makes of a record. -/
def homeOf (s : System) (user : Bytes) (pwd : Option Passwd) : Except IoError Path :=
  match given (pwd.bind Passwd.dir) with
  | some dir => .ok (ofBytes dir)
  | none =>
      let user : Option Bytes :=
        if user = [] then (given s.user).or (given (pwd.bind Passwd.name)) else some user
      match user with
      | some user => .ok (join homes (ofBytes user))
      | none => .error ⟨eNoEnt, []⟩

/-- The user that the database is asked for. -/
def wanted (user : Bytes) : Option Bytes := if user = [] then none else some user

/-- `get_user_home`. -/
def getUserHome (s : System) (rounds : ℕ) (user : Bytes) : Option (Except IoError Path) :=
  match if user = [] then given s.home else none with
  | some envptr => some (.ok (ofBytes envptr))
  | none =>
      (Growing.run (2 * ·) (fun i => lookUp (s.passwd (wanted user) i)) rounds 1024).map
        (homeOf s user)

/-- One round of the loop of `get_current_directory`. A name that does not fit is an error of
`getcwd()`. -/
def getCwd (found : Except ℕ Bytes) (checked : Bool) (n : ℕ) : Option (Except IoError Path) :=
  let rc := found.bind fun name => if n ≤ name.length then .error eRange else .ok name
  match rc with
  | .ok name => some (.ok (ofBytes name))
  | .error err =>
      if err = eRange then none
      else if checked then some (.error ⟨err, []⟩)
      else some (.ok ⟨[]⟩)

/-- `get_current_directory`. -/
def getCurrentDirectory (s : System) (rounds : ℕ) (checked : Bool) :
    Option (Except IoError Path) :=
  Growing.run (2 * ·) (fun i => getCwd (s.cwd i) checked) rounds 256

/-- The last lines of `Path::resolve`. -/
def checkResolved (p result : Path) : Except IoError Path :=
  let result := if result.empty then p else result
  if result.isAbsolute then .ok result else .error ⟨eNoEnt, p.name⟩

/-- `Path::resolve`, with the calls of the system that it makes. -/
def resolveIn (s : System) (rounds : ℕ) (p : Path) : ExceptT IoError Option Path := do
  let result : Path ←
    if p.empty then ExceptT.mk (getCurrentDirectory s rounds false)
    else do
      let result : Path ←
        if p.filename.head? = some tilde then do
          let pos := findIf isSlash p.filename 0
          let user := substr p.filename 1 (pos.getD p.filename.length - 1)
          let tail := (pos.map fun q => p.filename.drop (q + 1)).getD []
          let home ← ExceptT.mk (getUserHome s rounds user)
          pure (if home.empty then ⟨[]⟩ else join home (ofBytes tail))
        else pure ⟨[]⟩
      if result.empty && p.isRelative then do
        let cwd ← ExceptT.mk (getCurrentDirectory s rounds false)
        pure (if cwd.empty then result else join cwd p)
      else pure result
  ExceptT.mk (some (checkResolved p result))

/-! ### What the loops find -/

/-- How large the buffer has to be for a current directory. -/
def cwdRoom : Except ℕ Bytes → ℕ
  | .error _ => 0
  | .ok name => name.length + 1

/-- The current directory as a path. -/
def cwdOf (checked : Bool) : Except ℕ Bytes → Except IoError Path
  | .error err => if checked then .error ⟨err, []⟩ else .ok ⟨[]⟩
  | .ok name => .ok (ofBytes name)

/-- The record that is found. -/
def record : Except ℕ (Option Passwd) → Option Passwd
  | .error _ => none
  | .ok pwd => pwd

/-- How large the buffer has to be for a record. -/
def recordRoom (found : Except ℕ (Option Passwd)) : ℕ := ((record found).map Passwd.room).getD 0

/-- `ERANGE` stands for a buffer that is too small only, and in some round the buffer has room for
what the call finds. -/
structure System.Fits (s : System) (rounds : ℕ) : Prop where
  cwd_ne : ∀ i, s.cwd i ≠ .error eRange
  passwd_ne : ∀ user i, s.passwd user i ≠ .error eRange
  cwd_room : ∃ k < rounds, cwdRoom (s.cwd k) ≤ 2 ^ k * 256
  passwd_room : ∀ user, ∃ k < rounds, recordRoom (s.passwd user k) ≤ 2 ^ k * 1024

/-- What `get_user_home` may give. -/
inductive HomeOf (s : System) (user : Bytes) : Except IoError Path → Prop
  | environment {envptr : Bytes} : user = [] → given s.home = some envptr →
      HomeOf s user (.ok (ofBytes envptr))
  | database (i : ℕ) : (user = [] → given s.home = none) →
      HomeOf s user (homeOf s user (record (s.passwd (wanted user) i)))

/-- The buffer is large enough, or has to grow. -/
theorem getCwd_eq {found : Except ℕ Bytes} (h : found ≠ .error eRange) (checked : Bool) (n : ℕ) :
    getCwd found checked n = if cwdRoom found ≤ n then some (cwdOf checked found) else none := by
  cases found with
  | error err =>
      have hne : err ≠ eRange := fun he => h (he ▸ rfl)
      rw [cwdRoom, if_pos n.zero_le]
      cases checked <;> simp [getCwd, cwdOf, Except.bind, hne]
  | ok name =>
      have hroom : cwdRoom (.ok name) = name.length + 1 := rfl
      rw [getCwd, Except.bind]
      by_cases hfits : n ≤ name.length
      · rw [if_pos hfits, if_neg (by omega)]
        rfl
      · rw [if_neg hfits, if_pos (by omega)]
        rfl

/-- The buffer is large enough, or has to grow. -/
theorem lookUp_eq {found : Except ℕ (Option Passwd)} (h : found ≠ .error eRange) (n : ℕ) :
    lookUp found n = if recordRoom found ≤ n then some (record found) else none := by
  cases found with
  | error rc =>
      have hne : rc ≠ eRange := fun he => h (he ▸ rfl)
      have hroom : recordRoom (.error rc) = 0 := rfl
      rw [lookUp, if_neg hne, hroom, record, if_pos n.zero_le]
  | ok pwd =>
      cases pwd with
      | none => exact (if_pos n.zero_le).symm
      | some pwd =>
          have hroom : recordRoom (.ok (some pwd)) = pwd.room := rfl
          rw [lookUp, hroom, record]
          by_cases hfits : n < pwd.room
          · rw [if_pos hfits, if_neg (by omega)]
          · rw [if_neg hfits, if_pos (by omega)]

section Finds

variable {s : System} {rounds : ℕ}

/-- The current directory is found, and not a part of its name. -/
theorem getCurrentDirectory_whole (hs : s.Fits rounds) (checked : Bool) :
    ∃ i, getCurrentDirectory s rounds checked = some (cwdOf checked (s.cwd i)) := by
  obtain ⟨k, hk, hroom⟩ := hs.cwd_room
  have hcall : ∀ i m, 256 ≤ m → getCwd (s.cwd i) checked m =
      if cwdRoom (s.cwd i) ≤ m then some (cwdOf checked (s.cwd i)) else none :=
    fun i m _ => getCwd_eq (hs.cwd_ne i) checked m
  obtain ⟨j, -, hrun, -⟩ := Growing.run_double hcall hk hroom
  exact ⟨j, hrun⟩

/-- The home of a user is found if the record fits. -/
theorem getUserHome_whole (hs : s.Fits rounds) (user : Bytes) :
    ∃ r, getUserHome s rounds user = some r ∧ HomeOf s user r := by
  rw [getUserHome]
  split
  next envptr henv =>
    rw [Option.ite_none_right_eq_some] at henv
    exact ⟨_, rfl, .environment henv.1 henv.2⟩
  next henv =>
    obtain ⟨k, hk, hroom⟩ := hs.passwd_room (wanted user)
    have hcall : ∀ i m, 1024 ≤ m → lookUp (s.passwd (wanted user) i) m =
        if recordRoom (s.passwd (wanted user) i) ≤ m then
          some (record (s.passwd (wanted user) i)) else none :=
      fun i m _ => lookUp_eq (hs.passwd_ne _ i) m
    obtain ⟨j, -, hrun, -⟩ := Growing.run_double hcall hk hroom
    refine ⟨_, by rw [hrun, Option.map_some], .database j fun huser => ?_⟩
    rwa [if_pos huser] at henv

end Finds

/-! ### Names that are not empty -/

/-- A path is empty if its name is. -/
theorem ofBytes_empty (f : Bytes) : (ofBytes f).empty = f.isEmpty := by
  have hhead := head?_makeCanonical f
  rw [empty, Bool.eq_iff_iff, List.isEmpty_iff, List.isEmpty_iff, ← List.head?_eq_none_iff,
    ← List.head?_eq_none_iff]
  exact iff_of_eq (congrArg (· = none) hhead)

/-- Joining to an empty path changes nothing. -/
theorem join_of_empty {c : Path} (h : c.empty = true) (p : Path) : join c p = p := by
  rw [join, h, Bool.true_or, if_pos rfl]

/-- A joined path is empty if both are. -/
theorem join_empty (p q : Path) : (join p q).empty = (p.empty && q.empty) := by
  rw [join]
  split
  next h =>
    rcases Bool.or_eq_true_iff.mp h with hp | hq
    · rw [hp, Bool.true_and]
    · rw [empty_of_isAbsolute hq, Bool.and_false]
  next h =>
    rw [Bool.or_eq_true, not_or, Bool.not_eq_true, Bool.not_eq_true] at h
    have hp : p.filename ≠ [] := List.isEmpty_eq_false_iff.mp h.1
    rw [h.1, Bool.false_and, ofBytes_empty, List.isEmpty_eq_false_iff]
    split <;> simp [hp]

/-- A string that is used is not empty. -/
theorem given_eq_some {ptr : Option Bytes} {f : Bytes} (h : given ptr = some f) : f ≠ [] := by
  rw [given, Option.filter_eq_some_iff] at h
  simpa using h.2

/-- The directory of a user is a path that is not empty. -/
theorem HomeOf.not_empty {s : System} {user : Bytes} {h : Path} (hh : HomeOf s user (.ok h)) :
    h.empty = false := by
  generalize hr : (Except.ok h : Except IoError Path) = r at hh
  cases hh with
  | @environment envptr _ henv =>
      obtain rfl := Except.ok.inj hr
      rw [ofBytes_empty, List.isEmpty_eq_false_iff]
      exact given_eq_some henv
  | database i _ =>
      rw [homeOf] at hr
      split at hr
      next dir hdir =>
        obtain rfl := Except.ok.inj hr
        rw [ofBytes_empty, List.isEmpty_eq_false_iff]
        exact given_eq_some hdir
      next =>
        dsimp only at hr
        split at hr
        · obtain rfl := Except.ok.inj hr
          rw [join_empty]
          rfl
        · cases hr

/-! ### What a path is resolved to -/

/-- The name of a user in front of the rest of a file name. -/
def IsUser (user rest : Bytes) : Prop := slash ∉ user ∧ (rest = [] ∨ ∃ tail, rest = slash :: tail)

/-- The directory that a path is in, and the path itself, if it has no name. -/
def inside (c p : Path) : Path := if p.empty then c else join c p

/-- What a path is resolved to. -/
inductive Resolved (s : System) (p : Path) : Except IoError Path → Prop
  | absolute : p.isAbsolute = true → Resolved s p (.ok p)
  | home {user rest : Bytes} {h : Path} : p.filename = tilde :: (user ++ rest) → IsUser user rest →
      HomeOf s user (.ok h) → Resolved s p (checkResolved p (join h (ofBytes (rest.tail))))
  | homeless {user rest : Bytes} {e : IoError} : p.filename = tilde :: (user ++ rest) →
      IsUser user rest → HomeOf s user (.error e) → Resolved s p (.error e)
  | relative {i : ℕ} {c : Bytes} : p.isAbsolute = false → p.filename.head? ≠ some tilde →
      s.cwd i = .ok c → Resolved s p (checkResolved p (inside (ofBytes c) p))
  | nowhere {i err : ℕ} : p.isAbsolute = false → p.filename.head? ≠ some tilde →
      s.cwd i = .error err → Resolved s p (.error ⟨eNoEnt, p.name⟩)

section Resolve

variable {s : System} {rounds : ℕ} {p : Path}

/-- No byte of a name without a slash counts as one. -/
theorem isSlash_of_notMem {f : Bytes} (h : slash ∉ f) : ∀ c ∈ f, isSlash c = false := by
  intro c hc
  rw [isSlash, beq_eq_false_iff_ne]
  rintro rfl
  exact h hc

/-- How a name with a user is taken apart. -/
theorem findIf_user {user rest f : Bytes} (hf : f = tilde :: (user ++ rest))
    (h : IsUser user rest) :
    substr f 1 ((findIf isSlash f 0).getD f.length - 1) = user ∧
      ((findIf isSlash f 0).map fun q => f.drop (q + 1)).getD [] = rest.tail := by
  have hnone : ∀ c ∈ tilde :: user, isSlash c = false :=
    isSlash_of_notMem fun hmem => (List.mem_cons.mp hmem).elim (by decide) h.1
  rcases h.2 with rfl | ⟨tail, rfl⟩
  · rw [List.append_nil] at hf
    rw [hf, findIf_zero_none hnone]
    simp [substr]
  · have hpos := findIf_zero_cons tail hnone (show isSlash slash = true from rfl)
    rw [hf, ← List.cons_append, hpos]
    simp [substr]

/-- An absolute path is returned as it is. -/
theorem resolveIn_absolute (h : p.isAbsolute = true) :
    (resolveIn s rounds p).run = some (.ok p) := by
  have hempty := empty_of_isAbsolute h
  have hhead : p.filename.head? = some slash := by simpa [isAbsolute] using h
  have hrel : p.isRelative = false := by simp [isRelative, h]
  have htilde : some slash ≠ some tilde := by decide
  rw [resolveIn, hempty, hhead, if_neg Bool.false_ne_true, if_neg htilde, hrel]
  simp [checkResolved, h, empty]

/-- What `~` stands for is put in front of the rest. The current directory is not looked at. -/
theorem resolveIn_home {user rest : Bytes} {r : Except IoError Path}
    (hname : p.filename = tilde :: (user ++ rest)) (huser : IsUser user rest)
    (hrun : getUserHome s rounds user = some r) (hr : HomeOf s user r) :
    (resolveIn s rounds p).run =
      some (r.bind fun h => checkResolved p (join h (ofBytes (rest.tail)))) := by
  obtain ⟨hfront, hback⟩ := findIf_user hname huser
  have hempty : p.empty = false := by simp [empty, hname]
  have hhead : p.filename.head? = some tilde := by rw [hname, List.head?_cons]
  rw [resolveIn, hempty, if_neg Bool.false_ne_true, if_pos hhead]
  simp only [hfront, hback, hrun]
  cases r with
  | error e => rfl
  | ok h =>
      have hh := hr.not_empty
      have hjoin : (join h (ofBytes (rest.tail))).empty = false := by
        rw [join_empty, hh, Bool.false_and]
      simp [hh, hjoin, ExceptT.run_bind, Except.bind]

/-- Another path is put behind the current directory. -/
theorem resolveIn_relative {c : Path} (habs : p.isAbsolute = false)
    (htilde : p.filename.head? ≠ some tilde)
    (hcwd : getCurrentDirectory s rounds false = some (.ok c)) :
    (resolveIn s rounds p).run = some (checkResolved p (inside c p)) := by
  have hnil : (⟨[]⟩ : Path).empty = true := rfl
  rw [resolveIn, inside, hcwd]
  cases hempty : p.empty with
  | true => simp [ExceptT.run_bind]
  | false =>
      have hrel : p.isRelative = true := by
        simp [isRelative, hempty, habs, isDriveAbsolute, isDriveRelative]
      rw [if_neg Bool.false_ne_true, if_neg htilde]
      cases hc : c.empty with
      | true =>
          have hjoin := join_of_empty hc p
          simp [ExceptT.run_bind, hrel, hc, hjoin, checkResolved, hempty, hnil]
      | false => simp [ExceptT.run_bind, hrel, hc, hnil]

/-- Where the directories are found, a path is resolved as it is with these given. -/
theorem resolveIn_eq {userHome : Bytes → Path} {cwd : Path}
    (hhome : ∀ user, getUserHome s rounds user = some (.ok (userHome user)))
    (hcwd : getCurrentDirectory s rounds false = some (.ok cwd)) (p : Path) :
    (resolveIn s rounds p).run = some (resolve userHome cwd p) := by
  have hlast : ∀ r : Path, (if r.empty && p.isRelative then (do
      let cwd ← ExceptT.mk (some (Except.ok cwd))
      let result ← pure (if cwd.empty then r else join cwd p)
      ExceptT.mk (some (checkResolved p result)))
      else (do
        let result ← pure r
        ExceptT.mk (some (checkResolved p result))) : ExceptT IoError Option Path).run =
      some (checkResolved p
        (if r.empty && p.isRelative && ! cwd.empty then join cwd p else r)) := by
    intro r
    cases r.empty <;> cases p.isRelative <;> cases h : cwd.empty <;> simp [ExceptT.run_bind, h]
  rw [resolveIn, resolve, hcwd]
  simp only [hhome]
  cases p.empty with
  | true => simp [ExceptT.run_bind, checkResolved]
  | false =>
      by_cases htilde : p.filename.head? = some tilde
      · simp only [htilde, if_true, Bool.false_eq_true, if_false]
        exact hlast _
      · simp only [htilde, Bool.false_eq_true, if_false]
        exact hlast _

/-- A name begins with a user, perhaps with an empty one. -/
theorem exists_user (f : Bytes) : ∃ user rest, f = user ++ rest ∧ IsUser user rest := by
  by_cases h : slash ∈ f
  · obtain ⟨user, tail, hf, huser⟩ := List.eq_append_cons_of_mem h
    exact ⟨user, slash :: tail, hf, huser, .inr ⟨tail, rfl⟩⟩
  · exact ⟨f, [], (List.append_nil f).symm, h, .inl rfl⟩

/-- A path that is returned is absolute. -/
theorem checkResolved_isAbsolute {q r : Path} (h : checkResolved p r = .ok q) :
    q.isAbsolute = true := by
  simp only [checkResolved] at h
  generalize (if r.empty = true then p else r) = t at h
  split at h
  next habs =>
    obtain rfl := Except.ok.inj h
    exact habs
  next => cases h

/-- A path that stays relative is an error. -/
theorem checkResolved_of_not_absolute {r : Path} (hp : p.isAbsolute = false)
    (hr : r.empty = true) : checkResolved p r = .error ⟨eNoEnt, p.name⟩ := by
  simp [checkResolved, hp, hr]

/-- A resolved path is absolute. -/
theorem Resolved.isAbsolute {q : Path} {r : Except IoError Path} (h : Resolved s p r)
    (hr : r = .ok q) : q.isAbsolute = true := by
  cases h with
  | absolute habs =>
      obtain rfl := Except.ok.inj hr
      exact habs
  | home => exact checkResolved_isAbsolute hr
  | homeless => cases hr
  | relative => exact checkResolved_isAbsolute hr
  | nowhere => cases hr

/-- **Resolving paths.** If the names from the system fit in the buffers at some time, every path
is resolved or an error is thrown. A path that was resolved is absolute, and its own
resolution. -/
theorem resolveIn_returns (hs : s.Fits rounds) (p : Path) :
    ∃ r, (resolveIn s rounds p).run = some r ∧ Resolved s p r ∧
      ∀ q, r = .ok q → q.isAbsolute = true ∧ (resolveIn s rounds q).run = some (.ok q) := by
  suffices h : ∃ r, (resolveIn s rounds p).run = some r ∧ Resolved s p r by
    obtain ⟨r, hrun, hr⟩ := h
    refine ⟨r, hrun, hr, fun q hq => ?_⟩
    have habs := hr.isAbsolute hq
    exact ⟨habs, resolveIn_absolute habs⟩
  by_cases habs : p.isAbsolute = true
  · exact ⟨_, resolveIn_absolute habs, .absolute habs⟩
  rw [Bool.not_eq_true] at habs
  by_cases htilde : p.filename.head? = some tilde
  · obtain ⟨f, hf⟩ := List.head?_eq_some_iff.mp htilde
    obtain ⟨user, rest, rfl, huser⟩ := exists_user f
    obtain ⟨r, hrun, hr⟩ := getUserHome_whole hs user
    refine ⟨_, resolveIn_home hf huser hrun hr, ?_⟩
    cases r with
    | error e => exact .homeless hf huser hr
    | ok h => exact .home hf huser hr
  · obtain ⟨i, hcwd⟩ := getCurrentDirectory_whole hs false
    cases hfound : s.cwd i with
    | ok c =>
        rw [hfound] at hcwd
        exact ⟨_, resolveIn_relative habs htilde hcwd, .relative habs htilde hfound⟩
    | error err =>
        rw [hfound] at hcwd
        refine ⟨_, resolveIn_relative habs htilde hcwd, ?_⟩
        have hnowhere : Resolved s p (.error ⟨eNoEnt, p.name⟩) := .nowhere habs htilde hfound
        rw [inside]
        split
        next => rwa [checkResolved_of_not_absolute habs rfl]
        next =>
          have hjoin : join ⟨[]⟩ p = p := join_of_empty rfl p
          have hcheck : checkResolved p p = .error ⟨eNoEnt, p.name⟩ := by
            simp [checkResolved, habs]
          rwa [hjoin, hcheck]

end Resolve

/-- A system on which nothing is unusual. -/
private def plainSystem : System where
  home := some (bytes "/home/u")
  user := none
  passwd _ _ := .ok none
  cwd _ := .ok (bytes "/tmp")

/-- Its strings fit into the buffers of the first round. -/
private theorem plainSystem_fits : plainSystem.Fits 1 where
  cwd_ne i h := by cases h
  passwd_ne user i h := by cases h
  cwd_room := ⟨0, Nat.one_pos, by decide⟩
  passwd_room user := ⟨0, Nat.one_pos, Nat.zero_le _⟩

/-- The path `~/a` is resolved. -/
theorem resolveIn_returns_home :
    ∃ r, (resolveIn plainSystem 1 ⟨bytes "~/a"⟩).run = some r ∧
      Resolved plainSystem ⟨bytes "~/a"⟩ r ∧
      ∀ q, r = .ok q → q.isAbsolute = true ∧ (resolveIn plainSystem 1 q).run = some (.ok q) :=
  resolveIn_returns plainSystem_fits ⟨bytes "~/a"⟩

/-! ### Back to the current directory -/

namespace Parts

/-- What is left of a path that was joined to its base. -/
theorem elems_relativeTo_join {b q : Parts} (hb : ¬ b.IsEmpty) (hq : q.root = 0) :
    ((b.join q).relativeTo b).elems =
      if q.elems.filter keeps = [] then [[dot]] else q.elems.filter keeps := by
  have hcuts : mismatch b.elems (b.join q).elems = b.elems.length := by
    have hsplit := mismatch_append b.elems [] (q.elems.filter keeps)
    rw [List.append_nil] at hsplit
    rw [elems_join hb hq, hsplit, mismatch, Nat.add_zero]
    simp
  have hups : (ups 0).IsEmpty := ⟨rfl, rfl⟩
  have hrest : ((b.join q).behind b.elems.length).elems = q.elems.filter keeps := by
    rw [behind]
    dsimp only
    rw [elems_join hb hq, List.drop_left]
  simp only [relativeTo, hcuts, Nat.sub_self, join_of_isEmpty _ hups]
  by_cases hnil : q.elems.filter keeps = []
  · rw [if_pos (show Parts.IsEmpty _ from ⟨rfl, hrest.trans hnil⟩), if_pos hnil]
    rfl
  · rw [if_neg (fun h : Parts.IsEmpty _ => hnil (hrest.symm.trans h.2)), if_neg hnil, hrest]

/-- Two relative paths are the same if their elements are. -/
theorem path_eq_iff {p q : Parts} (hroot : p.root = q.root) : p.path = q.path ↔ p.elems = q.elems :=
  ⟨fun h => congrArg Parts.elems (name_injective (congrArg Path.filename h)),
    fun h => congrArg path (Parts.ext hroot h)⟩

/-- A path that was joined to its base is found again from there, if it is not one of several
elements that begins with `.`. -/
theorem relativeTo_join_iff {b q : Parts} (hb : ¬ b.IsEmpty) (hq : q.root = 0)
    (hne : q.elems ≠ []) :
    ((b.join q).relativeTo b).path = q.path ↔
      (q.breakdown.head? = some [dot] → q.path = ⟨[dot]⟩) := by
  have hdot : keeps [dot] = false := rfl
  have hsingle : (single [dot] named_dot).path = ⟨[dot]⟩ := congrArg Path.mk (name_single named_dot)
  rw [path_eq_iff ((root_relativeTo _ b).trans hq.symm), elems_relativeTo_join hb hq,
    ← dot_mem_iff, ← hsingle, path_eq_iff (q := single [dot] named_dot) hq]
  change _ ↔ ([dot] ∈ q.elems → q.elems = [[dot]])
  by_cases hmem : [dot] ∈ q.elems
  · rw [forall_prop_of_true hmem]
    split
    next => exact eq_comm
    next hnil =>
      refine iff_of_false (fun h => ?_) fun h => hnil (by rw [h]; rfl)
      rw [← h, List.mem_filter] at hmem
      cases hdot.symm.trans hmem.2
  · have hall : q.elems.filter keeps = q.elems := by
      refine List.filter_eq_self.mpr fun e he => keeps_iff.mpr ⟨(q.named e he).1, ?_⟩
      rintro rfl
      exact hmem he
    rw [hall, if_neg hne]
    exact iff_of_true rfl fun h => absurd h hmem

end Parts

/-- **The way back.** While the current directory stays the same, a relative path that is resolved
is found again from the current directory, exactly if it is not one of several elements that
begins with `.`. -/
theorem relativeTo_resolveIn {s : System} {rounds : ℕ} (hs : s.Fits rounds) {c : Bytes}
    (hcwd : ∀ i, s.cwd i = .ok c) (habs : c.head? = some slash)
    (hc : ofBytes (ofBytes c).name = ofBytes c) {p : Path} (hp : ofBytes p.name = p)
    (hrel : p.isRelative = true) (htilde : p.filename.head? ≠ some tilde) :
    ∃ q base, (resolveIn s rounds p).run = some (.ok q) ∧
      getCurrentDirectory s rounds true = some (.ok base) ∧
      (q.relativeTo base = .ok p ↔ (p.breakdown.head? = some [dot] → p = ⟨[dot]⟩)) := by
  have hbase : ∀ checked, getCurrentDirectory s rounds checked = some (.ok (ofBytes c)) := by
    intro checked
    obtain ⟨i, hrun⟩ := getCurrentDirectory_whole hs checked
    rw [hrun, hcwd, cwdOf]
  have hrooted : (ofBytes c).isAbsolute = true := by
    have hhead := head?_makeCanonical c
    rw [isAbsolute, beq_iff_eq]
    exact hhead.trans habs
  obtain ⟨hpabs, hpne⟩ : p.isAbsolute = false ∧ p.empty = false := by
    simpa [isRelative, isDriveAbsolute, isDriveRelative, and_comm] using hrel
  obtain ⟨q, -, rfl⟩ := exists_parts hp
  obtain ⟨b, hb, hbpath⟩ := exists_parts hc
  rw [hbpath] at hrooted hbase
  have hbroot : b.root ≠ 0 := by simpa [Parts.isAbsolute_path] using hrooted
  have hq : q.root = 0 := by simpa [Parts.isAbsolute_path] using hpabs
  have hbne : ¬ b.IsEmpty := fun h => hbroot h.1
  have hqne : ¬ q.IsEmpty := by simpa [Parts.empty_path] using hpne
  have hjoined : ¬ (b.join q).IsEmpty := Parts.not_isEmpty_join hbne hq
  have hroot : b.root = (b.join q).root := by
    rw [Parts.root_join hbne hq, Nat.min_eq_left hb]
  have hchecked : checkResolved q.path (inside b.path q.path) = .ok (b.join q).path := by
    have hne : (b.join q).path.empty = false := by simpa [Parts.empty_path] using hjoined
    have hjabs : (b.join q).path.isAbsolute = true := by
      rw [Parts.isAbsolute_path, ← hroot, decide_eq_true hbroot]
    rw [inside, hpne, if_neg Bool.false_ne_true, Parts.join_path]
    simp [checkResolved, hne, hjabs]
  refine ⟨_, _, (resolveIn_relative hpabs htilde (hbase false)).trans (congrArg some hchecked),
    hbase true, ?_⟩
  rw [Parts.relativeTo_path hroot hjoined hbne, Except.ok.injEq, Parts.breakdown_path,
    Parts.relativeTo_join_iff hbne hq fun h => hqne ⟨hq, h⟩]

/-- The path `a/b` is found again. -/
theorem relativeTo_resolveIn_ab :
    ∃ q base, (resolveIn plainSystem 1 ⟨bytes "a/b"⟩).run = some (.ok q) ∧
      getCurrentDirectory plainSystem 1 true = some (.ok base) ∧
      (q.relativeTo base = .ok ⟨bytes "a/b"⟩ ↔
        ((breakdown ⟨bytes "a/b"⟩).head? = some [dot] → (⟨bytes "a/b"⟩ : Path) = ⟨[dot]⟩)) :=
  relativeTo_resolveIn plainSystem_fits (fun _ => rfl) (by decide) (by decide +kernel)
    (by decide +kernel) (by decide) (by decide)

end Path

end RsIo
