import RsIo.Bytes
import RsIo.Errno
import RsIo.FileTree
import RsIo.Path
import RsIo.Prog

/-!
# The File System Functions of Path

The functions of `class Path` that look at the file system and change it, on the Unix
branch. A path is given here by the elements of its name, and the file system is a tree,
in which the system calls resolve the name.

The system may have a limit on the length of a name. It is a parameter here, and `World` by
itself stands for a system without one, in which what a function does to the tree can be
said for every name. Names do not contain the character NUL, which would end them.

Looking at a file always succeeds. The calls that change something, open a file, read or
write may fail, with the errors listed in `faults` in the order of the calls. What fails
without an error, a directory that is not listed to its end, or the last block of a file
that `fclose` cannot write, is listed in `losses`. The recursive functions take a bound on
the depth of their recursion, and do not return beyond it.
-/

namespace RsIo

open FileTree (Place WalkError)

/-- A `Path`, by the elements of its name. -/
abbrev FilePath := FileName Bytes

/-- The location of a file: the names on the way from the root, without links. -/
abbrev Loc := List Bytes

/-- The file system: the contents of the files are bytes. -/
abbrev Tree := FileTree Bytes Bytes

/-- The number of links the system follows in one name. -/
def maxLinks : ℕ := 40

/-- `std::system_error`, with the names of its message. -/
structure SystemError where
  code : ℕ
  names : List FilePath
  deriving DecidableEq, Repr

/-- The file system, the current directory, and what will go wrong. Names that are longer
than the limit, if there is one, are refused. -/
structure World (limit : Option ℕ := none) where
  tree : Tree
  cwd : Loc
  faults : List (Option ℕ)
  losses : List (Option ℕ)

/-- A function that works on the file system. -/
abbrev FsProg (α : Type) (limit : Option ℕ := none) : Type :=
  Prog SystemError (World limit) α

variable {limit : Option ℕ}

/-- The error for a name that leads nowhere. -/
def errnoOf : WalkError → ℕ
  | .noEntry => eNoEnt
  | .notDir => eNotDir
  | .loop => eLoop
  | .tooLong => eNameTooLong

/-- The length of an element of a name. -/
def elemLength : PathElem Bytes → ℕ
  | .empty => 0
  | .self => 1
  | .parent => 2
  | .name n => n.length

/-- The length of a name, with its slashes. -/
def nameLength (p : FilePath) : ℕ :=
  (p.elements.map elemLength).sum + (p.elements.length - 1) + if p.isAbsolute then 1 else 0

/-- Whether a name is longer than the limit. -/
def exceeds (limit : Option ℕ) (p : FilePath) : Bool :=
  limit.any fun n => n < nameLength p

namespace World

variable (w : World limit)

/-- Resolves a name. An empty name leads nowhere. -/
def resolve (follow : Bool) (p : FilePath) : Except WalkError (Place Bytes) :=
  if p.isAbsolute = false ∧ p.elements = [] then
    .error .noEntry
  else if exceeds limit p then
    .error .tooLong
  else
    w.tree.walk follow maxLinks (if p.isAbsolute then [] else w.cwd) p.elements

/-- `get_stat`: the location of a file and the file itself. -/
def getStat (p : FilePath) (flags : PathFlags) : Option (Loc × Entry Bytes Bytes) :=
  match w.resolve (!flags.noFollow) p with
  | .ok (.found l) => (w.tree.look l).map fun e => (l, e)
  | _ => none

end World

/-! ### System calls -/

/-- The error of the next call that can fail. The errors that tell what is in the tree are
not among them. -/
def nextFault : FsProg (Option ℕ) limit :=
  .step fun w =>
    ((w.faults.head?.join).filter fun err => err ≠ eNoEnt ∧ err ≠ eNotDir ∧ err ≠ eInval,
      { w with faults := w.faults.tail })

/-- What the next call that can lose something keeps, if it does lose something. -/
def nextLoss : FsProg (Option ℕ) limit :=
  .step fun w => (w.losses.head?.join, { w with losses := w.losses.tail })

/-- A call that changes the tree and returns a value, or an error. -/
def sysCall {α : Type} (act : World limit → Except ℕ (Tree × α)) :
    FsProg (Except ℕ α) limit := do
  match ← nextFault with
  | some err => pure (.error err)
  | none =>
      .step fun w =>
        match act w with
        | .error err => (.error err, w)
        | .ok (t, a) => (.ok a, { w with tree := t })

namespace World

variable (w : World limit)

/-- Creates a node where a name leads, if there is none. -/
def create (p : FilePath) (e : Entry Bytes Bytes) : Except ℕ (Tree × Unit) :=
  match w.resolve false p with
  | .error err => .error (errnoOf err)
  | .ok (.found _) => .error eExist
  | .ok (.missing l n) =>
      if h : w.tree.look l = some .dir ∧ w.tree.look (l ++ [n]) = none then
        .ok (w.tree.insert l n e h.1 h.2, ())
      else
        .error eNoEnt

/-- `mkdir`. -/
def mkdir (p : FilePath) : Except ℕ (Tree × Unit) :=
  w.create p .dir

/-- `symlink`, for a link named `p`. -/
def symlink (target p : FilePath) : Except ℕ (Tree × Unit) :=
  w.create p (.link target)

/-- Whether a name ends in `.` or `..`, or is empty: it then names no entry of a directory
that could be removed or renamed. -/
def endsInDots (p : FilePath) : Bool :=
  match p.elements.getLast? with
  | some (.name _) => false
  | _ => true

/-- `std::remove`: `rmdir` for a directory, which must be empty, and `unlink` for anything
else. -/
def unlink (p : FilePath) : Except ℕ (Tree × Unit) :=
  match w.resolve false p with
  | .error err => .error (errnoOf err)
  | .ok (.missing _ _) => .error eNoEnt
  | .ok (.found l) =>
      if endsInDots p then
        .error eBusy
      else
        match l.getLast? with
        | none => .error eBusy
        | some n =>
            if hleaf : w.tree.names (l.dropLast ++ [n]) = [] then
              .ok (w.tree.erase l.dropLast n hleaf, ())
            else
              .error eNotEmpty

/-- `rename`. A file may replace a file or a link, and a directory an empty directory. -/
def rename (p q : FilePath) : Except ℕ (Tree × Unit) :=
  if endsInDots p || endsInDots q then
    .error eBusy
  else
    match w.resolve false p, w.resolve false q with
    | .error err, _ => .error (errnoOf err)
    | .ok (.missing _ _), _ => .error eNoEnt
    | _, .error err => .error (errnoOf err)
    | .ok (.found s), .ok place =>
        let d := place.loc
        if s = d then
          .ok (w.tree, ())
        else if w.tree.look d ≠ none ∧ w.tree.look s ≠ some .dir ∧
            w.tree.look d = some .dir then
          .error eIsDir
        else if w.tree.look d ≠ none ∧ w.tree.look s = some .dir ∧
            w.tree.look d ≠ some .dir then
          .error eNotDir
        else
          match d.getLast? with
          | none => .error eBusy
          | some n =>
              if hm : w.tree.Movable s d.dropLast n then
                .ok (w.tree.move s d.dropLast n hm, ())
              else
                .error eInval

/-- `fopen` for reading, and the content that will be read. -/
def openRead (p : FilePath) : Except ℕ (Tree × Bytes) :=
  match w.resolve true p with
  | .error err => .error (errnoOf err)
  | .ok (.missing _ _) => .error eNoEnt
  | .ok (.found l) =>
      match w.tree.look l with
      | some (.file content) => .ok (w.tree, content)
      | _ => .error eIsDir

/-- `fopen` for writing: an existing file is truncated, a missing one created. -/
def openWrite (p : FilePath) : Except ℕ (Tree × Loc) :=
  match w.resolve true p with
  | .error err => .error (errnoOf err)
  | .ok (.found l) =>
      match h : w.tree.look l with
      | some (.file content) => .ok (w.tree.write l [] ⟨content, h⟩, l)
      | _ => .error eIsDir
  | .ok (.missing l n) =>
      if h : w.tree.look l = some .dir ∧ w.tree.look (l ++ [n]) = none then
        .ok (w.tree.insert l n (.file []) h.1 h.2, l ++ [n])
      else
        .error eNoEnt

end World

/-- More content for an open file. -/
def writeFile (out : Loc) (content : Bytes) : FsProg Unit limit :=
  .step fun w =>
    ((), { w with
      tree :=
        match h : w.tree.look out with
        | some (.file old) => w.tree.write out content ⟨old, h⟩
        | _ => w.tree })

/-- `fclose` on a file that was written. -/
def closeFile (out : Loc) : FsProg Unit limit := do
  match ← nextLoss with
  | none => pure ()
  | some kept =>
      .step fun w =>
        ((), { w with
          tree :=
            match h : w.tree.look out with
            | some (.file content) => w.tree.write out (content.take kept) ⟨content, h⟩
            | _ => w.tree })

/-! ### Paths -/

namespace FilePath

/-- `Path::join` for a relative path of one element. -/
def join (p q : FilePath) : FilePath :=
  if q.isAbsolute ∨ (p.isAbsolute = false ∧ p.elements = []) then
    q
  else
    { p with elements := p.elements ++ q.elements }

/-- The path of an entry of the current directory. -/
def ofName (n : Bytes) : FilePath :=
  { isAbsolute := false, elements := [.name n] }

/-- `split_path().second`. -/
def leaf (p : FilePath) : FilePath :=
  { isAbsolute := false, elements := p.elements.getLast?.toList }

/-- `split_path().first`. -/
def parent (p : FilePath) : FilePath :=
  { p with elements := p.elements.dropLast }

/-- Whether the canonical form of a name keeps an element that is not its first. -/
def isKept : PathElem Bytes → Bool
  | .empty | .self => false
  | .parent | .name _ => true

/-- The constructor of `Path`, which makes the name of a file canonical: repeated slashes
and elements `.` are dropped, but not one at the front of a relative path. -/
def canonical (p : FilePath) : FilePath :=
  match p.isAbsolute, p.elements with
  | false, .self :: es => { p with elements := .self :: es.filter isKept }
  | _, es => { p with elements := es.filter isKept }

variable (w : World limit) (p : FilePath)

/-- `Path::exists`. -/
def doesExist (flags : PathFlags) : Bool :=
  (w.getStat p flags).isSome

/-- `Path::id`. The location stands for the device and the number of the file, and nothing
for the zeros of a file that does not exist. -/
def id (flags : PathFlags) : Option Loc :=
  (w.getStat p flags).map Prod.fst

/-- `Path::is_directory`. -/
def isDirectory (flags : PathFlags) : Bool :=
  match w.getStat p flags with
  | some (_, .dir) => true
  | _ => false

/-- `Path::is_symlink`. -/
def isSymlink : Bool :=
  match w.getStat p { noFollow := true } with
  | some (_, .link _) => true
  | _ => false

/-- Throws the error of a call, with the names of the message. -/
def check {α : Type} (names : List FilePath) : Except ℕ α → FsProg α limit
  | .ok a => pure a
  | .error err => .throw ⟨err, names⟩

/-- `Path::directory`. A directory that cannot be opened or read to its end is not told
from one with fewer entries. -/
def directory : FsProg (List FilePath) limit := do
  let loss ← nextLoss
  let w ← Prog.get
  let dir : FilePath := if p.isAbsolute = false ∧ p.elements = [] then ⟨false, [.self]⟩ else p
  match w.getStat dir {} with
  | some (l, .dir) =>
      let names := w.tree.names l
      pure ((names.take (loss.getD names.length)).map fun n => p.join (ofName n))
  | _ => pure []

/-- `Path::resolve_symlink`: what is not a link is its own target. -/
def resolveSymlink : FsProg FilePath limit := do
  let fault ← nextFault
  let w ← Prog.get
  match w.getStat p { noFollow := true } with
  | some (_, .link target) =>
      match fault with
      | some err => .throw ⟨err, [p]⟩
      | none => pure (canonical target)
  | _ => pure p

/-- `Path::remove`. -/
def remove : ℕ → FilePath → PathFlags → FsProg Unit limit
  | 0, _, _ => .diverge
  | depth + 1, p, flags => do
      let w ← Prog.get
      if flags.recurse && p.isDirectory w {} && !p.isSymlink w then
        (← p.directory).forM fun child => remove depth child { recurse := true }
      match ← sysCall fun w => w.unlink p with
      | .ok () => pure ()
      | .error err => if err = eNoEnt then pure () else .throw ⟨err, [p]⟩

/-- One call of `Path::make_directory`, with what it does about a missing parent. -/
def makeDirectoryOnce (dir : FilePath) (flags : PathFlags) (makeParent : ℕ → FsProg Unit limit) :
    FsProg Unit limit := do
  match ← sysCall fun w => w.mkdir dir with
  | .ok () => return
  | .error err =>
      let w ← Prog.get
      if err = eExist ∧ dir.isDirectory w {} then
        return
      if err = eExist ∧ flags.overwrite = false then
        Prog.throw ⟨err, [dir]⟩
      if err = eExist then
        remove 1 dir {}
      if err = eNoEnt ∧ flags.recurse ∧ ¬ (dir.isAbsolute = false ∧ dir.elements = []) then
        makeParent err
      check [dir] (← sysCall fun w => w.mkdir dir)

/-- `Path::make_directory`, for the path with the given elements in reverse order. -/
def makeDirectoryRev (isAbsolute : Bool) (flags : PathFlags) :
    List (PathElem Bytes) → FsProg Unit limit
  | [] => makeDirectoryOnce ⟨isAbsolute, []⟩ flags fun err => .throw ⟨err, [⟨isAbsolute, []⟩]⟩
  | e :: above =>
      makeDirectoryOnce ⟨isAbsolute, (e :: above).reverse⟩ flags fun _ =>
        makeDirectoryRev isAbsolute flags above

/-- `Path::make_directory`. -/
def makeDirectory (flags : PathFlags) : FsProg Unit limit :=
  makeDirectoryRev p.isAbsolute flags p.elements.reverse

end FilePath

end RsIo
