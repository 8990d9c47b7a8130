import RsIo.FileFrame

/-!
# Copying and Moving

The functions `Path::make_symlink`, `Path::copy_to` and `Path::move_to`, on the Unix branch.
A file is copied in blocks, and what `fclose` cannot write is lost without an error. The
bound on the depth of the recursion is that of `remove`.

Both functions copy or move a link itself, and not what it leads to.
-/

namespace RsIo

variable {limit : Option ℕ}

namespace FilePath

/-- `block_size` in `Path::copy_to`. -/
def blockSize : ℕ := 16384

/-- `fwrite` for one block. -/
def writeBlock (dst : FilePath) (out : Loc) (written block : Bytes) : FsProg Unit limit :=
  if block = [] then
    pure ()
  else do
    match ← nextFault with
    | some err => .throw ⟨err, [dst]⟩
    | none => writeFile out (written ++ block)

/-- The loop of `Path::copy_to` over the blocks of a file, of which `content` is still to
be read. A block that is not full is the last one. -/
def copyBlocks (src dst : FilePath) (out : Loc) (written content : Bytes) : FsProg Unit limit := do
  match ← nextFault with
  | some err => .throw ⟨err, [src]⟩
  | none =>
      writeBlock dst out written (content.take blockSize)
      if _h : (content.take blockSize).length < blockSize then
        pure ()
      else
        copyBlocks src dst out (written ++ content.take blockSize) (content.drop blockSize)
termination_by content.length
decreasing_by
  have hpos : 0 < blockSize := by decide
  rw [List.length_take] at _h
  rw [List.length_drop]
  omega

/-- `Path::copy_to` for a file that is neither a link nor a directory. Whether the loop
throws or not, both files are closed. -/
def copyFile (src dst : FilePath) : FsProg Unit limit := do
  let content ← check [src] (← sysCall fun w => w.openRead src)
  let out ← check [dst] (← sysCall fun w => w.openWrite dst)
  Prog.tryCatch (copyBlocks src dst out [] content) fun err => do
    closeFile out
    Prog.throw err
  closeFile out

/-- `Path::make_symlink` if the link is not there already. -/
def makeNewSymlink (copyTo : FilePath → FilePath → PathFlags → FsProg Unit limit) (depth : ℕ)
    (p linkname : FilePath) (flags : PathFlags) : FsProg Unit limit := do
  let w ← Prog.get
  if flags.overwrite && linkname.doesExist w {} then
    remove depth linkname flags
  match ← sysCall fun w => w.symlink p linkname with
  | .ok () => pure ()
  | .error err =>
      if flags.mayCopy = false then
        .throw ⟨err, [linkname, p]⟩
      else
        copyTo p linkname { recurse := true }

/-- `Path::make_symlink`, with the function `copy_to` that it calls. -/
def makeSymlink (copyTo : FilePath → FilePath → PathFlags → FsProg Unit limit) (depth : ℕ)
    (p linkname : FilePath) (flags : PathFlags) : FsProg Unit limit := do
  let w ← Prog.get
  if linkname.isSymlink w then do
    let there ← Prog.tryCatch (do return decide ((← linkname.resolveSymlink) = p)) fun _ =>
      pure false
    if there then pure () else makeNewSymlink copyTo depth p linkname flags
  else
    makeNewSymlink copyTo depth p linkname flags

/-- What `copy_to` and `move_to` do about a file at the destination. -/
def makeWay (depth : ℕ) (dst : FilePath) (flags : PathFlags) : FsProg Unit limit :=
  if flags.overwrite = false then
    .throw ⟨eExist, [dst]⟩
  else
    remove depth dst { recurse := true }

/-- `Path::copy_to` after its checks. -/
def copyEntry (copyTo : FilePath → FilePath → PathFlags → FsProg Unit limit) (depth : ℕ)
    (src dst : FilePath) : FsProg Unit limit := do
  let w ← Prog.get
  if src.isSymlink w then
    makeSymlink copyTo depth (← src.resolveSymlink) dst {}
  else if src.isDirectory w {} then do
    dst.makeDirectory {}
    (← src.directory).forM fun child => copyTo child (dst.join child.leaf) { recurse := true }
  else
    copyFile src dst

/-- `Path::copy_to`. -/
def copyTo : ℕ → FilePath → FilePath → PathFlags → FsProg Unit limit
  | 0, _, _, _ => .diverge
  | depth + 1, src, dst, flags => do
      let w ← Prog.get
      if src.doesExist w {} = false then
        .throw ⟨eNoEnt, [src]⟩
      else if src = dst ∨ src.id w {} = dst.id w {} then
        .throw ⟨eExist, [dst]⟩
      else if src.isDirectory w {} && !flags.recurse then
        .throw ⟨eIsDir, [src]⟩
      else if dst.doesExist w {} then do
        makeWay depth dst flags
        copyEntry (copyTo depth) depth src dst
      else
        copyEntry (copyTo depth) depth src dst

/-- `Path::move_to` after its checks. -/
def moveEntry (depth : ℕ) (src dst : FilePath) (flags : PathFlags) : FsProg Unit limit := do
  match ← sysCall fun w => w.rename src dst with
  | .ok () => pure ()
  | .error err =>
      if err ≠ eXDev ∨ flags.mayCopy = false then
        .throw ⟨err, [src, dst]⟩
      else do
        copyTo depth src dst { recurse := true }
        remove depth src { recurse := true }

/-- `Path::move_to`. -/
def moveTo (depth : ℕ) (src dst : FilePath) (flags : PathFlags) : FsProg Unit limit := do
  let w ← Prog.get
  if src.doesExist w {} = false then
    .throw ⟨eNoEnt, [src]⟩
  else if src = dst then
    pure ()
  else if dst.doesExist w {} && src.id w {} ≠ dst.id w {} then do
    makeWay depth dst flags
    moveEntry depth src dst flags
  else
    moveEntry depth src dst flags

end FilePath

end RsIo
