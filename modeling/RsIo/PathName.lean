import RsIo.CommonPrefix
import RsIo.Path

/-!
# The Name Functions of Path

The functions of `class Path` that take a name apart and put names together, on the Unix
branch. They work with positions in the file name, and most of them hand the text they end
up with to the constructor, which makes it canonical.

A position that the source holds in a `size_t` and sets to `npos` is an `Option` here.
-/

namespace RsIo

open StdString CommonPrefix

namespace Path

/-! ### Forms -/

/-- `Path::form`. -/
inductive Form
  | empty
  | absolute
  | driveAbsolute
  | driveRelative
  | relative
  deriving DecidableEq, Repr

/-- `Path::empty`. -/
def empty (p : Path) : Bool := p.filename.isEmpty

/-- `Path::is_absolute`. -/
def isAbsolute (p : Path) : Bool := p.filename.head? == some slash

/-- `Path::is_drive_absolute`, false for every path on Unix. -/
def isDriveAbsolute (_ : Path) : Bool := false

/-- `Path::is_drive_relative`, false for every path on Unix. -/
def isDriveRelative (_ : Path) : Bool := false

/-- `Path::is_relative`. -/
def isRelative (p : Path) : Bool :=
  ! p.empty && ! p.isAbsolute && ! p.isDriveAbsolute && ! p.isDriveRelative

/-- `Path::path_form`. -/
def pathForm (p : Path) : Form :=
  if p.filename.isEmpty then .empty
  else if p.isDriveAbsolute then .driveAbsolute
  else if p.isDriveRelative then .driveRelative
  else if p.isAbsolute then .absolute
  else .relative

/-! ### Putting names together -/

/-- `Path::join`. -/
def join (lhs rhs : Path) : Path :=
  if lhs.empty || rhs.isAbsolute then rhs
  else
    let result := lhs.filename
    let root := getRoot lhs.filename
    let result :=
      if root.length < result.length ∧ result.getLast? ≠ some slash ∧ rhs.empty = false then
        result ++ [slash]
      else result
    ofBytes (result ++ rhs.filename)

/-- `Path::do_combine`: the files are combined from the left. -/
def doCombine (f : Path → Path → Path) : List Path → Path
  | [] => ⟨[]⟩
  | p :: files => files.foldl f p

/-- `Path::join` for a range of strings, each of which is converted to a path. -/
def joinRange (files : List Bytes) : Path :=
  doCombine join (files.map ofBytes)

/-! ### Taking names apart -/

/-- The loop of `Path::os_breakdown` from position `p` on, with the parts found so far. -/
def breakdownLoop (filename : Bytes) (p : ℕ) (parts : List Bytes) : List Bytes :=
  if _h : p < filename.length then
    let q := (findIf isSlash filename p).getD filename.length
    breakdownLoop filename (q + 1) (parts ++ [substr filename p (q - p)])
  else parts
termination_by filename.length - p
decreasing_by
  have hq := findIf_getD_bounds isSlash (Nat.le_of_lt _h)
  omega

/-- `Path::breakdown`, which is `Path::os_breakdown` on Unix. -/
def breakdown (p : Path) : List Bytes :=
  if p.empty then []
  else
    let root := getRoot p.filename
    breakdownLoop p.filename root.length (if root.isEmpty then [] else [root])

/-- `Path::get_leaf`. -/
def getLeaf (filename : Bytes) : Bytes :=
  if filename.isEmpty then filename
  else filename.drop (endOfLast isSlash filename)

/-- `Path::get_base_ext`. A dot counts if it is neither the first nor the last character of
the leaf name. -/
def getBaseExt (filename : Bytes) : Bytes × Bytes :=
  if filename.isEmpty then (filename, filename)
  else
    let start := endOfLast isSlash filename
    let dotPos :=
      if start < filename.length then
        (findLastIf (· == dot) filename).filter fun d =>
          ! (decide (d ≤ start) || decide (d ≥ filename.length - 1))
      else none
    let base := substr filename start (dotPos.getD filename.length - start)
    let ext := filename.drop (dotPos.getD filename.length)
    (base, ext)

/-- `Path::split_leaf`. -/
def splitLeaf (p : Path) : Bytes × Bytes := getBaseExt p.filename

/-- `Path::split_path`. -/
def splitPath (p : Path) : Path × Path :=
  let leaf := getLeaf p.filename
  let dir := substr p.filename 0 (p.filename.length - leaf.length)
  (ofBytes dir, ofBytes leaf)

/-- `Path::split_root`. -/
def splitRoot (p : Path) : Path × Path :=
  let root := getRoot p.filename
  let tail := p.filename.drop root.length
  (ofBytes root, ofBytes tail)

/-! ### Changing and comparing names -/

/-- `Path::change_ext`. -/
def changeExt (p : Path) (newExt : Bytes) : Except InvalidArgument Path :=
  if p.empty || (getRoot p.filename).length == p.filename.length then
    .error ⟨"Can't change file extension: ", some p.name⟩
  else
    let stem := resize 0 p.filename (p.filename.length - (getBaseExt p.filename).2.length)
    let stem := if newExt ≠ [] ∧ newExt.head? ≠ some dot then stem ++ [dot] else stem
    .ok (ofBytes (stem ++ newExt))

/-- The loop at the end of `Path::common`: the last delimiter before `cut`, or the end of
the root. -/
def cutBack (filename : Bytes) (root : ℕ) : ℕ → ℕ
  | 0 => 0
  | cut + 1 =>
      if cut > root ∧ filename[cut]? ≠ some slash then cutBack filename root cut else cut

/-- `Path::common`. -/
def common (lhs rhs : Path) : Path :=
  let root1 := getRoot lhs.filename
  let root2 := getRoot rhs.filename
  if root1 ≠ root2 then ⟨[]⟩
  else
    let cut := mismatch lhs.filename rhs.filename
    if cut = root1.length then
      ofBytes (substr lhs.filename 0 cut)
    else if (cut = lhs.filename.length ∨ lhs.filename[cut]? = some slash) ∧
        (cut = rhs.filename.length ∨ rhs.filename[cut]? = some slash) then
      ofBytes (substr lhs.filename 0 cut)
    else
      ofBytes (substr lhs.filename 0 (cutBack lhs.filename root1.length cut))

/-- `Path::common` for a range of paths. -/
def commonRange (files : List Path) : Path :=
  doCombine common files

/-- The text that `Path::relative_to` fills with dots, in which it makes every third
character a delimiter, from position `i` on. -/
def setDelimiters (text : Bytes) (i : ℕ) : Bytes :=
  if i < text.length then setDelimiters (text.set i slash) (i + 3) else text
termination_by text.length - i
decreasing_by
  rw [List.length_set]
  omega

/-- `Path::relative_to`. -/
def relativeTo (p base : Path) : Except InvalidArgument Path :=
  let baseForm := base.pathForm
  let thisForm := p.pathForm
  if ¬ (baseForm = .absolute ∧ thisForm = .absolute) ∧
      ¬ (baseForm = .relative ∧ thisForm = .relative) then
    .error ⟨"Invalid combination of arguments to Path::relative_to()", none⟩
  else
    let baseVec := base.breakdown
    let thisVec := p.breakdown
    if thisForm = .absolute ∧ baseVec[0]? ≠ thisVec[0]? then .ok p
    else
      let cuts := mismatch baseVec thisVec
      let pre : Path :=
        if baseVec.length > cuts then
          let len := 3 * (baseVec.length - cuts) - 1
          ⟨setDelimiters (List.replicate len dot) 2⟩
        else ⟨[]⟩
      let suffix := joinRange (thisVec.drop cuts)
      let relPath := join pre suffix
      .ok (if relPath.empty then ofBytes [dot] else relPath)

end Path

end RsIo
