import RsIo.Bytes
import RsIo.StdString

/-!
# File Names

The Unix branch of `class Path`. A path is a file name, brought into a canonical form by
its constructor. `makeCanonical` does that in four passes over the string, each of which
works with positions and erases in place, as the source does.
-/

namespace RsIo

open StdString

/-- `Path::flag`, a set of options. -/
structure PathFlags where
  append : Bool := false
  bottomUp : Bool := false
  legalName : Bool := false
  mayCopy : Bool := false
  mayFail : Bool := false
  noFollow : Bool := false
  noHidden : Bool := false
  overwrite : Bool := false
  recurse : Bool := false
  stdio : Bool := false
  unicode : Bool := false
  deriving DecidableEq, Repr

namespace Path

/-- Whether a character is the delimiter. -/
def isSlash (c : UInt8) : Bool := c == slash

/-- `native_delimiter` twice. -/
def ss : Bytes := [slash, slash]

/-- `native_delimiter`, a dot, `native_delimiter`. -/
def sds : Bytes := [slash, dot, slash]

/-- `Path::get_root`: the slashes at the front of the name. -/
def getRoot (filename : Bytes) : Bytes :=
  if filename.isEmpty then []
  else match findIf (! isSlash ·) filename 0 with
    | some pos => filename.take pos
    | none => filename

/-! ### The passes of `make_canonical` -/

/-- Trim redundant leading slashes. -/
def trimLeading (filename : Bytes) : Bytes :=
  let p := (findIf (! isSlash ·) filename 0).getD filename.length
  if p > 1 then erase filename 0 (p - 1) else filename

/-- Replace `/./` with `/`, from position `p` on. -/
def replaceDots (filename : Bytes) (p : ℕ) : Bytes :=
  match _h : find sds filename p with
  | none => filename
  | some p => replaceDots (erase filename p 2) p
termination_by filename.length
decreasing_by
  have hb : p + 3 ≤ filename.length := (find_bounds _h).2
  rw [length_erase (by omega)]
  omega

/-- Replace multiple slashes with one, from position `p` on. -/
def mergeSlashes (filename : Bytes) (p : ℕ) : Bytes :=
  if p < filename.length then
    match _h : find ss filename p with
    | none => filename
    | some p =>
        let q := (findIf (! isSlash ·) filename (p + 2)).getD filename.length
        mergeSlashes (erase filename (p + 1) (q - p - 1)) (p + 1)
  else filename
termination_by filename.length
decreasing_by
  have hb : p + 2 ≤ filename.length := (find_bounds _h).2
  have hq := findIf_getD_bounds (! isSlash ·) hb
  rw [length_erase (by omega)]
  omega

/-- Trim trailing `/` and `/.`, down to `minRoot` characters. -/
def trimTrailing (minRoot : ℕ) (filename : Bytes) : Bytes :=
  if _h : filename.length > minRoot ∧ (filename.getLast? = some slash ∨
      (filename.getLast? = some dot ∧ filename[filename.length - 2]? = some slash)) then
    trimTrailing minRoot filename.dropLast
  else filename
termination_by filename.length
decreasing_by
  rw [List.length_dropLast]
  omega

/-- `Path::make_canonical` up to its validation. -/
def makeCanonical (filename : Bytes) : Bytes :=
  let filename := trimLeading filename
  let filename := replaceDots filename 0
  let filename := match findIf (! isSlash ·) filename 0 with
    | some p => mergeSlashes filename p
    | none => filename
  trimTrailing (max (getRoot filename).length 1) filename

/-- `Path::is_legal` on a file name: it contains no NUL. -/
def isLegalName (filename : Bytes) : Bool := ! filename.contains 0

end Path

/-- A `Path`: a file name that the constructor has brought into canonical form. -/
structure Path where
  filename : Bytes
  deriving DecidableEq, Repr

namespace Path

/-- The constructor of `Path` from a string. It throws `std::invalid_argument`, here with
the name it quotes, for an illegal name if the `legal_name` flag is set. -/
def new (file : Bytes) (flags : PathFlags) : Except Bytes Path :=
  let filename := makeCanonical file
  if flags.legalName && ! isLegalName filename then .error filename else .ok ⟨filename⟩

/-- A `Path` built from a string with no flags, as every implicit conversion builds it. -/
def ofBytes (file : Bytes) : Path := ⟨makeCanonical file⟩

theorem new_eq_ofBytes (file : Bytes) {flags : PathFlags} (h : flags.legalName = false) :
    new file flags = .ok (ofBytes file) := by
  simp [new, ofBytes, h]

/-- `Path::name`. -/
def name (p : Path) : Bytes := p.filename

end Path

end RsIo
