import Mathlib.Data.Nat.Notation

/-!
# Error Numbers

The values of `errno` that the modelled functions produce or compare with.
-/

namespace RsIo

/-- There is no such file. -/
def eNoEnt : ℕ := 2

/-- A device failed to read or write. -/
def eIo : ℕ := 5

/-- The file or the socket is not open. -/
def eBadF : ℕ := 9

/-- The call would block. -/
def eAgain : ℕ := 11

/-- The file is in use. -/
def eBusy : ℕ := 16

/-- There is a file already. -/
def eExist : ℕ := 17

/-- The files are on different file systems. -/
def eXDev : ℕ := 18

/-- A file that is not a directory stands on the way. -/
def eNotDir : ℕ := 20

/-- The file is a directory. -/
def eIsDir : ℕ := 21

/-- An argument makes no sense. -/
def eInval : ℕ := 22

/-- There is no space left. -/
def eNoSpc : ℕ := 28

/-- The result does not fit. -/
def eRange : ℕ := 34

/-- The name is too long. -/
def eNameTooLong : ℕ := 36

/-- The directory is not empty. -/
def eNotEmpty : ℕ := 39

/-- There are too many links on the way. -/
def eLoop : ℕ := 40

/-- There is no such family of addresses. -/
def eAfNoSupport : ℕ := 97

/-- The deadline has passed. -/
def eTimedOut : ℕ := 110

end RsIo
