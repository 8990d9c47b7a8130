import Mathlib.Algebra.Ring.Nat
import Mathlib.Data.List.TakeWhile
import Mathlib.Data.List.Infix

/-!
# Byte Strings

The library under `src/` handles text as `std::string`, an array of bytes with no
encoding attached. `Bytes` models it as a list of bytes. `bytes` reads a literal of
the source, which is always ASCII, and the named constants are the characters that the
modelled functions compare with.
-/

namespace RsIo

/-- A `std::string` on Unix: a sequence of bytes. -/
abbrev Bytes := List UInt8

/-- The bytes of an ASCII literal of the source. -/
def bytes (s : String) : Bytes :=
  s.toList.map Char.toUInt8

/-- The character `/`. -/
def slash : UInt8 := 47

/-- The character `.`. -/
def dot : UInt8 := 46

/-- The character `:`. -/
def colon : UInt8 := 58

/-- A hexadecimal digit. -/
def hexDigit (n : ℕ) : UInt8 := (bytes "0123456789abcdef").getD n 48

theorem hexDigit_mem (n : ℕ) : hexDigit n ∈ bytes "0123456789abcdef" := by
  rw [hexDigit, List.getD_eq_getElem?_getD]
  cases h : (bytes "0123456789abcdef")[n]? with
  | none => decide
  | some d => exact List.mem_of_getElem? h

theorem slash_ne_dot : slash ≠ dot := by decide

/-- `std::invalid_argument`: the text of the message and the string it quotes, if any. -/
structure InvalidArgument where
  what : String
  quoted : Option Bytes := none
  deriving DecidableEq, Repr

/-- The largest object the platform can hold, `PTRDIFF_MAX` bytes. -/
def ptrdiffMax : ℕ := 2 ^ 63 - 1

/-- A block of memory handed over as a pointer and a length. No object is larger than
`PTRDIFF_MAX` bytes, so its length is a value of `size_t` with room to spare. -/
structure Buffer where
  bytes : Bytes
  length_le : bytes.length ≤ ptrdiffMax

theorem Buffer.length_lt (b : Buffer) : b.bytes.length < 2 ^ 63 := by
  have h := b.length_le
  simp only [ptrdiffMax] at h
  omega

end RsIo
