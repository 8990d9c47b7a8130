import RsIo.Bytes

/-!
# Decimal Numbers

`std::to_string` of an unsigned number, and `strtoull` in base ten, which reads one at the
front of a C string.

## Main results

* `strtoull_toDecimal`: a number that was printed is read back, up to what follows it.
-/

namespace RsIo

/-- Decimal digits. -/
def isDigit (c : UInt8) : Bool := 48 ≤ c && c ≤ 57

/-- `std::to_string` of an unsigned number. -/
def toDecimal (n : ℕ) : Bytes := (Nat.toDigits 10 n).map Char.toUInt8

/-- The number that digits stand for. -/
def decimalValue (digits : Bytes) : ℕ :=
  digits.foldl (fun n c => 10 * n + (c.toNat - 48)) 0

/-- What `isspace` accepts in the C locale. -/
def isSpace (c : UInt8) : Bool := c == 32 || (9 ≤ c && c ≤ 13)

/-- `ULLONG_MAX`. -/
def ullongMax : ℕ := 2 ^ 64 - 1

/-- The result of `strtoull`: the number, how many characters were read, and whether the
number was out of range, so that `errno` is `ERANGE`. -/
structure Scanned where
  value : ℕ
  stop : ℕ
  isOutOfRange : Bool
  deriving DecidableEq, Repr

/-- `strtoull(s, &endptr, 10)`: spaces, a sign, and digits. A negative number wraps around,
and without digits nothing is read. -/
def strtoull (s : Bytes) : Scanned :=
  let t := s.dropWhile isSpace
  let isNegative := t.head? == some 45
  let t := if t.head? == some 43 || isNegative then t.tail else t
  let digits := t.takeWhile isDigit
  if digits.isEmpty then
    ⟨0, 0, false⟩
  else
    let n := decimalValue digits
    let stop := s.length - t.length + digits.length
    if n > ullongMax then
      ⟨ullongMax, stop, true⟩
    else
      ⟨if isNegative then (2 ^ 64 - n) % 2 ^ 64 else n, stop, false⟩

/-! ### Printing and reading -/

theorem isDigit_of_mem_toDecimal {n : ℕ} {c : UInt8} (h : c ∈ toDecimal n) : isDigit c = true := by
  obtain ⟨d, hd, rfl⟩ := List.mem_map.mp h
  have hdigit := Nat.isDigit_of_mem_toDigits (by decide) (by decide) hd
  simp only [Char.isDigit, Bool.and_eq_true, decide_eq_true_eq, ge_iff_le,
    UInt32.le_iff_toNat_le] at hdigit
  simp only [isDigit, Bool.and_eq_true, decide_eq_true_eq, UInt8.le_iff_toNat_le,
    Char.toUInt8, UInt32.toNat_toUInt8]
  simp at hdigit ⊢
  omega

theorem toDecimal_ne_nil (n : ℕ) : toDecimal n ≠ [] := by
  simp [toDecimal]

/-- A digit keeps its value as a byte. -/
theorem toNat_toUInt8_of_isDigit {c : Char} (h : c.isDigit = true) :
    c.toUInt8.toNat = c.toNat := by
  simp only [Char.isDigit, Bool.and_eq_true, decide_eq_true_eq, ge_iff_le,
    UInt32.le_iff_toNat_le] at h
  simp only [Char.toUInt8, UInt32.toNat_toUInt8]
  simp at h ⊢
  exact Nat.lt_of_le_of_lt h.2 (by decide)

/-- The digits of a number stand for it. -/
theorem decimalValue_toDecimal (n : ℕ) : decimalValue (toDecimal n) = n := by
  have hfold : ∀ (l : List Char) (k : ℕ), (∀ c ∈ l, c.isDigit = true) →
      (l.map Char.toUInt8).foldl (fun n c => 10 * n + (c.toNat - 48)) k =
        Nat.ofDigitChars 10 l k := by
    intro l
    induction l with
    | nil =>
        intro k _
        simp
    | cons c l ih =>
        intro k hl
        rw [List.map_cons, List.foldl_cons, ih _ fun d hd => hl d (List.mem_cons_of_mem c hd),
          toNat_toUInt8_of_isDigit (hl c List.mem_cons_self), Nat.ofDigitChars_cons]
        rfl
  rw [decimalValue, toDecimal, hfold _ _ fun c hc =>
    Nat.isDigit_of_mem_toDigits (by decide) (by decide) hc]
  exact Nat.ofDigitChars_ten_toDigits

/-- A digit is none of the characters that may stand in front of a number. -/
theorem not_sign {c : UInt8} (h : isDigit c = true) : isSpace c = false ∧ c ≠ 43 ∧ c ≠ 45 := by
  simp only [isDigit, Bool.and_eq_true, decide_eq_true_eq, UInt8.le_iff_toNat_le] at h
  simp only [isSpace, Bool.or_eq_false_iff, beq_eq_false_iff_ne, Bool.and_eq_false_iff,
    decide_eq_false_iff_not, UInt8.le_iff_toNat_le, ne_eq, ← UInt8.toNat_inj]
  simp only [UInt8.reduceToNat] at h ⊢
  omega

/-- Digits are read as far as they go, and no further than to the largest value. -/
theorem strtoull_digits {digits rest : Bytes} (hne : digits ≠ [])
    (hall : ∀ c ∈ digits, isDigit c = true) (hrest : ∀ c, rest.head? = some c → isDigit c = false) :
    strtoull (digits ++ rest) =
      if decimalValue digits > ullongMax then ⟨ullongMax, digits.length, true⟩
      else ⟨decimalValue digits, digits.length, false⟩ := by
  have htake : (digits ++ rest).takeWhile isDigit = digits := by
    rw [List.takeWhile_append_of_pos hall]
    cases rest with
    | nil => simp
    | cons c rest => rw [List.takeWhile_cons_of_neg (by simp [hrest c rfl]), List.append_nil]
  obtain ⟨c, t, hc⟩ := List.exists_cons_of_ne_nil hne
  have hspace := not_sign (hall c (hc ▸ List.mem_cons_self))
  have hdrop : (digits ++ rest).dropWhile isSpace = digits ++ rest := by
    rw [hc, List.cons_append, List.dropWhile_cons_of_neg (by simp [hspace.1])]
  have hhead : (digits ++ rest).head? = some c := by rw [hc, List.cons_append, List.head?_cons]
  have hplus : (some c == some (43 : UInt8)) = false := by simpa using hspace.2.1
  have hminus : (some c == some (45 : UInt8)) = false := by simpa using hspace.2.2
  simp only [strtoull, hdrop, hhead, hplus, hminus, Bool.or_self, Bool.false_eq_true, if_false,
    htake, List.isEmpty_iff, hne, Nat.sub_self, Nat.zero_add]

/-- A printed number is read back, if what follows it does not go on with a digit. -/
theorem strtoull_toDecimal {n : ℕ} (h : n ≤ ullongMax) {rest : Bytes}
    (hrest : ∀ c, rest.head? = some c → isDigit c = false) :
    strtoull (toDecimal n ++ rest) = ⟨n, (toDecimal n).length, false⟩ := by
  rw [strtoull_digits (toDecimal_ne_nil n) (fun c hc => isDigit_of_mem_toDecimal hc) hrest,
    decimalValue_toDecimal, if_neg (Nat.not_lt.mpr h)]

end RsIo
