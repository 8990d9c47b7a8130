import RsIo.Decimal
import RsIo.UriSegments

/-!
# Looking at a URI

The observers of `class Uri` that return a part of the URI, decoded, and its hash. What
they see depends on the text and on the seven offsets.

## Main results

* `decode_eq_self_iff`: decoding leaves a string alone exactly if there is no escape in it.
* `path_assemble`, `scheme_assemble`: what the observers see of the segments.
-/

namespace RsIo

open StdString

/-- What the observers call of the formatting and standard libraries: the classification of
hexadecimal digits, `to_uint8` in base sixteen, and `std::hash` of a string and of a number. -/
structure UriGetterLibs extends UriLibs where
  asciiIsxdigit : UInt8 → Bool
  toUint8 : Bytes → UInt8
  stringHash : Bytes → UInt64
  intHash : ℤ → UInt64
  asciiIsxdigit_eq : ∀ c, asciiIsxdigit c = isHexDigit c

/-- The value of a hexadecimal digit. -/
def hexValue (c : UInt8) : UInt8 :=
  if isDigit c then c - 48 else toLower c - 87

/-- The functions as their documentation describes them. -/
def UriGetterLibs.ascii : UriGetterLibs where
  toUriLibs := .ascii
  asciiIsxdigit := isHexDigit
  toUint8 s := s.foldl (fun n c => 16 * n + hexValue c) 0
  stringHash s := s.foldl (fun h c => 33 * h + c.toUInt64) 0
  intHash i := .ofNat i.toNat
  asciiIsxdigit_eq _ := rfl

namespace Uri

/-- The loop of `Uri::decode` from position `i` on. -/
def decodeLoop (lib : UriGetterLibs) (s : Bytes) (i : ℕ) : Bytes :=
  if i < s.length then
    match _h : findIf (· == percent) s i with
    | none => s.drop i
    | some j =>
        if j > s.length - 3 then
          s.drop i
        else
          substr s i (j - i) ++
            if lib.asciiIsxdigit (s.getD (j + 1) 0) && lib.asciiIsxdigit (s.getD (j + 2) 0) then
              lib.toUint8 (substr s (j + 1) 2) :: decodeLoop lib s (j + 3)
            else
              percent :: decodeLoop lib s (j + 1)
  else
    []
termination_by s.length - i
decreasing_by
  all_goals
    have hle := (findIf_getD_bounds (· == percent) (Nat.le_of_lt ‹i < s.length›)).1
    rw [_h, Option.getD_some] at hle
    omega

/-- `Uri::decode`. -/
def decode (lib : UriGetterLibs) (s : Bytes) : Bytes :=
  if s.length < 3 then s else decodeLoop lib s 0

/-! ### Observers -/

/-- `Uri::has_slashes`. -/
def hasSlashes (u : Uri) : Bool :=
  ! u.empty && u.text[(u.ofsUser - 1).toNat]? == some slash

/-- `text_.substr` at offsets of the class. -/
def substrText (u : Uri) (pos len : ℤ) : Bytes :=
  substr u.text pos.toNat len.toNat

/-- `Uri::scheme`. -/
def scheme (lib : UriGetterLibs) (u : Uri) : Bytes :=
  if u.empty then []
  else lib.asciiLowercase (u.substrText 0 (u.ofsUser - if u.hasSlashes then 3 else 1))

/-- `Uri::user`. -/
def user (lib : UriGetterLibs) (u : Uri) : Bytes :=
  decode lib (u.substrText u.ofsUser (u.ofsPassword - u.ofsUser))

/-- `Uri::password`. -/
def password (lib : UriGetterLibs) (u : Uri) : Bytes :=
  if u.hasPassword then
    decode lib (u.substrText (u.ofsPassword + 1) (u.ofsHost - u.ofsPassword - 2))
  else []

/-- `Uri::host`. -/
def host (lib : UriGetterLibs) (u : Uri) : Bytes :=
  decode lib (u.substrText u.ofsHost (u.ofsPort - u.ofsHost))

/-- `Uri::port`. -/
def port (u : Uri) : UInt16 :=
  if u.hasPort then .ofNat (strtoull (u.text.drop (u.ofsPort + 1).toNat)).value else 0

/-- `Uri::path`. -/
def path (lib : UriGetterLibs) (u : Uri) : Bytes :=
  decode lib (u.substrText u.ofsPath (u.ofsQuery - u.ofsPath))

/-- `Uri::query`. -/
def query (lib : UriGetterLibs) (u : Uri) : Bytes :=
  if u.hasQuery then
    decode lib (u.substrText (u.ofsQuery + 1) (u.ofsFragment - u.ofsQuery - 1))
  else []

/-- `Uri::fragment`. -/
def fragment (lib : UriGetterLibs) (u : Uri) : Bytes :=
  if u.hasFragment then decode lib (u.text.drop (u.ofsFragment + 1).toNat) else []

/-- `operator==`. -/
def equal (u v : Uri) : Bool := u.text == v.text

/-- `hash_mix`, for the hashes of its arguments, of which there is at least one. -/
def hashMix : List UInt64 → UInt64
  | [] => 0
  | [h] => h
  | h :: hs => h ^^^ ((h <<< 6) + (h >>> 2) + hashMix hs + 0x9e3779b9)

/-- `Uri::hash`. -/
protected def hash (lib : UriGetterLibs) (u : Uri) : UInt64 :=
  hashMix (lib.stringHash u.text ::
    [u.ofsUser, u.ofsPassword, u.ofsHost, u.ofsPort, u.ofsPath, u.ofsQuery, u.ofsFragment].map
      lib.intHash)

/-! ### Decoding -/

/-- Whether there is a `%` with two hexadecimal digits behind it. -/
def hasEscape : Bytes → Bool
  | c :: x :: y :: s =>
      (c == percent && isHexDigit x && isHexDigit y) || hasEscape (x :: y :: s)
  | _ => false

/-- Decoding, from left to right. -/
def unescape (lib : UriGetterLibs) : Bytes → Bytes
  | c :: x :: y :: s =>
      if c == percent && isHexDigit x && isHexDigit y then
        lib.toUint8 [x, y] :: unescape lib s
      else
        c :: unescape lib (x :: y :: s)
  | s => s

section Unescape

variable (lib : UriGetterLibs)

/-- A text that is too short for an escape is not changed. -/
theorem unescape_short {s : Bytes} (h : s.length < 3) : unescape lib s = s := by
  match s, h with
  | [], _ => rfl
  | [c], _ => rfl
  | [c, d], _ => rfl

/-- A character that does not start an escape is kept. -/
theorem unescape_cons {c : UInt8} {s : Bytes}
    (h : ∀ x y r, c = percent → s = x :: y :: r → (isHexDigit x && isHexDigit y) = false) :
    unescape lib (c :: s) = c :: unescape lib s := by
  match s, h with
  | [], _ => rfl
  | [x], _ => rfl
  | x :: y :: r, h =>
      rw [unescape, if_neg]
      intro hesc
      simp only [Bool.and_eq_true, beq_iff_eq] at hesc
      have hnot := h x y r hesc.1.1 rfl
      rw [hesc.1.2, hesc.2] at hnot
      simp at hnot

/-- Nothing is decoded in front of the first escape. -/
theorem unescape_append {a : Bytes} (ha : percent ∉ a) (t : Bytes) :
    unescape lib (a ++ t) = a ++ unescape lib t := by
  induction a with
  | nil => rfl
  | cons c a ih =>
      rw [List.mem_cons, not_or] at ha
      rw [List.cons_append, unescape_cons lib fun _ _ _ hc => absurd hc.symm ha.1, ih ha.2,
        List.cons_append]

/-- No escape is found. -/
theorem findIf_percent_none (pre : Bytes) {t : Bytes} (ht : percent ∉ t) :
    findIf (· == percent) (pre ++ t) pre.length = none :=
  findIf_append_none pre (beq_false_of_notMem ht)

/-- The first escape is found. -/
theorem findIf_percent_append (pre b : Bytes) {a : Bytes} (ha : percent ∉ a) :
    findIf (· == percent) (pre ++ (a ++ percent :: b)) pre.length =
      some (pre.length + a.length) :=
  findIf_append_cons pre b (beq_false_of_notMem ha) (beq_self_eq_true percent)

/-- The loop ends with the rest. -/
theorem decodeLoop_none {s : Bytes} {i : ℕ} (h : findIf (· == percent) s i = none) :
    decodeLoop lib s i = s.drop i := by
  rw [decodeLoop]
  split
  next hi =>
    split
    next => rfl
    next j hj =>
      rw [h] at hj
      cases hj
  next hi => rw [List.drop_eq_nil_of_le (Nat.le_of_not_lt hi)]

/-- The loop decodes one escape and goes on behind it. -/
theorem decodeLoop_some {s : Bytes} {i j : ℕ} (hi : i < s.length)
    (h : findIf (· == percent) s i = some j) :
    decodeLoop lib s i =
      if j > s.length - 3 then
        s.drop i
      else
        substr s i (j - i) ++
          if lib.asciiIsxdigit (s.getD (j + 1) 0) && lib.asciiIsxdigit (s.getD (j + 2) 0) then
            lib.toUint8 (substr s (j + 1) 2) :: decodeLoop lib s (j + 3)
          else
            percent :: decodeLoop lib s (j + 1) := by
  rw [decodeLoop, if_pos hi]
  split
  next hnone =>
    rw [h] at hnone
    cases hnone
  next j' hj =>
    obtain rfl : j' = j := Option.some.inj (hj.symm.trans h)
    rfl

/-- The loop at a `%` with two more characters behind it. -/
theorem decodeLoop_percent (pre r : Bytes) {a : Bytes} (x y : UInt8) (ha : percent ∉ a) :
    decodeLoop lib (pre ++ (a ++ percent :: x :: y :: r)) pre.length =
      a ++ if isHexDigit x && isHexDigit y then
        lib.toUint8 [x, y] ::
          decodeLoop lib ((pre ++ a ++ [percent, x, y]) ++ r) (pre ++ a ++ [percent, x, y]).length
      else
        percent :: decodeLoop lib ((pre ++ a ++ [percent]) ++ x :: y :: r)
          (pre ++ a ++ [percent]).length := by
  have hfind : findIf (· == percent) (pre ++ (a ++ percent :: x :: y :: r)) pre.length =
      some (pre.length + a.length) := findIf_percent_append pre _ ha
  have hsplit : pre ++ (a ++ percent :: x :: y :: r) = (pre ++ a) ++ percent :: x :: y :: r := by
    simp
  have hget (k : ℕ) : (pre ++ (a ++ percent :: x :: y :: r)).getD (pre.length + a.length + k) 0 =
      (percent :: x :: y :: r).getD k 0 := by
    rw [hsplit, ← List.length_append, List.getD_eq_getElem?_getD, List.getD_eq_getElem?_getD,
      List.getElem?_append_right (by omega), Nat.add_sub_cancel_left]
  have hsub : substr (pre ++ (a ++ percent :: x :: y :: r)) pre.length
      (pre.length + a.length - pre.length) = a := by
    rw [Nat.add_sub_cancel_left]
    exact substr_append pre a _
  have hhex : substr (pre ++ (a ++ percent :: x :: y :: r)) (pre.length + a.length + 1) 2 =
      [x, y] := by
    have h := substr_append (pre ++ a ++ [percent]) [x, y] r
    simpa [Nat.add_assoc] using h
  have hpos : pre.length < (pre ++ (a ++ percent :: x :: y :: r)).length := by
    simp only [List.length_append, List.length_cons]
    omega
  rw [decodeLoop_some lib hpos hfind, if_neg (by simp; omega), hsub, hget 1, hget 2, hhex,
    lib.asciiIsxdigit_eq, lib.asciiIsxdigit_eq]
  simp only [List.getD_cons_succ, List.getD_cons_zero, List.append_assoc, List.cons_append,
    List.nil_append, List.length_append, List.length_cons, List.length_nil, Nat.zero_add,
    ← Nat.add_assoc]

/-- From any position on, the loop decodes what is left. -/
theorem decodeLoop_append (pre t : Bytes) (hlen : 3 ≤ (pre ++ t).length) :
    decodeLoop lib (pre ++ t) pre.length = unescape lib t := by
  induction ht : t.length using Nat.strong_induction_on generalizing pre t with
  | _ n ih =>
  by_cases hpercent : percent ∈ t
  · obtain ⟨a, b, rfl, ha⟩ := List.eq_append_cons_of_mem hpercent
    rw [List.length_append, List.length_cons] at ht
    rw [unescape_append lib ha]
    match b, ht with
    | [], ht | [_], ht =>
        simp only [List.length_append, List.length_cons, List.length_nil] at hlen
        rw [decodeLoop_some lib (by simp) (findIf_percent_append pre _ ha), if_pos (by simp; omega),
          List.drop_left, unescape_short lib (by simp)]
    | x :: y :: r, ht =>
        rw [List.length_cons, List.length_cons] at ht
        rw [decodeLoop_percent lib pre r x y ha,
          ih (x :: y :: r).length (by simp; omega) (pre ++ a ++ [percent]) _ (by simp; omega) rfl,
          ih r.length (by omega) (pre ++ a ++ [percent, x, y]) r (by simp; omega) rfl]
        by_cases hesc : (isHexDigit x && isHexDigit y) = true
        · rw [if_pos hesc, unescape, if_pos (by simpa using hesc)]
        · rw [if_neg hesc, unescape, if_neg (by simpa using hesc)]
  · have hrest := unescape_append lib hpercent []
    rw [List.append_nil, unescape_short lib (s := []) (by simp), List.append_nil] at hrest
    rw [decodeLoop_none lib (findIf_percent_none pre hpercent), List.drop_left, hrest]

/-- The loop over positions computes the function on lists. -/
theorem decode_eq (s : Bytes) : decode lib s = unescape lib s := by
  rw [decode]
  split
  next hlen => rw [unescape_short lib hlen]
  next hlen => exact decodeLoop_append lib [] s (by rw [List.nil_append]; omega)

/-- A decoded text is not longer. -/
theorem length_unescape_le (s : Bytes) : (unescape lib s).length ≤ s.length := by
  fun_induction unescape lib s with
  | case1 c x y s _ ih =>
      simp only [List.length_cons]
      omega
  | case2 c x y s _ ih =>
      simp only [List.length_cons] at ih ⊢
      omega
  | case3 s _ => exact le_rfl

/-- Decoding leaves a string alone exactly if there is no escape in it. -/
theorem decode_eq_self_iff (s : Bytes) : decode lib s = s ↔ hasEscape s = false := by
  rw [decode_eq]
  fun_induction unescape lib s with
  | case1 c x y s hesc _ =>
      refine iff_of_false (fun h => ?_) ?_
      · have hlen := length_unescape_le lib s
        have hsame := congrArg List.length h
        simp only [List.length_cons] at hsame
        omega
      · rw [hasEscape, hesc]
        simp
  | case2 c x y s hesc ih =>
      rw [hasEscape, Bool.eq_false_iff.mpr hesc, Bool.false_or, ← ih]
      simp
  | case3 s hs =>
      refine iff_of_true rfl ?_
      match s, hs with
      | [], _ => rfl
      | [c], _ => rfl
      | [c, d], _ => rfl
      | c :: x :: y :: r, hs => exact absurd rfl (hs c x y r)

end Unescape

/-! ### The observers on segments -/

/-- A piece in the middle of a segment. -/
theorem substrText_assemble {s : Segments} (part : Part) (pre post : Bytes) {mid : Bytes}
    (h : s.get part = pre ++ (mid ++ post)) {pos len : ℤ}
    (hpos : pos = (assemble s).start part + pre.length) (hlen : len = mid.length) :
    (assemble s).substrText pos len = mid := by
  have htext : (assemble s).text = ((s.toList.take part.index).flatten ++ pre) ++
      (mid ++ (post ++ (s.toList.drop (part.index + 1)).flatten)) := by
    change s.toList.flatten = _
    conv_lhs => rw [toList_eq s part]
    simp [h]
  have hpos' : pos.toNat = ((s.toList.take part.index).flatten ++ pre).length := by
    rw [hpos, start_assemble, List.length_append]
    omega
  rw [substrText, htext, hpos', hlen, Int.toNat_natCast]
  exact substr_append _ mid _

section Assemble

variable (lib : UriGetterLibs) (s : Segments)

/-- The path is decoded. -/
theorem path_assemble : (assemble s).path lib = decode lib s.path :=
  congrArg (decode lib) (raw_assemble s .path)

/-- The scheme without the colon and the slashes behind it. -/
theorem scheme_assemble {name : Bytes}
    (h : s.scheme = name ++ [colon] ∨ s.scheme = name ++ [colon, slash, slash]) :
    (assemble s).scheme lib = name.map toLower := by
  have hempty : (assemble s).empty = false := by
    rw [empty_assemble, List.isEmpty_eq_false_iff]
    refine text_ne_nil .scheme ?_
    rcases h with h | h <;> simp [Segments.get, h]
  have htext : s.text = s.scheme ++ (s.toList.drop 1).flatten := rfl
  have hofs : (assemble s).ofsUser = s.scheme.length := rfl
  have hsub (k : ℕ) (hk : s.scheme.length = name.length + k) (hname : name <+: s.scheme) :
      (assemble s).substrText 0 ((assemble s).ofsUser - k) = name := by
    obtain ⟨post, hpost⟩ := hname
    have hlen : ((assemble s).ofsUser - k).toNat = name.length := by rw [hofs]; omega
    rw [substrText, hlen]
    change substr s.text 0 _ = _
    rw [htext, ← hpost, List.append_assoc]
    exact substr_append [] name _
  have hslashes : (assemble s).hasSlashes = (s.text[s.scheme.length - 1]? == some slash) := by
    rw [hasSlashes, hempty, Bool.not_false, Bool.true_and, hofs]
    congr 2
    omega
  rw [scheme, hempty, if_neg (by simp), lib.asciiLowercase_eq, hslashes, htext]
  rcases h with h | h
  · have hlast : (s.scheme ++ (s.toList.drop 1).flatten)[s.scheme.length - 1]? = some colon := by
      rw [h]
      simp
    rw [hlast, if_neg (by decide)]
    exact congrArg (List.map toLower) (hsub 1 (by simp [h]) ⟨_, h.symm⟩)
  · have hlast : (s.scheme ++ (s.toList.drop 1).flatten)[s.scheme.length - 1]? = some slash := by
      rw [h]
      simp
    rw [hlast, if_pos (by decide)]
    exact congrArg (List.map toLower) (hsub 3 (by simp [h]) ⟨_, h.symm⟩)

end Assemble

end Uri

end RsIo
