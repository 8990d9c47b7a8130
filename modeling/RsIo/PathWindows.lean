import RsIo.Path
import RsIo.Regex

/-!
# File Names on Windows

The Windows branch of `class Path`. A name is a string of wide characters, and the number of
backslashes at its front says what it is: one for a path on the current drive, two for a path
on the network, and two with `?\` behind them for a long name. The passes of `make_canonical`
are those of the Unix branch with other limits, and two more at the end.

## Main results

* `new_driveAbsolute_iff`: which names with one backslash at the front stay on the current
  drive.
-/

namespace RsIo

open StdString

/-- A `std::wstring` on Windows. -/
abbrev Wide := List UInt16

/-- A `Path` on Windows: a file name that the constructor has brought into canonical form. -/
structure WindowsPath where
  filename : Wide
  deriving DecidableEq, Repr

namespace WindowsPath

/-- The character `\`, which is `native_delimiter`. -/
def backslash : UInt16 := 92

/-- The character `.`. -/
def wideDot : UInt16 := 46

/-- The character `:`. -/
def wideColon : UInt16 := 58

/-- The character `?`. -/
def wideQuestion : UInt16 := 63

/-- `native_delimiter` twice. -/
def ss : Wide := [backslash, backslash]

/-- `native_delimiter`, a dot, `native_delimiter`. -/
def sds : Wide := [backslash, wideDot, backslash]

/-- Whether a character is the delimiter. -/
def isBackslash (c : UInt16) : Bool := c == backslash

/-- `dumb_ascii_conversion`, one character. -/
def dumbAscii (c : UInt16) : UInt8 := if c ≤ 127 then c.toUInt8 else 95

/-! ### Roots -/

section Patterns

open Regex

/-- `[A-Z]` under the flag `icase`. -/
def isDriveLetter (c : UInt8) : Bool := (65 ≤ c && c ≤ 90) || (97 ≤ c && c ≤ 122)

/-- `\\`, the delimiter in a pattern. -/
def isSeparator (c : UInt8) : Bool := c == 92

/-- `[^?\\]`. -/
def isServerChar (c : UInt8) : Bool := c != 63 && c != 92

/-- `(\\{2}\?\\)?`: the front of a long name. -/
def longPrefix : Regex UInt8 := opt (literal [92, 92, 63, 92])

/-- `[A-Z]:\\`. -/
def driveRoot : Regex UInt8 := seq (char isDriveLetter) (literal [58, 92])

/-- `[A-Z]:\\?`. -/
def drive : Regex UInt8 :=
  seq (char isDriveLetter) (seq (literal [58]) (opt (literal [92])))

/-- `\\{2,}`. -/
def networkFront : Regex UInt8 := seq (literal [92, 92]) (many isSeparator)

/-- `\\{2,}[^?\\]+\\?`. -/
def serverRoot : Regex UInt8 :=
  seq networkFront (seq (many1 isServerChar) (opt (literal [92])))

/-- `\\+`. -/
def separators : Regex UInt8 := many1 isSeparator

/-- The first match of `(\\{2}\?\\)?` and one of several patterns behind it, at the start of
the string: what the pattern makes of what is left. -/
def firstMatch {β : Type} (patterns : List (Regex UInt8 × (Bytes → Option β))) (s : Bytes) :
    Option β :=
  run longPrefix s fun _ s => patterns.findSome? fun r => run r.1 s fun _ s => r.2 s

end Patterns

/-- The length of the first match in `Path::get_root`. -/
def rootSize (allowDriveSpecial : Bool) (asciiName : Bytes) : Option ℕ :=
  let count (rest : Bytes) : Option ℕ := some (asciiName.length - rest.length)
  firstMatch
    (if allowDriveSpecial then [(drive, count), (serverRoot, count), (separators, count)]
      else [(driveRoot, count), (serverRoot, count)])
    asciiName

/-- `Path::get_root`. -/
def getRoot (filename : Wide) (allowDriveSpecial : Bool) : Wide :=
  if filename.isEmpty then []
  else filename.take ((rootSize allowDriveSpecial (filename.map dumbAscii)).getD 0)

/-! ### The passes of `make_canonical` -/

/-- Replace slash delimiters. -/
def replaceSlashes (filename : Wide) : Wide :=
  filename.map fun c => if c == 47 then backslash else c

/-- Trim redundant leading slashes: two are kept. -/
def trimLeading (filename : Wide) : Wide :=
  let p := (findIf (! isBackslash ·) filename 0).getD filename.length
  if p > 2 then erase filename 0 (p - 2) else filename

/-- Replace `\.\` with `\`, from position `p` on. -/
def replaceDots (filename : Wide) (p : ℕ) : Wide :=
  match _h : find sds filename p with
  | none => filename
  | some p => replaceDots (erase filename p 2) p
termination_by filename.length
decreasing_by
  have hb : p + 3 ≤ filename.length := (find_bounds _h).2
  rw [length_erase (by omega)]
  omega

/-- Replace multiple backslashes with one, from position `p` on. -/
def mergeSlashes (filename : Wide) (p : ℕ) : Wide :=
  if p < filename.length then
    match _h : find ss filename p with
    | none => filename
    | some p =>
        let q := (findIf (! isBackslash ·) filename (p + 2)).getD filename.length
        mergeSlashes (erase filename (p + 1) (q - p - 1)) (p + 1)
  else filename
termination_by filename.length
decreasing_by
  have hb : p + 2 ≤ filename.length := (find_bounds _h).2
  have hq := findIf_getD_bounds (! isBackslash ·) hb
  rw [length_erase (by omega)]
  omega

/-- Trim trailing `\` and `\.`, down to `minRoot` characters. -/
def trimTrailing (minRoot : ℕ) (filename : Wide) : Wide :=
  if _h : filename.length > minRoot ∧ (filename.getLast? = some backslash ∨
      (filename.getLast? = some wideDot ∧
        filename[filename.length - 2]? = some backslash)) then
    trimTrailing minRoot filename.dropLast
  else filename
termination_by filename.length
decreasing_by
  rw [List.length_dropLast]
  omega

/-- Ensure a trailing slash on network paths. -/
def endNetwork (filename : Wide) : Wide :=
  if filename.length ≥ 3 ∧ filename[0]? = some backslash ∧ filename[1]? = some backslash ∧
      find [backslash] filename 2 = none then
    filename ++ [backslash]
  else filename

/-- Set the drive letter to upper case. The size of the root is that before the trailing
characters were trimmed. -/
def upperDrive (rootSize : ℕ) (filename : Wide) : Wide :=
  let drive :=
    if rootSize ≥ 3 ∧ filename[rootSize - 1]? = some backslash then some (rootSize - 3)
    else if rootSize ≥ 2 ∧ filename[rootSize - 1]? = some wideColon then some (rootSize - 2)
    else none
  match drive with
  | none => filename
  | some d =>
      let c := filename.getD d 0
      if 97 ≤ c ∧ c ≤ 122 ∧ filename[d + 1]? = some wideColon then filename.set d (c - 32)
      else filename

/-- `Path::make_canonical` up to its validation. -/
def makeCanonical (filename : Wide) : Wide :=
  let filename := replaceSlashes filename
  let filename := trimLeading filename
  let filename := replaceDots filename 0
  let filename := match findIf (fun c => c != wideQuestion && ! isBackslash c) filename 0 with
    | some p => mergeSlashes filename p
    | none => filename
  let rootSize := (getRoot filename true).length
  let filename := trimTrailing (max rootSize 1) filename
  upperDrive rootSize (endNetwork filename)

/-- The characters of `"*:<>?|`. -/
def isReserved (c : UInt16) : Bool :=
  c == 34 || c == 42 || c == 58 || c == 60 || c == 62 || c == 63 || c == 124

/-- `Path::is_legal` on a file name. -/
def isLegalName (filename : Wide) : Bool :=
  if filename.contains 0 then false
  else
    let root := getRoot filename true
    if root.isEmpty && filename.head? == some backslash then false
    else ! (filename.drop root.length).any isReserved

/-- The constructor of `Path` from a wide string. It throws `std::invalid_argument`, here with
the name it quotes, for an illegal name if the `legal_name` flag is set. -/
def new (file : Wide) (flags : PathFlags) : Except Wide WindowsPath :=
  let filename := makeCanonical file
  if flags.legalName && ! isLegalName filename then .error filename else .ok ⟨filename⟩

/-! ### Forms -/

/-- `Path::form`. -/
inductive Form
  | empty
  | absolute
  | driveAbsolute
  | driveRelative
  | relative
  deriving DecidableEq, Repr

variable (p : WindowsPath)

/-- `Path::is_absolute`. The lookahead `(?=[^?\\])` asks for another character. -/
def isAbsolute : Bool :=
  (firstMatch [(driveRoot, fun _ => some ()),
    (networkFront, fun rest => if rest.head?.any isServerChar then some () else none)]
    (p.filename.map dumbAscii)).isSome

/-- `Path::is_drive_absolute`. The character behind the last one is NUL. -/
def isDriveAbsolute : Bool :=
  ! p.filename.isEmpty && p.filename.getD 0 0 == backslash && p.filename.getD 1 0 != backslash

/-- `Path::is_drive_relative`. -/
def isDriveRelative : Bool :=
  p.filename.length ≥ 2 && 65 ≤ p.filename.getD 0 0 && p.filename.getD 0 0 ≤ 90 &&
    p.filename.getD 1 0 == wideColon && p.filename.getD 2 0 != backslash

/-- `Path::path_form`. -/
def pathForm : Form :=
  if p.filename.isEmpty then .empty
  else if p.isDriveAbsolute then .driveAbsolute
  else if p.isDriveRelative then .driveRelative
  else if p.isAbsolute then .absolute
  else .relative

/-! ### The front of a name -/

/-- `.\`, perhaps repeated, and then a backslash. -/
def DotsThenBackslash : Wide → Prop
  | c :: d :: t =>
      c = wideDot ∧ d = backslash ∧ (t.head? = some backslash ∨ DotsThenBackslash t)
  | _ => False

/-- A string at a place where a pattern was found. -/
theorem exists_split_of_find {pat f : Wide} {pos q : ℕ} (h : find pat f pos = some q) :
    ∃ pre post, f = pre ++ (pat ++ post) ∧ pre.length = q ∧ pos ≤ q := by
  obtain ⟨post, hpost⟩ := find_isPrefix h
  obtain ⟨hpos, hlen⟩ := find_bounds h
  refine ⟨f.take q, post, ?_, ?_, hpos⟩
  · rw [hpost, List.take_append_drop]
  · rw [List.length_take]
    omega

/-- The second pass keeps the characters up to the one where it starts. -/
theorem take_replaceDots (f : Wide) (p : ℕ) :
    (replaceDots f p).take (p + 1) = f.take (p + 1) := by
  fun_induction replaceDots f p with
  | case1 f p h => rfl
  | case2 f p q h ih =>
      obtain ⟨pre, post, rfl, rfl, hpos⟩ := exists_split_of_find h
      have herase : erase (pre ++ (sds ++ post)) pre.length 2 = (pre ++ [backslash]) ++ post := by
        have h := erase_append pre [backslash, wideDot] (backslash :: post)
        simpa [sds] using h
      have hsds : pre ++ (sds ++ post) =
          (pre ++ [backslash]) ++ (wideDot :: backslash :: post) := by
        simp [sds]
      have hle : p + 1 ≤ (pre ++ [backslash]).length := by
        rw [List.length_append, List.length_singleton]
        omega
      have hmin : min (p + 1) (pre.length + 1) = p + 1 := by omega
      rw [← hmin, ← List.take_take, ih, List.take_take, hmin, herase, hsds,
        List.take_append_of_le_length hle, List.take_append_of_le_length hle]

/-- So does the third pass. -/
theorem take_mergeSlashes (f : Wide) (p : ℕ) :
    (mergeSlashes f p).take (p + 1) = f.take (p + 1) := by
  fun_induction mergeSlashes f p with
  | case1 f p hlt h => rfl
  | case2 f p hlt p' h q ih =>
      obtain ⟨pre, post, rfl, rfl, hpos⟩ := exists_split_of_find h
      have hmin : min (p + 1) (pre.length + 1 + 1) = p + 1 := by omega
      have hle : p + 1 ≤ (pre ++ [backslash]).length := by
        rw [List.length_append, List.length_singleton]
        omega
      have hss : pre ++ (ss ++ post) = (pre ++ [backslash]) ++ (backslash :: post) := by
        simp [ss]
      have hlen : pre.length + 1 = (pre ++ [backslash]).length := by simp
      rw [← hmin, ← List.take_take, ih, List.take_take, hmin, hss, erase, hlen, List.take_left,
        List.take_append_of_le_length hle, List.take_append_of_le_length hle]
  | case3 f p hge => rfl

/-- The fourth pass keeps the front of a string. -/
theorem trimTrailing_isPrefix (m : ℕ) (f : Wide) :
    trimTrailing m f <+: f ∧ min m f.length ≤ (trimTrailing m f).length := by
  fun_induction trimTrailing m f with
  | case1 f h ih =>
      refine ⟨ih.1.trans (List.dropLast_prefix f), ?_⟩
      have hlen := ih.2
      rw [List.length_dropLast] at hlen
      omega
  | case2 f h => exact ⟨List.prefix_rfl, Nat.min_le_right _ _⟩

theorem replaceDots_none {f : Wide} {p : ℕ} (h : find sds f p = none) : replaceDots f p = f := by
  rw [replaceDots]
  split
  · rfl
  · simp_all

theorem replaceDots_some {f : Wide} {p q : ℕ} (h : find sds f p = some q) :
    replaceDots f p = replaceDots (erase f q 2) q := by
  rw [replaceDots]
  split
  · simp_all
  · simp_all

/-- The second pass takes `.\` away behind a backslash at the front. -/
theorem replaceDots_dot (t : Wide) :
    replaceDots (backslash :: wideDot :: backslash :: t) 0 = replaceDots (backslash :: t) 0 := by
  have hfind : find sds (backslash :: wideDot :: backslash :: t) 0 = some 0 :=
    find_append_self sds [] t
  rw [replaceDots_some hfind]
  rfl

/-- Where it finds nothing at the front it keeps the second character. -/
theorem replaceDots_keeps {t : Wide} (h : ¬ sds <+: backslash :: t) :
    (replaceDots (backslash :: t) 0)[1]? = t.head? := by
  have hfind : find sds (backslash :: t) 0 = find sds (backslash :: t) 1 :=
    find_append_cons [] h
  have hnext : replaceDots (backslash :: t) 0 = replaceDots (backslash :: t) 1 := by
    cases hq : find sds (backslash :: t) 1 with
    | none => rw [replaceDots_none hq, replaceDots_none (hfind.trans hq)]
    | some q => rw [replaceDots_some hq, replaceDots_some (hfind.trans hq)]
  have hsecond := congrArg (·[1]?) (take_replaceDots (backslash :: t) 1)
  rw [hnext]
  simpa [List.getElem?_take, List.head?_eq_getElem?] using hsecond

/-- The second pass puts a backslash behind a backslash exactly for `.\`, perhaps repeated, and
then a backslash. -/
theorem replaceDots_second {t : Wide} (ht : t.head? ≠ some backslash) :
    (replaceDots (backslash :: t) 0)[1]? = some backslash ↔ DotsThenBackslash t := by
  induction t using DotsThenBackslash.induct with
  | case1 c d t ih =>
      rw [DotsThenBackslash]
      by_cases h : c = wideDot ∧ d = backslash
      · obtain ⟨rfl, rfl⟩ := h
        rw [replaceDots_dot]
        by_cases hhead : t.head? = some backslash
        · have hnot : ¬ sds <+: backslash :: t := by
            obtain ⟨v, rfl⟩ := List.head?_eq_some_iff.mp hhead
            rintro ⟨u, hu⟩
            cases hu
          rw [replaceDots_keeps hnot]
          simp [hhead]
        · rw [ih hhead]
          simp [hhead]
      · have hnot : ¬ sds <+: backslash :: c :: d :: t := by
          rintro ⟨u, hu⟩
          cases hu
          exact h ⟨rfl, rfl⟩
        rw [replaceDots_keeps hnot]
        exact iff_of_false ht fun hdots => h ⟨hdots.1, hdots.2.1⟩
  | case2 t hshort =>
      have hnot : ¬ sds <+: backslash :: t := by
        rintro ⟨u, hu⟩
        cases hu
        exact hshort _ _ _ rfl
      rw [replaceDots_keeps hnot, DotsThenBackslash]
      · exact iff_of_false ht id
      · exact hshort

/-! ### Roots at two backslashes -/

/-- A match that is counted covers what it consumed. -/
theorem le_count {r : Regex UInt8} {s : Bytes} {total n : ℕ}
    (h : Regex.run r s (fun _ rest => some (total - rest.length)) = some n) :
    ∃ s₁ s₂ m, s = s₁ ++ s₂ ∧ r.Matches s₁ m ∧ n = total - s₂.length := by
  obtain ⟨s₁, s₂, m, rfl, hm, hn⟩ := Regex.run_sound h
  exact ⟨s₁, s₂, m, rfl, hm, (Option.some.inj hn).symm⟩

/-- The separators at the front are all taken. -/
theorem two_le_separators (t : Bytes) (total : ℕ) (htotal : total = t.length + 2) :
    ∃ n, Regex.run separators (92 :: 92 :: t) (fun _ rest => some (total - rest.length)) = some n ∧
      2 ≤ n := by
  have hrun : Regex.run separators (92 :: 92 :: t) (fun _ rest => some (total - rest.length)) =
      (Regex.runMany isSeparator t fun rest => some (total - rest.length)).or
        (some (total - (92 :: t).length)) := rfl
  have hsome : (Regex.run (.many isSeparator) t fun _ rest =>
      some (total - rest.length)).isSome = true :=
    Regex.run_isSome_iff.mpr ⟨[], t, [], rfl, ⟨by simp, rfl⟩, rfl⟩
  obtain ⟨n, hn⟩ := Option.isSome_iff_exists.mp hsome
  refine ⟨n, ?_, ?_⟩
  · rw [hrun]
    exact (congrArg (Option.or · _) hn).trans rfl
  · obtain ⟨s₁, s₂, -, rfl, -, rfl⟩ := le_count hn
    rw [List.length_append] at htotal
    omega

/-- The root of a name with two backslashes at its front has them both. -/
theorem two_le_rootSize (t : Bytes) :
    ∃ n, rootSize true (92 :: 92 :: t) = some n ∧ 2 ≤ n := by
  obtain ⟨n₀, hseparators, hn₀⟩ := two_le_separators t (92 :: 92 :: t).length (by simp)
  -- what the patterns make of the name behind the long prefix, or of all of it
  have hpatterns (s₁ s₂ : Bytes) (hs : 92 :: 92 :: t = s₁ ++ s₂)
      (hlong : 2 ≤ s₁.length ∨ s₁ = []) {n : ℕ}
      (h : [drive, serverRoot, separators].findSome? (fun r => Regex.run r s₂ fun _ rest =>
        some ((92 :: 92 :: t).length - rest.length)) = some n) : 2 ≤ n := by
    have hlen := congrArg List.length hs
    rw [List.length_append] at hlen
    rcases hlong with hlong | rfl
    · obtain ⟨r, -, hr⟩ := List.exists_of_findSome?_eq_some h
      obtain ⟨u, v, -, rfl, -, rfl⟩ := le_count hr
      rw [List.length_append] at hlen
      omega
    · rw [List.nil_append] at hs
      subst hs
      have hdrive : Regex.run drive (92 :: 92 :: t)
          (fun _ rest => some ((92 :: 92 :: t).length - rest.length)) = none := rfl
      rw [List.findSome?_cons, hdrive, List.findSome?_cons] at h
      cases hserver : Regex.run serverRoot (92 :: 92 :: t)
          (fun _ rest => some ((92 :: 92 :: t).length - rest.length)) with
      | none =>
          rw [hserver, List.findSome?_cons, hseparators] at h
          obtain rfl := Option.some.inj h
          exact hn₀
      | some k =>
          rw [hserver] at h
          obtain rfl := Option.some.inj h
          obtain ⟨u, v, -, huv, ⟨_, _, _, _, ⟨_, _, _, _, hfront, -, rfl, -⟩, -, rfl, -⟩, rfl⟩ :=
            le_count hserver
          obtain ⟨rfl, -⟩ := Regex.matches_literal hfront
          have hlen := congrArg List.length huv
          simp only [List.length_append, List.length_cons, List.length_nil] at hlen ⊢
          omega
  have hrun : rootSize true (92 :: 92 :: t) = Regex.run longPrefix (92 :: 92 :: t) fun _ s =>
      [drive, serverRoot, separators].findSome? fun r => Regex.run r s fun _ rest =>
        some ((92 :: 92 :: t).length - rest.length) := rfl
  have hsome : (rootSize true (92 :: 92 :: t)).isSome = true := by
    rw [hrun, Regex.run_isSome_iff]
    refine ⟨[], _, [], rfl, .inr ⟨rfl, rfl⟩, ?_⟩
    rw [List.findSome?_isSome_iff]
    exact ⟨separators, by simp, by rw [hseparators]; rfl⟩
  obtain ⟨n, hn⟩ := Option.isSome_iff_exists.mp hsome
  refine ⟨n, hn, ?_⟩
  rw [hrun] at hn
  obtain ⟨s₁, s₂, m, hs, hm, hcount⟩ := Regex.run_sound hn
  refine hpatterns s₁ s₂ hs ?_ hcount
  rcases hm with hm | ⟨rfl, -⟩
  · obtain ⟨rfl, -⟩ := Regex.matches_literal hm
    exact .inl (by simp)
  · exact .inr rfl

theorem two_le_getRoot (t : Wide) :
    2 ≤ (getRoot (backslash :: backslash :: t) true).length := by
  obtain ⟨n, hn, hle⟩ := two_le_rootSize (t.map dumbAscii)
  have hmap : (backslash :: backslash :: t).map dumbAscii = 92 :: 92 :: t.map dumbAscii := rfl
  rw [getRoot, if_neg (by simp), hmap, hn, Option.getD_some, List.length_take]
  simp
  omega

/-! ### The whole pass -/

/-- A string whose first two characters are told apart: a backslash at the front, and whether
there is another one behind it. -/
def Front (f : Wide) (network : Prop) : Prop :=
  f[0]? = some backslash ∧ (f[1]? = some backslash ↔ network)

theorem Front.of_take {f g : Wide} {network : Prop} (h : Front f network)
    (htake : g.take 2 = f.take 2) : Front g network := by
  have hget (i : ℕ) (hi : i < 2) : g[i]? = f[i]? := by
    have hsame := congrArg (·[i]?) htake
    simpa [List.getElem?_take, hi] using hsame
  rw [Front, hget 0 (by omega), hget 1 (by omega)]
  exact h

theorem Front.mergeSlashes {f : Wide} {network : Prop} {p : ℕ} (h : Front f network)
    (hp : findIf (fun c => c != wideQuestion && ! isBackslash c) f 0 = some p) :
    Front (mergeSlashes f p) network := by
  refine h.of_take ?_
  obtain ⟨c, hc, hmark⟩ := findIf_some hp
  have hpos : 0 < p := by
    by_contra hzero
    obtain rfl : p = 0 := by omega
    rw [h.1] at hc
    cases hc
    exact absurd hmark (by decide)
  have htake := congrArg (List.take 2) (take_mergeSlashes f p)
  rwa [List.take_take, List.take_take, Nat.min_eq_left (by omega)] at htake

/-- The root of a network path is not trimmed. -/
theorem Front.trimTrailing {f : Wide} {network : Prop} (h : Front f network) :
    Front (trimTrailing (max (getRoot f true).length 1) f) network := by
  obtain ⟨⟨w, hw⟩, hlen⟩ := trimTrailing_isPrefix (max (getRoot f true).length 1) f
  generalize WindowsPath.trimTrailing (max (getRoot f true).length 1) f = g at hw hlen ⊢
  by_cases hlong : 2 ≤ g.length
  · refine h.of_take ?_
    rw [← hw, List.take_append_of_le_length hlong]
  · -- a name of one character, which was not that of a network path
    have hpos := (List.getElem?_eq_some_iff.mp h.1).1
    have hone : g.length = 1 := by omega
    obtain ⟨c, rfl⟩ := List.length_eq_one_iff.mp hone
    obtain ⟨hfirst, hsecond⟩ := h
    rw [← hw, List.singleton_append, List.getElem?_cons_zero] at hfirst
    refine ⟨hfirst, ?_⟩
    rw [← hsecond]
    refine iff_of_false (by simp) fun hnetwork => ?_
    obtain rfl := Option.some.inj hfirst
    rw [← hw, List.singleton_append, List.getElem?_cons_succ, ← List.head?_eq_getElem?] at hnetwork
    obtain ⟨v, rfl⟩ := List.head?_eq_some_iff.mp hnetwork
    have hroot := two_le_getRoot v
    rw [← hw, List.singleton_append, List.length_singleton] at hlen
    simp only [List.length_cons] at hlen
    omega

theorem Front.endNetwork {f : Wide} {network : Prop} (h : Front f network) :
    Front (endNetwork f) network := by
  rw [WindowsPath.endNetwork]
  split
  · rename_i hlen
    refine h.of_take ?_
    rw [List.take_append_of_le_length (by omega)]
  · exact h

/-- A letter in upper case is no backslash, and was none before. -/
theorem Front.upperDrive {f : Wide} {network : Prop} (h : Front f network) (n : ℕ) :
    Front (upperDrive n f) network := by
  have hset {d : ℕ} (hd : 97 ≤ f.getD d 0 ∧ f.getD d 0 ≤ 122 ∧ f[d + 1]? = some wideColon) (i : ℕ) :
      (f.set d (f.getD d 0 - 32))[i]? = some backslash ↔ f[i]? = some backslash := by
    rw [List.getElem?_set]
    split
    · rename_i hdi
      subst hdi
      have hlt : d < f.length := by
        have := (List.getElem?_eq_some_iff.mp hd.2.2).1
        omega
      rw [if_pos hlt]
      have hget : f[d]? = some (f.getD d 0) := by simp [hlt]
      rw [hget]
      generalize f.getD d 0 = c at hd ⊢
      have hrange : 97 ≤ c.toNat ∧ c.toNat ≤ 122 :=
        ⟨UInt16.le_iff_toNat_le.mp hd.1, UInt16.le_iff_toNat_le.mp hd.2.1⟩
      constructor
      · intro heq
        have hsub := congrArg UInt16.toNat (Option.some.inj heq)
        have hle : (32 : UInt16) ≤ c := UInt16.le_iff_toNat_le.mpr
            (Nat.le_trans (by decide) hrange.1)
        have h32 : (32 : UInt16).toNat = 32 := rfl
        have h92 : backslash.toNat = 92 := rfl
        rw [UInt16.toNat_sub_of_le _ _ hle] at hsub
        omega
      · rintro ⟨rfl⟩
        exact absurd hrange (by decide)
    · rfl
  rw [WindowsPath.upperDrive]
  dsimp only
  split
  · exact h
  · split
    · rename_i hd
      rw [Front, hset hd, hset hd]
      exact h
    · exact h

theorem pathForm_driveAbsolute_iff (p : WindowsPath) {network : Prop}
    (h : Front p.filename network) : p.pathForm = .driveAbsolute ↔ ¬ network := by
  obtain ⟨hfirst, hsecond⟩ := h
  have hne : p.filename.isEmpty = false := by
    rw [List.isEmpty_eq_false_iff]
    rintro hnil
    rw [hnil] at hfirst
    simp at hfirst
  have hdrive : p.isDriveAbsolute = true ↔ p.filename[1]? ≠ some backslash := by
    rw [isDriveAbsolute, hne, List.getD_eq_getElem?_getD, List.getD_eq_getElem?_getD, hfirst]
    cases p.filename[1]? with
    | none => exact iff_of_true (by decide) (by simp)
    | some c => simp
  rw [← hsecond, ← Ne, ← hdrive, pathForm, hne]
  simp only [Bool.false_eq_true, if_false]
  split
  · simp_all
  · rename_i hnot
    refine iff_of_false ?_ hnot
    split
    · exact Form.noConfusion
    · split
      · exact Form.noConfusion
      · exact Form.noConfusion

/-- **The current drive.** A name with one backslash at its front, perhaps written as a slash,
stays a path on the current drive exactly if that backslash is not followed by `.\`, perhaps
repeated, and another backslash. -/
theorem new_driveAbsolute_iff {file t : Wide} {flags : PathFlags} {p : WindowsPath}
    (hnew : new file flags = .ok p) (hfile : replaceSlashes file = backslash :: t)
    (ht : t.head? ≠ some backslash) :
    p.pathForm = .driveAbsolute ↔ ¬ DotsThenBackslash t := by
  have hp : p = ⟨makeCanonical file⟩ := by
    rw [new] at hnew
    split at hnew
    · cases hnew
    · exact (Except.ok.inj hnew).symm
  subst hp
  refine pathForm_driveAbsolute_iff _ ?_
  have hleading : trimLeading (backslash :: t) = backslash :: t := by
    rw [trimLeading]
    refine if_neg ?_
    cases t with
    | nil => decide
    | cons c t =>
        have hc : (! isBackslash c) = true := by simpa [isBackslash] using ht
        have hle := findIf_zero_le (p := (! isBackslash ·)) [backslash] t hc
          (backslash :: c :: t).length
        rw [List.singleton_append, List.length_singleton] at hle
        omega
  have hdots : Front (replaceDots (backslash :: t) 0) (DotsThenBackslash t) := by
    have hfirst := congrArg (·[0]?) (take_replaceDots (backslash :: t) 0)
    refine ⟨?_, replaceDots_second ht⟩
    simpa [List.getElem?_take] using hfirst
  have hmerged : Front
      (match findIf (fun c => c != wideQuestion && ! isBackslash c)
          (replaceDots (backslash :: t) 0) 0 with
        | some p => mergeSlashes (replaceDots (backslash :: t) 0) p
        | none => replaceDots (backslash :: t) 0) (DotsThenBackslash t) := by
    split
    · rename_i p hp
      exact hdots.mergeSlashes hp
    · exact hdots
  have hall := (hmerged.trimTrailing).endNetwork.upperDrive
  rw [makeCanonical, hfile, hleading]
  exact hall _

/-- A name with slashes in it. -/
theorem new_driveAbsolute_foo :
    WindowsPath.pathForm ⟨[92, 102, 92, 98]⟩ = .driveAbsolute ↔
      ¬ DotsThenBackslash [102, 92, 46, 92, 98] :=
  @new_driveAbsolute_iff [47, 102, 47, 46, 47, 98] _ {} _ (by decide +kernel) (by decide)
    (by decide)

/-- A dot behind the backslash makes it the name of a server. -/
theorem new_driveAbsolute_fails :
    ¬ ∀ (file t : Wide) (flags : PathFlags) (p : WindowsPath), new file flags = .ok p →
      replaceSlashes file = backslash :: t → t.head? ≠ some backslash →
        p.pathForm = .driveAbsolute := by
  intro h
  have hnew : new [92, 46, 92, 92, 104] {} = .ok ⟨[92, 92, 104, 92]⟩ := by decide +kernel
  exact absurd (h _ _ _ _ hnew rfl (by decide)) (by decide +kernel)

end WindowsPath

end RsIo
