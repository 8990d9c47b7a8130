import RsIo.UriGetters
import RsIo.UriReachable
import Mathlib.Logic.Function.Iterate

/-!
# The Path of a URI

`Uri::parent` takes the last element of the path away, and `Uri::path_dir` and
`Uri::path_leaf` cut the path behind its last slash. All three scan the text backwards from
the end of the path.

The directory and the leaf are decoded separately. That makes no difference, since a slash is
neither a `%` nor a hexadecimal digit and no escape reaches over it.

## Main results

* `iterate_parent`: each parent is shorter, and the last one is the root.
* `pathDir_append_pathLeaf`: the directory and the leaf make up the path.
-/

namespace RsIo

open StdString

namespace Uri

/-! ### Parents -/

namespace Segments

/-- The path of the root. -/
def rootPath (path : Bytes) : Bytes := if path.isEmpty then [] else [slash]

/-- The parent of a path of more than a slash is a shorter path that ends in a slash. -/
theorem parentPath_shorter {path : Bytes} (hhead : [slash] <+: path) (hlong : 1 < path.length) :
    (parentPath path).length < path.length ∧ (parentPath path).getLast? = some slash := by
  obtain ⟨t, rfl⟩ := hhead
  rw [List.singleton_append] at hlong ⊢
  have ht : t ≠ [] := by
    rintro rfl
    simp at hlong
  rw [parentPath, if_pos hlong]
  set x : Bytes := if (slash :: t).getLast? = some slash then (slash :: t).dropLast else slash :: t
    with hx
  have hmem : slash ∈ x := by
    rw [hx]
    split
    · rw [List.dropLast_cons_of_ne_nil ht]
      exact List.mem_cons_self
    · exact List.mem_cons_self
  have hne : x.rdropWhile (· != slash) ≠ [] := fun hnil => by
    have hall := List.rdropWhile_eq_nil_iff.mp hnil slash hmem
    simp at hall
  have hlast : (x.rdropWhile (· != slash)).getLast? = some slash := by
    have hstop := List.rdropWhile_last_not (· != slash) x hne
    rw [List.getLast?_eq_some_getLast hne]
    simpa using hstop
  refine ⟨?_, hlast⟩
  have hpre := List.rdropWhile_prefix (· != slash) (l := x)
  by_cases hslash : (slash :: t).getLast? = some slash
  · rw [if_pos hslash] at hx
    refine hpre.length_le.trans_lt ?_
    rw [hx, List.length_dropLast, List.length_cons]
    omega
  · rw [if_neg hslash] at hx
    refine lt_of_le_of_ne (hx ▸ hpre.length_le) fun hlen => ?_
    rw [hpre.eq_of_length (by rw [hlen, hx]), hx] at hlast
    exact hslash hlast

theorem parentPath_short {path : Bytes} (h : path.length ≤ 1) : parentPath path = path :=
  if_neg (Nat.not_lt.mpr h)

/-- Enough parents lead to the root. -/
theorem iterate_parentPath {path : Bytes} (h : path = [] ∨ [slash] <+: path) {m : ℕ}
    (hm : path.length ≤ m + 1) : parentPath^[m] path = rootPath path := by
  induction m generalizing path with
  | zero =>
      rcases h with rfl | ⟨t, rfl⟩
      · rfl
      · obtain rfl : t = [] := by simpa using hm
        rfl
  | succ m ih =>
      rw [Function.iterate_succ_apply]
      by_cases hlong : 1 < path.length
      · have hhead := h.resolve_left fun hnil => by simp [hnil] at hlong
        obtain ⟨hlt, hlast⟩ := parentPath_shorter hhead hlong
        rw [ih (slash_isPrefix h (parentPath_isPrefix path)) (by omega), rootPath, rootPath]
        have hne : parentPath path ≠ [] := fun hnil => by simp [hnil] at hlast
        have hpath : path ≠ [] := fun hnil => by simp [hnil] at hlong
        simp [hne, hpath]
      · rw [parentPath_short (Nat.le_of_not_lt hlong)]
        exact ih h (by omega)

end Segments

theorem iterate_parent_assemble {s : Segments} (h : s.Wf) (m : ℕ) :
    parent^[m + 1] (assemble s) = assemble { s with
      path := Segments.parentPath^[m + 1] s.path, query := [], fragment := [] } := by
  induction m generalizing s with
  | zero => exact parent_assemble h
  | succ m ih =>
      rw [Function.iterate_succ_apply, parent_assemble h,
        ih (h.base.setPath (slash_isPrefix h.path (parentPath_isPrefix s.path)))]
      rfl

/-- **Parents.** The parent of a URI with more than a slash for a path has a shorter path, which
starts the old one and ends in a slash. The parent of another URI is its base. After as many
parents as the path has characters behind the first one, but at least one, there is the root. -/
theorem iterate_parent {lib : UriLibs} {u : Uri} (h : Reachable lib u) :
    (1 < (u.raw .path).length → (u.parent.raw .path).length < (u.raw .path).length ∧
      u.parent.raw .path <+: u.raw .path ∧ (u.parent.raw .path).getLast? = some slash) ∧
    ((u.raw .path).length ≤ 1 → u.parent = u.base) ∧
    ∀ m, 1 ≤ m → (u.raw .path).length ≤ m + 1 → parent^[m] u = u.root := by
  obtain ⟨s, hs, rfl⟩ := h.exists_segments
  rw [parent_assemble hs, base_assemble, root_assemble, raw_assemble, raw_assemble]
  refine ⟨fun hlong => ?_, fun hshort => ?_, fun m hone hm => ?_⟩
  · have hhead := hs.path.resolve_left fun hnil => by simp [Segments.get, hnil] at hlong
    obtain ⟨hlt, hlast⟩ := Segments.parentPath_shorter hhead hlong
    exact ⟨hlt, parentPath_isPrefix s.path, hlast⟩
  · have hpath : Segments.parentPath s.path = s.path := Segments.parentPath_short hshort
    rw [hpath]
  · obtain ⟨m, rfl⟩ := Nat.exists_eq_add_of_le' hone
    rw [iterate_parent_assemble hs, Segments.iterate_parentPath hs.path hm]
    rfl

/-! ### The directory and the leaf -/

/-- The loop of `Uri::find_path_cut`: the last slash at or before `i`, or the position before
the path if there is none. -/
def findSlash (text : Bytes) (ofsPath i : ℤ) : ℤ :=
  if i ≥ ofsPath ∧ text[i.toNat]? ≠ some slash then findSlash text ofsPath (i - 1) else i
termination_by (i - ofsPath + 1).toNat

/-- `Uri::find_path_cut`. -/
def findPathCut (u : Uri) : ℤ := findSlash u.text u.ofsPath (u.ofsQuery - 1) + 1

/-- `Uri::path_dir`. -/
def pathDir (lib : UriGetterLibs) (u : Uri) : Bytes :=
  let cut := u.findPathCut
  decode lib (u.substrText u.ofsPath (cut - u.ofsPath))

/-- `Uri::path_leaf`. -/
def pathLeaf (lib : UriGetterLibs) (u : Uri) : Bytes :=
  let cut := u.findPathCut
  decode lib (u.substrText cut (u.ofsQuery - cut))

/-- No escape reaches over a slash. -/
theorem unescape_append_slash (lib : UriGetterLibs) : ∀ a b : Bytes,
    unescape lib (a ++ slash :: b) = unescape lib a ++ slash :: unescape lib b
  | [], b => unescape_cons lib fun _ _ _ hc => absurd hc (by decide)
  | c :: a, b => by
      by_cases hesc : ∃ x y r, c = percent ∧ a = x :: y :: r ∧ (isHexDigit x && isHexDigit y) = true
      · obtain ⟨x, y, r, rfl, rfl, hhex⟩ := hesc
        have ih := unescape_append_slash lib r b
        have hif : (percent == percent && isHexDigit x && isHexDigit y) = true := by
          simpa using hhex
        rw [List.cons_append, List.cons_append, List.cons_append, unescape, unescape, if_pos hif,
          if_pos hif, ih, List.cons_append]
      · have ih := unescape_append_slash lib a b
        rw [List.cons_append, unescape_cons lib, ih, unescape_cons lib, List.cons_append]
        · rintro x y r rfl rfl
          rw [← Bool.not_eq_true]
          exact fun hhex => hesc ⟨x, y, r, rfl, rfl, hhex⟩
        · rintro x y r rfl heq
          rw [← Bool.not_eq_true]
          intro hhex
          -- the slash would be one of the digits
          rcases a with _ | ⟨d, _ | ⟨e, a⟩⟩
          · rw [← (List.cons.inj heq).1] at hhex
            simp [isHexDigit, isDigit, slash] at hhex
          · rw [← (List.cons.inj (List.cons.inj heq).2).1] at hhex
            simp [isHexDigit, isDigit, slash] at hhex
          · rw [← (List.cons.inj heq).1, ← (List.cons.inj (List.cons.inj heq).2).1] at hhex
            exact hesc ⟨d, e, a, rfl, rfl, hhex⟩

/-- The loop finds the end of the path without its leaf. -/
theorem findSlash_assemble {s : Segments} {i : ℕ} (hi : i ≤ s.path.length) :
    findSlash (assemble s).text (assemble s).ofsPath ((assemble s).ofsPath + i - 1) =
      (assemble s).ofsPath + ((s.path.take i).rdropWhile (· != slash)).length - 1 := by
  induction i with
  | zero =>
      rw [findSlash, if_neg (by omega)]
      rfl
  | succ i ih =>
      obtain ⟨c, hc⟩ : ∃ c, s.path[i]? = some c := ⟨_, List.getElem?_eq_getElem hi⟩
      have htake : s.path.take (i + 1) = s.path.take i ++ [c] := by
        rw [List.take_add_one, hc, Option.toList_some]
      have hofs : (assemble s).ofsPath + ((i + 1 : ℕ) : ℤ) - 1 = (assemble s).ofsPath + i := by
        omega
      rw [hofs, findSlash, getElem?_path hi, hc, htake]
      by_cases hslash : c = slash
      · rw [if_neg (by simp [hslash]), List.rdropWhile_concat_neg _ _ _ (by simp [hslash]),
          List.length_append, List.length_take, Nat.min_eq_left (by omega), List.length_singleton]
        omega
      · rw [if_pos ⟨by omega, by simpa using hslash⟩, ih (by omega),
          List.rdropWhile_concat_pos _ _ _ (by simp [hslash])]

section Cut

variable (lib : UriGetterLibs) (s : Segments)

theorem findPathCut_assemble : (assemble s).findPathCut =
    (assemble s).ofsPath + (s.path.rdropWhile (· != slash)).length := by
  have hofs : (assemble s).ofsQuery - 1 = (assemble s).ofsPath + s.path.length - 1 := rfl
  rw [findPathCut, hofs, findSlash_assemble le_rfl, List.take_length]
  omega

/-- The raw path up to its last slash, and behind it. -/
theorem rdropWhile_append_path :
    s.path.rdropWhile (· != slash) ++ s.path.rtakeWhile (· != slash) = s.path :=
  List.rdropWhile_append_rtakeWhile

theorem pathDir_assemble :
    (assemble s).pathDir lib = decode lib (s.path.rdropWhile (· != slash)) := by
  have hsplit := rdropWhile_append_path s
  refine congrArg (decode lib) (substrText_assemble .path [] _
    (by rw [List.nil_append, hsplit]; rfl) ?_ ?_)
  · exact (Int.add_zero _).symm
  · rw [findPathCut_assemble]
    omega

theorem pathLeaf_assemble :
    (assemble s).pathLeaf lib = decode lib (s.path.rtakeWhile (· != slash)) := by
  have hsplit := rdropWhile_append_path s
  have hlen := congrArg List.length hsplit
  have hofs : (assemble s).ofsQuery = (assemble s).ofsPath + s.path.length := rfl
  rw [List.length_append] at hlen
  refine congrArg (decode lib) (substrText_assemble .path _ []
    (by rw [List.append_nil, hsplit]; rfl) (findPathCut_assemble s) ?_)
  rw [findPathCut_assemble]
  omega

end Cut

/-- **Directory and leaf.** They make up the path. The directory is empty if the path is, and
otherwise starts and ends with a slash. -/
theorem pathDir_append_pathLeaf {lib : UriGetterLibs} {u : Uri} (h : Reachable lib.toUriLibs u) :
    u.pathDir lib ++ u.pathLeaf lib = u.path lib ∧
      (u.pathDir lib = [] ↔ u.raw .path = []) ∧
      (u.raw .path ≠ [] →
        (u.pathDir lib).head? = some slash ∧ (u.pathDir lib).getLast? = some slash) := by
  obtain ⟨s, hs, rfl⟩ := h.exists_segments
  rw [pathDir_assemble, pathLeaf_assemble, path_assemble, raw_assemble, Segments.get, decode_eq,
    decode_eq, decode_eq]
  have hsplit := rdropWhile_append_path s
  set dir := s.path.rdropWhile (· != slash) with hdir
  have hpre : dir <+: s.path := ⟨_, hsplit⟩
  rcases slash_isPrefix hs.path hpre with hempty | ⟨t, ht⟩
  · have hnil : s.path = [] := by
      rcases hs.path with hnil | hhead
      · exact hnil
      · have hmem : slash ∈ s.path := hhead.subset List.mem_cons_self
        have hall := List.rdropWhile_eq_nil_iff.mp (hdir.symm.trans hempty) slash hmem
        simp at hall
    rw [hempty, List.nil_append] at hsplit
    rw [hempty, hsplit]
    exact ⟨rfl, by simp [hnil, unescape], fun hne => absurd hnil hne⟩
  · have hne : dir ≠ [] := by simp [← ht]
    have hlast : dir.getLast hne = slash := by
      have hstop := List.rdropWhile_last_not (· != slash) s.path hne
      simpa using hstop
    obtain ⟨d, hd⟩ : ∃ d, dir = d ++ [slash] :=
      ⟨dir.dropLast, by rw [← hlast, List.dropLast_append_getLast]⟩
    have hfirst : unescape lib dir = slash :: unescape lib t := by
      rw [← ht]
      exact unescape_append_slash lib [] t
    have hend : unescape lib dir = unescape lib d ++ [slash] := by
      rw [hd]
      exact unescape_append_slash lib d []
    have hpath : s.path ≠ [] := fun hnil => hne (List.prefix_nil.mp (hnil ▸ hpre))
    refine ⟨?_, ?_, fun _ => ⟨?_, ?_⟩⟩
    · have hcut := unescape_append_slash lib d (s.path.rtakeWhile (· != slash))
      conv_rhs => rw [← hsplit, hd]
      rw [hend, List.append_assoc, List.append_assoc, List.singleton_append, List.singleton_append,
        hcut]
    · exact iff_of_false (by simp [hfirst]) hpath
    · rw [hfirst, List.head?_cons]
    · rw [hend, List.getLast?_concat]

end Uri

end RsIo
