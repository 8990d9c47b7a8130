import RsIo.UriHost
import RsIo.UriPath

/-!
# Offsets in 32 Bits

The offsets of a `Uri` are members of type `int`, and so are the lengths that they are
computed from. The other modules take them for integers of any size. A text of fewer than
`2 ^ 31` bytes has no offsets that would not fit, so that this makes no difference for a
program whose texts are all shorter.

With a longer text the offsets are not what they should be. A host of `2 ^ 32` bytes counts
for nothing: its first bytes are then taken for the path, without a slash in it.

## Main results

* `reachable_of_short`: what a program builds with short texts is what it would build with
  offsets of any size.
* `parent_root`: each parent is shorter, and the last one is the root.
* `dir_append_leaf`: the directory and the leaf make up the path.
-/

namespace RsIo

open StdString

namespace Uri

/-! ### Objects with 32 bits for an offset -/

/-- The conversion to `int`. A sum that does not fit is undefined, and wraps around here as
the conversion does. -/
def toInt (n : ℤ) : ℤ := n.bmod (2 ^ 32)

/-- The object with its offsets in members of type `int`. -/
def stored (u : Uri) : Uri where
  text := u.text
  ofsUser := toInt u.ofsUser
  ofsPassword := toInt u.ofsPassword
  ofsHost := toInt u.ofsHost
  ofsPort := toInt u.ofsPort
  ofsPath := toInt u.ofsPath
  ofsQuery := toInt u.ofsQuery
  ofsFragment := toInt u.ofsFragment

/-- The text has offsets that fit. -/
def Short (u : Uri) : Prop := u.text.length < 2 ^ 31

/-- Whether offsets are in order can be computed. -/
instance (u : Uri) : Decidable u.Ordered := by
  unfold Ordered
  infer_instance

/-- A program that works on one object with offsets of type `int`. The functions of the
string throw for a position that is not in it, or see a wrong length: what a call does to an
object with such an offset is not followed. -/
def intObjects (lib : UriLibs) : Machine Uri Event where
  start := {}
  next u e := if u.Ordered then some (stored (after lib u e)) else none

/-- The event leaves a text that has offsets that fit. -/
def StaysShort (lib : UriLibs) (u : Uri) (e : Event) : Prop := (after lib u e).Short

/-- An offset into a short text is not changed. -/
theorem toInt_eq {n : ℤ} (hn : 0 ≤ n) (hfits : n < 2 ^ 31) : toInt n = n := by
  rw [toInt]
  exact Int.bmod_eq_of_le (by omega) (by omega)

/-- The offsets into a short text fit. -/
theorem stored_eq {u : Uri} (hordered : u.Ordered) (hshort : u.Short) : stored u = u := by
  obtain ⟨huser, hpassword, hhost, hport, hpath, hquery, hfragment, hend⟩ := hordered
  rw [Short] at hshort
  apply Uri.ext
  · rfl
  all_goals exact toInt_eq (by omega) (by omega)

/-- What is reachable has its offsets in order. -/
theorem Reachable.ordered {lib : UriLibs} {u : Uri} (h : Reachable lib u) : u.Ordered := by
  obtain ⟨s, -, rfl⟩ := h.exists_segments
  exact ordered_assemble s

/-- What is reachable after one more event is reachable. -/
theorem Reachable.after {lib : UriLibs} {u : Uri} (h : Reachable lib u) (e : Event) :
    Reachable lib (after lib u e) := by
  cases e with
  | parse t => exact h.parse t
  | call op => exact h.call op

/-- **Short texts.** As long as all texts are short, a program builds the same objects with
offsets of type `int` as with offsets of any size. -/
theorem reachable_of_short {lib : UriLibs} {u : Uri}
    (h : (intObjects lib).Reach (StaysShort lib) u) : Reachable lib u ∧ u.Short := by
  refine h.invariant (I := fun u => Reachable lib u ∧ u.Short)
    ⟨.new, by simp [intObjects, Short]⟩ ?_
  rintro u e u' ⟨hu, -⟩ hok hnext
  obtain ⟨-, rfl⟩ := Machine.of_guard hnext
  have hafter := hu.after e
  rw [stored_eq hafter.ordered hok]
  exact ⟨hafter, hok⟩

/-! ### Parents -/

/-- The parent of a URI with more than a slash for a path has a shorter path, which starts the
old one and ends in a slash. The parent of another URI is its base. After as many parents as
the path has characters behind the first one, but at least one, there is the root. -/
def ParentsLead (u : Uri) : Prop :=
  (1 < (u.raw .path).length → ((stored u.parent).raw .path).length < (u.raw .path).length ∧
    (stored u.parent).raw .path <+: u.raw .path ∧
      ((stored u.parent).raw .path).getLast? = some slash) ∧
  ((u.raw .path).length ≤ 1 → stored u.parent = stored u.base) ∧
  ∀ m, 1 ≤ m → (u.raw .path).length ≤ m + 1 →
    (fun v => stored v.parent)^[m] u = stored u.root

section Parents

variable {lib : UriLibs} {u : Uri}

/-- A parent has no longer text. -/
theorem Reachable.short_parent (h : Reachable lib u) (hshort : u.Short) : u.parent.Short := by
  obtain ⟨s, hs, rfl⟩ := h.exists_segments
  rw [parent_assemble hs]
  have hpath := (parentPath_isPrefix s.path).length_le
  simp only [Short, assemble, Segments.text, Segments.toList, List.flatten_cons,
    List.flatten_nil, List.length_append, List.length_nil] at hshort ⊢
  omega

/-- The offsets of all parents fit. -/
theorem iterate_stored_parent (h : Reachable lib u) (hshort : u.Short) (m : ℕ) :
    (fun v => stored v.parent)^[m] u = parent^[m] u := by
  induction m generalizing u with
  | zero => rfl
  | succ m ih =>
    have hparent : Reachable lib u.parent := h.call .parent
    have hshort' := h.short_parent hshort
    rw [Function.iterate_succ_apply, Function.iterate_succ_apply,
      stored_eq hparent.ordered hshort']
    exact ih hparent hshort'

/-- A root has no longer text. -/
theorem Reachable.short_root (h : Reachable lib u) (hshort : u.Short) : u.root.Short := by
  obtain ⟨s, hs, rfl⟩ := h.exists_segments
  rw [root_assemble]
  have hpath : (Segments.rootPath s.path).length ≤ s.path.length := by
    rw [Segments.rootPath]
    split
    next => simp
    next hne => exact List.length_pos_iff.mpr (by simpa using hne)
  simp only [Segments.rootPath] at hpath
  simp only [Short, assemble, Segments.text, Segments.toList, List.flatten_cons,
    List.flatten_nil, List.length_append, List.length_nil] at hshort ⊢
  omega

/-- **Parents.** They lead to the root if all texts are short. -/
theorem parent_root (h : (intObjects lib).Reach (StaysShort lib) u) : u.ParentsLead := by
  obtain ⟨hreach, hshort⟩ := reachable_of_short h
  obtain ⟨hlong, hbase, hroot⟩ := iterate_parent hreach
  have hparent := stored_eq (hreach.call .parent).ordered (hreach.short_parent hshort)
  have hstored := stored_eq (hreach.call .root).ordered (hreach.short_root hshort)
  refine ⟨fun hpath => ?_, fun hpath => by rw [hbase hpath], fun m hone hm => ?_⟩
  · rw [show stored u.parent = u.parent from hparent]
    exact hlong hpath
  · rw [iterate_stored_parent hreach hshort, hroot m hone hm]
    exact hstored.symm

end Parents

/-- More parents than needed from `a://h/b//c/`. -/
theorem parent_root_slashes :
    (fun v => stored v.parent)^[5] ⟨bytes "a://h/b//c/", 4, 4, 4, 5, 5, 11, 11⟩ =
      stored (root ⟨bytes "a://h/b//c/", 4, 4, 4, 5, 5, 11, 11⟩) := by
  have hreach : (intObjects .ascii).Reach (StaysShort .ascii)
      ⟨bytes "a://h/b//c/", 4, 4, 4, 5, 5, 11, 11⟩ :=
    .step (e := .parse (bytes "a://h/b//c/")) .start
      (show (bytes "a://h/b//c/").length < 2 ^ 31 by decide) (by decide +kernel)
  exact (parent_root hreach).2.2 5 (by decide) (by decide +kernel)

/-! ### The directory and the leaf -/

/-- The directory and the leaf make up the path. The directory is empty if the path is, and
otherwise starts and ends with a slash. -/
def PathSplits (lib : UriGetterLibs) (u : Uri) : Prop :=
  u.pathDir lib ++ u.pathLeaf lib = u.path lib ∧ (u.pathDir lib = [] ↔ u.raw .path = []) ∧
    (u.raw .path ≠ [] →
      (u.pathDir lib).head? = some slash ∧ (u.pathDir lib).getLast? = some slash)

/-- **Directory and leaf.** They make up the path if all texts are short. -/
theorem dir_append_leaf {lib : UriGetterLibs} {u : Uri}
    (h : (intObjects lib.toUriLibs).Reach (StaysShort lib.toUriLibs) u) : u.PathSplits lib :=
  pathDir_append_pathLeaf (reachable_of_short h).1

/-- An escape in each half, and one that is cut short. -/
theorem dir_append_leaf_escapes :
    (Uri.pathDir .ascii ⟨bytes "a:/%41%4/%42%", 2, 2, 2, 2, 2, 13, 13⟩ ++
        Uri.pathLeaf .ascii ⟨bytes "a:/%41%4/%42%", 2, 2, 2, 2, 2, 13, 13⟩ =
      Uri.path .ascii ⟨bytes "a:/%41%4/%42%", 2, 2, 2, 2, 2, 13, 13⟩) ∧
    Uri.path .ascii ⟨bytes "a:/%41%4/%42%", 2, 2, 2, 2, 2, 13, 13⟩ = bytes "/A%4/B%" := by
  have hreach : (intObjects .ascii).Reach (StaysShort .ascii)
      ⟨bytes "a:/%41%4/%42%", 2, 2, 2, 2, 2, 13, 13⟩ :=
    .step (e := .parse (bytes "a:/%41%4/%42%")) .start
      (show (bytes "a:/%41%4/%42%").length < 2 ^ 31 by decide) (by decide +kernel)
  have hsplits : (Uri.mk (bytes "a:/%41%4/%42%") 2 2 2 2 2 13 13).PathSplits .ascii :=
    dir_append_leaf hreach
  exact ⟨hsplits.1, by decide +kernel⟩

/-! ### A host that is too long -/

/-- The object `a:/b` after its host was set to `2 ^ 32` letters: the offsets are the same as
before. -/
def overlong (rest : Bytes) : Uri :=
  ⟨bytes "a:" ++ ([97, 97] ++ rest) ++ bytes "/b", 2, 2, 2, 2, 2, 4, 4⟩

/-- A host of safe characters is not changed by encoding. -/
theorem encode_of_safe {lib : UriLibs} {s : Bytes} (h : ∀ c ∈ s, isSafe lib [] c = true) :
    encode lib s = s := by
  rw [encode, encodeLoop_eq_flatMap, List.flatMap_congr (g := fun c => [c]) fun c hc => by
    rw [if_pos (h c hc)]]
  exact List.flatMap_singleton' _

/-- A program can build it. -/
theorem exists_overlong : ∃ rest, (intObjects .ascii).Reachable (overlong rest) := by
  obtain ⟨rest, hlen, hall⟩ : ∃ rest : Bytes, rest.length = 2 ^ 32 - 2 ∧ ∀ c ∈ rest, c = 97 :=
    ⟨List.replicate (2 ^ 32 - 2) 97, List.length_replicate, fun c hc => List.eq_of_mem_replicate hc⟩
  have hparsed : (intObjects .ascii).Reachable ⟨bytes "a:/b", 2, 2, 2, 2, 2, 4, 4⟩ :=
    .step (e := .parse (bytes "a:/b")) .start trivial (by decide +kernel)
  have hsafe : ∀ c ∈ [97, 97] ++ rest, isSafe .ascii [] c = true := by
    intro c hc
    obtain rfl : c = 97 := by
      rcases List.mem_append.mp hc with hc | hc
      · simpa using hc
      · exact hall c hc
    decide
  have hlength : ([97, 97] ++ rest : Bytes).length = 2 ^ 32 := by
    rw [List.length_append, hlen]
    rfl
  refine ⟨rest, hparsed.step (e := .call (.setHost ([97, 97] ++ rest))) trivial ?_⟩
  have hset : setHost .ascii ⟨bytes "a:/b", 2, 2, 2, 2, 2, 4, 4⟩ ([97, 97] ++ rest) = .returned
      ⟨bytes "a:" ++ ([97, 97] ++ rest) ++ bytes "/b", 2, 2, 2, 2 + 2 ^ 32, 2 + 2 ^ 32, 4 + 2 ^ 32,
        4 + 2 ^ 32⟩ := by
    rw [setHost, if_neg (by decide), if_neg (by simp), encode_of_safe hsafe]
    simp only [hlength]
    rfl
  have hordered : Ordered ⟨bytes "a:/b", 2, 2, 2, 2, 2, 4, 4⟩ := by decide
  simp only [intObjects, if_pos hordered, after, Op.run, hset, Outcome.object]
  rfl

/-- The parents of such an object do not lead to its root. -/
theorem overlong_parent (rest : Bytes) : ¬ (overlong rest).ParentsLead := by
  rintro ⟨hlong, -⟩
  have hraw : (overlong rest).raw .path = [97, 97] := rfl
  have hbase : (overlong rest).base = ⟨bytes "a:aa", 2, 2, 2, 2, 2, 4, 4⟩ := by
    have hsplit : (overlong rest).text = bytes "a:aa" ++ (rest ++ bytes "/b") := rfl
    have htext : (overlong rest).resizeText 4 = bytes "a:aa" := resizeText_eq hsplit rfl
    change Uri.mk ((overlong rest).resizeText 4) 2 2 2 2 2 4 4 = _
    rw [htext]
  have hparent : (overlong rest).parent = ⟨bytes "a:", 2, 2, 2, 2, 2, 2, 2⟩ := by
    rw [parent, hbase]
    decide +kernel
  have hslash := (hlong (by rw [hraw]; decide)).2.2
  rw [hparent] at hslash
  revert hslash
  decide

/-- The directory of such an object is empty, and its path is not. -/
theorem overlong_path (rest : Bytes) (lib : UriGetterLibs) : ¬ (overlong rest).PathSplits lib := by
  rintro ⟨-, hempty, -⟩
  have hraw : (overlong rest).raw .path = [97, 97] := rfl
  have hcut : (overlong rest).findPathCut = 2 := by
    change findSlash (overlong rest).text 2 3 + 1 = 2
    rw [findSlash, if_pos ⟨by decide, by simp [overlong, bytes, slash]⟩]
    rw [findSlash, if_pos ⟨by decide, by simp [overlong, bytes, slash]⟩]
    rw [findSlash, if_neg (by omega)]
    rfl
  rw [hraw] at hempty
  refine absurd (hempty.mp ?_) (by decide)
  rw [pathDir, hcut]
  rfl

/-- The parents of everything reachable do not lead to the root if texts may be long. -/
theorem parent_root_fails : ¬ ∀ (lib : UriLibs) (u : Uri),
    (intObjects lib).Reachable u → u.empty = false → u.ParentsLead := by
  intro hall
  obtain ⟨rest, hreach⟩ := exists_overlong
  exact overlong_parent rest (hall .ascii _ hreach rfl)

/-- Nor do the directory and the leaf split the path of everything reachable. -/
theorem dir_append_leaf_fails : ¬ ∀ (lib : UriGetterLibs) (u : Uri),
    (intObjects lib.toUriLibs).Reachable u → u.PathSplits lib := by
  intro hall
  obtain ⟨rest, hreach⟩ := exists_overlong
  exact overlong_path rest .ascii (hall .ascii _ hreach)

end Uri

end RsIo
