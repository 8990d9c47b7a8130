import RsIo.UriParse
import RsIo.UriQuery
import RsIo.UriReachable

/-!
# Reading Components Back

A setter encodes a component and puts it into the text with its punctuation, and a getter
cuts it out at the offsets and decodes it. On segments a getter decodes one of them without
its punctuation, so what a setter wrote is read back if the setter encoded it. `set_query`
does not.

The number of the port is read from the digits in the text, which the parser does not bound.

## Main results

* `set_read_iff`: a component that was set is read back, except a query with an escape.
* `tryParse_port_iff`: the port of a parsed URI is the number in it exactly if that is below
  65536.
-/

namespace RsIo

open StdString

namespace Uri

/-! ### The getters on segments -/

section Getters

variable (lib : UriGetterLibs) {s : Segments}

theorem user_assemble (s : Segments) : (assemble s).user lib = decode lib s.user :=
  congrArg (decode lib) (raw_assemble s .user)

theorem host_assemble (s : Segments) : (assemble s).host lib = decode lib s.host :=
  congrArg (decode lib) (raw_assemble s .host)

theorem password_assemble {p : Bytes} (h : s.password = colon :: p ++ [atSign]) :
    (assemble s).password lib = decode lib p := by
  have hlong : (assemble s).hasPassword = true := by
    rw [hasPassword_assemble, h]
    simp
  rw [password, if_pos hlong]
  refine congrArg (decode lib) (substrText_assemble .password [colon] [atSign]
    (by simp [Segments.get, h]) rfl ?_)
  simp only [assemble, h, List.length_append, List.length_cons, List.length_nil]
  omega

theorem query_assemble {q : Bytes} (h : s.query = question :: q) :
    (assemble s).query lib = decode lib q := by
  have hquery : (assemble s).hasQuery = true := by
    rw [hasQuery_assemble, h]
    rfl
  rw [query, if_pos hquery]
  refine congrArg (decode lib) (substrText_assemble .query [question] []
    (by simp [Segments.get, h]) rfl ?_)
  simp only [assemble, h, List.length_cons]
  omega

theorem fragment_assemble {f : Bytes} (h : s.fragment = hash :: f) :
    (assemble s).fragment lib = decode lib f := by
  have hfragment : (assemble s).hasFragment = true := by
    rw [hasFragment_assemble, h]
    rfl
  have htext : (assemble s).text = ((s.toList.take 7).flatten ++ [hash]) ++ f := by
    change s.toList.flatten = _
    simp [Segments.toList, h]
  have hlen : ((assemble s).ofsFragment + 1).toNat =
      ((s.toList.take 7).flatten ++ [hash]).length := by
    have hstart := start_assemble s .fragment
    simp only [start, Part.index] at hstart
    rw [hstart, List.length_append, List.length_singleton]
    omega
  rw [fragment, if_pos hfragment, htext, hlen, List.drop_left]

/-- The port is the number in its segment, as far as the types can hold it. -/
theorem port_assemble (hs : s.Wf) {digits : Bytes} (h : s.port = colon :: digits)
    (hne : digits ≠ []) (hall : ∀ c ∈ digits, isDigit c = true) :
    (assemble s).port = .ofNat (min (decimalValue digits) ullongMax) := by
  have hport : (assemble s).hasPort = true := by
    rw [hasPort_assemble, h]
    rfl
  have htext : (assemble s).text = ((s.toList.take 4).flatten ++ [colon]) ++
      (digits ++ (s.path ++ (s.query ++ s.fragment))) := by
    change s.toList.flatten = _
    simp [Segments.toList, h]
  have hlen : ((assemble s).ofsPort + 1).toNat =
      ((s.toList.take 4).flatten ++ [colon]).length := by
    have hstart := start_assemble s .port
    simp only [start, Part.index] at hstart
    rw [hstart, List.length_append, List.length_singleton]
    omega
  -- a path, a query or a fragment stops the digits
  have hstop : ∀ c, (s.path ++ (s.query ++ s.fragment)).head? = some c → isDigit c = false := by
    intro c hc
    rcases hs.path with hpath | ⟨w, hpath⟩
    · rcases hs.query with hquery | ⟨w, hquery⟩
      · rcases hs.fragment with hfragment | ⟨w, hfragment⟩
        · simp [hpath, hquery, hfragment] at hc
        · rw [hpath, hquery, ← hfragment] at hc
          cases hc
          decide
      · rw [hpath, ← hquery] at hc
        cases hc
        decide
    · rw [← hpath] at hc
      cases hc
      decide
  rw [port, if_pos hport, htext, hlen, List.drop_left, strtoull_digits hne hall hstop]
  split
  · rename_i hmax
    rw [Nat.min_eq_right (Nat.le_of_lt hmax)]
  · rename_i hmax
    rw [Nat.min_eq_left (Nat.le_of_not_lt hmax)]

end Getters

/-! ### The port of a parsed URI -/

/-- **The port.** The parser takes any number of digits, and the getter returns the number they
stand for exactly if it is below 65536. -/
theorem tryParse_port_iff {lib : UriLibs} {u v : Uri} {t digits : Bytes}
    (h : tryParse lib u t = (true, v)) (hport : v.raw .port = colon :: digits) :
    v.port.toNat = decimalValue digits ↔ decimalValue digits < 65536 := by
  obtain ⟨s, hs, -, rfl⟩ := tryParse_true h
  rw [raw_assemble] at hport
  obtain ⟨d, hd, hne, hall⟩ : ∃ d, s.port = colon :: d ∧ d ≠ [] ∧ ∀ c ∈ d, isDigit c = true :=
    hs.port.resolve_left fun hnil => by simp [Segments.get, hnil] at hport
  obtain rfl : d = digits := (List.cons.inj (hd.symm.trans hport)).2
  rw [port_assemble hs.wf hd hne hall, UInt16.toNat_ofNat', ullongMax]
  omega

/-- A port that a type of sixteen bits can hold. -/
theorem tryParse_port_alternate :
    (Uri.port ⟨bytes "a://h:8080", 4, 4, 4, 5, 10, 10, 10⟩).toNat = decimalValue (bytes "8080") ↔
      decimalValue (bytes "8080") < 65536 :=
  @tryParse_port_iff .ascii {} _ (bytes "a://h:8080") _ (by decide +kernel) (by decide +kernel)

/-- The port 65536 becomes zero. -/
theorem tryParse_port_fails :
    ¬ ∀ (lib : UriLibs) (u v : Uri) (t digits : Bytes), tryParse lib u t = (true, v) →
      v.raw .port = colon :: digits → v.port.toNat = decimalValue digits := by
  intro h
  have hparse : tryParse .ascii {} (bytes "a://h:65536") =
      (true, ⟨bytes "a://h:65536", 4, 4, 4, 5, 11, 11, 11⟩) := by decide +kernel
  exact absurd (h _ _ _ _ (bytes "65536") hparse (by decide +kernel)) (by decide +kernel)

/-! ### What was set -/

/-- The components that are set to a string. -/
inductive Component
  | user | password | host | path | query | fragment
  deriving DecidableEq, Repr

namespace Component

/-- The setter of a component. -/
def setter (c : Component) (new : Bytes) : Op :=
  match c with
  | user => .setUser new
  | password => .setPassword new
  | host => .setHost new
  | path => .setPath new
  | query => .setQuery new
  | fragment => .setFragment new

/-- The getter of a component. -/
def getter (lib : UriGetterLibs) (u : Uri) : Component → Bytes
  | user => u.user lib
  | password => u.password lib
  | host => u.host lib
  | path => u.path lib
  | query => u.query lib
  | fragment => u.fragment lib

/-- What should be read after a component was set: a path starts with a slash. -/
def shown (c : Component) (new : Bytes) : Bytes :=
  if c = path ∧ new.head? ≠ some slash then slash :: new else new

end Component

theorem setter_ok {s s' cleared : Segments} {new : Bytes} {set : Except InvalidArgument Segments}
    (happly : setter s new cleared set = .ok s') (hnew : new ≠ []) : set = .ok s' :=
  setter_cases (P := fun s' => set = .ok s') happly (fun hnil => absurd hnil hnew) fun _ h => h

/-- The path is encoded with a slash in front of it, if there is none. -/
theorem pathText_eq (lib : UriLibs) {new : Bytes} (hnew : new ≠ []) :
    pathText lib new = encode lib (Component.path.shown new) [colon, slash] := by
  have hslash : isPlain [colon, slash] slash = true := by decide
  obtain ⟨c, t, rfl⟩ := List.exists_cons_of_ne_nil hnew
  by_cases hc : c = slash
  · simp [pathText, Component.shown, hc, encode_cons, hslash]
  · have hhead : (encode lib (c :: t) [colon, slash]).head? ≠ some slash := by
      rw [encode_cons]
      split
      · simpa using hc
      · simp [percent, slash]
    have hne := encode_ne_nil lib hnew [colon, slash]
    have hshown : Component.path.shown (c :: t) = slash :: c :: t :=
      if_pos ⟨rfl, by simpa using hc⟩
    rw [hshown, encode_cons lib slash, if_pos hslash, pathText]
    simp [hhead, hne]

/-- On segments, what was set is read back, except a query with an escape. -/
theorem getter_apply_iff (lib : UriCodecLibs) {s s' : Segments} {c : Component} {new : Bytes}
    (happly : (c.setter new).apply lib.toUriLibs s = .ok s') (hnew : new ≠ []) :
    c.getter lib.toUriGetterLibs (assemble s') = c.shown new ↔
      (c = .query → hasEscape new = false) := by
  have hdecode {exempt : Bytes} (h : percent ∉ exempt) (t : Bytes) :
      decode lib.toUriGetterLibs (encode lib.toUriLibs t exempt) = t := (decode_encode lib t h).1
  cases c with
  | user =>
      have hset := setter_ok happly hnew
      split at hset
      · simp at hset
      · cases hset
        exact iff_of_true ((user_assemble _ _).trans (hdecode List.not_mem_nil new)) (by simp)
  | password =>
      have hset := setter_ok happly hnew
      split at hset
      · simp at hset
      · cases hset
        exact iff_of_true ((password_assemble _ rfl).trans (hdecode List.not_mem_nil new)) (by simp)
  | host =>
      cases setter_ok happly hnew
      exact iff_of_true ((host_assemble _ _).trans (hdecode List.not_mem_nil new)) (by simp)
  | path =>
      have hset := setter_ok happly hnew
      split at hset
      · simp at hset
      · cases hset
        refine iff_of_true ((path_assemble _ _).trans ?_) (by simp)
        change decode _ (pathText _ new) = _
        rw [pathText_eq _ hnew, hdecode (by decide)]
  | query =>
      cases setter_ok happly hnew
      have hread := query_assemble lib.toUriGetterLibs
        (s := { s with query := question :: new }) rfl
      rw [Component.getter, hread, Component.shown, if_neg (by simp), decode_eq_self_iff]
      simp
  | fragment =>
      cases setter_ok happly hnew
      exact iff_of_true ((fragment_assemble _ rfl).trans (hdecode List.not_mem_nil new)) (by simp)

/-- A port that was set is read back, also port zero, which is no port. -/
theorem port_apply {lib : UriLibs} {s s' : Segments} {n : UInt16} (hs : s.Wf)
    (happly : (Op.setPort n).apply lib s = .ok s') : (assemble s').port = n := by
  have hwf := apply_wf happly hs
  revert hwf
  refine setPort_cases (P := fun t => t.Wf → (assemble t).port = n) happly
    (fun hzero _ => ?_) fun _ _ hwf => ?_
  · rw [hzero, port, hasPort_assemble]
    rfl
  · rw [port_assemble hwf rfl (toDecimal_ne_nil _) fun c hc => isDigit_of_mem_toDecimal hc,
      decimalValue_toDecimal, Nat.min_eq_left (n.toNat_lt.le.trans (by decide)), UInt16.ofNat_toNat]

/-- **Reading back.** After a setter that did not throw the getter returns what was set, a path
with a slash in front of it, unless what was set is a query with an escape. -/
theorem set_read_iff (lib : UriCodecLibs) {u : Uri} (h : Reachable lib.toUriLibs u) :
    (∀ (c : Component) (new : Bytes) (u' : Uri), new ≠ [] →
      (c.setter new).run lib.toUriLibs u = .returned u' →
        (c.getter lib.toUriGetterLibs u' = c.shown new ↔
          (c = .query → hasEscape new = false))) ∧
      ∀ (n : UInt16) (u' : Uri), (Op.setPort n).run lib.toUriLibs u = .returned u' →
        u'.port = n := by
  obtain ⟨s, hs, rfl⟩ := h.exists_segments
  have hrun {op : Op} {u' : Uri} (hret : op.run lib.toUriLibs (assemble s) = .returned u') :
      ∃ s', op.apply lib.toUriLibs s = .ok s' ∧ u' = assemble s' := by
    rw [run_assemble lib.toUriLibs hs op] at hret
    cases happly : op.apply lib.toUriLibs s with
    | error e => simp [happly, outcome] at hret
    | ok s' =>
        rw [happly, outcome, Outcome.returned.injEq] at hret
        exact ⟨s', rfl, hret.symm⟩
  constructor
  · intro c new u' hnew hret
    obtain ⟨s', happly, rfl⟩ := hrun hret
    exact getter_apply_iff lib happly hnew
  · intro n u' hret
    obtain ⟨s', happly, rfl⟩ := hrun hret
    exact port_apply hs happly

/-- A password with a `%` in it is read back from a URI with a user, and the port is. -/
theorem set_read_iff_password :
    (Component.getter .ascii ⟨bytes "a://u:%2541@h", 4, 5, 12, 13, 13, 13, 13⟩ .password =
        Component.shown .password (bytes "%41") ↔
      (Component.password = .query → hasEscape (bytes "%41") = false)) ∧
    Uri.port ⟨bytes "a://u@h:80", 4, 5, 6, 7, 10, 10, 10⟩ = 80 :=
  have hreach : Reachable .ascii ⟨bytes "a://u@h", 4, 5, 6, 7, 7, 7, 7⟩ :=
    .parse .new (bytes "a://u@h")
  ⟨(set_read_iff .ascii hreach).1 .password (bytes "%41") _ (by decide +kernel)
      (by decide +kernel),
    (set_read_iff .ascii hreach).2 80 _ (by decide +kernel)⟩

/-- A query with an escape is decoded without having been encoded. -/
theorem set_read_fails :
    ¬ ∀ (lib : UriCodecLibs) (u : Uri), Reachable lib.toUriLibs u → u.empty = false →
      ∀ (c : Component) (new : Bytes) (u' : Uri), new ≠ [] →
        (c.setter new).run lib.toUriLibs u = .returned u' →
          c.getter lib.toUriGetterLibs u' = c.shown new := by
  intro h
  have hread := h .ascii _ (.parse .new (bytes "a://h")) (by decide +kernel) .query (bytes "%41")
    ⟨bytes "a://h?%41", 4, 4, 4, 5, 5, 5, 9⟩ (by decide +kernel) (by decide +kernel)
  exact absurd hread (by decide +kernel)

end Uri

end RsIo
