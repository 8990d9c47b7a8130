import RsIo.PathName
import RsIo.UriAssembly
import RsIo.UriGetters

/-!
# File URLs

`Path::as_url` puts `file://` in front of a file name and does not encode it. `class Uri`
takes a text apart at the first question mark and the first hash, and decodes what it shows
of the path.

## Main results

* `asUrl_iff`: a URI made from the URL of an absolute path has the file name as its path
  exactly if none of this happens to the name.
-/

namespace RsIo

open StdString

namespace Path

/-- `Path::as_url`. -/
def asUrl (p : Path) : Except InvalidArgument Bytes :=
  if ! p.isAbsolute then .error ⟨"File URL must be an absolute path", none⟩
  else
    let start := bytes "file://"
    let suffix := p.name
    let start := if suffix.head? ≠ some slash then start ++ [slash] else start
    .ok (start ++ suffix)

end Path

namespace Uri

/-- A URI from the text shows the name as the path of a file on no host. -/
def ShowsFile (lib : UriGetterLibs) (url name : Bytes) : Prop :=
  ∃ u, ofString lib.toUriLibs url = .ok u ∧ u.scheme lib = bytes "file" ∧ u.hasHost = false ∧
    u.hasQuery = false ∧ u.hasFragment = false ∧ u.path lib = name

/-- The segments of a file URL. -/
def fileSegments (path query fragment : Bytes) : Segments :=
  { scheme := bytes "file://", path := path, query := query, fragment := fragment }

theorem not_isCntrl_of_fileScheme : ∀ c ∈ bytes "file://", isCntrl c = false := by decide +kernel

/-- The parser finds the segments of a file URL. -/
theorem ofString_fileSegments (lib : UriLibs) {path query fragment : Bytes}
    (hpath : TailShape slash isPathChar path) (hquery : TailShape question isQueryChar query)
    (hfragment : TailShape RsIo.hash isAny fragment)
    (hslash : (path ++ (query ++ fragment)).head? = some slash)
    (hclean : ∀ c ∈ path ++ (query ++ fragment), isCntrl c = false) :
    ofString lib (bytes "file://" ++ (path ++ (query ++ fragment))) =
      .ok (assemble (fileSegments path query fragment)) := by
  have htext : (fileSegments path query fragment).text =
      bytes "file://" ++ (path ++ (query ++ fragment)) := by
    simp [Segments.text, Segments.toList, fileSegments]
  have hassembled : Assembled (fileSegments path query fragment) :=
    { scheme := ⟨bytes "file", .inr rfl⟩
      user := ⟨by simp [fileSegments], .inl rfl, by simp [fileSegments]⟩
      host := by simp [fileSegments]
      port := .inl rfl
      no_host := fun _ => ⟨rfl, rfl⟩
      path := hpath
      query := hquery
      fragment := hfragment
      password := .inl rfl }
  have hscheme : SchemeShape (bytes "file://") (fileSegments path query fragment).behindScheme :=
    ⟨bytes "file", ⟨102, bytes "ile", rfl, by decide +kernel, by decide +kernel⟩, .inr rfl⟩
  rw [← htext]
  refine (ofString_text_iff lib hassembled hscheme).mpr ⟨?_, ?_, fun _ => ?_⟩
  · rw [htext]
    intro c hc
    rcases List.mem_append.mp hc with hc | hc
    · exact not_isCntrl_of_fileScheme c hc
    · exact hclean c hc
  -- neither a host nor a user starts with a slash
  · refine not_hostLike fun c hc => ?_
    obtain rfl : slash = c := Option.some.inj (hslash.symm.trans hc)
    decide
  · obtain ⟨t, ht⟩ := List.head?_eq_some_iff.mp hslash
    have hnot := not_userLike_slash (y := []) (t := t) (by simp)
    change ¬ UserLike (path ++ (query ++ fragment))
    rwa [ht]

/-- The name has no character at which a URI is taken apart, and no escape. -/
def IsPlainName (name : Bytes) : Prop :=
  question ∉ name ∧ RsIo.hash ∉ name ∧ hasEscape name = false

instance (name : Bytes) : Decidable (IsPlainName name) :=
  inferInstanceAs (Decidable (_ ∧ _))

/-- **File URLs.** For an absolute path without control characters, a URI from its URL shows
its name exactly if there is no question mark, no hash and no escape in it. -/
theorem asUrl_iff (lib : UriGetterLibs) {p : Path} (habs : p.isAbsolute = true)
    (hclean : ∀ c ∈ p.name, isCntrl c = false) :
    (∃ url, p.asUrl = .ok url ∧ ShowsFile lib url p.name) ↔ IsPlainName p.name := by
  have hslash : p.name.head? = some slash := beq_iff_eq.mp habs
  have hurl : p.asUrl = .ok (bytes "file://" ++ p.name) := by
    simp [Path.asUrl, habs, hslash]
  obtain ⟨path, query, fragment, hpath, hquery, hfragment, hname⟩ :=
    tailStart_split (.inr (.inl hslash)) fun c hc => isAny_of_not_isCntrl (hclean c hc)
  rw [hname] at hslash hclean
  have hparse := ofString_fileSegments lib.toUriLibs hpath hquery hfragment hslash hclean
  have hshows : (∃ url, p.asUrl = .ok url ∧ ShowsFile lib url p.name) ↔
      query = [] ∧ fragment = [] ∧ decode lib path = p.name := by
    rw [hurl, hname]
    constructor
    · rintro ⟨url, heq, u, hu, -, -, hq, hf, hshown⟩
      obtain rfl := Except.ok.inj heq
      rw [hparse] at hu
      obtain rfl := Except.ok.inj hu
      rw [path_assemble] at hshown
      exact ⟨by simpa [fileSegments] using hq, by simpa [fileSegments] using hf, hshown⟩
    · rintro ⟨hq, hf, hshown⟩
      refine ⟨_, rfl, _, hparse, ?_, rfl, by simp [fileSegments, hq],
        by simp [fileSegments, hf], ?_⟩
      · rw [scheme_assemble lib _ (.inr rfl : _ ∨ bytes "file://" = bytes "file" ++ _)]
        decide
      · rw [path_assemble]
        exact hshown
  rw [hshows, hname, IsPlainName]
  constructor
  · rintro ⟨rfl, rfl, hshown⟩
    rw [List.append_nil, List.append_nil] at hshown ⊢
    have hchars := hpath.all (by decide)
    refine ⟨fun hmem => ?_, fun hmem => ?_, (decode_eq_self_iff lib path).mp hshown⟩
    · exact absurd (hchars _ hmem) (by decide)
    · exact absurd (hchars _ hmem) (by decide)
  · rintro ⟨hquestion, hhash, hescape⟩
    have hq : query = [] := by
      rcases hquery with hq | ⟨w, rfl, -⟩
      · exact hq
      · simp at hquestion
    have hf : fragment = [] := by
      rcases hfragment with hf | ⟨w, rfl, -⟩
      · exact hf
      · simp at hhash
    rw [hq, hf, List.append_nil, List.append_nil] at hescape ⊢
    exact ⟨rfl, rfl, (decode_eq_self_iff lib path).mpr hescape⟩

/-- A space is not taken for anything else. -/
theorem asUrl_iff_space :
    (∃ url, Path.asUrl ⟨bytes "/a b"⟩ = .ok url ∧ ShowsFile .ascii url (bytes "/a b")) ↔
      IsPlainName (bytes "/a b") :=
  asUrl_iff .ascii (p := ⟨bytes "/a b"⟩) (by decide +kernel) (by decide +kernel)

/-- What stands behind a question mark is missing from the path. -/
theorem asUrl_fails :
    ¬ ∀ (lib : UriGetterLibs) (p : Path), p.isAbsolute = true → Path.ofBytes p.name = p →
      (∀ c ∈ p.name, isCntrl c = false) →
        ∃ url, p.asUrl = .ok url ∧ ShowsFile lib url p.name := by
  intro h
  obtain ⟨url, hurl, u, hu, -, -, -, -, hpath⟩ :=
    h .ascii ⟨bytes "/a?b"⟩ (by decide +kernel) (by decide +kernel)
      (by decide +kernel)
  obtain rfl := Except.ok.inj hurl
  have hparse : ofString .ascii (bytes "file:///a?b") =
      .ok ⟨bytes "file:///a?b", 7, 7, 7, 7, 7, 9, 11⟩ := by decide +kernel
  obtain rfl := Except.ok.inj (hparse.symm.trans hu)
  revert hpath
  decide +kernel

end Uri

end RsIo
