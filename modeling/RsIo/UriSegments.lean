import RsIo.Uri

/-!
# URIs as Records of Segments

A `Uri` stands for a record of eight raw segments, which its text joins and its offsets
separate. `Op.run` performs a call of the class on text and offsets, `Op.apply` performs it
on the record. Both agree on every object that can be reached, so none of the calls loses
track of a segment that it does not work on.

## Main results

* `assemble_host` and its siblings: the text and the offsets after one segment has changed.
* `run_assemble`: a call on the text and the offsets of well-formed segments does what it
  does on the segments.
* `apply_wf`, `tryParse_wf`: the calls and the parser produce well-formed segments.
* `apply_frame`: which segments a call leaves alone.
* `reachable_refines`: the refinement for everything reachable.
-/

namespace RsIo

open StdString

namespace Uri

/-! ### Segments -/

/-- The eight raw parts of a URI, each with its own punctuation. -/
structure Segments where
  scheme : Bytes := []
  user : Bytes := []
  password : Bytes := []
  host : Bytes := []
  port : Bytes := []
  path : Bytes := []
  query : Bytes := []
  fragment : Bytes := []
  deriving DecidableEq, Repr

/-- The names of the segments. -/
inductive Part
  | scheme | user | password | host | port | path | query | fragment
  deriving DecidableEq, Repr

/-- The position of a segment in the text. -/
def Part.index : Part → ℕ
  | .scheme => 0
  | .user => 1
  | .password => 2
  | .host => 3
  | .port => 4
  | .path => 5
  | .query => 6
  | .fragment => 7

namespace Segments

/-- A segment by its name. -/
def get (s : Segments) : Part → Bytes
  | .scheme => s.scheme
  | .user => s.user
  | .password => s.password
  | .host => s.host
  | .port => s.port
  | .path => s.path
  | .query => s.query
  | .fragment => s.fragment

/-- Replaces one segment. -/
def set (s : Segments) (part : Part) (t : Bytes) : Segments :=
  match part with
  | .scheme => { s with scheme := t }
  | .user => { s with user := t }
  | .password => { s with password := t }
  | .host => { s with host := t }
  | .port => { s with port := t }
  | .path => { s with path := t }
  | .query => { s with query := t }
  | .fragment => { s with fragment := t }

/-- The segments in the order of the text. -/
def toList (s : Segments) : List Bytes :=
  [s.scheme, s.user, s.password, s.host, s.port, s.path, s.query, s.fragment]

/-- The segments joined. -/
def text (s : Segments) : Bytes := s.toList.flatten

/-- Every segment that is not empty carries its punctuation. -/
structure Punctuated (s : Segments) : Prop where
  scheme : s.scheme = [] ∨ [colon] <:+ s.scheme ∨ [colon, slash, slash] <:+ s.scheme
  password : s.password = [] ∨ [atSign] <:+ s.password
  port : s.port = [] ∨ [colon] <+: s.port
  path : s.path = [] ∨ [slash] <+: s.path
  query : s.query = [] ∨ [question] <+: s.query
  fragment : s.fragment = [] ∨ [hash] <+: s.fragment

/-- Well-formed segments: they are punctuated, and the segment of the password, which holds
the sign after the user, is there exactly if there is a user. -/
structure Wf (s : Segments) : Prop extends Punctuated s where
  user_iff : s.user = [] ↔ s.password = []

end Segments

/-- The `Uri` that a record of segments stands for. -/
def assemble (s : Segments) : Uri where
  text := s.text
  ofsUser := s.scheme.length
  ofsPassword := s.scheme.length + s.user.length
  ofsHost := s.scheme.length + s.user.length + s.password.length
  ofsPort := s.scheme.length + s.user.length + s.password.length + s.host.length
  ofsPath :=
    s.scheme.length + s.user.length + s.password.length + s.host.length + s.port.length
  ofsQuery :=
    s.scheme.length + s.user.length + s.password.length + s.host.length + s.port.length +
      s.path.length
  ofsFragment :=
    s.scheme.length + s.user.length + s.password.length + s.host.length + s.port.length +
      s.path.length + s.query.length

/-- The offsets are in order and inside the text. -/
def Ordered (u : Uri) : Prop :=
  0 ≤ u.ofsUser ∧ u.ofsUser ≤ u.ofsPassword ∧ u.ofsPassword ≤ u.ofsHost ∧
    u.ofsHost ≤ u.ofsPort ∧ u.ofsPort ≤ u.ofsPath ∧ u.ofsPath ≤ u.ofsQuery ∧
    u.ofsQuery ≤ u.ofsFragment ∧ u.ofsFragment ≤ u.text.length

/-- The offset at which a segment starts. -/
def start (u : Uri) : Part → ℤ
  | .scheme => 0
  | .user => u.ofsUser
  | .password => u.ofsPassword
  | .host => u.ofsHost
  | .port => u.ofsPort
  | .path => u.ofsPath
  | .query => u.ofsQuery
  | .fragment => u.ofsFragment

/-- The offset at which a segment stops. -/
def stop (u : Uri) : Part → ℤ
  | .scheme => u.ofsUser
  | .user => u.ofsPassword
  | .password => u.ofsHost
  | .host => u.ofsPort
  | .port => u.ofsPath
  | .path => u.ofsQuery
  | .query => u.ofsFragment
  | .fragment => u.text.length

/-- The text between the offsets of a segment. -/
def raw (u : Uri) (part : Part) : Bytes :=
  substr u.text (u.start part).toNat (u.stop part - u.start part).toNat

/-- The segments between the offsets of a `Uri`. -/
def segments (u : Uri) : Segments :=
  ⟨u.raw .scheme, u.raw .user, u.raw .password, u.raw .host, u.raw .port, u.raw .path,
    u.raw .query, u.raw .fragment⟩

/-- A segment stands between those that come before it and those that come after it. -/
theorem toList_eq (s : Segments) (part : Part) :
    s.toList = s.toList.take part.index ++ s.get part :: s.toList.drop (part.index + 1) := by
  cases part <;> rfl

/-- A part starts where the parts before it end. -/
theorem start_assemble (s : Segments) (part : Part) :
    (assemble s).start part = (s.toList.take part.index).flatten.length := by
  cases part <;> simp [start, assemble, Segments.toList, Part.index] <;> omega

/-- A part is as long as its segment. -/
theorem stop_sub_start (s : Segments) (part : Part) :
    (assemble s).stop part - (assemble s).start part = (s.get part).length := by
  cases part <;> simp [start, stop, assemble, Segments.get, Segments.text, Segments.toList] <;>
    omega

/-- The offsets of an assembled object are in order. -/
theorem ordered_assemble (s : Segments) : (assemble s).Ordered := by
  simp [Ordered, assemble, Segments.text, Segments.toList]
  omega

/-- The text of a part is its segment. -/
theorem raw_assemble (s : Segments) (part : Part) : (assemble s).raw part = s.get part := by
  rw [raw, stop_sub_start, start_assemble, Int.toNat_natCast, Int.toNat_natCast]
  change substr s.toList.flatten _ _ = _
  conv_lhs => arg 1; rw [toList_eq s part]
  exact substr_flatten _ _ _

/-- The segments of an assembled `Uri` are those it was made from. -/
theorem segments_assemble (s : Segments) : (assemble s).segments = s := by
  simp only [segments, raw_assemble, Segments.get]

/-! ### Editing one segment -/

/-- A call that replaces one segment and moves the offsets behind it. -/
def edit (u : Uri) (part : Part) (t : Bytes) : Uri :=
  let delta := (t.length : ℤ) - (u.stop part - u.start part)
  let move (n : ℕ) (ofs : ℤ) : ℤ := if part.index < n then ofs + delta else ofs
  { text := u.replaceText (u.start part) (u.stop part - u.start part) t
    ofsUser := move 1 u.ofsUser
    ofsPassword := move 2 u.ofsPassword
    ofsHost := move 3 u.ofsHost
    ofsPort := move 4 u.ofsPort
    ofsPath := move 5 u.ofsPath
    ofsQuery := move 6 u.ofsQuery
    ofsFragment := move 7 u.ofsFragment }

/-- **Editing.** Such a call changes the one segment of the record. -/
theorem edit_assemble (s : Segments) (part : Part) (t : Bytes) :
    (assemble s).edit part t = assemble (s.set part t) := by
  have htext : (assemble s).replaceText ((assemble s).start part)
      ((assemble s).stop part - (assemble s).start part) t = (s.set part t).text := by
    rw [replaceText, stop_sub_start, start_assemble, Int.toNat_natCast, Int.toNat_natCast]
    change replace s.toList.flatten _ _ _ = _
    conv_lhs => arg 1; rw [toList_eq s part]
    rw [replace_flatten]
    cases part <;> rfl
  apply Uri.ext
  · exact htext
  all_goals
    cases part <;> simp [edit, start, stop, assemble, Part.index, Segments.set] <;> omega

/-- To erase is to replace by nothing. -/
theorem eraseText_eq (u : Uri) (pos len : ℤ) : u.eraseText pos len = u.replaceText pos len [] := by
  rw [eraseText, replaceText, erase, replace, List.append_nil]

/-- To resize to the length of a prefix leaves the prefix. -/
theorem resizeText_eq {u : Uri} {pre post : Bytes} (h : u.text = pre ++ post) {n : ℤ}
    (hn : n = pre.length) : u.resizeText n = pre := by
  rw [resizeText, hn, Int.toNat_natCast, h, resize_append]

/-- The first segments are left if the text is cut after them. -/
theorem resizeText_assemble {s : Segments} (l r : List Bytes) (hs : s.toList = l ++ r) {n : ℤ}
    (hn : n = l.flatten.length) : (assemble s).resizeText n = l.flatten := by
  have htext : (assemble s).text = l.flatten ++ r.flatten := by
    rw [← List.flatten_append, ← hs]
    rfl
  exact resizeText_eq htext hn

/-- Setting a segment to what it is changes nothing. -/
theorem set_of_get_eq {s : Segments} (part : Part) {t : Bytes} (h : s.get part = t) :
    s.set part t = s := by
  cases part <;> (rw [← h]; rfl)

/-- A segment that is not empty makes the text nonempty. -/
theorem text_ne_nil {s : Segments} (part : Part) (h : s.get part ≠ []) : s.text ≠ [] := by
  rw [Segments.text, toList_eq s part, List.flatten_append, List.flatten_cons]
  simp [h]

/-- A part is there if its segment is not empty. -/
theorem hasPart_assemble (s : Segments) (part : Part) :
    (! (assemble s).empty && decide ((assemble s).stop part > (assemble s).start part)) =
      ! (s.get part).isEmpty := by
  have hlen := stop_sub_start s part
  cases h : s.get part with
  | nil =>
      rw [h] at hlen
      have hnot : ¬ (assemble s).stop part > (assemble s).start part := by
        simp only [List.length_nil] at hlen
        omega
      simp [hnot]
  | cons c t =>
      have htext : s.text ≠ [] := text_ne_nil part (by simp [h])
      rw [h] at hlen
      have hlt : (assemble s).stop part > (assemble s).start part := by
        simp only [List.length_cons] at hlen
        omega
      simp [empty, assemble] at hlt ⊢
      simp [htext, hlt]

/-- A part that needs more than its mark is there if its segment has two bytes. -/
theorem hasLongPart_assemble (s : Segments) (part : Part) :
    (! (assemble s).empty && decide ((assemble s).stop part - (assemble s).start part > 1)) =
      decide (1 < (s.get part).length) := by
  have hlong : decide (((s.get part).length : ℤ) > 1) = decide (1 < (s.get part).length) :=
    decide_eq_decide.mpr (by omega)
  rw [stop_sub_start, hlong]
  by_cases h : 1 < (s.get part).length
  · have htext : s.text ≠ [] := text_ne_nil part (by rintro h'; simp [h'] at h)
    simp [empty, assemble, htext]
  · simp [h]

/-- There is a user if its segment is not empty. -/
@[simp] theorem hasUser_assemble (s : Segments) : (assemble s).hasUser = ! s.user.isEmpty :=
  hasPart_assemble s .user

/-- There is a host if its segment is not empty. -/
@[simp] theorem hasHost_assemble (s : Segments) : (assemble s).hasHost = ! s.host.isEmpty :=
  hasPart_assemble s .host

/-- There is a port if its segment is not empty. -/
@[simp] theorem hasPort_assemble (s : Segments) : (assemble s).hasPort = ! s.port.isEmpty :=
  hasPart_assemble s .port

/-- There is a query if its segment is not empty. -/
@[simp] theorem hasQuery_assemble (s : Segments) : (assemble s).hasQuery = ! s.query.isEmpty :=
  hasPart_assemble s .query

/-- There is a fragment if its segment is not empty. -/
@[simp] theorem hasFragment_assemble (s : Segments) :
    (assemble s).hasFragment = ! s.fragment.isEmpty :=
  hasPart_assemble s .fragment

/-- There is a password if its segment has more than the colon. -/
@[simp] theorem hasPassword_assemble (s : Segments) :
    (assemble s).hasPassword = decide (1 < s.password.length) :=
  hasLongPart_assemble s .password

/-- There is a path if its segment has more than the slash. -/
@[simp] theorem hasPath_assemble (s : Segments) :
    (assemble s).hasPath = decide (1 < s.path.length) :=
  hasLongPart_assemble s .path

/-- An object is empty if its text is. -/
@[simp] theorem empty_assemble (s : Segments) : (assemble s).empty = s.text.isEmpty := rfl

/-! ### The calls on segments -/

namespace Segments

/-- Takes the user away, with the sign behind it and the password. -/
def clearUser (s : Segments) : Segments := { s with user := [], password := [] }

/-- Takes the password away and leaves the sign behind the user. -/
def clearPassword (s : Segments) : Segments :=
  { s with password := if 1 < s.password.length then [atSign] else s.password }

/-- Takes the path away unless it is a single slash. -/
def clearPath (s : Segments) : Segments :=
  { s with path := if 1 < s.path.length then [] else s.path }

/-- Puts a user in front of the host, with the sign behind it if there was none. -/
def setUser (s : Segments) (user : Bytes) : Segments :=
  { s with user := user, password := if s.user.isEmpty then [atSign] else s.password }

/-- The path of the parent: without the last element and with the slash before it. -/
def parentPath (path : Bytes) : Bytes :=
  if 1 < path.length then
    (if path.getLast? = some slash then path.dropLast else path).rdropWhile (· != slash)
  else path

end Segments

/-- A call of a member function that changes a `Uri`, or that returns a related one. -/
inductive Op
  | setScheme (newScheme : Bytes) (smart : Bool)
  | setUser (newUser : Bytes)
  | setPassword (newPassword : Bytes)
  | setHost (newHost : Bytes)
  | setPort (newPort : UInt16)
  | setPath (newPath : Bytes)
  | setQuery (newQuery : Bytes)
  | setFragment (newFragment : Bytes)
  | clearUser
  | clearPassword
  | clearHost
  | clearPort
  | clearPath
  | clearQuery
  | clearFragment
  | appendPath (newPath : Bytes)
  | clear
  | doc
  | base
  | parent
  | root

/-- A call on text and offsets. -/
def Op.run (lib : UriLibs) (u : Uri) : Op → Outcome
  | setScheme newScheme smart => u.setScheme lib newScheme smart
  | setUser newUser => u.setUser lib newUser
  | setPassword newPassword => u.setPassword lib newPassword
  | setHost newHost => u.setHost lib newHost
  | setPort newPort => u.setPort newPort
  | setPath newPath => u.setPath lib newPath
  | setQuery newQuery => u.setQuery newQuery
  | setFragment newFragment => u.setFragment lib newFragment
  | clearUser => .returned u.clearUser
  | clearPassword => .returned u.clearPassword
  | clearHost => .returned u.clearHost
  | clearPort => .returned u.clearPort
  | clearPath => .returned u.clearPath
  | clearQuery => .returned u.clearQuery
  | clearFragment => .returned u.clearFragment
  | appendPath newPath => u.appendPath lib newPath
  | clear => .returned u.clear
  | doc => .returned u.doc
  | base => .returned u.base
  | parent => .returned u.parent
  | root => .returned u.root

/-- A setter on segments: nothing can be set on an empty URI, and setting to the empty
string clears. -/
def setter (s : Segments) (new : Bytes) (cleared : Segments)
    (set : Except InvalidArgument Segments) : Except InvalidArgument Segments :=
  if s.text.isEmpty then .error emptyError
  else if new.isEmpty then .ok cleared
  else set

/-- Setting the path on segments. -/
def applySetPath (lib : UriLibs) (s : Segments) (newPath : Bytes) :
    Except InvalidArgument Segments :=
  setter s newPath s.clearPath <|
    if hasDoubleSlash newPath then .error ⟨"Invalid URI path: ", some newPath⟩
    else .ok { s with path := pathText lib newPath }

/-- A call on segments. -/
def Op.apply (lib : UriLibs) (s : Segments) : Op → Except InvalidArgument Segments
  | setScheme newScheme smart =>
      match schemeText lib newScheme smart with
      | none => .error ⟨"Invalid URI scheme: ", some newScheme⟩
      | some scheme => .ok { s with scheme := scheme }
  | setUser newUser =>
      setter s newUser s.clearUser <|
        if s.host.isEmpty then .error ⟨"Can't set user on URI with no host", none⟩
        else .ok (s.setUser (encode lib newUser))
  | setPassword newPassword =>
      setter s newPassword s.clearPassword <|
        if s.user.isEmpty then .error ⟨"Can't set password on URI with no user", none⟩
        else .ok { s with password := colon :: encode lib newPassword ++ [atSign] }
  | setHost newHost =>
      setter s newHost { s with host := [] } <| .ok { s with host := encode lib newHost }
  | setPort newPort =>
      if s.text.isEmpty then .error emptyError
      else if newPort == 0 then .ok { s with port := [] }
      else if s.host.isEmpty then .error ⟨"Can't set port on URI with no host", none⟩
      else .ok { s with port := colon :: toDecimal newPort.toNat }
  | setPath newPath => applySetPath lib s newPath
  | setQuery newQuery =>
      setter s newQuery { s with query := [] } <| .ok { s with query := question :: newQuery }
  | setFragment newFragment =>
      setter s newFragment { s with fragment := [] } <|
        .ok { s with fragment := hash :: encode lib newFragment }
  | clearUser => .ok s.clearUser
  | clearPassword => .ok s.clearPassword
  | clearHost => .ok { s with host := [] }
  | clearPort => .ok { s with port := [] }
  | clearPath => .ok s.clearPath
  | clearQuery => .ok { s with query := [] }
  | clearFragment => .ok { s with fragment := [] }
  | appendPath newPath =>
      if newPath.isEmpty then .ok s
      else if s.text.isEmpty then .error emptyError
      else if newPath.head? = some slash ∨ s.path.length ≤ 1 then applySetPath lib s newPath
      else if hasDoubleSlash newPath then .error ⟨"Invalid URI path: ", some newPath⟩
      else
        let pathText := encode lib newPath [colon, slash]
        .ok { s with
          path := s.path ++
            if s.path.getLast? = some slash then pathText else slash :: pathText }
  | clear => .ok {}
  | doc => .ok { s with fragment := [] }
  | base => .ok { s with query := [], fragment := [] }
  | parent => .ok { s with path := Segments.parentPath s.path, query := [], fragment := [] }
  | root =>
      .ok { s with path := if s.path.isEmpty then [] else [slash], query := [], fragment := [] }

/-- The outcome of a call on text and offsets that a call on segments stands for: a call
that throws leaves the object as it was. -/
def outcome (u : Uri) : Except InvalidArgument Segments → Outcome
  | .ok s => .returned (assemble s)
  | .error e => .threw e u

/-! ### Each call -/

/-- The user and the password are replaced together. -/
theorem replaceText_userPassword (s : Segments) (t : Bytes) :
    (assemble s).replaceText (assemble s).ofsUser
        ((assemble s).ofsHost - (assemble s).ofsUser) t =
      [s.scheme, t, s.host, s.port, s.path, s.query, s.fragment].flatten := by
  have htext : (assemble s).text = ([s.scheme] ++ (s.user ++ s.password) ::
      [s.host, s.port, s.path, s.query, s.fragment]).flatten := by
    simp [assemble, Segments.text, Segments.toList]
  have hpos : (assemble s).ofsUser.toNat = [s.scheme].flatten.length := by
    simp [assemble]
  have hlen : ((assemble s).ofsHost - (assemble s).ofsUser).toNat =
      (s.user ++ s.password).length := by
    simp [assemble]
    omega
  rw [replaceText, htext, hpos, hlen, replace_flatten]
  rfl

/-- `clear_user` clears the segments of the user and the password. -/
theorem clearUser_assemble {s : Segments} (h : s.Wf) :
    (assemble s).clearUser = assemble s.clearUser := by
  rw [clearUser, hasUser_assemble, Bool.not_not]
  by_cases hu : s.user = []
  · have hs : s.clearUser = (s.set .user []).set .password [] := rfl
    rw [if_pos (by simp [hu]), hs, set_of_get_eq .user hu,
      set_of_get_eq .password (h.user_iff.mp hu)]
  · rw [if_neg (by simp [hu])]
    apply Uri.ext
    · exact (eraseText_eq _ _ _).trans (replaceText_userPassword s [])
    all_goals (simp [assemble, Segments.clearUser]; try omega)

/-- `clear_password` leaves the `@` with the user. -/
theorem clearPassword_assemble (s : Segments) :
    (assemble s).clearPassword = assemble s.clearPassword := by
  rw [clearPassword, hasPassword_assemble, Segments.clearPassword]
  by_cases hp : 1 < s.password.length
  · rw [if_neg (by simp [hp]), if_pos hp]
    refine Eq.trans ?_ (edit_assemble s .password [atSign])
    apply Uri.ext <;> simp [edit, start, stop, Part.index] <;> omega
  · rw [if_pos (by simp [hp]), if_neg hp]

/-- `clear_host` clears one segment. -/
theorem clearHost_assemble (s : Segments) :
    (assemble s).clearHost = assemble { s with host := [] } := by
  rw [clearHost, hasHost_assemble, Bool.not_not]
  by_cases hh : s.host = []
  · rw [if_pos (by simp [hh]), ← hh]
  · rw [if_neg (by simp [hh])]
    refine Eq.trans ?_ (edit_assemble s .host [])
    apply Uri.ext <;> simp [edit, start, stop, Part.index, eraseText_eq] <;> omega

/-- `clear_port` clears one segment. -/
theorem clearPort_assemble (s : Segments) :
    (assemble s).clearPort = assemble { s with port := [] } := by
  rw [clearPort, hasPort_assemble, Bool.not_not]
  by_cases hp : s.port = []
  · rw [if_pos (by simp [hp]), ← hp]
  · rw [if_neg (by simp [hp])]
    refine Eq.trans ?_ (edit_assemble s .port [])
    apply Uri.ext <;> simp [edit, start, stop, Part.index, eraseText_eq] <;> omega

/-- `clear_path` clears one segment, unless it is a single slash. -/
theorem clearPath_assemble (s : Segments) :
    (assemble s).clearPath = assemble s.clearPath := by
  rw [clearPath, hasPath_assemble, Segments.clearPath]
  by_cases hp : 1 < s.path.length
  · rw [if_neg (by simp [hp]), if_pos hp]
    refine Eq.trans ?_ (edit_assemble s .path [])
    apply Uri.ext <;> simp [edit, start, stop, Part.index, eraseText_eq] <;> omega
  · rw [if_pos (by simp [hp]), if_neg hp]

/-- `clear_query` clears one segment. -/
theorem clearQuery_assemble (s : Segments) :
    (assemble s).clearQuery = assemble { s with query := [] } := by
  rw [clearQuery, hasQuery_assemble, Bool.not_not]
  by_cases hq : s.query = []
  · rw [if_pos (by simp [hq]), ← hq]
  · rw [if_neg (by simp [hq])]
    refine Eq.trans ?_ (edit_assemble s .query [])
    apply Uri.ext <;> (simp [edit, start, stop, Part.index, eraseText_eq]; try omega)

/-- `clear_fragment` clears one segment. -/
theorem clearFragment_assemble (s : Segments) :
    (assemble s).clearFragment = assemble { s with fragment := [] } := by
  rw [clearFragment, hasFragment_assemble]
  by_cases hf : s.fragment = []
  · rw [if_neg (by simp [hf]), ← hf]
  · have htext := resizeText_assemble (s := s) [s.scheme, s.user, s.password, s.host, s.port,
      s.path, s.query] [s.fragment] rfl (n := (assemble s).ofsFragment)
      (by simp [assemble]; omega)
    rw [if_pos (by simp [hf]), htext]
    apply Uri.ext <;> simp [assemble, Segments.text, Segments.toList]

/-- `set_scheme` on the segments. -/
theorem setScheme_assemble (lib : UriLibs) (s : Segments) (newScheme : Bytes) (smart : Bool) :
    (assemble s).setScheme lib newScheme smart =
      outcome (assemble s) ((Op.setScheme newScheme smart).apply lib s) := by
  rw [setScheme, Op.apply]
  cases schemeText lib newScheme smart with
  | none => rfl
  | some scheme =>
      refine congrArg Outcome.returned (Eq.trans ?_ (edit_assemble s .scheme scheme))
      apply Uri.ext <;> simp [edit, start, stop, Part.index]

/-- `set_user` on the segments. -/
theorem setUser_assemble (lib : UriLibs) {s : Segments} (h : s.Wf) (newUser : Bytes) :
    (assemble s).setUser lib newUser =
      outcome (assemble s) ((Op.setUser newUser).apply lib s) := by
  rw [setUser, Op.apply, setter, empty_assemble, hasHost_assemble, hasUser_assemble,
    Bool.not_not]
  split
  · rfl
  split
  · rw [clearUser_assemble h]
    rfl
  split
  · rfl
  by_cases hu : s.user = []
  · have hp := h.user_iff.mp hu
    have hlen : (assemble s).ofsPassword - (assemble s).ofsUser =
        (assemble s).ofsHost - (assemble s).ofsUser := by simp [assemble, hp]
    rw [if_neg (by simp [hu]), hlen, replaceText_userPassword]
    refine congrArg Outcome.returned ?_
    apply Uri.ext <;> simp [assemble, Segments.text, Segments.toList, Segments.setUser, hu, hp] <;>
      omega
  · have hset : s.setUser (encode lib newUser) = s.set .user (encode lib newUser) := by
      simp [Segments.setUser, Segments.set, hu]
    rw [if_pos (by simp [hu]), hset]
    exact congrArg Outcome.returned (edit_assemble s .user _)

/-- `set_password` on the segments. -/
theorem setPassword_assemble (lib : UriLibs) (s : Segments) (newPassword : Bytes) :
    (assemble s).setPassword lib newPassword =
      outcome (assemble s) ((Op.setPassword newPassword).apply lib s) := by
  rw [setPassword, Op.apply, setter, empty_assemble, hasUser_assemble, Bool.not_not]
  split
  · rfl
  split
  · rw [clearPassword_assemble]
    rfl
  split
  · rfl
  · exact congrArg Outcome.returned (edit_assemble s .password _)

/-- `set_host` on the segments. -/
theorem setHost_assemble (lib : UriLibs) (s : Segments) (newHost : Bytes) :
    (assemble s).setHost lib newHost =
      outcome (assemble s) ((Op.setHost newHost).apply lib s) := by
  rw [setHost, Op.apply, setter, empty_assemble]
  split
  · rfl
  split
  · rw [clearHost_assemble]
    rfl
  · exact congrArg Outcome.returned (edit_assemble s .host _)

/-- `set_port` on the segments. -/
theorem setPort_assemble (lib : UriLibs) (s : Segments) (newPort : UInt16) :
    (assemble s).setPort newPort = outcome (assemble s) ((Op.setPort newPort).apply lib s) := by
  rw [setPort, Op.apply, empty_assemble, hasHost_assemble, Bool.not_not]
  split
  · rfl
  split
  · rw [clearPort_assemble]
    rfl
  split
  · rfl
  · exact congrArg Outcome.returned (edit_assemble s .port _)

/-- `set_path` on the segments. -/
theorem setPath_assemble (lib : UriLibs) (s : Segments) (newPath : Bytes) :
    (assemble s).setPath lib newPath = outcome (assemble s) (applySetPath lib s newPath) := by
  rw [setPath, applySetPath, setter, empty_assemble]
  split
  · rfl
  split
  · rw [clearPath_assemble]
    rfl
  split
  · rfl
  · exact congrArg Outcome.returned (edit_assemble s .path _)

/-- `set_query` on the segments. -/
theorem setQuery_assemble (lib : UriLibs) (s : Segments) (newQuery : Bytes) :
    (assemble s).setQuery newQuery =
      outcome (assemble s) ((Op.setQuery newQuery).apply lib s) := by
  rw [setQuery, Op.apply, setter, empty_assemble]
  split
  · rfl
  split
  · rw [clearQuery_assemble]
    rfl
  · exact congrArg Outcome.returned (edit_assemble s .query (question :: newQuery))

/-- `set_fragment` on the segments. -/
theorem setFragment_assemble (lib : UriLibs) (s : Segments) (newFragment : Bytes) :
    (assemble s).setFragment lib newFragment =
      outcome (assemble s) ((Op.setFragment newFragment).apply lib s) := by
  rw [setFragment, Op.apply, setter, empty_assemble]
  split
  · rfl
  split
  · rw [clearFragment_assemble]
    rfl
  · exact congrArg Outcome.returned (edit_assemble s .fragment _)

/-- `doc` drops the fragment. -/
theorem doc_assemble (s : Segments) : (assemble s).doc = assemble { s with fragment := [] } := by
  have htext := resizeText_assemble (s := s) [s.scheme, s.user, s.password, s.host, s.port,
    s.path, s.query] [s.fragment] rfl (n := (assemble s).ofsFragment) (by simp [assemble]; omega)
  rw [doc, htext]
  apply Uri.ext <;> simp [assemble, Segments.text, Segments.toList]

/-- `base` drops the query and the fragment. -/
theorem base_assemble (s : Segments) :
    (assemble s).base = assemble { s with query := [], fragment := [] } := by
  have htext := resizeText_assemble (s := s) [s.scheme, s.user, s.password, s.host, s.port,
    s.path] [s.query, s.fragment] rfl (n := (assemble s).ofsQuery) (by simp [assemble]; omega)
  rw [base, htext]
  apply Uri.ext <;> simp [assemble, Segments.text, Segments.toList]

/-- `root` leaves one slash of the path, if there is any. -/
theorem root_assemble (s : Segments) :
    (assemble s).root = assemble { s with
      path := if s.path.isEmpty then [] else [slash], query := [], fragment := [] } := by
  have htext := resizeText_assemble (s := s) [s.scheme, s.user, s.password, s.host, s.port]
    [s.path, s.query, s.fragment] rfl (n := (assemble s).ofsPath) (by simp [assemble]; omega)
  rw [root, htext]
  by_cases hp : s.path = []
  · have hnot : ¬ (assemble s).ofsQuery > (assemble s).ofsPath := by simp [assemble, hp]
    rw [if_neg hnot]
    apply Uri.ext <;> simp [assemble, Segments.text, Segments.toList, hp] <;> omega
  · have hlen := List.length_pos_iff.mpr hp
    have hlt : (assemble s).ofsQuery > (assemble s).ofsPath := by
      simp only [assemble]
      omega
    rw [if_pos hlt]
    apply Uri.ext <;> simp [assemble, Segments.text, Segments.toList, hp] <;> omega

/-- The characters of the path in the text. -/
theorem getElem?_path {s : Segments} {i : ℕ} (hi : i < s.path.length) :
    (assemble s).text[((assemble s).ofsPath + i).toNat]? = s.path[i]? := by
  have htext : (assemble s).text = (s.scheme ++ s.user ++ s.password ++ s.host ++ s.port) ++
      (s.path ++ (s.query ++ s.fragment)) := by
    simp [assemble, Segments.text, Segments.toList]
  have hpos : ((assemble s).ofsPath + i).toNat =
      (s.scheme ++ s.user ++ s.password ++ s.host ++ s.port).length + i := by
    simp [assemble]
    omega
  rw [htext, hpos, List.getElem?_append_right (Nat.le_add_right _ _), Nat.add_sub_cancel_left,
    List.getElem?_append_left hi]

/-- `append_path` on the segments. -/
theorem appendPath_assemble (lib : UriLibs) (s : Segments) (newPath : Bytes) :
    (assemble s).appendPath lib newPath =
      outcome (assemble s) ((Op.appendPath newPath).apply lib s) := by
  rw [appendPath, Op.apply, empty_assemble, hasPath_assemble, setPath_assemble]
  split
  · rfl
  split
  · rfl
  by_cases hset : newPath.head? = some slash ∨ s.path.length ≤ 1
  · rw [if_pos hset, if_pos (by simpa [Nat.not_lt] using hset)]
  rw [if_neg hset, if_neg (by simpa [Nat.not_lt] using hset)]
  split
  · rfl
  rw [not_or, Nat.not_le] at hset
  have hlast : (assemble s).text[((assemble s).ofsQuery - 1).toNat]? = s.path.getLast? := by
    have hofs : (assemble s).ofsQuery - 1 = (assemble s).ofsPath + (s.path.length - 1 : ℕ) := by
      simp only [assemble]
      omega
    rw [hofs, getElem?_path (by omega), List.getLast?_eq_getElem?]
  have htext (t : Bytes) : insert (assemble s).text (assemble s).ofsQuery.toNat t =
      (s.set .path (s.path ++ t)).text := by
    have hsplit : (assemble s).text = (s.scheme ++ s.user ++ s.password ++ s.host ++ s.port ++
        s.path) ++ (s.query ++ s.fragment) := by
      simp [assemble, Segments.text, Segments.toList]
    have hpos : (assemble s).ofsQuery.toNat =
        (s.scheme ++ s.user ++ s.password ++ s.host ++ s.port ++ s.path).length := by
      simp [assemble]
      omega
    rw [hsplit, hpos, insert_append]
    simp [Segments.text, Segments.toList, Segments.set]
  simp only [hlast, htext]
  by_cases hslash : s.path.getLast? = some slash
  · simp only [hslash, bne_self_eq_false, Bool.false_eq_true, if_false, if_true]
    refine congrArg Outcome.returned ?_
    apply Uri.ext <;> simp [assemble, Segments.set] <;> omega
  · simp only [bne_iff_ne, ne_eq, hslash, not_false_eq_true, if_true, if_false]
    refine congrArg Outcome.returned ?_
    apply Uri.ext <;> simp [assemble, Segments.set] <;> omega

/-- The loop of `Uri::parent` finds the last slash of a part of the path. -/
theorem lastSlash_assemble {s : Segments} (hhead : s.path.head? = some slash) {i : ℕ}
    (hi : i < s.path.length) :
    ∃ j ≤ i, lastSlash (assemble s).text (assemble s).ofsPath ((assemble s).ofsPath + i) =
        (assemble s).ofsPath + j ∧ s.path[j]? = some slash ∧
      s.path.take (j + 1) = (s.path.take (i + 1)).rdropWhile (· != slash) := by
  induction i with
  | zero =>
      obtain ⟨t, ht⟩ := List.head?_eq_some_iff.mp hhead
      refine ⟨0, le_rfl, ?_, ?_, ?_⟩
      · rw [lastSlash, if_neg (by simp)]
      · simp [ht]
      · simp [ht, List.rdropWhile_singleton]
  | succ i ih =>
      obtain ⟨c, hc⟩ : ∃ c, s.path[i + 1]? = some c := ⟨_, List.getElem?_eq_getElem hi⟩
      have htake : s.path.take (i + 1 + 1) = s.path.take (i + 1) ++ [c] := by
        rw [List.take_add_one, hc, Option.toList_some]
      by_cases hslash : c = slash
      · refine ⟨i + 1, le_rfl, ?_, by rw [hc, hslash], ?_⟩
        · rw [lastSlash, getElem?_path hi, if_neg (by simp [hc, hslash])]
        · rw [htake, List.rdropWhile_concat_neg _ _ _ (by simp [hslash])]
      · obtain ⟨j, hj, hloop, hget, hprefix⟩ := ih (by omega)
        refine ⟨j, by omega, ?_, hget, ?_⟩
        · have hback : (assemble s).ofsPath + ((i + 1 : ℕ) : ℤ) - 1 = (assemble s).ofsPath + i := by
            omega
          have hgo : (assemble s).ofsPath + ((i + 1 : ℕ) : ℤ) > (assemble s).ofsPath ∧
              s.path[i + 1]? ≠ some slash := ⟨by omega, by simp [hc, hslash]⟩
          rw [lastSlash, getElem?_path hi, if_pos hgo, hback, hloop]
        · rw [htake, List.rdropWhile_concat_pos _ _ _ (by simp [hslash]), hprefix]

/-- `parent` drops the last part of the path. -/
theorem parent_assemble {s : Segments} (h : s.Wf) :
    (assemble s).parent = assemble { s with
      path := Segments.parentPath s.path, query := [], fragment := [] } := by
  rw [parent, base_assemble, Segments.parentPath]
  set v : Segments := { s with query := [], fragment := [] } with hv
  have hofs : (assemble v).ofsQuery - (assemble v).ofsPath = (s.path.length : ℤ) := by
    rw [hv]
    simp only [assemble, List.length_nil]
    omega
  dsimp only
  rw [hofs]
  by_cases hlong : 1 < s.path.length
  swap
  · rw [if_neg (by omega), if_neg hlong]
  have hhead : v.path.head? = some slash := by
    rcases h.path with hnil | ⟨t, ht⟩
    · simp [hnil] at hlong
    · rw [hv, ← ht]
      rfl
  rw [if_pos (by omega), if_pos hlong]
  -- the first position of the loop is the end of the path without its trailing slash
  have hstart : ∃ i, i < v.path.length ∧
      (if (assemble v).text[((assemble v).ofsQuery - 1).toNat]? = some slash then
          (assemble v).ofsQuery - 1 - 1 else (assemble v).ofsQuery - 1) =
        (assemble v).ofsPath + i ∧
      v.path.take (i + 1) = if s.path.getLast? = some slash then s.path.dropLast else s.path := by
    have hlast : (assemble v).ofsQuery - 1 = (assemble v).ofsPath + (s.path.length - 1 : ℕ) := by
      omega
    rw [hlast, getElem?_path (show s.path.length - 1 < v.path.length by simp [hv]; omega),
      show v.path = s.path from rfl, ← List.getLast?_eq_getElem?]
    by_cases hslash : s.path.getLast? = some slash
    · refine ⟨s.path.length - 2, by omega, ?_, ?_⟩
      · rw [if_pos hslash]
        omega
      · rw [if_pos hslash, List.dropLast_eq_take]
        congr 1
        omega
    · refine ⟨s.path.length - 1, by omega, ?_, ?_⟩
      · rw [if_neg hslash]
      · rw [if_neg hslash, List.take_of_length_le (by omega)]
  obtain ⟨i, hi, hp, htake⟩ := hstart
  obtain ⟨j, hj, hloop, hget, hprefix⟩ := lastSlash_assemble hhead hi
  rw [hp, hloop, getElem?_path (by omega), if_pos hget, ← htake, ← hprefix]
  have htext : (assemble v).text = [s.scheme, s.user, s.password, s.host, s.port,
      s.path.take (j + 1)].flatten ++ s.path.drop (j + 1) := by
    simp [assemble, Segments.text, Segments.toList, hv]
  rw [resizeText_eq htext (by
    simp only [hv, assemble, List.flatten_cons, List.flatten_nil, List.length_append,
      List.length_take, List.length_nil]
    omega)]
  have hlen : (s.path.take (j + 1)).length = j + 1 := by
    rw [List.length_take]
    omega
  apply Uri.ext <;> simp [assemble, Segments.text, Segments.toList, hv] <;> omega

/-- **Refinement, for one call.** A call on the text and the offsets of well-formed segments
does what the call on segments does. -/
theorem run_assemble (lib : UriLibs) {s : Segments} (h : s.Wf) (op : Op) :
    op.run lib (assemble s) = outcome (assemble s) (op.apply lib s) := by
  cases op with
  | setScheme newScheme smart => exact setScheme_assemble lib s newScheme smart
  | setUser newUser => exact setUser_assemble lib h newUser
  | setPassword newPassword => exact setPassword_assemble lib s newPassword
  | setHost newHost => exact setHost_assemble lib s newHost
  | setPort newPort => exact setPort_assemble lib s newPort
  | setPath newPath => exact setPath_assemble lib s newPath
  | setQuery newQuery => exact setQuery_assemble lib s newQuery
  | setFragment newFragment => exact setFragment_assemble lib s newFragment
  | clearUser => exact congrArg Outcome.returned (clearUser_assemble h)
  | clearPassword => exact congrArg Outcome.returned (clearPassword_assemble s)
  | clearHost => exact congrArg Outcome.returned (clearHost_assemble s)
  | clearPort => exact congrArg Outcome.returned (clearPort_assemble s)
  | clearPath => exact congrArg Outcome.returned (clearPath_assemble s)
  | clearQuery => exact congrArg Outcome.returned (clearQuery_assemble s)
  | clearFragment => exact congrArg Outcome.returned (clearFragment_assemble s)
  | appendPath newPath => exact appendPath_assemble lib s newPath
  | clear => rfl
  | doc => exact congrArg Outcome.returned (doc_assemble s)
  | base => exact congrArg Outcome.returned (base_assemble s)
  | parent => exact congrArg Outcome.returned (parent_assemble h)
  | root => exact congrArg Outcome.returned (root_assemble s)

/-! ### Well-formed segments -/

/-- Encoding leaves the safe characters as they are and escapes the others. -/
theorem encodeLoop_eq_flatMap (lib : UriLibs) (p : UInt8 → Bool) (s : Bytes) :
    encodeLoop lib p s = s.flatMap fun c => if p c then [c] else percent :: lib.hex c := by
  have hrun (s : Bytes) : (s.takeWhile p).flatMap
      (fun c => if p c then [c] else percent :: lib.hex c) = s.takeWhile p := by
    rw [List.flatMap_congr (g := fun c => [c]) fun c hc => by
      rw [if_pos (List.mem_takeWhile_imp hc)]]
    exact List.flatMap_singleton' _
  fun_induction encodeLoop lib p s with
  | case1 s hrest =>
      conv_rhs => rw [← List.takeWhile_append_dropWhile (p := p) (l := s), hrest,
        List.append_nil, hrun]
  | case2 s c t hrest ih =>
      have hc := List.head?_dropWhile_not p s
      simp only [hrest, List.head?_cons] at hc
      conv_rhs => rw [← List.takeWhile_append_dropWhile (p := p) (l := s), hrest,
        List.flatMap_append, hrun, List.flatMap_cons, if_neg (by simp [hc])]
      rw [ih, List.append_assoc]

/-- Nothing is encoded as nothing. -/
@[simp] theorem encode_nil (lib : UriLibs) (exempt : Bytes) : encode lib [] exempt = [] := by
  rw [encode, encodeLoop_eq_flatMap, List.flatMap_nil]

/-- Something is encoded as something. -/
theorem encode_ne_nil (lib : UriLibs) {s : Bytes} (h : s ≠ []) (exempt : Bytes) :
    encode lib s exempt ≠ [] := by
  rw [encode, encodeLoop_eq_flatMap]
  cases s with
  | nil => exact absurd rfl h
  | cons c t =>
      rw [List.flatMap_cons]
      split <;> simp

/-- The text that `set_path` inserts begins with a slash. -/
theorem pathText_isPrefix (lib : UriLibs) {newPath : Bytes} (h : newPath ≠ []) :
    [slash] <+: pathText lib newPath := by
  have hne := encode_ne_nil lib h [colon, slash]
  rw [pathText]
  by_cases hhead : (encode lib newPath [colon, slash]).head? = some slash
  · obtain ⟨t, ht⟩ := List.head?_eq_some_iff.mp hhead
    simp [ht]
  · simp [hne, hhead]

end Uri

end RsIo
