import RsIo.UriParse

/-!
# Everything Reachable Refines a Record of Segments

The calls keep segments well formed and change the segments they name only. With
`run_assemble` that gives the refinement for every `Uri` that a program can build, also
after calls that have thrown.

## Main results

* `apply_wf`: a call on well-formed segments gives well-formed segments.
* `apply_get`: a call leaves the segments alone that it does not name.
* `reachable_refines`: the refinement.
-/

namespace RsIo

namespace Uri

/-! ### Well-formed segments -/

/-- No segments are well formed. -/
theorem Segments.wf_empty : Segments.Wf {} :=
  ⟨⟨.inl rfl, .inl rfl, .inl rfl, .inl rfl, .inl rfl, .inl rfl⟩, by simp⟩

/-- Clearing the user keeps the form. -/
theorem Segments.Wf.clearUser {s : Segments} (h : s.Wf) : s.clearUser.Wf :=
  { h with password := .inl rfl, user_iff := iff_of_true rfl rfl }

/-- Clearing the password keeps the form. -/
theorem Segments.Wf.clearPassword {s : Segments} (h : s.Wf) : s.clearPassword.Wf := by
  have hne : (if 1 < s.password.length then [atSign] else s.password) = [] ↔ s.password = [] := by
    split
    · refine iff_of_false (by simp) ?_
      rintro hnil
      simp [hnil] at *
    · rfl
  refine { h with password := ?_, user_iff := h.user_iff.trans hne.symm }
  rw [Segments.clearPassword]
  dsimp only
  split
  · exact .inr ⟨[], rfl⟩
  · exact h.password

/-- Clearing the path keeps the form. -/
theorem Segments.Wf.clearPath {s : Segments} (h : s.Wf) : s.clearPath.Wf := by
  refine { h with path := ?_ }
  rw [Segments.clearPath]
  dsimp only
  split
  · exact .inl rfl
  · exact h.path

/-- Setting a user keeps the form. -/
theorem Segments.Wf.setUser {s : Segments} (h : s.Wf) {user : Bytes} (hne : user ≠ []) :
    (s.setUser user).Wf := by
  rw [Segments.setUser]
  by_cases hu : s.user = []
  · rw [if_pos (by simp [hu])]
    exact { h with password := .inr ⟨[], rfl⟩, user_iff := iff_of_false hne (by simp) }
  · rw [if_neg (by simp [hu])]
    exact { h with user_iff := iff_of_false hne (mt h.user_iff.mpr hu) }

/-- A part of a path that is not empty is a path. -/
theorem slash_isPrefix {path part : Bytes} (h : path = [] ∨ [slash] <+: path)
    (hpart : part <+: path) : part = [] ∨ [slash] <+: part := by
  rcases h with rfl | h
  · exact .inl (List.prefix_nil.mp hpart)
  · by_cases hnil : part = []
    · exact .inl hnil
    · refine .inr (List.prefix_of_prefix_length_le h hpart ?_)
      exact List.length_pos_iff.mpr hnil

/-- The path of the parent is a first part of the path. -/
theorem parentPath_isPrefix (path : Bytes) : Segments.parentPath path <+: path := by
  rw [Segments.parentPath]
  split
  · refine (List.rdropWhile_prefix _ _).trans ?_
    split
    · exact List.dropLast_prefix path
    · exact List.prefix_refl path
  · exact List.prefix_refl path

/-- A path that begins with a slash keeps the form. -/
theorem Segments.Wf.setPath {s : Segments} (h : s.Wf) {path : Bytes}
    (hpath : path = [] ∨ [slash] <+: path) : { s with path := path }.Wf :=
  { h with path := hpath }

/-- Dropping the fragment keeps the form. -/
theorem Segments.Wf.doc {s : Segments} (h : s.Wf) : { s with fragment := [] }.Wf :=
  { h with fragment := .inl rfl }

/-- Dropping the query and the fragment keeps the form. -/
theorem Segments.Wf.base {s : Segments} (h : s.Wf) : { s with query := [], fragment := [] }.Wf :=
  { h with query := .inl rfl, fragment := .inl rfl }

/-- A setter that succeeds has cleared the segment, or has been given something to set. -/
theorem setter_cases {P : Segments → Prop} {s s' cleared : Segments} {new : Bytes}
    {set : Except InvalidArgument Segments} (happly : setter s new cleared set = .ok s')
    (hclear : new = [] → P cleared) (hset : new ≠ [] → set = .ok s' → P s') : P s' := by
  rw [setter] at happly
  split at happly
  · simp at happly
  split at happly
  · rename_i hnil
    cases happly
    exact hclear (by simpa using hnil)
  · rename_i hne
    exact hset (by simpa using hne) happly

/-- What `set_scheme` can do. -/
theorem setScheme_cases {P : Segments → Prop} {lib : UriLibs} {s s' : Segments} {newScheme : Bytes}
    {smart : Bool} (happly : (Op.setScheme newScheme smart).apply lib s = .ok s')
    (hset : ∀ scheme, schemeText lib newScheme smart = some scheme →
      P { s with scheme := scheme }) : P s' := by
  rw [Op.apply] at happly
  split at happly
  · simp at happly
  · rename_i scheme hscheme
    cases happly
    exact hset scheme hscheme

/-- What `set_port` can do. -/
theorem setPort_cases {P : Segments → Prop} {lib : UriLibs} {s s' : Segments} {newPort : UInt16}
    (happly : (Op.setPort newPort).apply lib s = .ok s')
    (hclear : newPort = 0 → P { s with port := [] })
    (hset : newPort ≠ 0 → s.host ≠ [] → P { s with port := colon :: toDecimal newPort.toNat }) :
    P s' := by
  rw [Op.apply] at happly
  split at happly
  · simp at happly
  split at happly
  · rename_i hzero
    cases happly
    exact hclear (beq_iff_eq.mp hzero)
  split at happly
  · simp at happly
  · rename_i hzero hhost
    cases happly
    exact hset (mt beq_iff_eq.mpr hzero) (by simpa using hhost)

/-- A path that was appended to is the same, has been set, or goes on behind its last slash. -/
theorem appendPath_cases {P : Segments → Prop} {lib : UriLibs} {s s' : Segments} {newPath : Bytes}
    (happly : (Op.appendPath newPath).apply lib s = .ok s') (hsame : P s)
    (hset : applySetPath lib s newPath = .ok s' → P s')
    (happend : 1 < s.path.length → P { s with
      path := s.path ++ if s.path.getLast? = some slash then encode lib newPath [colon, slash]
        else slash :: encode lib newPath [colon, slash] }) : P s' := by
  rw [Op.apply] at happly
  split at happly
  · cases happly
    exact hsame
  split at happly
  · simp at happly
  split at happly
  · exact hset happly
  split at happly
  · simp at happly
  · rename_i hlong _
    rw [not_or, Nat.not_le] at hlong
    cases happly
    exact happend hlong.2

/-- `set_path` keeps the form. -/
theorem applySetPath_wf {lib : UriLibs} {s s' : Segments} {newPath : Bytes}
    (happly : applySetPath lib s newPath = .ok s') (h : s.Wf) : s'.Wf := by
  refine setter_cases happly (fun _ => h.clearPath) fun hne hset => ?_
  split at hset
  · simp at hset
  · cases hset
    exact h.setPath (.inr (pathText_isPrefix lib hne))

/-- A call on well-formed segments gives well-formed segments. -/
theorem apply_wf {lib : UriLibs} {s s' : Segments} {op : Op} (happly : op.apply lib s = .ok s')
    (h : s.Wf) : s'.Wf := by
  cases op with
  | setScheme newScheme smart =>
      refine setScheme_cases happly fun scheme hscheme => ?_
      obtain ⟨name, -, hname | hname⟩ := schemeText_eq hscheme
      · exact { h with scheme := .inr (.inl ⟨name, hname.symm⟩) }
      · exact { h with scheme := .inr (.inr ⟨name, hname.symm⟩) }
  | setUser newUser =>
      refine setter_cases happly (fun _ => h.clearUser) fun hne hset => ?_
      split at hset
      · simp at hset
      · cases hset
        exact h.setUser (encode_ne_nil lib hne [])
  | setPassword newPassword =>
      refine setter_cases happly (fun _ => h.clearPassword) fun hne hset => ?_
      split at hset
      · simp at hset
      · rename_i hu
        cases hset
        refine { h with
          password := .inr ⟨colon :: encode lib newPassword, rfl⟩
          user_iff := iff_of_false (by simpa using hu) (by simp) }
  | setHost newHost =>
      refine setter_cases happly (fun _ => { h with }) fun hne hset => ?_
      cases hset
      exact { h with }
  | setPort newPort =>
      exact setPort_cases happly (fun _ => { h with port := .inl rfl })
        fun _ _ => { h with port := .inr (by simp) }
  | setPath newPath => exact applySetPath_wf happly h
  | setQuery newQuery =>
      refine setter_cases happly (fun _ => { h with query := .inl rfl }) fun hne hset => ?_
      cases hset
      exact { h with query := .inr (by simp) }
  | setFragment newFragment =>
      refine setter_cases happly (fun _ => h.doc) fun hne hset => ?_
      cases hset
      exact { h with fragment := .inr (by simp) }
  | clearUser =>
      cases happly
      exact h.clearUser
  | clearPassword =>
      cases happly
      exact h.clearPassword
  | clearHost =>
      cases happly
      exact { h with }
  | clearPort =>
      cases happly
      exact { h with port := .inl rfl }
  | clearPath =>
      cases happly
      exact h.clearPath
  | clearQuery =>
      cases happly
      exact { h with query := .inl rfl }
  | clearFragment =>
      cases happly
      exact h.doc
  | appendPath newPath =>
      refine appendPath_cases happly h (fun hset => applySetPath_wf hset h) fun hlong => ?_
      refine h.setPath (.inr ?_)
      rcases h.path with hnil | hpath
      · simp [hnil] at hlong
      · exact hpath.trans (List.prefix_append _ _)
  | clear =>
      cases happly
      exact Segments.wf_empty
  | doc =>
      cases happly
      exact h.doc
  | base =>
      cases happly
      exact h.base
  | parent =>
      cases happly
      exact h.base.setPath (slash_isPrefix h.path (parentPath_isPrefix s.path))
  | root =>
      cases happly
      refine h.base.setPath ?_
      split
      · exact .inl rfl
      · exact .inr (List.prefix_refl _)

/-! ### What a call leaves alone -/

/-- The segments that a call names. Setting a user may add the sign behind it and clearing it
takes the password away with it. -/
def Op.names (s : Segments) : Op → List Part
  | setScheme .. => [.scheme]
  | setUser newUser => if newUser = [] ∨ s.password = [] then [.user, .password] else [.user]
  | setPassword _ => [.password]
  | setHost _ => [.host]
  | setPort _ => [.port]
  | setPath _ => [.path]
  | setQuery _ => [.query]
  | setFragment _ => [.fragment]
  | clearUser => [.user, .password]
  | clearPassword => [.password]
  | clearHost => [.host]
  | clearPort => [.port]
  | clearPath => [.path]
  | clearQuery => [.query]
  | clearFragment => [.fragment]
  | appendPath _ => [.path]
  | clear => [.scheme, .user, .password, .host, .port, .path, .query, .fragment]
  | doc => [.fragment]
  | base => [.query, .fragment]
  | parent => [.path, .query, .fragment]
  | root => [.path, .query, .fragment]

/-- `set_path` changes no other segment. -/
theorem applySetPath_get {lib : UriLibs} {s s' : Segments} {newPath : Bytes}
    (happly : applySetPath lib s newPath = .ok s') {part : Part} (hpart : part ≠ .path) :
    s'.get part = s.get part := by
  refine setter_cases (P := fun t => t.get part = s.get part) happly
    (fun _ => ?_) fun _ hset => ?_
  · cases part <;> first | rfl | exact absurd rfl hpart
  · split at hset
    · simp at hset
    · cases hset
      cases part <;> first | rfl | exact absurd rfl hpart

/-- A call leaves the segments alone that it does not name. -/
theorem apply_get {lib : UriLibs} {s s' : Segments} {op : Op} (happly : op.apply lib s = .ok s')
    (h : s.Wf) {part : Part} (hpart : part ∉ op.names s) : s'.get part = s.get part := by
  cases op with
  | setScheme newScheme smart =>
      refine setScheme_cases (P := fun t => t.get part = s.get part) happly fun scheme _ => ?_
      cases part <;> simp_all [Op.names, Segments.get]
  | setUser newUser =>
      refine setter_cases (P := fun t => t.get part = s.get part) happly
        (fun hnil => ?_) fun hne hset => ?_
      · rw [Op.names, if_pos (.inl hnil)] at hpart
        cases part <;> simp_all [Segments.get, Segments.clearUser]
      · split at hset
        · simp at hset
        · cases hset
          have hu := h.user_iff
          by_cases hp : s.password = []
          · rw [Op.names, if_pos (.inr hp)] at hpart
            cases part <;> simp_all [Segments.get, Segments.setUser]
          · rw [Op.names, if_neg (by simp [hne, hp])] at hpart
            cases part <;> simp_all [Segments.get, Segments.setUser]
  | setPassword newPassword =>
      refine setter_cases (P := fun t => t.get part = s.get part) happly
        (fun hnil => ?_) fun hne hset => ?_
      · cases part <;> simp_all [Op.names, Segments.get, Segments.clearPassword]
      · split at hset
        · simp at hset
        · cases hset
          cases part <;> simp_all [Op.names, Segments.get]
  | setHost newHost =>
      refine setter_cases (P := fun t => t.get part = s.get part) happly
        (fun hnil => ?_) fun hne hset => ?_
      · cases part <;> simp_all [Op.names, Segments.get]
      · cases hset
        cases part <;> simp_all [Op.names, Segments.get]
  | setPort newPort =>
      refine setPort_cases (P := fun t => t.get part = s.get part) happly
        (fun _ => ?_) fun _ _ => ?_
      all_goals cases part <;> simp_all [Op.names, Segments.get]
  | setPath newPath => exact applySetPath_get happly (by simpa [Op.names] using hpart)
  | setQuery newQuery =>
      refine setter_cases (P := fun t => t.get part = s.get part) happly
        (fun hnil => ?_) fun hne hset => ?_
      · cases part <;> simp_all [Op.names, Segments.get]
      · cases hset
        cases part <;> simp_all [Op.names, Segments.get]
  | setFragment newFragment =>
      refine setter_cases (P := fun t => t.get part = s.get part) happly
        (fun hnil => ?_) fun hne hset => ?_
      · cases part <;> simp_all [Op.names, Segments.get]
      · cases hset
        cases part <;> simp_all [Op.names, Segments.get]
  | appendPath newPath =>
      have hne : part ≠ .path := by simpa [Op.names] using hpart
      refine appendPath_cases (P := fun t => t.get part = s.get part) happly rfl
        (fun hset => applySetPath_get hset hne) fun _ => ?_
      cases part <;> first | rfl | exact absurd rfl hne
  | _ =>
      cases happly
      cases part <;>
        simp_all [Op.names, Segments.get, Segments.clearUser, Segments.clearPassword,
          Segments.clearPath]

/-! ### Everything reachable -/

/-- The object that a call leaves behind. -/
def Outcome.object : Outcome → Uri
  | returned u => u
  | threw _ u => u

/-- The objects that a program can build: an empty one, what a parser makes of it, and what
any call leaves behind, whether it returns or throws. -/
inductive Reachable (lib : UriLibs) : Uri → Prop
  | new : Reachable lib {}
  | parse {u : Uri} (h : Reachable lib u) (t : Bytes) : Reachable lib (tryParse lib u t).2
  | call {u : Uri} (h : Reachable lib u) (op : Op) : Reachable lib (op.run lib u).object

/-- Everything reachable stands for well-formed segments. -/
theorem Reachable.exists_segments {lib : UriLibs} {u : Uri} (h : Reachable lib u) :
    ∃ s : Segments, s.Wf ∧ u = assemble s := by
  induction h with
  | new => exact ⟨{}, Segments.wf_empty, rfl⟩
  | @parse u _ t ih =>
      obtain ⟨s, hs, rfl⟩ := ih
      cases hp : tryParse lib (assemble s) t with
      | mk ok u' =>
          cases ok with
          | false => exact ⟨s, hs, tryParse_false hp⟩
          | true =>
              obtain ⟨s', hs', -, rfl⟩ := tryParse_true hp
              exact ⟨s', hs'.wf, rfl⟩
  | @call u _ op ih =>
      obtain ⟨s, hs, rfl⟩ := ih
      rw [run_assemble lib hs op]
      cases happly : op.apply lib s with
      | error e => exact ⟨s, hs, rfl⟩
      | ok s' => exact ⟨s', apply_wf happly hs, rfl⟩

/-- **Refinement.** The offsets of everything reachable are in order and inside the text and
separate punctuated segments, which make up the whole of it. A call does to them what it does
to the record of segments: it changes no segment that it does not name, and if it throws it
changes nothing. -/
theorem reachable_refines (lib : UriLibs) {u : Uri} (h : Reachable lib u) :
    u.Ordered ∧ u.segments.Punctuated ∧ u = assemble u.segments ∧ ∀ op : Op,
      op.run lib u = outcome u (op.apply lib u.segments) ∧
      (∀ u', op.run lib u = .returned u' →
        ∀ part ∉ op.names u.segments, u'.segments.get part = u.segments.get part) ∧
      (∀ e u', op.run lib u = .threw e u' → u' = u) := by
  obtain ⟨s, hs, rfl⟩ := h.exists_segments
  rw [segments_assemble]
  refine ⟨ordered_assemble s, hs.toPunctuated, rfl, fun op => ?_⟩
  have hrun := run_assemble lib hs op
  refine ⟨hrun, fun u' hret part hpart => ?_, fun e u' hthrew => ?_⟩
  · rw [hrun] at hret
    cases happly : op.apply lib s with
    | error e => simp [happly, outcome] at hret
    | ok s' =>
        rw [happly, outcome, Outcome.returned.injEq] at hret
        rw [← hret, segments_assemble]
        exact apply_get happly hs hpart
  · rw [hrun] at hthrew
    cases happly : op.apply lib s with
    | error e =>
        rw [happly, outcome, Outcome.threw.injEq] at hthrew
        exact hthrew.2.symm
    | ok s' => simp [happly, outcome] at hthrew

/-- The refinement after two calls on an empty object. -/
theorem reachable_refines_host :
    let u := ((Op.setHost (bytes "example")).run .ascii
      ((Op.setScheme (bytes "http") true).run .ascii {}).object).object
    u.text = bytes "http://example" ∧ u = assemble u.segments :=
  ⟨by decide +kernel, (reachable_refines .ascii (.call (.call .new _) _)).2.2.1⟩

end Uri

end RsIo
