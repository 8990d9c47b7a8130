import RsIo.Transition
import RsIo.UriReachable

/-!
# User, Password and Port Need a Host

`set_user`, `set_password` and `set_port` throw when there is nothing that the new part
could belong to, so that a URI with a user, a password or a port should have a host.
`clear_host` takes the host away without looking at what belongs to it, and `set_host`
calls it for an empty string.

A program that works on one object is a machine here, whose events are the calls and the
parses. `KeepsHost` excludes the two calls above on a URI with a user or a port.

## Main results

* `hosted_of_reach`: the calls that `KeepsHost` excludes are the only ones that lose the
  host of a user or a port.
-/

namespace RsIo

namespace Uri

/-- What a program does to a `Uri`: it parses a string into it, or makes a call. -/
inductive Event
  | parse (t : Bytes)
  | call (op : Op)

/-- The object after one event, whether it returned or threw. -/
def after (lib : UriLibs) (u : Uri) : Event → Uri
  | .parse t => (tryParse lib u t).2
  | .call op => (op.run lib u).object

/-- A program that works on one object, which starts empty. -/
def objects (lib : UriLibs) : Machine Uri Event where
  start := {}
  next u e := some (after lib u e)

/-- What the machine reaches is what a program can build. -/
theorem reachable_of_reach {lib : UriLibs} {ok : Uri → Event → Prop} {u : Uri}
    (h : (objects lib).Reach ok u) : Reachable lib u := by
  refine h.invariant (I := Reachable lib) .new ?_
  intro u e u' hu _ hnext
  obtain rfl : after lib u e = u' := Option.some.inj hnext
  cases e with
  | parse t => exact hu.parse t
  | call op => exact hu.call op

/-- A user, a password or a port has a host, and a password has a user. -/
def Hosted (u : Uri) : Prop :=
  (u.hasUser = true ∨ u.hasPassword = true ∨ u.hasPort = true → u.hasHost = true) ∧
    (u.hasPassword = true → u.hasUser = true)

/-- `clear_host`, also through `set_host`, is not called with a user or a port left. -/
def KeepsHost (u : Uri) : Event → Prop
  | .call .clearHost => u.hasUser = false ∧ u.hasPort = false
  | .call (.setHost newHost) => newHost = [] → u.hasUser = false ∧ u.hasPort = false
  | _ => True

instance (u : Uri) (e : Event) : Decidable (KeepsHost u e) := by
  unfold KeepsHost
  split <;> infer_instance

/-! ### The host on segments -/

/-- Without a host there is no user and no port. -/
def Segments.Hosted (s : Segments) : Prop :=
  s.host = [] → s.user = [] ∧ s.port = []

/-- Well-formed segments always have a user for a password. -/
theorem hosted_assemble {s : Segments} (h : s.Wf) : (assemble s).Hosted ↔ s.Hosted := by
  have hpassword : 1 < s.password.length → s.user ≠ [] := by
    intro hlen huser
    rw [h.user_iff.mp huser] at hlen
    simp at hlen
  simp only [Uri.Hosted, Segments.Hosted, hasUser_assemble, hasPassword_assemble, hasPort_assemble,
    hasHost_assemble, Bool.not_eq_true', List.isEmpty_eq_false_iff, decide_eq_true_eq]
  constructor
  · rintro ⟨hhost, -⟩ hnil
    constructor
    · by_contra huser
      exact hhost (.inl huser) hnil
    · by_contra hport
      exact hhost (.inr (.inr hport)) hnil
  · intro hs
    refine ⟨fun hparts hnil => ?_, hpassword⟩
    obtain ⟨huser, hport⟩ := hs hnil
    rcases hparts with h | h | h
    · exact h huser
    · exact hpassword h huser
    · exact h hport

/-- The parts the segments lose by a call are those that `KeepsHost` speaks of. -/
theorem keepsHost_assemble (s : Segments) :
    (assemble s).hasUser = false ∧ (assemble s).hasPort = false ↔ s.user = [] ∧ s.port = [] := by
  simp

theorem hosted_empty : Uri.Hosted {} :=
  (hosted_assemble Segments.wf_empty).mpr fun _ => ⟨rfl, rfl⟩

/-- A call that names neither the host nor what belongs to it keeps them as they are. -/
theorem Segments.Hosted.of_get {s s' : Segments} (h : s.Hosted)
    (hget : ∀ part, part = .host ∨ part = .user ∨ part = .port → s'.get part = s.get part) :
    s'.Hosted := by
  intro hnil
  have hhost : s'.host = s.host := hget .host (.inl rfl)
  have huser : s'.user = s.user := hget .user (.inr (.inl rfl))
  have hport : s'.port = s.port := hget .port (.inr (.inr rfl))
  rw [huser, hport]
  exact h (hhost ▸ hnil)

/-- A call on segments keeps the host of a user and a port if it keeps to `KeepsHost`. -/
theorem Segments.Hosted.apply {lib : UriLibs} {s s' : Segments} {op : Op} (h : s.Hosted)
    (hwf : s.Wf) (hok : KeepsHost (assemble s) (.call op)) (happly : op.apply lib s = .ok s') :
    s'.Hosted := by
  have hframe (hnames : ∀ part, part = .host ∨ part = .user ∨ part = .port →
      part ∉ op.names s) : s'.Hosted :=
    h.of_get fun part hpart => apply_get happly hwf (hnames part hpart)
  cases op with
  | setUser newUser =>
      refine setter_cases happly (fun _ hnil => ⟨rfl, (h hnil).2⟩) fun _ hset => ?_
      split at hset
      · simp at hset
      · rename_i hhost
        cases hset
        have hne : s.host ≠ [] := by simpa using hhost
        exact fun hnil => absurd hnil hne
  | setHost newHost =>
      refine setter_cases happly (fun hnew _ => ?_) fun hnew hset => ?_
      · exact (keepsHost_assemble s).mp (hok hnew)
      · cases hset
        exact fun hnil => absurd hnil (encode_ne_nil lib hnew [])
  | setPort newPort =>
      exact setPort_cases happly (fun _ hnil => ⟨(h hnil).1, rfl⟩)
        fun _ hhost hnil => absurd hnil hhost
  | clearUser =>
      cases happly
      exact fun hnil => ⟨rfl, (h hnil).2⟩
  | clearHost =>
      cases happly
      exact fun _ => (keepsHost_assemble s).mp hok
  | clearPort =>
      cases happly
      exact fun hnil => ⟨(h hnil).1, rfl⟩
  | clear =>
      cases happly
      exact fun _ => ⟨rfl, rfl⟩
  | _ =>
      refine hframe ?_
      rintro part (rfl | rfl | rfl) <;> simp [Op.names]

/-- A call that `KeepsHost` excludes takes the host of a user or a port. -/
theorem Segments.Hosted.lost (lib : UriLibs) {s : Segments} {op : Op} (h : s.Hosted)
    (hok : ¬ KeepsHost (assemble s) (.call op)) :
    ∃ s', op.apply lib s = .ok s' ∧ ¬ s'.Hosted := by
  have hparts (hparts : ¬ ((assemble s).hasUser = false ∧ (assemble s).hasPort = false)) :
      s.text ≠ [] ∧ ¬ Segments.Hosted { s with host := [] } := by
    rw [keepsHost_assemble] at hparts
    have hhost : s.host ≠ [] := fun hnil => hparts (h hnil)
    exact ⟨text_ne_nil .host hhost, fun hlost => hparts (hlost rfl)⟩
  cases op with
  | clearHost => exact ⟨_, rfl, (hparts hok).2⟩
  | setHost newHost =>
      obtain ⟨rfl, hlost⟩ := Classical.not_imp.mp hok
      obtain ⟨htext, hnot⟩ := hparts hlost
      refine ⟨{ s with host := [] }, ?_, hnot⟩
      simp [Op.apply, setter, htext]
  | _ => exact absurd trivial hok

/-! ### Every run -/

/-- One event keeps the host of a user and a port exactly if it keeps to `KeepsHost`. -/
theorem hosted_after_iff {lib : UriLibs} {s : Segments} (hwf : s.Wf) (h : s.Hosted) (e : Event) :
    (after lib (assemble s) e).Hosted ↔ KeepsHost (assemble s) e := by
  cases e with
  | parse t =>
      refine iff_of_true ?_ trivial
      rw [after]
      cases hp : tryParse lib (assemble s) t with
      | mk ok u =>
          cases ok with
          | false =>
              rw [tryParse_false hp]
              exact (hosted_assemble hwf).mpr h
          | true =>
              obtain ⟨s', hs', -, rfl⟩ := tryParse_true hp
              exact (hosted_assemble hs'.wf).mpr hs'.no_host
  | call op =>
      rw [after, run_assemble lib hwf op]
      constructor
      · intro hhosted
        by_contra hok
        obtain ⟨s', happly, hlost⟩ := h.lost lib hok
        rw [happly] at hhosted
        exact hlost ((hosted_assemble (apply_wf happly hwf)).mp hhosted)
      · intro hok
        cases happly : op.apply lib s with
        | error error => exact (hosted_assemble hwf).mpr h
        | ok s' => exact (hosted_assemble (apply_wf happly hwf)).mpr (h.apply hwf hok happly)

/-- **User, password and port.** In every run in which `clear_host`, or `set_host` with an
empty string, is only called on a URI without a user and a port, a user, a password or a port
has a host and a password has a user. From a URI of such a run any other step keeps that, and
those two calls do not. -/
theorem hosted_of_reach {lib : UriLibs} {u : Uri} (h : (objects lib).Reach KeepsHost u) :
    u.Hosted ∧ ∀ e, (after lib u e).Hosted ↔ KeepsHost u e := by
  have hhosted : Reachable lib u ∧ u.Hosted := by
    refine h.invariant (I := fun u => Reachable lib u ∧ u.Hosted) ⟨.new, hosted_empty⟩ ?_
    rintro u e u' ⟨hu, hs⟩ hok hnext
    obtain rfl : after lib u e = u' := Option.some.inj hnext
    obtain ⟨s, hwf, rfl⟩ := hu.exists_segments
    refine ⟨?_, (hosted_after_iff hwf ((hosted_assemble hwf).mp hs) e).mpr hok⟩
    cases e with
    | parse t => exact hu.parse t
    | call op => exact hu.call op
  obtain ⟨hu, hs⟩ := hhosted
  obtain ⟨s, hwf, rfl⟩ := hu.exists_segments
  exact ⟨hs, hosted_after_iff hwf ((hosted_assemble hwf).mp hs)⟩

/-- The host of a URI without a user and a port may be cleared. -/
theorem hosted_of_reach_clearHost :
    let u : Uri := ⟨bytes "http:///p", 7, 7, 7, 7, 7, 9, 9⟩
    u.Hosted ∧ ∀ e, (after .ascii u e).Hosted ↔ KeepsHost u e :=
  hosted_of_reach (Machine.Reach.of_replay [.parse (bytes "http://h/p"), .call .clearHost] .start
    (by decide +kernel))

/-- `clear_host` leaves a user and a port behind. -/
theorem hosted_fails :
    ¬ ∀ (lib : UriLibs) (u : Uri), (objects lib).Reachable u → u.Hosted := by
  intro h
  have hreach : (objects .ascii).Reachable ⟨bytes "http://u@:80/", 7, 8, 9, 9, 12, 13, 13⟩ :=
    Machine.Reach.of_replay [.parse (bytes "http://u@h:80/"), .call .clearHost] .start
      (by decide +kernel)
  exact absurd (h _ _ hreach) (by simp [Uri.Hosted]; decide)

end Uri

end RsIo
