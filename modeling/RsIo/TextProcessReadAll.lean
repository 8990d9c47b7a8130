import RsIo.TextProcess
import RsIo.Transition

/-!
# Reading All the Output of a Process

`StreamChannel::read_all` waits and appends until the stream is closed. It gives up what it has
when a call on the pipe fails. `TextProcess::read_all` puts the buffer in front of what the
stream has left, and does not clear the buffer.

The calls of a reader may come in any order here, also those that fail.

## Main results

* `StreamProcess.readAll_spec`: what `read_all` returns, and what it leaves if it throws.
* `TextProcess.readAll_closes_iff`: when a process is closed after `read_all`.
* `TextProcess.Reader.deliveredOnce`: every byte is delivered at most once, if the buffer is empty
  whenever `read_all` returns.
* `TextProcess.Reader.not_deliveredOnce`: otherwise the process stays open.
-/

namespace RsIo

open StdString

/-! ### The stream -/

namespace StreamProcess

/-- An append to a string, of an open stream. -/
theorem append_cases {s : StreamProcess} (hopen : s.isOpen = true) (acc : Bytes) :
    ∃ data thrown t, StreamChannel.append s.read TextProcess.block acc =
        (data.length, acc ++ data, thrown, t) ∧ data ++ t.rest = s.rest ∧ t.size < s.size := by
  rw [StreamChannel.append_eq]
  rcases read_cases hopen (n := TextProcess.block) (by decide) with
    ⟨data, t, hread, hne, -, hrest, hsize⟩ | ⟨t, hread, -, hrest, hsize⟩ | ⟨t, hread, ht, hrest⟩
  · have hpos := List.length_pos_iff.mpr hne
    exact ⟨data, false, t, by rw [hread], hrest, by omega⟩
  · exact ⟨[], true, t, by rw [hread], hrest, hsize⟩
  · have hsize : t.size = 0 := by rw [size, ht]; rfl
    have hpos : 0 < s.size := by rw [size, if_pos hopen]; omega
    exact ⟨[], false, t, by rw [hread], by rw [rest_closed ht, hrest]; rfl, by omega⟩

/-- A wait keeps the output. -/
theorem doWaitFor_rest (s : StreamProcess) :
    s.doWaitFor.2.rest = s.rest ∧ s.doWaitFor.2.size ≤ s.size := by
  cases hopen : s.isOpen with
  | false => simp [doWaitFor, hopen]
  | true =>
      rcases doWaitFor_cases hopen with hwait | ⟨t, hwait, -, hrest, hsize⟩
      · simp [hwait]
      · rw [hwait]
        exact ⟨hrest, hsize.le⟩

/-- `StreamChannel::read_all` of the stream, with the string so far: the string, or `none` if it
throws, and the stream. -/
def readAll (s : StreamProcess) (acc : Bytes) : Option Bytes × StreamProcess :=
  let w := s.doWaitFor
  if w.1 then
    (none, w.2)
  else if _h : !w.2.isOpen then
    (some acc, w.2)
  else
    let a := StreamChannel.append w.2.read TextProcess.block acc
    if a.2.2.1 then
      (none, a.2.2.2)
    else
      readAll a.2.2.2 a.2.1
termination_by s.size
decreasing_by
  have hopen : w.2.isOpen = true := by simpa using _h
  obtain ⟨data, thrown, t, happend, -, hsize⟩ := append_cases hopen acc
  have hle := (doWaitFor_rest s).2
  change (StreamChannel.append w.2.read TextProcess.block acc).2.2.2.size < s.size
  rw [happend]
  exact hsize.trans_le hle

/-- What is returned is all the output, and the stream is closed then. What is left when a call
fails is the end of the output. -/
theorem readAll_spec (s : StreamProcess) (acc : Bytes) :
    (∃ t, s.readAll acc = (some (acc ++ s.rest), t) ∧ t.isOpen = false) ∨
      ∃ t, s.readAll acc = (none, t) ∧ t.rest <:+ s.rest := by
  fun_induction readAll s acc with
  | case1 s acc w hthrow => exact .inr ⟨_, rfl, (doWaitFor_rest s).1 ▸ List.suffix_rfl⟩
  | case2 s acc w hthrow hclosed =>
      have hw : w.2.isOpen = false := by simpa using hclosed
      have hrest : s.rest = [] := (doWaitFor_rest s).1 ▸ rest_closed hw
      exact .inl ⟨_, by rw [hrest, List.append_nil], hw⟩
  | case3 s acc w hthrow hopen a hfail =>
      obtain ⟨data, thrown, t, happend, hrest, -⟩ := append_cases (by simpa using hopen) acc
      have ha : a = (data.length, acc ++ data, thrown, t) := happend
      rw [ha, ← (doWaitFor_rest s).1]
      exact .inr ⟨t, rfl, _, hrest⟩
  | case4 s acc w hthrow hopen a hfail ih =>
      obtain ⟨data, thrown, t, happend, hrest, -⟩ := append_cases (by simpa using hopen) acc
      have ha : a = (data.length, acc ++ data, thrown, t) := happend
      rw [ha, List.append_assoc, hrest] at ih
      rw [ha, ← (doWaitFor_rest s).1]
      exact ih.imp_right fun ⟨u, hu, hsuffix⟩ => ⟨u, hu, hsuffix.trans ⟨_, hrest⟩⟩

/-- Nothing is read of a closed stream. -/
theorem readAll_closed {s : StreamProcess} (h : s.isOpen = false) (acc : Bytes) :
    s.readAll acc = (some acc, s) := by
  have hwait : s.doWaitFor = (false, s) := if_pos (by simp [h])
  rw [readAll]
  simp [hwait, h]

end StreamProcess

/-- `shell`: what the process has written, or `none` if it throws. -/
def shell (pipe : Pipe) : Option Bytes := (StreamProcess.readAll ⟨pipe, true⟩ []).1

/-- The shell returns the whole output. -/
theorem shell_eq_some {pipe : Pipe} {s : Bytes} (h : shell pipe = some s) : s = pipe.output := by
  rcases StreamProcess.readAll_spec ⟨pipe, true⟩ [] with ⟨t, ht, -⟩ | ⟨t, ht, -⟩
  · rw [shell, ht] at h
    exact (Option.some.inj h).symm
  · rw [shell, ht] at h
    cases h

/-! ### The process -/

namespace TextProcess

/-- `TextProcess::read_all`: the text, or `none` if it throws, and the process. -/
def readAll (s : TextProcess) : Option Bytes × TextProcess :=
  let r := s.stream.readAll []
  (r.1.map (s.buf ++ ·), { s with stream := r.2 })

/-- The buffer is returned with what is in the stream, and stays. -/
theorem readAll_cases (s : TextProcess) :
    (∃ t, s.readAll = (some s.text, { s with stream := t }) ∧ t.isOpen = false) ∨
      ∃ t, s.readAll = (none, { s with stream := t }) ∧ t.rest <:+ s.stream.rest := by
  rcases s.stream.readAll_spec [] with ⟨t, ht, hclosed⟩ | ⟨t, ht, hsuffix⟩
  · exact .inl ⟨t, by rw [readAll, ht]; rfl, hclosed⟩
  · exact .inr ⟨t, by rw [readAll, ht]; rfl, hsuffix⟩

/-- After a `read_all` that returns, a process is closed exactly if its buffer was empty. -/
theorem readAll_closes_iff {s t : TextProcess} {text : Bytes} (h : s.readAll = (some text, t)) :
    t.isClosed = true ↔ s.buf = [] := by
  rcases s.readAll_cases with ⟨u, hu, hclosed⟩ | ⟨u, hu, -⟩
  · obtain ⟨-, rfl⟩ := Prod.mk.inj (hu.symm.trans h)
    simp [isClosed, hclosed]
  · rw [hu] at h
    cases h

/-- A read takes a line from the text, and drops bytes at most. -/
theorem read_sublist (s : TextProcess) : (s.read.1.getD [] ++ s.read.2.text).Sublist s.text := by
  by_cases hne : s.buf = []
  · rw [read_nil hne]
    exact List.Sublist.refl _
  by_cases hlf : lf ∈ s.buf
  · obtain ⟨line, post, hbuf, hline⟩ := List.eq_append_cons_of_mem hlf
    obtain ⟨stream, buf⟩ := s
    subst hbuf
    have hdrop : (dropCr line).Sublist line := by
      rw [dropCr]
      split
      · exact List.dropLast_sublist line
      · exact List.Sublist.refl _
    rw [read_line hline, text, text, List.append_assoc, List.cons_append]
    exact hdrop.append (List.sublist_cons_self _ _)
  · rw [read_rest hlf hne]
    exact List.Sublist.refl _

/-- Nothing is read of a closed process. -/
theorem read_closed {s : TextProcess} (h : s.isClosed = true) : s.read = (none, s) := by
  rw [isClosed, Bool.and_eq_true, List.isEmpty_iff] at h
  exact read_nil h.2

/-- Waiting changes no closed process. -/
theorem doWaitFor_closed {s : TextProcess} (h : s.isClosed = true) (late : ℕ → Bool) :
    (s.doWaitFor late).2 = s := by
  rw [isClosed, Bool.and_eq_true, Bool.not_eq_true'] at h
  rw [doWaitFor, waitLoop_closed h.1]

/-! ### Readers -/

/-- A reader of a process: the strings that its calls have returned, and whether a `read_all`
is among these calls. -/
structure Reader where
  process : TextProcess
  returned : List Bytes
  hasReadAll : Bool
  deriving DecidableEq, Repr

namespace Reader

/-- The reader waits. -/
def wait (r : Reader) (late : ℕ → Bool) : Reader :=
  { r with process := (r.process.doWaitFor late).2 }

/-- The reader reads a line. -/
def read (r : Reader) : Reader :=
  let a := r.process.read
  { r with process := a.2, returned := r.returned ++ a.1.toList }

/-- The reader reads everything. -/
def readAll (r : Reader) : Reader :=
  let a := r.process.readAll
  ⟨a.2, r.returned ++ a.1.toList, r.hasReadAll || a.1.isSome⟩

/-- A call that a reader makes. -/
inductive Call
  | wait (late : ℕ → Bool)
  | read
  | readAll

/-- A call is made, and it returns or throws. -/
def after (r : Reader) : Call → Reader
  | .wait late => r.wait late
  | .read => r.read
  | .readAll => r.readAll

/-- The readers of a process, with any calls in any order. -/
def readers (pipe : Pipe) : Machine Reader Call where
  start := ⟨TextProcess.new pipe, [], false⟩
  next r call := some (r.after call)

/-- No byte of the output is delivered twice, and what was delivered is not to come again. After
a `read_all` the process is closed. -/
structure DeliveredOnce (pipe : Pipe) (r : Reader) : Prop where
  once : (r.returned.flatten ++ r.process.text).Sublist pipe.output
  closed : r.hasReadAll = true → r.process.isClosed = true

/-- Nothing is in the buffer when `read_all` is called, or the stream throws then. -/
def Flushed (r : Reader) (call : Call) : Prop :=
  call = .readAll → r.process.buf = [] ∨ (r.process.stream.readAll []).1 = none

variable {pipe : Pipe} {r : Reader}

/-- Waiting delivers nothing twice. -/
theorem DeliveredOnce.wait (h : DeliveredOnce pipe r) (late : ℕ → Bool) :
    DeliveredOnce pipe (r.wait late) := by
  refine ⟨?_, fun hread => ?_⟩
  · change (r.returned.flatten ++ (r.process.doWaitFor late).2.text).Sublist pipe.output
    rw [(r.process.doWaitFor_spec late).1]
    exact h.once
  · change (r.process.doWaitFor late).2.isClosed = true
    rw [doWaitFor_closed (h.closed hread)]
    exact h.closed hread

/-- Reading a line delivers nothing twice. -/
theorem DeliveredOnce.read (h : DeliveredOnce pipe r) : DeliveredOnce pipe r.read := by
  refine ⟨?_, fun hread => ?_⟩
  · have hline : r.read.returned.flatten = r.returned.flatten ++ r.process.read.1.getD [] := by
      rw [Reader.read]
      cases r.process.read.1 <;> simp
    rw [hline, List.append_assoc]
    exact ((List.Sublist.refl _).append r.process.read_sublist).trans h.once
  · change r.process.read.2.isClosed = true
    rw [read_closed (h.closed hread)]
    exact h.closed hread

/-- Reading everything delivers nothing twice, if no line was left in the buffer. -/
theorem DeliveredOnce.readAll (h : DeliveredOnce pipe r) (hflushed : Flushed r .readAll) :
    DeliveredOnce pipe r.readAll := by
  rcases r.process.readAll_cases with ⟨t, ht, hclosed⟩ | ⟨t, ht, hsuffix⟩
  · have hbuf : r.process.buf = [] := by
      refine (hflushed rfl).resolve_right fun hthrow => ?_
      have hnone : r.process.readAll.1 = none := by rw [TextProcess.readAll, hthrow]; rfl
      rw [ht] at hnone
      cases hnone
    have hend : (⟨t, r.process.buf⟩ : TextProcess).isClosed = true := by
      simp [isClosed, hclosed, hbuf]
    rw [Reader.readAll, ht]
    refine ⟨?_, fun _ => hend⟩
    rw [text_of_isClosed hend]
    simpa using h.once
  · rw [Reader.readAll, ht]
    refine ⟨?_, fun hread => ?_⟩
    · rw [Option.toList_none, List.append_nil]
      exact ((List.Sublist.refl _).append
        ((List.Sublist.refl _).append hsuffix.sublist)).trans h.once
    · have hclosed := h.closed (by simpa using hread)
      rw [isClosed, Bool.and_eq_true, Bool.not_eq_true'] at hclosed
      rw [TextProcess.readAll, StreamProcess.readAll_closed hclosed.1] at ht
      cases ht

/-- The process is not closed after a `read_all` that returns what is in the buffer. -/
theorem not_deliveredOnce (h : ¬ Flushed r .readAll) : ¬ DeliveredOnce pipe (r.after .readAll) := by
  intro honce
  obtain ⟨-, hbad⟩ := Classical.not_imp.mp h
  obtain ⟨hbuf, hreturns⟩ := not_or.mp hbad
  rcases r.process.readAll_cases with ⟨t, ht, -⟩ | ⟨t, ht, -⟩
  · have hclosed := honce.closed
    rw [after, Reader.readAll, ht] at hclosed
    exact hbuf ((readAll_closes_iff ht).mp (hclosed (by simp)))
  · rw [TextProcess.readAll, Prod.mk.injEq, Option.map_eq_none_iff] at ht
    exact hreturns ht.1

/-- **Delivery.** Whatever the calls are, and whichever fail, every byte of the output is
delivered at most once, if nothing is in the buffer whenever `read_all` returns. -/
theorem deliveredOnce (h : (readers pipe).Reach Flushed r) : DeliveredOnce pipe r := by
  refine Machine.Reach.invariant ⟨List.Sublist.refl _, fun h => by cases h⟩
    (fun r call r' hr hflushed hnext => ?_) h
  rw [← Option.some.inj hnext]
  cases call with
  | wait late => exact hr.wait late
  | read => exact hr.read
  | readAll => exact hr.readAll hflushed

/-- A process that has written two lines, which are in the buffer after a wait. -/
theorem next_wait :
    (readers [.bytes (bytes "a\nb\n")]).next (readers [.bytes (bytes "a\nb\n")]).start
        (.wait fun _ => false) =
      some ⟨⟨⟨[], true⟩, bytes "a\nb\n"⟩, [], false⟩ := by
  have hpass : (TextProcess.new [.bytes (bytes "a\nb\n")]).pass =
      (some (.returned true), ⟨⟨[], true⟩, bytes "a\nb\n"⟩) := by
    simp only [pass, append_eq]
    decide
  change some (Reader.wait ⟨TextProcess.new _, [], false⟩ fun _ => false) = _
  rw [Reader.wait, doWaitFor, waitLoop, hpass]

/-- At the end of the output `read_all` of the stream returns nothing. -/
theorem readAll_end : StreamProcess.readAll ⟨[], true⟩ [] = (some [], ⟨[], false⟩) := by
  have happend : StreamChannel.append (StreamProcess.read ⟨[], true⟩) block [] =
      (0, [], false, ⟨[], false⟩) := by
    rw [StreamChannel.append_eq]
    rfl
  have hwait : StreamProcess.doWaitFor ⟨[], true⟩ = (false, ⟨[], true⟩) := rfl
  rw [StreamProcess.readAll]
  simp only [hwait, happend]
  exact StreamProcess.readAll_closed rfl []

/-- The lines are read one by one before the rest. -/
theorem deliveredOnce_lines :
    DeliveredOnce [.bytes (bytes "a\nb\n")]
      ⟨⟨⟨[], false⟩, []⟩, [bytes "a", bytes "b", []], true⟩ := by
  have hwait : (readers [.bytes (bytes "a\nb\n")]).Reach Flushed
      ⟨⟨⟨[], true⟩, bytes "a\nb\n"⟩, [], false⟩ :=
    .step .start (fun h => by cases h) next_wait
  have hread : (readers [.bytes (bytes "a\nb\n")]).Reach Flushed
      ⟨⟨⟨[], true⟩, []⟩, [bytes "a", bytes "b"], false⟩ :=
    (hwait.step (e := .read) (fun h => by cases h) rfl).step (e := .read)
      (fun h => by cases h) rfl
  refine deliveredOnce (hread.step (e := .readAll) (fun _ => .inl rfl) ?_)
  change some (Reader.readAll _) = _
  rw [Reader.readAll, TextProcess.readAll, readAll_end]
  rfl

/-- A buffer that is not empty is returned by each `read_all`. -/
theorem deliveredOnce_fails :
    ¬ ∀ pipe r, (readers pipe).Reachable r → DeliveredOnce pipe r := by
  intro hall
  have hwait : (readers [.bytes (bytes "a\nb\n")]).Reachable
      ⟨⟨⟨[], true⟩, bytes "a\nb\n"⟩, [], false⟩ := .step .start trivial next_wait
  have hfirst : (readers [.bytes (bytes "a\nb\n")]).Reachable
      ⟨⟨⟨[], false⟩, bytes "a\nb\n"⟩, [bytes "a\nb\n"], true⟩ := by
    refine hwait.step (e := .readAll) trivial ?_
    change some (Reader.readAll _) = _
    rw [Reader.readAll, TextProcess.readAll, readAll_end]
    rfl
  have hsecond : (readers [.bytes (bytes "a\nb\n")]).Reachable
      ⟨⟨⟨[], false⟩, bytes "a\nb\n"⟩, [bytes "a\nb\n", bytes "a\nb\n"], true⟩ := by
    refine hfirst.step (e := .readAll) trivial ?_
    change some (Reader.readAll _) = _
    rw [Reader.readAll, TextProcess.readAll, StreamProcess.readAll_closed rfl]
    rfl
  exact absurd (hall _ _ hsecond).once.length_le (by decide)

end Reader

end TextProcess

end RsIo
