import RsIo.BufferChannel
import RsIo.Progress

/-!
# Reading All of a Buffer

`StreamChannel::read_all` on a `BufferChannel` waits, asks whether the channel is closed, and
appends, in separate steps, until it is closed. Any number of other threads write to the
channel, close it, or change its block size between them. Nobody else reads from it or clears
it.

Closing the channel throws away what is pending, so the text is what was written only if the
reader was quick enough.

## Main results

* `Gathering.step`: what was read, what is pending, and what the close threw away.
* `readAll_returns`: once the channel is closed the function returns, with all but what was
  pending.
-/

namespace RsIo

namespace BufferChannel

/-- Where the thread is in `read_all`. -/
inductive ReadAllPc
  | waiting
  | asking
  | appending
  | done
  deriving DecidableEq, Repr

/-- A thread in `read_all` with its string, the channel, what was written to it, and what was
pending when it was closed. -/
structure ReadAll where
  channel : BufferChannel
  written : Bytes
  discarded : Bytes
  pc : ReadAllPc
  s : Bytes
  deriving DecidableEq, Repr

/-- A step of the thread, or what another one does. -/
inductive ReadAllEvent
  | thread
  | write (src : Bytes)
  | close
  | setBlockSize (n : ℕ)
  deriving DecidableEq

namespace ReadAll

/-- What the thread does. It goes on from the wait when the channel is ready. -/
def advance (s : ReadAll) : Option ReadAll :=
  match s.pc with
  | .waiting => if s.channel.doWaitFor then some { s with pc := .asking } else none
  | .asking =>
      if s.channel.isClosed then some { s with pc := .done } else some { s with pc := .appending }
  | .appending =>
      let r := s.channel.append s.s
      some { s with channel := r.2.2, s := r.2.1, pc := .waiting }
  | .done => none

/-- One step, of the thread or of something that others do to the channel. -/
def next (s : ReadAll) : ReadAllEvent → Option ReadAll
  | .thread => s.advance
  | .write src =>
      let r := s.channel.write src
      some { s with channel := r.2, written := if r.1 then s.written ++ src else s.written }
  | .close =>
      some { s with
        channel := s.channel.close
        discarded := s.discarded ++ s.channel.pending }
  | .setBlockSize n => some { s with channel := s.channel.setBlockSize n }

end ReadAll

/-- A call of `read_all` for a channel in which nothing is pending yet. -/
def readAll : Machine ReadAll ReadAllEvent where
  start := ⟨.new, [], [], .waiting, []⟩
  next := ReadAll.next

/-- The string, what is pending and what was thrown away are what was written. A channel that
is closed has nothing to read, and `read_all` ends for no other reason. -/
structure Gathering (s : ReadAll) : Prop where
  compact : s.channel.Compact
  account : s.s ++ s.channel.pending ++ s.discarded = s.written
  opened : s.channel.isOpen = true → s.discarded = []
  closed : s.channel.isOpen = false → s.channel.pending = []
  ended : s.pc = .done → s.channel.isOpen = false

namespace Gathering

variable {s s' : ReadAll}

/-- The step of the thread that reads. -/
theorem append (h : Gathering s) :
    Gathering { s with
      channel := (s.channel.append s.s).2.2, s := (s.channel.append s.s).2.1, pc := .waiting } := by
  have hread := read_append_pending s.channel true s.channel.block
  obtain ⟨hcompact, hsame⟩ := h.compact.read true s.channel.block
  have happend : s.channel.append s.s =
      ((s.channel.read true s.channel.block).1.length,
        s.s ++ (s.channel.read true s.channel.block).1,
        (s.channel.read true s.channel.block).2) :=
    StreamChannel.append_eq ..
  rw [happend]
  refine ⟨hcompact, ?_, fun hopen => h.opened (hsame ▸ hopen), fun hclosed => ?_, nofun⟩
  · change s.s ++ (s.channel.read true s.channel.block).1 ++ _ ++ s.discarded = s.written
    rw [List.append_assoc s.s, hread]
    exact h.account
  · have hnil := h.closed (hsame ▸ hclosed)
    exact (List.append_eq_nil_iff.mp (hread.trans hnil)).2

/-- No step loses a byte, but a close, which says so. -/
theorem step (h : Gathering s) {e : ReadAllEvent} (hnext : s.next e = some s') :
    Gathering s' := by
  cases e with
  | thread =>
      cases hpc : s.pc with
      | waiting =>
          simp only [ReadAll.next, ReadAll.advance, hpc] at hnext
          obtain ⟨-, rfl⟩ := Machine.of_guard hnext
          exact ⟨h.compact, h.account, h.opened, h.closed, nofun⟩
      | asking =>
          simp only [ReadAll.next, ReadAll.advance, hpc] at hnext
          split at hnext
          next hclosed =>
            obtain rfl := Option.some.inj hnext
            exact ⟨h.compact, h.account, h.opened, h.closed, fun _ => by
              simpa [isClosed] using hclosed⟩
          next =>
            obtain rfl := Option.some.inj hnext
            exact ⟨h.compact, h.account, h.opened, h.closed, nofun⟩
      | appending =>
          simp only [ReadAll.next, ReadAll.advance, hpc] at hnext
          exact Option.some.inj hnext ▸ h.append
      | done =>
          simp only [ReadAll.next, ReadAll.advance, hpc] at hnext
          cases hnext
  | write src =>
      obtain rfl := Option.some.inj hnext
      cases hopen : s.channel.isOpen with
      | true =>
          obtain ⟨htrue, hpending, hcompact, hstill⟩ := write_pending h.compact hopen src
          refine ⟨hcompact, ?_, fun _ => h.opened hopen, fun hclosed => ?_, fun hdone => ?_⟩
          · simp only [htrue, if_true, hpending, ← h.account, h.opened hopen, List.append_nil,
              List.append_assoc]
          · rw [hstill] at hclosed
            cases hclosed
          · rw [h.ended hdone] at hopen
            cases hopen
      | false =>
          simp only [write_closed hopen, Bool.false_eq_true, if_false]
          exact h
  | close =>
      obtain rfl := Option.some.inj hnext
      refine ⟨.inl rfl, ?_, nofun, fun _ => rfl, fun _ => rfl⟩
      change s.s ++ [] ++ (s.discarded ++ s.channel.pending) = s.written
      cases hopen : s.channel.isOpen with
      | true =>
          rw [← h.account, h.opened hopen]
          simp
      | false =>
          rw [← h.account, h.closed hopen]
          simp
  | setBlockSize n =>
      obtain rfl := Option.some.inj hnext
      exact ⟨h.compact, h.account, h.opened, h.closed, h.ended⟩

theorem reachable (h : readAll.Reachable s) : Gathering s :=
  h.invariant ⟨.inl rfl, rfl, fun _ => rfl, fun _ => rfl, nofun⟩ fun _ _ _ hs _ hnext =>
    hs.step hnext

end Gathering

/-! ### The end -/

/-- The channel is closed, and nothing is added to what was written or thrown away. -/
structure Ending (written discarded : Bytes) (s : ReadAll) : Prop where
  gathering : Gathering s
  isClosed : s.channel.isOpen = false
  written : s.written = written
  discarded : s.discarded = discarded

/-- How many steps a thread needs whose channel is closed. -/
def distance : ReadAllPc → ℕ
  | .done => 0
  | .asking => 1
  | .waiting => 2
  | .appending => 3

/-- Nothing opens the channel, and the thread comes closer to its end with each step it takes. -/
theorem Ending.step {written discarded : Bytes} {s s' : ReadAll} (h : Ending written discarded s)
    {e : ReadAllEvent} (hnext : s.next e = some s') :
    Ending written discarded s' ∧
      (distance s'.pc < distance s.pc ∨ s'.pc = s.pc ∧ e ≠ .thread) := by
  have hgathering := h.gathering.step hnext
  cases e with
  | thread =>
      cases hpc : s.pc with
      | waiting =>
          simp only [ReadAll.next, ReadAll.advance, hpc] at hnext
          obtain ⟨-, rfl⟩ := Machine.of_guard hnext
          exact ⟨⟨hgathering, h.isClosed, h.written, h.discarded⟩, .inl (Nat.lt_succ_self _)⟩
      | asking =>
          have hclosed : s.channel.isClosed = true := by simp [BufferChannel.isClosed, h.isClosed]
          simp only [ReadAll.next, ReadAll.advance, hpc, hclosed, if_true,
            Option.some.injEq] at hnext
          subst hnext
          exact ⟨⟨hgathering, h.isClosed, h.written, h.discarded⟩, .inl (Nat.lt_succ_self _)⟩
      | appending =>
          simp only [ReadAll.next, ReadAll.advance, hpc, Option.some.injEq] at hnext
          subst hnext
          have hsame := (h.gathering.compact.read true s.channel.block).2
          have happend : (s.channel.append s.s).2.2 =
              (s.channel.read true s.channel.block).2 :=
            congrArg (fun r => r.2.2) (StreamChannel.append_eq ..)
          refine ⟨⟨hgathering, ?_, h.written, h.discarded⟩, .inl (Nat.lt_succ_self _)⟩
          change (s.channel.append s.s).2.2.isOpen = false
          rw [happend, hsame, h.isClosed]
      | done =>
          simp only [ReadAll.next, ReadAll.advance, hpc] at hnext
          cases hnext
  | write src =>
      have hsame : s' = s := by
        rw [← Option.some.inj hnext]
        simp only [write_closed h.isClosed, Bool.false_eq_true, if_false]
      exact ⟨hsame ▸ h, .inr ⟨hsame ▸ rfl, nofun⟩⟩
  | close =>
      obtain rfl := Option.some.inj hnext
      refine ⟨⟨hgathering, rfl, h.written, ?_⟩, .inr ⟨rfl, nofun⟩⟩
      change s.discarded ++ s.channel.pending = discarded
      rw [h.gathering.closed h.isClosed, List.append_nil, h.discarded]
  | setBlockSize n =>
      obtain rfl := Option.some.inj hnext
      exact ⟨⟨hgathering, h.isClosed, h.written, h.discarded⟩, .inr ⟨rfl, nofun⟩⟩

/-- Only a close closes the channel. -/
theorem next_isOpen {s s' : ReadAll} {e : ReadAllEvent} (hnext : s.next e = some s')
    (hcompact : s.channel.Compact) (hne : e ≠ .close) (hopen : s.channel.isOpen = true) :
    s'.channel.isOpen = true := by
  cases e with
  | thread =>
      simp only [ReadAll.next, ReadAll.advance] at hnext
      split at hnext
      · exact (Machine.of_guard hnext).2 ▸ hopen
      · split at hnext <;> exact Option.some.inj hnext ▸ hopen
      · obtain rfl := Option.some.inj hnext
        have happend : (s.channel.append s.s).2.2 =
            (s.channel.read true s.channel.block).2 :=
          congrArg (fun r => r.2.2) (StreamChannel.append_eq ..)
        change (s.channel.append s.s).2.2.isOpen = true
        rw [happend, (hcompact.read true s.channel.block).2, hopen]
      · cases hnext
  | write src =>
      obtain rfl := Option.some.inj hnext
      exact (write_pending hcompact hopen src).2.2.2
  | close => exact absurd rfl hne
  | setBlockSize n => exact Option.some.inj hnext ▸ hopen

/-- **Reading all.** If the channel is closed at some time, and the thread goes on after that,
`read_all` returns. Its string is what it had when the channel was closed: what was written to
the channel without what was pending then. -/
theorem readAll_returns (r : readAll.Run) (hstart : r.state 0 = readAll.start) {k : ℕ}
    (hclose : r.event k = .close) (hfirst : ∀ j < k, r.event j ≠ .close)
    (hfair : ∀ n, k < n → (r.state n).pc ≠ .done → ∃ j, r.event (n + j) = .thread) :
    ∃ n, (r.state n).pc = .done ∧ (r.state n).s = (r.state k).s ∧
      (r.state n).written = (r.state k).s ++ (r.state k).channel.pending := by
  have hgathering : ∀ n, Gathering (r.state n) :=
    r.invariant (fun _ _ _ hs hnext => hs.step hnext)
      (hstart ▸ Gathering.reachable (.start : readAll.Reachable readAll.start))
  have hopen : ∀ j ≤ k, (r.state j).channel.isOpen = true := by
    intro j
    induction j with
    | zero => exact fun _ => hstart ▸ rfl
    | succ j ih =>
        intro hj
        exact next_isOpen (r.step j) (hgathering j).compact (hfirst j hj) (ih (Nat.le_of_lt hj))
  have haccount : (r.state k).s ++ (r.state k).channel.pending = (r.state k).written := by
    rw [← (hgathering k).account, (hgathering k).opened (hopen k le_rfl), List.append_nil]
  have hending : Ending (r.state k).written (r.state k).channel.pending (r.state (k + 1)) := by
    have hgather := hgathering (k + 1)
    have hstep := r.step k
    rw [hclose] at hstep
    have hstate := Option.some.inj hstep
    rw [← hstate] at hgather ⊢
    refine ⟨hgather, rfl, rfl, ?_⟩
    change (r.state k).discarded ++ _ = _
    rw [(hgathering k).opened (hopen k le_rfl), List.nil_append]
  have hkept : ∀ n, Ending (r.state k).written (r.state k).channel.pending
      ((r.drop (k + 1)).state n) :=
    (r.drop (k + 1)).invariant (fun _ _ _ hs hnext => (hs.step hnext).1) hending
  have hadvances : Machine.Run.Advances readAll (· < ·)
      (Ending (r.state k).written (r.state k).channel.pending) (fun s => s.pc = .done)
      (fun s => distance s.pc) (fun _ => ()) fun _ e => e = .thread := by
    intro s e s' hs _ hnext
    obtain ⟨hs', hlow | ⟨hsame, hne⟩⟩ := hs.step hnext
    · exact .inr ⟨hs', .inl hlow⟩
    · exact .inr ⟨hs', .inr ⟨congrArg distance hsame, rfl, hne⟩⟩
  have hends : ∃ n, ((r.drop (k + 1)).state n).pc = .done := by
    refine (r.drop (k + 1)).reaches wellFounded_lt hadvances (fun n _ hpc => ?_) hending
    obtain ⟨j, hj⟩ := hfair (k + 1 + n) (by omega) hpc
    exact ⟨j, by rwa [Nat.add_assoc] at hj⟩
  obtain ⟨n, hn⟩ := hends
  have hend := hkept n
  refine ⟨k + 1 + n, hn, ?_, hend.written.trans haccount.symm⟩
  have hsum := hend.gathering.account
  rw [hend.gathering.closed hend.isClosed, hend.written, hend.discarded, ← haccount,
    List.append_nil] at hsum
  exact List.append_cancel_right hsum

/-- One byte is read, and one is pending when the channel is closed. -/
private def cut : List ReadAllEvent :=
  [.write [97], .thread, .thread, .thread, .write [98], .close, .thread, .thread]

/-- The events of the run. -/
private abbrev cutEvent : ℕ → ReadAllEvent :=
  Machine.script cut (.setBlockSize 1)

private theorem cutEvent_done (n : ℕ) :
    (readAll.follow readAll.start cutEvent (8 + n)).pc = .done ∧
      (readAll.next (readAll.follow readAll.start cutEvent (8 + n)) (cutEvent (8 + n))).isSome :=
  Machine.follow_idle (m := readAll) (P := fun s => s.pc = .done)
    (Machine.script_add cut (.setBlockSize 1)) (by decide +kernel)
    (fun s hs => ⟨{ s with channel := s.channel.setBlockSize 1 }, hs, rfl⟩) n

/-- The channel is closed and not empty when `read_all` returns. -/
theorem readAll_returns_cut :
    ∃ (r : readAll.Run) (n : ℕ), (r.state n).pc = .done ∧ (r.state n).s = (r.state 5).s ∧
      (r.state n).written = (r.state 5).s ++ (r.state 5).channel.pending := by
  have hsome : ∀ n, (readAll.next (readAll.follow readAll.start cutEvent n) (cutEvent n)).isSome :=
    Machine.forall_script (k := 8) (by decide +kernel) fun n => (cutEvent_done n).2
  have hfair : ∀ n, 5 < n → (readAll.follow readAll.start cutEvent n).pc ≠ .done →
      ∃ j, cutEvent (n + j) = .thread :=
    Machine.forall_script (k := 8)
      (fun n hn hlt _ => ⟨0, (by decide : ∀ n < 8, 5 < n → cutEvent n = .thread) n hn hlt⟩)
      fun n _ hpc => absurd (cutEvent_done n).1 hpc
  exact ⟨.of readAll readAll.start cutEvent hsome,
    readAll_returns (.of readAll readAll.start cutEvent hsome) rfl (k := 5) rfl
      (by decide : ∀ j < 5, cutEvent j ≠ .close) hfair⟩

end BufferChannel

end RsIo
