import RsIo.FileFrame
import RsIo.TimeConversion
import Mathlib.Logic.Function.Basic

/-!
# Times of Files

`Path::access_time` and `Path::modify_time` read the times of a file, and `set_access_time` and
`set_modify_time` change one of them, on the Unix branch. `utimensat()` changes both, so the
time that is to stay is read first and written again. It is read from the file that a link leads
to, also when it is the link whose times are changed.

The tree does not change here. A file has a `timespec` for each time, by its location.

## Main results

* `timespecToTimepoint_stamp`: a time point is read back from its normalised `timespec`.
* `fileTimes_calls`: what any sequence of calls does, in terms of time points.
* `fileTimes_independent`: the two times of a file are set apart from each other, unless the times
  of a link are set.
-/

namespace RsIo

open FileTree (Place)

namespace Time

/-- `timespec_to_timepoint`. -/
def timespecToTimepoint (p : Period) (ts : Timespec) : Option ℤ := do
  int64 (0 + (← timespecToDuration p ts))

/-- Whether a time can be passed to `utimensat` can be computed. -/
instance (ts : Timespec) : Decidable ts.IsNormal := inferInstanceAs (Decidable (_ ∧ _))

/-- A time in nanoseconds, split into seconds and what is left over the second before it. -/
def stampOf (ns : ℤ) : Timespec := ⟨ns / 1000000000, ns % 1000000000⟩

/-- A time point of the system clock, in a second that the conversions can count in
nanoseconds. -/
@[ext]
structure TimePoint (p : Period) where
  count : ℤ
  fits : IsInt64 (count * p.ns)
  second_fits : IsInt64 (count * p.ns / 1000000000 * 1000000000)
  deriving DecidableEq

namespace TimePoint

variable {p : Period}

/-- The time point as the file system keeps it. -/
def stamp (t : TimePoint p) : Timespec := stampOf (t.count * p.ns)

/-- The epoch. -/
def epoch : TimePoint p := ⟨0, by rw [Int.zero_mul]; decide, by rw [Int.zero_mul]; decide⟩

/-- `timepoint_to_timespec` splits the time in the way the system wants it. -/
def IsSplit (t : TimePoint p) : Prop := Time.IsSplit (t.count * p.ns)

/-- Whether a time point is split well can be computed. -/
instance (t : TimePoint p) : Decidable t.IsSplit := inferInstanceAs (Decidable (Time.IsSplit _))

/-- The epoch is kept as zeros. -/
theorem stamp_epoch : (epoch : TimePoint p).stamp = ⟨0, 0⟩ := by
  rw [stamp, epoch, Int.zero_mul]
  rfl

end TimePoint

/-- A time that the file system keeps is normal. -/
theorem stampOf_isNormal (ns : ℤ) : (stampOf ns).IsNormal :=
  ⟨Int.emod_nonneg _ (by decide), Int.emod_lt_of_pos _ (by decide)⟩

/-- A time in nanoseconds, split as `timepoint_to_timespec` does it. -/
def splitOf (ns : ℤ) : Timespec := ⟨ns.tdiv 1000000000, ns.tmod 1000000000⟩

/-- A split time is normal if the time is not before the epoch, or in whole seconds. -/
theorem splitOf_isNormal_iff (ns : ℤ) : (splitOf ns).IsNormal ↔ IsSplit ns := by
  rw [IsSplit, ← tmod_nonneg_iff]
  exact ⟨fun h => h.1, fun h => ⟨h, Int.tmod_lt_of_pos _ (by decide)⟩⟩

/-- Such a time is split as the file system keeps it. -/
theorem splitOf_eq {ns : ℤ} (h : IsSplit ns) : splitOf ns = stampOf ns := by
  rw [splitOf, stampOf]
  rcases h with hnonneg | hdvd
  · rw [Int.tdiv_eq_ediv_of_nonneg hnonneg, Int.tmod_eq_emod_of_nonneg hnonneg]
  · rw [Int.tdiv_eq_ediv_of_dvd hdvd, Int.tmod_eq_zero_of_dvd hdvd, Int.emod_eq_zero_of_dvd hdvd]

/-- **Reading a time.** If the tick of the clock divides a second, a time point is read back from
the `timespec` that the file system keeps, also before the epoch. -/
theorem timespecToTimepoint_stamp {p : Period} (hp : p.ns ∣ 1000000000) (t : TimePoint p) :
    timespecToTimepoint p t.stamp = some t.count := by
  have hfits := t.fits
  have hsecond := t.second_fits
  have hpos : (0 : ℤ) < p.ns := Int.natCast_pos.mpr p.pos
  have hne : (p.ns : ℤ) ≠ 0 := by omega
  have hsum := Int.ediv_mul_add_emod (t.count * p.ns) 1000000000
  have hrest := stampOf_isNormal (t.count * p.ns)
  have hunit : (p.ns : ℤ) ∣ 1000000000 := Int.natCast_dvd_natCast.mpr hp
  have hsecdvd : (p.ns : ℤ) ∣ t.count * p.ns / 1000000000 * 1000000000 := hunit.mul_left _
  have hnsecdvd : (p.ns : ℤ) ∣ t.count * p.ns % 1000000000 := by
    have htotal : (p.ns : ℤ) ∣ t.count * p.ns := Int.dvd_mul_left ..
    rw [← hsum] at htotal
    exact (Int.dvd_add_right hsecdvd).mp htotal
  have hcount : IsInt64 t.count := .of_mul p.pos hfits
  rw [TimePoint.stamp, timespecToTimepoint, timespecToDuration]
  rw [stampOf] at hrest ⊢
  generalize t.count * p.ns / 1000000000 = sec at *
  generalize t.count * p.ns % 1000000000 = nsec at *
  have hsec : IsInt64 (sec * second.ns) := hsecond
  have hnsec : IsInt64 (nsec * nano.ns) := by
    change IsInt64 (nsec * 1)
    rw [IsInt64]
    have hlow := hrest.1
    have hhigh := hrest.2
    dsimp only at hlow hhigh
    omega
  rw [durationCast_eq hsec, durationCast_eq hnsec]
  have hadd : (sec * 1000000000).tdiv p.ns + (nsec * 1).tdiv p.ns = t.count := by
    refine Int.eq_of_mul_eq_mul_right hne ?_
    rw [Int.add_mul, Int.mul_one, Int.tdiv_mul_cancel hsecdvd, Int.tdiv_mul_cancel hnsecdvd, hsum]
  change ((int64 ((sec * 1000000000).tdiv p.ns + (nsec * 1).tdiv p.ns)).bind fun d =>
    int64 (0 + d)) = _
  rw [hadd, int64_of hcount, Option.bind_some, Int.zero_add, int64_of hcount]

end Time

open Time

/-! ### The functions -/

/-- The file system, with the times of access and of modification for each location. -/
structure TimedWorld where
  world : World
  times : Loc → Timespec × Timespec

/-- A function that works on the file system and the times of its files. -/
abbrev TimedProg (α : Type) : Type :=
  Prog SystemError TimedWorld α

/-- A value that is undefined if a conversion overflows. -/
def defined {α : Type} (a : Option α) : TimedProg α := fun s => a.map fun x => (.ok x, s)

/-- Where a call of `utimensat()` leads, or its error. -/
def World.target (w : World) (p : FilePath) (flags : PathFlags) : Except ℕ Loc :=
  match w.faults.head?.join with
  | some err => .error err
  | none =>
      match w.resolve (!flags.noFollow) p with
      | .error err => .error (errnoOf err)
      | .ok (.missing ..) => .error eNoEnt
      | .ok (.found l) => .ok l

/-- `utimensat()`. The values for `UTIME_NOW` and `UTIME_OMIT` do not come out of the
conversions. -/
def utimensat (p : FilePath) (flags : PathFlags) (atime mtime : Timespec) :
    TimedProg (Except ℕ Unit) :=
  .step fun s =>
    let next := s.world.next
    match s.world.target p flags with
    | .error err => (.error err, { s with world := next })
    | .ok l =>
        if atime.IsNormal ∧ mtime.IsNormal then
          (.ok (), { world := next, times := Function.update s.times l (atime, mtime) })
        else (.error eInval, { s with world := next })

section Utimensat

variable {s : TimedWorld} {p : FilePath} {flags : PathFlags} {atime mtime : Timespec} {l : Loc}

/-- A file that cannot be found has no times to be set. -/
theorem utimensat_error {err : ℕ} (h : s.world.target p flags = .error err) :
    utimensat p flags atime mtime s =
      some (.ok (.error err), { s with world := s.world.next }) := by
  simp only [utimensat, Prog.step, h]

/-- The times of the file are set. -/
theorem utimensat_ok (h : s.world.target p flags = .ok l) (hn : atime.IsNormal ∧ mtime.IsNormal) :
    utimensat p flags atime mtime s = some (.ok (.ok ()),
      { world := s.world.next, times := Function.update s.times l (atime, mtime) }) := by
  simp only [utimensat, Prog.step, h, if_pos hn]

/-- Times that are not normal are refused. -/
theorem utimensat_invalid (h : s.world.target p flags = .ok l)
    (hn : ¬ (atime.IsNormal ∧ mtime.IsNormal)) :
    utimensat p flags atime mtime s =
      some (.ok (.error eInval), { s with world := s.world.next }) := by
  simp only [utimensat, Prog.step, h, if_neg hn]

end Utimensat

namespace FilePath

variable (c : Period) (p : FilePath)

/-- The times in the result of `get_stat`, which are zeros for a file that does not exist. -/
def statTimes (s : TimedWorld) (flags : PathFlags) : Timespec × Timespec :=
  match s.world.getStat p flags with
  | some (l, _) => s.times l
  | none => (⟨0, 0⟩, ⟨0, 0⟩)

/-- `Path::access_time`, with a clock that has the period `c`. -/
def accessTime (flags : PathFlags) : TimedProg ℤ := do
  let s ← Prog.get
  defined (timespecToTimepoint c (p.statTimes s flags).1)

/-- `Path::modify_time`. -/
def modifyTime (flags : PathFlags) : TimedProg ℤ := do
  let s ← Prog.get
  defined (timespecToTimepoint c (p.statTimes s flags).2)

/-- `Path::set_file_times`. -/
def setFileTimes (atime mtime : ℤ) (flags : PathFlags) : TimedProg Unit := do
  let times ← defined (Time.setFileTimes c atime mtime)
  match ← utimensat p flags times.1 times.2 with
  | .ok () => pure ()
  | .error err => .throw ⟨err, [p]⟩

/-- `Path::set_access_time`. -/
def setAccessTime (t : ℤ) (flags : PathFlags) : TimedProg Unit := do
  let mtime ← p.modifyTime c {}
  p.setFileTimes c t mtime flags

/-- `Path::set_modify_time`. -/
def setModifyTime (t : ℤ) (flags : PathFlags) : TimedProg Unit := do
  let atime ← p.accessTime c {}
  p.setFileTimes c atime t flags

end FilePath

/-! ### The calls in terms of time points -/

/-- A call of one of the functions. -/
inductive TimeCall (c : Period)
  | accessTime (p : FilePath) (flags : PathFlags)
  | modifyTime (p : FilePath) (flags : PathFlags)
  | setAccessTime (p : FilePath) (t : TimePoint c) (flags : PathFlags)
  | setModifyTime (p : FilePath) (t : TimePoint c) (flags : PathFlags)

variable {c : Period}

/-- Runs a call. Only the functions that read a time return one. -/
def TimeCall.onFiles : TimeCall c → TimedProg (Option ℤ)
  | .accessTime p flags => do return some (← p.accessTime c flags)
  | .modifyTime p flags => do return some (← p.modifyTime c flags)
  | .setAccessTime p t flags => do
      p.setAccessTime c t.count flags
      return none
  | .setModifyTime p t flags => do
      p.setModifyTime c t.count flags
      return none

/-- The file system, with two time points for each location. -/
structure ClockWorld (c : Period) where
  world : World
  points : Loc → TimePoint c × TimePoint c

namespace ClockWorld

variable (a : ClockWorld c)

/-- The time points of a file, which are the epoch if it does not exist. -/
def seen (p : FilePath) (flags : PathFlags) : TimePoint c × TimePoint c :=
  match a.world.getStat p flags with
  | some (l, _) => a.points l
  | none => (.epoch, .epoch)

/-- Changes both time points of a file, if both of them can be split. -/
def write (p : FilePath) (atime mtime : TimePoint c) (flags : PathFlags) :
    Except SystemError Unit × ClockWorld c :=
  let next := a.world.next
  match a.world.target p flags with
  | .error err => (.error ⟨err, [p]⟩, { a with world := next })
  | .ok l =>
      if atime.IsSplit ∧ mtime.IsSplit then
        (.ok (), { world := next, points := Function.update a.points l (atime, mtime) })
      else (.error ⟨eInval, [p]⟩, { a with world := next })

end ClockWorld

/-- What a call does. The time that is not set is that of the file that links lead to. -/
def TimeCall.onPoints (call : TimeCall c) (a : ClockWorld c) :
    Except SystemError (Option ℤ) × ClockWorld c :=
  match call with
  | .accessTime p flags => (.ok (some (a.seen p flags).1.count), a)
  | .modifyTime p flags => (.ok (some (a.seen p flags).2.count), a)
  | .setAccessTime p t flags =>
      let r := a.write p t (a.seen p {}).2 flags
      (r.1.map fun _ => none, r.2)
  | .setModifyTime p t flags =>
      let r := a.write p (a.seen p {}).1 t flags
      (r.1.map fun _ => none, r.2)

/-- The times of the files are the time points, as the file system keeps them. -/
structure ClockWorld.Stamps (a : ClockWorld c) (s : TimedWorld) : Prop where
  world : s.world = a.world
  times : ∀ l, s.times l = ((a.points l).1.stamp, (a.points l).2.stamp)

namespace ClockWorld.Stamps

variable {s : TimedWorld} {a : ClockWorld c} {p : FilePath} {flags : PathFlags}

/-- The times in the result of `get_stat` are the time points. -/
theorem statTimes (h : a.Stamps s) :
    p.statTimes s flags = ((a.seen p flags).1.stamp, (a.seen p flags).2.stamp) := by
  rw [FilePath.statTimes, ClockWorld.seen, h.world]
  cases a.world.getStat p flags with
  | none => rw [TimePoint.stamp_epoch]
  | some f => exact h.times f.1

/-- The access time is read exactly. -/
theorem accessTime (h : a.Stamps s) (hc : c.ns ∣ 1000000000) :
    p.accessTime c flags s = some (.ok (a.seen p flags).1.count, s) := by
  rw [FilePath.accessTime, Prog.get_bind, h.statTimes, defined, timespecToTimepoint_stamp hc]
  rfl

/-- The modification time is read exactly. -/
theorem modifyTime (h : a.Stamps s) (hc : c.ns ∣ 1000000000) :
    p.modifyTime c flags s = some (.ok (a.seen p flags).2.count, s) := by
  rw [FilePath.modifyTime, Prog.get_bind, h.statTimes, defined, timespecToTimepoint_stamp hc]
  rfl

/-- Two times that are set are set to the time points, or the call fails. -/
theorem setFileTimes (h : a.Stamps s) (atime mtime : TimePoint c) :
    ∃ s', p.setFileTimes c atime.count mtime.count flags s =
        some ((a.write p atime mtime flags).1, s') ∧
      (a.write p atime mtime flags).2.Stamps s' := by
  have hdefined : defined (Time.setFileTimes c atime.count mtime.count) s =
      some (.ok (splitOf (atime.count * c.ns), splitOf (mtime.count * c.ns)), s) := by
    rw [Time.setFileTimes, timepointToTimespec_eq atime.fits, timepointToTimespec_eq mtime.fits]
    rfl
  have hnormal : (splitOf (atime.count * c.ns)).IsNormal ∧ (splitOf (mtime.count * c.ns)).IsNormal ↔
      atime.IsSplit ∧ mtime.IsSplit :=
    and_congr (splitOf_isNormal_iff _) (splitOf_isNormal_iff _)
  rw [FilePath.setFileTimes, Prog.bind_of_ok hdefined]
  cases htarget : s.world.target p flags with
  | error err =>
      refine ⟨{ s with world := s.world.next }, ?_⟩
      rw [Prog.bind_of_ok (utimensat_error htarget)]
      simp only [ClockWorld.write, ← h.world, htarget]
      exact ⟨rfl, rfl, h.times⟩
  | ok l =>
      by_cases hsplit : atime.IsSplit ∧ mtime.IsSplit
      · rw [Prog.bind_of_ok (utimensat_ok htarget (hnormal.mpr hsplit))]
        simp only [ClockWorld.write, ← h.world, htarget, if_pos hsplit, splitOf_eq hsplit.1,
          splitOf_eq hsplit.2]
        refine ⟨_, rfl, rfl, fun k => ?_⟩
        by_cases hk : k = l
        · rw [hk]
          simp only [Function.update_self]
          rfl
        · simp only [Function.update_of_ne hk]
          exact h.times k
      · refine ⟨{ s with world := s.world.next }, ?_⟩
        rw [Prog.bind_of_ok (utimensat_invalid htarget (mt hnormal.mp hsplit))]
        simp only [ClockWorld.write, ← h.world, htarget, if_neg hsplit]
        exact ⟨rfl, rfl, h.times⟩

/-- The access time is set beside the modification time. -/
theorem setAccessTime (h : a.Stamps s) (hc : c.ns ∣ 1000000000) (t : TimePoint c) :
    ∃ s', p.setAccessTime c t.count flags s =
        some ((a.write p t (a.seen p {}).2 flags).1, s') ∧
      (a.write p t (a.seen p {}).2 flags).2.Stamps s' := by
  rw [FilePath.setAccessTime, Prog.bind_of_ok (h.modifyTime hc)]
  exact h.setFileTimes t _

/-- The modification time is set beside the access time. -/
theorem setModifyTime (h : a.Stamps s) (hc : c.ns ∣ 1000000000) (t : TimePoint c) :
    ∃ s', p.setModifyTime c t.count flags s =
        some ((a.write p (a.seen p {}).1 t flags).1, s') ∧
      (a.write p (a.seen p {}).1 t flags).2.Stamps s' := by
  rw [FilePath.setModifyTime, Prog.bind_of_ok (h.accessTime hc)]
  exact h.setFileTimes _ t

/-- A function that returns nothing, as a call. -/
theorem bind_none {m : TimedProg Unit} {r : Except SystemError Unit} {s s' : TimedWorld}
    (h : m s = some (r, s')) :
    (m >>= fun _ => (pure none : TimedProg (Option ℤ))) s = some (r.map fun _ => none, s') := by
  cases r with
  | ok => exact Prog.bind_of_ok h
  | error e => exact Prog.bind_of_error h

/-- A call does to the times what it does to the time points. -/
theorem step (hc : c.ns ∣ 1000000000) (call : TimeCall c) (h : a.Stamps s) :
    ∃ s', call.onFiles s = some ((call.onPoints a).1, s') ∧ (call.onPoints a).2.Stamps s' := by
  cases call with
  | accessTime p flags =>
      refine ⟨s, ?_, h⟩
      rw [TimeCall.onFiles, Prog.bind_of_ok (h.accessTime hc)]
      rfl
  | modifyTime p flags =>
      refine ⟨s, ?_, h⟩
      rw [TimeCall.onFiles, Prog.bind_of_ok (h.modifyTime hc)]
      rfl
  | setAccessTime p t flags =>
      obtain ⟨s', hrun, hs'⟩ := h.setAccessTime hc t
      exact ⟨s', bind_none hrun, hs'⟩
  | setModifyTime p t flags =>
      obtain ⟨s', hrun, hs'⟩ := h.setModifyTime hc t
      exact ⟨s', bind_none hrun, hs'⟩

end ClockWorld.Stamps

/-- **Times of files.** For a clock whose tick divides a second, any sequence of calls gives what
the calls on time points give, whichever errors `utimensat` returns: the conversions to the times
of the file system and back lose nothing, and a time that they cannot split makes a call fail. -/
theorem fileTimes_calls (hc : c.ns ∣ 1000000000) {s : TimedWorld} {a : ClockWorld c}
    (h : a.Stamps s) (calls : List (TimeCall c)) :
    ∃ s', Prog.runEach TimeCall.onFiles calls s =
        some ((Prog.answers TimeCall.onPoints calls a).1, s') ∧
      (Prog.answers TimeCall.onPoints calls a).2.Stamps s' :=
  Prog.runEach_eq (R := fun s a => ClockWorld.Stamps a s) (fun call _ _ hs => hs.step hc call)
    calls h

/-- The time of a witness in nanoseconds. -/
private def nanoPoint (ns : ℤ) (hfits : IsInt64 (ns * nano.ns))
    (hsecond : IsInt64 (ns * nano.ns / 1000000000 * 1000000000)) : TimePoint nano :=
  ⟨ns, hfits, hsecond⟩

/-- One file, which was read and changed at two times, the first of them before the epoch. -/
private def filePoints : ClockWorld nano where
  world := ⟨.single [102] (.file []), [], [], []⟩
  points _ := (nanoPoint (-1500000000) (by decide) (by decide), nanoPoint 7 (by decide) (by decide))

/-- The same file, with its times as the file system keeps them. -/
private def fileWorld : TimedWorld where
  world := filePoints.world
  times _ := (⟨-2, 500000000⟩, ⟨0, 7⟩)

/-- They are the same times. -/
private theorem filePoints_stamps : filePoints.Stamps fileWorld :=
  ⟨rfl, fun _ => rfl⟩

/-- The access time that is set beside the other one would not be split well, so it is set first. -/
private def fileCalls : List (TimeCall nano) :=
  [.accessTime (.ofName [102]) {},
    .setModifyTime (.ofName [102]) (nanoPoint 3000000000 (by decide) (by decide)) {},
    .setAccessTime (.ofName [102]) (nanoPoint 2500000000 (by decide) (by decide)) {},
    .setModifyTime (.ofName [102]) (nanoPoint (-4000000000) (by decide) (by decide)) {},
    .accessTime (.ofName [102]) {}, .modifyTime (.ofName [102]) {}]

/-- The first call that sets a time fails, because the other time is before the epoch and not in
whole seconds. -/
theorem fileTimes_calls_file :
    ∃ s', Prog.runEach TimeCall.onFiles fileCalls fileWorld =
        some ([.ok (some (-1500000000)), .error ⟨eInval, [.ofName [102]]⟩, .ok none, .ok none,
          .ok (some 2500000000), .ok (some (-4000000000))], s') ∧
      (Prog.answers TimeCall.onPoints fileCalls filePoints).2.Stamps s' :=
  fileTimes_calls (by decide) filePoints_stamps fileCalls

/-! ### Two times for each file -/

/-- Where a call leads that changes times. -/
def World.leads (w : World) (p : FilePath) (flags : PathFlags) : Option Loc :=
  match w.resolve (!flags.noFollow) p with
  | .ok (.found l) => some l
  | _ => none

/-- The call does not change the times of a link itself. -/
def TimeCall.SparesLinks (w : World) : TimeCall c → Prop
  | .accessTime .. => True
  | .modifyTime .. => True
  | .setAccessTime p _ flags => flags.noFollow = true → p.isSymlink w = false
  | .setModifyTime p _ flags => flags.noFollow = true → p.isSymlink w = false

/-- The access time that a call sets for a location. -/
def TimeCall.access (l : Loc) (w : World) : TimeCall c → Option (TimePoint c)
  | .setAccessTime p t flags => if w.leads p flags = some l then some t else none
  | _ => none

/-- The modification time that a call sets for a location. -/
def TimeCall.modification (l : Loc) (w : World) : TimeCall c → Option (TimePoint c)
  | .setModifyTime p t flags => if w.leads p flags = some l then some t else none
  | _ => none

/-- The last one of the times that are set by the calls that do not fail. -/
def lastSet (sets : TimeCall c → Option (TimePoint c))
    (run : List (TimeCall c × Except SystemError (Option ℤ))) (before : TimePoint c) :
    TimePoint c :=
  (run.filterMap fun x => if x.2.toBool then sets x.1 else none).getLast?.getD before

/-- A call sets a time if it does not fail. -/
theorem lastSet_cons {sets : TimeCall c → Option (TimePoint c)}
    (x : TimeCall c × Except SystemError (Option ℤ))
    (run : List (TimeCall c × Except SystemError (Option ℤ))) (before : TimePoint c) :
    lastSet sets (x :: run) before =
      lastSet sets run (if x.2.toBool then (sets x.1).getD before else before) := by
  rw [lastSet, lastSet, List.filterMap_cons]
  cases x.2.toBool with
  | false => rfl
  | true =>
      rw [if_pos rfl, if_pos rfl]
      cases sets x.1 with
      | none => rfl
      | some t =>
          dsimp only
          rw [List.getLast?_cons]
          rfl

section Points

variable {a : ClockWorld c} {l : Loc} {p : FilePath} {flags : PathFlags}

/-- A file is seen at the location where a call leads. -/
theorem ClockWorld.seen_of_leads (hspare : flags.noFollow = true → p.isSymlink a.world = false)
    (hl : a.world.leads p flags = some l) : a.seen p {} = a.points l := by
  have hfound : a.world.resolve (!flags.noFollow) p = .ok (.found l) := by
    rw [World.leads] at hl
    split at hl
    next k hk =>
      obtain rfl := Option.some.inj hl
      exact hk
    next => cases hl
  have hfollow : a.world.resolve true p = .ok (.found l) := by
    cases hflag : flags.noFollow with
    | false => rwa [hflag] at hfound
    | true =>
        rw [hflag] at hfound
        refine World.resolve_follow hfound fun target htarget => ?_
        have hlink := FilePath.isSymlink_eq_true.mpr ⟨l, target, hfound, htarget⟩
        rw [hspare hflag] at hlink
        cases hlink
  obtain ⟨e, he⟩ := Option.ne_none_iff_exists'.mp (World.look_of_found hfollow)
  have hstat : a.world.getStat p {} = some (l, e) := World.getStat_eq_some.mpr ⟨hfollow, he⟩
  rw [ClockWorld.seen, hstat]

/-- A call that finds a file changes the times of this file. -/
theorem World.leads_of_target {w : World} (h : w.target p flags = .ok l) :
    w.leads p flags = some l := by
  rw [World.target] at h
  rw [World.leads]
  split at h
  next => cases h
  next =>
    split at h
    next => cases h
    next => cases h
    next k hk =>
      obtain rfl := Except.ok.inj h
      rw [hk]

/-- The time points after a call that changes them. -/
theorem ClockWorld.points_write (a : ClockWorld c) (p : FilePath) (flags : PathFlags)
    (atime mtime : TimePoint c) (l : Loc) :
    (a.write p atime mtime flags).2.points l =
      if (a.write p atime mtime flags).1.toBool ∧ a.world.leads p flags = some l then
        (atime, mtime) else a.points l := by
  rw [ClockWorld.write]
  cases htarget : a.world.target p flags with
  | error err => exact (if_neg (fun h => Bool.false_ne_true h.1)).symm
  | ok k =>
      have hleads := World.leads_of_target htarget
      by_cases hsplit : atime.IsSplit ∧ mtime.IsSplit
      · simp only [if_pos hsplit, hleads, Option.some.injEq]
        by_cases hk : l = k
        · rw [hk, Function.update_self, if_pos ⟨rfl, rfl⟩]
        · rw [Function.update_of_ne hk, if_neg fun h => hk h.2.symm]
      · simp only [if_neg hsplit]
        exact (if_neg (fun h => Bool.false_ne_true h.1)).symm

/-- Setting times uses up one error. -/
theorem ClockWorld.world_write (a : ClockWorld c) (p : FilePath) (flags : PathFlags)
    (atime mtime : TimePoint c) : (a.write p atime mtime flags).2.world = a.world.next := by
  rw [ClockWorld.write]
  split
  next => rfl
  next => split <;> rfl

/-- Mapping a value does not change whether there is one. -/
theorem toBool_map {ε α β : Type} (r : Except ε α) (f : α → β) :
    (r.map f).toBool = r.toBool := by
  cases r <;> rfl

/-- What a call does to the time points of a location. -/
theorem TimeCall.points_onPoints (call : TimeCall c) (hspare : call.SparesLinks a.world) (l : Loc) :
    (call.onPoints a).2.points l =
      if (call.onPoints a).1.toBool then
        ((call.access l a.world).getD (a.points l).1,
          (call.modification l a.world).getD (a.points l).2)
      else a.points l := by
  cases call with
  | accessTime p flags => rfl
  | modifyTime p flags => rfl
  | setAccessTime p t flags =>
      have hdone : ((TimeCall.setAccessTime p t flags).onPoints a).1.toBool =
          (a.write p t (a.seen p {}).2 flags).1.toBool := toBool_map ..
      rw [hdone]
      refine (a.points_write p flags t (a.seen p {}).2 l).trans ?_
      simp only [access, modification, Option.getD_none]
      cases (a.write p t (a.seen p {}).2 flags).1.toBool with
      | false => exact if_neg fun h => Bool.false_ne_true h.1
      | true =>
          by_cases hl : a.world.leads p flags = some l
          · rw [if_pos ⟨rfl, hl⟩, if_pos hl, ClockWorld.seen_of_leads hspare hl]
            rfl
          · rw [if_neg fun h => hl h.2, if_neg hl]
            rfl
  | setModifyTime p t flags =>
      have hdone : ((TimeCall.setModifyTime p t flags).onPoints a).1.toBool =
          (a.write p (a.seen p {}).1 t flags).1.toBool := toBool_map ..
      rw [hdone]
      refine (a.points_write p flags (a.seen p {}).1 t l).trans ?_
      simp only [access, modification, Option.getD_none]
      cases (a.write p (a.seen p {}).1 t flags).1.toBool with
      | false => exact if_neg fun h => Bool.false_ne_true h.1
      | true =>
          by_cases hl : a.world.leads p flags = some l
          · rw [if_pos ⟨rfl, hl⟩, if_pos hl, ClockWorld.seen_of_leads hspare hl]
            rfl
          · rw [if_neg fun h => hl h.2, if_neg hl]
            rfl

/-- The names lead where they led before. -/
theorem TimeCall.world_onPoints (call : TimeCall c) (a : ClockWorld c) :
    (call.onPoints a).2.world = a.world ∨ (call.onPoints a).2.world = a.world.next := by
  cases call with
  | accessTime p flags => exact .inl rfl
  | modifyTime p flags => exact .inl rfl
  | setAccessTime p t flags => exact .inr (a.world_write ..)
  | setModifyTime p t flags => exact .inr (a.world_write ..)

/-- What a call sets does not depend on the errors to come. -/
theorem TimeCall.sets_next (call : TimeCall c) (w : World) (l : Loc) :
    call.access l w.next = call.access l w ∧ call.modification l w.next = call.modification l w ∧
      (call.SparesLinks w.next ↔ call.SparesLinks w) := by
  cases call <;> exact ⟨rfl, rfl, Iff.rfl⟩

/-- Each time of a file is the one that was set last. -/
theorem ClockWorld.points_answers (calls : List (TimeCall c)) (a : ClockWorld c) (l : Loc)
    (hspare : ∀ call ∈ calls, call.SparesLinks a.world) :
    (Prog.answers TimeCall.onPoints calls a).2.points l =
      (lastSet (TimeCall.access l a.world)
          (calls.zip (Prog.answers TimeCall.onPoints calls a).1) (a.points l).1,
        lastSet (TimeCall.modification l a.world)
          (calls.zip (Prog.answers TimeCall.onPoints calls a).1) (a.points l).2) := by
  induction calls generalizing a with
  | nil => rfl
  | cons call calls ih =>
      obtain ⟨hone, hrest⟩ := List.forall_mem_cons.mp hspare
      have hworld : ∀ other : TimeCall c,
          other.access l (call.onPoints a).2.world = other.access l a.world ∧
            other.modification l (call.onPoints a).2.world = other.modification l a.world ∧
            (other.SparesLinks (call.onPoints a).2.world ↔ other.SparesLinks a.world) := by
        intro other
        rcases call.world_onPoints a with h | h
        · rw [h]
          exact ⟨rfl, rfl, Iff.rfl⟩
        · rw [h]
          exact other.sets_next a.world l
      have hpoints := call.points_onPoints hone l
      have hnext := ih (call.onPoints a).2 fun other h => (hworld other).2.2.mpr (hrest other h)
      rw [funext fun other => (hworld other).1, funext fun other => (hworld other).2.1] at hnext
      rw [Prog.answers, List.zip_cons_cons, lastSet_cons, lastSet_cons]
      refine hnext.trans ?_
      rw [hpoints]
      cases (call.onPoints a).1.toBool <;> rfl

end Points

/-- **Two times for each file.** If the links are spared, any sequence of calls keeps two times
for each file that have nothing to do with each other: each one is what was last set by a call
that did not fail. -/
theorem fileTimes_independent (hc : c.ns ∣ 1000000000) {s : TimedWorld} {a : ClockWorld c}
    (h : a.Stamps s) {calls : List (TimeCall c)}
    (hspare : ∀ call ∈ calls, call.SparesLinks s.world) :
    ∃ replies s', Prog.runEach TimeCall.onFiles calls s = some (replies, s') ∧
      ∀ l,
        (s'.times l).1 =
          (lastSet (TimeCall.access l s.world) (calls.zip replies) (a.points l).1).stamp ∧
        (s'.times l).2 =
          (lastSet (TimeCall.modification l s.world) (calls.zip replies) (a.points l).2).stamp := by
  obtain ⟨s', hrun, hs'⟩ := Prog.runEach_eq (R := fun s a => ClockWorld.Stamps a s)
    (fun call _ _ hs => hs.step hc call) calls h
  refine ⟨_, s', hrun, fun l => ?_⟩
  rw [h.world] at hspare ⊢
  rw [hs'.times, ClockWorld.points_answers calls a l hspare]
  exact ⟨rfl, rfl⟩

/-- After the same calls the file has the times that were set last. -/
theorem fileTimes_independent_file :
    ∃ replies s', Prog.runEach TimeCall.onFiles fileCalls fileWorld = some (replies, s') ∧
      s'.times [[102]] = (⟨2, 500000000⟩, ⟨-4, 0⟩) := by
  have hspare : ∀ call ∈ fileCalls, call.SparesLinks fileWorld.world := by
    simp [fileCalls, TimeCall.SparesLinks]
  obtain ⟨replies, s', hrun, htimes⟩ :=
    fileTimes_independent (by decide) filePoints_stamps hspare
  have hreplies : (Prog.runEach TimeCall.onFiles fileCalls fileWorld).map Prod.fst =
      some [.ok (some (-1500000000)), .error ⟨eInval, [.ofName [102]]⟩, .ok none, .ok none,
        .ok (some 2500000000), .ok (some (-4000000000))] := by
    rfl
  rw [hrun, Option.map_some, Option.some.injEq] at hreplies
  obtain rfl : replies = _ := hreplies
  exact ⟨_, s', hrun, Prod.ext ((htimes [[102]]).1.trans rfl) ((htimes [[102]]).2.trans rfl)⟩

end RsIo
