import RsIo.BufferChannel
import RsIo.Stdio

/-!
# Reading the Output of a Process by Lines

`TextProcess` gathers in a buffer what a process writes. `do_wait_for` appends to the buffer
until there is a line feed in it, the output is at its end or the time has passed, and `read`
cuts one line off.

A pipe is what the system calls of the reader find there, one after the other: `read()` takes
some bytes or fails, or `select()` fails. `fread` calls `read()` until it has as many bytes as it
was asked for, and so the chunks in which the pipe delivers the output do not matter, nor that a
call fails in between. The clock is a parameter of a wait: in which pass of its loop the deadline
has passed.

## Main results

* `TextProcess.doWaitFor_spec`: what a wait leaves in the buffer and in the pipe.
* `TextProcess.read_spec`: a read after a wait that returned true takes the first line.
* `TextProcess.Client.client_lines`: a client gets the lines of the output, and comes to their end.
-/

namespace RsIo

open StdString

/-- The carriage return. -/
def cr : UInt8 := 13

/-! ### The pipe -/

/-- What the next system call on the pipe does. A call that fails sets `errno` to something other
than `EBADF`, as the descriptor is open. -/
inductive Delivery
  | bytes (data : Bytes)
  | readFails
  | selectFails
  deriving DecidableEq, Repr

/-- The pipe from a process, to the end of its output. -/
abbrev Pipe := List Delivery

namespace Pipe

/-- `fread` of `n` bytes: the bytes, whether a `read()` failed, and the pipe. -/
def fread : ℕ → Pipe → Bytes × Bool × Pipe
  | 0, p => ([], false, p)
  | _, [] => ([], false, [])
  | n, .selectFails :: p => fread n p
  | _, .readFails :: p => ([], true, p)
  | n, .bytes data :: p =>
      if n < data.length then
        (data.take n, false, .bytes (data.drop n) :: p)
      else
        let r := fread (n - data.length) p
        (data ++ r.1, r.2.1, r.2.2)

/-- The output of the process. -/
def output : Pipe → Bytes
  | [] => []
  | .bytes data :: p => data ++ output p
  | .readFails :: p | .selectFails :: p => output p

/-- How many bytes and calls there are. -/
def size : Pipe → ℕ
  | [] => 0
  | .bytes data :: p => data.length + 1 + size p
  | .readFails :: p | .selectFails :: p => size p + 1

/-- What `fread` takes comes from the front. -/
theorem fread_output (n : ℕ) (p : Pipe) : (p.fread n).1 ++ (p.fread n).2.2.output = p.output := by
  fun_induction fread n p with
  | case1 p => rfl
  | case2 n => rfl
  | case3 n p _ ih => exact ih
  | case4 n p _ => rfl
  | case5 n data p _ h => simp [output, ← List.append_assoc]
  | case6 n data p _ h r ih => rw [output, ← ih, List.append_assoc]

/-- A pipe loses at least the bytes that are read from it. -/
theorem fread_size (n : ℕ) (p : Pipe) : (p.fread n).2.2.size + (p.fread n).1.length ≤ p.size := by
  fun_induction fread n p with
  | case1 p => exact Nat.le_refl _
  | case2 n => exact Nat.le_refl _
  | case3 n p _ ih => exact Nat.le_succ_of_le ih
  | case4 n p _ => exact Nat.le_succ _
  | case5 n data p _ h =>
      simp only [size, List.length_drop, List.length_take]
      omega
  | case6 n data p _ h r ih =>
      have ih : r.2.2.size + r.1.length ≤ size p := ih
      simp only [size, List.length_append]
      omega

/-- If `fread` takes nothing, a call has failed or the output is at its end. -/
theorem fread_nothing {n : ℕ} (hn : 0 < n) {p : Pipe} (h : (p.fread n).1 = []) :
    (p.fread n).2.1 = true ∧ (p.fread n).2.2.size < p.size ∨
      (p.fread n).2.1 = false ∧ (p.fread n).2.2.output = [] := by
  fun_induction fread n p with
  | case1 p => omega
  | case2 n => exact .inr ⟨rfl, rfl⟩
  | case3 n p _ ih => exact (ih hn h).imp_left fun hfail => ⟨hfail.1, Nat.lt_succ_of_lt hfail.2⟩
  | case4 n p _ => exact .inl ⟨rfl, Nat.lt_succ_self _⟩
  | case5 n data p _ hlt =>
      have hlen := congrArg List.length h
      rw [List.length_take, List.length_nil] at hlen
      omega
  | case6 n data p _ hle r ih =>
      obtain ⟨rfl, hr⟩ := List.append_eq_nil_iff.mp h
      exact (ih hn hr).imp_left fun hfail => ⟨hfail.1, Nat.lt_add_left _ hfail.2⟩

end Pipe

/-! ### The streams -/

/-- A `StreamProcess`. -/
structure StreamProcess where
  pipe : Pipe
  isOpen : Bool
  deriving DecidableEq, Repr

namespace StreamProcess

/-- `StreamProcess::read`, with a buffer: the bytes, whether it throws, and the stream. -/
def read (s : StreamProcess) (maxlen : ℕ) : Bytes × Bool × StreamProcess :=
  if maxlen = 0 ∨ !s.isOpen then
    ([], false, s)
  else
    let r := s.pipe.fread maxlen
    if 0 < r.1.length then
      (r.1, false, { s with pipe := r.2.2 })
    else if r.2.1 then
      ([], true, { s with pipe := r.2.2 })
    else
      ([], false, { pipe := r.2.2, isOpen := false })

/-- `StreamProcess::do_wait_for`: whether it throws, and the stream. Nobody looks at what it
returns. -/
def doWaitFor (s : StreamProcess) : Bool × StreamProcess :=
  if !s.isOpen then
    (false, s)
  else
    match s.pipe with
    | .selectFails :: p => (true, { s with pipe := p })
    | _ => (false, s)

/-- The output that has not been read. -/
def rest (s : StreamProcess) : Bytes := if s.isOpen then s.pipe.output else []

/-- How much there is to do. -/
def size (s : StreamProcess) : ℕ := if s.isOpen then s.pipe.size + 1 else 0

/-- Nothing is left of a closed stream. -/
theorem rest_closed {s : StreamProcess} (h : s.isOpen = false) : s.rest = [] := by
  rw [rest, h]
  rfl

/-- A read takes something, throws, or closes the stream at the end of the output. -/
theorem read_cases {s : StreamProcess} (hopen : s.isOpen = true) {n : ℕ} (hn : 0 < n) :
    (∃ data t, s.read n = (data, false, t) ∧ data ≠ [] ∧ t.isOpen = true ∧
        data ++ t.rest = s.rest ∧ t.size + data.length ≤ s.size) ∨
      (∃ t, s.read n = ([], true, t) ∧ t.isOpen = true ∧ t.rest = s.rest ∧ t.size < s.size) ∨
      ∃ t, s.read n = ([], false, t) ∧ t.isOpen = false ∧ s.rest = [] := by
  have hrest : s.rest = s.pipe.output := if_pos hopen
  have hsize : s.size = s.pipe.size + 1 := if_pos hopen
  have houtput := s.pipe.fread_output n
  have hread : ¬ (n = 0 ∨ (!s.isOpen) = true) := by simp [hopen, hn.ne']
  rw [read, if_neg hread, hrest, hsize]
  by_cases hpos : 0 < (s.pipe.fread n).1.length
  · refine .inl ⟨_, _, if_pos hpos, List.length_pos_iff.mp hpos, hopen, ?_, ?_⟩
    · rw [rest, if_pos hopen]
      exact houtput
    · rw [size, if_pos hopen]
      change (s.pipe.fread n).2.2.size + 1 + (s.pipe.fread n).1.length ≤ s.pipe.size + 1
      have hle := s.pipe.fread_size n
      omega
  · have hnil : (s.pipe.fread n).1 = [] := List.length_eq_zero_iff.mp (by omega)
    rw [hnil, List.nil_append] at houtput
    rcases Pipe.fread_nothing hn hnil with ⟨hfail, hlt⟩ | ⟨hok, hend⟩
    · refine .inr (.inl ⟨_, (if_neg hpos).trans (if_pos hfail), hopen, ?_, ?_⟩)
      · rw [rest, if_pos hopen]
        exact houtput
      · rw [size, if_pos hopen]
        exact Nat.succ_lt_succ hlt
    · have hok' : ¬ (s.pipe.fread n).2.1 = true := by simp [hok]
      exact .inr (.inr ⟨_, (if_neg hpos).trans (if_neg hok'), rfl, houtput ▸ hend⟩)

/-- A wait takes nothing from the output. -/
theorem doWaitFor_cases {s : StreamProcess} (hopen : s.isOpen = true) :
    s.doWaitFor = (false, s) ∨
      ∃ t, s.doWaitFor = (true, t) ∧ t.isOpen = true ∧ t.rest = s.rest ∧ t.size < s.size := by
  obtain ⟨pipe, isOpen⟩ := s
  subst hopen
  cases pipe with
  | nil => exact .inl rfl
  | cons d p =>
      cases d with
      | bytes data => exact .inl rfl
      | readFails => exact .inl rfl
      | selectFails => exact .inr ⟨⟨p, true⟩, rfl, rfl, rfl, Nat.lt_succ_self _⟩

end StreamProcess

/-- A `TextProcess`. -/
structure TextProcess where
  stream : StreamProcess
  buf : Bytes
  deriving DecidableEq, Repr

namespace TextProcess

/-- The constructor, with the pipe from the process that it starts. -/
def new (pipe : Pipe) : TextProcess := ⟨⟨pipe, true⟩, []⟩

/-- `TextProcess::is_closed`. -/
def isClosed (s : TextProcess) : Bool := !s.stream.isOpen && s.buf.isEmpty

/-- `TextProcess::read`: the line, or `none` if it returns false. -/
def read (s : TextProcess) : Option Bytes × TextProcess :=
  if s.buf.isEmpty then
    (none, s)
  else
    match findIf (· == lf) s.buf 0 with
    | none => (some s.buf, { s with buf := [] })
    | some i =>
        let line :=
          if 0 < i ∧ s.buf[i - 1]? = some cr then
            substr s.buf 0 (i - 1)
          else
            substr s.buf 0 i
        (some line, { s with buf := erase s.buf 0 (i + 1) })

/-- How a wait ends. -/
inductive Answer
  | returned (ready : Bool)
  | thrown
  deriving DecidableEq, Repr

/-- The size of a block, which is never set. -/
def block : ℕ := 65536

/-- `StreamChannel::append` to the buffer: how many bytes were read, whether it throws, and the
process. -/
def append (s : TextProcess) : ℕ × Bool × TextProcess :=
  let a := StreamChannel.append s.stream.read block s.buf
  (a.1, a.2.2.1, ⟨a.2.2.2, a.2.1⟩)

/-- The block that `append` appends. -/
theorem append_eq (s : TextProcess) :
    s.append = ((s.stream.read block).1.length, (s.stream.read block).2.1,
      ⟨(s.stream.read block).2.2, s.buf ++ (s.stream.read block).1⟩) := by
  rw [append, StreamChannel.append_eq]

/-- What there is to do until the process is closed. A byte in the pipe is still to be read from
the pipe and from the buffer. -/
def left (s : TextProcess) : ℕ := 2 * s.stream.size + s.buf.length

/-- All that has not been read. -/
def text (s : TextProcess) : Bytes := s.buf ++ s.stream.rest

/-- One pass of the loop of `TextProcess::do_wait_for`, without the look at the clock, which
decides if there is no answer yet. -/
def pass (s : TextProcess) : Option Answer × TextProcess :=
  let w := s.stream.doWaitFor
  let t : TextProcess := { s with stream := w.2 }
  if w.1 then
    (some .thrown, t)
  else if !t.stream.isOpen then
    (some (.returned true), t)
  else
    let a := t.append
    if a.2.1 then
      (some .thrown, a.2.2)
    else if a.1 = 0 then
      (some (.returned true), a.2.2)
    else if (findIf (· == lf) a.2.2.buf 0).isSome then
      (some (.returned true), a.2.2)
    else
      (none, a.2.2)

/-- An append to the buffer of an open process keeps the text. It makes progress, and if it
neither reads nor throws, it closes the stream. -/
theorem append_cases {s : TextProcess} (hopen : s.stream.isOpen = true) :
    s.append.2.2.text = s.text ∧ s.append.2.2.left < s.left ∧
      (s.append.1 = 0 → s.append.2.1 = false → s.append.2.2.stream.isOpen = false) := by
  rw [append_eq]
  rcases StreamProcess.read_cases hopen (n := block) (by decide) with
    ⟨data, t, hread, hne, ht, hrest, hsize⟩ | ⟨t, hread, ht, hrest, hsize⟩ | ⟨t, hread, ht, hrest⟩
  · have hpos := List.length_pos_iff.mpr hne
    refine ⟨?_, ?_, fun hzero => ?_⟩
    · simp only [hread, text, List.append_assoc, hrest]
    · simp only [hread, left, List.length_append]
      omega
    · rw [hread] at hzero
      exact absurd hzero hpos.ne'
  · refine ⟨?_, ?_, fun _ hok => ?_⟩
    · simp only [hread, text, List.append_nil, hrest]
    · simp only [hread, left, List.append_nil]
      omega
    · rw [hread] at hok
      cases hok
  · refine ⟨?_, ?_, fun _ _ => ?_⟩
    · simp only [hread, text, List.append_nil, hrest, StreamProcess.rest_closed ht]
    · have hsize : t.size = 0 := by rw [StreamProcess.size, ht]; rfl
      have hpos : 0 < s.stream.size := by rw [StreamProcess.size, if_pos hopen]; omega
      simp only [hread, left, List.append_nil]
      omega
    · rw [hread]
      exact ht

/-- What a pass, or a whole wait, of an open process leaves. -/
structure Waited (s t : TextProcess) : Prop where
  text : t.text = s.text
  left : t.left < s.left

/-- There is no pass for a closed stream. -/
theorem pass_closed {s : TextProcess} (h : s.stream.isOpen = false) :
    s.pass = (some (.returned true), s) := by
  have hwait : s.stream.doWaitFor = (false, s.stream) := by rw [StreamProcess.doWaitFor, h]; rfl
  simp [pass, hwait, h]

/-- A pass answers true at the end of the output, or with a line feed in the buffer. -/
theorem pass_open {s : TextProcess} (hopen : s.stream.isOpen = true) :
    Waited s s.pass.2 ∧ (s.pass.1 = some (.returned true) →
      s.pass.2.stream.isOpen = true → lf ∈ s.pass.2.buf) := by
  rcases StreamProcess.doWaitFor_cases hopen with hwait | ⟨t, hwait, ht, hrest, hsize⟩
  · obtain ⟨htext, hleft, hzero⟩ := append_cases hopen
    have hopen' : ¬ (!s.stream.isOpen) = true := by simp [hopen]
    have hpass : s.pass = if s.append.2.1 then (some .thrown, s.append.2.2)
        else if s.append.1 = 0 then (some (.returned true), s.append.2.2)
        else if (findIf (· == lf) s.append.2.2.buf 0).isSome then
          (some (.returned true), s.append.2.2)
        else (none, s.append.2.2) := by
      simp only [pass, hwait, Bool.false_eq_true, if_false, if_neg hopen']
    rw [hpass]
    split_ifs with hthrow hnothing hfound
    · exact ⟨⟨htext, hleft⟩, fun h => by cases h⟩
    · refine ⟨⟨htext, hleft⟩, fun _ h => ?_⟩
      rw [hzero hnothing (Bool.eq_false_iff.mpr hthrow)] at h
      cases h
    · refine ⟨⟨htext, hleft⟩, fun _ _ => ?_⟩
      obtain ⟨i, hi⟩ := Option.isSome_iff_exists.mp hfound
      obtain ⟨c, hc, hlf⟩ := findIf_some hi
      exact eq_of_beq hlf ▸ List.mem_of_getElem? hc
    · exact ⟨⟨htext, hleft⟩, fun h => by cases h⟩
  · have hpass : s.pass = (some .thrown, { s with stream := t }) := by simp [pass, hwait]
    rw [hpass]
    refine ⟨⟨?_, ?_⟩, fun h => by cases h⟩
    · simp only [text, hrest]
    · simp only [left]
      omega

/-- The loop of `TextProcess::do_wait_for` from the pass `i` on, with the passes in which the
deadline has passed. -/
def waitLoop (late : ℕ → Bool) (i : ℕ) (s : TextProcess) : Answer × TextProcess :=
  match _h : s.pass with
  | (some a, t) => (a, t)
  | (none, t) => if late i then (.returned false, t) else waitLoop late (i + 1) t
termination_by s.left
decreasing_by
  have hopen : s.stream.isOpen = true := by
    by_contra hclosed
    rw [pass_closed (Bool.eq_false_iff.mpr hclosed)] at _h
    cases _h
  have hleft := (pass_open hopen).1.left
  rwa [_h] at hleft

/-- `TextProcess::do_wait_for`. -/
def doWaitFor (s : TextProcess) (late : ℕ → Bool) : Answer × TextProcess := waitLoop late 0 s

/-- Waiting for a closed stream is over at once. -/
theorem waitLoop_closed {s : TextProcess} (h : s.stream.isOpen = false) (late : ℕ → Bool)
    (i : ℕ) : waitLoop late i s = (.returned true, s) := by
  rw [waitLoop, pass_closed h]

/-- A wait of an open process keeps the text and makes progress. If it returns true, the output
is at its end or there is a line feed in the buffer. -/
theorem waitLoop_spec (late : ℕ → Bool) (i : ℕ) {s : TextProcess} (hopen : s.stream.isOpen = true) :
    Waited s (waitLoop late i s).2 ∧ ((waitLoop late i s).1 = .returned true →
      (waitLoop late i s).2.stream.isOpen = true → lf ∈ (waitLoop late i s).2.buf) := by
  fun_induction waitLoop late i s with
  | case1 i s a t h =>
      have hpass := pass_open hopen
      rw [h] at hpass
      exact ⟨hpass.1, fun ha => hpass.2 (congrArg some ha)⟩
  | case2 i s t h hlate =>
      have hpass := pass_open hopen
      rw [h] at hpass
      exact ⟨hpass.1, fun ha => by cases ha⟩
  | case3 i s t h hlate ih =>
      have hpass := (pass_open hopen).1
      rw [h] at hpass
      cases ht : t.stream.isOpen with
      | true =>
          obtain ⟨hrest, hready⟩ := ih ht
          exact ⟨⟨hrest.text.trans hpass.text, hrest.left.trans hpass.left⟩, hready⟩
      | false =>
          rw [waitLoop_closed ht]
          exact ⟨hpass, fun _ hopen' => by rw [ht] at hopen'; cases hopen'⟩

/-- A wait keeps the text. It makes progress while the stream is open, and if it returns true
and the stream is still open, there is a line feed in the buffer. -/
theorem doWaitFor_spec (s : TextProcess) (late : ℕ → Bool) :
    (s.doWaitFor late).2.text = s.text ∧
      (s.stream.isOpen = true → (s.doWaitFor late).2.left < s.left) ∧
      ((s.doWaitFor late).1 = .returned true → (s.doWaitFor late).2.stream.isOpen = true →
        lf ∈ (s.doWaitFor late).2.buf) := by
  rw [doWaitFor]
  cases hopen : s.stream.isOpen with
  | true =>
      obtain ⟨hwaited, hready⟩ := waitLoop_spec late 0 hopen
      exact ⟨hwaited.text, fun _ => hwaited.left, hready⟩
  | false =>
      rw [waitLoop_closed hopen]
      exact ⟨rfl, fun h => by (cases h), fun _ h => by rw [hopen] at h; cases h⟩

/-! ### Lines -/

/-- A line without the carriage return at its end. -/
def dropCr (s : Bytes) : Bytes := if s.getLast? = some cr then s.dropLast else s

/-- The lines of a text: the pieces between line feeds, and the rest if it is not empty. -/
def linesOf (s : Bytes) : List Bytes :=
  let pieces := s.splitOn lf
  pieces.dropLast.map dropCr ++ [pieces.getLastD []].filter (! ·.isEmpty)

/-- Nothing has no lines. -/
theorem linesOf_nil : linesOf [] = [] := rfl

/-- Text without a line feed is one line. -/
theorem linesOf_rest {s : Bytes} (h : lf ∉ s) (hne : s ≠ []) : linesOf s = [s] := by
  rw [linesOf, List.splitOn_eq_singleton h]
  simp [hne]

/-- A line ends at the first line feed. -/
theorem linesOf_line {line : Bytes} (h : lf ∉ line) (s : Bytes) :
    linesOf (line ++ lf :: s) = dropCr line :: linesOf s := by
  have hsplit : (line ++ lf :: s).splitOn lf = line :: s.splitOn lf := by
    rw [List.splitOn_append_cons_self, List.splitOn_eq_singleton h]
    rfl
  have hne := List.splitOn_ne_nil lf s
  simp only [linesOf, hsplit, List.dropLast_cons_of_ne_nil hne, List.map_cons, List.cons_append]
  obtain ⟨piece, pieces, hpieces⟩ := List.exists_cons_of_ne_nil hne
  rw [hpieces, List.getLastD_cons, List.getLastD_cons, List.getLastD_cons]

example : linesOf (bytes "a\r\n\nb\r") = [bytes "a", [], bytes "b\r"] := by decide

/-- What `read` cuts off in front of a line feed. -/
theorem dropCr_eq (line post : Bytes) :
    (if 0 < line.length ∧ (line ++ post)[line.length - 1]? = some cr then
        substr (line ++ post) 0 (line.length - 1)
      else substr (line ++ post) 0 line.length) = dropCr line := by
  rw [dropCr, substr, substr, List.drop_zero, List.take_append_of_le_length (Nat.sub_le _ _),
    List.take_append_of_le_length (Nat.le_refl _), List.take_length, List.dropLast_eq_take,
    List.getLast?_eq_getElem?]
  by_cases hpos : 0 < line.length
  · rw [List.getElem?_append_left (by omega)]
    simp only [hpos, true_and]
  · have hnil : line = [] := List.length_eq_zero_iff.mp (by omega)
    rw [hnil]
    rfl

/-- A line is read from the buffer. -/
theorem read_line {line : Bytes} (h : lf ∉ line) (post : Bytes) (stream : StreamProcess) :
    read ⟨stream, line ++ lf :: post⟩ = (some (dropCr line), ⟨stream, post⟩) := by
  have hfind := findIf_separator h post
  have hempty : ¬ (line ++ lf :: post).isEmpty = true := by simp
  have herase : erase (line ++ lf :: post) 0 (line.length + 1) = post := by
    simp [erase]
  simp only [read, if_neg hempty, hfind, dropCr_eq, herase]

/-- The rest of the buffer is read as the last line. -/
theorem read_rest {s : TextProcess} (h : lf ∉ s.buf) (hne : s.buf ≠ []) :
    s.read = (some s.buf, { s with buf := [] }) := by
  have hfind : findIf (· == lf) s.buf 0 = none := findIf_zero_none (beq_false_of_notMem h)
  have hempty : ¬ s.buf.isEmpty = true := by simp [hne]
  simp only [read, if_neg hempty, hfind]

/-- A read when there is a line feed in the buffer, or nothing will come behind what is there,
takes the first line of the text. -/
theorem read_spec {s : TextProcess} (hne : s.buf ≠ [])
    (hready : s.stream.isOpen = true → lf ∈ s.buf) :
    ∃ line t, s.read = (some line, t) ∧ linesOf s.text = line :: linesOf t.text ∧
      t.left < s.left ∧ t.stream = s.stream := by
  by_cases hlf : lf ∈ s.buf
  · obtain ⟨line, post, hbuf, hline⟩ := List.eq_append_cons_of_mem hlf
    obtain ⟨stream, buf⟩ := s
    subst hbuf
    refine ⟨_, _, read_line hline post stream, ?_, ?_, rfl⟩
    · rw [text, List.append_assoc, List.cons_append, linesOf_line hline]
      rfl
    · simp only [left, List.length_append, List.length_cons]
      omega
  · have hclosed : s.stream.isOpen = false := Bool.eq_false_iff.mpr fun hopen => hlf (hready hopen)
    refine ⟨_, _, read_rest hlf hne, ?_, ?_, rfl⟩
    · simp only [text, StreamProcess.rest_closed hclosed, List.append_nil]
      rw [linesOf_rest hlf hne, linesOf_nil]
    · have hpos := List.length_pos_iff.mpr hne
      simp only [left, List.length_nil]
      omega

/-- Nothing is read from an empty buffer. -/
theorem read_nil {s : TextProcess} (h : s.buf = []) : s.read = (none, s) := by
  rw [read, h]
  rfl

/-- Nothing is left of a closed process. -/
theorem text_of_isClosed {s : TextProcess} (h : s.isClosed = true) : s.text = [] := by
  rw [isClosed, Bool.and_eq_true, Bool.not_eq_true', List.isEmpty_iff] at h
  rw [text, h.2, StreamProcess.rest_closed h.1]
  rfl

/-! ### Clients -/

/-- A client of a process: whether its last call was a wait that returned true, and the lines
it has received. -/
structure Client where
  process : TextProcess
  ready : Bool
  received : List Bytes
  deriving DecidableEq, Repr

namespace Client

/-- A client of the process that is started with the pipe. -/
def new (pipe : Pipe) : Client := ⟨TextProcess.new pipe, false, []⟩

/-- The client waits. -/
def wait (c : Client) (late : ℕ → Bool) : Client :=
  let w := c.process.doWaitFor late
  { c with process := w.2, ready := w.1 == .returned true }

/-- The client reads. -/
def read (c : Client) : Client :=
  let r := c.process.read
  ⟨r.2, false, c.received ++ r.1.toList⟩

/-- A call that a client makes. -/
inductive Call
  | wait (late : ℕ → Bool)
  | read

/-- The clients that call `read` only after a wait that returned true. -/
def clients (pipe : Pipe) : Machine Client Call where
  start := new pipe
  next c
    | .wait late => some (c.wait late)
    | .read => if c.ready then some c.read else none

/-- A wait, and a read if it returned true and the process is not closed. -/
def round (c : Client) (late : ℕ → Bool) : Client :=
  let c := c.wait late
  if c.ready && !c.process.isClosed then c.read else c

/-- At most `n` rounds, until the process is closed. -/
def run : ℕ → (ℕ → ℕ → Bool) → Client → Client
  | 0, _, c => c
  | n + 1, late, c =>
      if c.process.isClosed then c else run n (fun i => late (i + 1)) (c.round (late 0))

/-- What was received and what is still to come are the lines of the output. -/
structure Received (pipe : Pipe) (c : Client) : Prop where
  lines : c.received ++ linesOf c.process.text = linesOf pipe.output
  ready : c.ready = true → c.process.stream.isOpen = true → lf ∈ c.process.buf

variable {pipe : Pipe} {c : Client}

/-- Waiting reads no line. -/
theorem Received.wait (h : Received pipe c) (late : ℕ → Bool) : Received pipe (c.wait late) := by
  obtain ⟨htext, -, hready⟩ := c.process.doWaitFor_spec late
  refine ⟨?_, fun hr => hready (eq_of_beq hr)⟩
  rw [← h.lines, ← htext]
  rfl

/-- Reading a line adds it to those before. -/
theorem Received.read (h : Received pipe c) (hready : c.ready = true) : Received pipe c.read := by
  refine ⟨?_, fun h => by cases h⟩
  rw [← h.lines]
  by_cases hne : c.process.buf = []
  · rw [Client.read, TextProcess.read_nil hne]
    simp
  · obtain ⟨line, t, hread, hlines, -, -⟩ := TextProcess.read_spec hne (h.ready hready)
    rw [Client.read, hread, hlines]
    simp

/-- Every client has read lines from the front of the output. -/
theorem received_of_reachable (h : (clients pipe).Reachable c) : Received pipe c := by
  refine Machine.Reach.invariant ⟨rfl, fun h => by cases h⟩ (fun c e c' hc _ hnext => ?_) h
  cases e with
  | wait late =>
      rw [← Option.some.inj hnext]
      exact hc.wait late
  | read =>
      obtain ⟨hready, rfl⟩ := Machine.of_guard hnext
      exact hc.read hready

/-- A read of a process that is not closed makes progress. -/
theorem left_read (h : c.process.isClosed = false)
    (hready : c.process.stream.isOpen = true → lf ∈ c.process.buf) :
    c.read.process.left < c.process.left := by
  have hne : c.process.buf ≠ [] := by
    intro hnil
    cases hopen : c.process.stream.isOpen with
    | true => simpa [hnil] using hready hopen
    | false => simp [TextProcess.isClosed, hopen, hnil] at h
  obtain ⟨line, t, hread, -, hleft, -⟩ := TextProcess.read_spec hne hready
  rw [Client.read, hread]
  exact hleft

/-- A round of a process that is not closed makes progress. -/
theorem left_round (h : c.process.isClosed = false) (late : ℕ → Bool) :
    (c.round late).process.left < c.process.left := by
  obtain ⟨-, hleft, hready⟩ := c.process.doWaitFor_spec late
  cases hopen : c.process.stream.isOpen with
  | true =>
      have hwait : (c.wait late).process.left < c.process.left := hleft hopen
      rw [round]
      split
      next hread =>
        obtain ⟨hr, hclosed⟩ := (Bool.and_eq_true _ _).mp hread
        exact (left_read (by simpa using hclosed) (hready (eq_of_beq hr))).trans hwait
      next => exact hwait
  | false =>
      -- The wait returns at once, and there is something in the buffer.
      have hwait : c.wait late = { c with ready := true } := by
        rw [wait, TextProcess.doWaitFor, TextProcess.waitLoop_closed hopen]
        rfl
      have hround : c.round late = { c with ready := true }.read := by
        rw [round, hwait]
        exact if_pos (by simp [h])
      rw [hround]
      exact left_read h fun hopen' => by rw [hopen] at hopen'; cases hopen'

/-- Rounds come to the end of the output. -/
theorem isClosed_run (n : ℕ) (late : ℕ → ℕ → Bool) (c : Client) (h : c.process.left ≤ n) :
    (c.run n late).process.isClosed = true := by
  induction n generalizing late c with
  | zero =>
      rw [TextProcess.left] at h
      have hbuf : c.process.buf = [] := List.length_eq_zero_iff.mp (by omega)
      have hopen : c.process.stream.isOpen = false := by
        by_contra hopen
        have hsize : c.process.stream.size = c.process.stream.pipe.size + 1 :=
          if_pos (Bool.not_eq_false _ ▸ hopen)
        omega
      simp [run, TextProcess.isClosed, hbuf, hopen]
  | succ n ih =>
      rw [run]
      split
      next hclosed => exact hclosed
      next hclosed =>
        have hlt := left_round (Bool.eq_false_iff.mpr hclosed) (late 0)
        exact ih _ _ (by omega)

/-- A round is made of steps. -/
theorem reachable_round (h : (clients pipe).Reachable c) (late : ℕ → Bool) :
    (clients pipe).Reachable (c.round late) := by
  have hwait : (clients pipe).Reachable (c.wait late) := h.step (e := .wait late) trivial rfl
  rw [round]
  split
  next hread =>
    exact hwait.step (e := .read) trivial (if_pos ((Bool.and_eq_true _ _).mp hread).1)
  next => exact hwait

/-- Rounds are made of steps. -/
theorem reachable_run (n : ℕ) (late : ℕ → ℕ → Bool) (h : (clients pipe).Reachable c) :
    (clients pipe).Reachable (c.run n late) := by
  induction n generalizing late c with
  | zero => exact h
  | succ n ih =>
      rw [run]
      split
      · exact h
      · exact ih _ (reachable_round h _)

/-- **Lines.** A client has received the first lines of the output after any calls, and all of
them when the process is closed. It comes to that if it makes enough rounds. The lines depend
neither on the chunks in the pipe nor on the deadlines that have passed. -/
theorem client_lines (pipe : Pipe) :
    (∀ c, (clients pipe).Reachable c → c.received <+: linesOf pipe.output ∧
      (c.process.isClosed = true → c.received = linesOf pipe.output)) ∧
      ∀ late : ℕ → ℕ → Bool, ∃ n, ((new pipe).run n late).process.isClosed = true ∧
        ((new pipe).run n late).received = linesOf pipe.output := by
  have hlines (c : Client) (h : (clients pipe).Reachable c) (hclosed : c.process.isClosed = true) :
      c.received = linesOf pipe.output := by
    rw [← (received_of_reachable h).lines, TextProcess.text_of_isClosed hclosed,
      TextProcess.linesOf_nil, List.append_nil]
  refine ⟨fun c h => ⟨⟨_, (received_of_reachable h).lines⟩, hlines c h⟩, fun late => ?_⟩
  have hclosed := isClosed_run (new pipe).process.left late (new pipe) (Nat.le_refl _)
  exact ⟨_, hclosed, hlines _ (reachable_run _ late .start) hclosed⟩

end Client

end TextProcess

end RsIo
