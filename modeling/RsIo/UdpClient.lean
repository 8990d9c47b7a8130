import RsIo.SocketSet

/-!
# Reading Datagrams

`UdpClient` reads with `Socket::do_read`, which a `TcpClient` reads with as well. The system
keeps the datagrams that have arrived for a socket, and each call of `recv()` takes one of them.
What does not fit in the memory it is given is lost.

`recv()` returns zero at the end of a stream, and `do_read` closes the socket then. It returns
zero also for a datagram without data, and for no memory. The length of the memory is given to
it as a `socklen_t`.

## Main results

* `UdpClient.doRead_takes`: what a read does when a datagram is there.
* `UdpClient.Client.delivers`: the datagrams are delivered in order and the socket stays open, if
  none is empty when it is read, or cut by a length that does not fit.
* `UdpClient.Client.not_delivers`: otherwise they are not.
-/

namespace RsIo

/-- A datagram, with the address it was sent from. -/
structure Datagram where
  payload : Bytes
  source : SocketAddress

/-- A call of the system that fails, with `errno`. -/
inductive NetFault
  | select (err : ℕ)
  | recv (err : ℕ)
  deriving DecidableEq, Repr

/-- A `UdpClient`: its handle, and what the system keeps for it. -/
structure UdpClient where
  sock : ℤ
  queue : List Datagram

namespace UdpClient

/-- `Socket::is_closed`. -/
def isClosed (s : UdpClient) : Bool := s.sock == noSocket

/-- `Socket::do_close`. The system drops what it has kept. -/
def doClose (s : UdpClient) : UdpClient := if s.sock ≠ noSocket then ⟨noSocket, []⟩ else s

/-- What `select()` knows of the socket. -/
def net (s : UdpClient) : Net Unit where
  sock _ := s.sock
  isOpen h := h == s.sock
  isReadable _ := !s.queue.isEmpty

/-- `SocketSet::do_select` of one socket. -/
def doSelect (s : UdpClient) (fault : Option NetFault) : Except NetError ℤ :=
  match fault with
  | some (.select err) => if err = eBadF then .ok (-1) else .error (.system err "select()")
  | _ => (SocketSet.doSelect s.net [s.sock]).map Prod.fst

/-- `Socket::do_wait_for`. -/
def doWaitFor (s : UdpClient) (fault : Option NetFault) : Except NetError Bool :=
  if s.sock = noSocket then .ok true else (s.doSelect fault).map (· != 0)

/-- `recv()` and `recvfrom()`, with the length of the memory: the bytes, the address they come
from, and the socket. -/
def recv (s : UdpClient) (len : ℕ) (fault : Option NetFault) :
    Except ℕ (Bytes × SocketAddress × UdpClient) :=
  match fault, s.queue with
  | some (.recv err), _ => .error err
  | _, [] => .error eAgain
  | _, d :: queue => .ok (d.payload.take len, d.source, { s with queue := queue })

/-- The address that `recvfrom()` has written, of a datagram with `n` bytes. -/
def setFrom (sender source : SocketAddress) (n : ℕ) : SocketAddress :=
  let sender := sender.assign 0 (source.sa.take source.currentSize) (by
    have hlen := source.length_sa
    rw [List.length_take]
    omega)
  if 0 < n then sender.resize source.currentSize source.size_le else sender

/-- `Socket::do_read`: the bytes, the address if one was given, and the socket. -/
def doRead (s : UdpClient) (dst : Bool) (maxlen : ℕ) (sender : Option SocketAddress)
    (fault : Option NetFault) : Except NetError Bytes × Option SocketAddress × UdpClient :=
  if !dst ∨ maxlen = 0 ∨ s.sock = noSocket then
    (.ok [], sender, s)
  else
    match s.doSelect fault with
    | .error err => (.error err, sender, s)
    | .ok rc =>
        if rc ≠ 1 then
          (.ok [], sender, s)
        else
          match s.recv (Socket.socketIosize maxlen) fault with
          | .error err =>
              (.error (.system err (if sender.isSome then "recvfrom()" else "recv()")), sender, s)
          | .ok (data, source, t) =>
              (.ok data, sender.map (setFrom · source data.length),
                if data.length = 0 then t.doClose else t)

/-! ### One read -/

/-- A datagram is there for a read that asks for data, and no call fails. -/
def Takes (s : UdpClient) (dst : Bool) (maxlen : ℕ) (fault : Option NetFault) : Prop :=
  dst = true ∧ maxlen ≠ 0 ∧ fault = none ∧ s.sock ≠ noSocket ∧ s.queue.isEmpty = false

/-- Whether a read takes a datagram can be computed. -/
instance (s : UdpClient) (dst : Bool) (maxlen : ℕ) (fault : Option NetFault) :
    Decidable (s.Takes dst maxlen fault) := inferInstanceAs (Decidable (_ ∧ _))

variable {s : UdpClient} {dst : Bool} {maxlen : ℕ} {fault : Option NetFault}

theorem doSelect_eq (h : s.sock ≠ noSocket) :
    SocketSet.doSelect s.net [s.sock] =
      .ok (if s.queue.isEmpty then (0, none) else (1, some 0)) := by
  have hfds : ([s.sock].filter (· ≠ noSocket)).toFinset = {s.sock} := by simp [h]
  have hopen : ¬ ∃ g ∈ ({s.sock} : Finset ℤ), s.net.isOpen g = false := by simp [net]
  rw [SocketSet.doSelect, hfds, Net.select, if_neg hopen]
  cases hempty : s.queue.isEmpty with
  | true => simp [net, hempty]
  | false => simp [net, hempty, h, List.findIdx?_cons]

/-- A wait succeeds if the socket is closed or a datagram is there. -/
theorem doWaitFor_eq (s : UdpClient) :
    s.doWaitFor none = .ok (s.isClosed || !s.queue.isEmpty) := by
  rw [doWaitFor, isClosed]
  split
  next h => simp [h]
  next h =>
    cases hempty : s.queue.isEmpty <;> simp [doSelect, doSelect_eq h, hempty, h, Except.map]

/-- A read takes the datagram that is there, or what fits of it. It closes the socket if that is
nothing. -/
theorem doRead_takes (h : s.Takes dst maxlen fault) {d : Datagram} {queue : List Datagram}
    (hqueue : s.queue = d :: queue) (sender : Option SocketAddress) :
    (s.doRead dst maxlen sender fault).1 = .ok (d.payload.take (Socket.socketIosize maxlen)) ∧
      (s.doRead dst maxlen sender fault).2.2 =
        if d.payload.take (Socket.socketIosize maxlen) = [] then ⟨noSocket, []⟩
        else { s with queue := queue } := by
  obtain ⟨rfl, hlen, rfl, hsock, hempty⟩ := h
  have hselect : s.doSelect none = .ok 1 := by
    simp [doSelect, doSelect_eq hsock, hempty, Except.map]
  have hrecv : s.recv (Socket.socketIosize maxlen) none =
      .ok (d.payload.take (Socket.socketIosize maxlen), d.source, { s with queue := queue }) := by
    simp [recv, hqueue]
  rw [doRead, if_neg (by simp [hlen, hsock]), hselect]
  dsimp only
  rw [if_neg (by decide), hrecv]
  refine ⟨rfl, ?_⟩
  dsimp only
  simp only [List.length_eq_zero_iff, doClose, if_pos hsock]

/-- `select()` finds the socket ready only if a datagram is there. -/
theorem ready_of_doSelect (hsock : s.sock ≠ noSocket) (h : s.doSelect fault = .ok 1) :
    s.queue.isEmpty = false ∧ ∀ err, fault ≠ some (.select err) := by
  have hready : SocketSet.doSelect s.net [s.sock] = .ok (0, none) →
      (SocketSet.doSelect s.net [s.sock]).map Prod.fst ≠ .ok 1 := by
    intro hzero hone
    rw [hzero] at hone
    cases hone
  cases fault with
  | none =>
      refine ⟨Bool.eq_false_iff.mpr fun hempty => hready ?_ h, fun err herr => by cases herr⟩
      rw [doSelect_eq hsock, hempty]
      rfl
  | some fault =>
      cases fault with
      | recv err =>
          refine ⟨Bool.eq_false_iff.mpr fun hempty => hready ?_ h, fun err herr => by cases herr⟩
          rw [doSelect_eq hsock, hempty]
          rfl
      | select err =>
          rw [doSelect] at h
          split at h <;> cases h

/-- Any other read leaves the socket as it is. -/
theorem doRead_keeps (h : ¬ s.Takes dst maxlen fault) (sender : Option SocketAddress) :
    (s.doRead dst maxlen sender fault).2.2 = s := by
  rw [doRead]
  split
  next => rfl
  next hasks =>
    obtain ⟨hdst, hlen, hsock⟩ : dst = true ∧ maxlen ≠ 0 ∧ s.sock ≠ noSocket := by
      simpa using hasks
    split
    next => rfl
    next rc hselect =>
      split
      next => rfl
      next hrc =>
        obtain rfl := not_not.mp hrc
        obtain ⟨hwaiting, hfault⟩ := ready_of_doSelect hsock hselect
        cases fault with
        | none => exact absurd ⟨hdst, hlen, rfl, hsock, hwaiting⟩ h
        | some fault =>
            cases fault with
            | recv err => rfl
            | select err => exact absurd rfl (hfault err)

/-! ### Clients -/

/-- A client: the socket, the data of the datagrams that have arrived for it, what the reads that
found a datagram were asked for and have delivered, and whether `close()` was called. -/
structure Client where
  socket : UdpClient
  arrived : List Bytes
  reads : List (ℕ × Bytes)
  isCloseCalled : Bool

namespace Client

/-- A datagram arrives, or a function of the client is called. -/
inductive Event
  | arrive (d : Datagram)
  | waitFor (fault : Option NetFault)
  | read (dst : Bool) (maxlen : ℕ) (sender : Option SocketAddress) (fault : Option NetFault)
  | close

/-- A datagram for a socket that is closed is lost. -/
def arrive (c : Client) (d : Datagram) : Client :=
  if c.socket.sock = noSocket then c
  else
    { c with
      socket := { c.socket with queue := c.socket.queue ++ [d] }
      arrived := c.arrived ++ [d.payload] }

/-- `UdpClient::read`. -/
def read (c : Client) (dst : Bool) (maxlen : ℕ) (sender : Option SocketAddress)
    (fault : Option NetFault) : Client :=
  let r := c.socket.doRead dst maxlen sender fault
  { c with
    socket := r.2.2
    reads := if c.socket.Takes dst maxlen fault then
        c.reads ++ [(maxlen, r.1.toOption.getD [])]
      else c.reads }

/-- One event. -/
def after (c : Client) : Event → Client
  | .arrive d => c.arrive d
  | .waitFor _ => c
  | .read dst maxlen sender fault => c.read dst maxlen sender fault
  | .close => { c with socket := c.socket.doClose, isCloseCalled := true }

/-- The clients with an open socket at the start, and any events in any order. -/
def clients (sock : ℤ) : Machine Client Event where
  start := ⟨⟨sock, []⟩, [], [], false⟩
  next c e := some (c.after e)

/-- The reads have delivered the datagrams one after the other, each cut to the length that was
asked for. The socket is open, and keeps the others, until `close()` is called. -/
structure Delivers (c : Client) : Prop where
  inOrder : List.Forall₂ (fun r payload => r.2 = payload.take r.1) c.reads
    (c.arrived.take c.reads.length)
  stays : c.isCloseCalled = false → c.socket.isClosed = false ∧
    c.socket.queue.map Datagram.payload = c.arrived.drop c.reads.length

/-- A datagram that is read is not empty, and is not cut by a length that does not fit. -/
def Plain (c : Client) (e : Event) : Prop :=
  ∀ dst maxlen sender fault, e = .read dst maxlen sender fault → c.socket.Takes dst maxlen fault →
    ∀ d, c.socket.queue.head? = some d →
      d.payload ≠ [] ∧ (maxlen < 2 ^ 32 ∨ d.payload.length ≤ maxlen % 2 ^ 32)

variable {c : Client}

theorem Delivers.length_le (h : Delivers c) : c.reads.length ≤ c.arrived.length := by
  have hlen := h.inOrder.length_eq
  rw [List.length_take] at hlen
  omega

theorem Delivers.arrive (h : Delivers c) (d : Datagram) : Delivers (c.arrive d) := by
  have hle := h.length_le
  rw [Client.arrive]
  split
  next => exact h
  next hsock =>
    refine ⟨?_, fun hopen => ⟨(h.stays hopen).1, ?_⟩⟩
    · dsimp only
      rw [List.take_append_of_le_length hle]
      exact h.inOrder
    · dsimp only
      rw [List.drop_append_of_le_length hle, List.map_append, (h.stays hopen).2]
      rfl

/-- What fits of a datagram that is not cut by a length that does not fit. -/
theorem take_socketIosize {payload : Bytes} {maxlen : ℕ}
    (h : maxlen < 2 ^ 32 ∨ payload.length ≤ maxlen % 2 ^ 32) :
    payload.take (Socket.socketIosize maxlen) = payload.take maxlen := by
  rw [Socket.socketIosize]
  rcases h with hlt | hle
  · rw [Nat.mod_eq_of_lt hlt]
  · rw [List.take_of_length_le hle, List.take_of_length_le (hle.trans (Nat.mod_le _ _))]

/-- What is ahead in the queue is the next of the datagrams that have arrived. -/
theorem Delivers.next (h : Delivers c) (hclose : c.isCloseCalled = false) {d : Datagram}
    {queue : List Datagram} (hqueue : c.socket.queue = d :: queue) :
    c.arrived.drop c.reads.length = d.payload :: queue.map Datagram.payload ∧
      c.arrived.take (c.reads.length + 1) = c.arrived.take c.reads.length ++ [d.payload] := by
  have hdrop : c.arrived.drop c.reads.length = d.payload :: queue.map Datagram.payload := by
    rw [← (h.stays hclose).2, hqueue, List.map_cons]
  refine ⟨hdrop, ?_⟩
  rw [List.take_add, hdrop]
  rfl

/-- A read that finds a datagram delivers it. -/
theorem Delivers.read (h : Delivers c) {dst : Bool} {maxlen : ℕ} {sender : Option SocketAddress}
    {fault : Option NetFault} (hclose : c.isCloseCalled = true → c.socket.sock = noSocket)
    (hplain : Plain c (.read dst maxlen sender fault)) :
    Delivers (c.read dst maxlen sender fault) := by
  by_cases htakes : c.socket.Takes dst maxlen fault
  · have hcalled : c.isCloseCalled = false :=
      Bool.eq_false_iff.mpr fun hcalled => htakes.2.2.2.1 (hclose hcalled)
    obtain ⟨d, queue, hqueue⟩ : ∃ d queue, c.socket.queue = d :: queue :=
      List.exists_cons_of_ne_nil (by simpa using htakes.2.2.2.2)
    obtain ⟨hdrop, htaken⟩ := h.next hcalled hqueue
    obtain ⟨hne, hfits⟩ := hplain dst maxlen sender fault rfl htakes d (by rw [hqueue]; rfl)
    obtain ⟨hdata, hsocket⟩ := doRead_takes htakes hqueue sender
    have htake : d.payload.take (Socket.socketIosize maxlen) = d.payload.take maxlen :=
      take_socketIosize hfits
    have hopen : d.payload.take maxlen ≠ [] := by
      obtain ⟨a, rest, hpayload⟩ := List.exists_cons_of_ne_nil hne
      obtain ⟨n, hn⟩ := Nat.exists_eq_succ_of_ne_zero htakes.2.1
      rw [hpayload, hn, List.take_succ_cons]
      exact List.cons_ne_nil _ _
    rw [htake] at hdata hsocket
    rw [if_neg hopen] at hsocket
    have hread : c.read dst maxlen sender fault =
        { c with
          socket := { c.socket with queue := queue }
          reads := c.reads ++ [(maxlen, d.payload.take maxlen)] } := by
      rw [Client.read, if_pos htakes, hdata, hsocket]
      rfl
    rw [hread]
    refine ⟨?_, fun _ => ⟨(h.stays hcalled).1, ?_⟩⟩
    · dsimp only
      rw [List.length_append, List.length_singleton, htaken]
      exact List.rel_append h.inOrder (.cons rfl .nil)
    · dsimp only
      rw [List.length_append, List.length_singleton, ← List.drop_drop, hdrop]
      rfl
  · have hsame : c.read dst maxlen sender fault = c := by
      rw [Client.read, doRead_keeps htakes, if_neg htakes]
    rw [hsame]
    exact h

theorem Delivers.close (h : Delivers c) : Delivers (c.after .close) :=
  ⟨h.inOrder, fun hopen => by cases hopen⟩

/-- A datagram that is empty closes the socket, and one that is cut by a length that does not fit
is not delivered as far as was asked for. -/
theorem not_delivers {e : Event} (h : Delivers c) (hclose : c.isCloseCalled = false)
    (hbad : ¬ Plain c e) : ¬ Delivers (c.after e) := by
  intro hafter
  simp only [Plain, not_forall] at hbad
  obtain ⟨dst, maxlen, sender, fault, rfl, htakes, d, hd, hbad⟩ := hbad
  obtain ⟨queue, hqueue⟩ : ∃ queue, c.socket.queue = d :: queue := by
    obtain ⟨e, queue, hqueue⟩ := List.exists_cons_of_ne_nil
      (by simpa using htakes.2.2.2.2 : c.socket.queue ≠ [])
    rw [hqueue] at hd
    exact ⟨queue, by rw [hqueue, Option.some.inj hd]⟩
  obtain ⟨hdata, hsocket⟩ := doRead_takes htakes hqueue sender
  by_cases hne : d.payload = []
  · rw [hne, List.take_nil, if_pos rfl] at hsocket
    have hopen := (hafter.stays hclose).1
    rw [after, Client.read, hsocket] at hopen
    cases hopen
  · obtain ⟨hle, hlt⟩ := not_or.mp fun hfits => hbad ⟨hne, hfits⟩
    have hreads : (c.after (.read dst maxlen sender fault)).reads =
        c.reads ++ [(maxlen, d.payload.take (Socket.socketIosize maxlen))] := by
      rw [after, Client.read, if_pos htakes, hdata]
      rfl
    have hlen : (c.arrived.take c.reads.length).length = c.reads.length :=
      List.length_take_of_le h.length_le
    have hlast := List.forall₂_drop c.reads.length hafter.inOrder
    rw [hreads, List.length_append, List.length_singleton, List.drop_left] at hlast
    change List.Forall₂ _ _ ((c.arrived.take (c.reads.length + 1)).drop c.reads.length) at hlast
    rw [(h.next hclose hqueue).2, List.drop_left' hlen, List.forall₂_cons] at hlast
    have hcut := congrArg List.length hlast.1
    simp only [List.length_take, Socket.socketIosize] at hcut
    omega

/-- **Datagrams.** Whatever arrives and whatever is called, each datagram that is read is
delivered in order, cut to the length asked for, and the socket stays open until it is closed
locally, if no datagram that is read is empty or cut by a length that does not fit. -/
theorem delivers {sock : ℤ} (hsock : sock ≠ noSocket) (h : (clients sock).Reach Plain c) :
    Delivers c := by
  refine (Machine.Reach.invariant
    (I := fun c => Delivers c ∧ (c.isCloseCalled = true → c.socket.sock = noSocket))
    ⟨⟨.nil, fun _ => ⟨?_, rfl⟩⟩, fun h => by cases h⟩ (fun c e c' hc hplain hnext => ?_) h).1
  · exact beq_false_of_ne hsock
  · obtain ⟨hdelivers, hclose⟩ := hc
    obtain rfl := Option.some.inj hnext
    cases e with
    | arrive d =>
        refine ⟨hdelivers.arrive d, fun hcalled => ?_⟩
        have hcalled' : c.isCloseCalled = true := by
          rw [after, Client.arrive] at hcalled
          split at hcalled <;> exact hcalled
        rw [after, Client.arrive, if_pos (hclose hcalled')]
        exact hclose hcalled'
    | waitFor fault => exact ⟨hdelivers, hclose⟩
    | read dst maxlen sender fault =>
        refine ⟨hdelivers.read hclose hplain, fun hcalled => ?_⟩
        have htakes : ¬ c.socket.Takes dst maxlen fault := fun htakes =>
          htakes.2.2.2.1 (hclose hcalled)
        change (c.socket.doRead dst maxlen sender fault).2.2.sock = noSocket
        rw [doRead_keeps htakes]
        exact hclose hcalled
    | close =>
        refine ⟨hdelivers.close, fun _ => ?_⟩
        change c.socket.doClose.sock = noSocket
        rw [doClose]
        split
        next => rfl
        next h => exact not_not.mp h

/-- A datagram that is cut to three bytes. -/
theorem delivers_cut :
    Delivers ⟨⟨5, []⟩, [bytes "abcd"], [(3, bytes "abc")], false⟩ := by
  have harrive : (clients 5).Reach Plain
      ⟨⟨5, [⟨bytes "abcd", .empty⟩]⟩, [bytes "abcd"], [], false⟩ :=
    .step .start (e := .arrive ⟨bytes "abcd", .empty⟩) (fun _ _ _ _ h => by cases h) rfl
  have htakes : (⟨5, [⟨bytes "abcd", .empty⟩]⟩ : UdpClient).Takes true 3 none :=
    ⟨rfl, by decide, rfl, by decide, rfl⟩
  refine delivers (by decide) (harrive.step (e := .read true 3 none none) ?_ ?_)
  · rintro _ _ _ _ h - d hd
    obtain rfl := Option.some.inj hd
    injection h with _ hmaxlen
    exact ⟨by decide, .inl (hmaxlen ▸ by decide)⟩
  · obtain ⟨hdata, hsocket⟩ := doRead_takes htakes rfl none
    change some (Client.read _ true 3 none none) = _
    rw [Client.read, hdata, hsocket, if_pos htakes]
    rfl

/-- An empty datagram closes the socket. -/
theorem delivers_fails :
    ¬ ∀ (sock : ℤ) (c : Client), sock ≠ noSocket → (clients sock).Reachable c → Delivers c := by
  intro hall
  have harrive : (clients 5).Reachable ⟨⟨5, [⟨[], .empty⟩]⟩, [[]], [], false⟩ :=
    .step .start (e := .arrive ⟨[], .empty⟩) trivial rfl
  have hread := hall 5 _ (by decide) (harrive.step (e := .read true 10 none none) trivial rfl)
  have hopen := (hread.stays rfl).1
  have htakes : (⟨5, [⟨[], .empty⟩]⟩ : UdpClient).Takes true 10 none :=
    ⟨rfl, by decide, rfl, by decide, rfl⟩
  obtain ⟨-, hsocket⟩ := doRead_takes htakes rfl none
  change (UdpClient.doRead _ true 10 none none).2.2.isClosed = false at hopen
  rw [hsocket] at hopen
  cases hopen

end Client

end UdpClient

end RsIo
