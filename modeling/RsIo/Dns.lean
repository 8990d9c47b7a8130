import RsIo.Growing
import RsIo.OrderedSet
import RsIo.SocketAddress
import Mathlib.Data.List.Lex

/-!
# Looking up Host Names

`Dns::host_to_ips` makes a list of the addresses that `getaddrinfo()` knows for a name. It leaves
out null addresses, and those that a `std::set` of the addresses so far has already.
`Dns::ip_to_host` asks `getnameinfo()` for the name of an address, with a larger buffer each time
that the name does not fit.

The comparison of socket addresses is that of the bytes they use, one by one, where a part in
front is less than the whole.

## Main results

* `SocketAddress.lessThan_iff`, `SocketAddress.equal_iff`: the comparison as an order of lists.
* `SocketAddress.toBool_eq_false_iff`: which addresses are null.
* `Dns.hostToIps_eq`: the list for a name is that of the different addresses that are not null.
* `Dns.ipToHost_whole`: the name for an address is not cut off, however long it is.
-/

namespace RsIo

open StdString

/-- `IPv4::value`. -/
def IPv4.value (ip : IPv4) : ℕ := readBE ip.bytes

namespace SocketAddress

/-! ### Comparison -/

/-- `operator<`. -/
def lessThan (a b : SocketAddress) : Bool :=
  memCompare a.sa a.currentSize b.sa b.currentSize < 0

/-- The bytes that an address uses. -/
def used (a : SocketAddress) : Bytes := a.sa.take a.currentSize

/-- `bernstein_hash`. -/
def bernsteinHash (b : Bytes) : UInt32 := b.foldl (fun hash c => 33 * hash + c.toUInt32) 5381

/-- `SocketAddress::hash`. -/
def hash (a : SocketAddress) : UInt32 := bernsteinHash (a.sa.take a.currentSize)

/-- The order of lists, which is that of a dictionary. -/
def key (a : SocketAddress) : List ℕ := a.used.map UInt8.toNat

/-- An address uses as many bytes as its family needs. -/
theorem length_used (a : SocketAddress) : a.used.length = a.currentSize := by
  have hlen := a.length_sa
  have hle := a.size_le
  rw [used, List.length_take]
  omega

/-- A comparison looks at no more bytes than both have. -/
theorem memcmp_take (u v : Bytes) :
    memcmp (u.take (min u.length v.length)) (v.take (min u.length v.length)) = memcmp u v := by
  induction u generalizing v with
  | nil => simp [memcmp]
  | cons c u ih =>
      cases v with
      | nil => simp [memcmp]
      | cons d v =>
          rw [List.length_cons, List.length_cons, Nat.add_min_add_right, List.take_succ_cons,
            List.take_succ_cons, memcmp, memcmp, ih]

/-- Equal blocks of memory have equal bytes. -/
theorem memcmp_eq_zero_iff {u v : Bytes} (h : u.length = v.length) : memcmp u v = 0 ↔ u = v := by
  induction u generalizing v with
  | nil => simp [memcmp, List.length_eq_zero_iff.mp h.symm]
  | cons c u ih =>
      cases v with
      | nil => cases h
      | cons d v =>
          rw [memcmp, List.cons.injEq, ← ih (Nat.succ.inj h)]
          split
          next hlt => simp [UInt8.ne_of_lt hlt]
          next hnlt =>
            split
            next hgt => simp [(UInt8.ne_of_lt hgt).symm]
            next hngt => simp [UInt8.le_antisymm (UInt8.not_lt.mp hngt) (UInt8.not_lt.mp hnlt)]

/-- `mem_compare` of two whole lists is their order. -/
theorem memCompare_lists (u v : Bytes) :
    (memCompare u u.length v v.length < 0 ↔ u.map UInt8.toNat < v.map UInt8.toNat) ∧
      (memCompare u u.length v v.length = 0 ↔ u = v) := by
  simp only [memCompare, memcmp_take]
  induction u generalizing v with
  | nil => cases v <;> simp [memcmp]
  | cons c u ih =>
      cases v with
      | nil => simp [memcmp]
      | cons d v =>
          obtain ⟨ihlt, iheq⟩ := ih v
          rw [memcmp, List.map_cons, List.map_cons, List.cons_lt_cons_iff, List.cons.injEq]
          simp only [UInt8.lt_iff_toNat_lt]
          rcases Nat.lt_trichotomy c.toNat d.toNat with hcd | hcd | hcd
          · have hne : c ≠ d := fun h => hcd.ne (congrArg UInt8.toNat h)
            simp [hcd, hne]
          · have heq : c = d := UInt8.toNat_inj.mp hcd
            simp only [Nat.lt_irrefl, if_false, List.length_cons, Nat.succ_lt_succ_iff,
              gt_iff_lt, true_and, false_or, heq]
            exact ⟨ihlt, iheq⟩
          · have hne : c ≠ d := fun h => hcd.ne (congrArg UInt8.toNat h).symm
            simp [hcd, hcd.asymm, hne, hcd.ne']

/-- Only the bytes that the addresses use are compared. -/
theorem memCompare_used (a b : SocketAddress) :
    memCompare a.sa a.currentSize b.sa b.currentSize =
      memCompare a.used a.used.length b.used b.used.length := by
  have htake : ∀ c : SocketAddress, ∀ n ≤ c.currentSize, c.used.take n = c.sa.take n := by
    intro c n hn
    rw [used, List.take_take, Nat.min_eq_left hn]
  rw [memCompare, memCompare, length_used, length_used, htake a _ (Nat.min_le_left ..),
    htake b _ (Nat.min_le_right ..)]

/-- `operator<` is the order of the bytes that the addresses use. -/
theorem lessThan_iff (a b : SocketAddress) : a.lessThan b = true ↔ a.key < b.key := by
  rw [lessThan, memCompare_used, decide_eq_true_iff]
  exact (memCompare_lists a.used b.used).1

/-- `operator==` is the equality of the bytes that the addresses use. -/
theorem equal_iff (a b : SocketAddress) : a.equal b = true ↔ a.used = b.used := by
  rw [equal, memCompare_used, beq_iff_eq]
  exact (memCompare_lists a.used b.used).2

/-- The order is that of the bytes that are used. -/
theorem key_eq_iff (a b : SocketAddress) : a.key = b.key ↔ a.equal b = true := by
  rw [equal_iff, key, key]
  exact (List.map_injective_iff.mpr fun _ _ => UInt8.toNat_inj.mp).eq_iff

/-- No address is less than itself. -/
theorem not_lessThan_self (a : SocketAddress) : a.lessThan a = false := by
  rw [← Bool.not_eq_true, lessThan_iff]
  exact lt_irrefl _

/-- The order is transitive. -/
theorem lessThan_trans {a b c : SocketAddress} (hab : a.lessThan b = true)
    (hbc : b.lessThan c = true) : a.lessThan c = true := by
  rw [lessThan_iff] at hab hbc ⊢
  exact hab.trans hbc

/-- Two addresses of which neither is less are equal. -/
theorem incomparable_iff (a b : SocketAddress) :
    (a.lessThan b = false ∧ b.lessThan a = false) ↔ a.equal b = true := by
  rw [← Bool.not_eq_true, ← Bool.not_eq_true, lessThan_iff, lessThan_iff, ← key_eq_iff, not_lt,
    not_lt, and_comm]
  exact le_antisymm_iff.symm

/-- Equal addresses have equal hash values. -/
theorem hash_eq_of_equal {a b : SocketAddress} (h : a.equal b = true) : a.hash = b.hash :=
  congrArg bernsteinHash ((equal_iff a b).mp h)

/-! ### Null addresses -/

/-- The constructor from the memory of a native address. -/
def ofNative (b : Bytes) : SocketAddress :=
  empty
    |>.assign 0 (b.take (min b.length maxSize)) (by rw [List.length_take]; omega)
    |>.resize (min b.length maxSize) (Nat.min_le_right ..)

/-- `operator bool`. -/
def toBool (a : SocketAddress) : Bool :=
  if a.family = 0 then false
  else if a.family = afInet then a.ipv4.value != (IPv4.ofNat32 0).value || a.port != 0
  else if a.family = afInet6 then memcmp a.ipv6.bytes (List.replicate 16 0) != 0 || a.port != 0
  else (a.used.drop sockaddrSize).any (· != 0)

/-- All bytes are zero. -/
def IsZero (b : Bytes) : Prop := ∀ c ∈ b, c = 0

/-- An address without a family, or whose address and port are zero, or of an unknown family with
zeros behind what all families have. -/
inductive IsNull (a : SocketAddress) : Prop
  | none : a.family = 0 → IsNull a
  | inet : a.family = afInet → IsZero (peek a.sa 4 4) → IsZero (peek a.sa 2 2) → IsNull a
  | inet6 : a.family = afInet6 → IsZero (peek a.sa 8 16) → IsZero (peek a.sa 2 2) → IsNull a
  | other : a.family ≠ afInet → a.family ≠ afInet6 → IsZero (a.used.drop sockaddrSize) → IsNull a

/-- The port is zero if both of its bytes are. -/
theorem port_eq_zero_iff {a : SocketAddress} (h : a.family = afInet ∨ a.family = afInet6) :
    a.port = 0 ↔ IsZero (peek a.sa 2 2) := by
  rw [SocketAddress.port, if_pos h, readBE_eq_zero_iff, IsZero]

/-- An IPv4 address is zero if its four bytes are. -/
theorem value_eq_zero_iff {a : SocketAddress} (h : a.family = afInet) :
    a.ipv4.value = 0 ↔ IsZero (peek a.sa 4 4) := by
  have hbytes : a.ipv4.bytes = peek a.sa 4 4 := by
    have hread := beBytes_readBE (peek a.sa 4 4)
    rw [a.length_peek (by decide)] at hread
    rw [ipv4, if_pos h]
    exact hread
  rw [IPv4.value, hbytes, readBE_eq_zero_iff, IsZero]

/-- An IPv6 address is zero if its sixteen bytes are. -/
theorem memcmp_zero_iff {a : SocketAddress} (h : a.family = afInet6) :
    memcmp a.ipv6.bytes (List.replicate 16 0) = 0 ↔ IsZero (peek a.sa 8 16) := by
  have hlen : (peek a.sa 8 16).length = 16 := a.length_peek (by decide)
  rw [ipv6, if_pos h, memcmp_eq_zero_iff (by rw [hlen, List.length_replicate]),
    List.eq_replicate_iff, and_iff_right hlen, IsZero]

/-- `operator bool` is false for the null addresses. -/
theorem toBool_eq_false_iff (a : SocketAddress) : a.toBool = false ↔ a.IsNull := by
  have hvalue : (IPv4.ofNat32 0).value = 0 := by decide
  rw [toBool]
  split
  next hnone => exact iff_of_true rfl (.none hnone)
  next hsome =>
    split
    next hinet =>
      rw [Bool.or_eq_false_iff, bne_eq_false_iff_eq, bne_eq_false_iff_eq, hvalue,
        value_eq_zero_iff hinet, port_eq_zero_iff (.inl hinet)]
      constructor
      · intro h
        exact .inet hinet h.1 h.2
      · intro h
        cases h with
        | none h => exact absurd h hsome
        | inet _ hip hport => exact ⟨hip, hport⟩
        | inet6 h => exact absurd (hinet.symm.trans h) (by decide)
        | other h => exact absurd hinet h
    next hinet =>
      split
      next hinet6 =>
        rw [Bool.or_eq_false_iff, bne_eq_false_iff_eq, bne_eq_false_iff_eq,
          memcmp_zero_iff hinet6, port_eq_zero_iff (.inr hinet6)]
        constructor
        · intro h
          exact .inet6 hinet6 h.1 h.2
        · intro h
          cases h with
          | none h => exact absurd h hsome
          | inet h => exact absurd h hinet
          | inet6 _ hip hport => exact ⟨hip, hport⟩
          | other _ h => exact absurd hinet6 h
      next hinet6 =>
        have hzero : (a.used.drop sockaddrSize).any (· != 0) = false ↔
            IsZero (a.used.drop sockaddrSize) := by
          simp [IsZero]
        rw [hzero]
        constructor
        · intro h
          exact .other hinet hinet6 h
        · intro h
          cases h with
          | none h => exact absurd h hsome
          | inet h => exact absurd h hinet
          | inet6 h => exact absurd h hinet6
          | other _ _ h => exact h

end SocketAddress

namespace Dns

/-- `EAI_NONAME`. -/
def eaiNoname : ℤ := -2

/-- `EAI_AGAIN`. -/
def eaiAgain : ℤ := -3

/-- `EAI_SYSTEM`. -/
def eaiSystem : ℤ := -11

/-- A `std::system_error`, of the generic category or of the one for the results of
`getaddrinfo()`. -/
inductive Error
  | generic (err : ℕ) (call : String)
  | addrinfo (rc : ℤ) (call : String)
  deriving DecidableEq, Repr

/-- What `getaddrinfo()` leaves behind: its result, `errno`, and the native addresses in the
list of the records. -/
structure Lookup where
  rc : ℤ
  err : ℕ
  info : List Bytes

/-- The loop of `host_to_ips` over the records, with the addresses and the set so far. -/
def hostLoop (addrs seen : List SocketAddress) : List Bytes → List SocketAddress
  | [] => addrs
  | ai :: info =>
      let sa := SocketAddress.ofNative ai
      if sa.toBool then
        let r := OrderedSet.insert SocketAddress.lessThan sa seen
        if r.2 then hostLoop (addrs ++ [sa]) r.1 info else hostLoop addrs r.1 info
      else
        hostLoop addrs seen info

/-- `Dns::host_to_ips`. -/
def hostToIps (getaddrinfo : Bytes → ℤ → Lookup) (name : Bytes) (family : ℤ) :
    Except Error (List SocketAddress) :=
  let r := getaddrinfo (nullTerm name) family
  if r.rc = 0 then .ok (hostLoop [] [] r.info)
  else if r.rc = eaiAgain then .ok []
  else if r.rc = eaiNoname then .ok []
  else if r.rc = eaiSystem then .error (.generic r.err "getaddrinfo()")
  else .error (.addrinfo r.rc "getaddrinfo()")

/-- The loop adds the addresses whose insertion succeeds. -/
theorem hostLoop_eq (addrs seen : List SocketAddress) (info : List Bytes) :
    hostLoop addrs seen info = addrs ++ OrderedSet.firsts SocketAddress.lessThan seen
      ((info.map SocketAddress.ofNative).filter SocketAddress.toBool) := by
  induction info generalizing addrs seen with
  | nil => exact (List.append_nil addrs).symm
  | cons ai info ih =>
      rw [hostLoop, List.map_cons]
      split
      next hbool =>
        rw [List.filter_cons_of_pos hbool, OrderedSet.firsts]
        dsimp only
        split
        · rw [ih, List.append_assoc, List.singleton_append]
        · rw [ih]
      next hbool =>
        rw [List.filter_cons_of_neg hbool, ih]

/-- The different addresses of a list, each where it stands first. -/
theorem firsts_lessThan (xs : List SocketAddress) :
    OrderedSet.firsts SocketAddress.lessThan [] xs = xs.eraseDupsBy SocketAddress.equal := by
  have hnew : OrderedSet.isNew SocketAddress.key [] = fun _ => true := rfl
  have hequal : ∀ a b : SocketAddress, a.equal b = true ↔ a.key = b.key :=
    fun a b => (SocketAddress.key_eq_iff a b).symm
  rw [OrderedSet.firsts_eq SocketAddress.lessThan_iff hequal List.Pairwise.nil, hnew,
    List.filter_true]

/-- The list for a name has the different addresses that are not null, in the order of the
records. `operator<` is a strict total order up to `operator==`, with which the hash agrees. -/
theorem hostToIps_eq (getaddrinfo : Bytes → ℤ → Lookup) (name : Bytes) (family : ℤ) :
    ((getaddrinfo (nullTerm name) family).rc = 0 →
      hostToIps getaddrinfo name family =
        .ok ((((getaddrinfo (nullTerm name) family).info.map SocketAddress.ofNative).filter
          SocketAddress.toBool).eraseDupsBy SocketAddress.equal)) ∧
      (∀ a : SocketAddress, a.toBool = false ↔ a.IsNull) ∧
      (∀ a : SocketAddress, a.lessThan a = false) ∧
      (∀ a b c : SocketAddress,
        a.lessThan b = true → b.lessThan c = true → a.lessThan c = true) ∧
      (∀ a b : SocketAddress,
        (a.lessThan b = false ∧ b.lessThan a = false) ↔ a.equal b = true) ∧
      ∀ a b : SocketAddress, a.equal b = true → a.hash = b.hash := by
  refine ⟨fun hrc => ?_, SocketAddress.toBool_eq_false_iff, SocketAddress.not_lessThan_self,
    fun _ _ _ => SocketAddress.lessThan_trans, SocketAddress.incomparable_iff,
    fun _ _ => SocketAddress.hash_eq_of_equal⟩
  rw [hostToIps, if_pos hrc, hostLoop_eq, List.nil_append, firsts_lessThan]

/-- Two records of 127.0.0.1, around that of the null address. -/
theorem hostToIps_localhost :
    hostToIps (fun _ _ => ⟨0, 0, [
        [2, 0, 0, 0, 127, 0, 0, 1, 0, 0, 0, 0, 0, 0, 0, 0],
        [2, 0, 0, 0, 0, 0, 0, 0, 0, 0, 0, 0, 0, 0, 0, 0],
        [2, 0, 0, 0, 127, 0, 0, 1, 0, 0, 0, 0, 0, 0, 0, 0]]⟩) [] 0 =
      .ok [SocketAddress.ofIPv4 ⟨[127, 0, 0, 1], rfl⟩] :=
  ((hostToIps_eq _ [] 0).1 rfl).trans (by rfl)

/-! ### The name of an address -/

/-- `EAI_OVERFLOW`. -/
def eaiOverflow : ℤ := -12

/-- What `getnameinfo()` finds for an address: its result, `errno`, and the name. -/
structure Reverse where
  rc : ℤ
  err : ℕ
  host : Bytes

/-- The switch in the loop of `ip_to_host`. -/
def nameSwitch (rc : ℤ) (err : ℕ) (name : Bytes) : Option (Except Error Bytes) :=
  if rc = 0 then some (.ok (nullTerm name))
  else if rc = eaiAgain then some (.ok [])
  else if rc = eaiNoname then some (.ok [])
  else if rc = eaiOverflow then none
  else if rc = eaiSystem then some (.error (.generic err "getnameinfo()"))
  else some (.error (.addrinfo rc "getnameinfo()"))

/-- One round of the loop. The name and the zero behind it are written to a buffer of `n` bytes, if
they fit. -/
def nameRound (found : Reverse) (n : ℕ) : Option (Except Error Bytes) :=
  if found.rc = 0 ∧ n ≤ found.host.length then
    nameSwitch eaiOverflow found.err (List.replicate n 0)
  else
    nameSwitch found.rc found.err (found.host ++ List.replicate (n - found.host.length) 0)

/-- `Dns::ip_to_host`, where call number `i` of `getnameinfo()` finds `getnameinfo _ i`. -/
def ipToHost (getnameinfo : Bytes → ℕ → Reverse) (rounds : ℕ) (addr : SocketAddress) :
    Option (Except Error Bytes) :=
  Growing.run (2 * ·) (fun i => nameRound (getnameinfo addr.used i)) rounds 100

/-- The name of an address, if there is one. -/
def hostOf (found : Reverse) : Except Error Bytes :=
  if found.rc = 0 then .ok found.host
  else if found.rc = eaiAgain then .ok []
  else if found.rc = eaiNoname then .ok []
  else if found.rc = eaiSystem then .error (.generic found.err "getnameinfo()")
  else .error (.addrinfo found.rc "getnameinfo()")

/-- How large the buffer has to be. -/
def nameRoom (found : Reverse) : ℕ := if found.rc = 0 then found.host.length + 1 else 0

/-- The buffers are large enough, or have to grow. -/
theorem nameRound_eq {found : Reverse} (hover : found.rc ≠ eaiOverflow) (hzero : 0 ∉ found.host)
    (n : ℕ) : nameRound found n = if nameRoom found ≤ n then some (hostOf found) else none := by
  by_cases hrc : found.rc = 0
  · have hroom : nameRoom found = found.host.length + 1 := if_pos hrc
    rw [nameRound, hroom, hostOf, if_pos hrc]
    by_cases hfits : n ≤ found.host.length
    · rw [if_pos ⟨hrc, hfits⟩, if_neg (by omega)]
      rfl
    · have hpad : n - found.host.length = n - found.host.length - 1 + 1 := by omega
      rw [if_neg (fun h => hfits h.2), if_pos (by omega), nameSwitch, if_pos hrc, hpad,
        List.replicate_succ, nullTerm_append hzero]
  · have hroom : nameRoom found = 0 := if_neg hrc
    rw [nameRound, hroom, hostOf, if_neg fun h => hrc h.1, nameSwitch, if_neg hrc, if_neg hrc,
      if_neg hover, if_pos n.zero_le]
    simp only [apply_ite some]

/-- The loop of `ip_to_host` ends, if one of its calls has room for the name, and with the whole
name that the last call finds. -/
theorem ipToHost_whole {getnameinfo : Bytes → ℕ → Reverse} {addr : SocketAddress} {rounds k : ℕ}
    (hover : ∀ i, (getnameinfo addr.used i).rc ≠ eaiOverflow)
    (hzero : ∀ i, 0 ∉ (getnameinfo addr.used i).host) (hk : k < rounds)
    (hroom : nameRoom (getnameinfo addr.used k) ≤ 2 ^ k * 100) :
    ∃ j ≤ k, ipToHost getnameinfo rounds addr = some (hostOf (getnameinfo addr.used j)) := by
  have hcall : ∀ i m, 100 ≤ m → nameRound (getnameinfo addr.used i) m =
      if nameRoom (getnameinfo addr.used i) ≤ m then some (hostOf (getnameinfo addr.used i))
        else none :=
    fun i m _ => nameRound_eq (hover i) (hzero i) m
  obtain ⟨j, hj, hrun, -⟩ := Growing.run_double hcall hk hroom
  exact ⟨j, hj, hrun⟩

end Dns

end RsIo
