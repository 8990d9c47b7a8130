import RsIo.Decimal
import RsIo.Errno
import RsIo.Memory
import RsIo.StdString

/-!
# Socket Addresses

`class SocketAddress` wraps the union of the address structures of the system, of which it
uses the first `size()` bytes. The layout is that of a host with the other byte order than
the network, and with `sockaddr_in6` as the largest member of the union.

`inet_ntop()` and `inet_pton()` are not part of the repository. `InetLibs` stands for them
and states what is relied on here: one inverts the other, an IPv4 address is written in
dotted decimal, and what is written for an IPv6 address has no bracket that closes it.

## Main results

* `ofString_str`: the string of an address and a port is read back as the same bytes.
-/

namespace RsIo

open StdString

/-- `AF_INET`. -/
def afInet : ℕ := 2

/-- `AF_INET6`. -/
def afInet6 : ℕ := 10

/-- The character `[`. -/
def openBracket : UInt8 := 91

/-- The character `]`. -/
def closeBracket : UInt8 := 93

/-- The exceptions of the network classes: `std::invalid_argument` with the string that its
message quotes, and `std::system_error`. -/
inductive NetError
  | invalidArgument (what : String) (quoted : Bytes)
  | system (err : ℕ) (call : String)
  deriving DecidableEq, Repr

/-- The bytes are an address of the family. -/
def IsAddress (family : ℕ) (b : Bytes) : Prop :=
  family = afInet ∧ b.length = 4 ∨ family = afInet6 ∧ b.length = 16

/-- An IPv4 address in dotted decimal. -/
def dotted (a b c d : UInt8) : Bytes :=
  toDecimal a.toNat ++ dot :: (toDecimal b.toNat ++ dot :: (toDecimal c.toNat ++
    dot :: toDecimal d.toNat))

/-- The address functions of the system. `inet_ntop()` leaves the C string of an address in
a buffer if it fits, and `inet_pton()` reads one. -/
structure InetLibs where
  text : ℕ → Bytes → Bytes
  inetNtop : ℕ → Bytes → ℕ → Except ℕ Bytes
  inetPton : ℕ → Bytes → Except ℕ (Option Bytes)
  inetNtop_fits : ∀ family b size, IsAddress family b → (text family b).length < size →
    ∃ rest, inetNtop family b size = .ok (text family b ++ 0 :: rest)
  inetNtop_short : ∀ family b size, IsAddress family b → size ≤ (text family b).length →
    inetNtop family b size = .error eNoSpc
  inetPton_text : ∀ family b, IsAddress family b → inetPton family (text family b) = .ok (some b)
  isAddress_of_inetPton : ∀ family s b, inetPton family s = .ok (some b) → IsAddress family b
  zero_notMem_text : ∀ family b, IsAddress family b → 0 ∉ text family b
  text_inet : ∀ a b c d, text afInet [a, b, c, d] = dotted a b c d
  closeBracket_notMem_text : ∀ b, b.length = 16 → closeBracket ∉ text afInet6 b

/-- A `std::string` as a C string, and `null_term`: what stands in front of the first zero. -/
def nullTerm (s : Bytes) : Bytes := s.takeWhile (· != 0)

/-- A string ends before the first zero. -/
theorem nullTerm_append {s : Bytes} (h : 0 ∉ s) (rest : Bytes) :
    nullTerm (s ++ 0 :: rest) = s := by
  rw [nullTerm, List.takeWhile_append_of_pos, List.takeWhile_cons_of_neg (by simp), List.append_nil]
  intro c hc
  rw [bne_iff_ne]
  rintro rfl
  exact h hc

/-- A string without zeros does not end before its end. -/
theorem nullTerm_of_notMem {s : Bytes} (h : 0 ∉ s) : nullTerm s = s := by
  rw [nullTerm, List.takeWhile_eq_self_iff]
  intro c hc
  rw [bne_iff_ne]
  rintro rfl
  exact h hc

/-! ### IP addresses -/

/-- `IPv4`: the bytes in network order. -/
@[ext]
structure IPv4 where
  bytes : Bytes
  length_bytes : bytes.length = 4

/-- `IPv6`. -/
@[ext]
structure IPv6 where
  bytes : Bytes
  length_bytes : bytes.length = 16

/-- The constructor of `IPv4` from a number. -/
def IPv4.ofNat32 (addr : ℕ) : IPv4 := ⟨beBytes 4 addr, length_beBytes 4 addr⟩

/-- The loop of `IPv4::str` and `IPv6::str`, which makes the buffer larger until the text of
the address fits. -/
def textLoop (lib : InetLibs) {family : ℕ} {b : Bytes} (h : IsAddress family b) (step : ℕ)
    (hstep : 0 < step) (size : ℕ) : Except NetError Bytes :=
  match _hrun : lib.inetNtop family b size with
  | .ok buffer => .ok (nullTerm buffer)
  | .error err =>
      if err = eNoSpc then textLoop lib h step hstep (size + step)
      else .error (.system err "inet_ntop()")
termination_by (lib.text family b).length + 1 - size
decreasing_by
  have hshort : size ≤ (lib.text family b).length := by
    by_contra hfits
    obtain ⟨rest, hok⟩ := lib.inetNtop_fits family b size h (Nat.lt_of_not_le hfits)
    rw [_hrun] at hok
    cases hok
  omega

/-- `inet_pton()` as the constructors call it. -/
def inetBytes (lib : InetLibs) (family : ℕ) (what : String) (s : Bytes) :
    Except NetError { b // IsAddress family b } :=
  match h : lib.inetPton family (nullTerm s) with
  | .error err => .error (.system err "inet_pton()")
  | .ok none => .error (.invalidArgument what s)
  | .ok (some b) => .ok ⟨b, lib.isAddress_of_inetPton family _ b h⟩

/-- `IPv4::str`. -/
def IPv4.str (lib : InetLibs) (ip : IPv4) : Except NetError Bytes :=
  textLoop lib (.inl ⟨rfl, ip.length_bytes⟩) 16 (by decide) 16

/-- `IPv6::str`. -/
def IPv6.str (lib : InetLibs) (ip : IPv6) : Except NetError Bytes :=
  textLoop lib (.inr ⟨rfl, ip.length_bytes⟩) 40 (by decide) 40

/-- The constructor of `IPv4` from a string. -/
def IPv4.ofString (lib : InetLibs) (s : Bytes) : Except NetError IPv4 :=
  (inetBytes lib afInet "Invalid IPv4 address: " s).map fun b =>
    ⟨b.1, (b.2.resolve_right fun h => absurd h.1 (by decide)).2⟩

/-- The constructor of `IPv6` from a string. -/
def IPv6.ofString (lib : InetLibs) (s : Bytes) : Except NetError IPv6 :=
  (inetBytes lib afInet6 "Invalid IPv6 address: " s).map fun b =>
    ⟨b.1, (b.2.resolve_left fun h => absurd h.1 (by decide)).2⟩

section Text

variable (lib : InetLibs)

/-- The loop ends with the text of the address. -/
theorem textLoop_eq {family : ℕ} {b : Bytes} (h : IsAddress family b) {step : ℕ}
    (hstep : 0 < step) (size : ℕ) : textLoop lib h step hstep size = .ok (lib.text family b) := by
  fun_induction textLoop lib h step hstep size with
  | case1 size buffer hrun =>
      by_cases hfits : (lib.text family b).length < size
      · obtain ⟨rest, hok⟩ := lib.inetNtop_fits family b size h hfits
        obtain rfl := Except.ok.inj (hrun.symm.trans hok)
        rw [nullTerm_append (lib.zero_notMem_text family b h)]
      · rw [lib.inetNtop_short family b size h (Nat.le_of_not_lt hfits)] at hrun
        cases hrun
  | case2 size _ ih => exact ih
  | case3 size err hrun herr =>
      by_cases hfits : (lib.text family b).length < size
      · obtain ⟨rest, hok⟩ := lib.inetNtop_fits family b size h hfits
        rw [hrun] at hok
        cases hok
      · rw [lib.inetNtop_short family b size h (Nat.le_of_not_lt hfits)] at hrun
        exact absurd (Except.error.inj hrun).symm herr

/-- `inet_pton` reads what `inet_ntop` wrote. -/
theorem inetBytes_text {family : ℕ} {b : Bytes} (h : IsAddress family b) (what : String) :
    inetBytes lib family what (lib.text family b) = .ok ⟨b, h⟩ := by
  have hpton : lib.inetPton family (nullTerm (lib.text family b)) = .ok (some b) := by
    rw [nullTerm_of_notMem (lib.zero_notMem_text family b h), lib.inetPton_text family b h]
  rw [inetBytes]
  split
  next hrun =>
    rw [hpton] at hrun
    cases hrun
  next hrun =>
    rw [hpton] at hrun
    cases hrun
  next b' hrun =>
    rw [hpton] at hrun
    obtain rfl : b = b' := by simpa using hrun
    rfl

/-- The text of an IPv4 address is what `inet_ntop` writes. -/
theorem IPv4.str_eq (ip : IPv4) : ip.str lib = .ok (lib.text afInet ip.bytes) := textLoop_eq ..

/-- The text of an IPv6 address is what `inet_ntop` writes. -/
theorem IPv6.str_eq (ip : IPv6) : ip.str lib = .ok (lib.text afInet6 ip.bytes) := textLoop_eq ..

/-- An IPv4 address is read back from its text. -/
theorem IPv4.ofString_text (ip : IPv4) : IPv4.ofString lib (lib.text afInet ip.bytes) = .ok ip := by
  rw [IPv4.ofString, inetBytes_text lib (.inl ⟨rfl, ip.length_bytes⟩)]
  rfl

/-- An IPv6 address is read back from its text. -/
theorem IPv6.ofString_text (ip : IPv6) :
    IPv6.ofString lib (lib.text afInet6 ip.bytes) = .ok ip := by
  rw [IPv6.ofString, inetBytes_text lib (.inr ⟨rfl, ip.length_bytes⟩)]
  rfl

end Text

/-! ### The union -/

/-- `SocketAddress::max_size`, the size of the union and of `sockaddr_in6`. -/
abbrev maxSize : ℕ := 28

/-- The size of `sockaddr` and of `sockaddr_in`. -/
def sockaddrSize : ℕ := 16

/-- A `SocketAddress`: the bytes of the union, and how many of them are used. -/
@[ext]
structure SocketAddress where
  sa : Bytes
  currentSize : ℕ
  length_sa : sa.length = maxSize
  size_le : currentSize ≤ maxSize

namespace SocketAddress

/-- The default constructor. -/
def empty : SocketAddress := ⟨List.replicate maxSize 0, 0, List.length_replicate, Nat.zero_le _⟩

/-- An assignment to a member of the union. -/
def assign (a : SocketAddress) (ofs : ℕ) (b : Bytes) (h : ofs + b.length ≤ maxSize) :
    SocketAddress :=
  { a with
    sa := poke a.sa ofs b
    length_sa := (length_poke (a.length_sa ▸ h)).trans a.length_sa }

/-- An assignment to `current_size_`. -/
def resize (a : SocketAddress) (n : ℕ) (h : n ≤ maxSize) : SocketAddress :=
  { a with currentSize := n, size_le := h }

/-- The constructor from an IPv4 address. -/
def ofIPv4 (ip : IPv4) (port : UInt16 := 0) : SocketAddress :=
  empty
    |>.assign 0 (leBytes 2 afInet) (by simp [maxSize])
    |>.assign 2 (beBytes 2 port.toNat) (by simp [maxSize])
    |>.assign 4 ip.bytes (by simp [maxSize, ip.length_bytes])
    |>.resize 16 (by simp [maxSize])

/-- The constructor from an IPv6 address. -/
def ofIPv6 (ip : IPv6) (port : UInt16 := 0) (flow scope : UInt32 := 0) : SocketAddress :=
  empty
    |>.assign 0 (leBytes 2 afInet6) (by simp [maxSize])
    |>.assign 2 (beBytes 2 port.toNat) (by simp [maxSize])
    |>.assign 4 (beBytes 4 flow.toNat) (by simp [maxSize])
    |>.assign 8 ip.bytes (by simp [maxSize, ip.length_bytes])
    |>.assign 24 (beBytes 4 scope.toNat) (by simp [maxSize])
    |>.resize 28 (by simp [maxSize])

/-- `SocketAddress::family`. -/
def family (a : SocketAddress) : ℕ :=
  if a.currentSize < sockaddrSize then 0 else readLE (peek a.sa 0 2)

/-- `SocketAddress::port`. -/
def port (a : SocketAddress) : ℕ :=
  if a.family = afInet ∨ a.family = afInet6 then readBE (peek a.sa 2 2) else 0

/-- As many bytes are read as were asked for. -/
theorem length_peek (a : SocketAddress) {ofs len : ℕ} (h : ofs + len ≤ maxSize) :
    (peek a.sa ofs len).length = len := by
  have hlen := a.length_sa
  rw [peek, List.length_take, List.length_drop]
  omega

/-- `SocketAddress::ipv4`. -/
def ipv4 (a : SocketAddress) : IPv4 :=
  if a.family = afInet then .ofNat32 (readBE (peek a.sa 4 4)) else .ofNat32 0

/-- `SocketAddress::ipv6`. -/
def ipv6 (a : SocketAddress) : IPv6 :=
  if a.family = afInet6 then ⟨peek a.sa 8 16, a.length_peek (by decide)⟩
  else ⟨List.replicate 16 0, List.length_replicate⟩

/-- `memcmp()` of as many bytes as both have. -/
def memcmp : Bytes → Bytes → ℤ
  | c :: a, d :: b => if c < d then -1 else if d < c then 1 else memcmp a b
  | _, _ => 0

/-- `Detail::mem_compare`. -/
def memCompare (lhs : Bytes) (n₁ : ℕ) (rhs : Bytes) (n₂ : ℕ) : ℤ :=
  let rc := memcmp (lhs.take (min n₁ n₂)) (rhs.take (min n₁ n₂))
  if rc < 0 then -1 else if rc > 0 then 1 else if n₁ < n₂ then -1 else if n₁ > n₂ then 1 else 0

/-- `operator==`. -/
def equal (a b : SocketAddress) : Bool := memCompare a.sa a.currentSize b.sa b.currentSize == 0

/-- `hex_bytes`. -/
def hexBytes (b : Bytes) : Bytes :=
  b.flatMap fun c : UInt8 => [hexDigit (c >>> 4).toNat, hexDigit (c &&& 15).toNat]

/-- `SocketAddress::str`. -/
def str (lib : InetLibs) (a : SocketAddress) : Except NetError Bytes :=
  if a.equal empty then .ok (bytes "null")
  else if a.family = afInet then
    (a.ipv4.str lib).map (· ++ colon :: toDecimal a.port)
  else if a.family = afInet6 then
    (a.ipv6.str lib).map fun ip => openBracket :: (ip ++ bytes "]:" ++ toDecimal a.port)
  else
    .ok (hexBytes (a.sa.take a.currentSize))

/-- `parse_port`. -/
def parsePort (s : Bytes) : Except NetError UInt16 :=
  let n := strtoull s
  if n.isOutOfRange ∨ n.stop ≠ s.length ∨ n.value > 65535 then
    .error (.invalidArgument "Invalid port number: " s)
  else
    .ok (.ofNat n.value)

/-- The constructor from a string. -/
def ofString (lib : InetLibs) (s : Bytes) : Except NetError SocketAddress :=
  let invalid : Except NetError SocketAddress :=
    .error (.invalidArgument "Invalid socket address: " s)
  match s.head? with
  | none => invalid
  | some first =>
      if isDigit first then
        match findIf (· == colon) s 0 with
        | none => (IPv4.ofString lib s).map (ofIPv4 ·)
        | some i =>
            if (findIf (· == colon) s (i + 1)).isSome then
              (IPv6.ofString lib s).map (ofIPv6 ·)
            else do
              let ip ← IPv4.ofString lib (s.take i)
              let port ← parsePort (s.drop (i + 1))
              return ofIPv4 ip port
      else if first == openBracket then
        match findIf (· == closeBracket) s 0 with
        | none => invalid
        | some close => do
            let ip ← IPv6.ofString lib (substr s 1 (close - 1))
            let port ← (if close + 2 < s.length then parsePort (s.drop (close + 2)) else .ok 0)
            return ofIPv6 ip port
      else
        invalid

/-! ### Reading the members -/

section Members

variable {a : SocketAddress} {ofs : ℕ} {b : Bytes} {h : ofs + b.length ≤ maxSize}

/-- Bytes are read where they were written. -/
theorem peek_assign {len : ℕ} (hlen : len = b.length) : peek (a.assign ofs b h).sa ofs len = b := by
  rw [hlen]
  exact peek_poke (a.length_sa ▸ h)

/-- Other bytes are not changed by a write. -/
theorem peek_assign_of_disjoint {ofs' len : ℕ}
    (hdisjoint : ofs' + len ≤ ofs ∨ ofs + b.length ≤ ofs') :
    peek (a.assign ofs b h).sa ofs' len = peek a.sa ofs' len :=
  peek_poke_of_disjoint (a.length_sa ▸ h) hdisjoint

end Members

variable (port : UInt16)

/-- A port has two bytes. -/
theorem port_lt : port.toNat < 256 ^ 2 := port.toNat_lt

/-- The family of an address made of an IPv4 address. -/
theorem family_ofIPv4 (ip : IPv4) : (ofIPv4 ip port).family = afInet := by
  have hpeek : peek (ofIPv4 ip port).sa 0 2 = leBytes 2 afInet := by
    simp (disch := omega) only [ofIPv4, resize, peek_assign_of_disjoint]
    exact peek_assign (length_leBytes ..).symm
  rw [family, hpeek, readLE_leBytes (by decide)]
  rfl

/-- The port of an address made of an IPv4 address. -/
theorem port_ofIPv4 (ip : IPv4) : (ofIPv4 ip port).port = port.toNat := by
  have hpeek : peek (ofIPv4 ip port).sa 2 2 = beBytes 2 port.toNat := by
    simp (disch := omega) only [ofIPv4, resize, peek_assign_of_disjoint]
    exact peek_assign (length_beBytes ..).symm
  rw [SocketAddress.port, if_pos (.inl (family_ofIPv4 port ip)), hpeek,
    readBE_beBytes (port_lt port)]

/-- The IPv4 address is got back. -/
theorem ipv4_ofIPv4 (ip : IPv4) : (ofIPv4 ip port).ipv4 = ip := by
  have hpeek : peek (ofIPv4 ip port).sa 4 4 = ip.bytes := by
    simp only [ofIPv4, resize]
    exact peek_assign ip.length_bytes.symm
  rw [ipv4, if_pos (family_ofIPv4 port ip), hpeek]
  have hbytes := beBytes_readBE ip.bytes
  rw [ip.length_bytes] at hbytes
  exact IPv4.ext hbytes

variable (flow scope : UInt32)

/-- The family of an address made of an IPv6 address. -/
theorem family_ofIPv6 (ip : IPv6) : (ofIPv6 ip port flow scope).family = afInet6 := by
  have hpeek : peek (ofIPv6 ip port flow scope).sa 0 2 = leBytes 2 afInet6 := by
    simp (disch := omega) only [ofIPv6, resize, peek_assign_of_disjoint]
    exact peek_assign (length_leBytes ..).symm
  rw [family, hpeek, readLE_leBytes (by decide)]
  rfl

/-- The port of an address made of an IPv6 address. -/
theorem port_ofIPv6 (ip : IPv6) : (ofIPv6 ip port flow scope).port = port.toNat := by
  have hpeek : peek (ofIPv6 ip port flow scope).sa 2 2 = beBytes 2 port.toNat := by
    simp (disch := omega) only [ofIPv6, resize, peek_assign_of_disjoint]
    exact peek_assign (length_beBytes ..).symm
  rw [SocketAddress.port, if_pos (.inr (family_ofIPv6 port flow scope ip)), hpeek,
    readBE_beBytes (port_lt port)]

/-- The IPv6 address is got back. -/
theorem ipv6_ofIPv6 (ip : IPv6) : (ofIPv6 ip port flow scope).ipv6 = ip := by
  have hpeek : peek (ofIPv6 ip port flow scope).sa 8 16 = ip.bytes := by
    simp (disch := omega) only [ofIPv6, resize, peek_assign_of_disjoint]
    exact peek_assign ip.length_bytes.symm
  rw [ipv6, if_pos (family_ofIPv6 port flow scope ip)]
  exact IPv6.ext hpeek

/-! ### Comparing -/

/-- A block of memory is equal to itself. -/
theorem memcmp_self (b : Bytes) : memcmp b b = 0 := by
  induction b with
  | nil => rfl
  | cons c b ih => rw [memcmp, if_neg (UInt8.lt_irrefl c), if_neg (UInt8.lt_irrefl c), ih]

/-- An address is equal to itself. -/
theorem equal_self (a : SocketAddress) : a.equal a = true := by
  simp [equal, memCompare, memcmp_self]

/-- An address that uses some of its bytes is not the empty one. -/
theorem equal_empty {a : SocketAddress} (h : 0 < a.currentSize) : a.equal empty = false := by
  simp [equal, memCompare, empty, memcmp, h]

/-! ### The string of an address -/

variable (lib : InetLibs)

/-- The text of an IPv4 address with a port. -/
theorem str_ofIPv4 (ip : IPv4) :
    (ofIPv4 ip port).str lib = .ok (lib.text afInet ip.bytes ++ colon :: toDecimal port.toNat) := by
  have hsize : 0 < (ofIPv4 ip port).currentSize := Nat.zero_lt_succ 15
  rw [str, equal_empty hsize, if_neg (by simp), if_pos (family_ofIPv4 port ip), ipv4_ofIPv4,
    port_ofIPv4, ip.str_eq]
  rfl

/-- The text of an IPv6 address with a port, which stands in brackets. -/
theorem str_ofIPv6 (ip : IPv6) :
    (ofIPv6 ip port flow scope).str lib =
      .ok (openBracket :: (lib.text afInet6 ip.bytes ++ bytes "]:" ++ toDecimal port.toNat)) := by
  have hsize : 0 < (ofIPv6 ip port flow scope).currentSize := Nat.zero_lt_succ 27
  rw [str, equal_empty hsize, if_neg (by simp), family_ofIPv6, if_neg (by decide), if_pos rfl,
    ipv6_ofIPv6, port_ofIPv6, ip.str_eq]
  rfl

/-- A port is read back from its decimal digits. -/
theorem parsePort_toDecimal : parsePort (toDecimal port.toNat) = .ok port := by
  have hlt := port.toNat_lt
  have hmax : port.toNat ≤ ullongMax := by
    simp only [ullongMax]
    omega
  have hscan : strtoull (toDecimal port.toNat ++ []) = ⟨port.toNat, _, false⟩ :=
    strtoull_toDecimal hmax (by simp)
  rw [List.append_nil] at hscan
  rw [parsePort, hscan]
  dsimp only
  rw [if_neg (by simp; omega), UInt16.ofNat_toNat]

/-! ### The shapes of a string -/

/-- The text starts with a decimal digit. -/
def StartsWithDigit (s : Bytes) : Prop := ∃ c, s.head? = some c ∧ isDigit c = true

section

variable {s t p r : Bytes}

/-- A text without a colon is an IPv4 address. -/
theorem ofString_noColon (hdigit : StartsWithDigit s) (h : colon ∉ s) :
    ofString lib s = (IPv4.ofString lib s).map (ofIPv4 ·) := by
  obtain ⟨c, hc, hdigit⟩ := hdigit
  have hfind : findIf (· == colon) s 0 = none := findIf_zero_none (beq_false_of_notMem h)
  rw [ofString, hc]
  dsimp only
  rw [if_pos hdigit, hfind]

/-- A text with one colon is an IPv4 address and a port. -/
theorem ofString_oneColon (hdigit : StartsWithDigit (t ++ colon :: p)) (ht : colon ∉ t)
    (hp : colon ∉ p) : ofString lib (t ++ colon :: p) =
      (do
        let ip ← IPv4.ofString lib t
        let port ← parsePort p
        return ofIPv4 ip port) := by
  obtain ⟨c, hc, hdigit⟩ := hdigit
  have hdrop : (t ++ colon :: p).drop (t.length + 1) = p := by simp
  rw [ofString, hc]
  dsimp only
  rw [if_pos hdigit, findIf_separator ht]
  dsimp only
  rw [if_neg (mt (findIf_next colon t p).mp hp), List.take_left, hdrop]

/-- A text with more colons is an IPv6 address without a port. -/
theorem ofString_moreColons (hdigit : StartsWithDigit (t ++ colon :: p)) (ht : colon ∉ t)
    (hp : colon ∈ p) : ofString lib (t ++ colon :: p) =
      (IPv6.ofString lib (t ++ colon :: p)).map (ofIPv6 ·) := by
  obtain ⟨c, hc, hdigit⟩ := hdigit
  rw [ofString, hc]
  dsimp only
  rw [if_pos hdigit, findIf_separator ht]
  dsimp only
  rw [if_pos ((findIf_next colon t p).mpr hp)]

/-- A text in brackets is an IPv6 address, which a port may follow. -/
theorem ofString_bracket (ht : closeBracket ∉ t) :
    ofString lib (openBracket :: (t ++ closeBracket :: r)) =
      (do
        let ip ← IPv6.ofString lib t
        let port ← (if 1 < r.length then parsePort r.tail else .ok 0)
        return ofIPv6 ip port) := by
  have hopen : closeBracket ∉ openBracket :: t := by
    rw [List.mem_cons, not_or]
    exact ⟨by decide, ht⟩
  have hfind := findIf_separator hopen r
  have hdrop : ((openBracket :: t) ++ closeBracket :: r).drop ((openBracket :: t).length + 2) =
      r.tail := by
    cases r <;> simp
  have htext : substr ((openBracket :: t) ++ closeBracket :: r) 1 ((openBracket :: t).length - 1) =
      t := by simp [substr]
  have hlen : (openBracket :: t).length + 2 < ((openBracket :: t) ++ closeBracket :: r).length ↔
      1 < r.length := by
    simp only [List.length_append, List.length_cons]
    omega
  rw [← List.cons_append, ofString, List.cons_append, List.head?_cons, ← List.cons_append]
  dsimp only
  rw [if_neg (by decide), if_pos (by decide), hfind]
  dsimp only
  rw [htext, hdrop]
  simp only [hlen]

/-- A string of any other shape is not read. -/
theorem ofString_other (hdigit : ¬ StartsWithDigit s)
    (hbracket : ∀ rest, s = openBracket :: rest → closeBracket ∉ rest) :
    ofString lib s = .error (.invalidArgument "Invalid socket address: " s) := by
  cases s with
  | nil => rfl
  | cons c rest =>
      have hc : ¬ isDigit c = true := fun h => hdigit ⟨c, rfl, h⟩
      rw [ofString, List.head?_cons]
      dsimp only
      rw [if_neg hc]
      split
      next hopen =>
        obtain rfl := eq_of_beq hopen
        have hnone : findIf (· == closeBracket) (openBracket :: rest) 0 = none := by
          refine findIf_zero_none (beq_false_of_notMem ?_)
          rw [List.mem_cons, not_or]
          exact ⟨by decide, hbracket rest rfl⟩
        rw [hnone]
      next => rfl

end

/-! ### Reading the string back -/

/-- A digit is no colon. -/
theorem colon_ne_of_isDigit {c : UInt8} (h : isDigit c = true) : c ≠ colon := by
  rintro rfl
  revert h
  decide

/-- The characters of dotted decimal. -/
theorem mem_dotted {a b c d e : UInt8} (h : e ∈ dotted a b c d) : isDigit e = true ∨ e = dot := by
  simp only [dotted, List.mem_append, List.mem_cons] at h
  rcases h with h | rfl | h | rfl | h | rfl | h
  all_goals first | exact .inl (isDigit_of_mem_toDecimal h) | exact .inr rfl

/-- Dotted decimal starts with a digit and has no colon in it. -/
theorem dotted_chars (a b c d : UInt8) :
    (∃ first rest, dotted a b c d = first :: rest ∧ isDigit first = true) ∧
      colon ∉ dotted a b c d := by
  constructor
  · obtain ⟨first, rest, hfirst⟩ := List.exists_cons_of_ne_nil (toDecimal_ne_nil a.toNat)
    refine ⟨first, _, by rw [dotted, hfirst, List.cons_append], ?_⟩
    exact isDigit_of_mem_toDecimal (n := a.toNat) (by rw [hfirst]; exact List.mem_cons_self)
  · intro hcolon
    rcases mem_dotted hcolon with hdigit | hdot
    · exact colon_ne_of_isDigit hdigit rfl
    · exact absurd hdot (by decide)

/-- A dotted address and a port are read back. -/
theorem ofString_dotted (ip : IPv4) :
    ofString lib (lib.text afInet ip.bytes ++ colon :: toDecimal port.toNat) =
      .ok (ofIPv4 ip port) := by
  have htext : ∃ a b c d, lib.text afInet ip.bytes = dotted a b c d := by
    obtain ⟨bytes, hlen⟩ := ip
    match bytes, hlen with
    | [a, b, c, d], _ => exact ⟨a, b, c, d, lib.text_inet a b c d⟩
  have hread := IPv4.ofString_text lib ip
  obtain ⟨a, b, c, d, htext⟩ := htext
  rw [htext] at hread ⊢
  obtain ⟨⟨first, rest, hfirst, hdigit⟩, hcolon⟩ := dotted_chars a b c d
  have hstart : StartsWithDigit (dotted a b c d ++ colon :: toDecimal port.toNat) :=
    ⟨first, by rw [hfirst]; rfl, hdigit⟩
  have hport : colon ∉ toDecimal port.toNat := fun h =>
    colon_ne_of_isDigit (isDigit_of_mem_toDecimal h) rfl
  rw [ofString_oneColon lib hstart hcolon hport, hread, parsePort_toDecimal]
  rfl

/-- An address in brackets and a port are read back. -/
theorem ofString_bracketed (ip : IPv6) :
    ofString lib
        (openBracket :: (lib.text afInet6 ip.bytes ++ bytes "]:" ++ toDecimal port.toNat)) =
      .ok (ofIPv6 ip port) := by
  have hread := IPv6.ofString_text lib ip
  have hclose := lib.closeBracket_notMem_text ip.bytes ip.length_bytes
  generalize lib.text afInet6 ip.bytes = text at hread hclose
  have hstr : text ++ bytes "]:" ++ toDecimal port.toNat =
      text ++ closeBracket :: colon :: toDecimal port.toNat := by
    have hseparator : bytes "]:" = [closeBracket, colon] := by decide
    simp [hseparator]
  have hlen : 1 < (colon :: toDecimal port.toNat).length := by
    have hpos := List.length_pos_iff.mpr (toDecimal_ne_nil port.toNat)
    rw [List.length_cons]
    omega
  rw [hstr, ofString_bracket lib hclose, hread, if_pos hlen, List.tail_cons, parsePort_toDecimal]
  rfl

/-- The address that its own string gives is equal to it. -/
def RoundTrips (a : SocketAddress) : Prop :=
  ∃ s b, a.str lib = .ok s ∧ ofString lib s = .ok b ∧ b.equal a = true

/-- **Socket addresses.** The string of an IPv4 address and a port, or of an IPv6 address and
a port without a flow and a scope, gives an equal address. -/
theorem ofString_str :
    (∀ ip : IPv4, RoundTrips lib (ofIPv4 ip port)) ∧
      ∀ ip : IPv6, RoundTrips lib (ofIPv6 ip port) := by
  constructor
  · intro ip
    exact ⟨_, _, str_ofIPv4 port lib ip, ofString_dotted port lib ip, equal_self _⟩
  · intro ip
    exact ⟨_, _, str_ofIPv6 port 0 0 lib ip, ofString_bracketed port lib ip, equal_self _⟩

end SocketAddress

/-! ### The functions of the system -/

/-- An IPv6 address in groups of four digits, none of them left out. -/
def groups : Bytes → Bytes
  | [c, d] => SocketAddress.hexBytes [c, d]
  | c :: d :: b => SocketAddress.hexBytes [c, d] ++ colon :: groups b
  | _ => []

/-- The byte of two hexadecimal digits. -/
def readHex (x y : UInt8) : UInt8 :=
  let value (c : UInt8) := (bytes "0123456789abcdef").idxOf c
  .ofNat (16 * value x + value y)

/-- Reads groups of four digits. -/
def readGroups : Bytes → Option Bytes
  | [w, x, y, z] => some [readHex w x, readHex y z]
  | w :: x :: y :: z :: c :: s =>
      if c = colon then (readGroups s).map ([readHex w x, readHex y z] ++ ·) else none
  | _ => none

/-- Reads a number below 256. -/
def readOctet (s : Bytes) : Option (UInt8 × Bytes) :=
  let n := strtoull s
  if n.stop = 0 ∨ n.value > 255 then none else some (.ofNat n.value, s.drop n.stop)

/-- Reads a dot. -/
def readDot (s : Bytes) : Option Bytes := if s.head? = some dot then some s.tail else none

/-- Reads dotted decimal. -/
def readDotted (s : Bytes) : Option Bytes := do
  let (a, s) ← readOctet s
  let (b, s) ← readOctet (← readDot s)
  let (c, s) ← readOctet (← readDot s)
  let (d, s) ← readOctet (← readDot s)
  if s = [] then some [a, b, c, d] else none

/-- A decimal number up to 255 is read up to where its digits end. -/
theorem readOctet_append (a : UInt8) {rest : Bytes}
    (hrest : ∀ c, rest.head? = some c → isDigit c = false) :
    readOctet (toDecimal a.toNat ++ rest) = some (a, rest) := by
  have hlt := a.toNat_lt
  have hpos := List.length_pos_iff.mpr (toDecimal_ne_nil a.toNat)
  rw [readOctet, strtoull_toDecimal (by simp only [ullongMax]; omega) hrest]
  dsimp only
  rw [if_neg (by omega), UInt8.ofNat_toNat, List.drop_left]

/-- Four numbers are read back. -/
theorem readDotted_dotted (a b c d : UInt8) : readDotted (dotted a b c d) = some [a, b, c, d] := by
  have hdot (x : UInt8) (rest : Bytes) :
      readOctet (toDecimal x.toNat ++ dot :: rest) = some (x, dot :: rest) :=
    readOctet_append x fun e he => by
      obtain rfl : dot = e := Option.some.inj he
      decide
  have hend : readOctet (toDecimal d.toNat) = some (d, []) := by
    have h : readOctet (toDecimal d.toNat ++ []) = some (d, []) := readOctet_append d (by simp)
    rwa [List.append_nil] at h
  have hskip (rest : Bytes) : readDot (dot :: rest) = some rest := rfl
  simp [readDotted, dotted, hdot, hend, hskip]

/-- A byte is read back from its two hexadecimal digits. -/
theorem readHex_hexDigit (c : UInt8) :
    readHex (hexDigit (c >>> 4).toNat) (hexDigit (c &&& 15).toNat) = c := by
  have hall : ∀ n : Fin 256, readHex (hexDigit (UInt8.ofNat n >>> 4).toNat)
      (hexDigit (UInt8.ofNat n &&& 15).toNat) = UInt8.ofNat n := by decide +kernel
  have hc := hall ⟨c.toNat, c.toNat_lt⟩
  rwa [UInt8.ofNat_toNat] at hc

/-- The groups of an even number of bytes are read back. -/
theorem readGroups_groups (b : Bytes) (heven : b.length % 2 = 0) (hne : b ≠ []) :
    readGroups (groups b) = some b := by
  fun_induction groups b with
  | case1 c d =>
      change some [readHex _ _, readHex _ _] = _
      rw [readHex_hexDigit, readHex_hexDigit]
  | case2 c d b hb ih =>
      simp only [List.length_cons] at heven
      change (if colon = colon then (readGroups (groups b)).map ([readHex _ _, readHex _ _] ++ ·)
        else none) = _
      rw [if_pos rfl, ih (by omega) (by rintro rfl; exact hb rfl), readHex_hexDigit,
        readHex_hexDigit]
      rfl
  | case3 b h₁ h₂ =>
      match b, heven, hne, h₂ with
      | c :: d :: b, _, _, h₂ => exact absurd rfl (h₂ c d b)

/-- The characters of the groups. -/
theorem mem_groups {b : Bytes} {c : UInt8} (h : c ∈ groups b) :
    c ∈ bytes "0123456789abcdef" ∨ c = colon := by
  have hhex {b : Bytes} (h : c ∈ SocketAddress.hexBytes b) : c ∈ bytes "0123456789abcdef" := by
    obtain ⟨d, -, hd⟩ := List.mem_flatMap.mp h
    simp only [List.mem_cons, List.not_mem_nil, or_false] at hd
    rcases hd with rfl | rfl <;> exact hexDigit_mem _
  fun_induction groups b with
  | case1 d e => exact .inl (hhex h)
  | case2 d e b _ ih =>
      rcases List.mem_append.mp h with h | h
      · exact .inl (hhex h)
      · rcases List.mem_cons.mp h with h | h
        · exact .inr h
        · exact ih h
  | case3 b h₁ h₂ => cases h

/-- Whether bytes are an address of the family can be computed. -/
instance (family : ℕ) (b : Bytes) : Decidable (IsAddress family b) :=
  inferInstanceAs (Decidable (_ ∨ _))

/-- The text of an address. -/
def addressText (family : ℕ) (b : Bytes) : Bytes :=
  if family = afInet then
    match b with
    | [c, d, e, f] => dotted c d e f
    | _ => []
  else groups b

/-- An address has four bytes or sixteen. -/
theorem addressText_cases {P : Bytes → Prop} {family : ℕ} {b : Bytes} (h : IsAddress family b)
    (hdotted : ∀ c d e f, family = afInet → b = [c, d, e, f] → P (dotted c d e f))
    (hgroups : family = afInet6 → b.length = 16 → P (groups b)) : P (addressText family b) := by
  rcases h with ⟨rfl, hlen⟩ | ⟨rfl, hlen⟩
  · match b, hlen with
    | [c, d, e, f], _ => exact hdotted c d e f rfl rfl
  · exact hgroups rfl hlen

/-- The functions as their documentation describes them, for addresses with no group of
zeros and no zero in front of a group. -/
def InetLibs.plain : InetLibs where
  text := addressText
  inetNtop family b size :=
    let s := addressText family b
    if ¬ IsAddress family b then .error eAfNoSupport
    else if s.length < size then .ok (s ++ List.replicate (size - s.length) 0)
    else .error eNoSpc
  inetPton family s :=
    if family = afInet then .ok (readDotted s)
    else if family = afInet6 then .ok ((readGroups s).filter (·.length = 16))
    else .error eAfNoSupport
  inetNtop_fits family b size h hlt := by
    obtain ⟨k, hk⟩ : ∃ k, size - (addressText family b).length = k + 1 :=
      ⟨size - (addressText family b).length - 1, by omega⟩
    exact ⟨List.replicate k 0, by simp [h, hlt, hk, List.replicate_succ]⟩
  inetNtop_short family b size h hle := by simp [h, Nat.not_lt.mpr hle]
  inetPton_text family b h := by
    refine addressText_cases (P := fun s => (if family = afInet then .ok (readDotted s)
      else if family = afInet6 then .ok ((readGroups s).filter (·.length = 16))
      else .error eAfNoSupport) = Except.ok (some b)) h ?_ ?_
    · intro c d e f hfamily hb
      rw [if_pos hfamily, readDotted_dotted, hb]
    · intro hfamily hlen
      have hne : b ≠ [] := by
        rintro rfl
        cases hlen
      rw [if_neg (by rw [hfamily]; decide), if_pos hfamily, readGroups_groups b (by omega) hne]
      simp [hlen]
  isAddress_of_inetPton family s b h := by
    split at h
    next hfamily =>
      simp only [Except.ok.injEq, readDotted, Option.bind_eq_bind, Option.bind_eq_some_iff] at h
      obtain ⟨_, _, _, _, _, _, _, _, _, _, _, _, _, _, h⟩ := h
      split at h
      next =>
        obtain rfl := Option.some.inj h
        exact .inl ⟨hfamily, rfl⟩
      next => cases h
    next =>
      split at h
      next hfamily =>
        rw [Except.ok.injEq, Option.filter_eq_some_iff] at h
        exact .inr ⟨hfamily, by simpa using h.2⟩
      next => cases h
  zero_notMem_text family b h := by
    refine addressText_cases (P := fun s => 0 ∉ s) h ?_ ?_
    · intro c d e f _ _ hmem
      exact absurd (SocketAddress.mem_dotted hmem) (by decide)
    · intro _ _ hmem
      exact absurd (mem_groups hmem) (by decide)
  text_inet _ _ _ _ := rfl
  closeBracket_notMem_text b hb hmem := absurd (mem_groups hmem) (by decide)

namespace SocketAddress

/-- What the loopback address and a port look like, and that they are read back. -/
theorem ofString_str_loopback :
    (ofIPv4 ⟨[127, 0, 0, 1], rfl⟩ 80).str .plain = .ok (bytes "127.0.0.1:80") ∧
      RoundTrips .plain (ofIPv4 ⟨[127, 0, 0, 1], rfl⟩ 80) :=
  ⟨by decide +kernel, (ofString_str 80 .plain).1 _⟩

end SocketAddress

end RsIo
