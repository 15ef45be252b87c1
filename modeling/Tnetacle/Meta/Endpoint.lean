import Tnetacle.Library.ByteOrder

/-! # Socket addresses and endpoints

The functions of `endpoint.c`. Addresses come from `accept`, `getsockname` and
`evutil_parse_sockaddr_port`, so they are IPv4 or IPv6 addresses whose length is
the size of their structure; an endpoint carries that fact. A port field holds
the word that the host reads there, which is in network order.
-/

namespace Tnetacle.Meta

open ByteOrder

inductive Ip
  | v4 (addr : BitVec 32)
  | v6 (addr : BitVec 128)
  deriving DecidableEq, Repr

inductive Sockaddr
  | inet (addr : BitVec 32) (port : Word)
  | inet6 (addr : BitVec 128) (port : Word) (flowinfo scopeId : BitVec 32)
  deriving DecidableEq, Repr

namespace Sockaddr

def ip : Sockaddr → Ip
  | .inet addr _ => .v4 addr
  | .inet6 addr .. => .v6 addr

def port : Sockaddr → Word
  | .inet _ port => port
  | .inet6 _ port .. => port

def setPort (p : Word) : Sockaddr → Sockaddr
  | .inet addr _ => .inet addr p
  | .inet6 addr _ flowinfo scopeId => .inet6 addr p flowinfo scopeId

/-- `sizeof(struct sockaddr_in)` or `sizeof(struct sockaddr_in6)`. -/
def len : Sockaddr → ℕ
  | .inet .. => 16
  | .inet6 .. => 28

@[simp] theorem ip_setPort (p : Word) (a : Sockaddr) : (a.setPort p).ip = a.ip := by
  cases a <;> rfl

@[simp] theorem port_setPort (p : Word) (a : Sockaddr) : (a.setPort p).port = p := by
  cases a <;> rfl

@[simp] theorem len_setPort (p : Word) (a : Sockaddr) : (a.setPort p).len = a.len := by
  cases a <;> rfl

theorem len_eq_of_ip_eq {a b : Sockaddr} (h : a.ip = b.ip) : a.len = b.len := by
  cases a <;> cases b <;> first | rfl | cases h

end Sockaddr

/--
The host the daemon runs on and the libevent it is linked with, of whose
`evutil_sockaddr_cmp` only the documented meaning of the result 0 is known.
-/
structure Platform where
  host : Endian
  evutilSockaddrCmp : Sockaddr → Sockaddr → Bool → Int
  cmp_eq_zero : ∀ a b includePort, evutilSockaddrCmp a b includePort = 0 ↔
    a.ip = b.ip ∧ (includePort = true → a.port = b.port)

namespace Platform

variable (P : Platform)

def sameIp (a b : Sockaddr) : Bool := P.evutilSockaddrCmp a b false = 0

@[simp] theorem sameIp_iff {a b : Sockaddr} : P.sameIp a b = true ↔ a.ip = b.ip := by
  simp [sameIp, P.cmp_eq_zero]

/-- A little-endian platform whose comparison only tells equal from different. -/
def reference : Platform where
  host := .little
  evutilSockaddrCmp a b includePort :=
    if a.ip = b.ip ∧ (includePort = true → a.port = b.port) then 0 else 1
  cmp_eq_zero a b includePort := by split <;> simp_all

end Platform

/-- `struct endpoint`. -/
structure Endpoint where
  addr : Sockaddr
  addrlen : ℕ
  addrlen_eq : addrlen = addr.len
  deriving DecidableEq

/-- `memset` and then `memcpy` of the whole address. -/
def endpointInit (addr : Sockaddr) : Endpoint := ⟨addr, addr.len, rfl⟩

/-- `memcpy` of `addrlen` bytes, which is the whole address, and of the length. -/
def endpointCopy (_dst src : Endpoint) : Endpoint := ⟨src.addr, src.addrlen, src.addrlen_eq⟩

def endpointPort (P : Platform) (e : Endpoint) : Word := ntohs P.host e.addr.port

def endpointSetPort (P : Platform) (e : Endpoint) (port : Word) : Endpoint :=
  ⟨e.addr.setPort (htons P.host port), e.addrlen, by simp [e.addrlen_eq]⟩

def endpointCmp (P : Platform) (a b : Endpoint) : Int :=
  if a.addrlen ≠ b.addrlen then -1 else P.evutilSockaddrCmp a.addr b.addr true

section

variable (P : Platform)

@[simp] theorem endpointPort_setPort (e : Endpoint) (port : Word) :
    endpointPort P (endpointSetPort P e port) = port := by
  simp [endpointPort, endpointSetPort]

@[simp] theorem ip_endpointSetPort (e : Endpoint) (port : Word) :
    (endpointSetPort P e port).addr.ip = e.addr.ip := by
  simp [endpointSetPort]

/-- Two endpoints compare equal when they have the same address and the same port. -/
theorem endpointCmp_eq_zero_iff {a b : Endpoint} :
    endpointCmp P a b = 0 ↔ a.addr.ip = b.addr.ip ∧ a.addr.port = b.addr.port := by
  unfold endpointCmp
  split
  · rename_i hne
    constructor
    · intro h; cases h
    · rintro ⟨h, -⟩
      rw [a.addrlen_eq, b.addrlen_eq] at hne
      exact absurd (Sockaddr.len_eq_of_ip_eq h) hne
  · simp [P.cmp_eq_zero]

/-- An endpoint is the one with the address `a` and the port `port`. -/
theorem endpointCmp_setPort_eq_zero_iff {e : Endpoint} {a : Sockaddr} {port : Word} :
    endpointCmp P e (endpointSetPort P (endpointInit a) port) = 0 ↔
      e.addr.ip = a.ip ∧ endpointPort P e = port := by
  rw [endpointCmp_eq_zero_iff, ip_endpointSetPort]
  refine and_congr_right fun _ => ?_
  simp only [endpointSetPort, Sockaddr.port_setPort, endpointPort]
  constructor
  · intro h
    rw [h, ntohs_htons]
  · rintro rfl
    rw [htons_ntohs]

end

end Tnetacle.Meta
