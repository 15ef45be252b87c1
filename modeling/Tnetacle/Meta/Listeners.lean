import Mathlib.Data.List.Induction
import Tnetacle.Fibers.Sched
import Tnetacle.Library.Ledger
import Tnetacle.Meta.Server

/-! # The listeners of the daemon

`server_init` makes a listener and a UDP socket with its two fibers for every address to listen on.
There is one place for the UDP side, which each address overwrites, and nothing is released when
the second half of an address fails.
-/

namespace Tnetacle.Meta

open ByteOrder Ledgers

/-- An entry of `srv_list`: a listener for peers or for clients. -/
structure Listener where
  evl : ℕ
  addr : Sockaddr
  peer : Bool
  deriving DecidableEq

/-- `struct udp` with its socket and its fibers. -/
structure UdpSocket extends Udp where
  fd : ℕ
  udpRecvFib : ℕ
  udpBrdFib : ℕ

/-- How far `server_udp_new` comes, and the port that `bind` chooses. -/
inductive UdpOutcome
  | noMemory
  | noSocket
  | notBound
  | blocking
  | made (port : Word)
  deriving DecidableEq

structure ListenAddr where
  addr : Sockaddr
  bound : Bool
  udp : UdpOutcome
  deriving DecidableEq

def ListenAddr.made (a : ListenAddr) : Bool :=
  match a.udp with
  | .made _ => true
  | _ => false

/-- The part of `struct server` that is set up, and the listeners and sockets that exist. -/
structure Listening where
  listeners : Ledger := {}
  sockets : Ledger := {}
  evSched : Fibers.Sched := {}
  srvList : List Listener := []
  udp : Option UdpSocket := none

variable (P : Platform)

/-- `server_udp_init`, which does not close a socket that it can not use. -/
def serverUdpInit (s : Listening) (e : Endpoint) : UdpOutcome → Listening × Option UdpSocket
  | .noMemory | .noSocket => (s, none)
  | .notBound | .blocking => ({ s with sockets := s.sockets.alloc }, none)
  | .made port =>
    ({ s with
        sockets := s.sockets.alloc
        evSched := s.evSched.schedNewFiber.schedNewFiber },
      some
        { udpEndpoint := endpointSetPort P e port
          udpPeers := []
          fd := s.sockets.next
          udpRecvFib := s.evSched.fibers.length
          udpBrdFib := s.evSched.schedNewFiber.fibers.length })

/-- `server_udp_new`. -/
def serverUdpNew (s : Listening) (e : Endpoint) (outcome : UdpOutcome) :
    Listening × Option UdpSocket :=
  if outcome = .noMemory then (s, none) else serverUdpInit P s e outcome

namespace Listening

/-- The first loop of `server_init`. -/
def listen (s : Listening) (a : ListenAddr) : Listening :=
  if a.bound = false then s
  else
    let evl := s.listeners.next
    let s := { s with listeners := s.listeners.alloc }
    let r := serverUdpNew P s (endpointInit a.addr) a.udp
    let s := { r.1 with udp := r.2 }
    match s.udp with
    | none => s
    | some _ => { s with srvList := s.srvList ++ [⟨evl, a.addr, true⟩] }

def listenClient (s : Listening) (c : Sockaddr × Bool) : Listening :=
  if c.2 = false then s
  else { s with
    listeners := s.listeners.alloc
    srvList := s.srvList ++ [⟨s.listeners.next, c.1, false⟩] }

end Listening

/-- `server_init`, up to the connections to other daemons. -/
def serverInit (listenAddrs : List ListenAddr) (clientAddrs : List (Sockaddr × Bool)) : Listening :=
  clientAddrs.foldl Listening.listenClient (listenAddrs.foldl (Listening.listen P) {})

namespace Listening

/--
With a listener for peers there is a UDP socket, on the address of one of them, and every
listener and every socket that exists is kept.
-/
structure Kept (s : Listening) : Prop where
  udp : (∃ l ∈ s.srvList, l.peer = true) →
    ∃ u, s.udp = some u ∧ ∃ l ∈ s.srvList, l.peer = true ∧ u.udpEndpoint.addr.ip = l.addr.ip
  listeners : Balanced s.listeners (s.srvList.map Listener.evl)
  sockets : Balanced s.sockets (s.udp.toList.map UdpSocket.fd)

end Listening

/-- At most one address can be bound, and its UDP socket can be made. -/
structure SoundAddrs (listenAddrs : List ListenAddr) : Prop where
  made : ∀ a ∈ listenAddrs, a.bound = true → a.made = true
  atMostOne : listenAddrs.countP (·.bound) ≤ 1

structure UdpSocket.Made (u : UdpSocket) (s : Listening) (a : ListenAddr) : Prop where
  fd : u.fd = s.sockets.next
  ip : u.udpEndpoint.addr.ip = a.addr.ip
  recvFib : u.udpRecvFib = s.evSched.fibers.length
  brdFib : u.udpBrdFib = s.evSched.fibers.length + 1

namespace Listening

variable {P} {s : Listening} {a : ListenAddr}

/-! ## What an address does -/

theorem listen_of_not_bound (h : a.bound = false) : s.listen P a = s := if_pos h

theorem listen_of_made (hbound : a.bound = true) (hmade : a.made = true) :
    ∃ u : UdpSocket, u.Made s a ∧
      s.listen P a =
        { listeners := s.listeners.alloc
          sockets := s.sockets.alloc
          evSched := s.evSched.schedNewFiber.schedNewFiber
          srvList := s.srvList ++ [⟨s.listeners.next, a.addr, true⟩]
          udp := some u } := by
  obtain ⟨addr, bound, udp⟩ := a
  obtain rfl : bound = true := hbound
  cases udp with
  | made port =>
    refine ⟨_, ⟨rfl, ?_, rfl, ?_⟩, rfl⟩
    · apply ip_endpointSetPort
    · simp [Fibers.Sched.schedNewFiber]
  | _ => cases hmade

theorem listen_of_not_made (hbound : a.bound = true) (hmade : a.made = false) :
    ∃ sockets : Ledger, s.sockets.live.length ≤ sockets.live.length ∧
      s.listen P a =
        { s with listeners := s.listeners.alloc, sockets := sockets, udp := none } := by
  obtain ⟨addr, bound, udp⟩ := a
  obtain rfl : bound = true := hbound
  have halloc : s.sockets.live.length ≤ s.sockets.alloc.live.length := by simp [Ledger.alloc]
  cases udp with
  | made port => cases hmade
  | noMemory => exact ⟨s.sockets, Nat.le_refl _, rfl⟩
  | noSocket => exact ⟨s.sockets, Nat.le_refl _, rfl⟩
  | notBound => exact ⟨s.sockets.alloc, halloc, rfl⟩
  | blocking => exact ⟨s.sockets.alloc, halloc, rfl⟩

/-! ## What is lost -/

theorem lost_listen (s : Listening) (a : ListenAddr) :
    (s.listen P a).listeners.live.length + s.srvList.length =
        (s.listen P a).srvList.length + s.listeners.live.length +
          (if a.bound && !a.made then 1 else 0) ∧
      s.sockets.live.length + (if a.bound && a.made then 1 else 0) ≤
        (s.listen P a).sockets.live.length := by
  cases hbound : a.bound with
  | false =>
    rw [listen_of_not_bound hbound]
    simp
    omega
  | true =>
    cases hmade : a.made with
    | false =>
      obtain ⟨sockets, hle, heq⟩ := listen_of_not_made (s := s) (P := P) hbound hmade
      rw [heq]
      simp [Ledger.alloc]
      omega
    | true =>
      obtain ⟨u, -, heq⟩ := listen_of_made (s := s) (P := P) hbound hmade
      rw [heq]
      simp [Ledger.alloc]
      omega

theorem lost_foldl_listen (as : List ListenAddr) (s : Listening) :
    (as.foldl (listen P) s).listeners.live.length + s.srvList.length =
        (as.foldl (listen P) s).srvList.length + s.listeners.live.length +
          as.countP (fun a => a.bound && !a.made) ∧
      s.sockets.live.length + as.countP (fun a => a.bound && a.made) ≤
        (as.foldl (listen P) s).sockets.live.length := by
  induction as generalizing s with
  | nil => simp [Nat.add_comm]
  | cons a as ih =>
    have hfirst := lost_listen (P := P) s a
    have hrest := ih (s.listen P a)
    rw [List.foldl_cons, List.countP_cons, List.countP_cons]
    omega

theorem lost_foldl_listenClient (cs : List (Sockaddr × Bool)) (s : Listening) :
    (cs.foldl listenClient s).listeners.live.length + s.srvList.length =
        (cs.foldl listenClient s).srvList.length + s.listeners.live.length ∧
      (cs.foldl listenClient s).sockets = s.sockets ∧ (cs.foldl listenClient s).udp = s.udp ∧
      (cs.foldl listenClient s).evSched = s.evSched := by
  induction cs generalizing s with
  | nil => exact ⟨Nat.add_comm _ _, rfl, rfl, rfl⟩
  | cons c cs ih =>
    obtain ⟨hcount, hrest⟩ := ih (s.listenClient c)
    obtain ⟨addr, bound⟩ := c
    cases bound with
    | false => exact ⟨hcount, hrest⟩
    | true =>
      refine ⟨?_, hrest⟩
      rw [List.foldl_cons]
      have hlen : (s.listenClient (addr, true)).listeners.live.length =
          s.listeners.live.length + 1 := List.length_append
      have hlen' : (s.listenClient (addr, true)).srvList.length = s.srvList.length + 1 :=
        List.length_append
      omega

theorem soundAddrs_of_kept {as : List ListenAddr} {cs : List (Sockaddr × Bool)}
    (h : (serverInit P as cs).Kept) : SoundAddrs as := by
  obtain ⟨hlost, hmade⟩ := lost_foldl_listen (P := P) as {}
  obtain ⟨hclients, hsockets, -⟩ := lost_foldl_listenClient cs (as.foldl (listen P) {})
  have hlisteners := h.listeners.perm.length_eq
  have hheld := h.sockets.perm.length_eq
  rw [serverInit, List.length_map] at hlisteners
  rw [serverInit, hsockets, List.length_map] at hheld
  have hone : (cs.foldl listenClient (as.foldl (listen P) {})).udp.toList.length ≤ 1 := by
    cases (cs.foldl listenClient (as.foldl (listen P) {})).udp <;> simp
  simp only [List.length_nil, Nat.add_zero, Nat.zero_add] at hlost hmade
  have hnone : as.countP (fun a => a.bound && !a.made) = 0 := by omega
  rw [List.countP_eq_zero] at hnone
  have hall : ∀ a ∈ as, a.bound = true → a.made = true := by
    intro a ha hbound
    simpa [hbound] using hnone a ha
  refine ⟨hall, ?_⟩
  have hsame : as.countP (·.bound) = as.countP (fun a => a.bound && a.made) := by
    apply List.countP_congr
    intro a ha
    constructor
    · intro hbound
      simp [hbound, hall a ha hbound]
    · intro hboth
      simp at hboth
      exact hboth.1
  omega

/-! ## What is kept -/

theorem kept_init : Kept {} := by
  refine ⟨?_, .empty, .empty⟩
  rintro ⟨l, hl, -⟩
  cases hl

theorem balanced_append (h : s.Kept) {l : Listener} (hl : l.evl = s.listeners.next) :
    Balanced s.listeners.alloc ((s.srvList ++ [l]).map Listener.evl) := by
  rw [List.map_append, List.map_singleton, hl]
  exact h.listeners.alloc_append

theorem kept_listen (h : s.Kept) (hudp : s.udp = none) (hbound : a.bound = true)
    (hmade : a.made = true) : (s.listen P a).Kept := by
  obtain ⟨u, hu, heq⟩ := listen_of_made (s := s) (P := P) hbound hmade
  have hsockets : Balanced s.sockets [] := by simpa [hudp] using h.sockets
  rw [heq]
  constructor
  · intro _
    exact ⟨u, rfl, ⟨s.listeners.next, a.addr, true⟩, by simp, rfl, hu.ip⟩
  · exact balanced_append h rfl
  · rw [Option.toList_some, List.map_singleton, hu.fd]
    exact hsockets.alloc

theorem kept_listenClient (h : s.Kept) (c : Sockaddr × Bool) : (s.listenClient c).Kept := by
  obtain ⟨addr, bound⟩ := c
  cases bound with
  | false => exact h
  | true =>
    constructor
    · rintro ⟨l, hl, hpeer⟩
      rcases List.mem_append.mp hl with hl | hl
      · obtain ⟨u, hu, l', hl', hpeer', hip⟩ := h.udp ⟨l, hl, hpeer⟩
        exact ⟨u, hu, l', List.mem_append_left _ hl', hpeer', hip⟩
      · obtain rfl := List.mem_singleton.mp hl
        cases hpeer
    · exact balanced_append h rfl
    · exact h.sockets

theorem foldl_listen_of_not_bound {as : List ListenAddr} (h : ∀ a ∈ as, a.bound = false) :
    as.foldl (listen P) s = s := by
  induction as with
  | nil => rfl
  | cons a as ih =>
    rw [List.forall_mem_cons] at h
    rw [List.foldl_cons, listen_of_not_bound h.1, ih h.2]

theorem kept_foldl_listen {as : List ListenAddr} (h : s.Kept) (hudp : s.udp = none)
    (has : SoundAddrs as) : (as.foldl (listen P) s).Kept := by
  induction as generalizing s with
  | nil => exact h
  | cons a as ih =>
    obtain ⟨hmade, hone⟩ := has
    rw [List.forall_mem_cons] at hmade
    rw [List.countP_cons] at hone
    rw [List.foldl_cons]
    cases hbound : a.bound with
    | false =>
      rw [listen_of_not_bound hbound]
      exact ih h hudp ⟨hmade.2, by omega⟩
    | true =>
      have hrest : ∀ a ∈ as, a.bound = false := by
        rw [if_pos hbound] at hone
        have hnone : as.countP (·.bound) = 0 := by omega
        intro a ha
        simpa using List.countP_eq_zero.mp hnone a ha
      rw [foldl_listen_of_not_bound hrest]
      exact kept_listen h hudp hbound (hmade.1 hbound)

theorem kept_serverInit {as : List ListenAddr} (h : SoundAddrs as)
    (cs : List (Sockaddr × Bool)) : (serverInit P as cs).Kept := by
  have hkept : (as.foldl (listen P) {}).Kept := kept_foldl_listen kept_init rfl h
  rw [serverInit]
  induction cs using List.reverseRecOn with
  | nil => exact hkept
  | append_singleton cs c ih =>
    rw [List.foldl_append]
    exact kept_listenClient ih c

end Listening

/--
Whatever fails, `server_init` keeps every listener and every UDP socket that it makes, and with a
listener for peers it has a UDP socket on the address of one of them, if and only if no bound
address is without its UDP socket and at most one address is bound.
-/
theorem server_init_kept_iff (listenAddrs : List ListenAddr)
    (clientAddrs : List (Sockaddr × Bool)) :
    (serverInit P listenAddrs clientAddrs).Kept ↔ SoundAddrs listenAddrs := by
  constructor
  · intro h
    exact Listening.soundAddrs_of_kept h
  · intro h
    exact Listening.kept_serverInit h clientAddrs

/--
Two addresses, as `any` gives them. If the second one has no UDP socket, there is a listener for
peers and no UDP side; if both have one, the first socket is lost.
-/
theorem server_init_loses :
    let v4 : ListenAddr := ⟨.inet 0 0x9210, true, .made 0x8000⟩
    let v6 : ListenAddr := ⟨.inet6 0 0x9210 0 0, true, .noSocket⟩
    (serverInit .reference [v4, v6] []).udp.isNone = true ∧
      (serverInit .reference [v4, v6] []).srvList = [⟨0, .inet 0 0x9210, true⟩] ∧
      (serverInit .reference [v4, v6] []).listeners.live = [0, 1] ∧
      ¬ (serverInit .reference [v4, v6] []).Kept ∧
      (serverInit .reference [v4, { v6 with udp := .made 0x8001 }] []).sockets.live = [0, 1] ∧
      ¬ (serverInit .reference [v4, { v6 with udp := .made 0x8001 }] []).Kept := by
  intro v4 v6
  refine ⟨rfl, rfl, rfl, ?_, rfl, ?_⟩
  · intro h
    cases h.listeners.perm.length_eq
  · intro h
    cases h.sockets.perm.length_eq

end Tnetacle.Meta
