import Mathlib.Combinatorics.SimpleGraph.Hasse
import Tnetacle.Library.Flooding
import Tnetacle.Tunnel.RoundTrip

/-! # A frame on its way through the network

A node that reads a packet from its tap device sends it to all its peers, and a node that
receives it forwards it to its other peers and writes it to its own device. Datagrams
are delivered in any order. A packet reaches the device of every other node once, and
not that of its origin, whichever node that is, exactly when the peerings form a tree.
-/

namespace Tnetacle.Tunnel

open ByteOrder Memory Meta Runs

/-- An address and a port as they are on the wire, whatever the byte order of a host. -/
structure Address where
  ip : Ip
  port : Word
  deriving DecidableEq

def addressOf (P : Platform) (e : Endpoint) : Address := ⟨e.addr.ip, endpointPort P e⟩

structure Datagram where
  source : Address
  destination : Address
  bytes : List Byte
  deriving DecidableEq

/--
Nodes of any byte order, each with its own endpoint. The graph of the peerings is
symmetric, and `udp_peers` of a node lists each of its neighbours once.
-/
structure Network (V : Type*) where
  platform : V → Platform
  address : V → Address
  address_injective : Function.Injective address
  graph : SimpleGraph V
  neighbours : V → List V
  lists : Flooding.Lists graph neighbours
  udpPeers : V → List UdpPeer
  udpPeers_eq : ∀ v, (udpPeers v).map (fun u => addressOf (platform v) u.peerAddr) =
    (neighbours v).map address

/-- The datagrams on their way and what has been written to the tap devices. -/
structure Traffic (V : Type*) where
  inFlight : List Datagram
  tap : V → List (List Byte)

/--
The datagram at a place reaches a node. The rest is what its receiver finds: the source
as its host represents it, the frame it holds, and the contents of its stack and of
the block it allocates.
-/
structure Delivery (V : Type*) where
  index : ℕ
  node : V
  source : Sockaddr
  peek : Peek := .copied
  frame : Frame
  hdr : Block sizeofPacketHdr
  malloc : ∀ n, Block n

namespace Network

variable {V : Type*} (N : Network V)

def datagrams (v : V) (sent : List (Endpoint × List Byte)) : List Datagram :=
  sent.map fun m => ⟨N.address v, addressOf (N.platform v) m.1, m.2⟩

def arrival (d : Datagram) (l : Delivery V) : Arrival where
  datagram := d.bytes
  source := l.source
  peek := l.peek
  hdr := l.hdr
  malloc := l.malloc
  udpPeers := N.udpPeers l.node

def inject (r : V) (read : DeviceRead) : Traffic V where
  inFlight := N.datagrams r (tunnelled (N.platform r) (N.udpPeers r) [[read]])
  tap := fun _ => []

variable [DecidableEq V]

/-- A datagram is delivered to the node it is for, whose receiver handles it. -/
def step (s : Traffic V) (l : Delivery V) : Option (Traffic V) :=
  match s.inFlight[l.index]? with
  | none => none
  | some d =>
    if N.address l.node = d.destination ∧
        addressOf (N.platform l.node) (endpointInit l.source) = d.source ∧ l.peek ≠ .failed then
      let emitted := serverUdp (N.platform l.node) l.frame [N.arrival d l]
      some {
        inFlight := s.inFlight.eraseIdx l.index ++
          emitted.flatMap fun e => N.datagrams l.node e.forwards
        tap := Function.update s.tap l.node (s.tap l.node ++ emitted.flatMap (·.writes)) }
    else none

/-- Every run ends, with one write to the device of every node but `r`. -/
def FloodsOnce (r : V) (read : DeviceRead) : Prop :=
  Ends N.step (fun t => ∀ v, t.tap v = if v = r then [] else [read.packet.bytes])
    (N.inject r read)

end Network

section Address

variable {P : Platform}

theorem endpointCmp_eq_zero_iff_addressOf {a b : Endpoint} :
    endpointCmp P a b = 0 ↔ addressOf P a = addressOf P b := by
  rw [endpointCmp_eq_zero_iff, addressOf, addressOf, Address.mk.injEq, endpointPort, endpointPort]
  refine and_congr_right fun _ => ⟨fun h => by rw [h], fun h => ?_⟩
  rw [← htons_ntohs P.host a.addr.port, h, htons_ntohs]

theorem exists_addressOf (P : Platform) (x : Address) :
    ∃ a, addressOf P (endpointInit a) = x := by
  rcases x with ⟨addr | addr, port⟩
  · exact ⟨.inet addr (htons P.host port), by simp [addressOf, endpointInit, endpointPort,
      Sockaddr.ip, Sockaddr.port]⟩
  · exact ⟨.inet6 addr (htons P.host port) 0 0, by simp [addressOf, endpointInit, endpointPort,
      Sockaddr.ip, Sockaddr.port]⟩

end Address

namespace Network

variable {V : Type*} {N : Network V} {p : Packet} {c c' : Traffic V} {s : Flooding.State V}
  {l : Delivery V}

/-- The datagram that carries the packet from `m.1` to `m.2`. -/
def carry (N : Network V) (p : Packet) (m : V × V) : Datagram :=
  ⟨N.address m.1, N.address m.2, encoded p⟩

theorem datagrams_map (N : Network V) (p : Packet) (v : V) (peers : List UdpPeer) :
    N.datagrams v (peers.map fun u => (u.peerAddr, encoded p)) =
      (peers.map fun u => addressOf (N.platform v) u.peerAddr).map
        fun x => ⟨N.address v, x, encoded p⟩ := by
  simp [datagrams]

theorem inject_inFlight (N : Network V) (r : V) (read : DeviceRead) :
    (N.inject r read).inFlight =
      (Flooding.inject N.neighbours r).inFlight.map (N.carry read.packet) := by
  have hpacket := packet_deviceLoop (P := N.platform r) ⟨0, []⟩ [read]
  have hsent : tunnelled (N.platform r) (N.udpPeers r) [[read]] =
      (N.udpPeers r).map fun u => (u.peerAddr, encoded read.packet) := by
    rw [deviceLoop, deviceLoop, List.map_singleton, List.map_singleton, List.singleton_inj]
      at hpacket
    simp only [tunnelled, List.flatMap_singleton, broadcastUdpToPeers_of_ok, deviceLoop, hpacket]
  rw [inject, hsent, datagrams_map, N.udpPeers_eq]
  simp [Flooding.inject, carry]

variable [DecidableEq V]

theorem forwards_eq {a : V} {d : Datagram} (hd : d.bytes = encoded p)
    (hsource : addressOf (N.platform l.node) (endpointInit l.source) = N.address a) :
    N.datagrams l.node (turn (N.platform l.node) (N.arrival d l)).forwards =
      (Flooding.relay N.neighbours a l.node).map (N.carry p) := by
  have hsize : claimedSize (N.arrival d l).datagram = some p.bytes.length := by
    rw [arrival, hd, claimedSize_encoded]
  have hlen : (N.arrival d l).datagram.length = 2 + p.bytes.length := by
    rw [arrival, hd, length_encoded]
  have hforwards : (turn (N.platform l.node) (N.arrival d l)).forwards =
      ((N.udpPeers l.node).filter fun u =>
        addressOf (N.platform l.node) u.peerAddr ≠ N.address a).map
          fun u => (u.peerAddr, encoded p) := by
    rw [turn_of_whole hsize hlen.ge, properEmission, hsize]
    simp only [hlen.ge, if_true, List.take_of_length_le hlen.le]
    simp [arrival, otherPeers, tried_of_ok, hd, endpointCmp_eq_zero_iff_addressOf, hsource,
      Function.comp_def]
  have hfilter := congrArg (List.filter fun x => x ≠ N.address a) (N.udpPeers_eq l.node)
  rw [List.filter_map, List.filter_map] at hfilter
  rw [hforwards, datagrams_map]
  simp only [Function.comp_def] at hfilter
  rw [hfilter, Flooding.relay]
  simp [carry, N.address_injective.eq_iff, Function.comp_def]

structure Carries (N : Network V) (p : Packet) (c : Traffic V) (s : Flooding.State V) : Prop where
  inFlight : c.inFlight = s.inFlight.map (N.carry p)
  tap : ∀ v, c.tap v = List.replicate (s.received v) p.bytes

theorem carries_step (hc : N.Carries p c s) (h : N.step c l = some c') :
    ∃ t, Flooding.step N.neighbours s l.index = some t ∧ N.Carries p c' t := by
  unfold step at h
  split at h
  · cases h
  rename_i d hd
  split at h
  swap
  · cases h
  rename_i hguard
  obtain ⟨hnode, hsource, hpeek⟩ := hguard
  rw [hc.inFlight, List.getElem?_map, Option.map_eq_some_iff] at hd
  obtain ⟨⟨a, b⟩, hm, rfl⟩ := hd
  obtain rfl : l.node = b := N.address_injective hnode
  have hreceived : (N.arrival (N.carry p (a, l.node)) l).received = true := by
    simp [Arrival.received, arrival, hpeek]
  rw [serverUdp_eq_map, List.takeWhile_cons_of_pos hreceived, List.takeWhile_nil] at h
  simp only [List.map_singleton, List.flatMap_singleton, Option.some.injEq] at h
  subst h
  refine ⟨_, by simp only [Flooding.step, hm]; rfl, ?_, ?_⟩
  · simp only [hc.inFlight, List.map_append, List.eraseIdx_map]
    rw [forwards_eq rfl hsource]
  · intro v
    by_cases hv : v = l.node
    · subst hv
      have hwrites : (turn (N.platform l.node) (N.arrival (N.carry p (a, l.node)) l)).writes =
          [p.bytes] := writes_of_encoded rfl
      simp only [Function.update_self, hc.tap, hwrites, List.replicate_succ']
    · simp only [Function.update_of_ne hv, hc.tap]

theorem exists_step (hc : N.Carries p c s) {i : ℕ} {t : Flooding.State V}
    (h : Flooding.step N.neighbours s i = some t) : ∃ l c', l.index = i ∧ N.step c l = some c' := by
  obtain ⟨a, b, hm, -⟩ := Flooding.step_inv h
  obtain ⟨source, hsource⟩ := exists_addressOf (N.platform b) (N.address a)
  let l : Delivery V := {
    index := i, node := b, source := source, frame := ⟨0, []⟩
    hdr := ⟨[0, 0], rfl⟩, malloc := fun n => ⟨List.replicate n 0, List.length_replicate⟩ }
  have hd : c.inFlight[l.index]? = some (N.carry p (a, b)) := by
    rw [hc.inFlight, List.getElem?_map, hm, Option.map_some]
  have hguard : N.address l.node = (N.carry p (a, b)).destination ∧
      addressOf (N.platform l.node) (endpointInit l.source) = (N.carry p (a, b)).source ∧
        l.peek ≠ .failed := ⟨rfl, hsource, by simp [l]⟩
  have hsome : (N.step c l).isSome := by
    simp only [step, hd, if_pos hguard, Option.isSome_some]
  obtain ⟨c', hc'⟩ := Option.isSome_iff_exists.mp hsome
  exact ⟨l, c', rfl, hc'⟩

theorem bisim (N : Network V) (p : Packet) :
    Bisim (N.Carries p) N.step (Flooding.step N.neighbours) := by
  constructor
  · intro c s l c' hc h
    obtain ⟨t, ht, hcarry⟩ := carries_step hc h
    exact ⟨l.index, t, ht, hcarry⟩
  · intro c s i t hc h
    obtain ⟨l, c', rfl, hl⟩ := exists_step hc h
    obtain ⟨t', ht', hcarry⟩ := carries_step hc hl
    obtain rfl := Option.some.inj (h.symm.trans ht')
    exact ⟨l, c', hl, hcarry⟩

theorem floodsOnce_iff (N : Network V) (r : V) (read : DeviceRead) :
    N.FloodsOnce r read ↔
      Ends (Flooding.step N.neighbours) (Flooding.Once r) (Flooding.inject N.neighbours r) := by
  apply (N.bisim read.packet).ends_iff
  · intro c s hc
    refine forall_congr' fun v => ?_
    rw [hc.tap]
    split
    · simp
    · rw [← List.replicate_one, List.replicate_left_inj]
  · exact ⟨N.inject_inFlight r read, fun _ => rfl⟩

end Network

/--
In every finite connected network, whatever the packet: each packet reaches the device of
every node but its origin exactly once and never that of its origin, after finitely many
deliveries in any order and from every origin, if and only if the peerings have no cycle.
-/
theorem floods_once_iff_isAcyclic {V : Type*} [DecidableEq V] [Finite V] (N : Network V)
    (hconn : N.graph.Connected) (read : DeviceRead) :
    (∀ r, N.FloodsOnce r read) ↔ N.graph.IsAcyclic := by
  simp only [N.floodsOnce_iff]
  exact Flooding.forall_ends_iff_isAcyclic hconn N.lists

def line : Network (Fin 3) where
  platform v := if v = 1 then { Platform.reference with host := .big } else .reference
  address v := ⟨.v4 (BitVec.ofNat 32 v), 5000⟩
  address_injective := by decide
  graph := .pathGraph 3
  neighbours v := if v = 1 then [0, 2] else [1]
  lists := ⟨by decide, fun v w => by rw [SimpleGraph.pathGraph_adj]; revert v w; decide⟩
  udpPeers v :=
    if v = 1 then [⟨endpointInit (.inet 0 5000), dtlsDisable, 0⟩,
      ⟨endpointInit (.inet 2 5000), dtlsDisable, 1⟩]
    else [⟨endpointInit (.inet 1 (htons .little 5000)), dtlsDisable, 0⟩]
  udpPeers_eq := by decide

theorem line_floods_once :
    line.graph.Connected ∧ ∀ (read : DeviceRead) (r : Fin 3), line.FloodsOnce r read := by
  have hconn : line.graph.Connected := SimpleGraph.pathGraph_connected 2
  have hedges : line.graph.edgeSet = {s(0, 1), s(1, 2)} := by
    ext e
    induction e with
    | h v w =>
      rw [SimpleGraph.mem_edgeSet, line, SimpleGraph.pathGraph_adj]
      revert v w
      decide
  have hacyclic : line.graph.IsAcyclic := by
    apply (SimpleGraph.isTree_iff_connected_and_card.mpr ⟨hconn, _⟩).isAcyclic
    rw [hedges, Nat.card_coe_set_eq, Set.ncard_pair (by decide), Nat.card_eq_fintype_card,
      Fintype.card_fin]
  exact ⟨hconn, fun read => (floods_once_iff_isAcyclic line hconn read).mpr hacyclic⟩

end Tnetacle.Tunnel
