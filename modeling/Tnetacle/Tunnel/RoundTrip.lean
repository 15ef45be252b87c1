import Tnetacle.Meta.Endpoints
import Tnetacle.Tunnel.Delivery
import Tnetacle.Tunnel.Receive

/-! # From one tap device to another

`server_device` reads packets into frames, `_broadcast_udp_to_peers` writes the header
in front of each and sends it to the peers, and the receiver of another node, of any
byte order, writes the same packets to its own device.
-/

namespace Tnetacle.Tunnel

open ByteOrder Memory Meta Runs

def frameDynSize : ℕ := 1600

/-- A packet that one `read` of the tap device returns. -/
structure Packet where
  bytes : List Byte
  pos : 0 < bytes.length
  le : bytes.length ≤ frameDynSize

structure DeviceRead where
  packet : Packet
  malloc : Block (frameDynSize + sizeofPacketHdr)

/--
The loop of `server_device` over the packets that are ready: allocate, read behind the
header, store the size, push.
-/
def deviceLoop (tmp : Frame) : List DeviceRead → List Frame
  | [] => []
  | r :: rest =>
    let alloc := (frameAlloc tmp (some r.malloc.1) frameDynSize).2
    let tmp := {
      size := BitVec.ofNat 16 r.packet.bytes.length
      rawPacket := overwrite alloc.rawPacket sizeofPacketHdr r.packet.bytes }
    tmp :: deviceLoop tmp rest

section Send

variable (P : Platform)

def stamp (fit : Frame) : Frame :=
  { fit with rawPacket := overwrite fit.rawPacket 0 (store P.host (htons P.host fit.size)) }

/-- The loop over the peers for one frame; `sendOk` gives the results of the sends in order. -/
def broadcastFrame (fit : Frame) (sendOk : ℕ → Bool) : List UdpPeer → List (Endpoint × List Byte)
  | [] => []
  | it :: rest =>
    let fit := stamp P fit
    (it.peerAddr, fit.packet) ::
      if sendOk 0 then broadcastFrame fit (fun n => sendOk (n + 1)) rest else []

/-- The loop over the frames, when no other fiber interferes. -/
def broadcastUdpToPeers (udpPeers : List UdpPeer) (sendOk : ℕ → ℕ → Bool) :
    List Frame → List (Endpoint × List Byte)
  | [] => []
  | fit :: rest =>
    broadcastFrame P fit (sendOk 0) udpPeers ++
      broadcastUdpToPeers udpPeers (fun n => sendOk (n + 1)) rest

/-- All that a node sends for the packets it reads, one round for each turn of the device fiber. -/
def tunnelled (udpPeers : List UdpPeer) (turns : List (List DeviceRead)) :
    List (Endpoint × List Byte) :=
  turns.flatMap fun reads =>
    broadcastUdpToPeers P udpPeers (fun _ _ => true) (deviceLoop ⟨0, []⟩ reads)

def datagramsTo (b : Endpoint) (sent : List (Endpoint × List Byte)) : List (List Byte) :=
  (sent.filter fun m => endpointCmp P m.1 b = 0).map (·.2)

end Send

def encoded (p : Packet) : List Byte :=
  let size : Word := BitVec.ofNat 16 p.bytes.length
  Word.high size :: Word.low size :: p.bytes

section Encode

variable {P : Platform}

theorem stamp_rawPacket (fit : Frame) :
    (stamp P fit).rawPacket = Word.high fit.size :: Word.low fit.size :: fit.frame := by
  simp [stamp, overwrite_zero, store_htons, Frame.frame, sizeofPacketHdr]

theorem stamp_stamp (fit : Frame) : stamp P (stamp P fit) = stamp P fit := by
  have hsize : (stamp P fit).size = fit.size := rfl
  have hraw : (stamp P (stamp P fit)).rawPacket = (stamp P fit).rawPacket := by
    rw [stamp_rawPacket, hsize, Frame.frame, stamp_rawPacket]
    simp [sizeofPacketHdr]
  rw [stamp, stamp] at hraw ⊢
  simpa using hraw

theorem broadcastFrame_eq_map (fit : Frame) (sendOk : ℕ → Bool) (udpPeers : List UdpPeer) :
    broadcastFrame P fit sendOk udpPeers =
      (tried sendOk udpPeers).map fun u => (u.peerAddr, (stamp P fit).packet) := by
  induction udpPeers generalizing fit sendOk with
  | nil => rfl
  | cons it rest ih => cases hok : sendOk 0 <;> simp [broadcastFrame, tried, hok, ih, stamp_stamp]

theorem broadcastFrame_of_ok (fit : Frame) (udpPeers : List UdpPeer) :
    broadcastFrame P fit (fun _ => true) udpPeers =
      udpPeers.map fun u => (u.peerAddr, (stamp P fit).packet) := by
  rw [broadcastFrame_eq_map, tried_of_ok]

theorem broadcastUdpToPeers_of_ok (udpPeers : List UdpPeer) (frames : List Frame) :
    broadcastUdpToPeers P udpPeers (fun _ _ => true) frames =
      frames.flatMap fun fit => udpPeers.map fun u => (u.peerAddr, (stamp P fit).packet) := by
  induction frames with
  | nil => rfl
  | cons fit rest ih => simp [broadcastUdpToPeers, broadcastFrame_of_ok, ih]

theorem toNat_length (p : Packet) :
    (BitVec.ofNat 16 p.bytes.length : Word).toNat = p.bytes.length := by
  have hle := p.le
  rw [BitVec.toNat_ofNat, Nat.mod_eq_of_lt]
  rw [frameDynSize] at hle
  omega

theorem packet_deviceLoop (tmp : Frame) (reads : List DeviceRead) :
    (deviceLoop tmp reads).map (fun fit => (stamp P fit).packet) =
      reads.map fun r => encoded r.packet := by
  induction reads generalizing tmp with
  | nil => rfl
  | cons r rest ih =>
    rw [deviceLoop, List.map_cons, List.map_cons, ih]
    congr 1
    have hblock : sizeofPacketHdr ≤ r.malloc.1.length := by
      rw [r.malloc.2]
      exact Nat.le_add_left _ _
    have hframe := drop_overwrite r.malloc.1 r.packet.bytes hblock
    rw [Frame.packet, stamp_rawPacket]
    simp only [frameAlloc, Frame.frame, hframe, stamp, toNat_length, encoded]
    simp [sizeofPacketHdr]

theorem length_datagramsTo_le (s : Server) (b : Endpoint) (fit : Frame) (sendOk : ℕ → Bool) :
    (datagramsTo P b (broadcastFrame P fit sendOk s.udp.udpPeers)).length ≤ s.copiesTo P b := by
  rw [Server.copiesTo, timesRegistered]
  induction s.udp.udpPeers generalizing fit sendOk with
  | nil => exact Nat.le_refl _
  | cons it rest ih =>
    have hrest := ih (stamp P fit) fun n => sendOk (n + 1)
    rw [broadcastFrame, datagramsTo, List.filter_cons, List.countP_cons]
    simp only [datagramsTo, List.length_map] at hrest ⊢
    cases sendOk 0
    · split <;> simp_all
    · split <;> simp_all

theorem datagramsTo_broadcast (udpPeers : List UdpPeer) (b : Endpoint) (frames : List Frame) :
    datagramsTo P b (broadcastUdpToPeers P udpPeers (fun _ _ => true) frames) =
      frames.flatMap fun fit =>
        List.replicate (timesRegistered P udpPeers b) (stamp P fit).packet := by
  have hone : ∀ bytes : List Byte, ((udpPeers.map fun u => (u.peerAddr, bytes)).filter
      fun m => endpointCmp P m.1 b = 0).map (·.2) =
        List.replicate (timesRegistered P udpPeers b) bytes := by
    intro bytes
    rw [List.filter_map, List.map_map, timesRegistered, List.countP_eq_length_filter]
    exact List.map_const'
  rw [broadcastUdpToPeers_of_ok, datagramsTo]
  induction frames with
  | nil => rfl
  | cons fit rest ih =>
    rw [List.flatMap_cons, List.filter_append, List.map_append, hone, ih, List.flatMap_cons]

theorem datagramsTo_tunnelled (udpPeers : List UdpPeer) (b : Endpoint)
    (turns : List (List DeviceRead)) :
    datagramsTo P b (tunnelled P udpPeers turns) = turns.flatten.flatMap fun r =>
      List.replicate (timesRegistered P udpPeers b) (encoded r.packet) := by
  induction turns with
  | nil => rfl
  | cons reads rest ih =>
    have hsplit : datagramsTo P b (tunnelled P udpPeers (reads :: rest)) =
        datagramsTo P b (broadcastUdpToPeers P udpPeers (fun _ _ => true)
          (deviceLoop ⟨0, []⟩ reads)) ++ datagramsTo P b (tunnelled P udpPeers rest) := by
      simp [datagramsTo, tunnelled]
    have hpackets := congrArg (List.flatMap
      (List.replicate (timesRegistered P udpPeers b))) (packet_deviceLoop (P := P) ⟨0, []⟩ reads)
    rw [List.flatMap_map, List.flatMap_map] at hpackets
    rw [hsplit, ih, datagramsTo_broadcast, hpackets, List.flatten_cons, List.flatMap_append]

end Encode

/-! ## The fibers of the sender -/

section Rounds

variable {P : Platform}

/-- The datagrams that a log of sends stands for; it names frames and peers by their places. -/
def messages (P : Platform) (udpPeers : List UdpPeer) (frames : List Frame)
    (sent : List (ℕ × ℕ)) : List (Endpoint × List Byte) :=
  sent.filterMap fun p => frames[p.1]?.bind fun fit =>
    udpPeers[p.2]?.map fun it => (it.peerAddr, (stamp P fit).packet)

theorem map_getElem?_range {α : Type*} (l : List α) :
    (List.range l.length).map (l[·]?) = l.map some := by
  apply List.ext_getElem <;> simp

theorem messages_round {peers : List Endpoint} {udpPeers : List UdpPeer}
    (hlen : peers.length = udpPeers.length) (frames : List Frame) :
    messages P udpPeers frames (round peers (List.range frames.length)) =
      broadcastUdpToPeers P udpPeers (fun _ _ => true) frames := by
  have hone : ∀ fit : Option Frame, (List.range udpPeers.length).filterMap (fun i =>
      fit.bind fun fit => udpPeers[i]?.map fun it => (it.peerAddr, (stamp P fit).packet)) =
        fit.toList.flatMap fun fit =>
          udpPeers.map fun it => (it.peerAddr, (stamp P fit).packet) := by
    rintro (_ | fit)
    · simp
    · have hpeers := congrArg (List.filterMap fun u : Option UdpPeer =>
        u.map fun it => (it.peerAddr, (stamp P fit).packet)) (map_getElem?_range udpPeers)
      simpa [List.filterMap_map, Function.comp_def] using hpeers
  have hframes := congrArg (List.flatMap fun fit : Option Frame => fit.toList.flatMap fun fit =>
    udpPeers.map fun it => (it.peerAddr, (stamp P fit).packet)) (map_getElem?_range frames)
  rw [List.flatMap_map, List.flatMap_map] at hframes
  rw [broadcastUdpToPeers_of_ok, messages, round, List.filterMap_flatMap]
  simp only [List.filterMap_map, Function.comp_def, hlen, hone]
  simpa using hframes

theorem broadcastUdpToPeers_flatMap (udpPeers : List UdpPeer) (turns : List (List DeviceRead)) :
    broadcastUdpToPeers P udpPeers (fun _ _ => true) (turns.flatMap (deviceLoop ⟨0, []⟩)) =
      tunnelled P udpPeers turns := by
  simp only [tunnelled, broadcastUdpToPeers_of_ok, List.flatMap_assoc]

/--
The two fibers of a node send what `tunnelled` says: in every run in which rounds are
quiet and no send fails, once the frames of `turns` have been pushed and the queue is
empty again.
-/
theorem messages_of_quiet {udpPeers : List UdpPeer} {turns : List (List DeviceRead)}
    {ls : List Label} {s : Queue}
    (h : Along (step (udpPeers.map (·.peerAddr))) QuietRound {} ls)
    (hrun : Run (step (udpPeers.map (·.peerAddr))) {} ls s)
    (hpc : s.pc = .yield) (hempty : s.framesToSend.data = [])
    (hnext : s.next = (turns.flatMap (deviceLoop ⟨0, []⟩)).length) :
    messages P udpPeers (turns.flatMap (deviceLoop ⟨0, []⟩)) s.sent =
      tunnelled P udpPeers turns := by
  have hfreed : s.freed = List.range s.next := by
    have hframes := (shaped_of_run hrun).frames
    rwa [hempty, List.append_nil] at hframes
  rw [sent_of_quiet h hrun hpc, hfreed, hnext, messages_round (List.length_map _),
    broadcastUdpToPeers_flatMap]

end Rounds

section Decode

variable {P : Platform}

theorem claimedSize_encoded (p : Packet) : claimedSize (encoded p) = some p.bytes.length := by
  rw [encoded, claimedSize, ofBytes_high_low, toNat_length]

theorem length_encoded (p : Packet) : (encoded p).length = 2 + p.bytes.length := by
  rw [encoded, List.length_cons, List.length_cons]
  omega

theorem writes_of_encoded {a : Arrival} {p : Packet} (h : a.datagram = encoded p) :
    (turn P a).writes = [p.bytes] := by
  have hsize : claimedSize a.datagram = some p.bytes.length := by rw [h, claimedSize_encoded]
  have hlen : a.datagram.length = 2 + p.bytes.length := by rw [h, length_encoded]
  rw [turn_of_whole hsize hlen.ge, properEmission, hsize]
  simp only [hlen.ge, if_true, List.take_of_length_le hlen.le]
  rw [h]
  rfl

theorem writes_of_stream {as : List Arrival} {ps : List Packet}
    (h : as.map (·.datagram) = ps.map encoded) :
    as.map ((·.writes) ∘ turn P) = ps.map fun p => [p.bytes] := by
  induction as generalizing ps with
  | nil =>
    cases ps with
    | nil => rfl
    | cons p ps => cases h
  | cons a as ih =>
    cases ps with
    | nil => cases h
    | cons p ps =>
      rw [List.map_cons, List.map_cons, List.cons.injEq] at h
      rw [List.map_cons, List.map_cons, ih h.2, Function.comp_apply, writes_of_encoded h.1]

end Decode

/--
If all that the node `A` sends to the node `b` arrives there unmodified and in order, then
`b`, of any byte order, writes to its device exactly the packets read from the device of
`A`, one write for each. Were `b` registered several times, it would write each packet
as often.
-/
theorem tunnel_round_trip (A B : Platform) (udpPeers : List UdpPeer) (b : Endpoint)
    (turns : List (List DeviceRead)) {as : List Arrival}
    (hnet : as.map (·.datagram) = datagramsTo A b (tunnelled A udpPeers turns))
    (hrecv : ∀ a ∈ as, a.received = true) (frame : Frame) :
    (timesRegistered A udpPeers b = 1 →
      (serverUdp B frame as).map (·.writes) = turns.flatten.map fun r => [r.packet.bytes]) ∧
    (serverUdp B frame as).map (·.writes) = turns.flatten.flatMap fun r =>
      List.replicate (timesRegistered A udpPeers b) [r.packet.bytes] := by
  have hall : (serverUdp B frame as).map (·.writes) = turns.flatten.flatMap fun r =>
      List.replicate (timesRegistered A udpPeers b) [r.packet.bytes] := by
    have hpackets : as.map (·.datagram) = (turns.flatten.flatMap fun r =>
        List.replicate (timesRegistered A udpPeers b) r.packet).map encoded := by
      rw [hnet, datagramsTo_tunnelled, List.map_flatMap]
      simp
    rw [serverUdp_eq_map, List.takeWhile_eq_self_iff.mpr hrecv, List.map_map,
      writes_of_stream hpackets, List.map_flatMap]
    simp
  refine ⟨fun hone => ?_, hall⟩
  rw [hall, hone]
  exact List.map_eq_flatMap.symm

/-- Two packets, read in two turns, from a little-endian node to a big-endian one. -/
theorem two_packets_round_trip :
    let A : Platform := .reference
    let B : Platform := { Platform.reference with host := .big }
    let b := endpointInit (.inet 0x0a000002 0x8813)
    let udpPeers : List UdpPeer := [⟨endpointInit (.inet 0x0a000003 0x8813), dtlsDisable, 0⟩,
      ⟨b, dtlsDisable, 1⟩]
    let block : Block (frameDynSize + sizeofPacketHdr) :=
      ⟨List.replicate 1602 0x77, List.length_replicate⟩
    let turns : List (List DeviceRead) := [[⟨⟨[1, 2, 3], by decide, by decide⟩, block⟩],
      [⟨⟨[4], by decide, by decide⟩, block⟩]]
    let arrive (d : List Byte) : Arrival := {
      datagram := d, source := .inet 0x0a000001 0x8813, hdr := ⟨[9, 9], rfl⟩
      malloc := fun n => ⟨List.replicate n 0x55, List.length_replicate⟩, udpPeers := [] }
    let as := (datagramsTo A b (tunnelled A udpPeers turns)).map arrive
    (serverUdp B ⟨0, []⟩ as).map (·.writes) = [[[1, 2, 3]], [[4]]] := by
  intro A B b udpPeers block turns arrive as
  have hb : timesRegistered A udpPeers b = 1 := by decide
  have hnet : as.map (·.datagram) = datagramsTo A b (tunnelled A udpPeers turns) := by
    rw [List.map_map]
    exact List.map_id _
  have hrecv : ∀ a ∈ as, a.received = true := by
    intro a ha
    obtain ⟨d, -, rfl⟩ := List.mem_map.mp ha
    rfl
  exact (tunnel_round_trip A B udpPeers b turns hnet hrecv ⟨0, []⟩).1 hb

end Tnetacle.Tunnel
