import Mathlib.Data.List.Forall2
import Tnetacle.Tunnel.Frame

/-! # What a datagram makes the receiver emit

The receiver believes the size in the header. It emits exactly the frame of the
datagram when the datagram holds as many bytes as its header claims; it emits the
bytes that its buffer happened to hold when the datagram is shorter.
-/

namespace Tnetacle.Tunnel

open ByteOrder Memory Meta

def claimedSize : List Byte → Option ℕ
  | b₀ :: b₁ :: _ => some (ofBytes b₀ b₁).toNat
  | _ => none

/-- The datagram holds a header and the frame that the header claims. -/
def Whole (d : List Byte) : Prop := ∃ size, claimedSize d = some size ∧ 2 + size ≤ d.length

def tried {α : Type*} (ok : ℕ → Bool) : List α → List α
  | [] => []
  | a :: rest => a :: if ok 0 then tried (fun n => ok (n + 1)) rest else []

section Tried

variable {α β : Type*}

theorem tried_of_ok (l : List α) : tried (fun _ => true) l = l := by
  induction l with
  | nil => rfl
  | cons a rest ih => simp [tried, ih]

theorem tried_map (ok : ℕ → Bool) (f : α → β) (l : List α) :
    tried ok (l.map f) = (tried ok l).map f := by
  induction l generalizing ok with
  | nil => rfl
  | cons a rest ih => cases hok : ok 0 <;> simp [tried, hok, ih]

end Tried

variable (P : Platform)

def otherPeers (a : Arrival) : List Endpoint :=
  (tried a.sendOk (a.udpPeers.filter fun u =>
    endpointCmp P u.peerAddr (endpointInit a.source) ≠ 0)).map (·.peerAddr)

/-- What the receiver should emit: the packet and the frame of a whole datagram, or nothing. -/
def properEmission (a : Arrival) : Emission :=
  match claimedSize a.datagram with
  | none => ⟨[], []⟩
  | some size =>
    if 2 + size ≤ a.datagram.length then
      ⟨(otherPeers P a).map (·, a.datagram.take (2 + size)),
        [(a.datagram.take (2 + size)).drop 2]⟩
    else ⟨[], []⟩

theorem forward_eq_map (frame : Frame) (current : Endpoint) (sendOk : ℕ → Bool)
    (peers : List UdpPeer) :
    forwardUdpFrameToOtherPeers P frame current sendOk peers =
      (tried sendOk (peers.filter fun u => endpointCmp P u.peerAddr current ≠ 0)).map
        fun u => (u.peerAddr, frame.packet) := by
  induction peers generalizing sendOk with
  | nil => rfl
  | cons it rest ih =>
    rw [forwardUdpFrameToOtherPeers]
    split
    · rename_i hsame
      rw [ih, List.filter_cons_of_neg (by simp [hsame])]
    · rename_i hother
      rw [List.filter_cons_of_pos (by simpa using hother), tried, List.map_cons]
      cases sendOk 0 <;> simp [ih]

section Received

variable {P} {a : Arrival}

def receivedFrame (P : Platform) (a : Arrival) : Frame :=
  let n := (peekedSize P a).toNat + sizeofPacketHdr
  ⟨peekedSize P a, overwrite (a.malloc n).1 0 (a.datagram.take n)⟩

theorem frameRecvfrom_eq (frame : Frame) (a : Arrival) :
    frameRecvfrom P frame a = if a.received then some (receivedFrame P a) else none := by
  unfold frameRecvfrom Arrival.received
  cases hp : a.peek <;> cases hr : a.recvFails <;> simp [frameAlloc, receivedFrame]

theorem peekedSize_of_claimed {size : ℕ} (h : claimedSize a.datagram = some size) :
    (peekedSize P a).toNat = size := by
  rcases hd : a.datagram with _ | ⟨b₀, _ | ⟨b₁, rest⟩⟩
  · rw [hd] at h; cases h
  · rw [hd] at h; cases h
  · rw [hd, claimedSize, Option.some.injEq] at h
    simp [peekedSize, hd, sizeofPacketHdr, overwrite_zero, ntohs_load, h]

theorem rawPacket_of_whole {size : ℕ} (h : claimedSize a.datagram = some size)
    (hlen : 2 + size ≤ a.datagram.length) :
    (receivedFrame P a).rawPacket = a.datagram.take (2 + size) := by
  have hsize := peekedSize_of_claimed (P := P) h
  have hblock := (a.malloc ((peekedSize P a).toNat + sizeofPacketHdr)).2
  rw [receivedFrame, overwrite_zero, List.drop_eq_nil_of_le, List.append_nil, hsize,
    sizeofPacketHdr, Nat.add_comm]
  rw [hblock, List.length_take, hsize, sizeofPacketHdr]
  omega

def turn (P : Platform) (a : Arrival) : Emission :=
  let frame := receivedFrame P a
  ⟨forwardUdpFrameToOtherPeers P frame (endpointInit a.source) a.sendOk a.udpPeers,
    [frame.frame.take frame.size.toNat]⟩

theorem serverUdp_eq_map (frame : Frame) (as : List Arrival) :
    serverUdp P frame as = (as.takeWhile Arrival.received).map (turn P) := by
  induction as generalizing frame with
  | nil => rfl
  | cons a rest ih =>
    rw [serverUdp, frameRecvfrom_eq]
    cases hr : a.received with
    | false => simp [hr]
    | true => simp [hr, ih, turn]

theorem turn_of_whole {size : ℕ} (h : claimedSize a.datagram = some size)
    (hlen : 2 + size ≤ a.datagram.length) : turn P a = properEmission P a := by
  have hsize : (receivedFrame P a).size.toNat = size := peekedSize_of_claimed h
  have hraw := rawPacket_of_whole (P := P) h hlen
  have hpacket : (receivedFrame P a).packet = a.datagram.take (2 + size) := by
    rw [Frame.packet, hraw, hsize, sizeofPacketHdr, Nat.add_comm, List.take_take, Nat.min_self]
  have hframe : (receivedFrame P a).frame.take size = (a.datagram.take (2 + size)).drop 2 := by
    rw [Frame.frame, hraw, sizeofPacketHdr, List.take_of_length_le]
    simp only [List.length_drop, List.length_take]
    omega
  simp [turn, properEmission, h, hlen, otherPeers, forward_eq_map, hpacket, hsize, hframe]

/-- The receiver emits what it should exactly for the datagrams that are whole. -/
theorem turn_eq_proper_iff : turn P a = properEmission P a ↔ Whole a.datagram := by
  constructor
  · intro h
    by_contra hno
    have hnone : properEmission P a = ⟨[], []⟩ := by
      unfold properEmission
      split
      · rfl
      · rename_i size hsize
        rw [if_neg fun hlen => hno ⟨size, hsize, hlen⟩]
    rw [hnone] at h
    cases congrArg Emission.writes h
  · rintro ⟨size, hsize, hlen⟩
    exact turn_of_whole hsize hlen

end Received

/--
In every sequence of datagrams, whatever the buffers held before, the emission for each
datagram received is the proper one if and only if that datagram is whole.
-/
theorem emission_proper_iff_whole (frame : Frame) (as : List Arrival) :
    List.Forall₂ (fun a e => e = properEmission P a ↔ Whole a.datagram)
      (as.takeWhile Arrival.received) (serverUdp P frame as) := by
  rw [serverUdp_eq_map, List.forall₂_map_right_iff, List.forall₂_same]
  exact fun a _ => turn_eq_proper_iff

/--
Three bytes arrive, whose first two claim four. The receiver writes the third one and
three bytes of its buffer to the tap device, and forwards them to another peer.
-/
theorem short_datagram_emits_buffer :
    let a : Arrival := {
      datagram := [0, 4, 0xaa], source := .inet 0x0a000002 0x8813, hdr := ⟨[0, 0], rfl⟩
      malloc := fun n => ⟨List.replicate n 0x77, List.length_replicate⟩
      udpPeers := [⟨endpointInit (.inet 0x0a000003 0x8813), dtlsDisable, 0⟩] }
    serverUdp .reference ⟨0, []⟩ [a] =
        [⟨[(endpointInit (.inet 0x0a000003 0x8813), [0, 4, 0xaa, 0x77, 0x77, 0x77])],
          [[0xaa, 0x77, 0x77, 0x77]]⟩] ∧
      serverUdp .reference ⟨0, []⟩ [a] ≠ [properEmission .reference a] := by
  decide

end Tnetacle.Tunnel
