import Tnetacle.Library.Memory
import Tnetacle.Meta.Server

/-! # Frames on their way from the network

The functions of `frame.c` and the receiving fiber of `udp.c`. A datagram starts with
the size of the frame behind it, in network order. The receiver peeks at the header,
allocates what the header claims, receives the datagram into it, forwards the packet
to the other peers and writes the frame to the tap device.
-/

namespace Tnetacle.Tunnel

open ByteOrder Memory Meta

/-- `sizeof(struct packet_hdr)`, a packed structure. -/
def sizeofPacketHdr : ℕ := 2

/-- `struct frame`, with the contents of the block that `raw_packet` shows. -/
structure Frame where
  size : Word
  rawPacket : List Byte
  deriving DecidableEq, Repr

/-- The pointer `frame` shows what is behind the header. -/
def Frame.frame (f : Frame) : List Byte := f.rawPacket.drop sizeofPacketHdr

def Frame.packet (f : Frame) : List Byte := f.rawPacket.take (f.size.toNat + sizeofPacketHdr)

/-- `frame_alloc`, where `malloc` is what the allocation returned. -/
def frameAlloc (frame : Frame) (malloc : Option (List Byte)) (size : ℕ) : Int × Frame :=
  match malloc with
  | none => (-1, frame)
  | some tmpRawPacket => (0, ⟨BitVec.ofNat 16 size, tmpRawPacket⟩)

/-- How the peek at a header ends; some systems report that the datagram is longer. -/
inductive Peek | copied | msgTooLong | failed
  deriving DecidableEq, Repr

/--
A datagram at the head of the socket's queue, with all that the receiver finds while it
handles it: what is left on its stack and in the block it allocates, the peers of
the moment, and the results of the calls it makes.
-/
structure Arrival where
  datagram : List Byte
  source : Sockaddr
  peek : Peek := .copied
  recvFails : Bool := false
  hdr : Block sizeofPacketHdr
  malloc : ∀ n, Block n
  udpPeers : List UdpPeer
  sendOk : ℕ → Bool := fun _ => true

def Arrival.received (a : Arrival) : Bool := a.peek ≠ .failed && !a.recvFails

structure Emission where
  forwards : List (Endpoint × List Byte)
  writes : List (List Byte)
  deriving DecidableEq

section Receive

variable (P : Platform)

/-- The size field of the header once the peek has copied the start of the datagram. -/
def peekedSize (a : Arrival) : Word :=
  let hdr := overwrite a.hdr.1 0 (a.datagram.take sizeofPacketHdr)
  ntohs P.host (load P.host (hdr.getD 0 0) (hdr.getD 1 0))

/-- The frame filled by the second receive, or `none` for a result of -1. -/
def frameRecvfrom (frame : Frame) (a : Arrival) : Option Frame :=
  if a.peek = .failed then none
  else
    let localSize := peekedSize P a
    let frame := (frameAlloc frame (some (a.malloc (localSize.toNat + sizeofPacketHdr)).1)
      localSize.toNat).2
    if a.recvFails then none
    else
      let bytes := a.datagram.take (frame.size.toNat + sizeofPacketHdr)
      some { frame with rawPacket := overwrite frame.rawPacket 0 bytes }

/-- A failed send ends the loop over the peers; `sendOk` gives the results in order. -/
def forwardUdpFrameToOtherPeers (frame : Frame) (current : Endpoint) (sendOk : ℕ → Bool) :
    List UdpPeer → List (Endpoint × List Byte)
  | [] => []
  | it :: rest =>
    if endpointCmp P it.peerAddr current = 0 then
      forwardUdpFrameToOtherPeers frame current sendOk rest
    else
      (it.peerAddr, frame.packet) ::
        if sendOk 0 then
          forwardUdpFrameToOtherPeers frame current (fun n => sendOk (n + 1)) rest
        else []

/-- The loop of `server_udp` from the frame it holds, until a receive fails. -/
def serverUdp (frame : Frame) : List Arrival → List Emission
  | [] => []
  | a :: rest =>
    match frameRecvfrom P frame a with
    | none => []
    | some frame =>
      ⟨forwardUdpFrameToOtherPeers P frame (endpointInit a.source) a.sendOk a.udpPeers,
        [frame.frame.take frame.size.toNat]⟩ :: serverUdp frame rest

end Receive

end Tnetacle.Tunnel
