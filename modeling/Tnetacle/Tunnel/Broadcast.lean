import Mathlib.Data.List.Nodup
import Tnetacle.Library.Run
import Tnetacle.Library.Vector
import Tnetacle.Meta.Endpoint

/-! # The device fiber and the broadcast fiber

`server_device` pushes frames on `frames_to_send` and wakes the broadcaster, which
passes every frame to every peer and then frees the whole queue. The broadcaster is
suspended in `async_yield` or in `async_sendto`; it holds iterators into the queue
while the device fiber may push. Both suspensions end on a wake, and the second one
should end only when the socket is writable. A frame is named by its raw packet, and
a peer by its place in the fixed list of peers.
-/

namespace Tnetacle.Tunnel

open Growable Runs

/-- Where the broadcaster is suspended; `frame` is what it has passed to `async_sendto`. -/
inductive Pc
  | yield
  | sendto (fit fite : Iter) (it : ℕ) (frame : ℕ)
  deriving DecidableEq, Repr

/-- `passed` and `sent` record the calls of `async_sendto` and of `sendto`. -/
structure Queue where
  framesToSend : Vec ℕ := {}
  next : ℕ := 0
  pc : Pc := .yield
  writeAdded : Bool := false
  yieldActive : Bool := false
  failed : Bool := false
  passed : List (ℕ × ℕ) := []
  sent : List (ℕ × ℕ) := []
  freed : List ℕ := []
  dangling : Bool := false
  deriving DecidableEq, Repr

inductive Label
  | device (moves : List Bool)
  | writable (ok : Bool)
  | wake
  deriving DecidableEq, Repr

namespace Queue

variable (peers : List Meta.Endpoint) (s : Queue)

def pushFrame (moved : Bool) : Queue :=
  { s with framesToSend := s.framesToSend.push s.next moved, next := s.next + 1 }

/-- `broadcast_udp_to_peers`. -/
def wakeBroadcaster : Queue := { s with yieldActive := true }

/--
One turn of the loop of `server_device`, which is not suspended between its reads. Each
packet read is a push, with or without a move of the storage.
-/
def serverDevice (moves : List Bool) : Queue :=
  let s := moves.foldl pushFrame s
  if 0 < s.framesToSend.data.length then s.wakeBroadcaster else s

/-- The call of `async_sendto` for the frame at `fit` and the peer at `it`. -/
def callSendto (fit fite : Iter) (it : ℕ) : Queue :=
  match s.framesToSend.deref fit with
  | none => { s with dangling := true }
  | some f =>
    { s with pc := .sendto fit fite it f, writeAdded := true, passed := s.passed ++ [(f, it)] }

/-- `v_frame_foreach(frame_free)`, `v_frame_clean`, and back to `async_yield`. -/
def finish : Queue :=
  { s with
    freed := s.freed ++ s.framesToSend.data, framesToSend := s.framesToSend.clean, pc := .yield }

/-- The head of the loop over the frames. Without peers its body does nothing. -/
def frameLoop (fit fite : Iter) : Queue :=
  if fit = fite ∨ peers = [] then s.finish else s.callSendto fit fite 0

def broadcastUdpToPeers : Queue := s.frameLoop peers s.framesToSend.first s.framesToSend.last

/--
After `async_sendto` has returned: a failure leaves the loop over the peers, and a
success is logged with the size of the frame.
-/
def afterSendto (fit fite : Iter) (it : ℕ) : Queue :=
  if s.failed then s.frameLoop peers fit.next fite
  else match s.framesToSend.deref fit with
    | none => { s with dangling := true }
    | some _ =>
      if it + 1 < peers.length then s.callSendto fit fite (it + 1)
      else s.frameLoop peers fit.next fite

def resume : Queue :=
  match s.pc with
  | .yield => s.broadcastUdpToPeers peers
  | .sendto fit fite it _ => s.afterSendto peers fit fite it

/-- The request in the slot is carried out on a write event, if there is one. -/
def carryOut (ok : Bool) : Queue :=
  match s.pc with
  | .yield => { s with writeAdded := false }
  | .sendto _ _ it f =>
    { s with writeAdded := false, sent := s.sent ++ [(f, it)], failed := !ok }

/-- `sched_dispatch` for the write event. -/
def dispatchWrite (ok : Bool) : Queue := (s.carryOut ok).resume peers

/-- `sched_dispatch` for the yield event, which carries nothing out. -/
def dispatchYield : Queue := { s with yieldActive := false }.resume peers

end Queue

/-- The device fiber runs when it likes; an event is dispatched when it is added or active. -/
def step (peers : List Meta.Endpoint) (s : Queue) (l : Label) : Option Queue :=
  if s.dangling then none
  else match l with
    | .device moves => some (s.serverDevice moves)
    | .writable ok => if s.writeAdded then some (s.dispatchWrite peers ok) else none
    | .wake => if s.yieldActive then some (s.dispatchYield peers) else none

end Tnetacle.Tunnel
