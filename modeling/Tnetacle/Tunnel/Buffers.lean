import Tnetacle.Library.Ledger
import Tnetacle.Library.Run
import Tnetacle.Library.Vector

/-! # Who owns the frame buffers

A buffer that `frame_alloc` returns belongs to the variable of `server_device`, to an entry of
`frames_to_send`, or to the variable of `server_udp`. It changes hands by copies of `struct
frame`. A failed `frame_alloc` leaves its argument as it is, and none of its callers looks at
its result. The peers matter only for the number of sends, which the labels give.
-/

namespace Tnetacle.Tunnel

open Growable Ledgers Runs

/-- Where a `raw_packet` that owns nothing points. -/
inductive Pointer | wild | null | buf (n : ℕ)
  deriving DecidableEq, Repr

/-- A variable of type `struct frame`. -/
inductive FrameVar | owns (n : ℕ) | shows (p : Pointer)
  deriving DecidableEq, Repr

def FrameVar.held : FrameVar → List ℕ
  | .owns n => [n]
  | .shows _ => []

/-- Where the broadcaster is suspended: `left` peers are left, `frame` is being sent. -/
inductive SendPc
  | yield
  | sendto (fit fite : Iter) (left : ℕ) (frame : ℕ)
  deriving DecidableEq, Repr

inductive RecvPc | peek | recv | sendto (left : ℕ) | write | exited
  deriving DecidableEq, Repr

structure Buffers where
  heap : Ledger := {}
  framesToSend : Vec ℕ := {}
  launched : Bool := false
  tmp : FrameVar := .shows .wild
  brd : SendPc := .yield
  currentFrame : FrameVar := .shows .null
  udp : RecvPc := .peek
  fault : Bool := false
  deriving DecidableEq, Repr

/-- What the three fibers are resumed with, and what the allocations return meanwhile. -/
inductive BufLabel
  | launchDevice (alloc : Bool)
  | device (reads : List (Bool × Bool)) (alloc : Bool)
  | wake (peers : ℕ)
  | sent (ok : Bool) (peers : ℕ)
  | peeked (ok alloc : Bool)
  | received (ok : Bool) (others : ℕ)
  | forwarded (ok : Bool)
  | written
  deriving DecidableEq, Repr

namespace Buffers

variable (s : Buffers)

/-- `frame_alloc(&tmp, ...)`. -/
def allocTmp (ok : Bool) : Buffers :=
  if ok then { s with heap := s.heap.alloc, tmp := .owns s.heap.next } else s

/-- `frame_alloc(&current_frame, ...)`. -/
def allocCurrent (ok : Bool) : Buffers :=
  if ok then { s with heap := s.heap.alloc, currentFrame := .owns s.heap.next } else s

/-- `frame_free` of a variable, which still points to the buffer afterwards. -/
def freeVar (f : FrameVar) : Option (Ledger × FrameVar) :=
  match f with
  | .owns n => (s.heap.free n).map (·, .shows (.buf n))
  | .shows .null => some (s.heap, f)
  | .shows _ => none

/-- A packet is read into `tmp`, which is pushed: the entry owns the buffer from now on. -/
def pushTmp (moved : Bool) : Option Buffers :=
  match s.tmp with
  | .owns n =>
    some { s with framesToSend := s.framesToSend.push n moved, tmp := .shows (.buf n) }
  | .shows _ => none

/-- The inner loop of `server_device`; a read is a push, with or without a move, and an alloc. -/
def readLoop : List (Bool × Bool) → Buffers → Option Buffers
  | [], s => some s
  | (moved, ok) :: rest, s => do readLoop rest ((← s.pushTmp moved).allocTmp ok)

/-- One turn of `server_device`, from one `async_event` to the next. -/
def serverDevice (reads : List (Bool × Bool)) (alloc : Bool) : Option Buffers := do
  let s ← readLoop reads s
  let (heap, tmp) ← s.freeVar s.tmp
  return { s with heap := heap, tmp := tmp }.allocTmp alloc

/-- The header is written and the frame is passed to `async_sendto`. -/
def callSendto (fit fite : Iter) (left : ℕ) : Option Buffers := do
  let n ← s.framesToSend.deref fit
  return { s with brd := .sendto fit fite left n }

/-- `v_frame_foreach(frame_free)`, `v_frame_clean`, and back to `async_yield`. -/
def finish : Option Buffers := do
  let heap ← s.heap.freeAll s.framesToSend.data
  return { s with heap := heap, framesToSend := s.framesToSend.clean, brd := .yield }

def frameLoop (fit fite : Iter) (peers : ℕ) : Option Buffers :=
  if fit = fite ∨ peers = 0 then s.finish else s.callSendto fit fite peers

/-- `async_sendto` has used the frame; a success is logged with the size of the frame. -/
def afterSendto (fit fite : Iter) (left frame : ℕ) (ok : Bool) (peers : ℕ) : Option Buffers :=
  if frame ∉ s.framesToSend.data then none
  else if ok then do
    let _ ← s.framesToSend.deref fit
    if 1 < left then s.callSendto fit fite (left - 1) else s.frameLoop fit.next fite peers
  else s.frameLoop fit.next fite peers

/-- The fiber of `server_udp` ends, and its variable with it. -/
def exitUdp : Buffers :=
  { s with
    udp := .exited
    currentFrame := match s.currentFrame with
      | .owns n => .shows (.buf n)
      | f => f }

/-- `frame_recvfrom` after its first call. -/
def afterPeek (ok alloc : Bool) : Buffers :=
  if ok then { s.allocCurrent alloc with udp := .recv } else s.exitUdp

def afterRecv (ok : Bool) (others : ℕ) : Option Buffers :=
  if ok then
    match s.currentFrame with
    | .owns _ => some { s with udp := if others = 0 then .write else .sendto others }
    | .shows _ => none
  else some s.exitUdp

def afterForward (left : ℕ) (ok : Bool) : Option Buffers :=
  match s.currentFrame with
  | .owns _ => some { s with udp := if ok ∧ 1 < left then .sendto (left - 1) else .write }
  | .shows _ => none

/-- `frame_free(&current_frame)`, and back to the head of the loop. -/
def afterWrite : Option Buffers :=
  match s.currentFrame with
  | .owns _ => do
    let (heap, currentFrame) ← s.freeVar s.currentFrame
    return { s with heap := heap, currentFrame := currentFrame, udp := .peek }
  | .shows _ => none

/-- The use of what is not owned, and a second release, end the process. -/
def orFault (r : Option Buffers) : Buffers := r.getD { s with fault := true }

end Buffers

/-- A fiber is resumed where it is suspended, and nothing happens after a fault. -/
def bufStep (s : Buffers) (l : BufLabel) : Option Buffers :=
  if s.fault then none
  else match l with
    | .launchDevice alloc =>
      if s.launched then none else some { s.allocTmp alloc with launched := true }
    | .device reads alloc =>
      if s.launched then some (s.orFault (s.serverDevice reads alloc)) else none
    | .wake peers =>
      match s.brd with
      | .yield => some (s.orFault (s.frameLoop s.framesToSend.first s.framesToSend.last peers))
      | .sendto .. => none
    | .sent ok peers =>
      match s.brd with
      | .yield => none
      | .sendto fit fite left frame => some (s.orFault (s.afterSendto fit fite left frame ok peers))
    | .peeked ok alloc => if s.udp = .peek then some (s.afterPeek ok alloc) else none
    | .received ok others =>
      if s.udp = .recv then some (s.orFault (s.afterRecv ok others)) else none
    | .forwarded ok =>
      match s.udp with
      | .sendto left => some (s.orFault (s.afterForward left ok))
      | _ => none
    | .written => if s.udp = .write then some (s.orFault s.afterWrite) else none

end Tnetacle.Tunnel
