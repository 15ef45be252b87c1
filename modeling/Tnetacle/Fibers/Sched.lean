import Mathlib.Data.List.Basic
import Mathlib.Logic.Function.Basic

/-! # Fibers and their scheduler

The data of `tntsched.h` and the functions of `sched.c`. A fiber that makes an
`async_` call arms a libevent event, writes the request into its `fib_op` slot
and transfers to `origin_ctx`; `sched_dispatch` is the callback of every event
and performs the request before it transfers back. Of libevent the model keeps
which events are added, timed or active; which of them fires, and what a system
call returns, is chosen by the label of the step.
-/

namespace Tnetacle.Fibers

/-- `intptr_t`, the type of all slots of `struct operation`. -/
abbrev IntPtr := BitVec 64

/-- `evutil_socket_t`, kept at the width of the slot it is stored in. -/
abbrev Fd := IntPtr

def evTimeout : BitVec 16 := 0x01
def evRead : BitVec 16 := 0x02
def evWrite : BitVec 16 := 0x04

/-- The readiness an event of `get_events` waits for. -/
inductive Direction | read | write
  deriving DecidableEq, Repr

def Direction.flag : Direction → BitVec 16
  | .read => evRead
  | .write => evWrite

inductive SchedOperation
  | none | read | write | accept | recvfrom | sendto | send | recv | yield | free | event
  deriving DecidableEq, Repr

/-- `struct operation`: one request of a fiber and its result. -/
structure Operation where
  opType : SchedOperation := .none
  fd : IntPtr := 0
  ret : IntPtr := 0
  arg1 : IntPtr := 0
  arg2 : IntPtr := 0
  arg3 : IntPtr := 0
  arg4 : IntPtr := 0
  arg5 : IntPtr := 0
  arg6 : IntPtr := 0
  deriving DecidableEq, Repr

/-- A call of a fiber that suspends it, with the arguments it is given. -/
inductive Call
  | recvfrom (fd : Fd) (buf len flag sock socklen : IntPtr)
  | accept (fd : Fd) (sock socklen : IntPtr)
  | recv (fd : Fd) (buf len flags : IntPtr)
  | send (fd : Fd) (buf len flags : IntPtr)
  | read (fd : Fd) (buf len : IntPtr)
  | write (fd : Fd) (buf len : IntPtr)
  | sendto (fd : Fd) (buf len flags dst socklen : IntPtr)
  | event (fd : Fd) (flag : BitVec 16)
  | sleep (time : IntPtr)
  | yield (yielded : IntPtr)
  | continueWith (fib : ℕ) (data : IntPtr)
  deriving DecidableEq, Repr

/-- A system call made by `sched_dispatch`. -/
inductive Syscall
  | accept (fd sock socklen : IntPtr)
  | recvfrom (fd buf len flag sock socklen : IntPtr)
  | recv (fd buf len flags : IntPtr)
  | read (fd buf len : IntPtr)
  | send (fd buf len flags : IntPtr)
  | sendto (fd buf len flags dst socklen : IntPtr)
  | write (fd buf len : IntPtr)
  deriving DecidableEq, Repr

/-- A libevent event whose callback is `sched_dispatch` with the fiber `fib`. -/
structure Event where
  fd : Fd
  what : Option Direction
  fib : ℕ
  added : Bool := false
  timer : Bool := false
  active : Bool := false
  freed : Bool := false
  deriving DecidableEq, Repr

structure RwEvents where
  rEvent : Option ℕ
  wEvent : Option ℕ
  deriving DecidableEq, Repr

def RwEvents.get (t : RwEvents) : Direction → Option ℕ
  | .read => t.rEvent
  | .write => t.wEvent

def RwEvents.set (t : RwEvents) (d : Direction) (e : ℕ) : RwEvents :=
  match d with
  | .read => { t with rEvent := some e }
  | .write => { t with wEvent := some e }

inductive FibCtx
  | created
  | running
  | suspended (c : Call)
  | exited
  deriving DecidableEq, Repr

/-- How often the parts of a fiber, and the fiber itself, have been released. -/
structure Released where
  stack : ℕ := 0
  map : ℕ := 0
  yieldEvent : ℕ := 0
  fiber : ℕ := 0
  deriving DecidableEq, Repr

structure Fiber where
  fibCtx : FibCtx := .created
  fibOp : Operation := {}
  yieldEvent : ℕ
  mapFe : Fd → Option RwEvents := fun _ => none
  released : Released := {}

/-- A frame of `sched_fiber_launch` or `sched_dispatch` that waits for its fiber. -/
inductive Resumer
  | launch (save : Option ℕ)
  | dispatch
  deriving DecidableEq, Repr

/-- What a resumer frees of a fiber that has exited: a launch also frees the fiber. -/
def Resumer.frees : Resumer → Released → Released
  | .launch _, r => { r with stack := r.stack + 1, fiber := r.fiber + 1 }
  | .dispatch, r => { r with stack := r.stack + 1 }

structure Activation where
  ctx : ℕ
  fib : ℕ
  resumer : Resumer
  deriving DecidableEq, Repr

/-- What a fiber observed when `sched_dispatch` resumed it from a call. -/
structure Resume where
  fib : ℕ
  call : Call
  executed : List (Syscall × IntPtr)
  ret : IntPtr
  deriving DecidableEq, Repr

/--
The scheduler, its event base and its fibers. `activations` is the stack of live
resumers, innermost first, and `undef` is set by any use of a freed object or
transfer to a dead context.
-/
structure Sched where
  events : List Event := []
  fibers : List Fiber := []
  originCtx : Option ℕ := none
  activations : List Activation := []
  nextCtx : ℕ := 0
  resumes : List Resume := []
  undef : Bool := false

namespace Sched

variable (s : Sched)

def modifyFiber (f : ℕ) (g : Fiber → Fiber) : Sched :=
  { s with fibers := s.fibers.modify f g }

def modifyEvent (e : ℕ) (g : Event → Event) : Sched :=
  { s with events := s.events.modify e g }

def modifyOp (f : ℕ) (g : Operation → Operation) : Sched :=
  s.modifyFiber f fun fib => { fib with fibOp := g fib.fibOp }

/-- `event_add(ev, NULL)`: adding an added event again changes nothing. -/
def eventAdd (e : ℕ) : Sched := s.modifyEvent e fun ev => { ev with added := true }

/-- `event_active(ev, EV_TIMEOUT, 0)`. -/
def eventActive (e : ℕ) : Sched :=
  match s.events[e]? with
  | some ev =>
    if ev.freed then { s with undef := true }
    else s.modifyEvent e fun ev => { ev with active := true }
  | none => { s with undef := true }

def getEvents (f : ℕ) (fd : Fd) (d : Direction) : RwEvents × Sched :=
  let new : Event := { fd := fd, what := some d, fib := f }
  let insert (t : RwEvents) : RwEvents × Sched :=
    (t, { s with events := s.events ++ [new] }.modifyFiber f fun fib =>
      { fib with mapFe := Function.update fib.mapFe fd (some t) })
  match s.fibers[f]?.bind (·.mapFe fd) with
  | none => insert ((⟨none, none⟩ : RwEvents).set d s.events.length)
  | some t =>
    match t.get d with
    | some _ => (t, s)
    | none => insert (t.set d s.events.length)

/-- `it = get_events(s, fd, d); event_add(it->d_event, NULL)`. -/
def arm (f : ℕ) (fd : Fd) (d : Direction) : Sched :=
  match (s.getEvents f fd d).1.get d with
  | some e => (s.getEvents f fd d).2.eventAdd e
  | none => { s with undef := true }

/--
The rest of a resumer after its own `coro_transfer`. A launch restores `origin_ctx`
and a dispatch leaves it; both look at `fib_op` to see whether the fiber has exited.
-/
def resumed (a : Activation) (rest : List Activation) : Sched :=
  let origin := match a.resumer with
    | .launch save => save
    | .dispatch => s.originCtx
  Sched.modifyFiber { s with activations := rest, originCtx := origin } a.fib fun fib =>
    if fib.fibOp.opType = .free then { fib with released := a.resumer.frees fib.released }
    else fib

/-- `coro_transfer(&fib_ctx, origin_ctx)` out of the fiber `f`. -/
def coroTransfer (f : ℕ) (c : FibCtx) : Sched :=
  let s := s.modifyFiber f fun fib => { fib with fibCtx := c }
  match s.activations with
  | [] => { s with undef := true }
  | a :: rest => if s.originCtx = some a.ctx then s.resumed a rest else { s with undef := true }

def asyncIo (f : ℕ) (d : Direction) (fd : Fd) (c : Call) (store : Operation → Operation) :
    Sched :=
  ((s.arm f fd d).modifyOp f store).coroTransfer f (.suspended c)

def asyncRecvfrom (f : ℕ) (fd : Fd) (buf len flag sock socklen : IntPtr) : Sched :=
  s.asyncIo f .read fd (.recvfrom fd buf len flag sock socklen) fun op =>
    { op with opType := .recvfrom, fd := fd, arg1 := fd, arg2 := buf, arg3 := len,
              arg4 := flag, arg5 := sock, arg6 := socklen }

def asyncAccept (f : ℕ) (fd : Fd) (sock socklen : IntPtr) : Sched :=
  s.asyncIo f .read fd (.accept fd sock socklen) fun op =>
    { op with opType := .accept, fd := fd, arg1 := fd, arg2 := sock, arg3 := socklen }

def asyncRecv (f : ℕ) (fd : Fd) (buf len flags : IntPtr) : Sched :=
  s.asyncIo f .read fd (.recv fd buf len flags) fun op =>
    { op with opType := .recv, fd := fd, arg1 := fd, arg2 := buf, arg3 := len, arg4 := flags }

def asyncSend (f : ℕ) (fd : Fd) (buf len flags : IntPtr) : Sched :=
  s.asyncIo f .write fd (.send fd buf len flags) fun op =>
    { op with opType := .send, fd := fd, arg1 := fd, arg2 := buf, arg3 := len, arg4 := flags }

def asyncRead (f : ℕ) (fd : Fd) (buf len : IntPtr) : Sched :=
  s.asyncIo f .read fd (.read fd buf len) fun op =>
    { op with opType := .read, fd := fd, arg1 := fd, arg2 := buf, arg3 := len }

def asyncWrite (f : ℕ) (fd : Fd) (buf len : IntPtr) : Sched :=
  s.asyncIo f .write fd (.write fd buf len) fun op =>
    { op with opType := .write, fd := fd, arg1 := fd, arg2 := buf, arg3 := len }

/-- The request is stored under `SEND`, not `SENDTO`. -/
def asyncSendto (f : ℕ) (fd : Fd) (buf len flags dst socklen : IntPtr) : Sched :=
  s.asyncIo f .write fd (.sendto fd buf len flags dst socklen) fun op =>
    { op with opType := .send, fd := fd, arg1 := fd, arg2 := buf, arg3 := len,
              arg4 := flags, arg5 := dst, arg6 := socklen }

def asyncEvent (f : ℕ) (fd : Fd) (flag : BitVec 16) : Sched :=
  let s₁ := if flag &&& evRead ≠ 0 then s.arm f fd .read else s
  let s₂ := if flag &&& evWrite ≠ 0 then s₁.arm f fd .write else s₁
  (s₂.modifyOp f fun op => { op with opType := .event, ret := 0 }).coroTransfer f
    (.suspended (.event fd flag))

/-- The slot keeps the request of the previous call. -/
def asyncSleep (f : ℕ) (time : IntPtr) : Sched :=
  let s₁ := match s.fibers[f]? with
    | some fib => s.modifyEvent fib.yieldEvent fun ev => { ev with added := true, timer := true }
    | none => s
  s₁.coroTransfer f (.suspended (.sleep time))

def asyncYield (f : ℕ) (yielded : IntPtr) : Sched :=
  (s.modifyOp f fun op => { op with opType := .yield, arg1 := yielded }).coroTransfer f
    (.suspended (.yield yielded))

def asyncWake (f : ℕ) : Sched :=
  match s.fibers[f]? with
  | some fib => s.eventActive fib.yieldEvent
  | none => { s with undef := true }

def asyncContinue (f g : ℕ) (data : IntPtr) : Sched :=
  let s₁ := s.modifyOp f fun op => { op with opType := .yield }
  let s₂ := s₁.modifyOp g fun op => { op with fd := BitVec.ofNat 64 f, ret := data }
  (s₂.asyncWake g).coroTransfer f (.suspended (.continueWith g data))

/-- The fiber `f` makes the call `c`. -/
def async (f : ℕ) : Call → Sched
  | .recvfrom fd buf len flag sock socklen => s.asyncRecvfrom f fd buf len flag sock socklen
  | .accept fd sock socklen => s.asyncAccept f fd sock socklen
  | .recv fd buf len flags => s.asyncRecv f fd buf len flags
  | .send fd buf len flags => s.asyncSend f fd buf len flags
  | .read fd buf len => s.asyncRead f fd buf len
  | .write fd buf len => s.asyncWrite f fd buf len
  | .sendto fd buf len flags dst socklen => s.asyncSendto f fd buf len flags dst socklen
  | .event fd flag => s.asyncEvent f fd flag
  | .sleep time => s.asyncSleep f time
  | .yield yielded => s.asyncYield f yielded
  | .continueWith g data => s.asyncContinue f g data

/-- The events in the fiber's map are not freed with it. -/
def schedFiberExit (f : ℕ) (val : IntPtr) : Sched :=
  let s₁ := match s.fibers[f]? with
    | some fib => s.modifyEvent fib.yieldEvent fun ev => { ev with freed := true }
    | none => s
  let s₂ := s₁.modifyFiber f fun fib =>
    { fib with
      fibOp := { fib.fibOp with opType := .free, arg1 := val }
      released := { fib.released with
        map := fib.released.map + 1, yieldEvent := fib.released.yieldEvent + 1 } }
  s₂.coroTransfer f .exited

def schedNewFiber : Sched :=
  { s with
    events := s.events ++ [{ fd := -1, what := none, fib := s.fibers.length, added := true }]
    fibers := s.fibers ++ [{ yieldEvent := s.events.length }] }

/-- The frame of a resumer, on whose context the fiber `f` then runs. -/
def activate (f : ℕ) (r : Resumer) : Sched :=
  { s with
    activations := ⟨s.nextCtx, f, r⟩ :: s.activations
    originCtx := some s.nextCtx
    nextCtx := s.nextCtx + 1 }.modifyFiber f fun fib => { fib with fibCtx := .running }

def schedFiberLaunch (f : ℕ) : Sched := s.activate f (.launch s.originCtx)

def schedFiberDelete (f : ℕ) : Sched :=
  s.modifyFiber f fun fib =>
    { fib with released := { fib.released with
        map := fib.released.map + 1, stack := fib.released.stack + 1 } }

end Sched

/--
The switch of `sched_dispatch`: what the callback does to the request when it is
run with `event`, and the system call it makes, whose result is `r`.
-/
def Operation.perform (op : Operation) (event : BitVec 16) (r : IntPtr) :
    Operation × Option Syscall :=
  if event &&& evRead ≠ 0 then
    match op.opType with
    | .accept => ({ op with ret := r }, some (.accept op.arg1 op.arg2 op.arg3))
    | .recvfrom => ({ op with ret := r },
        some (.recvfrom op.arg1 op.arg2 op.arg3 op.arg4 op.arg5 op.arg6))
    | .recv => ({ op with ret := r }, some (.recv op.arg1 op.arg2 op.arg3 op.arg4))
    | .read => ({ op with ret := r }, some (.read op.arg1 op.arg2 op.arg3))
    | .event => ({ op with ret := op.ret ||| evRead.zeroExtend 64 }, none)
    | _ => (op, none)
  else if event &&& evWrite ≠ 0 then
    match op.opType with
    | .send => ({ op with ret := r }, some (.send op.arg1 op.arg2 op.arg3 op.arg4))
    | .sendto => ({ op with ret := r },
        some (.sendto op.arg1 op.arg2 op.arg3 op.arg4 op.arg5 op.arg6))
    | .write => ({ op with ret := r }, some (.write op.arg1 op.arg2 op.arg3))
    | .event => ({ op with ret := op.ret ||| evWrite.zeroExtend 64 }, none)
    | _ => (op, none)
  else if event &&& evTimeout ≠ 0 then
    match op.opType with
    | .event => ({ op with ret := op.ret ||| evTimeout.zeroExtend 64 }, none)
    | _ => (op, none)
  else (op, none)

/-- Why libevent runs a callback: readiness, an elapsed timeout or `event_active`. -/
inductive Firing | ready | timeout | active
  deriving DecidableEq, Repr

/-- An event fires for a reason that it was added, timed or activated for. -/
def Event.fires (ev : Event) : Firing → Bool
  | .ready => ev.added && ev.what.isSome && !ev.freed
  | .timeout => ev.timer && !ev.freed
  | .active => ev.active && !ev.freed

def Event.flag (ev : Event) : Firing → BitVec 16
  | .ready => (ev.what.map Direction.flag).getD 0
  | .timeout | .active => evTimeout

namespace Sched

variable (s : Sched)

/-- The value the call `c` returns to its fiber when the slot then holds `op`. -/
def returned (c : Call) (op : Operation) : IntPtr :=
  match c with
  | .continueWith g _ => (s.fibers[g]?.map (·.fibOp.arg1)).getD 0
  | .sleep _ => 0
  | _ => op.ret

/-- A non-persistent event is neither added nor active once its callback runs. -/
def consume (e : ℕ) : Sched :=
  s.modifyEvent e fun ev => { ev with added := false, timer := false, active := false }

def schedDispatch (e : ℕ) (how : Firing) (r : IntPtr) : Option Sched :=
  match s.events[e]? with
  | none => none
  | some ev =>
    if ev.fires how then
      let s₁ := s.consume e
      match s₁.fibers[ev.fib]? with
      | none => none
      | some fib =>
        let p := fib.fibOp.perform (ev.flag how) r
        let s₂ := (s₁.modifyOp ev.fib fun _ => p.1)
        match fib.fibCtx with
        | .created => some (s₂.activate ev.fib .dispatch)
        | .suspended c =>
          some { s₂.activate ev.fib .dispatch with
            resumes := s₂.resumes ++
              [⟨ev.fib, c, (p.2.map (·, r)).toList, s₂.returned c p.1⟩] }
        | _ => some { s₂ with undef := true }
    else none

def current : Option ℕ := s.activations.head?.map (·.fib)

end Sched

/-- One step of the process: a call of the running code, or a callback of the loop. -/
inductive Label
  | newFiber
  | launch (f : ℕ)
  | call (c : Call)
  | wake (f : ℕ)
  | exit (val : IntPtr)
  | delete (f : ℕ)
  | dispatch (e : ℕ) (how : Firing) (r : IntPtr)
  deriving DecidableEq, Repr

/--
Fibers are launched when they have been created, calls are made by the running
fiber, and `sched_dispatch` is run by the event loop only, never nested.
-/
def step (s : Sched) (l : Label) : Option Sched :=
  if s.undef then none
  else match l with
    | .newFiber => some s.schedNewFiber
    | .launch f =>
      if s.fibers[f]?.map (·.fibCtx) = some .created then some (s.schedFiberLaunch f) else none
    | .call c => s.current.map fun f => s.async f c
    | .wake f => some (s.asyncWake f)
    | .exit val => s.current.map fun f => s.schedFiberExit f val
    | .delete f => some (s.schedFiberDelete f)
    | .dispatch e how r => if s.activations = [] then s.schedDispatch e how r else none

end Tnetacle.Fibers
