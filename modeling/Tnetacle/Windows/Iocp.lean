import Tnetacle.Library.Ledger
import Tnetacle.Library.Run
import Tnetacle.Windows.Pipe

/-! # The device thread on Windows

`IOCPFunc` has a read of the device, a read of the pipe and any number of writes to the device
under way. The system ends them in its own time, between any two steps of the thread, and fills
the only buffer for frames of the device when a read ends. The thread learns of the end of an
operation by the key of its handle, which the reads and the writes of the device share.
-/

namespace Tnetacle.Windows

open ByteOrder Memory Framing Ledgers Runs

/-- The operations that the thread starts. -/
inductive Op
  | read
  | write
  | pipe
  deriving DecidableEq

def Op.key : Op → ℕ
  | .pipe => 0xDEADBEAF
  | .write => 0xDEADDEAD
  | .read => 0xDEADDEAD

/-- An `OVERLAPPED_ENTRY`, with the operation that has ended. -/
structure Entry where
  op : Op
  size : ℕ
  overlapped : ℕ
  deriving DecidableEq

/-- Whether `malloc` and then the operation itself succeed. -/
structure Start where
  malloc : Bool := true
  starts : Bool := true
  deriving DecidableEq

/-- The blocks that the thread has allocated, and the writes that it has started; `lost` has the
blocks that nothing refers to any more. -/
structure Writer where
  memory : Ledger := {}
  lost : List ℕ := []
  writes : List (ℕ × List Byte) := []

/--
The thread and what the system knows of its operations, each by its `OVERLAPPED`. What is sent to
the other thread is kept with the operation that it was sent for.
-/
structure Iocp where
  deviceBuf : List Byte
  pipeBuf : List Byte
  needNewDevOverlapped : Bool := true
  needNewPipeOverlapped : Bool := true
  writer : Writer := {}
  devReads : List ℕ := []
  pipeReads : List ℕ := []
  port : List Entry := []
  entries : List Entry := []
  evbPipe : List Byte := []
  sent : List (Op × List Byte) := []
  given : List DeviceFrame := []
  overread : Bool := false
  badFree : Bool := false
  ended : Bool := false

def bufferSize : ℕ := 2048

/-- The packet that `handle_frames` makes of the first `size` bytes of a buffer. -/
def packet (host : Endian) (frame : List Byte) (size : ℕ) : List Byte :=
  let frameSize : Word := BitVec.ofNat 16 size
  store host frameSize ++ frame.take frameSize.toNat

namespace Writer

def malloc (w : Writer) : Writer := { w with memory := w.memory.alloc }

def forget (w : Writer) : Writer := { w.malloc with lost := w.lost ++ [w.memory.next] }

/-- `WriteFile` on the device, with a new block. -/
def writeFile (starts : Bool) (w : Writer) (bytes : List Byte) : Writer :=
  if starts then { w.malloc with writes := w.writes ++ [(w.memory.next, bytes)] }
  else w.forget

/-- The loop of `pipe_read`. The `OVERLAPPED` is allocated before the size is looked at, and
forgotten when there is less than a frame. -/
def pipeReadLoop (host : Endian) (starts : ℕ → Start) :
    ℕ → Writer → List Byte → Writer × List Byte
  | 0, w, evb => (w, evb)
  | n + 1, w, evb =>
    if evb = [] ∨ (starts w.memory.next).malloc = false then (w, evb)
    else match pipeReadNext host evb with
      | .take bytes rest =>
        pipeReadLoop host starts n (w.writeFile (starts w.memory.next).starts bytes) rest
      | .wait | .fault => (w.forget, evb)

/-- Every turn that does not leave the loop takes a size from the buffer. -/
def pipeRead (host : Endian) (starts : ℕ → Start) (w : Writer) (evb : List Byte) :
    Writer × List Byte :=
  pipeReadLoop host starts evb.length w evb

end Writer

namespace Iocp

variable (host : Endian)

def free (s : Iocp) (overlapped : ℕ) : Iocp :=
  { s with
    writer := { s.writer with
      memory := (s.writer.memory.free overlapped).getD s.writer.memory }
    badFree := s.badFree || (s.writer.memory.free overlapped).isNone }

/-- Without memory for the packet nothing is sent. -/
def handleFrames (malloc : Bool) (e : Entry) (s : Iocp) : Iocp :=
  if malloc then
    if bufferSize < (BitVec.ofNat 16 e.size : Word).toNat then { s with overread := true }
    else { s with sent := s.sent ++ [(e.op, packet host s.deviceBuf e.size)] }
  else s

/-- `pipe_read` on what has been read and the new bytes. -/
def pipeRead (starts : ℕ → Start) (e : Entry) (s : Iocp) : Iocp :=
  let r := s.writer.pipeRead host starts (s.evbPipe ++ s.pipeBuf.take e.size)
  { s with writer := r.1, evbPipe := r.2 }

def handle (malloc : Bool) (starts : ℕ → Start) (e : Entry) (s : Iocp) : Iocp :=
  if e.op.key = 0xDEADDEAD then
    { (s.handleFrames host malloc e).free e.overlapped with needNewDevOverlapped := true }
  else if e.op.key = 0xDEADBEAF then
    { (s.pipeRead host starts e).free e.overlapped with needNewPipeOverlapped := true }
  else s

def readDevice (r : Start) (s : Iocp) : Iocp :=
  if s.needNewDevOverlapped = false then s
  else if r.malloc = false then { s with ended := true }
  else if r.starts then
    { s with
      writer := s.writer.malloc
      devReads := s.devReads ++ [s.writer.memory.next]
      needNewDevOverlapped := false }
  else { s with writer := s.writer.forget, needNewDevOverlapped := false }

def readPipe (r : Start) (s : Iocp) : Iocp :=
  if s.needNewPipeOverlapped = false ∨ s.ended = true then s
  else if r.malloc = false then { s with ended := true }
  else if r.starts then
    { s with
      writer := s.writer.malloc
      pipeReads := s.pipeReads ++ [s.writer.memory.next]
      needNewPipeOverlapped := false }
  else { s with writer := s.writer.forget, needNewPipeOverlapped := false }

end Iocp

/-- The system ends an operation: a read with a frame of the device, a read with bytes from the
pipe, or a write, of which it has written `size` bytes. The thread takes entries from the port,
handles the next one, or starts what it has to start. -/
inductive Label
  | given (frame : DeviceFrame)
  | arrived (chunk : List Byte)
  | written (i size : ℕ)
  | dequeue (n : ℕ)
  | handle (malloc : Bool) (starts : ℕ → Start)
  | issue (dev pipe : Start)

namespace Iocp

variable (host : Endian)

def stopped (s : Iocp) : Bool := s.ended || s.overread || s.badFree

def step (s : Iocp) : Label → Option Iocp
  | .given frame =>
    match s.devReads with
    | [] => none
    | o :: devReads => some
      { s with
        devReads := devReads
        deviceBuf := overwrite s.deviceBuf 0 frame.bytes
        port := s.port ++ [⟨.read, frame.bytes.length, o⟩]
        given := s.given ++ [frame] }
  | .arrived chunk =>
    match s.pipeReads with
    | [] => none
    | o :: pipeReads =>
      if chunk.length ≤ bufferSize then some
        { s with
          pipeReads := pipeReads
          pipeBuf := overwrite s.pipeBuf 0 chunk
          port := s.port ++ [⟨.pipe, chunk.length, o⟩] }
      else none
  | .written i size =>
    match s.writer.writes[i]? with
    | none => none
    | some w =>
      if size ≤ w.2.length then some
        { s with
          writer := { s.writer with writes := s.writer.writes.eraseIdx i }
          port := s.port ++ [⟨.write, size, w.1⟩] }
      else none
  | .dequeue n =>
    if s.stopped = false ∧ s.entries = [] ∧ s.needNewDevOverlapped = false ∧
        s.needNewPipeOverlapped = false ∧ 0 < n ∧ n ≤ 10 ∧ n ≤ s.port.length then
      some { s with entries := s.port.take n, port := s.port.drop n }
    else none
  | .handle malloc starts =>
    if s.stopped then none
    else match s.entries with
      | [] => none
      | e :: entries => some (handle host malloc starts e { s with entries := entries })
  | .issue dev pipe =>
    if s.stopped = false ∧ s.entries = [] then some ((s.readDevice dev).readPipe pipe) else none

def start (deviceBuf pipeBuf : List Byte) : Iocp := { deviceBuf := deviceBuf, pipeBuf := pipeBuf }

end Iocp

/-! ## One step -/

section Step

variable {host : Endian} {s t : Iocp}

theorem given_eq_some {frame : DeviceFrame} (h : s.step host (.given frame) = some t) :
    ∃ o devReads, s.devReads = o :: devReads ∧ t =
      { s with
        devReads := devReads
        deviceBuf := overwrite s.deviceBuf 0 frame.bytes
        port := s.port ++ [⟨.read, frame.bytes.length, o⟩]
        given := s.given ++ [frame] } := by
  rw [Iocp.step] at h
  split at h
  · cases h
  · next o devReads hreads => exact ⟨o, devReads, hreads, (Option.some.inj h).symm⟩

theorem arrived_eq_some {chunk : List Byte} (h : s.step host (.arrived chunk) = some t) :
    ∃ o pipeReads, s.pipeReads = o :: pipeReads ∧ chunk.length ≤ bufferSize ∧ t =
      { s with
        pipeReads := pipeReads
        pipeBuf := overwrite s.pipeBuf 0 chunk
        port := s.port ++ [⟨.pipe, chunk.length, o⟩] } := by
  rw [Iocp.step] at h
  split at h
  · cases h
  · next o pipeReads hreads =>
    split at h
    · next hle => exact ⟨o, pipeReads, hreads, hle, (Option.some.inj h).symm⟩
    · cases h

theorem written_eq_some {i size : ℕ} (h : s.step host (.written i size) = some t) :
    ∃ w, s.writer.writes[i]? = some w ∧ size ≤ w.2.length ∧ t =
      { s with
        writer := { s.writer with writes := s.writer.writes.eraseIdx i }
        port := s.port ++ [⟨.write, size, w.1⟩] } := by
  rw [Iocp.step] at h
  split at h
  · cases h
  · next w hw =>
    split at h
    · next hle => exact ⟨w, hw, hle, (Option.some.inj h).symm⟩
    · cases h

theorem dequeue_eq_some {n : ℕ} (h : s.step host (.dequeue n) = some t) :
    s.entries = [] ∧ t = { s with entries := s.port.take n, port := s.port.drop n } := by
  rw [Iocp.step] at h
  split at h
  · next hready => exact ⟨hready.2.1, (Option.some.inj h).symm⟩
  · cases h

theorem issue_eq_some {dev pipe : Start} (h : s.step host (.issue dev pipe) = some t) :
    t = (s.readDevice dev).readPipe pipe := by
  rw [Iocp.step] at h
  split at h
  · exact (Option.some.inj h).symm
  · cases h

theorem handle_eq_some {malloc : Bool} {starts : ℕ → Start}
    (h : s.step host (.handle malloc starts) = some t) :
    ∃ e es, s.entries = e :: es ∧ s.stopped = false ∧
      t = Iocp.handle host malloc starts e { s with entries := es } := by
  rw [Iocp.step] at h
  split at h
  · cases h
  · next hstopped =>
    split at h
    · cases h
    · next e es hentries =>
      exact ⟨e, es, hentries, Bool.eq_false_iff.mpr hstopped, (Option.some.inj h).symm⟩

variable {malloc : Bool} {starts : ℕ → Start} {e : Entry}

theorem handle_device (h : e.op ≠ .pipe) : s.handle host malloc starts e =
    { (s.handleFrames host malloc e).free e.overlapped with needNewDevOverlapped := true } := by
  have hkey : e.op.key = 0xDEADDEAD := by
    cases hop : e.op with
    | pipe => exact absurd hop h
    | read => rfl
    | write => rfl
  exact if_pos hkey

theorem handle_pipe (h : e.op = .pipe) : s.handle host malloc starts e =
    { (s.pipeRead host starts e).free e.overlapped with needNewPipeOverlapped := true } := by
  have hkey : e.op.key = 0xDEADBEAF := by rw [h]; rfl
  have hnot : e.op.key ≠ 0xDEADDEAD := by rw [hkey]; decide
  exact (if_neg hnot).trans (if_pos hkey)

/-- What is kept by every way in which a read is started or fails to start is kept by all of
them. -/
theorem issue_rule {P : Iocp → Prop} (hend : ∀ s, P s → P { s with ended := true })
    (hdev : ∀ s, P s → s.needNewDevOverlapped = true → P
      { s with
        writer := s.writer.malloc
        devReads := s.devReads ++ [s.writer.memory.next]
        needNewDevOverlapped := false })
    (hdevLost : ∀ s, P s → P
      { s with writer := s.writer.forget, needNewDevOverlapped := false })
    (hpipe : ∀ s, P s → s.needNewPipeOverlapped = true → P
      { s with
        writer := s.writer.malloc
        pipeReads := s.pipeReads ++ [s.writer.memory.next]
        needNewPipeOverlapped := false })
    (hpipeLost : ∀ s, P s → P
      { s with writer := s.writer.forget, needNewPipeOverlapped := false })
    (h : P s) (dev pipe : Start) : P ((s.readDevice dev).readPipe pipe) := by
  have hread : P (s.readDevice dev) := by
    rw [Iocp.readDevice]
    split
    · exact h
    · next hneed =>
      split
      · exact hend s h
      · split
        · exact hdev s h (Bool.not_eq_false _ ▸ hneed)
        · exact hdevLost s h
  rw [Iocp.readPipe]
  split
  · exact hread
  · next hneed =>
    split
    · exact hend _ hread
    · split
      · exact hpipe _ hread (Bool.not_eq_false _ ▸ (not_or.mp hneed).1)
      · exact hpipeLost _ hread

end Step

/-! ## Sizes -/

section Sizes

variable {host : Endian} {s t : Iocp} {malloc : Bool} {starts : ℕ → Start} {e : Entry}

theorem length_of_pipeReadNext {evb bytes rest : List Byte}
    (h : pipeReadNext host evb = .take bytes rest) : bytes.length ≤ 32767 := by
  unfold pipeReadNext at h
  split at h
  · next b₀ b₁ body =>
    simp only at h
    split at h
    · cases h
    · next hexceeds =>
      obtain ⟨rfl, -⟩ := by simpa only [Next.take.injEq] using h
      have hsize : ¬ (load host b₀ b₁).toInt < 0 := fun hneg => hexceeds (by simp [exceeds, hneg])
      rw [toInt_neg_iff] at hsize
      exact Nat.le_trans (List.length_take_le _ _) (by omega)
  · cases h

/-- What is kept by a block that is forgotten and by a write is kept by the loop of
`pipe_read`. -/
theorem Writer.pipeReadLoop_rule {P : Writer → Prop} (hforget : ∀ w, P w → P w.forget)
    (hwrite : ∀ w starts bytes, P w → bytes.length ≤ 32767 → P (w.writeFile starts bytes))
    (n : ℕ) {w : Writer} (evb : List Byte) (h : P w) : P (w.pipeReadLoop host starts n evb).1 := by
  induction n generalizing w evb with
  | zero => exact h
  | succ n ih =>
    rw [pipeReadLoop]
    split
    · exact h
    · split
      · next bytes rest hnext => exact ih rest (hwrite w _ bytes h (length_of_pipeReadNext hnext))
      · exact hforget w h
      · exact hforget w h

theorem forall_mem_port {P : Entry → Prop} (h : ∀ e ∈ s.entries ++ s.port, P e) (he : P e) :
    ∀ x ∈ s.entries ++ (s.port ++ [e]), P x := by
  intro x hx
  rw [← List.append_assoc] at hx
  rcases List.mem_append.mp hx with hx | hx
  · exact h x hx
  · rwa [List.mem_singleton.mp hx]

end Sizes

end Tnetacle.Windows
