import Tnetacle.Windows.Iocp

/-! # The frames that the device thread passes on

As long as the thread handles only the ends of reads, there is one read of the device at a time, and
the frame in the buffer is the one that the read has brought. The end of a write looks the same
to the thread: it sends what is in the buffer once more, and starts another read of the same
buffer.
-/

namespace Tnetacle.Windows

open ByteOrder Memory Framing Runs

def Iocp.readsDone (s : Iocp) : List Entry := (s.entries ++ s.port).filter (·.op = .read)

def Iocp.passing (host : Endian) (s : Iocp) : List (Op × List Byte) :=
  s.readsDone.map fun e => (.read, packet host s.deviceBuf e.size)

/-- The frames of the device are sent, or about to be sent, as they were given, and the buffer
belongs to one read at most and is not left. -/
structure Iocp.Exact (host : Endian) (s : Iocp) : Prop where
  frames : s.sent ++ s.passing host =
    s.given.map fun frame => (Op.read, Windows.handleFrames host frame)
  single : s.devReads.length + s.needNewDevOverlapped.toNat + s.readsDone.length ≤ 1
  inside : s.overread = false

/-- A read of the device is handled with memory for its packet, and a write is not: there is no
memory for the packet that would be sent for it, and no other read that the next one would
disturb. -/
def Attributed (s : Iocp) : Label → Prop
  | .handle malloc _ => ∀ e, s.entries.head? = some e →
    match e.op with
    | .read => malloc = true
    | .write => malloc = false ∧ s.devReads = [] ∧ s.readsDone = []
    | .pipe => True
  | _ => True

section Exact

variable {host : Endian} {s t : Iocp}

theorem packet_overwrite (host : Endian) (buf : List Byte) (frame : DeviceFrame) :
    packet host (overwrite buf 0 frame.bytes) frame.bytes.length = handleFrames host frame := by
  rw [packet, handleFrames, overwrite_zero]
  simp only [toNat_length]
  rw [List.take_left, List.take_length]

theorem readsDone_append (s : Iocp) (e : Entry) :
    Iocp.readsDone { s with port := s.port ++ [e] } =
      s.readsDone ++ if e.op = .read then [e] else [] := by
  rw [Iocp.readsDone, Iocp.readsDone, ← List.append_assoc, List.filter_append]
  by_cases hop : e.op = .read
  · simp [hop]
  · simp [hop]

theorem Iocp.Exact.same (h : s.Exact host) (hsent : t.sent = s.sent) (hgiven : t.given = s.given)
    (hbuf : t.deviceBuf = s.deviceBuf) (hreads : t.devReads = s.devReads)
    (hneed : t.needNewDevOverlapped = s.needNewDevOverlapped)
    (hdone : t.readsDone = s.readsDone) (hover : t.overread = s.overread) : t.Exact host := by
  constructor
  · rw [hsent, hgiven, Iocp.passing, hdone, hbuf]
    exact h.frames
  · rw [hreads, hneed, hdone]
    exact h.single
  · rw [hover]
    exact h.inside

theorem Iocp.Exact.given {frame : DeviceFrame} (h : s.Exact host)
    (hstep : s.step host (.given frame) = some t) : t.Exact host := by
  obtain ⟨o, devReads, hreads, rfl⟩ := given_eq_some hstep
  obtain ⟨hframes, hsingle, hinside⟩ := h
  rw [hreads, List.length_cons] at hsingle
  have hnone : s.readsDone = [] := List.length_eq_zero_iff.mp (by omega)
  have hdone := readsDone_append s ⟨.read, frame.bytes.length, o⟩
  rw [hnone, List.nil_append, if_pos rfl, Iocp.readsDone] at hdone
  constructor
  · rw [Iocp.passing, hnone, List.map_nil, List.append_nil] at hframes
    simp only [Iocp.passing, Iocp.readsDone, hdone, List.map_append, List.map_singleton, hframes,
      packet_overwrite]
  · simp only [Iocp.readsDone, hdone, List.length_singleton]
    omega
  · exact hinside

theorem Iocp.Exact.issue {dev pipe : Start} (h : s.Exact host)
    (hstep : s.step host (.issue dev pipe) = some t) : t.Exact host := by
  obtain rfl := issue_eq_some hstep
  apply issue_rule _ _ _ _ _ h dev pipe
  · exact fun s h => h.same rfl rfl rfl rfl rfl rfl rfl
  · intro s h hneed
    have hsingle := h.single
    rw [hneed, Bool.toNat_true] at hsingle
    have hnone : s.devReads = [] := List.length_eq_zero_iff.mp (by omega)
    refine ⟨h.frames, ?_, h.inside⟩
    show (s.devReads ++ [_]).length + 0 + s.readsDone.length ≤ 1
    rw [hnone, List.nil_append, List.length_singleton]
    omega
  · intro s h
    refine ⟨h.frames, ?_, h.inside⟩
    have hsingle := h.single
    show s.devReads.length + 0 + s.readsDone.length ≤ 1
    omega
  · exact fun s h _ => h.same rfl rfl rfl rfl rfl rfl rfl
  · exact fun s h => h.same rfl rfl rfl rfl rfl rfl rfl

theorem handleFrames_of_le {e : Entry} (h : (BitVec.ofNat 16 e.size : Word).toNat ≤ bufferSize) :
    s.handleFrames host true e =
      { s with sent := s.sent ++ [(e.op, packet host s.deviceBuf e.size)] } := by
  rw [Iocp.handleFrames, if_pos rfl, if_neg (Nat.not_lt.mpr h)]

variable {malloc : Bool} {starts : ℕ → Start} {e : Entry} {es : List Entry}

end Exact

/-! ## The end of the buffer -/

def Iocp.pipeDone (s : Iocp) : List Entry := (s.entries ++ s.port).filter (·.op = .pipe)

/-- What has come through the pipe and has not been taken from it as a frame. -/
def Iocp.unread (s : Iocp) : List Byte :=
  s.evbPipe ++ s.pipeDone.flatMap fun e => s.pipeBuf.take e.size

def arrivals (ls : List Label) : List Byte :=
  ls.flatMap fun
    | .arrived chunk => chunk
    | _ => []

/-- Bytes that are, or begin, the packets of frames that fit in the buffer of the device. -/
def Short (host : Endian) (bytes : List Byte) : Prop :=
  ∃ frames : List WholeFrame, (∀ f ∈ frames, f.frame.size.toNat ≤ bufferSize) ∧
    bytes <+: frames.flatMap (sendBufferToDeviceThread host)

/-- One read of the pipe at a time, no write of more bytes than the buffer holds, and only short
frames in what is unread and in what is still to come. -/
structure Iocp.Contained (host : Endian) (s : Iocp) (ls : List Label) : Prop where
  single : s.pipeReads.length + s.needNewPipeOverlapped.toNat + s.pipeDone.length ≤ 1
  writes : ∀ w ∈ s.writer.writes, w.2.length ≤ bufferSize
  entries : ∀ e ∈ s.entries ++ s.port, e.size ≤ bufferSize
  short : Short host (s.unread ++ arrivals ls)
  inside : s.overread = false

section Inside

variable {host : Endian} {s t : Iocp} {ls : List Label} {malloc : Bool} {starts : ℕ → Start}
  {e : Entry} {es : List Entry}

/-- The frame that `pipe_read` takes is the first of a stream. -/
theorem pipeReadNext_short {evb bytes rest more : List Byte}
    (hnext : pipeReadNext host evb = .take bytes rest) (h : Short host (evb ++ more)) :
    bytes.length ≤ bufferSize ∧ Short host (rest ++ more) := by
  obtain ⟨frames, hshort, hprefix⟩ := h
  unfold pipeReadNext at hnext
  split at hnext
  · next b₀ b₁ body =>
    cases frames with
    | nil => exact absurd (List.prefix_nil.mp hprefix) (by simp)
    | cons f frames =>
      obtain ⟨hf, hshort⟩ := List.forall_mem_cons.mp hshort
      obtain ⟨c₀, c₁, heq, hload⟩ := sendBufferToDeviceThread_eq host f
      rw [List.flatMap_cons, heq] at hprefix
      simp only [List.cons_append, List.cons_prefix_cons] at hprefix
      obtain ⟨rfl, rfl, hprefix⟩ := hprefix
      simp only [hload] at hnext
      split at hnext
      · cases hnext
      · next hexceeds =>
        have hlen := f.length_bytes
        rw [exceeds_eq_true_iff] at hexceeds
        obtain ⟨r, rfl⟩ := List.prefix_of_prefix_length_le (List.prefix_append f.bytes _)
          ((List.prefix_append body more).trans hprefix) (by omega)
        obtain ⟨rfl, rfl⟩ := by simpa only [Next.take.injEq] using hnext
        rw [← hlen, List.take_left, List.drop_left]
        rw [List.append_assoc, List.prefix_append_right_inj] at hprefix
        exact ⟨hlen ▸ hf, frames, hshort, hprefix⟩
  · cases hnext

/-- `pipe_read` writes frames of the stream, and leaves the rest of it. -/
theorem Writer.pipeReadLoop_short (starts : ℕ → Start) (n : ℕ) {w : Writer} {evb more : List Byte}
    (hwrites : ∀ x ∈ w.writes, x.2.length ≤ bufferSize) (h : Short host (evb ++ more)) :
    (∀ x ∈ (w.pipeReadLoop host starts n evb).1.writes, x.2.length ≤ bufferSize) ∧
      Short host ((w.pipeReadLoop host starts n evb).2 ++ more) := by
  induction n generalizing w evb with
  | zero => exact ⟨hwrites, h⟩
  | succ n ih =>
    rw [pipeReadLoop]
    split
    · exact ⟨hwrites, h⟩
    · split
      · next bytes rest hnext =>
        obtain ⟨hbytes, hrest⟩ := pipeReadNext_short hnext h
        apply ih _ hrest
        rw [writeFile]
        split
        · intro x hx
          rcases List.mem_append.mp hx with hx | hx
          · exact hwrites x hx
          · rwa [List.mem_singleton.mp hx]
        · exact hwrites
      · exact ⟨hwrites, h⟩
      · exact ⟨hwrites, h⟩

theorem pipeDone_append (s : Iocp) (e : Entry) :
    Iocp.pipeDone { s with port := s.port ++ [e] } =
      s.pipeDone ++ if e.op = .pipe then [e] else [] := by
  rw [Iocp.pipeDone, Iocp.pipeDone, ← List.append_assoc, List.filter_append]
  by_cases hop : e.op = .pipe <;> simp [hop]

theorem pipeDone_cons (h : s.entries = e :: es) :
    s.pipeDone = (if e.op = .pipe then [e] else []) ++ Iocp.pipeDone { s with entries := es } := by
  rw [Iocp.pipeDone, h, List.cons_append, List.filter_cons]
  by_cases hop : e.op = .pipe <;> simp [hop, Iocp.pipeDone]

theorem Iocp.Contained.arrived {chunk : List Byte}
    (h : s.Contained host (.arrived chunk :: ls)) (hstep : s.step host (.arrived chunk) = some t) :
    t.Contained host ls := by
  obtain ⟨o, pipeReads, hreads, hle, rfl⟩ := arrived_eq_some hstep
  obtain ⟨hsingle, hwrites, hentries, hshort, hinside⟩ := h
  rw [hreads, List.length_cons] at hsingle
  have hnone : s.pipeDone = [] := List.length_eq_zero_iff.mp (by omega)
  have hdone := pipeDone_append s ⟨.pipe, chunk.length, o⟩
  rw [hnone, List.nil_append, if_pos rfl, Iocp.pipeDone] at hdone
  refine ⟨?_, hwrites, forall_mem_port hentries hle, ?_, hinside⟩
  · simp only [Iocp.pipeDone, hdone, List.length_singleton]
    omega
  · rw [Iocp.unread, hnone, List.flatMap_nil, List.append_nil] at hshort
    simp only [Iocp.unread, Iocp.pipeDone, hdone, List.flatMap_singleton, overwrite_zero,
      List.take_left]
    rw [List.append_assoc]
    exact hshort

theorem Iocp.Contained.same (h : s.Contained host ls) (hreads : t.pipeReads = s.pipeReads)
    (hneed : t.needNewPipeOverlapped = s.needNewPipeOverlapped) (hevb : t.evbPipe = s.evbPipe)
    (hbuf : t.pipeBuf = s.pipeBuf) (hdone : t.pipeDone = s.pipeDone)
    (hwrites : ∀ w ∈ t.writer.writes, w.2.length ≤ bufferSize)
    (hentries : ∀ e ∈ t.entries ++ t.port, e.size ≤ bufferSize) (hover : t.overread = s.overread) :
    t.Contained host ls := by
  refine ⟨?_, hwrites, hentries, ?_, hover.trans h.inside⟩
  · rw [hreads, hneed, hdone]
    exact h.single
  · rw [Iocp.unread, hevb, hbuf, hdone]
    exact h.short

theorem Iocp.Contained.issue {dev pipe : Start} (h : s.Contained host ls)
    (hstep : s.step host (.issue dev pipe) = some t) : t.Contained host ls := by
  obtain rfl := issue_eq_some hstep
  apply issue_rule (P := fun s => s.Contained host ls) _ _ _ _ _ h dev pipe
  · exact fun s h => h.same rfl rfl rfl rfl rfl h.writes h.entries rfl
  · exact fun s h _ => h.same rfl rfl rfl rfl rfl h.writes h.entries rfl
  · exact fun s h => h.same rfl rfl rfl rfl rfl h.writes h.entries rfl
  · intro s h hneed
    have hsingle := h.single
    rw [hneed, Bool.toNat_true] at hsingle
    have hnone : s.pipeReads = [] := List.length_eq_zero_iff.mp (by omega)
    refine ⟨?_, h.writes, h.entries, h.short, h.inside⟩
    show (s.pipeReads ++ [_]).length + 0 + s.pipeDone.length ≤ 1
    rw [hnone, List.nil_append, List.length_singleton]
    omega
  · intro s h
    have hsingle := h.single
    refine ⟨?_, h.writes, h.entries, h.short, h.inside⟩
    show s.pipeReads.length + 0 + s.pipeDone.length ≤ 1
    omega

theorem Iocp.Contained.handle_pipe (h : s.Contained host ls) (hentries : s.entries = e :: es)
    (hop : e.op = .pipe) :
    (Iocp.handle host malloc starts e { s with entries := es }).Contained host ls := by
  obtain ⟨hsingle, hwrites, hsizes, hshort, hinside⟩ := h
  have hdone := pipeDone_cons hentries
  rw [if_pos hop] at hdone
  rw [hdone, List.length_append, List.length_singleton] at hsingle
  have hnone : Iocp.pipeDone { s with entries := es } = [] :=
    List.length_eq_zero_iff.mp (by omega)
  rw [Iocp.unread, hdone, hnone, List.append_nil, List.flatMap_singleton] at hshort
  obtain ⟨hnew, hrest⟩ := Writer.pipeReadLoop_short starts
    (s.evbPipe ++ s.pipeBuf.take e.size).length hwrites hshort
  rw [Windows.handle_pipe hop]
  refine ⟨?_, hnew, ?_, ?_, hinside⟩
  · show s.pipeReads.length + 1 + (Iocp.pipeDone { s with entries := es }).length ≤ 1
    rw [hnone, List.length_nil]
    omega
  · intro x hx
    apply hsizes
    rw [hentries]
    exact List.mem_cons_of_mem _ hx
  · show Short host ((_ ++ (Iocp.pipeDone { s with entries := es }).flatMap _) ++ _)
    rw [hnone, List.flatMap_nil, List.append_nil]
    exact hrest

theorem Iocp.Contained.handle_device (h : s.Contained host ls) (hentries : s.entries = e :: es)
    (hop : e.op ≠ .pipe) :
    (Iocp.handle host malloc starts e { s with entries := es }).Contained host ls := by
  have hle : e.size ≤ bufferSize :=
    h.entries e (hentries ▸ List.mem_append_left _ List.mem_cons_self)
  have hdone : Iocp.pipeDone { s with entries := es } = s.pipeDone := by
    rw [pipeDone_cons hentries, if_neg hop, List.nil_append]
  have hrest : ∀ x ∈ es ++ s.port, x.size ≤ bufferSize := by
    intro x hx
    apply h.entries
    rw [hentries]
    exact List.mem_cons_of_mem _ hx
  rw [Windows.handle_device hop]
  cases malloc with
  | true =>
    rw [handleFrames_of_le (Nat.le_trans (Nat.mod_le _ _) hle)]
    exact h.same rfl rfl rfl rfl hdone h.writes hrest rfl
  | false => exact h.same rfl rfl rfl rfl hdone h.writes hrest rfl

theorem Iocp.Contained.tail {l : Label} (h : s.Contained host (l :: ls))
    (hl : ∀ chunk, l ≠ .arrived chunk) : s.Contained host ls := by
  have harrivals : arrivals (l :: ls) = arrivals ls := by
    cases l with
    | arrived chunk => exact absurd rfl (hl chunk)
    | _ => rfl
  refine ⟨h.single, h.writes, h.entries, ?_, h.inside⟩
  rw [← harrivals]
  exact h.short

end Inside

end Tnetacle.Windows
