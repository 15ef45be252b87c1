import Mathlib.Data.List.Perm.Basic
import Tnetacle.Windows.Iocp

/-! # The blocks of the device thread

Every operation has an `OVERLAPPED` of its own, which is freed when its end has been handled. Blocks
are lost when a read or a write does not start, and when `pipe_read` finds less than a frame.
-/

namespace Tnetacle.Windows

open ByteOrder Framing Ledgers Runs

def Writer.held (w : Writer) : List ℕ := w.writes.map Prod.fst ++ w.lost

def Iocp.busy (s : Iocp) : List ℕ :=
  s.devReads ++ s.pipeReads ++ (s.entries ++ s.port).map Entry.overlapped

def Iocp.held (s : Iocp) : List ℕ := s.busy ++ s.writer.held

/-- Every block belongs to one operation or is lost, and none is freed twice. -/
structure Iocp.Accounted (s : Iocp) : Prop where
  balanced : Balanced s.writer.memory s.held
  badFree : s.badFree = false

section Blocks

variable {host : Endian} {s t : Iocp} {malloc : Bool} {starts : ℕ → Start} {e : Entry}
  {w : Writer} {other : List ℕ}

theorem Writer.count_held (w : Writer) (n : ℕ) :
    w.held.count n = (w.writes.map Prod.fst).count n + w.lost.count n := List.count_append

theorem Iocp.count_held (s : Iocp) (n : ℕ) :
    s.held.count n = s.devReads.count n + s.pipeReads.count n +
      ((s.entries.map Entry.overlapped).count n + (s.port.map Entry.overlapped).count n) +
      ((s.writer.writes.map Prod.fst).count n + s.writer.lost.count n) := by
  rw [Iocp.held, Iocp.busy, List.count_append, List.count_append, List.count_append,
    List.map_append, List.count_append, Writer.count_held]

theorem Writer.balanced_forget (h : Balanced w.memory (other ++ w.held)) :
    Balanced w.forget.memory (other ++ w.forget.held) := by
  apply h.alloc.congr
  rw [List.perm_iff_count]
  intro n
  simp only [Writer.count_held, Writer.forget, Writer.malloc, List.count_append, List.count_cons,
    List.count_nil]
  omega

theorem Writer.balanced_writeFile (h : Balanced w.memory (other ++ w.held)) (starts : Bool)
    (bytes : List Byte) :
    Balanced (w.writeFile starts bytes).memory (other ++ (w.writeFile starts bytes).held) := by
  rw [writeFile]
  split
  · apply h.alloc.congr
    rw [List.perm_iff_count]
    intro n
    simp only [Writer.count_held, Writer.malloc, List.count_append, List.count_cons,
      List.count_nil, List.map_append, List.map_cons, List.map_nil]
    omega
  · exact balanced_forget h

theorem Writer.balanced_pipeRead (host : Endian) (starts : ℕ → Start) (evb : List Byte)
    (h : Balanced w.memory (other ++ w.held)) :
    Balanced (w.pipeRead host starts evb).1.memory
      (other ++ (w.pipeRead host starts evb).1.held) := by
  apply pipeReadLoop_rule (P := fun w => Balanced w.memory (other ++ w.held)) _ _ _ _ h
  · exact fun w h => balanced_forget h
  · exact fun w starts bytes h _ => balanced_writeFile h starts bytes

theorem Iocp.accounted_free {o : ℕ} (h : Balanced s.writer.memory (o :: s.held))
    (hbad : s.badFree = false) : (s.free o).Accounted := by
  obtain ⟨memory, hmemory, hbalanced⟩ := h.free
  constructor
  · show Balanced ((s.writer.memory.free o).getD _) s.held
    rw [hmemory]
    exact hbalanced
  · show (s.badFree || (s.writer.memory.free o).isNone) = false
    rw [hmemory, hbad]
    rfl

theorem Iocp.Accounted.handle {es : List Entry} (h : s.Accounted) (hentries : s.entries = e :: es) :
    (Iocp.handle host malloc starts e { s with entries := es }).Accounted := by
  have hfirst : Balanced s.writer.memory
      (e.overlapped :: Iocp.held { s with entries := es }) := by
    apply h.balanced.congr
    rw [List.perm_iff_count]
    intro n
    simp only [Iocp.count_held, hentries, List.count_cons, List.map_cons]
    omega
  by_cases hop : e.op = .pipe
  · rw [handle_pipe hop]
    have hsplit : Balanced s.writer.memory
        ((e.overlapped :: Iocp.busy { s with entries := es }) ++ s.writer.held) := hfirst
    have hread := Writer.balanced_pipeRead host starts (s.evbPipe ++ s.pipeBuf.take e.size) hsplit
    have hfree := Iocp.accounted_free (s := Iocp.pipeRead host starts e { s with entries := es })
      hread h.badFree
    exact ⟨hfree.balanced, hfree.badFree⟩
  · rw [handle_device hop]
    have hfree : ((Iocp.handleFrames host malloc e { s with entries := es }).free
        e.overlapped).Accounted := by
      rw [Iocp.handleFrames]
      split
      · split <;> exact Iocp.accounted_free hfirst h.badFree
      · exact Iocp.accounted_free hfirst h.badFree
    exact ⟨hfree.balanced, hfree.badFree⟩

theorem Iocp.Accounted.issue (h : s.Accounted) (dev pipe : Start) :
    ((s.readDevice dev).readPipe pipe).Accounted := by
  apply issue_rule _ _ _ _ _ h dev pipe
  · exact fun s h => ⟨h.balanced, h.badFree⟩
  · intro s h _
    refine ⟨h.balanced.alloc.congr ?_, h.badFree⟩
    rw [List.perm_iff_count]
    intro n
    simp only [Iocp.count_held, Writer.malloc, List.count_append, List.count_cons, List.count_nil]
    omega
  · exact fun s h => ⟨Writer.balanced_forget h.balanced, h.badFree⟩
  · intro s h _
    refine ⟨h.balanced.alloc.congr ?_, h.badFree⟩
    rw [List.perm_iff_count]
    intro n
    simp only [Iocp.count_held, Writer.malloc, List.count_append, List.count_cons, List.count_nil]
    omega
  · exact fun s h => ⟨Writer.balanced_forget h.balanced, h.badFree⟩

theorem accounted_step {l : Label} (h : s.Accounted) (hstep : s.step host l = some t) :
    t.Accounted := by
  cases l with
  | given frame =>
    obtain ⟨o, devReads, hreads, rfl⟩ := given_eq_some hstep
    refine ⟨h.balanced.congr ?_, h.badFree⟩
    rw [List.perm_iff_count]
    intro n
    simp only [Iocp.count_held, hreads, List.count_append, List.count_cons, List.map_append,
      List.map_cons, List.map_nil, List.count_nil]
    omega
  | arrived chunk =>
    obtain ⟨o, pipeReads, hreads, -, rfl⟩ := arrived_eq_some hstep
    refine ⟨h.balanced.congr ?_, h.badFree⟩
    rw [List.perm_iff_count]
    intro n
    simp only [Iocp.count_held, hreads, List.count_append, List.count_cons, List.map_append,
      List.map_cons, List.map_nil, List.count_nil]
    omega
  | written i size =>
    obtain ⟨w, hw, -, rfl⟩ := written_eq_some hstep
    refine ⟨h.balanced.congr ?_, h.badFree⟩
    obtain ⟨hi, rfl⟩ := List.getElem?_eq_some_iff.mp hw
    have hperm := (List.getElem_cons_eraseIdx_perm hi).map Prod.fst
    rw [List.perm_iff_count] at hperm ⊢
    intro n
    have hcount := hperm n
    simp only [Iocp.count_held, List.count_append, List.count_cons, List.map_append,
      List.map_cons, List.map_nil, List.count_nil] at hcount ⊢
    omega
  | dequeue n =>
    obtain ⟨hnil, rfl⟩ := dequeue_eq_some hstep
    refine ⟨?_, h.badFree⟩
    have hbalanced := h.balanced
    rw [Iocp.held, Iocp.busy, hnil, List.nil_append, ← List.take_append_drop n s.port]
      at hbalanced
    exact hbalanced
  | issue dev pipe =>
    obtain rfl := issue_eq_some hstep
    exact h.issue dev pipe
  | handle malloc starts =>
    obtain ⟨e, es, hentries, -, rfl⟩ := handle_eq_some hstep
    exact h.handle hentries

/--
In every run, each `OVERLAPPED` belongs to one operation, from its start to the moment when
its entry has been handled, or is lost; none is freed before that or a second time.
-/
theorem blocks_accounted {deviceBuf pipeBuf : List Byte}
    (h : Reachable (Iocp.step host) (.start deviceBuf pipeBuf) s) : s.Accounted :=
  h.invariant (fun _ _ _ hs hstep => accounted_step hs hstep) ⟨.empty, rfl⟩

/-- Half of a size is read from the pipe: a block is lost. -/
theorem blocks_accounted_lost :
    ∃ s, Reachable (Iocp.step .little) (.start [] []) s ∧ s.writer.lost = [2] ∧ s.Accounted := by
  have hrun : Reachable (Iocp.step .little) (.start [] []) _ :=
    ⟨[.issue {} {}, .arrived [1], .dequeue 1, .handle true fun _ => {}],
      .cons rfl (.cons rfl (.cons rfl (.cons rfl (.nil _))))⟩
  exact ⟨_, hrun, rfl, blocks_accounted hrun⟩

end Blocks

end Tnetacle.Windows
