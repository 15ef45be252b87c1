import Tnetacle.Privileged.Channel

/-! # Delivery between the two processes

Each process is at one end of a socket pair. However their callbacks alternate, and wherever the
system calls stop, every message arrives once, in its place and with its own descriptor.
-/

namespace Tnetacle.Privileged

open ByteOrder Framing Runs Sideband

/-- Two processes and what the socket holds for each. -/
structure Link (σ τ : Type*) where
  left : Feed (Peer σ) Byte
  right : Feed (Peer τ) Byte
  toLeft : List (Token ℕ Byte) := []
  toRight : List (Token ℕ Byte) := []

inductive Move
  | left (a : Action)
  | right (a : Action)

section Link

variable {σ τ : Type*} (host : Endian) (iovMax : ℕ)
  (handleLeft : σ → Imsg → Option ℕ → σ × Option Request)
  (handleRight : τ → Imsg → Option ℕ → τ × Option Request)

def Link.step (s : Link σ τ) : Move → Option (Link σ τ)
  | .left a => (a.run host iovMax handleLeft s.left s.toLeft).map fun r =>
      { s with left := r.1, toLeft := r.2.1, toRight := s.toRight ++ r.2.2 }
  | .right a => (a.run host iovMax handleRight s.right s.toRight).map fun r =>
      { s with right := r.1, toRight := r.2.1, toLeft := s.toLeft ++ r.2.2 }

def Link.start (x : σ) (y : τ) (pidLeft pidRight : Long) : Link σ τ where
  left := { sink := { app := x, pid := pidLeft } }
  right := { sink := { app := y, pid := pidRight } }

end Link

/-- No call of `imsg_read` fails, in either process. -/
def Move.Sound : Move → Prop
  | .left a | .right a => a.Sound

def Move.Allocated : Move → Prop
  | .left a | .right a => a.Allocated

variable {σ τ : Type*} {host : Endian} {iovMax : ℕ}
  {handleLeft : σ → Imsg → Option ℕ → σ × Option Request}
  {handleRight : τ → Imsg → Option ℕ → τ × Option Request} {s s' : Link σ τ}
  {x : σ} {y : τ} {pidLeft pidRight : Long} {moves : List Move}

/-! ## Both directions -/

structure Link.Ordered (host : Endian) (s : Link σ τ) : Prop where
  left : Linked host s.right.sink.composed s.right.sink.handled
    (s.toLeft ++ s.right.sink.w.tokens) (apart s.right.sink.fds s.right.buffer ++ s.toRight) s.left
  right : Linked host s.left.sink.composed s.left.sink.handled
    (s.toRight ++ s.left.sink.w.tokens) (apart s.left.sink.fds s.left.buffer ++ s.toLeft) s.right

theorem Link.step_left {act : Action} {p : Feed (Peer σ) Byte} {inc out : List (Token ℕ Byte)}
    (handleRight : τ → Imsg → Option ℕ → τ × Option Request)
    (h : act.run host iovMax handleLeft s.left s.toLeft = some (p, inc, out)) :
    s.step host iovMax handleLeft handleRight (.left act) =
      some { s with left := p, toLeft := inc, toRight := s.toRight ++ out } := by
  rw [Link.step, h, Option.map_some]

theorem Link.step_right {act : Action} {p : Feed (Peer τ) Byte} {inc out : List (Token ℕ Byte)}
    (handleLeft : σ → Imsg → Option ℕ → σ × Option Request)
    (h : act.run host iovMax handleRight s.right s.toRight = some (p, inc, out)) :
    s.step host iovMax handleLeft handleRight (.right act) =
      some { s with right := p, toRight := inc, toLeft := s.toLeft ++ out } := by
  rw [Link.step, h, Option.map_some]

theorem Link.ordered_start (host : Endian) (x : σ) (y : τ) (pidLeft pidRight : Long) :
    (Link.start x y pidLeft pidRight).Ordered host := by
  have hnothing : Carries host [] [] [] := ⟨[], rfl, nofun, .nil⟩
  exact ⟨⟨hnothing, hnothing, rfl, nofun⟩, ⟨hnothing, hnothing, rfl, nofun⟩⟩

theorem Link.Ordered.step (h : s.Ordered host) {mv : Move} (hsound : mv.Sound)
    (hstep : s.step host iovMax handleLeft handleRight mv = some s') : s'.Ordered host := by
  cases mv with
  | left act =>
    obtain ⟨⟨p, inc, out⟩, hrun, rfl⟩ := Option.map_eq_some_iff.mp hstep
    have hleft := h.left.run hsound hrun
    rw [List.append_assoc] at hleft
    refine ⟨hleft, ?_, ?_, h.right.closed, h.right.waiting⟩
    · have hleaves := hleft.leaves
      rwa [List.append_assoc] at hleaves
    · have harrives := hleft.arrives
      rwa [← List.append_assoc] at harrives
  | right act =>
    obtain ⟨⟨p, inc, out⟩, hrun, rfl⟩ := Option.map_eq_some_iff.mp hstep
    have hright := h.right.run hsound hrun
    rw [List.append_assoc] at hright
    refine ⟨⟨?_, ?_, h.left.closed, h.left.waiting⟩, hright⟩
    · have hleaves := hright.leaves
      rwa [List.append_assoc] at hleaves
    · have harrives := hright.arrives
      rwa [← List.append_assoc] at harrives

theorem Link.ordered_of_run
    (hrun : Run (Link.step host iovMax handleLeft handleRight) (.start x y pidLeft pidRight)
      moves s)
    (hsound : ∀ mv ∈ moves, mv.Sound) : s.Ordered host := by
  apply hrun.invariant_of_forall _ hsound (Link.ordered_start host x y pidLeft pidRight)
  exact fun s mv t h hmv hstep => h.step hmv hstep

theorem Link.Ordered.in_order (h : s.Ordered host) :
    s.right.sink.handled <+: s.left.sink.composed ∧
      s.left.sink.handled <+: s.right.sink.composed := by
  obtain ⟨pending, hC, -⟩ := h.right.arrives
  obtain ⟨pending', hC', -⟩ := h.left.arrives
  exact ⟨⟨pending, hC.symm⟩, ⟨pending', hC'.symm⟩⟩

/-! ## A run to look at -/

def ignore (_ : Unit) (_ : Imsg) (_ : Option ℕ) : Unit × Option Request := ((), none)

def onePassed : List Move :=
  [.left (.compose {} { type := imsgCreateDev, fd := some 7 }),
    .left (.callback { read := false, write := true, send := .sent 10 }),
    .right (.callback { read := true, write := false, recv := .got 10 true }),
    .left (.callback { read := false, write := true, send := .sent 6 }),
    .right (.callback { read := true, write := false, recv := .got 6 true })]

theorem run_onePassed : ∃ s : Link Unit Unit,
    Run (Link.step .little 1024 ignore ignore) (.start () () 0 0) onePassed s ∧
      s.right.sink.handled.map Prod.snd = [some 7] :=
  ⟨_, .cons rfl (.cons rfl (.cons rfl (.cons rfl (.cons rfl (.nil _))))), by decide⟩

theorem sound_onePassed : ∀ mv ∈ onePassed, mv.Sound ∧ mv.Allocated := by
  simp [onePassed, Move.Sound, Move.Allocated, Action.Sound, Action.Allocated, Recv.Sound]

/-! ## Messages -/

/--
However the socket cuts what it is given, and whatever the handlers do: each process handles the
messages that the other one has composed in their order, each with its own descriptor, without
a gap and none of them twice.
-/
theorem handled_prefix_composed
    (hrun : Run (Link.step host iovMax handleLeft handleRight) (.start x y pidLeft pidRight)
      moves s)
    (hsound : ∀ mv ∈ moves, mv.Sound) :
    s.right.sink.handled <+: s.left.sink.composed ∧
      s.left.sink.handled <+: s.right.sink.composed :=
  (Link.ordered_of_run hrun hsound).in_order

theorem handled_prefix_composed_onePassed : ∃ s : Link Unit Unit,
    s.right.sink.handled.map Prod.snd = [some 7] ∧
      s.right.sink.handled <+: s.left.sink.composed := by
  obtain ⟨s, hrun, hhandled⟩ := run_onePassed
  exact ⟨s, hhandled, (handled_prefix_composed hrun fun mv hmv => (sound_onePassed mv hmv).1).1⟩

/-- A message that has been composed and not handled is in the queue, in the socket or in the buffer
of the other process: everything has been handled exactly when these are empty. -/
theorem handled_eq_composed_iff
    (hrun : Run (Link.step host iovMax handleLeft handleRight) (.start x y pidLeft pidRight)
      moves s)
    (hsound : ∀ mv ∈ moves, mv.Sound) :
    (s.right.sink.handled = s.left.sink.composed ↔
      s.left.sink.w.queued = 0 ∧ s.toRight = [] ∧ s.right.buffer = []) ∧
    (s.left.sink.handled = s.right.sink.composed ↔
      s.right.sink.w.queued = 0 ∧ s.toLeft = [] ∧ s.left.buffer = []) := by
  have h := Link.ordered_of_run hrun hsound
  exact ⟨h.right.arrives.eq_iff h.left.waiting, h.left.arrives.eq_iff h.right.waiting⟩

theorem handled_eq_composed_iff_onePassed : ∃ s : Link Unit Unit,
    s.right.sink.handled.map Prod.snd = [some 7] ∧
      (s.right.sink.handled = s.left.sink.composed ↔
        s.left.sink.w.queued = 0 ∧ s.toRight = [] ∧ s.right.buffer = []) := by
  obtain ⟨s, hrun, hhandled⟩ := run_onePassed
  exact ⟨s, hhandled, (handled_eq_composed_iff hrun fun mv hmv => (sound_onePassed mv hmv).1).1⟩

/-! ## Descriptors -/

theorem Linked.closed_eq {C H : List Passed} {t a : List (Token ℕ Byte)} {p : Feed (Peer σ) Byte}
    (h : Linked host C H t a p) {fds : List ℕ} {buf : List Byte} {wire : List (Token ℕ Byte)}
    (ha : a = apart fds buf ++ wire) :
    p.sink.w.closed = H.filterMap Prod.snd ++ (fds ++ marks wire) := by
  have hleaves := h.leaves
  rw [ha, List.append_assoc] at hleaves
  have hfds := hleaves.fds_eq
  rw [← h.closed, marks_append, ← List.append_assoc, ← List.append_assoc] at hfds
  rw [← List.append_assoc]
  exact List.append_cancel_right hfds

/-- A process has closed a descriptor that it passes exactly when it is in the socket or has come
out of it, and has closed it once. -/
theorem closed_eq_sent
    (hrun : Run (Link.step host iovMax handleLeft handleRight) (.start x y pidLeft pidRight)
      moves s)
    (hsound : ∀ mv ∈ moves, mv.Sound) :
    s.left.sink.w.closed = s.right.sink.handled.filterMap Prod.snd ++
        (s.right.sink.fds ++ marks s.toRight) ∧
      s.right.sink.w.closed = s.left.sink.handled.filterMap Prod.snd ++
        (s.left.sink.fds ++ marks s.toLeft) := by
  have h := Link.ordered_of_run hrun hsound
  exact ⟨h.left.closed_eq rfl, h.right.closed_eq rfl⟩

theorem closed_eq_sent_onePassed : ∃ s : Link Unit Unit,
    s.right.sink.handled.map Prod.snd = [some 7] ∧
      s.left.sink.w.closed = s.right.sink.handled.filterMap Prod.snd ++
        (s.right.sink.fds ++ marks s.toRight) := by
  obtain ⟨s, hrun, hhandled⟩ := run_onePassed
  exact ⟨s, hhandled, (closed_eq_sent hrun fun mv hmv => (sound_onePassed mv hmv).1).1⟩

/-! ## Room to read -/

def Link.Rested (host : Endian) (s : Link σ τ) : Prop :=
  Privileged.Rested host s.left ∧ Privileged.Rested host s.right

theorem Link.Rested.step (h : s.Rested host) {mv : Move} (hsound : mv.Sound)
    (halloc : mv.Allocated) (hstep : s.step host iovMax handleLeft handleRight mv = some s') :
    s'.Rested host := by
  cases mv with
  | left act =>
    obtain ⟨⟨p, inc, out⟩, hrun, rfl⟩ := Option.map_eq_some_iff.mp hstep
    exact ⟨h.1.run hsound halloc hrun, h.2⟩
  | right act =>
    obtain ⟨⟨p, inc, out⟩, hrun, rfl⟩ := Option.map_eq_some_iff.mp hstep
    exact ⟨h.1, h.2.run hsound halloc hrun⟩

theorem Link.rested_of_run
    (hrun : Run (Link.step host iovMax handleLeft handleRight) (.start x y pidLeft pidRight)
      moves s)
    (hsound : ∀ mv ∈ moves, mv.Sound ∧ mv.Allocated) : s.Rested host := by
  apply hrun.invariant_of_forall _ hsound ⟨nofun, nofun⟩
  exact fun s mv t h hmv hstep => h.step hmv.1 hmv.2 hstep

/--
As long as memory can be allocated, a process never keeps a whole message in its buffer, so that
there is always room to read, and `0` from `recvmsg` means that the other process is gone.
-/
theorem buffers_never_full
    (hrun : Run (Link.step host iovMax handleLeft handleRight) (.start x y pidLeft pidRight)
      moves s)
    (hsound : ∀ mv ∈ moves, mv.Sound ∧ mv.Allocated) :
    s.left.buffer.length < maxImsgsize ∧ s.right.buffer.length < maxImsgsize ∧
      ¬ Recv.closed.Allowed s.left.buffer s.toLeft ∧
      ¬ Recv.closed.Allowed s.right.buffer s.toRight := by
  have hordered := Link.ordered_of_run hrun fun mv hmv => (hsound mv hmv).1
  have hrested := Link.rested_of_run hrun hsound
  have hleft := hordered.left.arrives.length_lt hrested.1
  have hright := hordered.right.arrives.length_lt hrested.2
  have hmax : maxImsgsize ≤ ibufReadSize := by decide
  refine ⟨hleft, hright, ?_, ?_⟩
  · exact Nat.not_le.mpr (Nat.lt_of_lt_of_le hleft hmax)
  · exact Nat.not_le.mpr (Nat.lt_of_lt_of_le hright hmax)

theorem buffers_never_full_onePassed : ∃ s : Link Unit Unit,
    s.right.sink.handled.map Prod.snd = [some 7] ∧ s.right.buffer.length < maxImsgsize := by
  obtain ⟨s, hrun, hhandled⟩ := run_onePassed
  exact ⟨s, hhandled, (buffers_never_full hrun sound_onePassed).2.1⟩

end Tnetacle.Privileged
