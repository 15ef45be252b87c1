import Tnetacle.Fibers.Locality
import Tnetacle.Tunnel.Delivery

/-! # The broadcaster as a fiber

The queue machine keeps of the scheduler only what decides when the broadcaster goes
on: whether its yield event is active, whether its write event is added, and whether
its slot holds a failure. This module says how the scheduler holds the broadcaster, and
what a dispatch of one of its events and its next call do to that.
-/

namespace Tnetacle.Tunnel

open Fibers (Fd IntPtr Call SchedOperation Operation Syscall Event Fiber FibCtx Sched Activation
  RwEvents)
open Runs

/-- The fiber of the broadcaster, its socket, and the arguments of its sends. -/
structure Wiring where
  fib : ℕ
  fd : Fd
  buf : ℕ → IntPtr
  len : ℕ → IntPtr
  dst : ℕ → IntPtr
  socklen : ℕ → IntPtr

def Wiring.call (w : Wiring) : Pc → Call
  | .yield => .yield 0
  | .sendto _ _ it f => .sendto w.fd (w.buf f) (w.len f) 0 (w.dst it) (w.socklen it)

def Wiring.Slot (w : Wiring) (op : Operation) : Pc → Prop
  | .yield => op.opType = .yield
  | .sendto _ _ _ f => op.opType = .send ∧ op.arg1 = w.fd ∧ op.arg2 = w.buf f ∧
      op.arg3 = w.len f ∧ op.arg4 = 0

/--
The system call for a frame and a peer. It has no destination, because `async_sendto`
stores its request under `SEND`.
-/
def Wiring.send (w : Wiring) (p : ℕ × ℕ) : Syscall := .send w.fd (w.buf p.1) (w.len p.1) 0

def Wiring.performed (w : Wiring) (op : Operation) (r : IntPtr) : Pc → Operation × Option Syscall
  | .yield => (op, none)
  | .sendto _ _ it f => ({ op with ret := r }, some (w.send (f, it)))

def Wiring.yieldEv (w : Wiring) (added active : Bool) : Event :=
  { fd := -1, what := none, fib := w.fib, added := added, active := active }

def Wiring.writeEv (w : Wiring) (added : Bool) : Event :=
  { fd := w.fd, what := some .write, fib := w.fib, added := added }

/-- The events of the broadcaster are its yield event and, once it has sent, its write event. -/
structure Layout (w : Wiring) (s : Sched) (fib : Fiber) (act added : Bool) : Prop where
  fiber : s.fibers[w.fib]? = some fib
  yield : ∃ a, s.events[fib.yieldEvent]? = some (w.yieldEv a act)
  write : (fib.mapFe w.fd = none ∧ added = false) ∨
    ∃ e, fib.mapFe w.fd = some ⟨none, some e⟩ ∧ s.events[e]? = some (w.writeEv added)
  only : ∀ e ev, s.events[e]? = some ev → ev.fib = w.fib →
    e = fib.yieldEvent ∨ fib.mapFe w.fd = some ⟨none, some e⟩

variable {w : Wiring} {s t : Sched} {fib : Fiber} {act added : Bool} {e : ℕ}

namespace Layout

theorem congr (h : Layout w s fib act added) (hf : t.fibers = s.fibers)
    (he : t.events = s.events) : Layout w t fib act added :=
  ⟨hf ▸ h.fiber, he ▸ h.yield, he ▸ h.write, he ▸ h.only⟩

theorem agree (h : Layout w s fib act added) (ha : Fibers.Agree w.fib s t) :
    Layout w t fib act added := by
  have hkeep : ∀ (e : ℕ) (ev : Event), s.events[e]? = some ev → ev.fib = w.fib →
      t.events[e]? = some ev := by
    intro e ev hev hfib
    rw [ha.events e (.inr (by rw [Sched.owner, hev, ← hfib]; rfl)), hev]
  obtain ⟨a, hy⟩ := h.yield
  refine ⟨ha.fiber.trans h.fiber, ⟨a, hkeep _ _ hy rfl⟩, h.write.imp id ?_, ?_⟩
  · rintro ⟨e, he, hw⟩
    exact ⟨e, he, hkeep e _ hw rfl⟩
  · intro e ev hev hfib
    rw [ha.events e (.inl (by rw [Sched.owner, hev, ← hfib]; rfl))] at hev
    exact h.only e ev hev hfib

theorem modifyFiber (h : Layout w s fib act added) (g : Fiber → Fiber)
    (hy : (g fib).yieldEvent = fib.yieldEvent) (hm : (g fib).mapFe = fib.mapFe) :
    Layout w (s.modifyFiber w.fib g) (g fib) act added where
  fiber := by simp [Sched.modifyFiber, h.fiber]
  yield := by rw [hy]; exact h.yield
  write := by rw [hm]; exact h.write
  only := by rw [hy, hm]; exact h.only

theorem get_write (h : Layout w s fib act added) (he : fib.mapFe w.fd = some ⟨none, some e⟩) :
    s.events[e]? = some (w.writeEv added) := by
  rcases h.write with ⟨hnone, -⟩ | ⟨e', he', hw⟩
  · rw [hnone] at he
    cases he
  · rw [he] at he'
    cases he'
    exact hw

theorem yield_ne_write (h : Layout w s fib act added)
    (he : fib.mapFe w.fd = some ⟨none, some e⟩) : fib.yieldEvent ≠ e := by
  rintro rfl
  obtain ⟨a, hy⟩ := h.yield
  have hw := h.get_write he
  rw [hy] at hw
  simp [Wiring.yieldEv, Wiring.writeEv] at hw

theorem only_modifyEvent (h : Layout w s fib act added) {i : ℕ} {g : Event → Event}
    (hg : ∀ ev, (g ev).fib = ev.fib) :
    ∀ e ev, (s.modifyEvent i g).events[e]? = some ev → ev.fib = w.fib →
      e = fib.yieldEvent ∨ fib.mapFe w.fd = some ⟨none, some e⟩ := by
  intro e ev hev hfib
  rw [Sched.modifyEvent, List.getElem?_modify] at hev
  obtain ⟨ev', hev', rfl⟩ := Option.map_eq_some_iff.mp hev
  refine h.only e ev' hev' ?_
  split at hfib
  · rwa [hg] at hfib
  · exact hfib

theorem modify_yield {act' : Bool} (h : Layout w s fib act added) {g : Event → Event}
    (hg : ∀ ev, (g ev).fib = ev.fib) (hy : ∀ a, ∃ a', g (w.yieldEv a act) = w.yieldEv a' act') :
    Layout w (s.modifyEvent fib.yieldEvent g) fib act' added := by
  obtain ⟨a, ha⟩ := h.yield
  obtain ⟨a', ha'⟩ := hy a
  refine ⟨h.fiber, ⟨a', by simp [Sched.modifyEvent, ha, ha']⟩, ?_, h.only_modifyEvent hg⟩
  refine h.write.imp id ?_
  rintro ⟨e, he, hw⟩
  exact ⟨e, he, by rw [Sched.modifyEvent, List.getElem?_modify_ne _ _ (h.yield_ne_write he), hw]⟩

theorem modify_write {added' : Bool} (h : Layout w s fib act added)
    (he : fib.mapFe w.fd = some ⟨none, some e⟩) {g : Event → Event}
    (hg : ∀ ev, (g ev).fib = ev.fib) (hw : g (w.writeEv added) = w.writeEv added') :
    Layout w (s.modifyEvent e g) fib act added' := by
  obtain ⟨a, ha⟩ := h.yield
  refine ⟨h.fiber, ⟨a, ?_⟩, Or.inr ⟨e, he, ?_⟩, h.only_modifyEvent hg⟩
  · rw [Sched.modifyEvent, List.getElem?_modify_ne _ _ (h.yield_ne_write he).symm, ha]
  · simp [Sched.modifyEvent, h.get_write he, hw]

/-- `async_wake` activates the yield event. -/
theorem asyncWake_eq (h : Layout w s fib act added) :
    s.asyncWake w.fib = s.modifyEvent fib.yieldEvent fun ev => { ev with active := true } := by
  obtain ⟨a, hy⟩ := h.yield
  simp [Sched.asyncWake, h.fiber, Sched.eventActive, hy, Wiring.yieldEv]

theorem asyncWake (h : Layout w s fib act added) : Layout w (s.asyncWake w.fib) fib true added := by
  rw [h.asyncWake_eq]
  exact h.modify_yield (fun _ => rfl) fun a => ⟨a, rfl⟩

theorem consume_yield (h : Layout w s fib act added) :
    Layout w (s.consume fib.yieldEvent) fib false added :=
  h.modify_yield (fun _ => rfl) fun _ => ⟨false, rfl⟩

theorem consume_write (h : Layout w s fib act added)
    (he : fib.mapFe w.fd = some ⟨none, some e⟩) : Layout w (s.consume e) fib act false :=
  h.modify_write he (fun _ => rfl) rfl

/-- `get_events` makes the write event. -/
theorem insert_write (h : Layout w s fib act added) (hm : fib.mapFe w.fd = none) :
    Layout w (Sched.modifyFiber { s with events := s.events ++ [w.writeEv false] } w.fib fun fib =>
        { fib with mapFe := Function.update fib.mapFe w.fd (some ⟨none, some s.events.length⟩) })
      { fib with mapFe := Function.update fib.mapFe w.fd (some ⟨none, some s.events.length⟩) }
      act false := by
  obtain ⟨a, ha⟩ := h.yield
  have hlt : fib.yieldEvent < s.events.length := (List.getElem?_eq_some_iff.mp ha).1
  refine ⟨by simp [Sched.modifyFiber, h.fiber], ⟨a, ?_⟩,
    Or.inr ⟨s.events.length, Function.update_self .., ?_⟩, ?_⟩
  · simp only [Sched.modifyFiber]
    rw [List.getElem?_append_left hlt, ha]
  · simp [Sched.modifyFiber]
  · intro e ev hev hfib
    simp only [Sched.modifyFiber] at hev
    by_cases he : e < s.events.length
    · rw [List.getElem?_append_left he] at hev
      refine (h.only e ev hev hfib).imp id fun hold => ?_
      rw [hm] at hold
      cases hold
    · obtain rfl : e = s.events.length := by
        have := (List.getElem?_eq_some_iff.mp hev).1
        rw [List.length_append, List.length_singleton] at this
        omega
      exact Or.inr (Function.update_self ..)

/-- `async_sendto` adds the write event, which it makes when there is none. -/
theorem arm (h : Layout w s fib act added) :
    ∃ fe, Layout w (s.arm w.fib w.fd .write) { fib with mapFe := fe } act true ∧
      (s.arm w.fib w.fd .write).undef = s.undef ∧
      (s.arm w.fib w.fd .write).activations = s.activations ∧
      (s.arm w.fib w.fd .write).originCtx = s.originCtx := by
  rcases h.write with ⟨hm, -⟩ | ⟨e, he, hw⟩
  · have hadd := (h.insert_write hm).modify_write (Function.update_self ..)
      (g := fun ev => { ev with added := true }) (fun _ => rfl) (rfl : _ = w.writeEv true)
    have harm : s.arm w.fib w.fd .write = Sched.eventAdd (Sched.modifyFiber
        { s with events := s.events ++ [w.writeEv false] } w.fib fun fib => { fib with
          mapFe := Function.update fib.mapFe w.fd (some ⟨none, some s.events.length⟩) })
        s.events.length := by
      simp [Sched.arm, Sched.getEvents, h.fiber, hm, RwEvents.set, RwEvents.get, Wiring.writeEv]
    rw [harm]
    exact ⟨_, hadd, rfl, rfl, rfl⟩
  · have harm : s.arm w.fib w.fd .write = s.eventAdd e := by
      simp [Sched.arm, Sched.getEvents, h.fiber, he, RwEvents.get]
    rw [harm]
    exact ⟨fib.mapFe, h.modify_write he (fun _ => rfl) rfl, rfl, rfl, rfl⟩

theorem coroTransfer (h : Layout w s fib act added) {a : Activation} {rest : List Activation}
    (hundef : s.undef = false) (hact : s.activations = a :: rest) (hfib : a.fib = w.fib)
    (horigin : s.originCtx = some a.ctx) (hop : fib.fibOp.opType ≠ .free) (c : FibCtx) :
    Layout w (s.coroTransfer w.fib c) { fib with fibCtx := c } act added ∧
      (s.coroTransfer w.fib c).undef = false ∧ (s.coroTransfer w.fib c).activations = rest := by
  have hsuspended := h.modifyFiber (fun fib => { fib with fibCtx := c }) rfl rfl
  have heq : s.coroTransfer w.fib c =
      (s.modifyFiber w.fib fun fib => { fib with fibCtx := c }).resumed a rest := by
    simp [Sched.coroTransfer, Sched.modifyFiber, hact, horigin]
  rw [heq]
  refine ⟨?_, hundef, rfl⟩
  let frees (fib : Fiber) : Fiber :=
    if fib.fibOp.opType = .free then { fib with released := a.resumer.frees fib.released } else fib
  have hkeep : frees { fib with fibCtx := c } = { fib with fibCtx := c } := if_neg hop
  have hlay := hsuspended.modifyFiber frees (by rw [hkeep]) (by rw [hkeep])
  rw [hkeep] at hlay
  refine hlay.congr ?_ rfl
  simp [Sched.resumed, Sched.modifyFiber, hfib, frees]

end Layout

/-- The broadcaster waits in the scheduler as the queue machine says. -/
structure Tracks (w : Wiring) (q : Queue) (s : Sched) : Prop where
  away : ∀ a ∈ s.activations, a.fib ≠ w.fib
  fiber : ∃ fib, Layout w s fib q.yieldActive q.writeAdded ∧
    fib.fibCtx = .suspended (w.call q.pc) ∧ w.Slot fib.fibOp q.pc ∧
    q.failed = decide (fib.fibOp.ret = -1)

/-- The broadcaster runs, with the given events and the given result in its slot. -/
structure Serving (w : Wiring) (s : Sched) (act added failed : Bool) : Prop where
  undef : s.undef = false
  activation : ∃ a rest, s.activations = a :: rest ∧ a.fib = w.fib ∧
    (∀ b ∈ rest, b.fib ≠ w.fib) ∧ s.originCtx = some a.ctx
  fiber : ∃ fib, Layout w s fib act added ∧ failed = decide (fib.fibOp.ret = -1)

section Call

variable {q : Queue} {failed : Bool}

theorem step_call (hundef : s.undef = false) {a : Activation} {rest : List Activation}
    (hact : s.activations = a :: rest) (c : Call) :
    Fibers.step s (.call c) = some (s.async a.fib c) := by
  simp [Fibers.step, hundef, Sched.current, hact]

theorem Serving.call (h : Serving w s act added failed) (hact : q.yieldActive = act)
    (hfailed : q.failed = failed)
    (hadded : q.writeAdded = match q.pc with | .yield => added | .sendto .. => true) :
    ∃ t, Fibers.step s (.call (w.call q.pc)) = some t ∧ t.undef = false ∧
      t.activations = s.activations.tail ∧ Tracks w q t := by
  obtain ⟨a, rest, ha, hfib, haway, horigin⟩ := h.activation
  obtain ⟨fib, hlay, hret⟩ := h.fiber
  refine ⟨_, step_call h.undef ha _, ?_⟩
  rw [hfib, ha, List.tail_cons]
  cases hpc : q.pc with
  | yield =>
    rw [hpc] at hadded
    have hop := hlay.modifyFiber (fun fib => { fib with
      fibOp := { fib.fibOp with opType := .yield, arg1 := 0 } }) rfl rfl
    obtain ⟨hlay', hundef, hrest⟩ := hop.coroTransfer h.undef ha hfib horigin (by simp)
      (.suspended (.yield 0))
    refine ⟨hundef, hrest, fun b hb => haway b (hrest ▸ hb), ?_⟩
    rw [hact, hadded, hfailed, hpc]
    exact ⟨_, hlay', rfl, rfl, hret⟩
  | sendto fit fite it f =>
    rw [hpc] at hadded
    obtain ⟨fe, harm, hundef, hacts, horig⟩ := hlay.arm
    have hop := harm.modifyFiber (fun fib => { fib with fibOp := { fib.fibOp with
      opType := .send, fd := w.fd, arg1 := w.fd, arg2 := w.buf f, arg3 := w.len f,
      arg4 := 0, arg5 := w.dst it, arg6 := w.socklen it } }) rfl rfl
    obtain ⟨hlay', hundef', hrest⟩ := hop.coroTransfer (hundef.trans h.undef) (hacts.trans ha) hfib
      (horig.trans horigin) (by simp) (.suspended (w.call (.sendto fit fite it f)))
    refine ⟨hundef', hrest, fun b hb => haway b (hrest ▸ hb), ?_⟩
    rw [hact, hadded, hfailed, hpc]
    exact ⟨_, hlay', rfl, ⟨rfl, rfl, rfl, rfl, rfl⟩, hret⟩

theorem Layout.serving (h : Layout w s fib act added) (hundef : s.undef = false)
    (haway : ∀ a ∈ s.activations, a.fib ≠ w.fib) (r : Fibers.Resumer) :
    Serving w (s.activate w.fib r) act added (decide (fib.fibOp.ret = -1)) := by
  have hrun := h.modifyFiber (fun fib => { fib with fibCtx := .running }) rfl rfl
  exact ⟨hundef, ⟨⟨s.nextCtx, w.fib, r⟩, s.activations, rfl, rfl, haway, rfl⟩, _,
    hrun.congr rfl rfl, rfl⟩

theorem Serving.recorded (h : Serving w s act added failed) (rs : List Fibers.Resume) :
    Serving w { s with resumes := rs } act added failed := by
  obtain ⟨fib, hlay, hret⟩ := h.fiber
  exact ⟨h.undef, h.activation, fib, hlay.congr rfl rfl, hret⟩

end Call

def Wiring.made (w : Wiring) (s : Sched) : List Syscall :=
  (s.resumes.filter (·.fib = w.fib)).flatMap fun x => x.executed.map (·.1)

section Made

variable {fs : List ℕ}

theorem made_append {x : Fibers.Resume} (h : t.resumes = s.resumes ++ [x]) (hx : x.fib = w.fib) :
    w.made t = w.made s ++ x.executed.map (·.1) := by
  simp [Wiring.made, h, hx]

theorem made_of_within (h : Fibers.Within fs s t) (hw : w.fib ∉ fs) : w.made t = w.made s := by
  obtain ⟨xs, hxs, hfs⟩ := h.resumes
  have hnone : xs.filter (·.fib = w.fib) = [] := by
    refine List.filter_eq_nil_iff.mpr fun x hx heq => hw ?_
    rw [← of_decide_eq_true heq]
    exact hfs x hx
  rw [Wiring.made, hxs, List.filter_append, hnone, List.append_nil]
  rfl

theorem made_of_resumes (h : t.resumes = s.resumes) : w.made t = w.made s := by
  rw [Wiring.made, h]
  rfl

end Made

section Dispatch

variable {peers : List Meta.Endpoint} {q : Queue} {pc : Pc} {op : Operation} {c : Call}
  {r : IntPtr}

theorem Wiring.Slot.perform_timeout (h : w.Slot op pc) :
    op.perform Fibers.evTimeout r = (op, none) := by
  cases pc with
  | yield => simp [Operation.perform, Fibers.evTimeout, Fibers.evRead, Fibers.evWrite,
      show op.opType = .yield from h]
  | sendto => simp [Operation.perform, Fibers.evTimeout, Fibers.evRead, Fibers.evWrite, h.1]

theorem Wiring.Slot.perform_write (h : w.Slot op pc) :
    op.perform Fibers.evWrite r = w.performed op r pc := by
  cases pc with
  | yield =>
    simp [Operation.perform, Wiring.performed, Fibers.evRead, Fibers.evWrite,
      show op.opType = .yield from h]
  | sendto fit fite it f =>
    obtain ⟨hop, h₁, h₂, h₃, h₄⟩ := h
    simp [Operation.perform, Wiring.performed, Wiring.send, Fibers.evRead, Fibers.evWrite, hop, h₁,
      h₂, h₃, h₄]

theorem step_dispatch (hundef : s.undef = false) (hidle : s.activations = []) {ev : Event}
    {how : Fibers.Firing} (hev : s.events[e]? = some ev) (hfires : ev.fires how = true)
    (hfib : s.fibers[ev.fib]? = some fib) (hctx : fib.fibCtx = .suspended c) :
    ∃ x : Fibers.Resume, x.fib = ev.fib ∧
      x.executed = ((fib.fibOp.perform (ev.flag how) r).2.map (·, r)).toList ∧
      Fibers.step s (.dispatch e how r) = some { Sched.activate ((s.consume e).modifyOp ev.fib
          fun _ => (fib.fibOp.perform (ev.flag how) r).1) ev.fib .dispatch with
        resumes := s.resumes ++ [x] } := by
  have hfib' : (s.consume e).fibers[ev.fib]? = some fib := hfib
  let p := fib.fibOp.perform (ev.flag how) r
  let u := (s.consume e).modifyOp ev.fib fun _ => p.1
  refine ⟨⟨ev.fib, c, (p.2.map (·, r)).toList, u.returned c p.1⟩, rfl, rfl, ?_⟩
  simp only [Fibers.step, hundef, hidle, Sched.schedDispatch, hev, hfires, hfib', hctx]
  rfl

theorem Serving.resume (hs : q.Shaped peers)
    (h : Serving w s q.yieldActive q.writeAdded q.failed)
    (hd : (q.resume peers).dangling = false) :
    ∃ t, Fibers.step s (.call (w.call (q.resume peers).pc)) = some t ∧ t.undef = false ∧
      t.activations = s.activations.tail ∧ Tracks w (q.resume peers) t := by
  have hr := resumed_resume hs
  generalize q.resume peers = q' at hr hd
  cases hr with
  | ended => exact h.call rfl rfl rfl
  | called => exact h.call rfl rfl rfl
  | dangled => cases hd

section Events

variable (hundef : s.undef = false) (hidle : s.activations = [])
  (hlay : Layout w s fib q.yieldActive q.writeAdded)
  (hctx : fib.fibCtx = .suspended (w.call q.pc)) (hslot : w.Slot fib.fibOp q.pc)
  (hret : q.failed = decide (fib.fibOp.ret = -1))

include hundef hidle hlay hctx hslot hret

theorem yield_dispatched (hact : q.yieldActive = true) (r : IntPtr) :
    ∃ t, Fibers.step s (.dispatch fib.yieldEvent .active r) = some t ∧
      t.activations.tail = [] ∧ w.made t = w.made s ∧ Serving w t false q.writeAdded q.failed := by
  obtain ⟨a, ha⟩ := hlay.yield
  have hfires : (w.yieldEv a q.yieldActive).fires .active = true := by
    simp [Event.fires, Wiring.yieldEv, hact]
  obtain ⟨x, hx, hexec, hstep⟩ := step_dispatch (r := r) hundef hidle ha hfires hlay.fiber hctx
  have hflag : (w.yieldEv a q.yieldActive).flag .active = Fibers.evTimeout := rfl
  rw [hflag, hslot.perform_timeout] at hexec hstep
  refine ⟨_, hstep, hidle, ?_, ?_⟩
  · rw [made_append rfl hx, hexec]
    exact List.append_nil _
  · have haway : ∀ a ∈ s.activations, a.fib ≠ w.fib := by simp [hidle]
    have hop := hlay.consume_yield.modifyFiber
      (fun fib' => { fib' with fibOp := fib.fibOp }) rfl rfl
    rw [hret]
    exact (hop.serving hundef haway .dispatch).recorded _

theorem write_dispatched (he : fib.mapFe w.fd = some ⟨none, some e⟩)
    (hadded : q.writeAdded = true) (r : IntPtr) :
    ∃ t, Fibers.step s (.dispatch e .ready r) = some t ∧ t.activations.tail = [] ∧
      (w.made s = q.sent.map w.send → w.made t = (q.carryOut (r ≠ -1)).sent.map w.send) ∧
      Serving w t q.yieldActive false (q.carryOut (r ≠ -1)).failed := by
  have hfires : (w.writeEv q.writeAdded).fires .ready = true := by
    simp [Event.fires, Wiring.writeEv, hadded]
  obtain ⟨x, hx, hexec, hstep⟩ := step_dispatch (r := r) hundef hidle (hlay.get_write he) hfires
    hlay.fiber hctx
  have hflag : (w.writeEv q.writeAdded).flag .ready = Fibers.evWrite := rfl
  rw [hflag, hslot.perform_write] at hexec hstep
  refine ⟨_, hstep, hidle, fun hmade => ?_, ?_⟩
  · rw [made_append rfl hx, hexec]
    show w.made s ++ _ = _
    rw [hmade, Queue.carryOut]
    cases q.pc with
    | yield => simp [Wiring.performed]
    | sendto => simp [Wiring.performed]
  · have haway : ∀ a ∈ s.activations, a.fib ≠ w.fib := by simp [hidle]
    have hop := (hlay.consume_write he).modifyFiber (fun fib' =>
      { fib' with fibOp := (w.performed fib.fibOp r q.pc).1 }) rfl rfl
    have hfailed : (q.carryOut (r ≠ -1)).failed =
        decide ((w.performed fib.fibOp r q.pc).1.ret = -1) := by
      rw [Queue.carryOut]
      cases q.pc with
      | yield => exact hret
      | sendto =>
        show (!decide (r ≠ -1)) = decide (r = -1)
        rw [decide_not, Bool.not_not]
    rw [hfailed]
    exact (hop.serving hundef haway .dispatch).recorded _

end Events

end Dispatch

end Tnetacle.Tunnel
