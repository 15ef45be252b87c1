import Tnetacle.Tunnel.Broadcaster

/-! # The broadcaster on the scheduler

The broadcaster and the device fiber run on the scheduler, beside any other fibers. The
queue machine is what is left of this when everything but the two is forgotten: every
run of the process is a run of the machine, and every run of the machine is one that
the process can take. Therefore what is proved of the machine is true of the process.
-/

namespace Tnetacle.Tunnel

open Fibers (IntPtr Syscall Event Fiber Sched)
open Runs

variable {w : Wiring} {s t : Sched} {fib : Fiber} {act added : Bool} {e : ℕ}

/-- The queue and the local variables of the broadcaster, and the scheduler it runs on. -/
structure Process where
  queue : Queue
  sched : Sched

inductive ProcessLabel
  | device (moves : List Bool)
  | sched (l : Fibers.Label)

def Wiring.failure (w : Wiring) (s : Sched) : Bool :=
  (s.fibers[w.fib]?.map fun fib => decide (fib.fibOp.ret = -1)).getD false

namespace Process

variable (w : Wiring) (peers : List Meta.Endpoint)

def broadcastUdp (q : Queue) (s : Sched) : Option Process :=
  let q' := { q with failed := w.failure s }.resume peers
  if q'.dangling then some ⟨q', s⟩ else (Fibers.step s (.call (w.call q'.pc))).map (⟨q', ·⟩)

/-- The device fiber pushes and wakes; everything else is done by the scheduler. -/
def step (p : Process) : ProcessLabel → Option Process
  | .device moves =>
    let q := p.queue.serverDevice moves
    if p.queue.dangling then none
    else if 0 < q.framesToSend.data.length then (Fibers.step p.sched (.wake w.fib)).map (⟨q, ·⟩)
    else some ⟨q, p.sched⟩
  | .sched l =>
    if w.fib ∈ Fibers.touched p.sched l then
      match l with
      | .dispatch .. =>
        if p.queue.dangling then none
        else (Fibers.step p.sched l).bind (broadcastUdp w peers p.queue)
      | _ => none
    else (Fibers.step p.sched l).map (⟨p.queue, ·⟩)

end Process

def Queue.program (q : Queue) : Queue :=
  { q with writeAdded := false, yieldActive := false, sent := [] }

def Process.Ready (p : Process) : Prop := p.sched.undef = false ∧ p.sched.activations = []

structure Refines (w : Wiring) (peers : List Meta.Endpoint) (q : Queue) (p : Process) : Prop where
  shaped : q.Shaped peers
  owned : p.sched.Owned
  program : p.queue.program = q.program
  made : w.made p.sched = q.sent.map w.send
  tracks : q.dangling = false → Tracks w q p.sched

section Program

variable {peers : List Meta.Endpoint} {q q' : Queue}

theorem dangling_of_program (h : q.program = q'.program) : q.dangling = q'.dangling := by
  have hdangling := congrArg Queue.dangling h
  exact hdangling

theorem framesToSend_of_program (h : q.program = q'.program) :
    q.framesToSend = q'.framesToSend := by
  have hframes := congrArg Queue.framesToSend h
  exact hframes

theorem passed_of_program (h : q.program = q'.program) : q.passed = q'.passed := by
  have hpassed := congrArg Queue.passed h
  exact hpassed

theorem pc_of_program (h : q.program = q'.program) : q.pc = q'.pc := by
  have hpc := congrArg Queue.pc h
  exact hpc

theorem program_callSendto (q : Queue) (fit fite : Growable.Iter) (it : ℕ) :
    (q.callSendto fit fite it).program = (q.program.callSendto fit fite it).program := by
  simp only [Queue.callSendto, Queue.program]
  split <;> rfl

theorem program_frameLoop (q : Queue) (fit fite : Growable.Iter) :
    (q.frameLoop peers fit fite).program = (q.program.frameLoop peers fit fite).program := by
  unfold Queue.frameLoop
  split
  · rfl
  · exact program_callSendto q fit fite 0

theorem program_afterSendto (q : Queue) (fit fite : Growable.Iter) (it : ℕ) :
    (q.afterSendto peers fit fite it).program =
      (q.program.afterSendto peers fit fite it).program := by
  unfold Queue.afterSendto
  rw [show q.program.failed = q.failed from rfl,
    show q.program.framesToSend = q.framesToSend from rfl]
  repeat' split
  · exact program_frameLoop q fit.next fite
  · rfl
  · exact program_callSendto q fit fite (it + 1)
  · exact program_frameLoop q fit.next fite

theorem program_resume (h : q.program = q'.program) :
    (q.resume peers).program = (q'.resume peers).program := by
  have hself : ∀ q : Queue, (q.resume peers).program = (q.program.resume peers).program := by
    intro q
    unfold Queue.resume
    rw [show q.program.pc = q.pc from rfl]
    split
    · exact program_frameLoop q _ _
    · exact program_afterSendto q _ _ _
  rw [hself q, h, ← hself q']

theorem program_failed (h : q.program = q'.program) (b : Bool) :
    Queue.program { q with failed := b } = Queue.program { q' with failed := b } :=
  congrArg (fun q : Queue => { q with failed := b }) h

theorem program_serverDevice (h : q.program = q'.program) (moves : List Bool) :
    (q.serverDevice moves).program = (q'.serverDevice moves).program := by
  have hpush : ∀ q : Queue, (moves.foldl Queue.pushFrame q).program =
      moves.foldl Queue.pushFrame q.program := by
    induction moves with
    | nil => exact fun _ => rfl
    | cons moved moves ih => exact fun q => ih (q.pushFrame moved)
  have hself : ∀ q : Queue, (q.serverDevice moves).program =
      moves.foldl Queue.pushFrame q.program := by
    intro q
    rw [← hpush q, Queue.serverDevice]
    split <;> rfl
  rw [hself q, h, ← hself q']

end Program

section Refinement

variable {peers : List Meta.Endpoint} {q pq : Queue} {p p' : Process}

theorem Serving.failure {failed : Bool} (h : Serving w s act added failed) :
    w.failure s = failed := by
  obtain ⟨fib, hlay, hret⟩ := h.fiber
  rw [Wiring.failure, hlay.fiber, hret]
  rfl

theorem broadcastUdp_refines (hs : q.Shaped peers) (ho : s.Owned)
    (hprog : Queue.program { pq with failed := q.failed } = q.program)
    (hserve : Serving w s q.yieldActive q.writeAdded q.failed)
    (hmade : w.made s = q.sent.map w.send) (htail : s.activations.tail = []) :
    ∃ p, Process.broadcastUdp w peers pq s = some p ∧ Refines w peers (q.resume peers) p ∧
      ((q.resume peers).dangling = false → p.Ready) := by
  have hr := resumed_resume hs
  have hres : (Queue.resume peers { pq with failed := q.failed }).program =
      (q.resume peers).program := program_resume hprog
  rw [← hr.sent] at hmade
  unfold Process.broadcastUdp
  rw [hserve.failure]
  simp only
  generalize Queue.resume peers { pq with failed := q.failed } = q' at hres
  rw [dangling_of_program hres, pc_of_program hres]
  cases hd : (q.resume peers).dangling with
  | true =>
    exact ⟨_, if_pos rfl, ⟨hr.shaped hs, ho, hres, hmade, fun h => by rw [hd] at h; cases h⟩,
      fun h => by cases h⟩
  | false =>
    obtain ⟨t, hstep, hundef, hacts, htracks⟩ := hserve.resume hs hd
    rw [hstep]
    refine ⟨⟨q', t⟩, rfl, ⟨hr.shaped hs, (Fibers.within_step ho hstep).owned, hres, ?_,
      fun _ => htracks⟩, fun _ => ⟨hundef, hacts.trans htail⟩⟩
    exact (made_of_resumes (Fibers.resumes_step (by simp) hstep)).trans hmade

theorem step_own_dispatch {how : Fibers.Firing} {r : IntPtr} (hd : p.queue.dangling = false)
    (hown : p.sched.owner e = some w.fib) :
    Process.step w peers p (.sched (.dispatch e how r)) =
      (Fibers.step p.sched (.dispatch e how r)).bind (Process.broadcastUdp w peers p.queue) := by
  simp [Process.step, Fibers.touched, hown, hd]

section Dispatched

variable (h : Refines w peers q p) (hd : q.dangling = false) (hready : p.Ready)
  (hlay : Layout w p.sched fib q.yieldActive q.writeAdded)
  (hctx : fib.fibCtx = .suspended (w.call q.pc)) (hslot : w.Slot fib.fibOp q.pc)
  (hret : q.failed = decide (fib.fibOp.ret = -1))

include h hd hready hlay hctx hslot hret

theorem wake_refines (hact : q.yieldActive = true) (r : IntPtr) :
    ∃ p', Process.step w peers p (.sched (.dispatch fib.yieldEvent .active r)) = some p' ∧
      Refines w peers (q.dispatchYield peers) p' ∧
      ((q.dispatchYield peers).dangling = false → p'.Ready) := by
  obtain ⟨t, hstep, htail, hmade, hserve⟩ :=
    yield_dispatched hready.1 hready.2 hlay hctx hslot hret hact r
  have hown : p.sched.owner fib.yieldEvent = some w.fib := by
    obtain ⟨a, ha⟩ := hlay.yield
    rw [Sched.owner, ha]
    rfl
  rw [step_own_dispatch ((dangling_of_program h.program).trans hd) hown, hstep, Option.bind_some]
  exact broadcastUdp_refines (q := { q with yieldActive := false }) h.shaped.same
    (Fibers.within_step h.owned hstep).owned (program_failed h.program q.failed) hserve
    (hmade.trans h.made) htail

theorem writable_refines (he : fib.mapFe w.fd = some ⟨none, some e⟩)
    (hadded : q.writeAdded = true) (r : IntPtr) :
    ∃ p', Process.step w peers p (.sched (.dispatch e .ready r)) = some p' ∧
      Refines w peers (q.dispatchWrite peers (r ≠ -1)) p' ∧
      ((q.dispatchWrite peers (r ≠ -1)).dangling = false → p'.Ready) := by
  obtain ⟨t, hstep, htail, hmade, hserve⟩ :=
    write_dispatched hready.1 hready.2 hlay hctx hslot hret he hadded r
  have hown : p.sched.owner e = some w.fib := by
    rw [Sched.owner, hlay.get_write he]
    rfl
  rw [step_own_dispatch ((dangling_of_program h.program).trans hd) hown, hstep, Option.bind_some]
  have hcarry : ∀ ok, (q.carryOut ok).Shaped peers ∧ (q.carryOut ok).yieldActive = q.yieldActive ∧
      (q.carryOut ok).writeAdded = false ∧
      Queue.program { q with failed := (q.carryOut ok).failed } = (q.carryOut ok).program := by
    intro ok
    rw [Queue.carryOut]
    split
    · exact ⟨h.shaped.same, rfl, rfl, rfl⟩
    · exact ⟨h.shaped.same, rfl, rfl, rfl⟩
  obtain ⟨hs, hact, hadd, hprog⟩ := hcarry (r ≠ -1)
  exact broadcastUdp_refines hs (Fibers.within_step h.owned hstep).owned
    ((program_failed h.program _).trans hprog) (by rwa [hact, hadd]) (hmade h.made) htail

end Dispatched

theorem foreign_refines (h : Refines w peers q p) {l : Fibers.Label}
    (hw : w.fib ∉ Fibers.touched p.sched l) (hstep : Fibers.step p.sched l = some t) :
    Refines w peers q ⟨p.queue, t⟩ := by
  have hwithin := Fibers.within_step h.owned hstep
  refine ⟨h.shaped, hwithin.owned, h.program, (made_of_within hwithin hw).trans h.made,
    fun hd => ?_⟩
  obtain ⟨haway, fib, hlay, hctx, hslot, hret⟩ := h.tracks hd
  refine ⟨fun a ha => ?_, fib, hlay.agree (hwithin.agree _ hw), hctx, hslot, hret⟩
  rcases hwithin.activations a ha with hold | hnew
  · exact haway a hold
  · exact fun heq => hw (heq ▸ hnew)

theorem Tracks.serverDevice (h : Tracks w q s) (moves : List Bool) :
    Tracks w (q.serverDevice moves)
      (if 0 < (q.serverDevice moves).framesToSend.data.length then s.asyncWake w.fib else s) := by
  obtain ⟨haway, fib, hlay, hctx, hslot, hret⟩ := h
  obtain ⟨-, -, hpush⟩ := pushFrames_eq moves q
  unfold Queue.serverDevice
  simp only
  generalize moves.foldl Queue.pushFrame q = q' at hpush
  by_cases hlen : 0 < q'.framesToSend.data.length
  · rw [if_pos hlen, if_pos (show 0 < q'.wakeBroadcaster.framesToSend.data.length from hlen)]
    rw [hpush]
    refine ⟨fun a ha => haway a ?_, fib, hlay.asyncWake, hctx, hslot, hret⟩
    rwa [Fibers.activations_asyncWake] at ha
  · rw [if_neg hlen, if_neg hlen, hpush]
    exact ⟨haway, fib, hlay, hctx, hslot, hret⟩

theorem sent_serverDevice (moves : List Bool) : (q.serverDevice moves).sent = q.sent := by
  obtain ⟨v, act, heq, -, -⟩ := serverDevice_eq q moves
  rw [heq]

theorem device_refines (h : Refines w peers q p) (hd : q.dangling = false) {moves : List Bool}
    (hstep : Process.step w peers p (.device moves) = some p') :
    Refines w peers (q.serverDevice moves) p' ∧ (p.Ready → p'.Ready) := by
  have hprog := program_serverDevice h.program moves
  have htracks := (h.tracks hd).serverDevice moves
  have hframes : (p.queue.serverDevice moves).framesToSend = (q.serverDevice moves).framesToSend :=
    framesToSend_of_program hprog
  rw [← hframes] at htracks
  simp only [Process.step, dangling_of_program h.program, hd, Bool.false_eq_true, if_false] at hstep
  split at hstep
  · rename_i hlen
    obtain ⟨t, hwake, rfl⟩ := Option.map_eq_some_iff.mp hstep
    have ht : t = p.sched.asyncWake w.fib := (Fibers.step_inv hwake).2
    subst ht
    rw [if_pos hlen] at htracks
    refine ⟨⟨h.shaped.serverDevice moves, (Fibers.within_step h.owned hwake).owned, hprog, ?_,
      fun _ => htracks⟩, fun hready => ?_⟩
    · rw [sent_serverDevice]
      exact (made_of_resumes Fibers.resumes_asyncWake).trans h.made
    · obtain ⟨-, fib, hlay, -⟩ := h.tracks hd
      refine ⟨?_, Fibers.activations_asyncWake.trans hready.2⟩
      show (p.sched.asyncWake w.fib).undef = false
      rw [hlay.asyncWake_eq]
      exact hready.1
  · rename_i hlen
    obtain rfl := Option.some.inj hstep
    rw [if_neg hlen] at htracks
    refine ⟨⟨h.shaped.serverDevice moves, h.owned, hprog, ?_, fun _ => htracks⟩, id⟩
    rw [sent_serverDevice]
    exact h.made

theorem dispatch_refines (h : Refines w peers q p) (hd : q.dangling = false)
    {how : Fibers.Firing} {r : IntPtr} (hown : p.sched.owner e = some w.fib)
    (hstep : Process.step w peers p (.sched (.dispatch e how r)) = some p') :
    ∃ l q', step peers q l = some q' ∧ Refines w peers q' p' := by
  obtain ⟨haway, fib, hlay, hctx, hslot, hret⟩ := h.tracks hd
  have hstep' := hstep
  rw [step_own_dispatch ((dangling_of_program h.program).trans hd) hown] at hstep'
  obtain ⟨t, hdispatch, -⟩ := Option.bind_eq_some_iff.mp hstep'
  obtain ⟨hundef, hidle, hsched⟩ := Fibers.step_inv hdispatch
  obtain ⟨ev, -, hev, hfires, -⟩ := Fibers.schedDispatch_cases hsched
  have hfib : ev.fib = w.fib := by
    rw [Sched.owner, hev] at hown
    exact Option.some.inj hown
  rcases hlay.only e ev hev hfib with rfl | he
  · obtain ⟨a, ha⟩ := hlay.yield
    obtain rfl := Option.some.inj (hev.symm.trans ha)
    have hhow : how = .active ∧ q.yieldActive = true := by
      cases how <;> simp_all [Event.fires, Wiring.yieldEv]
    obtain ⟨rfl, hact⟩ := hhow
    obtain ⟨p'', hp, href, -⟩ := wake_refines h hd ⟨hundef, hidle⟩ hlay hctx hslot hret hact r
    obtain rfl := Option.some.inj (hstep.symm.trans hp)
    exact ⟨.wake, _, by simp [step, hd, hact], href⟩
  · obtain rfl := Option.some.inj (hev.symm.trans (hlay.get_write he))
    have hhow : how = .ready ∧ q.writeAdded = true := by
      cases how <;> simp_all [Event.fires, Wiring.writeEv]
    obtain ⟨rfl, hadded⟩ := hhow
    obtain ⟨p'', hp, href, -⟩ :=
      writable_refines h hd ⟨hundef, hidle⟩ hlay hctx hslot hret he hadded r
    obtain rfl := Option.some.inj (hstep.symm.trans hp)
    exact ⟨.writable (r ≠ -1), _, by simp [step, hd, hadded], href⟩

theorem dangling_of_step {l : ProcessLabel} (hstep : Process.step w peers p l = some p')
    (hl : ∀ l', l = .sched l' → w.fib ∈ Fibers.touched p.sched l') : p.queue.dangling = false := by
  cases hdang : p.queue.dangling with
  | false => rfl
  | true =>
    cases l with
    | device moves => simp [Process.step, hdang] at hstep
    | sched l => cases l <;> simp [Process.step, hdang, hl] at hstep

theorem refines_step (h : Refines w peers q p) {l : ProcessLabel}
    (hstep : Process.step w peers p l = some p') :
    ∃ ls q', Run (step peers) q ls q' ∧ Refines w peers q' p' := by
  cases l with
  | device moves =>
    have hd : q.dangling = false :=
      (dangling_of_program h.program).symm.trans (dangling_of_step hstep (by simp))
    exact ⟨[.device moves], _, .cons (by simp [step, hd]) (.nil _), (device_refines h hd hstep).1⟩
  | sched l =>
    by_cases hw : w.fib ∈ Fibers.touched p.sched l
    · have hd : q.dangling = false := (dangling_of_program h.program).symm.trans
        (dangling_of_step hstep fun l' hl => by cases hl; exact hw)
      cases l with
      | dispatch e how r =>
        obtain ⟨l, q', hq, href⟩ := dispatch_refines h hd (Option.mem_toList.mp hw) hstep
        exact ⟨[l], q', .cons hq (.nil q'), href⟩
      | newFiber | launch | call | wake | exit | delete => simp [Process.step, hw] at hstep
    · simp only [Process.step, if_neg hw] at hstep
      obtain ⟨t, ht, rfl⟩ := Option.map_eq_some_iff.mp hstep
      exact ⟨[], q, .nil q, foreign_refines h hw ht⟩

/-- Every run of the process is a run of the queue machine. -/
theorem refines_run (h : Refines w peers q p) {ls : List ProcessLabel}
    (hrun : Run (Process.step w peers) p ls p') :
    ∃ ls' q', Run (step peers) q ls' q' ∧ Refines w peers q' p' := by
  induction hrun generalizing q with
  | nil => exact ⟨[], q, .nil q, h⟩
  | cons hstep _ ih =>
    obtain ⟨as, q₁, hq, h₁⟩ := refines_step h hstep
    obtain ⟨bs, q', hq', h'⟩ := ih h₁
    exact ⟨as ++ bs, q', run_append_iff.mpr ⟨q₁, hq, hq'⟩, h'⟩

theorem realizes_step (h : Refines w peers q p) (hready : p.Ready) {l : Label} {q' : Queue}
    (hstep : step peers q l = some q') :
    ∃ l' p', Process.step w peers p l' = some p' ∧ Refines w peers q' p' ∧
      (q'.dangling = false → p'.Ready) := by
  obtain ⟨hd, hl⟩ := step_inv hstep
  obtain ⟨-, fib, hlay, hctx, hslot, hret⟩ := h.tracks hd
  cases l with
  | device moves =>
    rw [hl]
    have hdang := (dangling_of_program h.program).trans hd
    obtain ⟨p', hp⟩ : ∃ p', Process.step w peers p (.device moves) = some p' := by
      simp only [Process.step, hdang, Bool.false_eq_true, if_false]
      split
      · exact ⟨_, by rw [Fibers.step, hready.1]; rfl⟩
      · exact ⟨_, rfl⟩
    obtain ⟨href, hready'⟩ := device_refines h hd hp
    exact ⟨_, p', hp, href, fun _ => hready' hready⟩
  | writable ok =>
    obtain ⟨hadded, rfl⟩ := hl
    rcases hlay.write with ⟨-, hnot⟩ | ⟨e, he, -⟩
    · rw [hadded] at hnot
      cases hnot
    · have hwrite := writable_refines h hd hready hlay hctx hslot hret he hadded
      cases ok with
      | true => exact ⟨_, hwrite 0⟩
      | false => exact ⟨_, hwrite (-1)⟩
  | wake =>
    obtain ⟨hact, rfl⟩ := hl
    exact ⟨_, wake_refines h hd hready hlay hctx hslot hret hact 0⟩

/-- From the event loop, every run of the queue machine is one of the process. -/
theorem realizes_run (h : Refines w peers q p) (hready : q.dangling = false → p.Ready)
    {ls : List Label} {q' : Queue} (hrun : Run (step peers) q ls q') :
    ∃ ls' p', Run (Process.step w peers) p ls' p' ∧ Refines w peers q' p' := by
  induction hrun generalizing p with
  | nil => exact ⟨[], p, .nil p, h⟩
  | cons hstep _ ih =>
    obtain ⟨l', p₁, hp, h₁, hready₁⟩ := realizes_step h (hready (step_inv hstep).1) hstep
    obtain ⟨ls', p', hp', h'⟩ := ih h₁ hready₁
    exact ⟨l' :: ls', p', .cons hp hp', h'⟩

theorem layout_schedNewFiber (hfresh : s.Fresh w.fib) (hfib : s.fibers.length = w.fib) :
    Layout w s.schedNewFiber { yieldEvent := s.events.length } false false := by
  refine ⟨by simp [Sched.schedNewFiber, ← hfib], ⟨true, ?_⟩, .inl ⟨rfl, rfl⟩, ?_⟩
  · simp [Sched.schedNewFiber, Wiring.yieldEv, hfib]
  · intro e ev hev hown
    refine .inl ?_
    rw [Sched.schedNewFiber, List.getElem?_append] at hev
    split at hev
    · exact absurd (by rw [Sched.owner, hev, ← hown]; rfl) (hfresh.events e)
    · have hlt := (List.getElem?_eq_some_iff.mp hev).1
      rw [List.length_singleton] at hlt
      show e = s.events.length
      omega

structure Created (w : Wiring) (s : Sched) : Prop where
  owned : s.Owned
  away : ∀ a ∈ s.activations, a.fib ≠ w.fib
  made : w.made s = []
  fiber : ∃ fib, Layout w s fib false false ∧ fib.fibCtx = .created ∧ fib.fibOp.ret = 0

theorem created_newFiber (ho : s.Owned) (hfresh : s.Fresh w.fib) (hfib : s.fibers.length = w.fib) :
    Created w s.schedNewFiber where
  owned := (Fibers.within_schedNewFiber ho (List.mem_singleton_self _)).owned
  away := hfresh.activations
  made := by
    have hnone : s.resumes.filter (·.fib = w.fib) = [] :=
      List.filter_eq_nil_iff.mpr fun x hx heq => hfresh.resumes x hx (of_decide_eq_true heq)
    show List.flatMap _ (s.resumes.filter (·.fib = w.fib)) = []
    rw [hnone]
    rfl
  fiber := ⟨_, layout_schedNewFiber hfresh hfib, rfl, rfl⟩

theorem created_foreign (h : Created w s) {l : Fibers.Label} (hw : w.fib ∉ Fibers.touched s l)
    (hstep : Fibers.step s l = some t) : Created w t := by
  have hwithin := Fibers.within_step h.owned hstep
  obtain ⟨fib, hlay, hctx, hret⟩ := h.fiber
  refine ⟨hwithin.owned, fun a ha => ?_, (made_of_within hwithin hw).trans h.made,
    fib, hlay.agree (hwithin.agree _ hw), hctx, hret⟩
  exact (hwithin.activations a ha).elim (h.away a) fun hmem heq => hw (heq ▸ hmem)

/-- The broadcaster is launched, and waits in its first `async_yield`. -/
theorem refines_launched (peers : List Meta.Endpoint) (h : Created w s) (hundef : s.undef = false) :
    ∃ t, Run Fibers.step s [.launch w.fib, .call (.yield 0)] t ∧
      Refines w peers {} ⟨{}, t⟩ ∧ (s.activations = [] → Process.Ready ⟨{}, t⟩) := by
  obtain ⟨fib, hlay, hctx, hret⟩ := h.fiber
  have hlaunch : Fibers.step s (.launch w.fib) = some (s.activate w.fib (.launch s.originCtx)) := by
    simp only [Fibers.step, hundef, hlay.fiber, Option.map_some, hctx]
    rfl
  have hserve := hlay.serving hundef h.away (.launch s.originCtx)
  rw [hret] at hserve
  obtain ⟨t, hcall, hundef', hacts, htracks⟩ := hserve.call (q := {}) rfl rfl rfl
  have hrun : Run Fibers.step s [.launch w.fib, .call (.yield 0)] t :=
    .cons hlaunch (.cons hcall (.nil t))
  refine ⟨t, hrun, ⟨shaped_init, ?_, rfl, ?_, fun _ => htracks⟩, fun hidle => ⟨hundef', ?_⟩⟩
  · exact hrun.invariant (fun _ _ _ hs hstep => (Fibers.within_step hs hstep).owned) h.owned
  · exact (made_of_resumes (Fibers.resumes_step (by simp) hcall)).trans h.made
  · exact hacts.trans hidle

/--
The broadcaster is created and later launched, in a run of the scheduler whose other steps do
not touch its fiber. It then stands where the queue machine starts.
-/
theorem refines_of_run (peers : List Meta.Endpoint) {ls ls' : List Fibers.Label}
    (hls : Along Fibers.step (fun s l => w.fib ∉ Fibers.touched s l) {} ls)
    (hrun : Run Fibers.step {} ls s) (hfib : s.fibers.length = w.fib)
    (hls' : Along Fibers.step (fun s l => w.fib ∉ Fibers.touched s l) s.schedNewFiber ls')
    (hrun' : Run Fibers.step s.schedNewFiber ls' t) (hundef : t.undef = false) :
    ∃ u, Run Fibers.step t [.launch w.fib, .call (.yield 0)] u ∧
      Refines w peers {} ⟨{}, u⟩ ∧ (t.activations = [] → Process.Ready ⟨{}, u⟩) := by
  have hnew := created_newFiber (Fibers.owned_of_run hrun) (Fibers.fresh_of_run hls hrun) hfib
  have hcreated : Throughout Fibers.step (Created w) s.schedNewFiber ls' :=
    throughout_of_along (fun _ _ _ h hw hstep => created_foreign h hw hstep) hnew hls'
  exact refines_launched peers (hcreated.last hrun') hundef

/--
In every run of the process, the system calls made for the broadcaster are among those that
it has asked for, in this order, and none of them is made twice.
-/
theorem made_sublist_passed (h : Refines w peers {} p) {ls : List ProcessLabel}
    (hrun : Run (Process.step w peers) p ls p') :
    (w.made p'.sched).Sublist (p'.queue.passed.map w.send) := by
  obtain ⟨ls', q, hq, href⟩ := refines_run h hrun
  rw [href.made, passed_of_program href.program]
  exact (sent_sublist_passed hq).map w.send

end Refinement

end Tnetacle.Tunnel
