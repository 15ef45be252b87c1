import Tnetacle.Fibers.Origin

/-! # The system calls of a program

A fiber makes its calls one after the other, and each is carried out by `sched_dispatch`
before the fiber goes on. If every suspended call gets only its own readiness, then the
system calls made for a fiber are those its calls are named after, in the same order,
with the same arguments and with the results that the calls return, unless a call of
`async_sendto` is among them.
-/

namespace Tnetacle.Fibers

open Runs

def Call.likeNamed : Call → Option Syscall
  | .recvfrom fd buf len flag sock socklen => some (.recvfrom fd buf len flag sock socklen)
  | .accept fd sock socklen => some (.accept fd sock socklen)
  | .recv fd buf len flags => some (.recv fd buf len flags)
  | .send fd buf len flags => some (.send fd buf len flags)
  | .read fd buf len => some (.read fd buf len)
  | .write fd buf len => some (.write fd buf len)
  | .sendto fd buf len flags dst socklen => some (.sendto fd buf len flags dst socklen)
  | .event .. | .sleep _ | .yield _ | .continueWith .. => none

def Call.isSendto : Call → Bool
  | .sendto .. => true
  | _ => false

def Label.IoCall : Label → Prop
  | .call c => c.likeNamed.isSome
  | _ => True

def callMade (f : ℕ) (s : Sched) : Label → List Call
  | .call c => if s.current = some f then [c] else []
  | _ => []

def callsMade (f : ℕ) (s : Sched) : List Label → List Call
  | [] => []
  | l :: ls =>
    match step s l with
    | none => []
    | some t => callMade f s l ++ callsMade f t ls

def waitingIn : Option FibCtx → List Call
  | some (.suspended c) => [c]
  | _ => []

namespace Sched

variable (s : Sched) (f : ℕ)

def completed : List Resume := s.resumes.filter fun x => x.fib = f

def waiting : List Call := waitingIn s.ctxs[f]?

def systemCalls : List (Syscall × IntPtr) := (s.completed f).flatMap (·.executed)

end Sched

/-- No event is dispatched to a fiber that waits in `async_sendto`. -/
def ResumesNoSendto (s : Sched) : Label → Prop
  | .dispatch e _ _ => ∀ f c, s.owner e = some f → s.ctxs[f]? = some (.suspended c) →
      c.isSendto = false
  | _ => True

/-! ## The calls of a fiber -/

section Calls

variable {s t u : Sched} {f : ℕ} {l : Label} {ls : List Label}

theorem callsMade_snoc (hrun : Run step s ls t) (h : step t l = some u) :
    callsMade f s (ls ++ [l]) = callsMade f s ls ++ callMade f t l := by
  induction hrun with
  | nil => simp [callsMade, h]
  | cons hs _ ih => simp only [List.cons_append, callsMade, hs, ih h, List.append_assoc]

theorem waiting_modify {g : ℕ} {c c' : FibCtx} (hc : s.ctxs[g]? = some c)
    (ht : t.ctxs = s.ctxs.modify g fun _ => c') :
    s.waiting g = waitingIn (some c) ∧ t.waiting g = waitingIn (some c') ∧
      ∀ f, f ≠ g → t.waiting f = s.waiting f := by
  refine ⟨by rw [Sched.waiting, hc], ?_, ?_⟩
  · simp [Sched.waiting, ht, hc]
  · intro f hne
    rw [Sched.waiting, ht, List.getElem?_modify_ne _ _ hne.symm, Sched.waiting]

theorem waiting_of_ctxs (h : t.ctxs = s.ctxs) : t.waiting f = s.waiting f := by
  rw [Sched.waiting, h, Sched.waiting]

theorem completed_of_resumes (h : t.resumes = s.resumes) : t.completed f = s.completed f := by
  rw [Sched.completed, h, Sched.completed]

theorem waiting_step_of_ne {g : ℕ} {c c' : FibCtx} (hc : s.ctxs[g]? = some c)
    (ht : t.ctxs = s.ctxs.modify g fun _ => c') (hwait : waitingIn (some c) = [])
    (hwait' : waitingIn (some c') = []) (f : ℕ) : t.waiting f = s.waiting f := by
  obtain ⟨hbefore, hafter, hother⟩ := waiting_modify hc ht
  by_cases hf : f = g
  · rw [hf, hbefore, hafter, hwait, hwait']
  · exact hother f hf

theorem resumes_dispatch {e : ℕ} {how : Firing} {r : IntPtr}
    (h : s.schedDispatch e how r = some t) :
    (∃ x : Resume, s.owner e = some x.fib ∧ s.ctxs[x.fib]? = some (.suspended x.call) ∧
      t.resumes = s.resumes ++ [x] ∧ t.ctxs = s.ctxs.modify x.fib fun _ => .running) ∨
    t.resumes = s.resumes ∧ (∀ f, t.waiting f = s.waiting f) ∧
      ∀ f c, s.owner e = some f → s.ctxs[f]? ≠ some (.suspended c) := by
  obtain ⟨ev, fib, hev, -, hfib, p, u, -, rfl, ht⟩ := schedDispatch_cases h
  have howner : s.owner e = some ev.fib := by rw [Sched.owner, hev, Option.map_some]
  have hctx : s.ctxs[ev.fib]? = some fib.fibCtx := by rw [ctxs_getElem?, hfib, Option.map_some]
  have hrun := ctxs_dispatched s e ev.fib p.1
  have hnone : (∀ c, fib.fibCtx ≠ .suspended c) →
      ∀ f c, s.owner e = some f → s.ctxs[f]? ≠ some (.suspended c) := by
    intro hne f c hf heq
    obtain rfl := Option.some.inj (howner.symm.trans hf)
    exact hne c (Option.some.inj (hctx.symm.trans heq))
  rcases ht with ⟨hcreated, rfl⟩ | ⟨c, hsuspended, rfl⟩ | ⟨hne, rfl⟩
  · refine .inr ⟨rfl, ?_, hnone (by simp [hcreated])⟩
    rw [hcreated] at hctx
    exact waiting_step_of_ne hctx hrun rfl rfl
  · exact .inl ⟨_, howner, hctx.trans (congrArg some hsuspended), rfl, hrun⟩
  · exact .inr ⟨rfl, fun f => waiting_of_ctxs (ctxs_performed s e ev.fib p.1), hnone hne⟩

theorem waiting_call (hs : s.Stacked) {c : Call} (h : step s (.call c) = some t) (f : ℕ) :
    t.waiting f = s.waiting f ++ callMade f s (.call c) := by
  obtain ⟨-, g, hcur, rfl⟩ := step_inv h
  obtain ⟨hbefore, hafter, hother⟩ := waiting_modify (hs.running_of_current hcur)
    (ctxs_async (s := s) (f := g) c)
  by_cases hf : f = g
  · subst hf
    simp [hbefore, hafter, waitingIn, callMade, hcur]
  · have hne : s.current ≠ some f := by
      rw [hcur]
      simpa using Ne.symm hf
    simp [hother f hf, callMade, hne]

theorem waiting_schedNewFiber (f : ℕ) : s.schedNewFiber.waiting f = s.waiting f := by
  rw [Sched.waiting, Sched.waiting, ctxs_schedNewFiber]
  rcases Nat.lt_trichotomy f s.ctxs.length with hlt | rfl | hgt
  · rw [List.getElem?_append_left hlt]
  · simp [waitingIn]
  · rw [List.getElem?_eq_none (by simp; omega), List.getElem?_eq_none (by omega)]

theorem waiting_step (hs : s.Stacked) (hcall : ∀ c, l ≠ .call c)
    (hdispatch : ∀ e how r, l ≠ .dispatch e how r) (h : step s l = some t) (f : ℕ) :
    t.waiting f = s.waiting f := by
  obtain ⟨-, h⟩ := step_inv h
  cases l with
  | newFiber =>
    rw [h]
    exact waiting_schedNewFiber f
  | launch g =>
    obtain ⟨hcreated, rfl⟩ := h
    exact waiting_step_of_ne ((ctxs_getElem? s g).trans hcreated) (ctxs_activate s g _) rfl rfl f
  | call c => exact absurd rfl (hcall c)
  | wake g =>
    rw [h]
    exact waiting_of_ctxs prepares_asyncWake.ctxs
  | exit val =>
    obtain ⟨g, hcur, rfl⟩ := h
    exact waiting_step_of_ne (hs.running_of_current hcur) (ctxs_schedFiberExit val) rfl rfl f
  | delete g =>
    rw [h]
    have hctxs : (s.schedFiberDelete g).ctxs = s.ctxs := ctxs_modifyFiber_id fun _ => rfl
    exact waiting_of_ctxs hctxs
  | dispatch e how r => exact absurd rfl (hdispatch e how r)

theorem completed_waiting_step (hs : s.Stacked) (h : step s l = some t) (f : ℕ) :
    (t.completed f).map (·.call) ++ t.waiting f =
      (s.completed f).map (·.call) ++ s.waiting f ++ callMade f s l := by
  by_cases hdispatch : ∃ e how r, l = .dispatch e how r
  · obtain ⟨e, how, r, rfl⟩ := hdispatch
    have hmade : callMade f s (.dispatch e how r) = [] := rfl
    rw [hmade, List.append_nil]
    obtain ⟨x, -, hctx, hres, hctxs⟩ | ⟨hres, hwait, -⟩ := resumes_dispatch (step_inv h).2.2
    · obtain ⟨hbefore, hafter, hother⟩ := waiting_modify hctx hctxs
      by_cases hf : f = x.fib
      · subst hf
        simp [Sched.completed, hres, hbefore, hafter, waitingIn]
      · rw [hother f hf]
        simp [Sched.completed, hres, Ne.symm hf]
    · rw [hwait f, completed_of_resumes hres]
  push Not at hdispatch
  rw [completed_of_resumes (resumes_step hdispatch h)]
  by_cases hcall : ∃ c, l = .call c
  · obtain ⟨c, rfl⟩ := hcall
    rw [waiting_call hs h, List.append_assoc]
  · push Not at hcall
    have hmade : callMade f s l = [] := by
      cases l <;> first | rfl | exact absurd rfl (hcall _)
    rw [waiting_step hs hcall hdispatch h, hmade, List.append_nil]

theorem callsMade_of_run (h : Run step {} ls s) (f : ℕ) :
    callsMade f {} ls = (s.completed f).map (·.call) ++ s.waiting f := by
  have hinv : s.Stacked ∧ callsMade f {} ls = (s.completed f).map (·.call) ++ s.waiting f := by
    refine h.history (I := fun ls s => s.Stacked ∧
      callsMade f {} ls = (s.completed f).map (·.call) ++ s.waiting f) ⟨stacked_init, rfl⟩ ?_
    rintro ls s l t hrun ⟨hs, hcalls⟩ hstep
    refine ⟨stacked_step hs hstep, ?_⟩
    rw [callsMade_snoc hrun hstep, hcalls, completed_waiting_step hs hstep]
  exact hinv.2

theorem isSome_of_mem_callsMade {s : Sched} {c : Call}
    (h : Along step (fun _ l => l.IoCall) s ls) (hc : c ∈ callsMade f s ls) :
    c.likeNamed.isSome := by
  induction ls generalizing s with
  | nil => cases hc
  | cons l ls ih =>
    rw [callsMade] at hc
    split at hc
    · cases hc
    · rename_i t ht
      obtain ⟨hl, hrest⟩ := h t ht
      rcases List.mem_append.mp hc with hfirst | hlater
      · cases l with
        | call c' =>
          rw [callMade] at hfirst
          split at hfirst
          · rw [List.mem_singleton.mp hfirst]
            exact hl
          · cases hfirst
        | newFiber | launch | wake | exit | delete | dispatch => cases hfirst
      · exact ih hrest hlater

theorem isSome_of_mem_resumes (h : Along step (fun _ l => l.IoCall) {} ls)
    (hrun : Run step {} ls s) {x : Resume} (hx : x ∈ s.resumes) : x.call.likeNamed.isSome := by
  have hmem : x ∈ s.completed x.fib := by simp [Sched.completed, hx]
  apply isSome_of_mem_callsMade (f := x.fib) h
  rw [callsMade_of_run hrun]
  exact List.mem_append_left _ (List.mem_map_of_mem hmem)

end Calls

/-! ## The names of the system calls -/

section Names

variable {s t : Sched} {ls : List Label} {l : Label}

/-- What is recorded is what the call is named after, but for `async_sendto`. -/
theorem recorded_eq_likeNamed_iff {c : Call} {d : Direction} {sc : Syscall}
    (h : c.recorded = some (d, sc)) : c.likeNamed = some sc ↔ c.isSendto = false := by
  cases c with
  | recvfrom | accept | recv | send | read | write | sendto =>
    cases h
    simp [Call.likeNamed, Call.isSendto]
  | event | sleep | yield | continueWith => cases h

theorem exists_recorded {c : Call} (h : c.likeNamed.isSome) :
    ∃ d sc, c.recorded = some (d, sc) := by
  cases c with
  | recvfrom | accept | recv | send | read | write | sendto => exact ⟨_, _, rfl⟩
  | event | sleep | yield | continueWith => cases h

/-- Two lists that are made of one entry from each element. -/
theorem flatMap_eq_filterMap_iff {α β : Type*} {l : List α} {f : α → List β} {g : α → Option β}
    (hf : ∀ x ∈ l, (f x).length = 1) (hg : ∀ x ∈ l, (g x).isSome) :
    l.flatMap f = l.filterMap g ↔ ∀ x ∈ l, f x = (g x).toList := by
  rw [List.filterMap_eq_flatMap_toList]
  constructor
  · intro h
    induction l with
    | nil => simp
    | cons y l ih =>
      rw [List.forall_mem_cons] at hf hg ⊢
      obtain ⟨b, hb⟩ := Option.isSome_iff_exists.mp hg.1
      rw [List.flatMap_cons, List.flatMap_cons] at h
      obtain ⟨hfirst, hrest⟩ := List.append_inj h (by rw [hf.1, hb]; rfl)
      exact ⟨hfirst, ih hf.2 hg.2 hrest⟩
  · exact List.flatMap_congr

def Sched.Performs (s : Sched) (f : ℕ) : Prop :=
  s.systemCalls f = (s.completed f).filterMap fun x => x.call.likeNamed.map (·, x.ret)

theorem performs_iff {f : ℕ} (hall : s.AllFaithful)
    (hio : ∀ x ∈ s.resumes, x.call.likeNamed.isSome) :
    s.Performs f ↔ ∀ x ∈ s.completed f, x.call.isSendto = false := by
  have hone : ∀ x ∈ s.completed f, ∃ sc, x.executed = [(sc, x.ret)] ∧
      (x.call.likeNamed = some sc ↔ x.call.isSendto = false) := by
    intro x hx
    have hmem : x ∈ s.resumes := (List.mem_filter.mp hx).1
    obtain ⟨d, sc, hrec⟩ := exists_recorded (hio x hmem)
    obtain ⟨r, hexec, hret⟩ := hall x hmem d sc hrec
    exact ⟨sc, hret ▸ hexec, recorded_eq_likeNamed_iff hrec⟩
  rw [Sched.Performs, Sched.systemCalls, flatMap_eq_filterMap_iff]
  · refine forall₂_congr fun x hx => ?_
    obtain ⟨sc, hexec, hiff⟩ := hone x hx
    obtain ⟨sc', hsc'⟩ := Option.isSome_iff_exists.mp (hio x (List.mem_filter.mp hx).1)
    rw [← hiff, hexec, hsc']
    simp [eq_comm]
  · intro x hx
    obtain ⟨sc, hexec, -⟩ := hone x hx
    rw [hexec, List.length_singleton]
  · intro x hx
    simpa using hio x (List.mem_filter.mp hx).1

theorem allFaithful_of_along (h : Along step OwnReadiness {} ls) (hrun : Run step {} ls s) :
    s.AllFaithful := by
  have hinv : Throughout step (fun s => s.Recorded ∧ s.AllFaithful) {} ls := by
    apply throughout_of_along _ ⟨recorded_init, allFaithful_init⟩ h
    rintro s l t ⟨hs, hall⟩ hl hstep
    exact ⟨recorded_step hs hstep, (allFaithful_step_iff hs hall hstep).mpr hl⟩
  exact (hinv.last hrun).2

def Sched.SentTo (s : Sched) : Prop := ∃ x ∈ s.resumes, x.call.isSendto = true

theorem sentTo_step_iff (h : step s l = some t) :
    t.SentTo ↔ s.SentTo ∨ ¬ ResumesNoSendto s l := by
  by_cases hdispatch : ∃ e how r, l = .dispatch e how r
  · obtain ⟨e, how, r, rfl⟩ := hdispatch
    obtain ⟨x, howner, hctx, hres, -⟩ | ⟨hres, -, hnone⟩ := resumes_dispatch (step_inv h).2.2
    · have hno : ResumesNoSendto s (.dispatch e how r) ↔ x.call.isSendto = false := by
        constructor
        · intro hno
          exact hno x.fib x.call howner hctx
        · intro hx f c hf hc
          obtain rfl := Option.some.inj (howner.symm.trans hf)
          rw [hctx, Option.some.injEq, FibCtx.suspended.injEq] at hc
          rw [← hc, hx]
      rw [hno]
      simp [Sched.SentTo, hres, or_and_right, exists_or]
    · have hno : ResumesNoSendto s (.dispatch e how r) :=
        fun f c hf hc => absurd hc (hnone f c hf)
      simp [Sched.SentTo, hres, hno]
  · push Not at hdispatch
    have hno : ResumesNoSendto s l := by
      cases l <;> first | trivial | exact absurd rfl (hdispatch _ _ _)
    simp [Sched.SentTo, resumes_step hdispatch h, hno]

theorem not_sentTo_iff (hrun : Run step {} ls s) :
    ¬ s.SentTo ↔ Along step ResumesNoSendto {} ls := by
  constructor
  · intro hend
    apply along_of_run (I := fun _ => True) (L := Sched.SentTo) _ _ _ trivial hrun hend
    · exact fun _ _ _ _ _ => trivial
    · intro s l t _ hstep hl
      exact (sentTo_step_iff hstep).mpr (.inr hl)
    · intro s l t _ hs hstep
      exact (sentTo_step_iff hstep).mpr (.inl hs)
  · intro h
    have hinv : Throughout step (fun s => ¬ s.SentTo) {} ls := by
      apply throughout_of_along _ _ h
      · intro s l t hs hl hstep ht
        rcases (sentTo_step_iff hstep).mp ht with hbefore | hno
        · exact hs hbefore
        · exact hno hl
      · rintro ⟨x, hx, -⟩
        cases hx
    exact hinv.last hrun

end Names

/--
In every run of fibers whose programs make only calls that stand for system calls, and in which
every suspended call gets only its own readiness: the calls of a fiber return in the order in
which it makes them, and the system calls made for every fiber are those its calls are named
after, with the arguments given and the results returned, if and only if no fiber is
resumed from `async_sendto`.
-/
theorem performs_programs_iff_no_sendto {ls : List Label} {s : Sched}
    (h : Along step (fun s l => OwnReadiness s l ∧ l.IoCall) {} ls) (hrun : Run step {} ls s) :
    (∀ f, callsMade f {} ls = (s.completed f).map (·.call) ++ s.waiting f) ∧
      ((∀ f, s.Performs f) ↔ Along step ResumesNoSendto {} ls) := by
  refine ⟨callsMade_of_run hrun, ?_⟩
  have hall := allFaithful_of_along (h.mono fun _ _ hl => hl.1) hrun
  have hio : ∀ x ∈ s.resumes, x.call.likeNamed.isSome :=
    fun x hx => isSome_of_mem_resumes (h.mono fun _ _ hl => hl.2) hrun hx
  rw [← not_sentTo_iff hrun]
  simp only [performs_iff hall hio, Sched.SentTo, not_exists, not_and, Bool.not_eq_true]
  constructor
  · intro hno x hx
    exact hno x.fib x (by simp [Sched.completed, hx])
  · intro hno f x hx
    exact hno x (List.mem_filter.mp hx).1

/-- A fiber that receives a datagram and then reads, with the events it waits for. -/
theorem performs_recvfrom_read :
    let ls : List Label := [.newFiber, .launch 0, .call (.recvfrom 5 16 100 0 32 48),
      .dispatch 1 .ready 60, .call (.read 6 16 60), .dispatch 2 .ready 3]
    ∃ s, Run step {} ls s ∧ s.Performs 0 ∧
      s.systemCalls 0 = [(.recvfrom 5 16 100 0 32 48, 60), (.read 6 16 60, 3)] := by
  intro ls
  have hrun : Run step {} ls _ := .cons rfl (.cons rfl (.cons rfl (.cons rfl (.cons rfl
    (.cons rfl (.nil _))))))
  have hown : Along step (fun s l => OwnReadiness s l ∧ l.IoCall) {} ls := by
    refine (along_cons_iff rfl).mpr ⟨⟨trivial, trivial⟩, ?_⟩
    refine (along_cons_iff rfl).mpr ⟨⟨trivial, trivial⟩, ?_⟩
    refine (along_cons_iff rfl).mpr ⟨⟨trivial, rfl⟩, ?_⟩
    refine (along_cons_iff rfl).mpr ⟨⟨(ownReadiness_dispatch_iff rfl rfl).mpr ?_, trivial⟩, ?_⟩
    · rintro c d sc ⟨⟩ ⟨⟩
      rfl
    refine (along_cons_iff rfl).mpr ⟨⟨trivial, rfl⟩, ?_⟩
    refine (along_cons_iff rfl).mpr
      ⟨⟨(ownReadiness_dispatch_iff rfl rfl).mpr ?_, trivial⟩, trivial⟩
    rintro c d sc ⟨⟩ ⟨⟩
    rfl
  refine ⟨_, hrun, ((performs_programs_iff_no_sendto hown hrun).2.mpr ?_) 0, rfl⟩
  refine (along_cons_iff rfl).mpr ⟨trivial, (along_cons_iff rfl).mpr ⟨trivial, ?_⟩⟩
  refine (along_cons_iff rfl).mpr ⟨trivial, (along_cons_iff rfl).mpr ⟨?_, ?_⟩⟩
  · rintro f c ⟨⟩ ⟨⟩
    rfl
  refine (along_cons_iff rfl).mpr ⟨trivial, (along_cons_iff rfl).mpr ⟨?_, trivial⟩⟩
  rintro f c ⟨⟩ ⟨⟩
  rfl

/-- The destination of `async_sendto` is not passed on: `send` is called instead. -/
theorem sendto_not_performed :
    let ls : List Label := [.newFiber, .launch 0, .call (.sendto 5 16 100 0 32 48),
      .dispatch 1 .ready 100]
    ∃ s, Run step {} ls s ∧ Along step (fun s l => OwnReadiness s l ∧ l.IoCall) {} ls ∧
      s.systemCalls 0 = [(.send 5 16 100 0, 100)] ∧ ¬ s.Performs 0 := by
  intro ls
  have hrun : Run step {} ls _ := .cons rfl (.cons rfl (.cons rfl (.cons rfl (.nil _))))
  refine ⟨_, hrun, ?_, rfl, ?_⟩
  · refine (along_cons_iff rfl).mpr ⟨⟨trivial, trivial⟩, ?_⟩
    refine (along_cons_iff rfl).mpr ⟨⟨trivial, trivial⟩, ?_⟩
    refine (along_cons_iff rfl).mpr ⟨⟨trivial, rfl⟩, ?_⟩
    refine (along_cons_iff rfl).mpr
      ⟨⟨(ownReadiness_dispatch_iff rfl rfl).mpr ?_, trivial⟩, trivial⟩
    rintro c d sc ⟨⟩ ⟨⟩
    rfl
  · intro h
    cases h

end Tnetacle.Fibers
