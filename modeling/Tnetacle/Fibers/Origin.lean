import Mathlib.Data.List.Chain
import Tnetacle.Fibers.Locality

/-! # Where a fiber goes when it leaves

One `origin_ctx` stands for the whole stack of frames that wait for their fibers. A launch
saves it and restores it, and a dispatch overwrites it. Whenever a fiber runs, it is
the context of the innermost frame, and every launch has saved that of the frame below
it. Therefore a fiber that leaves goes to the frame that resumed it last.
-/

namespace Tnetacle.Fibers

open Runs

def Sched.ctxs (s : Sched) : List FibCtx := s.fibers.map (·.fibCtx)

/-- The frame of the launch that `a` is was entered while `b` waited. -/
def SavedBelow (a b : Activation) : Prop := a.resumer = .launch (some b.ctx)

structure Sched.Stacked (s : Sched) : Prop where
  origin : ∀ a ∈ s.activations.head?, s.originCtx = some a.ctx
  saved : s.activations.IsChain SavedBelow
  running : ∀ a ∈ s.activations, s.ctxs[a.fib]? = some .running
  nodup : (s.activations.map (·.fib)).Nodup

def resumesFiber (s : Sched) (f : ℕ) : Label → Bool
  | .launch g => g = f
  | .dispatch e _ _ => s.owner e = some f
  | _ => false

/-- The context of the frame that has resumed the fiber `f` last, in the run of `ls` from `s`. -/
def lastResumer (f : ℕ) (last : Option ℕ) (s : Sched) : List Label → Option ℕ
  | [] => last
  | l :: ls =>
    match step s l with
    | none => last
    | some t => lastResumer f (if resumesFiber s f l then some s.nextCtx else last) t ls

def Label.leaves : Label → Bool
  | .call _ | .exit _ => true
  | _ => false

/-! ## What happens before a transfer -/

/-- A fiber whose request may have changed, but not into one of a fiber that has exited. -/
structure Fiber.Prepared (fib fib' : Fiber) : Prop where
  yieldEvent : fib'.yieldEvent = fib.yieldEvent
  released : fib'.released = fib.released
  free : fib'.fibOp.opType = .free → fib.fibOp.opType = .free

/-- The running code has written requests and armed events. -/
structure Prepares (s t : Sched) : Prop where
  activations : t.activations = s.activations
  originCtx : t.originCtx = s.originCtx
  ctxs : t.ctxs = s.ctxs
  fibers : ∀ (i : ℕ) (fib' : Fiber), t.fibers[i]? = some fib' →
    ∃ fib : Fiber, s.fibers[i]? = some fib ∧ fib.Prepared fib'

section Prepares

variable {s t u : Sched} {f : ℕ}

theorem prepares_of_fibers (ha : t.activations = s.activations) (ho : t.originCtx = s.originCtx)
    (hf : t.fibers = s.fibers) : Prepares s t :=
  ⟨ha, ho, by rw [Sched.ctxs, hf, Sched.ctxs], fun _ fib h => ⟨fib, hf ▸ h, rfl, rfl, id⟩⟩

theorem Prepares.refl (s : Sched) : Prepares s s := prepares_of_fibers rfl rfl rfl

theorem Prepares.trans (h : Prepares s t) (h' : Prepares t u) : Prepares s u where
  activations := h'.activations.trans h.activations
  originCtx := h'.originCtx.trans h.originCtx
  ctxs := h'.ctxs.trans h.ctxs
  fibers := by
    intro i fib'' hfib''
    obtain ⟨fib', hfib', hprep'⟩ := h'.fibers i fib'' hfib''
    obtain ⟨fib, hfib, hprep⟩ := h.fibers i fib' hfib'
    exact ⟨fib, hfib, hprep'.yieldEvent.trans hprep.yieldEvent,
      hprep'.released.trans hprep.released, fun hfree => hprep.free (hprep'.free hfree)⟩

theorem ctxs_modifyFiber {g : Fiber → Fiber} {h : FibCtx → FibCtx}
    (hg : ∀ fib, (g fib).fibCtx = h fib.fibCtx) : (s.modifyFiber f g).ctxs = s.ctxs.modify f h :=
  map_modify hg s.fibers f

theorem ctxs_modifyFiber_id {g : Fiber → Fiber} (hg : ∀ fib, (g fib).fibCtx = fib.fibCtx) :
    (s.modifyFiber f g).ctxs = s.ctxs := by
  rw [ctxs_modifyFiber (h := id) hg, List.modify_id]

theorem prepares_modifyFiber {g : Fiber → Fiber} (hctx : ∀ fib, (g fib).fibCtx = fib.fibCtx)
    (hg : ∀ fib : Fiber, fib.Prepared (g fib)) : Prepares s (s.modifyFiber f g) where
  activations := rfl
  originCtx := rfl
  ctxs := ctxs_modifyFiber_id hctx
  fibers := by
    intro i fib' hfib'
    rw [Sched.modifyFiber, List.getElem?_modify] at hfib'
    obtain ⟨fib, hfib, rfl⟩ := Option.map_eq_some_iff.mp hfib'
    refine ⟨fib, hfib, ?_⟩
    split
    · exact hg fib
    · exact ⟨rfl, rfl, id⟩

theorem prepares_modifyOp {g : Operation → Operation}
    (hg : ∀ op, (g op).opType = .free → op.opType = .free) : Prepares s (s.modifyOp f g) :=
  prepares_modifyFiber (fun _ => rfl) fun fib => ⟨rfl, rfl, hg fib.fibOp⟩

theorem prepares_arm (fd : Fd) (d : Direction) : Prepares s (s.arm f fd d) := by
  have hget : Prepares s (s.getEvents f fd d).2 := by
    have hinsert : ∀ (new : Event) (t : RwEvents), Prepares s
        (Sched.modifyFiber { s with events := s.events ++ [new] } f fun fib =>
          { fib with mapFe := Function.update fib.mapFe fd (some t) }) := by
      intro new t
      have hnew : Prepares s { s with events := s.events ++ [new] } :=
        prepares_of_fibers rfl rfl rfl
      exact hnew.trans (prepares_modifyFiber (fun _ => rfl) fun _ => ⟨rfl, rfl, id⟩)
    unfold Sched.getEvents
    simp only
    split
    · exact hinsert _ _
    · split
      · exact .refl s
      · exact hinsert _ _
  unfold Sched.arm
  split
  · exact hget.trans (prepares_of_fibers rfl rfl rfl)
  · exact prepares_of_fibers rfl rfl rfl

theorem prepares_arm_if (fd : Fd) (d : Direction) (b : Prop) [Decidable b] :
    Prepares s (if b then s.arm f fd d else s) := by
  split
  · exact prepares_arm fd d
  · exact .refl s

theorem prepares_asyncWake : Prepares s (s.asyncWake f) := by
  unfold Sched.asyncWake Sched.eventActive
  repeat' split
  all_goals exact prepares_of_fibers rfl rfl rfl

theorem async_eq_coroTransfer (s : Sched) (f : ℕ) (c : Call) :
    ∃ u, Prepares s u ∧ s.async f c = u.coroTransfer f (.suspended c) := by
  cases c with
  | recvfrom | accept | recv | send | read | write | sendto =>
    refine ⟨_, (prepares_arm _ _).trans (prepares_modifyOp ?_), rfl⟩
    intro op h
    cases h
  | event fd flag =>
    refine ⟨_, ((prepares_arm_if fd .read _).trans (prepares_arm_if fd .write _)).trans
      (prepares_modifyOp ?_), rfl⟩
    intro op h
    cases h
  | sleep time =>
    refine ⟨_, ?_, rfl⟩
    split
    · exact prepares_of_fibers rfl rfl rfl
    · exact .refl s
  | yield yielded =>
    refine ⟨_, prepares_modifyOp ?_, rfl⟩
    intro op h
    cases h
  | continueWith g data =>
    refine ⟨_, Prepares.trans (Prepares.trans (prepares_modifyOp ?_) (prepares_modifyOp ?_))
      prepares_asyncWake, rfl⟩
    · intro op h
      cases h
    · exact fun _ => id

end Prepares

/-! ## The stack of frames -/

section Stacked

variable {s t u : Sched} {f : ℕ}

theorem Sched.Stacked.congr (h : s.Stacked) (ha : t.activations = s.activations)
    (ho : t.originCtx = s.originCtx) (hc : t.ctxs = s.ctxs) : t.Stacked := by
  constructor
  · rw [ha, ho]
    exact h.origin
  · rw [ha]
    exact h.saved
  · rw [ha, hc]
    exact h.running
  · rw [ha]
    exact h.nodup

theorem stacked_init : ({} : Sched).Stacked := by
  constructor <;> simp

theorem Sched.Stacked.top (h : s.Stacked) (hcur : s.current = some f) :
    ∃ a rest, s.activations = a :: rest ∧ a.fib = f ∧ s.originCtx = some a.ctx := by
  cases hact : s.activations with
  | nil =>
    rw [Sched.current, hact] at hcur
    cases hcur
  | cons a rest =>
    rw [Sched.current, hact] at hcur
    refine ⟨a, rest, rfl, Option.some.inj hcur, h.origin a ?_⟩
    rw [hact]
    rfl

theorem Sched.Stacked.running_of_current (h : s.Stacked) (hcur : s.current = some f) :
    s.ctxs[f]? = some .running := by
  obtain ⟨a, rest, hact, rfl, -⟩ := h.top hcur
  exact h.running a (hact ▸ List.mem_cons_self)

theorem coroTransfer_of_top {a : Activation} {rest : List Activation} (ctx : FibCtx)
    (hact : s.activations = a :: rest) (ho : s.originCtx = some a.ctx) :
    s.coroTransfer f ctx =
      (s.modifyFiber f fun fib => { fib with fibCtx := ctx }).resumed a rest := by
  unfold Sched.coroTransfer
  simp only
  split
  · rename_i hnil
    exact absurd (hact.symm.trans hnil) (by simp)
  · rename_i b rest' hcons
    obtain ⟨rfl, rfl⟩ := List.cons.inj (hact.symm.trans hcons)
    exact if_pos ho

theorem ctxs_coroTransfer (c : FibCtx) :
    (s.coroTransfer f c).ctxs = s.ctxs.modify f fun _ => c := by
  have hviews : ∀ s : Sched, s.ctxs = s.views.map (·.ctx) := by
    intro s
    simp [Sched.ctxs, Sched.views, Fiber.view, Function.comp_def]
  rw [hviews, hviews s, views_coroTransfer]
  apply map_modify
  intro v
  rfl

theorem stacked_coroTransfer (h : s.Stacked) (hcur : s.current = some f) (ctx : FibCtx) :
    (s.coroTransfer f ctx).Stacked ∧ (s.coroTransfer f ctx).activations = s.activations.tail := by
  obtain ⟨a, rest, hact, rfl, ho⟩ := h.top hcur
  have hctxs : (s.coroTransfer a.fib ctx).ctxs = s.ctxs.modify a.fib fun _ => ctx :=
    ctxs_coroTransfer ctx
  rw [coroTransfer_of_top ctx hact ho] at hctxs ⊢
  rw [hact]
  have hsaved := h.saved
  have hnodup := h.nodup
  rw [hact] at hsaved hnodup
  rw [List.map_cons, List.nodup_cons] at hnodup
  refine ⟨⟨?_, hsaved.tail, ?_, hnodup.2⟩, rfl⟩
  · intro b hb
    obtain ⟨rest', rfl⟩ := List.head?_eq_some_iff.mp hb
    have hbelow : a.resumer = .launch (some b.ctx) := hsaved.rel
    simp [Sched.resumed, Sched.modifyFiber, hbelow]
  · intro b hb
    have hne : a.fib ≠ b.fib := by
      intro heq
      exact hnodup.1 (heq ▸ List.mem_map_of_mem hb)
    rw [hctxs, List.getElem?_modify_ne _ _ hne]
    exact h.running b (hact ▸ List.mem_cons_of_mem a hb)

theorem ctxs_activate (s : Sched) (f : ℕ) (r : Resumer) :
    (s.activate f r).ctxs = s.ctxs.modify f fun _ => .running :=
  ctxs_modifyFiber fun _ => rfl

theorem ctxs_performed (s : Sched) (e f : ℕ) (op : Operation) :
    ((s.consume e).modifyOp f fun _ => op).ctxs = s.ctxs :=
  ctxs_modifyFiber_id (s := s.consume e) fun _ => rfl

theorem ctxs_dispatched (s : Sched) (e f : ℕ) (op : Operation) :
    (((s.consume e).modifyOp f fun _ => op).activate f .dispatch).ctxs =
      s.ctxs.modify f fun _ => .running := by
  rw [ctxs_activate, ctxs_performed]

theorem stacked_activate (h : s.Stacked) {ctx : FibCtx} (hf : s.ctxs[f]? = some ctx)
    (hctx : ctx ≠ .running) (r : Resumer)
    (hr : ∀ b ∈ s.activations.head?, r = .launch (some b.ctx)) : (s.activate f r).Stacked := by
  have hne : ∀ a ∈ s.activations, f ≠ a.fib := by
    rintro a ha rfl
    exact hctx (Option.some.inj (hf.symm.trans (h.running a ha)))
  refine ⟨?_, ?_, ?_, ?_⟩
  · intro a ha
    obtain rfl := Option.some.inj ha
    rfl
  · exact List.isChain_cons.mpr ⟨fun b hb => hr b hb, h.saved⟩
  · intro a ha
    rw [ctxs_activate]
    rcases List.mem_cons.mp ha with rfl | ha
    · simp [hf]
    · rw [List.getElem?_modify_ne _ _ (hne a ha)]
      exact h.running a ha
  · refine List.nodup_cons.mpr ⟨fun hmem => ?_, h.nodup⟩
    obtain ⟨a, ha, heq⟩ := List.mem_map.mp hmem
    exact hne a ha heq.symm

/-- The fiber once `sched_fiber_exit` has released its map and its yield event. -/
def Fiber.leaving (val : IntPtr) (fib : Fiber) : Fiber :=
  { fib with
    fibOp := { fib.fibOp with opType := .free, arg1 := val }
    released := { fib.released with
      map := fib.released.map + 1, yieldEvent := fib.released.yieldEvent + 1 } }

theorem schedFiberExit_eq_coroTransfer (s : Sched) (f : ℕ) (val : IntPtr) :
    ∃ u : Sched, u.activations = s.activations ∧ u.originCtx = s.originCtx ∧
      u.fibers = s.fibers.modify f (Fiber.leaving val) ∧
      (∀ fib, s.fibers[f]? = some fib →
        u.events = s.events.modify fib.yieldEvent fun ev => { ev with freed := true }) ∧
      s.schedFiberExit f val = u.coroTransfer f .exited := by
  unfold Sched.schedFiberExit
  simp only
  split
  · rename_i fib hfib
    refine ⟨_, ?_, ?_, ?_, ?_, rfl⟩
    · rfl
    · rfl
    · rfl
    · intro fib' hfib'
      obtain rfl := Option.some.inj (hfib.symm.trans hfib')
      rfl
  · rename_i hnone
    refine ⟨_, ?_, ?_, ?_, ?_, rfl⟩
    · rfl
    · rfl
    · rfl
    · intro fib hfib
      rw [hnone] at hfib
      cases hfib

theorem ctxs_leaving (val : IntPtr) {u : Sched}
    (h : u.fibers = s.fibers.modify f (Fiber.leaving val)) : u.ctxs = s.ctxs := by
  rw [Sched.ctxs, h]
  exact ctxs_modifyFiber_id fun _ => rfl

theorem ctxs_async (c : Call) : (s.async f c).ctxs = s.ctxs.modify f fun _ => .suspended c := by
  obtain ⟨u, hprep, heq⟩ := async_eq_coroTransfer s f c
  rw [heq, ctxs_coroTransfer, hprep.ctxs]

theorem ctxs_schedFiberExit (val : IntPtr) :
    (s.schedFiberExit f val).ctxs = s.ctxs.modify f fun _ => .exited := by
  obtain ⟨u, -, -, hfibers, -, heq⟩ := schedFiberExit_eq_coroTransfer s f val
  rw [heq, ctxs_coroTransfer, ctxs_leaving val hfibers]

theorem ctxs_schedNewFiber (s : Sched) : s.schedNewFiber.ctxs = s.ctxs ++ [.created] := by
  simp [Sched.ctxs, Sched.schedNewFiber]

theorem stacked_leave {l : Label} (hs : s.Stacked) (hl : l.leaves = true)
    (h : step s l = some t) : t.Stacked ∧ t.activations = s.activations.tail := by
  obtain ⟨-, h⟩ := step_inv h
  cases l with
  | call c =>
    obtain ⟨f, hcur, rfl⟩ := h
    obtain ⟨u, hprep, heq⟩ := async_eq_coroTransfer s f c
    have hu := hs.congr hprep.activations hprep.originCtx hprep.ctxs
    rw [heq, ← hprep.activations]
    exact stacked_coroTransfer hu (current_of_eq hprep.activations hcur) _
  | exit val =>
    obtain ⟨f, hcur, rfl⟩ := h
    obtain ⟨u, hact, ho, hfibers, -, heq⟩ := schedFiberExit_eq_coroTransfer s f val
    rw [heq, ← hact]
    exact stacked_coroTransfer (hs.congr hact ho (ctxs_leaving val hfibers))
      (current_of_eq hact hcur) _
  | newFiber | launch | wake | delete | dispatch => cases hl

theorem ctxs_getElem? (s : Sched) (f : ℕ) : s.ctxs[f]? = s.fibers[f]?.map (·.fibCtx) :=
  List.getElem?_map

theorem stacked_schedNewFiber (hs : s.Stacked) : s.schedNewFiber.Stacked := by
  refine ⟨hs.origin, hs.saved, ?_, hs.nodup⟩
  intro a ha
  have hrun := hs.running a ha
  have hlt := (List.getElem?_eq_some_iff.mp hrun).1
  rw [ctxs_schedNewFiber, List.getElem?_append_left hlt, hrun]

theorem stacked_step {l : Label} (hs : s.Stacked) (h : step s l = some t) : t.Stacked := by
  by_cases hl : l.leaves = true
  · exact (stacked_leave hs hl h).1
  obtain ⟨-, h⟩ := step_inv h
  cases l with
  | call | exit => exact absurd rfl hl
  | newFiber =>
    rw [h]
    exact stacked_schedNewFiber hs
  | launch f =>
    obtain ⟨hcreated, rfl⟩ := h
    refine stacked_activate hs ((ctxs_getElem? s f).trans hcreated) (by simp) _ ?_
    intro b hb
    rw [hs.origin b hb]
  | wake f =>
    rw [h]
    have hprep := prepares_asyncWake (s := s) (f := f)
    exact hs.congr hprep.activations hprep.originCtx hprep.ctxs
  | delete f =>
    rw [h]
    exact hs.congr rfl rfl (ctxs_modifyFiber_id fun _ => rfl)
  | dispatch e how r =>
    obtain ⟨hempty, h⟩ := h
    obtain ⟨ev, fib, -, -, hfib, p, u, -, rfl, ht⟩ := schedDispatch_cases h
    have hu : ((s.consume e).modifyOp ev.fib fun _ => p.1).Stacked :=
      hs.congr rfl rfl (ctxs_performed s e ev.fib p.1)
    have hrun : fib.fibCtx ≠ .running →
        (((s.consume e).modifyOp ev.fib fun _ => p.1).activate ev.fib .dispatch).Stacked := by
      intro hne
      refine stacked_activate hu ?_ hne _ ?_
      · rw [ctxs_performed, ctxs_getElem?, hfib]
        rfl
      · intro b hb
        have hhead : b ∈ s.activations.head? := hb
        rw [hempty] at hhead
        cases hhead
    rcases ht with ⟨hctx, rfl⟩ | ⟨c, hctx, rfl⟩ | ⟨-, rfl⟩
    · exact hrun (by simp [hctx])
    · exact (hrun (by simp [hctx])).congr rfl rfl rfl
    · exact hu.congr rfl rfl rfl

end Stacked

/-! ## Whole runs -/

section Last

variable {s t u : Sched} {f : ℕ} {ls : List Label} {l : Label}

theorem lastResumer_snoc (hrun : Run step s ls t) (h : step t l = some u) (last : Option ℕ) :
    lastResumer f last s (ls ++ [l]) =
      if resumesFiber t f l then some t.nextCtx else lastResumer f last s ls := by
  induction hrun generalizing last with
  | nil => simp [lastResumer, h]
  | cons hs _ ih => simp only [List.cons_append, lastResumer, hs, ih h]

theorem not_resumesFiber_of_leaves (hl : l.leaves = true) : resumesFiber s f l = false := by
  cases l <;> first | rfl | cases hl

/-- Every frame that waits is the one that has resumed its fiber last. -/
def Sched.LastOf (ls : List Label) (s : Sched) : Prop :=
  s.Stacked ∧ ∀ a ∈ s.activations, lastResumer a.fib none {} ls = some a.ctx

theorem activations_step (hs : s.Stacked) (h : step s l = some t) :
    (∀ a ∈ t.activations, a ∈ s.activations ∧ resumesFiber s a.fib l = false) ∨
      ∃ f r, resumesFiber s f l = true ∧ t.activations = ⟨s.nextCtx, f, r⟩ :: s.activations ∧
        ∀ a ∈ s.activations, resumesFiber s a.fib l = false := by
  by_cases hl : l.leaves = true
  · refine .inl fun a ha => ⟨?_, not_resumesFiber_of_leaves hl⟩
    rw [(stacked_leave hs hl h).2] at ha
    exact List.mem_of_mem_tail ha
  obtain ⟨-, h⟩ := step_inv h
  cases l with
  | call | exit => exact absurd rfl hl
  | newFiber | delete =>
    rw [h]
    exact .inl fun a ha => ⟨ha, rfl⟩
  | wake f =>
    rw [h]
    refine .inl fun a ha => ⟨?_, rfl⟩
    rwa [activations_asyncWake] at ha
  | launch f =>
    obtain ⟨hcreated, rfl⟩ := h
    refine .inr ⟨f, _, by simp [resumesFiber], rfl, fun a ha => ?_⟩
    have hrun := hs.running a ha
    simp only [resumesFiber, decide_eq_false_iff_not]
    rintro rfl
    rw [ctxs_getElem?, hcreated] at hrun
    cases hrun
  | dispatch e how r =>
    obtain ⟨hempty, h⟩ := h
    obtain ⟨ev, fib, hev, -, -, p, u, -, rfl, ht⟩ := schedDispatch_cases h
    have howner : resumesFiber s ev.fib (.dispatch e how r) = true := by
      simp [resumesFiber, Sched.owner, hev]
    rcases ht with ⟨-, rfl⟩ | ⟨c, -, rfl⟩ | ⟨-, rfl⟩
    · exact .inr ⟨ev.fib, .dispatch, howner, rfl, by simp [hempty]⟩
    · exact .inr ⟨ev.fib, .dispatch, howner, rfl, by simp [hempty]⟩
    · refine .inl fun a ha => ?_
      have hmem : a ∈ s.activations := ha
      simp [hempty] at hmem

theorem lastOf_of_run (h : Run step {} ls s) : s.LastOf ls := by
  refine h.history ⟨stacked_init, by simp⟩ ?_
  rintro ls s l t hrun ⟨hs, hlast⟩ hstep
  refine ⟨stacked_step hs hstep, fun a ha => ?_⟩
  rw [lastResumer_snoc hrun hstep]
  rcases activations_step hs hstep with hold | ⟨f, r, hresumes, hnew, hold⟩
  · obtain ⟨hmem, hnot⟩ := hold a ha
    rw [hnot]
    exact hlast a hmem
  · rw [hnew, List.mem_cons] at ha
    rcases ha with rfl | hmem
    · rw [if_pos hresumes]
    · rw [hold a hmem]
      exact hlast a hmem

end Last

/--
In every run of the scheduler, to whatever depth fibers launch fibers: when the running
fiber suspends or exits, `origin_ctx` is the context of the frame that has resumed it
last, that frame is still waiting, and it is the one to which control goes.
-/
theorem transfer_to_last_resumer {ls : List Label} {l : Label} {s t : Sched}
    (hrun : Run step {} ls s) (hl : l.leaves = true) (h : step s l = some t) :
    ∃ a ∈ s.activations, s.current = some a.fib ∧ s.originCtx = some a.ctx ∧
      lastResumer a.fib none {} ls = some a.ctx ∧ s.activations = a :: t.activations := by
  obtain ⟨hs, hlast⟩ := lastOf_of_run hrun
  obtain ⟨f, hcur⟩ : ∃ f, s.current = some f := by
    obtain ⟨-, h⟩ := step_inv h
    cases l with
    | call c => exact h.imp fun _ h => h.1
    | exit val => exact h.imp fun _ h => h.1
    | newFiber | launch | wake | delete | dispatch => cases hl
  obtain ⟨a, rest, hact, rfl, ho⟩ := hs.top hcur
  have hmem : a ∈ s.activations := hact ▸ List.mem_cons_self
  refine ⟨a, hmem, hcur, ho, hlast a hmem, ?_⟩
  rw [(stacked_leave hs hl h).2, hact, List.tail_cons]

/--
A fiber that another one has launched is resumed by an event, after a dispatch has left its
dead context in `origin_ctx`, and suspends again.
-/
theorem nested_transfer :
    let ls : List Label := [.newFiber, .newFiber, .launch 0, .launch 1, .call (.read 5 16 100),
      .call (.yield 0), .dispatch 2 .ready 7, .call (.read 5 16 100), .dispatch 2 .ready 7]
    ∃ s t, Run step {} ls s ∧ step s (.call (.read 5 16 100)) = some t ∧
      ∃ a ∈ s.activations, s.current = some a.fib ∧ s.originCtx = some a.ctx ∧
        lastResumer a.fib none {} ls = some a.ctx ∧ s.activations = a :: t.activations := by
  intro ls
  have hrun : Run step {} ls _ := .cons rfl (.cons rfl (.cons rfl (.cons rfl (.cons rfl
    (.cons rfl (.cons rfl (.cons rfl (.cons rfl (.nil _)))))))))
  refine ⟨_, _, hrun, rfl, ?_⟩
  exact transfer_to_last_resumer (l := .call (.read 5 16 100)) hrun rfl rfl

end Tnetacle.Fibers
