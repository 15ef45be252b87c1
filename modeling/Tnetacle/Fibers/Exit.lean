import Tnetacle.Fibers.Origin

/-! # Fibers that have exited

`sched_fiber_exit` releases the map and the yield event of a fiber, the frame that had
resumed it frees its stack, and `sched_fiber_delete` releases the map and the stack of
any fiber. Nothing tells the owners of a fiber that it has exited, and the events in its
map stay as they are. An exited fiber is left alone, and nothing is released twice, as
long as a fiber exits with none of them armed and is neither woken nor deleted then.
-/

namespace Tnetacle.Fibers

open Runs

def Sched.Exited (s : Sched) (f : ℕ) : Prop := s.ctxs[f]? = some .exited

def Event.pending (ev : Event) : Bool := ev.added || ev.timer || ev.active

/-- The step resumes the fiber, or activates or dispatches one of its events. -/
def Revives (s : Sched) (f : ℕ) : Label → Prop
  | .launch g | .wake g | .call (.continueWith g _) => g = f
  | .dispatch e _ _ => s.owner e = some f
  | _ => False

def LeavesExited (s : Sched) (l : Label) : Prop := ∀ f, s.Exited f → ¬ Revives s f l

def Released.once (r : Released) : Prop := r.stack ≤ 1 ∧ r.map ≤ 1 ∧ r.yieldEvent ≤ 1

def Sched.ReleasedOnce (s : Sched) : Prop := ∀ fib ∈ s.fibers, fib.released.once

/--
A fiber exits while none of its events but the yield event is pending, and unless it has been
deleted; only fibers that have not exited are woken; only those that have neither
exited nor been deleted are deleted.
-/
def CleanExit (s : Sched) : Label → Prop
  | .exit _ => ∀ f fib, s.current = some f → s.fibers[f]? = some fib → fib.released.map = 0 ∧
      ∀ e ev, s.events[e]? = some ev → ev.fib = f → e ≠ fib.yieldEvent → ev.pending = false
  | .wake f | .call (.continueWith f _) => ¬ s.Exited f
  | .delete f => ¬ s.Exited f ∧ ∀ fib, s.fibers[f]? = some fib → fib.released.map = 0
  | _ => True

/-- What is known of a fiber, whether it has exited or not. -/
structure Fiber.Tidy (fib : Fiber) : Prop where
  once : fib.released.once
  live : fib.fibCtx ≠ .exited → fib.fibOp.opType ≠ .free ∧ fib.released.yieldEvent = 0 ∧
    fib.released.stack = fib.released.map

structure Sched.Tidy (s : Sched) : Prop where
  owned : s.Owned
  stacked : s.Stacked
  fibers : ∀ fib ∈ s.fibers, fib.Tidy
  quiet : ∀ (f e : ℕ) (ev : Event), s.Exited f → s.events[e]? = some ev → ev.fib = f →
    ev.freed = true ∨ ev.pending = false

section Exited

variable {s t : Sched} {f : ℕ} {l : Label}

theorem fires_imp_pending {ev : Event} {how : Firing} (h : ev.fires how = true) :
    ev.freed = false ∧ ev.pending = true := by
  cases how <;> simp_all [Event.fires, Event.pending]

theorem not_exited_of_current (hs : s.Stacked) (hcur : s.current = some f) : ¬ s.Exited f := by
  intro h
  rw [Sched.Exited, hs.running_of_current hcur] at h
  cases h

theorem ctx_ne_exited {fib : Fiber} (hf : ¬ s.Exited f) (hget : s.fibers[f]? = some fib) :
    fib.fibCtx ≠ .exited := by
  intro hexited
  exact hf (by rw [Sched.Exited, ctxs_getElem?, hget, Option.map_some, hexited])

theorem leavesExited_of_clean (hs : s.Tidy) (hl : CleanExit s l) (h : step s l = some t) :
    LeavesExited s l := by
  intro f hf hrev
  obtain ⟨-, h⟩ := step_inv h
  cases l with
  | newFiber | exit | delete => exact hrev
  | launch g =>
    obtain rfl : g = f := hrev
    rw [Sched.Exited, ctxs_getElem?, h.1] at hf
    cases hf
  | wake g =>
    obtain rfl : g = f := hrev
    exact hl hf
  | call c =>
    cases c with
    | continueWith g data =>
      obtain rfl : g = f := hrev
      exact hl hf
    | _ => exact hrev
  | dispatch e how r =>
    obtain ⟨ev, fib, hev, hfires, -⟩ := schedDispatch_cases h.2
    have hfib : ev.fib = f := by
      have howner : s.owner e = some f := hrev
      rw [Sched.owner, hev] at howner
      exact Option.some.inj howner
    obtain ⟨hfreed, hpending⟩ := fires_imp_pending hfires
    rcases hs.quiet f e ev hf hev hfib with hfreed' | hpending'
    · rw [hfreed] at hfreed'
      cases hfreed'
    · rw [hpending] at hpending'
      cases hpending'

theorem not_mem_touched (hs : s.Tidy) (hl : CleanExit s l) (h : step s l = some t)
    (hf : s.Exited f) : f ∉ touched s l := by
  have hleaves := leavesExited_of_clean hs hl h f hf
  have hcur : s.current ≠ some f := fun hcur => not_exited_of_current hs.stacked hcur hf
  cases l with
  | newFiber =>
    have hlt := (List.getElem?_eq_some_iff.mp hf).1
    rw [Sched.ctxs, List.length_map] at hlt
    simp only [touched, List.mem_singleton]
    omega
  | launch g | wake g => simpa [touched, Revives, eq_comm] using hleaves
  | delete g =>
    simp only [touched, List.mem_singleton]
    rintro rfl
    exact hl.1 hf
  | exit val => simpa [touched] using hcur
  | call c =>
    cases c with
    | continueWith g data =>
      simp only [touched, List.mem_cons, Option.mem_toList, not_or]
      exact ⟨fun heq => hleaves heq.symm, hcur⟩
    | _ => simpa [touched] using hcur
  | dispatch e how r => simpa [touched, Revives] using hleaves

/-! ## What a step leaves of the fibers -/

/-- A step makes a fiber, or moves at most one. Only `sched_fiber_exit` ends one. -/
theorem ctxs_step (h : step s l = some t) :
    t.ctxs = s.ctxs ++ [.created] ∨ t.ctxs = s.ctxs ∨
      ∃ f c, (t.ctxs = s.ctxs.modify f fun _ => c) ∧
        (c = .exited → ∃ val, l = .exit val ∧ s.current = some f) := by
  obtain ⟨-, h⟩ := step_inv h
  cases l with
  | newFiber =>
    rw [h]
    exact .inl (ctxs_schedNewFiber s)
  | launch g =>
    obtain ⟨-, rfl⟩ := h
    exact .inr (.inr ⟨g, _, ctxs_activate s g _, nofun⟩)
  | call c =>
    obtain ⟨g, -, rfl⟩ := h
    exact .inr (.inr ⟨g, _, ctxs_async c, nofun⟩)
  | wake g =>
    rw [h]
    exact .inr (.inl prepares_asyncWake.ctxs)
  | exit val =>
    obtain ⟨g, hcur, rfl⟩ := h
    exact .inr (.inr ⟨g, _, ctxs_schedFiberExit val, fun _ => ⟨val, rfl, hcur⟩⟩)
  | delete g =>
    rw [h]
    exact .inr (.inl (ctxs_modifyFiber_id fun _ => rfl))
  | dispatch e how r =>
    obtain ⟨ev, fib, -, -, -, p, u, -, rfl, ht⟩ := schedDispatch_cases h.2
    have hrun := ctxs_dispatched s e ev.fib p.1
    rcases ht with ⟨-, rfl⟩ | ⟨c, -, rfl⟩ | ⟨-, rfl⟩
    · exact .inr (.inr ⟨ev.fib, _, hrun, nofun⟩)
    · exact .inr (.inr ⟨ev.fib, _, hrun, nofun⟩)
    · exact .inr (.inl (ctxs_performed s e ev.fib p.1))

theorem exited_step (h : step s l = some t) (hf : t.Exited f) :
    s.Exited f ∨ ∃ val, l = .exit val ∧ s.current = some f := by
  unfold Sched.Exited at hf ⊢
  rcases ctxs_step h with hnew | hsame | ⟨g, c, hmove, hexit⟩
  · rw [hnew, List.getElem?_append] at hf
    split at hf
    · exact .inl hf
    · rw [List.getElem?_singleton] at hf
      split at hf <;> cases hf
  · rw [hsame] at hf
    exact .inl hf
  · rw [hmove, List.getElem?_modify] at hf
    obtain ⟨c', hc', heq⟩ := Option.map_eq_some_iff.mp hf
    split at heq
    · rename_i hgf
      exact .inr (hgf ▸ hexit heq)
    · rw [heq] at hc'
      exact .inl hc'

theorem length_fibers_le_step (h : step s l = some t) :
    s.fibers.length ≤ t.fibers.length := by
  have hlen (s : Sched) : s.ctxs.length = s.fibers.length := List.length_map _
  rw [← hlen, ← hlen]
  rcases ctxs_step h with hnew | hsame | ⟨g, c, hmove, -⟩
  · rw [hnew, List.length_append]
    exact Nat.le_add_right _ _
  · rw [hsame]
  · rw [hmove, List.length_modify]

theorem mem_modify {α : Type*} {l : List α} {i : ℕ} {g : α → α} {b : α} (h : b ∈ l.modify i g) :
    b ∈ l ∨ ∃ a, l[i]? = some a ∧ b = g a := by
  obtain ⟨j, hj⟩ := List.mem_iff_getElem?.mp h
  rw [List.getElem?_modify] at hj
  obtain ⟨a, ha, rfl⟩ := Option.map_eq_some_iff.mp hj
  split
  · rename_i hij
    exact .inr ⟨a, hij ▸ ha, rfl⟩
  · exact .inl (List.mem_of_getElem? ha)

def Fiber.ended (r : Resumer) (val : IntPtr) (fib : Fiber) : Fiber :=
  { fib.leaving val with fibCtx := .exited, released := r.frees (fib.leaving val).released }

def Fiber.deleted (fib : Fiber) : Fiber :=
  { fib with released := { fib.released with
      map := fib.released.map + 1, stack := fib.released.stack + 1 } }

/-- What every step but an exit and a deletion keeps of a fiber. -/
structure FiberRule (Q : Fiber → Prop) : Prop where
  fresh : ∀ e, Q { yieldEvent := e }
  live : ∀ fib, Q fib → fib.fibCtx ≠ .exited → fib.fibOp.opType ≠ .free
  prepared : ∀ fib fib', Q fib → fib.Prepared fib' →
    (fib'.fibCtx = .exited ↔ fib.fibCtx = .exited) → Q fib'

section Rule

variable {Q : Fiber → Prop}

theorem FiberRule.prepares (hQ : FiberRule Q) (hp : Prepares s t) (h : ∀ fib ∈ s.fibers, Q fib) :
    ∀ fib ∈ t.fibers, Q fib := by
  intro fib' hfib'
  obtain ⟨i, hi⟩ := List.mem_iff_getElem?.mp hfib'
  obtain ⟨fib, hfib, hprep⟩ := hp.fibers i fib' hi
  have hctx : fib'.fibCtx = fib.fibCtx := by
    have hsame : t.ctxs[i]? = s.ctxs[i]? := by rw [hp.ctxs]
    rw [ctxs_getElem?, ctxs_getElem?, hi, hfib] at hsame
    exact Option.some.inj hsame
  exact hQ.prepared fib fib' (h fib (List.mem_of_getElem? hfib)) hprep (by rw [hctx])

theorem fibers_coroTransfer {a : Activation} {rest : List Activation} (ctx : FibCtx)
    (hact : s.activations = a :: rest) (ho : s.originCtx = some a.ctx) :
    (s.coroTransfer a.fib ctx).fibers = s.fibers.modify a.fib fun fib =>
      if fib.fibOp.opType = .free then
        { fib with fibCtx := ctx, released := a.resumer.frees fib.released }
      else { fib with fibCtx := ctx } := by
  rw [coroTransfer_of_top ctx hact ho]
  simp only [Sched.resumed, Sched.modifyFiber, List.modify_modify_eq]
  rfl

theorem events_coroTransfer (ctx : FibCtx) : (s.coroTransfer f ctx).events = s.events := by
  unfold Sched.coroTransfer
  simp only
  repeat' split
  all_goals rfl

theorem FiberRule.async (hQ : FiberRule Q) (hs : s.Stacked) (h : ∀ fib ∈ s.fibers, Q fib)
    (hcur : s.current = some f) (c : Call) : ∀ fib ∈ (s.async f c).fibers, Q fib := by
  obtain ⟨a, rest, hact, rfl, ho⟩ := hs.top hcur
  obtain ⟨u, hprep, heq⟩ := async_eq_coroTransfer s a.fib c
  have hu := hQ.prepares hprep h
  rw [heq, fibers_coroTransfer _ (hprep.activations.trans hact) (hprep.originCtx.trans ho)]
  intro fib hfib
  rcases mem_modify hfib with hmem | ⟨fib', hfib', rfl⟩
  · exact hu fib hmem
  · have hold := hu fib' (List.mem_of_getElem? hfib')
    have hctx : fib'.fibCtx = .running := by
      have hrun := hs.running_of_current hcur
      rw [← hprep.ctxs, ctxs_getElem?, hfib'] at hrun
      exact Option.some.inj hrun
    rw [if_neg (hQ.live fib' hold (by simp [hctx]))]
    exact hQ.prepared fib' _ hold ⟨rfl, rfl, id⟩ (by simp [hctx])

theorem FiberRule.exit (hs : s.Stacked) (h : ∀ fib ∈ s.fibers, Q fib)
    (hcur : s.current = some f) (val : IntPtr)
    (hend : ∀ fib r, s.fibers[f]? = some fib → Q (fib.ended r val)) :
    ∀ fib ∈ (s.schedFiberExit f val).fibers, Q fib := by
  obtain ⟨a, rest, hact, rfl, ho⟩ := hs.top hcur
  obtain ⟨u, hact', ho', hfibers, -, heq⟩ := schedFiberExit_eq_coroTransfer s a.fib val
  rw [heq, fibers_coroTransfer _ (hact'.trans hact) (ho'.trans ho), hfibers,
    List.modify_modify_eq]
  intro fib hfib
  rcases mem_modify hfib with hmem | ⟨fib', hfib', rfl⟩
  · exact h fib hmem
  · have hfree : (fib'.leaving val).fibOp.opType = .free := rfl
    rw [Function.comp_apply, if_pos hfree]
    exact hend fib' a.resumer hfib'

theorem FiberRule.activate (hQ : FiberRule Q) (h : ∀ fib ∈ s.fibers, Q fib) (hf : ¬ s.Exited f)
    (r : Resumer) : ∀ fib ∈ (s.activate f r).fibers, Q fib := by
  intro fib hfib
  rcases mem_modify hfib with hmem | ⟨fib', hfib', rfl⟩
  · exact h fib hmem
  · have hne : fib'.fibCtx ≠ .exited := ctx_ne_exited hf hfib'
    exact hQ.prepared fib' _ (h fib' (List.mem_of_getElem? hfib')) ⟨rfl, rfl, id⟩ (by simp [hne])

theorem opType_perform (op : Operation) (event : BitVec 16) (r : IntPtr) :
    (op.perform event r).1.opType = op.opType := by
  unfold Operation.perform
  repeat' split
  all_goals rfl

theorem FiberRule.dispatch (hQ : FiberRule Q) (h : ∀ fib ∈ s.fibers, Q fib) {e : ℕ}
    {how : Firing} {r : IntPtr} (hstep : s.schedDispatch e how r = some t) :
    ∀ fib ∈ t.fibers, Q fib := by
  obtain ⟨ev, fib, -, -, hfib, p, u, hp, rfl, ht⟩ := schedDispatch_cases hstep
  have hop : ∀ fib ∈ ((s.consume e).modifyOp ev.fib fun _ => p.1).fibers, Q fib := by
    intro fib' hfib'
    rcases mem_modify hfib' with hmem | ⟨fib'', hfib'', rfl⟩
    · exact h fib' hmem
    · obtain rfl := Option.some.inj (hfib.symm.trans hfib'')
      refine hQ.prepared fib _ (h fib (List.mem_of_getElem? hfib)) ⟨rfl, rfl, ?_⟩ Iff.rfl
      intro hfree
      rwa [hp, opType_perform] at hfree
  have hrun : fib.fibCtx ≠ .exited → ∀ fib' ∈
      (((s.consume e).modifyOp ev.fib fun _ => p.1).activate ev.fib .dispatch).fibers,
        Q fib' := by
    intro hne
    refine hQ.activate hop ?_ _
    intro hexited
    rw [Sched.Exited, ctxs_performed, ctxs_getElem?, hfib] at hexited
    exact hne (Option.some.inj hexited)
  rcases ht with ⟨hctx, rfl⟩ | ⟨c, hctx, rfl⟩ | ⟨-, rfl⟩
  · exact hrun (by simp [hctx])
  · exact hrun (by simp [hctx])
  · exact hop

theorem FiberRule.step (hQ : FiberRule Q) (hs : s.Stacked) (h : ∀ fib ∈ s.fibers, Q fib)
    (hexit : ∀ val f fib r, l = .exit val → s.current = some f → s.fibers[f]? = some fib →
      Q (fib.ended r val))
    (hdelete : ∀ f fib, l = .delete f → s.fibers[f]? = some fib → Q fib.deleted)
    (hstep : Fibers.step s l = some t) : ∀ fib ∈ t.fibers, Q fib := by
  obtain ⟨-, hstep⟩ := step_inv hstep
  cases l with
  | newFiber =>
    rw [hstep]
    intro fib hfib
    rcases List.mem_append.mp hfib with hmem | hnew
    · exact h fib hmem
    · rw [List.mem_singleton.mp hnew]
      exact hQ.fresh _
  | launch g =>
    obtain ⟨hcreated, rfl⟩ := hstep
    refine hQ.activate h ?_ _
    intro hexited
    rw [Sched.Exited, ctxs_getElem?, hcreated] at hexited
    cases hexited
  | call c =>
    obtain ⟨g, hcur, rfl⟩ := hstep
    exact hQ.async hs h hcur c
  | wake g =>
    rw [hstep]
    exact hQ.prepares prepares_asyncWake h
  | exit val =>
    obtain ⟨g, hcur, rfl⟩ := hstep
    exact FiberRule.exit hs h hcur val fun fib r hfib => hexit val g fib r rfl hcur hfib
  | delete g =>
    rw [hstep]
    intro fib hfib
    rcases mem_modify hfib with hmem | ⟨fib', hfib', rfl⟩
    · exact h fib hmem
    · exact hdelete g fib' rfl hfib'
  | dispatch e how r => exact hQ.dispatch h hstep.2

end Rule

theorem tidy_rule : FiberRule Fiber.Tidy where
  fresh e := ⟨by simp [Released.once], fun _ => ⟨by simp, rfl, rfl⟩⟩
  live fib h hne := (h.live hne).1
  prepared fib fib' h hp hctx := by
    constructor
    · rw [hp.released]
      exact h.once
    · intro hne
      obtain ⟨hfree, hyield, hstack⟩ := h.live (mt hctx.mpr hne)
      rw [hp.released]
      exact ⟨fun hfree' => hfree (hp.free hfree'), hyield, hstack⟩

theorem Fiber.Tidy.ended {fib : Fiber} (h : fib.Tidy) (hctx : fib.fibCtx ≠ .exited)
    (hmap : fib.released.map = 0) (r : Resumer) (val : IntPtr) : (fib.ended r val).Tidy := by
  obtain ⟨-, hyield, hstack⟩ := h.live hctx
  constructor
  · cases r <;>
      simp [Fiber.ended, Fiber.leaving, Resumer.frees, Released.once, hyield, hstack, hmap]
  · intro hne
    exact absurd rfl hne

theorem Fiber.Tidy.deleted {fib : Fiber} (h : fib.Tidy) (hctx : fib.fibCtx ≠ .exited)
    (hmap : fib.released.map = 0) : fib.deleted.Tidy := by
  obtain ⟨hfree, hyield, hstack⟩ := h.live hctx
  constructor
  · simp [Fiber.deleted, Released.once, hyield, hstack, hmap]
  · exact fun _ => ⟨hfree, hyield, by rw [Fiber.deleted, hstack]⟩

theorem tidy_fibers_step (hs : s.Tidy) (hl : CleanExit s l) (h : step s l = some t) :
    ∀ fib ∈ t.fibers, fib.Tidy := by
  refine tidy_rule.step hs.stacked hs.fibers ?_ ?_ h
  · rintro val f fib r rfl hcur hget
    have hne := ctx_ne_exited (not_exited_of_current hs.stacked hcur) hget
    exact (hs.fibers fib (List.mem_of_getElem? hget)).ended hne (hl f fib hcur hget).1 r val
  · rintro f fib rfl hget
    exact (hs.fibers fib (List.mem_of_getElem? hget)).deleted (ctx_ne_exited hl.1 hget)
      (hl.2 fib hget)

theorem quiet_step (hs : s.Tidy) (hl : CleanExit s l) (h : step s l = some t) (f e : ℕ)
    (ev : Event) (hf : t.Exited f) (hev : t.events[e]? = some ev) (hfib : ev.fib = f) :
    ev.freed = true ∨ ev.pending = false := by
  rcases exited_step h hf with hbefore | ⟨val, rfl, hcur⟩
  · have hagree := (within_step hs.owned h).agree f (not_mem_touched hs hl h hbefore)
    have howner : t.owner e = some f := by rw [Sched.owner, hev, Option.map_some, hfib]
    rw [hagree.events e (.inl howner)] at hev
    exact hs.quiet f e ev hbefore hev hfib
  · obtain ⟨-, g, hcur', rfl⟩ := step_inv h
    obtain rfl := Option.some.inj (hcur.symm.trans hcur')
    obtain ⟨u, -, -, -, hevents, heq⟩ := schedFiberExit_eq_coroTransfer s f val
    obtain ⟨fib, hget⟩ : ∃ fib, s.fibers[f]? = some fib := by
      have hrun := hs.stacked.running_of_current hcur
      rw [ctxs_getElem?, Option.map_eq_some_iff] at hrun
      exact hrun.imp fun _ h => h.1
    rw [heq, events_coroTransfer, hevents fib hget, List.getElem?_modify] at hev
    obtain ⟨ev', hev', rfl⟩ := Option.map_eq_some_iff.mp hev
    by_cases he : fib.yieldEvent = e
    · rw [if_pos he]
      exact .inl rfl
    · rw [if_neg he] at hfib ⊢
      exact .inr ((hl f fib hcur hget).2 e ev' hev' hfib (Ne.symm he))

theorem tidy_step (hs : s.Tidy) (hl : CleanExit s l) (h : step s l = some t) : t.Tidy where
  owned := (within_step hs.owned h).owned
  stacked := stacked_step hs.stacked h
  fibers := tidy_fibers_step hs hl h
  quiet := quiet_step hs hl h

theorem tidy_init : ({} : Sched).Tidy := by
  refine ⟨owned_init, stacked_init, by simp, fun f e ev _ hev => ?_⟩
  simp at hev

end Exited

/--
In every run of the scheduler in which fibers exit cleanly, no fiber that has exited is ever
resumed, none of its events is activated or dispatched, and the stack, the map and the yield
event of every fiber are released at most once.
-/
theorem exited_left_alone_of_clean {ls : List Label} (h : Along step CleanExit {} ls) :
    Along step LeavesExited {} ls ∧ Throughout step Sched.ReleasedOnce {} ls := by
  have htidy : Throughout step Sched.Tidy {} ls :=
    throughout_of_along (fun _ _ _ hs hl hstep => tidy_step hs hl hstep) tidy_init h
  constructor
  · exact along_of_throughout (fun _ _ _ hs hl hstep => leavesExited_of_clean hs hl hstep) htidy h
  · exact htidy.mono fun s hs fib hfib => (hs.fibers fib hfib).once

/-- A fiber that exits when a receive has failed. -/
theorem exit_after_recvfrom :
    let ls : List Label := [.newFiber, .launch 0, .call (.recvfrom 5 16 100 0 32 48),
      .dispatch 1 .ready (-1), .exit 1]
    Along step CleanExit {} ls ∧ Along step LeavesExited {} ls ∧
      Throughout step Sched.ReleasedOnce {} ls := by
  intro ls
  have hclean : Along step CleanExit {} ls := by
    refine (along_cons_iff rfl).mpr ⟨trivial, (along_cons_iff rfl).mpr ⟨trivial, ?_⟩⟩
    refine (along_cons_iff rfl).mpr ⟨trivial, (along_cons_iff rfl).mpr ⟨trivial, ?_⟩⟩
    refine (along_cons_iff rfl).mpr ⟨?_, trivial⟩
    rintro f fib ⟨⟩ ⟨⟩
    refine ⟨rfl, fun e ev hev _ hne => ?_⟩
    rcases e with _ | _ | e
    · exact absurd rfl hne
    · cases hev
      rfl
    · cases hev
  exact ⟨hclean, exited_left_alone_of_clean hclean⟩

/--
A receive fails, the receiver exits, and `server_udp_exit` deletes it: its stack and its map
are released twice. A fiber that has waited for both directions of a descriptor exits when
it can read, and the write event, which was left armed, is dispatched to it.
-/
theorem exited_fiber_touched :
    (¬ Throughout step Sched.ReleasedOnce {} [.newFiber, .launch 0,
      .call (.recvfrom 5 16 100 0 32 48), .dispatch 1 .ready (-1), .exit 1, .delete 0]) ∧
    ¬ Along step LeavesExited {} [.newFiber, .launch 0, .call (.event 5 (evRead ||| evWrite)),
      .dispatch 1 .ready 0, .exit 1, .dispatch 2 .ready 0] := by
  constructor
  · intro h
    have hlast := h.last (.cons rfl (.cons rfl (.cons rfl (.cons rfl (.cons rfl (.cons rfl
      (.nil _)))))))
    have hmap := (hlast _ (List.mem_singleton.mpr rfl)).2.1
    exact absurd hmap (by decide)
  · intro h
    obtain ⟨-, h⟩ := (along_cons_iff rfl).mp h
    obtain ⟨-, h⟩ := (along_cons_iff rfl).mp h
    obtain ⟨-, h⟩ := (along_cons_iff rfl).mp h
    obtain ⟨-, h⟩ := (along_cons_iff rfl).mp h
    obtain ⟨-, h⟩ := (along_cons_iff rfl).mp h
    obtain ⟨h, -⟩ := (along_cons_iff rfl).mp h
    exact h 0 rfl rfl

/-! ## The fibers at the end

`sched_fiber_delete` is called once, when the daemon ends.
-/

/-- Nothing of the fiber is released before it exits, and its map is then. -/
structure Fiber.Undeleted (fib : Fiber) : Prop where
  live : fib.fibCtx ≠ .exited →
    fib.fibOp.opType ≠ .free ∧ fib.released.map = 0 ∧ fib.released.stack = 0
  exited : fib.fibCtx = .exited → fib.released.map ≠ 0

structure Sched.Undeleted (s : Sched) : Prop where
  stacked : s.Stacked
  fibers : ∀ fib ∈ s.fibers, fib.Undeleted

/-- `sched_fiber_delete`, unless it releases the map or the stack a second time. -/
def Sched.deleteOnce (s : Sched) (f : ℕ) : Option Sched :=
  match s.fibers[f]? with
  | none => none
  | some fib =>
    if fib.released.map = 0 ∧ fib.released.stack = 0 then some (s.schedFiberDelete f) else none

section Undeleted

variable {s t : Sched} {f g : ℕ} {l : Label} {ls : List Label}

theorem undeleted_rule : FiberRule Fiber.Undeleted where
  fresh e := ⟨fun _ => ⟨by simp, rfl, rfl⟩, nofun⟩
  live fib h hne := (h.live hne).1
  prepared fib fib' h hp hctx := by
    constructor
    · intro hne
      obtain ⟨hfree, hkept⟩ := h.live (mt hctx.mpr hne)
      rw [hp.released]
      exact ⟨fun hfree' => hfree (hp.free hfree'), hkept⟩
    · intro hexited
      rw [hp.released]
      exact h.exited (hctx.mp hexited)

theorem Sched.Undeleted.schedNewFiber (h : s.Undeleted) : s.schedNewFiber.Undeleted := by
  refine ⟨stacked_schedNewFiber h.stacked, fun fib hfib => ?_⟩
  rcases List.mem_append.mp hfib with hold | hnew
  · exact h.fibers fib hold
  · rw [List.mem_singleton.mp hnew]
    exact undeleted_rule.fresh _

theorem undeleted_init : ({} : Sched).Undeleted :=
  ⟨stacked_init, fun _ hfib => absurd hfib List.not_mem_nil⟩

theorem undeleted_step (hs : s.Undeleted) (hl : ∀ f, l ≠ .delete f) (h : step s l = some t) :
    t.Undeleted := by
  refine ⟨stacked_step hs.stacked h, undeleted_rule.step hs.stacked hs.fibers ?_ ?_ h⟩
  · rintro val f fib r rfl - -
    refine ⟨fun hne => absurd rfl hne, fun _ => ?_⟩
    cases r <;> exact Nat.succ_ne_zero _
  · rintro f fib rfl -
    exact absurd rfl (hl f)

theorem undeleted_run (hs : s.Undeleted) (hrun : Run step s ls t) (hls : ∀ f, .delete f ∉ ls) :
    t.Undeleted := by
  induction hrun with
  | nil => exact hs
  | cons hstep _ ih =>
    refine ih (undeleted_step hs ?_ hstep) fun f hmem => hls f (List.mem_cons_of_mem _ hmem)
    rintro f rfl
    exact hls f List.mem_cons_self

theorem length_fibers_le_run (hrun : Run step s ls t) : s.fibers.length ≤ t.fibers.length := by
  induction hrun with
  | nil => exact Nat.le_refl _
  | cons hstep _ ih => exact Nat.le_trans (length_fibers_le_step hstep) ih

theorem deleteOnce_eq {fib : Fiber} (hget : s.fibers[f]? = some fib) (hfib : fib.Undeleted) :
    s.deleteOnce f = if fib.fibCtx = .exited then none else some (s.schedFiberDelete f) := by
  rw [Sched.deleteOnce, hget]
  by_cases hexited : fib.fibCtx = .exited
  · rw [if_pos hexited]
    exact if_neg fun h => hfib.exited hexited h.1
  · rw [if_neg hexited]
    exact if_pos (hfib.live hexited).2

theorem exited_iff {fib : Fiber} (hget : s.fibers[f]? = some fib) :
    s.Exited f ↔ fib.fibCtx = .exited := by
  rw [Sched.Exited, ctxs_getElem?, hget, Option.map_some, Option.some.injEq]

theorem deleteOnce_both (hs : s.Undeleted) (hf : f < s.fibers.length) (hg : g < s.fibers.length)
    (hne : f ≠ g) :
    (s.Exited f ∨ s.Exited g) ∧ (s.deleteOnce f >>= (·.deleteOnce g)) = none ∨
      ¬ (s.Exited f ∨ s.Exited g) ∧ (s.deleteOnce f >>= (·.deleteOnce g)) =
        some ((s.schedFiberDelete f).schedFiberDelete g) := by
  have hget (i : ℕ) (hi : i < s.fibers.length) := List.getElem?_eq_getElem hi
  have hsame : (s.schedFiberDelete f).fibers[g]? = s.fibers[g]? :=
    List.getElem?_modify_ne _ _ hne
  have hsecond := deleteOnce_eq (hsame.trans (hget g hg)) (hs.fibers _ (List.getElem_mem hg))
  rw [deleteOnce_eq (hget f hf) (hs.fibers _ (List.getElem_mem hf)), exited_iff (hget f hf),
    exited_iff (hget g hg)]
  by_cases hexited : s.fibers[f].fibCtx = .exited
  · rw [if_pos hexited]
    exact .inl ⟨.inl hexited, rfl⟩
  · rw [if_neg hexited, Option.bind_eq_bind, Option.bind_some, hsecond]
    by_cases hexited' : s.fibers[g].fibCtx = .exited
    · rw [if_pos hexited']
      exact .inl ⟨.inr hexited', rfl⟩
    · rw [if_neg hexited']
      exact .inr ⟨not_or.mpr ⟨hexited, hexited'⟩, rfl⟩

theorem released_deleteBoth (hs : s.Undeleted) (hne : f ≠ g) {i : ℕ} (hi : i < s.fibers.length)
    (hmem : i = f ∨ i = g) (hno : ¬ s.Exited i) :
    ∃ fib, ((s.schedFiberDelete f).schedFiberDelete g).fibers[i]? = some fib ∧
      fib.released.map = 1 ∧ fib.released.stack = 1 := by
  have hget := List.getElem?_eq_getElem hi
  obtain ⟨-, hmap, hstack⟩ :=
    (hs.fibers _ (List.getElem_mem hi)).live (ctx_ne_exited hno hget)
  refine ⟨s.fibers[i].deleted, ?_, by rw [Fiber.deleted, hmap], by rw [Fiber.deleted, hstack]⟩
  have hdelete (t : Sched) (j : ℕ) :
      (t.schedFiberDelete j).fibers = t.fibers.modify j Fiber.deleted := rfl
  rw [hdelete, hdelete, List.getElem?_modify, List.getElem?_modify, hget]
  rcases hmem with rfl | rfl
  · simp [hne.symm]
  · simp [hne]

end Undeleted

end Tnetacle.Fibers
