import Tnetacle.Fibers.Cache
import Tnetacle.Fibers.Exit
import Tnetacle.Fibers.Programs

/-! # Fibers that nobody wakes

A wake, or a second event that is left behind by an earlier call, can take a fiber out of a call
that it does not belong to. A fiber that nobody wakes, and that waits for one event at a
time, is safe from both: exactly one of its events can be dispatched while it waits and
none while it does not. To such a fiber every call looks as if it had blocked.
-/

namespace Tnetacle.Fibers

open Runs

/-- Nobody wakes or deletes the fiber `f`, and every call of it waits for one event. -/
def Unwoken (f : ℕ) (s : Sched) : Label → Prop
  | .wake g | .delete g => g ≠ f
  | .call c => (∀ data, c ≠ .continueWith f data) ∧ (s.current = some f → ∃ a, c.arms = [a])
  | _ => True

/--
The call has returned what a blocking one returns: the result of its system call, which was
made once, or the readiness that `async_event` was asked for.
-/
def Resume.Blocking (x : Resume) : Prop :=
  ∃ fd d, x.call.arms = [(fd, d)] ∧
    match x.call.recorded with
    | some (_, sc) => x.executed = [(sc, x.ret)]
    | none => x.executed = [] ∧ x.ret = d.flag.zeroExtend 64

def Sched.Armed (s : Sched) (f e : ℕ) : Prop :=
  ∃ ev, s.events[e]? = some ev ∧ ev.fib = f ∧ ev.what.isSome ∧ ev.added = true

/-- The call of the fiber `f`, if it waits in one, waits for the event `e`. -/
def Sched.Awaits (s : Sched) (f e : ℕ) : Prop :=
  ∃ c fd d, s.ctxs[f]? = some (.suspended c) ∧ c.arms = [(fd, d)] ∧
    s.binding e = some (f, fd, some d)

structure Sched.Undisturbed (s : Sched) (f : ℕ) : Prop where
  quiet : ∀ (e : ℕ) (ev : Event), s.events[e]? = some ev → ev.fib = f →
    ev.timer = false ∧ ev.active = false
  kept : ∀ (e : ℕ) (ev : Event), s.events[e]? = some ev → ev.fib = f → ev.freed = true →
    s.ctxs[f]? = some .exited
  armed : ∀ e, s.Armed f e ↔ s.Awaits f e
  waits : ∀ c, s.ctxs[f]? = some (.suspended c) → ∃ e, s.Awaits f e
  slot : ∀ v fd flag, s.views[f]? = some v → v.ctx = .suspended (.event fd flag) →
    v.op.opType = .event ∧ v.op.ret = 0

/-! ## One event for a call -/

section Arm

variable {s : Sched} {f : ℕ}

theorem arms_of_recorded {c : Call} {d : Direction} {sc : Syscall}
    (h : c.recorded = some (d, sc)) : ∃ fd, c.arms = [(fd, d)] := by
  cases c with
  | recvfrom | accept | recv | send | read | write | sendto =>
    cases h
    exact ⟨_, rfl⟩
  | event | sleep | yield | continueWith => cases h

/-- A call that waits for one event and makes no system call is `async_event`. -/
theorem event_of_arms {c : Call} {a : Fd × Direction} (h : c.arms = [a])
    (hnone : c.recorded = none) : ∃ fd flag, c = .event fd flag := by
  cases c with
  | recvfrom | accept | recv | send | read | write | sendto => cases hnone
  | sleep | yield | continueWith => cases h
  | event fd flag => exact ⟨fd, flag, rfl⟩

theorem arm_spec (hs : s.Cached) (f : ℕ) (fd : Fd) (d : Direction) :
    ∃ (e : ℕ) (ev : Event), (s.arm f fd d).events[e]? = some { ev with added := true } ∧
      (s.events[e]? = some ev ∨ ev = { fd := fd, what := some d, fib := f }) ∧
      ev.fib = f ∧ ev.fd = fd ∧ ev.what = some d ∧
      ∀ i, i ≠ e → (s.arm f fd d).events[i]? = s.events[i]? := by
  rcases getEvents_cases s f fd d with ⟨t, hentry, hsome, heq⟩ | ⟨-, t, hget, -, heq⟩
  · obtain ⟨e, he⟩ := Option.isSome_iff_exists.mp hsome
    have hbound : s.binding e = some (f, fd, some d) :=
      (hs f fd d e).mp ((slot_of_entry hentry d).trans he)
    obtain ⟨ev, hev, hbind⟩ := Option.map_eq_some_iff.mp hbound
    simp only [Prod.mk.injEq] at hbind
    refine ⟨e, ev, ?_, .inl hev, hbind.1, hbind.2.1, hbind.2.2, ?_⟩
    · simp [Sched.arm, heq, he, Sched.eventAdd, Sched.modifyEvent, hev]
    · intro i hi
      simp [Sched.arm, heq, he, Sched.eventAdd, Sched.modifyEvent,
        List.getElem?_modify_ne _ _ (Ne.symm hi)]
  · refine ⟨s.events.length, { fd := fd, what := some d, fib := f }, ?_, .inr rfl, rfl, rfl, rfl,
      ?_⟩
    · simp [Sched.arm, heq, hget, Sched.eventAdd, Sched.modifyEvent, Sched.modifyFiber]
    · intro i hi
      simp only [Sched.arm, heq, hget, Sched.eventAdd, Sched.modifyEvent, Sched.modifyFiber,
        List.getElem?_modify_ne _ _ (Ne.symm hi)]
      rcases Nat.lt_or_gt_of_ne hi with hlt | hgt
      · exact List.getElem?_append_left hlt
      · rw [List.getElem?_eq_none (by simp; omega), List.getElem?_eq_none (by omega)]

theorem events_async {c : Call} {fd : Fd} {d : Direction} (h : c.arms = [(fd, d)]) :
    (s.async f c).events = (s.arm f fd d).events := by
  cases c with
  | recvfrom | accept | recv | send | read | write | sendto =>
    cases h
    exact events_coroTransfer _
  | sleep | yield | continueWith => cases h
  | event fd' flag =>
    have harms : (s.armAll f (Call.event fd' flag).arms).events =
        (s.async f (.event fd' flag)).events := by
      refine Eq.trans ?_ (events_coroTransfer _).symm
      simp only [Call.arms]
      split <;> split <;> rfl
    rw [← harms, h]
    rfl

theorem views_asyncEvent (fd : Fd) (flag : BitVec 16) :
    (s.async f (.event fd flag)).views = s.views.modify f fun v =>
      ⟨.suspended (.event fd flag), { v.op with opType := .event, ret := 0 }⟩ := by
  simp only [Sched.async, Sched.asyncEvent, views_coroTransfer, views_modifyOp]
  split <;> split <;> simp [List.modify_modify_eq, Function.comp_def]

end Arm

/-! ## Steps -/

section Steps

variable {s t : Sched} {f : ℕ} {l : Label}

theorem Agree.event_iff (h : Agree f s t) {e : ℕ} {ev : Event} (hfib : ev.fib = f) :
    t.events[e]? = some ev ↔ s.events[e]? = some ev := by
  constructor
  · intro he
    rwa [← h.events e (.inl (by rw [Sched.owner, he, ← hfib]; rfl))]
  · intro he
    rwa [h.events e (.inr (by rw [Sched.owner, he, ← hfib]; rfl))]

theorem binding_eq_some_iff {e : ℕ} {fd : Fd} {d : Direction} :
    s.binding e = some (f, fd, some d) ↔
      ∃ ev : Event, ev.fib = f ∧ s.events[e]? = some ev ∧ ev.fd = fd ∧ ev.what = some d := by
  simp only [Sched.binding, Option.map_eq_some_iff, Prod.mk.injEq]
  constructor
  · rintro ⟨ev, he, hfib, hrest⟩
    exact ⟨ev, hfib, he, hrest⟩
  · rintro ⟨ev, hfib, he, hrest⟩
    exact ⟨ev, he, hfib, hrest⟩

theorem Agree.awaits_iff (h : Agree f s t) (e : ℕ) : t.Awaits f e ↔ s.Awaits f e := by
  have hbind : ∀ fd d, t.binding e = some (f, fd, some d) ↔ s.binding e = some (f, fd, some d) := by
    intro fd d
    rw [binding_eq_some_iff, binding_eq_some_iff]
    refine exists_congr fun ev => and_congr_right fun hfib => ?_
    rw [h.event_iff hfib]
  simp only [Sched.Awaits, ctxs_getElem?, h.fiber, hbind]

theorem Sched.Undisturbed.agree (h : s.Undisturbed f) (ha : Agree f s t) : t.Undisturbed f := by
  have hctx : t.ctxs[f]? = s.ctxs[f]? := by rw [ctxs_getElem?, ctxs_getElem?, ha.fiber]
  constructor
  · intro e ev he hfib
    exact h.quiet e ev ((ha.event_iff hfib).mp he) hfib
  · intro e ev he hfib hfreed
    rw [hctx]
    exact h.kept e ev ((ha.event_iff hfib).mp he) hfib hfreed
  · intro e
    rw [ha.awaits_iff, ← h.armed]
    refine exists_congr fun ev => ?_
    constructor
    · rintro ⟨he, hfib, hrest⟩
      exact ⟨(ha.event_iff hfib).mp he, hfib, hrest⟩
    · rintro ⟨he, hfib, hrest⟩
      exact ⟨(ha.event_iff hfib).mpr he, hfib, hrest⟩
  · intro c hc
    obtain ⟨e, he⟩ := h.waits c (hctx ▸ hc)
    exact ⟨e, (ha.awaits_iff e).mpr he⟩
  · intro v fd flag hv hsusp
    rw [Sched.views, List.getElem?_map, ha.fiber, ← List.getElem?_map] at hv
    exact h.slot v fd flag hv hsusp

def Event.Idle (ev : Event) (ctx : FibCtx) : Prop :=
  ev.timer = false ∧ ev.active = false ∧ (ev.freed = true → ctx = .exited) ∧
    (ev.what.isSome → ev.added = false)

theorem ctxs_of_views {v : View} (hv : s.views[f]? = some v) : s.ctxs[f]? = some v.ctx := by
  rw [Sched.views, List.getElem?_map] at hv
  obtain ⟨fib, hfib, rfl⟩ := Option.map_eq_some_iff.mp hv
  rw [ctxs_getElem?, hfib]
  rfl

theorem Sched.Awaits.unique {e i : ℕ} (hs : s.Cached) (h : s.Awaits f e) (h' : s.Awaits f i) :
    i = e := by
  obtain ⟨c, fd, d, hc, harms, hbind⟩ := h
  obtain ⟨c', fd', d', hc', harms', hbind'⟩ := h'
  obtain rfl := FibCtx.suspended.inj (Option.some.inj (hc.symm.trans hc'))
  obtain ⟨rfl, rfl⟩ := Prod.mk.inj (List.cons.inj (harms.symm.trans harms')).1
  exact hs.onePerSlot f fd d i e hbind' hbind

theorem undisturbed_of_idle (ctx : FibCtx) (hctx : t.ctxs[f]? = some ctx)
    (hnot : ∀ c, ctx ≠ .suspended c)
    (h : ∀ (e : ℕ) (ev : Event), t.events[e]? = some ev → ev.fib = f → ev.Idle ctx) :
    t.Undisturbed f := by
  have hno : ∀ c, t.ctxs[f]? ≠ some (.suspended c) := by
    intro c hc
    exact hnot c (Option.some.inj (hctx.symm.trans hc))
  constructor
  · intro e ev he hfib
    exact ⟨(h e ev he hfib).1, (h e ev he hfib).2.1⟩
  · intro e ev he hfib hfreed
    rw [hctx, (h e ev he hfib).2.2.1 hfreed]
  · intro e
    constructor
    · rintro ⟨ev, he, hfib, hwhat, hadded⟩
      rw [(h e ev he hfib).2.2.2 hwhat] at hadded
      cases hadded
    · rintro ⟨c, -, -, hc, -⟩
      exact absurd hc (hno c)
  · intro c hc
    exact absurd hc (hno c)
  · intro v fd flag hv hsusp
    exact absurd ((ctxs_of_views hv).trans (congrArg some hsusp)) (hno (.event fd flag))

theorem Sched.Undisturbed.idle (h : s.Undisturbed f)
    (hnot : ∀ c, s.ctxs[f]? ≠ some (.suspended c)) (hlive : s.ctxs[f]? ≠ some .exited)
    (ctx : FibCtx) {e : ℕ} {ev : Event} (he : s.events[e]? = some ev) (hfib : ev.fib = f) :
    ev.Idle ctx := by
  obtain ⟨htimer, hactive⟩ := h.quiet e ev he hfib
  refine ⟨htimer, hactive, ?_, ?_⟩
  · intro hfreed
    exact absurd (h.kept e ev he hfib hfreed) hlive
  · intro hwhat
    by_contra hadded
    obtain ⟨c, -, -, hc, -⟩ := (h.armed e).mp ⟨ev, he, hfib, hwhat, by simpa using hadded⟩
    exact hnot c hc

theorem undisturbed_newFiber (h : s.Undisturbed f) (hf : f = s.fibers.length) :
    s.schedNewFiber.Undisturbed f := by
  have hnone : s.ctxs[f]? = none := by
    rw [ctxs_getElem?, hf, List.getElem?_eq_none le_rfl]
    rfl
  refine undisturbed_of_idle .created ?_ (by simp) ?_
  · rw [ctxs_schedNewFiber, hf]
    simp [Sched.ctxs]
  · intro e ev he hfib
    rw [Sched.schedNewFiber, List.getElem?_append] at he
    split at he
    · exact h.idle (by simp [hnone]) (by simp [hnone]) _ he hfib
    · rw [List.getElem?_singleton] at he
      split at he
      · obtain rfl := Option.some.inj he
        simp [Event.Idle]
      · cases he

theorem undisturbed_launch (h : s.Undisturbed f) (hctx : s.ctxs[f]? = some .created)
    (r : Resumer) : (s.activate f r).Undisturbed f := by
  refine undisturbed_of_idle .running ?_ (by simp) ?_
  · rw [ctxs_activate, List.getElem?_modify_eq, hctx]
    rfl
  · intro e ev he hfib
    exact h.idle (by simp [hctx]) (by simp [hctx]) _ he hfib

theorem undisturbed_exit (h : s.Undisturbed f) (hctx : s.ctxs[f]? = some .running)
    (val : IntPtr) : (s.schedFiberExit f val).Undisturbed f := by
  obtain ⟨u, -, -, -, hevents, heq⟩ := schedFiberExit_eq_coroTransfer s f val
  obtain ⟨fib, hfib, -⟩ := Option.map_eq_some_iff.mp ((ctxs_getElem? s f).symm.trans hctx)
  refine undisturbed_of_idle .exited ?_ (by simp) ?_
  · rw [ctxs_schedFiberExit, List.getElem?_modify_eq, hctx]
    rfl
  · intro e ev he hev
    rw [heq, events_coroTransfer, hevents fib hfib, List.getElem?_modify] at he
    obtain ⟨ev', he', rfl⟩ := Option.map_eq_some_iff.mp he
    have hfib' : ev'.fib = f := by
      split at hev
      · exact hev
      · exact hev
    have hidle := h.idle (by simp [hctx]) (by simp [hctx]) .exited he' hfib'
    split
    · exact ⟨hidle.1, hidle.2.1, fun _ => rfl, hidle.2.2.2⟩
    · exact hidle

/-- A fiber that waits for the event `e`, and for no other one. -/
theorem undisturbed_of_awaits (ht : t.Cached) {c : Call} (hctx : t.ctxs[f]? = some (.suspended c))
    {e : ℕ} (hawaits : t.Awaits f e) {ev : Event}
    (he : t.events[e]? = some { ev with added := true }) (hev : ev.Idle .running)
    (hother : ∀ (i : ℕ) (ev : Event), i ≠ e → t.events[i]? = some ev → ev.fib = f →
      ev.Idle .running)
    (hslot : ∀ v fd flag, t.views[f]? = some v → c = .event fd flag →
      v.op.opType = .event ∧ v.op.ret = 0) : t.Undisturbed f := by
  have hquiet : ∀ (i : ℕ) (ev' : Event), t.events[i]? = some ev' → ev'.fib = f →
      ev'.timer = false ∧ ev'.active = false ∧ ¬ ev'.freed = true := by
    intro i ev' hi hfib
    by_cases hie : i = e
    · subst hie
      obtain rfl := Option.some.inj (he.symm.trans hi)
      refine ⟨hev.1, hev.2.1, ?_⟩
      intro hfreed
      cases hev.2.2.1 hfreed
    · have hidle := hother i ev' hie hi hfib
      refine ⟨hidle.1, hidle.2.1, ?_⟩
      intro hfreed
      cases hidle.2.2.1 hfreed
  constructor
  · intro i ev' hi hfib
    exact ⟨(hquiet i ev' hi hfib).1, (hquiet i ev' hi hfib).2.1⟩
  · intro i ev' hi hfib hfreed
    exact absurd hfreed (hquiet i ev' hi hfib).2.2
  · intro i
    constructor
    · rintro ⟨ev', hi, hfib, hwhat, hadded⟩
      by_cases hie : i = e
      · exact hie ▸ hawaits
      · rw [(hother i ev' hie hi hfib).2.2.2 hwhat] at hadded
        cases hadded
    · intro hi
      obtain rfl := Sched.Awaits.unique ht hawaits hi
      obtain ⟨_, _, d, -, -, hbind⟩ := hawaits
      obtain ⟨ev', hfib, he', -, hwhat⟩ := binding_eq_some_iff.mp hbind
      obtain rfl := Option.some.inj (he.symm.trans he')
      exact ⟨_, he, hfib, Option.isSome_of_eq_some hwhat, rfl⟩
  · intro c' hc'
    exact ⟨e, hawaits⟩
  · intro v fd flag hv hsusp
    have hsame := Option.some.inj (hctx.symm.trans (ctxs_of_views hv))
    exact hslot v fd flag hv (FibCtx.suspended.inj (hsame.trans hsusp))

theorem undisturbed_call (h : s.Undisturbed f) (hstack : s.Stacked) (hs : s.Cached)
    (hcur : s.current = some f) {c : Call} {fd : Fd} {d : Direction} (hc : c.arms = [(fd, d)]) :
    (s.async f c).Undisturbed f := by
  have hrunning : s.ctxs[f]? = some .running := hstack.running_of_current hcur
  have hidle : ∀ {i : ℕ} {ev : Event}, s.events[i]? = some ev → ev.fib = f → ev.Idle .running :=
    fun he hfib => h.idle (by simp [hrunning]) (by simp [hrunning]) _ he hfib
  obtain ⟨e, ev, hev, hold, hfib, hfd, hwhat, hother⟩ := arm_spec hs f fd d
  have hcached : (s.async f c).Cached :=
    (same_async c).cached (cached_armAll hs (hstack.lt_of_current hcur) c.arms).1
  have hctx : (s.async f c).ctxs[f]? = some (.suspended c) := by
    rw [ctxs_async, List.getElem?_modify_eq, hrunning]
    rfl
  have hbound : (s.async f c).binding e = some (f, fd, some d) := by
    rw [Sched.binding, events_async hc, hev]
    simp [hfib, hfd, hwhat]
  have hnew : ev.Idle .running := by
    rcases hold with hold | rfl
    · exact hidle hold hfib
    · simp [Event.Idle]
  apply undisturbed_of_awaits hcached hctx ⟨c, fd, d, hctx, hc, hbound⟩ _ hnew
  · intro i ev' hi he' hfib'
    rw [events_async hc, hother i hi] at he'
    exact hidle he' hfib'
  · rintro v fd' flag hv rfl
    rw [views_asyncEvent, List.getElem?_modify_eq] at hv
    obtain ⟨v', -, rfl⟩ := Option.map_eq_some_iff.mp hv
    exact ⟨rfl, rfl⟩
  · rw [events_async hc, hev]

/-- What can be dispatched to the fiber is the event that its call waits for. -/
theorem Sched.Undisturbed.fires_iff (h : s.Undisturbed f) {e : ℕ} {ev : Event}
    (he : s.events[e]? = some ev) (hfib : ev.fib = f) (how : Firing) :
    ev.fires how = true ↔ how = .ready ∧ s.Awaits f e := by
  obtain ⟨htimer, hactive⟩ := h.quiet e ev he hfib
  rw [← h.armed]
  constructor
  · intro hfires
    cases how with
    | ready =>
      simp only [Event.fires, Bool.and_eq_true] at hfires
      exact ⟨rfl, ev, he, hfib, hfires.1.2, hfires.1.1⟩
    | timeout => simp [Event.fires, htimer] at hfires
    | active => simp [Event.fires, hactive] at hfires
  · rintro ⟨rfl, harmed⟩
    obtain ⟨c, -, -, hc, -⟩ := (h.armed e).mp harmed
    obtain ⟨ev', he', -, hwhat, hadded⟩ := harmed
    obtain rfl := Option.some.inj (he.symm.trans he')
    have hfreed : ev.freed = false := by
      rw [Bool.eq_false_iff]
      intro hfreed
      exact absurd (hc.symm.trans (h.kept e ev he hfib hfreed)) (by simp)
    simp [Event.fires, hwhat, hadded, hfreed]

theorem perform_of_waiting (h : s.Undisturbed f) (hrec : s.Recorded) {fib : Fiber}
    (hfiber : s.fibers[f]? = some fib) {c : Call} (hsusp : fib.fibCtx = .suspended c) {fd : Fd}
    {d : Direction} (harms : c.arms = [(fd, d)]) (r : IntPtr) :
    Resume.Blocking ⟨f, c, ((fib.fibOp.perform d.flag r).2.map (·, r)).toList,
      t.returned c (fib.fibOp.perform d.flag r).1⟩ := by
  have hview : s.views[f]? = some fib.view := by rw [Sched.views, List.getElem?_map, hfiber]; rfl
  refine ⟨fd, d, harms, ?_⟩
  cases hcall : c.recorded with
  | some x =>
    obtain ⟨d', sc⟩ := x
    obtain ⟨fd', harms'⟩ := arms_of_recorded hcall
    obtain ⟨rfl, rfl⟩ := Prod.mk.inj (List.cons.inj (harms.symm.trans harms')).1
    have hslot : fib.fibOp.syscall = some (d, sc) :=
      hrec fib.view (List.mem_of_getElem? hview) c (d, sc) hsusp hcall
    simp only [Operation.perform_own hslot, Sched.returned_of_recorded hcall]
    rfl
  | none =>
    obtain ⟨fd', flag, rfl⟩ := event_of_arms harms hcall
    obtain ⟨hop, hret⟩ := h.slot fib.view fd' flag hview hsusp
    have hop' : fib.fibOp.opType = .event := hop
    have hret' : fib.fibOp.ret = 0 := hret
    cases d <;>
      simp [Operation.perform, Direction.flag, Sched.returned, evRead, evWrite, hop', hret']

/-- The dispatch has resumed the fiber from the call `x`, and the fiber now runs. -/
structure Resumed (s t : Sched) (f : ℕ) (r : IntPtr) (x : Resume) : Prop where
  resumes : t.resumes = s.resumes ++ [x]
  waiting : s.ctxs[f]? = some (.suspended x.call)
  current : t.current = some f
  result : ∀ y ∈ x.executed, y.2 = r
  blocking : x.Blocking

theorem undisturbed_dispatch (h : s.Undisturbed f) (hs : s.Cached) (hrec : s.Recorded) {e : ℕ}
    {how : Firing} {r : IntPtr} (hown : s.owner e = some f)
    (hstep : s.schedDispatch e how r = some t) :
    t.Undisturbed f ∧ ∃ x, Resumed s t f r x := by
  obtain ⟨ev, fib, he, hfires, hfiber, p, u, hp, rfl, ht⟩ := schedDispatch_cases hstep
  have hfib : ev.fib = f := by
    rw [Sched.owner, he] at hown
    exact Option.some.inj hown
  rw [hfib] at hfiber ht
  obtain ⟨rfl, c, fd, d, hc, harms, hbind⟩ := (h.fires_iff he hfib how).mp hfires
  have hsusp : fib.fibCtx = .suspended c := by
    rw [ctxs_getElem?, hfiber] at hc
    exact Option.some.inj hc
  have hflag : ev.flag .ready = d.flag := by
    obtain ⟨ev', -, he', -, hwhat⟩ := binding_eq_some_iff.mp hbind
    obtain rfl := Option.some.inj (he.symm.trans he')
    simp [Event.flag, hwhat]
  rw [hflag] at hp
  rcases ht with ⟨hcreated, -⟩ | ⟨c', hsusp', rfl⟩ | ⟨hnone, -⟩
  · exact absurd (hcreated.symm.trans hsusp) (by simp)
  · obtain rfl := FibCtx.suspended.inj (hsusp.symm.trans hsusp')
    constructor
    · apply undisturbed_of_idle .running
      · show (((s.consume e).modifyOp f fun _ => p.1).activate f .dispatch).ctxs[f]? = _
        rw [ctxs_dispatched, List.getElem?_modify_eq, hc]
        rfl
      · simp
      · intro i ev' hi hfib'
        have hi' : (s.events.modify e fun ev =>
            { ev with added := false, timer := false, active := false })[i]? = some ev' := hi
        rw [List.getElem?_modify] at hi'
        obtain ⟨ev₀, hev₀, rfl⟩ := Option.map_eq_some_iff.mp hi'
        have hfib₀ : ev₀.fib = f := by
          split at hfib'
          · exact hfib'
          · exact hfib'
        have hfreed : ev₀.freed = true → FibCtx.running = .exited := fun hfreed =>
          absurd (hc.symm.trans (h.kept i ev₀ hev₀ hfib₀ hfreed)) (by simp)
        obtain ⟨htimer, hactive⟩ := h.quiet i ev₀ hev₀ hfib₀
        split
        · exact ⟨rfl, rfl, hfreed, fun _ => rfl⟩
        · rename_i hne
          refine ⟨htimer, hactive, hfreed, fun hwhat => ?_⟩
          by_contra hadded
          have hawaits := (h.armed i).mp ⟨ev₀, hev₀, hfib₀, hwhat, by simpa using hadded⟩
          exact hne (hawaits.unique hs ⟨c, fd, d, hc, harms, hbind⟩)
    · refine ⟨_, rfl, hc, rfl, ?_, ?_⟩
      · intro y hy
        obtain ⟨sc, -, rfl⟩ := Option.map_eq_some_iff.mp (Option.mem_toList.mp hy)
        rfl
      · rw [hp]
        exact perform_of_waiting h hrec hfiber hsusp harms r
  · exact absurd hsusp (hnone c)

end Steps

/-! ## Whole runs -/

section Runs

variable {s t : Sched} {f : ℕ} {l : Label} {ls : List Label}

theorem unwoken_of_not_touched (h : f ∉ touched s l) : Unwoken f s l := by
  cases l with
  | wake g | delete g => exact fun heq => h (List.mem_singleton.mpr heq.symm)
  | call c =>
    constructor
    · rintro data rfl
      exact h List.mem_cons_self
    · intro hcur
      exact absurd (by cases c <;> simp [touched, hcur]) h
  | newFiber | launch | exit | dispatch => trivial

structure Sched.Served (s : Sched) (f : ℕ) : Prop where
  owned : s.Owned
  stacked : s.Stacked
  cached : s.Cached
  recorded : s.Recorded
  undisturbed : s.Undisturbed f
  blocking : ∀ x ∈ s.resumes, x.fib = f → x.Blocking

theorem blocking_of_resumes (h : s.Served f) (ht : t.resumes = s.resumes) :
    ∀ x ∈ t.resumes, x.fib = f → x.Blocking := by
  rw [ht]
  exact h.blocking

theorem undisturbed_step (h : s.Served f) (hl : Unwoken f s l) (hstep : step s l = some t) :
    t.Undisturbed f ∧ ∀ x ∈ t.resumes, x.fib = f → x.Blocking := by
  by_cases htouch : f ∈ touched s l
  · have hinv := (step_inv hstep).2
    cases l with
    | newFiber =>
      rw [hinv]
      exact ⟨undisturbed_newFiber h.undisturbed (List.mem_singleton.mp htouch), h.blocking⟩
    | launch g =>
      obtain ⟨hcreated, rfl⟩ := hinv
      obtain rfl := List.mem_singleton.mp htouch
      have hctx := (ctxs_getElem? s f).trans hcreated
      exact ⟨undisturbed_launch h.undisturbed hctx _, h.blocking⟩
    | call c =>
      obtain ⟨g, hcur, rfl⟩ := hinv
      have hf : g = f := by
        cases c with
        | continueWith i data =>
          simp only [touched, hcur, Option.toList_some, List.mem_cons, List.not_mem_nil,
            or_false] at htouch
          rcases htouch with rfl | rfl
          · exact absurd rfl (hl.1 data)
          · rfl
        | _ => simpa [touched, hcur, eq_comm] using htouch
      subst hf
      obtain ⟨⟨fd, d⟩, harms⟩ := hl.2 hcur
      exact ⟨undisturbed_call h.undisturbed h.stacked h.cached hcur harms,
        blocking_of_resumes h (resumes_async c)⟩
    | wake g => exact absurd (List.mem_singleton.mp htouch).symm hl
    | delete g => exact absurd (List.mem_singleton.mp htouch).symm hl
    | exit val =>
      obtain ⟨g, hcur, rfl⟩ := hinv
      obtain rfl : g = f := by simpa [touched, hcur, eq_comm] using htouch
      have hres := resumes_step (by simp) hstep
      exact ⟨undisturbed_exit h.undisturbed (h.stacked.running_of_current hcur) val,
        blocking_of_resumes h hres⟩
    | dispatch e how r =>
      obtain ⟨hund, x, hx⟩ := undisturbed_dispatch h.undisturbed h.cached h.recorded
        (Option.mem_toList.mp htouch) hinv.2
      refine ⟨hund, fun y hy hfib => ?_⟩
      rw [hx.resumes, List.mem_append, List.mem_singleton] at hy
      rcases hy with hy | rfl
      · exact h.blocking y hy hfib
      · exact hx.blocking
  · have hwithin := within_step h.owned hstep
    refine ⟨h.undisturbed.agree (hwithin.agree f htouch), fun x hx hfib => ?_⟩
    obtain ⟨xs, hxs, hfs⟩ := hwithin.resumes
    rw [hxs, List.mem_append] at hx
    rcases hx with hx | hx
    · exact h.blocking x hx hfib
    · exact absurd (hfib ▸ hfs x hx) htouch

theorem served_step (h : s.Served f) (hl : Unwoken f s l) (hstep : step s l = some t) :
    t.Served f := by
  obtain ⟨hund, hblock⟩ := undisturbed_step h hl hstep
  exact ⟨(within_step h.owned hstep).owned, stacked_step h.stacked hstep,
    cached_step h.stacked h.cached hstep, recorded_step h.recorded hstep, hund, hblock⟩

theorem served_init (f : ℕ) : ({} : Sched).Served f := by
  refine ⟨owned_init, stacked_init, cached_init, recorded_init, ?_, ?_⟩
  · constructor <;> simp [Sched.Armed, Sched.Awaits, Sched.ctxs, Sched.views]
  · intro x hx
    cases hx

theorem served_of_run (h : Along step (Unwoken f) {} ls) (hrun : Run step {} ls s) :
    s.Served f :=
  (throughout_of_along (fun _ _ _ hs hl hstep => served_step hs hl hstep) (served_init f) h).last
    hrun

theorem mem_waiting_iff {c : Call} : c ∈ s.waiting f ↔ s.ctxs[f]? = some (.suspended c) := by
  unfold Sched.waiting waitingIn
  split
  · rename_i c' hc'
    rw [hc', List.mem_singleton, Option.some.injEq, FibCtx.suspended.injEq, eq_comm]
  · rename_i hnot
    simp only [List.not_mem_nil, false_iff]
    exact hnot c

/--
In every run in which nobody wakes or deletes a fiber and each of its calls waits for one event,
whatever the other fibers do: its calls return in the order in which it makes them, each with
the result of its own system call, which was made exactly once, or with the readiness it
has asked for. While it waits in a call exactly one of its events can be dispatched, and
for no other reason than that the call's descriptor is ready; otherwise none can be.
-/
theorem unwoken_calls_block (h : Along step (Unwoken f) {} ls) (hrun : Run step {} ls s) :
    callsMade f {} ls = (s.completed f).map (·.call) ++ s.waiting f ∧
      (∀ x ∈ s.completed f, x.Blocking) ∧
      (∀ (e : ℕ) (ev : Event) (how : Firing), s.events[e]? = some ev → ev.fib = f →
        (ev.fires how = true ↔ how = .ready ∧ ∃ c ∈ s.waiting f, ∃ d,
          c.arms = [(ev.fd, d)] ∧ ev.what = some d)) ∧
      ∀ c ∈ s.waiting f, ∃! e : ℕ, ∃ ev : Event, s.events[e]? = some ev ∧ ev.fib = f ∧
        ev.fires .ready = true := by
  have hs := served_of_run h hrun
  refine ⟨callsMade_of_run hrun f, ?_, ?_, ?_⟩
  · intro x hx
    obtain ⟨hmem, hfib⟩ := List.mem_filter.mp hx
    exact hs.blocking x hmem (of_decide_eq_true hfib)
  · intro e ev how he hfib
    rw [hs.undisturbed.fires_iff he hfib]
    refine and_congr_right fun _ => ?_
    constructor
    · rintro ⟨c, fd, d, hc, harms, hbind⟩
      obtain ⟨ev', -, he', hfd, hwhat⟩ := binding_eq_some_iff.mp hbind
      obtain rfl := Option.some.inj (he.symm.trans he')
      exact ⟨c, mem_waiting_iff.mpr hc, d, hfd ▸ harms, hwhat⟩
    · rintro ⟨c, hc, d, harms, hwhat⟩
      exact ⟨c, ev.fd, d, mem_waiting_iff.mp hc, harms,
        binding_eq_some_iff.mpr ⟨ev, hfib, he, rfl, hwhat⟩⟩
  · intro c hc
    obtain ⟨e, hawaits⟩ := hs.undisturbed.waits c (mem_waiting_iff.mp hc)
    have hevent : ∃ ev : Event, s.events[e]? = some ev ∧ ev.fib = f := by
      obtain ⟨_, _, _, -, -, hbind⟩ := hawaits
      obtain ⟨ev, hfib, he, -⟩ := binding_eq_some_iff.mp hbind
      exact ⟨ev, he, hfib⟩
    obtain ⟨ev, he, hfib⟩ := hevent
    refine ⟨e, ⟨ev, he, hfib, (hs.undisturbed.fires_iff he hfib _).mpr ⟨rfl, hawaits⟩⟩, ?_⟩
    rintro i ⟨ev', hi, hfib', hfires⟩
    exact hawaits.unique hs.cached ((hs.undisturbed.fires_iff hi hfib' _).mp hfires).2

/-- The fiber 1 is woken while the fiber 0 waits for a datagram. -/
theorem unwoken_calls_block_recvfrom :
    let ls : List Label := [.newFiber, .newFiber, .launch 1, .call (.yield 0), .launch 0,
      .call (.recvfrom 5 16 2 2 32 48), .wake 1, .dispatch 2 .ready 2]
    ∃ s, Run step {} ls s ∧ s.completed 0 ≠ [] ∧ ∀ x ∈ s.completed 0, x.Blocking := by
  intro ls
  have hrun : Run step {} ls _ := .cons rfl (.cons rfl (.cons rfl (.cons rfl (.cons rfl
    (.cons rfl (.cons rfl (.cons rfl (.nil _))))))))
  have hunwoken : Along step (Unwoken 0) {} ls := by
    refine (along_cons_iff rfl).mpr ⟨trivial, (along_cons_iff rfl).mpr ⟨trivial, ?_⟩⟩
    refine (along_cons_iff rfl).mpr ⟨trivial, (along_cons_iff rfl).mpr ⟨⟨?_, ?_⟩, ?_⟩⟩
    · simp
    · rintro ⟨⟩
    refine (along_cons_iff rfl).mpr ⟨trivial, (along_cons_iff rfl).mpr ⟨⟨?_, ?_⟩, ?_⟩⟩
    · simp
    · exact fun _ => ⟨_, rfl⟩
    refine (along_cons_iff rfl).mpr ⟨Nat.one_ne_zero, ?_⟩
    exact (along_cons_iff rfl).mpr ⟨trivial, trivial⟩
  exact ⟨_, hrun, by simp [Sched.completed], (unwoken_calls_block hunwoken hrun).2.1⟩

end Runs

end Tnetacle.Fibers
