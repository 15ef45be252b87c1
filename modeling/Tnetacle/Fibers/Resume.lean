import Tnetacle.Fibers.Sched
import Tnetacle.Library.Run

/-! # What a resumed fiber finds in its slot

A fiber that waits in a call with a system call is resumed by whichever of its
events is dispatched first. The resumption is faithful when the recorded system
call was made once and its result is what the call returns. Along a run this
holds of every resumption exactly when no event is dispatched to a waiting fiber
with another flag than the one its call waits for.
-/

namespace Tnetacle.Fibers

open Runs

def Operation.syscall (op : Operation) : Option (Direction × Syscall) :=
  match op.opType with
  | .accept => some (.read, .accept op.arg1 op.arg2 op.arg3)
  | .recvfrom => some (.read, .recvfrom op.arg1 op.arg2 op.arg3 op.arg4 op.arg5 op.arg6)
  | .recv => some (.read, .recv op.arg1 op.arg2 op.arg3 op.arg4)
  | .read => some (.read, .read op.arg1 op.arg2 op.arg3)
  | .send => some (.write, .send op.arg1 op.arg2 op.arg3 op.arg4)
  | .sendto => some (.write, .sendto op.arg1 op.arg2 op.arg3 op.arg4 op.arg5 op.arg6)
  | .write => some (.write, .write op.arg1 op.arg2 op.arg3)
  | _ => none

/--
The system call that a call records in the slot. It is `send` for `async_sendto`,
which stores its request under that operation.
-/
def Call.recorded : Call → Option (Direction × Syscall)
  | .recvfrom fd buf len flag sock socklen => some (.read, .recvfrom fd buf len flag sock socklen)
  | .accept fd sock socklen => some (.read, .accept fd sock socklen)
  | .recv fd buf len flags => some (.read, .recv fd buf len flags)
  | .read fd buf len => some (.read, .read fd buf len)
  | .send fd buf len flags | .sendto fd buf len flags _ _ =>
      some (.write, .send fd buf len flags)
  | .write fd buf len => some (.write, .write fd buf len)
  | .event .. | .sleep _ | .yield _ | .continueWith .. => none

/-- The recorded system call was made exactly once and its result is returned. -/
def Resume.Faithful (x : Resume) : Prop :=
  ∀ d sc, x.call.recorded = some (d, sc) → ∃ r, x.executed = [(sc, r)] ∧ x.ret = r

def Sched.AllFaithful (s : Sched) : Prop := ∀ x ∈ s.resumes, x.Faithful

/--
An event is dispatched to a fiber that waits for a system call only with the flag
the call waits for: no wake, no timeout and no event of the other direction.
-/
def OwnReadiness (s : Sched) : Label → Prop
  | .dispatch e how _ => ∀ ev fib c d sc, s.events[e]? = some ev → s.fibers[ev.fib]? = some fib →
      fib.fibCtx = .suspended c → c.recorded = some (d, sc) → ev.flag how = d.flag
  | _ => True

section Perform

variable {op : Operation} {d : Direction} {sc : Syscall} {r : IntPtr}

theorem Operation.perform_own (h : op.syscall = some (d, sc)) :
    op.perform d.flag r = ({ op with ret := r }, some sc) := by
  unfold Operation.syscall at h
  split at h <;> simp only [Option.some.injEq, Prod.mk.injEq, reduceCtorEq] at h
  all_goals
    obtain ⟨rfl, rfl⟩ := h
    simp_all [Operation.perform, Direction.flag, evRead, evWrite]

theorem Operation.perform_timeout (h : op.syscall = some (d, sc)) :
    (op.perform evTimeout r).2 = none := by
  unfold Operation.syscall at h
  split at h <;> simp_all [Operation.perform, evRead, evWrite, evTimeout]

theorem Operation.perform_other {d' : Direction} (h : op.syscall = some (d, sc)) (hne : d' ≠ d) :
    (op.perform d'.flag r).2 = none := by
  unfold Operation.syscall at h
  split at h <;> simp only [Option.some.injEq, Prod.mk.injEq, reduceCtorEq] at h
  all_goals
    obtain ⟨rfl, rfl⟩ := h
    cases d' <;> simp_all [Operation.perform, Direction.flag, evRead, evWrite]

/-- The flags a callback can be run with. -/
theorem Event.flag_cases {ev : Event} {how : Firing} (h : ev.fires how = true) :
    ev.flag how = evTimeout ∨ ∃ d, ev.flag how = Direction.flag d := by
  cases how with
  | timeout | active => exact Or.inl rfl
  | ready =>
    simp only [Event.fires, Bool.and_eq_true, Option.isSome_iff_exists] at h
    obtain ⟨⟨_, d, hd⟩, _⟩ := h
    exact Or.inr ⟨d, by simp [Event.flag, hd]⟩

theorem Operation.perform_executed {ev : Event} {how : Firing}
    (h : op.syscall = some (d, sc)) (hf : ev.fires how = true) :
    (∃ r', ((op.perform (ev.flag how) r).2.map (·, r)).toList = [(sc, r')] ∧
      (op.perform (ev.flag how) r).1.ret = r') ↔ ev.flag how = d.flag := by
  constructor
  · rintro ⟨r', he, _⟩
    by_contra hne
    rcases Event.flag_cases hf with ht | ⟨d', hd'⟩
    · rw [ht, Operation.perform_timeout h] at he
      simp at he
    · have hdd : d' ≠ d := fun e => hne (e ▸ hd')
      rw [hd', Operation.perform_other h hdd] at he
      simp at he
  · intro hflag
    rw [hflag, Operation.perform_own h]
    exact ⟨r, rfl, rfl⟩

end Perform

/-! ## The slot of a waiting fiber -/

structure View where
  ctx : FibCtx
  op : Operation

def Fiber.view (fib : Fiber) : View := ⟨fib.fibCtx, fib.fibOp⟩

def Sched.views (s : Sched) : List View := s.fibers.map Fiber.view

/-- The slot of a fiber that waits in `c` still holds the request `c` recorded. -/
def View.Recorded (v : View) : Prop :=
  ∀ c x, v.ctx = .suspended c → c.recorded = some x → v.op.syscall = some x

def Sched.Recorded (s : Sched) : Prop := ∀ v ∈ s.views, v.Recorded

theorem map_modify {α β : Type*} {v : α → β} {g : α → α} {h : β → β}
    (hg : ∀ a, v (g a) = h (v a)) (l : List α) (i : ℕ) :
    (l.modify i g).map v = (l.map v).modify i h := by
  apply List.ext_getElem?
  intro j
  simp only [List.getElem?_map, List.getElem?_modify]
  cases l[j]? with
  | none => rfl
  | some a => by_cases hij : i = j <;> simp [hij, hg]

section Views

variable (s : Sched) (f : ℕ)

theorem views_modifyFiber {g : Fiber → Fiber} {h : View → View}
    (hg : ∀ fib, (g fib).view = h fib.view) :
    (s.modifyFiber f g).views = s.views.modify f h :=
  map_modify hg s.fibers f

theorem views_modifyFiber_id {g : Fiber → Fiber} (hg : ∀ fib, (g fib).view = fib.view) :
    (s.modifyFiber f g).views = s.views := by
  rw [views_modifyFiber s f (h := id) hg, List.modify_id]

@[simp] theorem views_modifyOp (g : Operation → Operation) :
    (s.modifyOp f g).views = s.views.modify f fun v => { v with op := g v.op } :=
  views_modifyFiber s f fun _ => rfl

@[simp] theorem views_modifyEvent (e : ℕ) (g : Event → Event) :
    (s.modifyEvent e g).views = s.views := rfl

@[simp] theorem views_eventActive (e : ℕ) : (s.eventActive e).views = s.views := by
  unfold Sched.eventActive
  repeat' split
  all_goals rfl

@[simp] theorem views_asyncWake : (s.asyncWake f).views = s.views := by
  unfold Sched.asyncWake
  split
  · exact views_eventActive s _
  · rfl

@[simp] theorem views_getEvents (fd : Fd) (d : Direction) :
    (s.getEvents f fd d).2.views = s.views := by
  unfold Sched.getEvents
  simp only
  repeat' split
  all_goals first | rfl | exact views_modifyFiber_id _ f fun _ => rfl

@[simp] theorem views_arm (fd : Fd) (d : Direction) : (s.arm f fd d).views = s.views := by
  unfold Sched.arm
  split
  · exact views_getEvents s f fd d
  · rfl

@[simp] theorem views_resumed (a : Activation) (rest : List Activation) :
    (s.resumed a rest).views = s.views := by
  unfold Sched.resumed
  exact views_modifyFiber_id _ _ fun fib => by split <;> rfl

@[simp] theorem views_coroTransfer (c : FibCtx) :
    (s.coroTransfer f c).views = s.views.modify f fun v => { v with ctx := c } := by
  have h : (s.modifyFiber f fun fib => { fib with fibCtx := c }).views =
      s.views.modify f fun v => { v with ctx := c } := views_modifyFiber s f fun _ => rfl
  unfold Sched.coroTransfer
  simp only
  repeat' split
  all_goals first | exact h | exact (views_resumed _ _ _).trans h

@[simp] theorem views_activate (r : Resumer) :
    (s.activate f r).views = s.views.modify f fun v => { v with ctx := .running } :=
  views_modifyFiber _ f fun _ => rfl

theorem views_asyncIo (d : Direction) (fd : Fd) (c : Call) (store : Operation → Operation) :
    (s.asyncIo f d fd c store).views =
      s.views.modify f fun v => ⟨.suspended c, store v.op⟩ := by
  simp only [Sched.asyncIo, views_coroTransfer, views_modifyOp, views_arm, List.modify_modify_eq]
  rfl

end Views

theorem View.recorded_of_none {v : View} (hv : ∀ c, v.ctx = .suspended c → c.recorded = none) :
    v.Recorded := by
  intro c x h hx
  rw [hv c h] at hx
  cases hx

def Sched.RecordedBut (s : Sched) (f : ℕ) : Prop :=
  ∀ i v, s.views[i]? = some v → i ≠ f → v.Recorded

section Steps

variable {s t : Sched} {f : ℕ}

theorem Sched.Recorded.but (h : s.Recorded) (f : ℕ) : s.RecordedBut f :=
  fun _ _ hv _ => h _ (List.mem_of_getElem? hv)

theorem recordedBut_modifyOp_self (h : s.RecordedBut f) (g : Operation → Operation) :
    (s.modifyOp f g).RecordedBut f := by
  intro i v hv hi
  rw [views_modifyOp, List.getElem?_modify_ne _ _ hi.symm] at hv
  exact h i v hv hi

theorem recordedBut_modifyOp (h : s.RecordedBut f) (i : ℕ) {g : Operation → Operation}
    (hg : ∀ op, (g op).syscall = op.syscall) : (s.modifyOp i g).RecordedBut f := by
  intro j v hv hj
  rw [views_modifyOp, List.getElem?_modify] at hv
  obtain ⟨w, hw, rfl⟩ := Option.map_eq_some_iff.mp hv
  have hrec := h j w hw hj
  split
  · exact fun c x hc hx => (hg w.op).trans (hrec c x hc hx)
  · exact hrec

/-- A change to the view of `f` alone that leaves it recorded. -/
theorem recorded_modify {g : View → View} (h : s.RecordedBut f)
    (ht : t.views = s.views.modify f g)
    (hg : ∀ v, s.views[f]? = some v → (g v).Recorded) : t.Recorded := by
  intro v hv
  obtain ⟨i, hi⟩ := List.mem_iff_getElem?.mp hv
  rw [ht, List.getElem?_modify] at hi
  obtain ⟨w, hw, rfl⟩ := Option.map_eq_some_iff.mp hi
  by_cases hif : f = i
  · subst hif
    rw [if_pos rfl]
    exact hg w hw
  · rw [if_neg hif]
    exact h i w hw (Ne.symm hif)

/-- A transfer out of `f` in a context that waits for no system call. -/
theorem recorded_coroTransfer {ctx : FibCtx} (h : s.RecordedBut f)
    (hc : ∀ c, ctx = .suspended c → c.recorded = none) : (s.coroTransfer f ctx).Recorded :=
  recorded_modify h (views_coroTransfer s f ctx) fun _ _ => View.recorded_of_none hc

theorem recorded_asyncIo {d : Direction} {fd : Fd} {c : Call} {store : Operation → Operation}
    (h : s.Recorded) (hc : ∀ op, (store op).syscall = c.recorded) :
    (s.asyncIo f d fd c store).Recorded := by
  refine recorded_modify (h.but f) (views_asyncIo s f d fd c store) fun v _ c' x hv hx => ?_
  obtain rfl : c = c' := FibCtx.suspended.inj hv
  rw [hc, hx]

theorem recorded_of_views (ht : t.views = s.views) (h : s.Recorded) : t.Recorded := by
  unfold Sched.Recorded
  rw [ht]
  exact h

theorem recorded_arm_if (h : s.Recorded) (f : ℕ) (fd : Fd) (d : Direction) (b : Prop)
    [Decidable b] : (if b then s.arm f fd d else s).Recorded := by
  split
  · exact recorded_of_views (views_arm s f fd d) h
  · exact h

theorem recorded_async (h : s.Recorded) (c : Call) : (s.async f c).Recorded := by
  cases c with
  | recvfrom | accept | recv | send | read | write | sendto =>
    exact recorded_asyncIo h fun _ => rfl
  | event fd flag =>
    have harm := recorded_arm_if (recorded_arm_if h f fd .read (flag &&& evRead ≠ 0)) f fd .write
      (flag &&& evWrite ≠ 0)
    exact recorded_coroTransfer (recordedBut_modifyOp_self (harm.but f) _) fun c hc => by
      cases hc; rfl
  | sleep time =>
    refine recorded_coroTransfer ?_ fun c hc => by cases hc; rfl
    apply Sched.Recorded.but
    split
    · exact h
    · exact h
  | yield yielded =>
    exact recorded_coroTransfer (recordedBut_modifyOp_self (h.but f) _) fun c hc => by cases hc; rfl
  | continueWith g data =>
    refine recorded_coroTransfer ?_ fun c hc => by cases hc; rfl
    have hop : (s.modifyOp f fun op => { op with opType := .yield }).RecordedBut f :=
      recordedBut_modifyOp_self (h.but f) _
    intro i v hv hi
    rw [views_asyncWake] at hv
    refine recordedBut_modifyOp hop g ?_ i v hv hi
    exact fun _ => rfl

theorem recorded_schedFiberExit (h : s.Recorded) (val : IntPtr) :
    (s.schedFiberExit f val).Recorded := by
  refine recorded_coroTransfer ?_ fun c hc => by cases hc
  intro i v hv hi
  rw [views_modifyFiber (h := fun v => ⟨v.ctx, { v.op with opType := .free, arg1 := val }⟩) _ f
    (fun _ => rfl), List.getElem?_modify_ne _ _ hi.symm] at hv
  refine h v (List.mem_of_getElem? (i := i) ?_)
  rw [← hv]
  split <;> rfl

/-- Everything a dispatch can do. -/
theorem schedDispatch_cases {e : ℕ} {how : Firing} {r : IntPtr}
    (h : s.schedDispatch e how r = some t) :
    ∃ ev fib, s.events[e]? = some ev ∧ ev.fires how = true ∧ s.fibers[ev.fib]? = some fib ∧
      ∃ p u, p = fib.fibOp.perform (ev.flag how) r ∧
        u = (s.consume e).modifyOp ev.fib (fun _ => p.1) ∧
        ((fib.fibCtx = .created ∧ t = u.activate ev.fib .dispatch) ∨
        (∃ c, fib.fibCtx = .suspended c ∧ t = { u.activate ev.fib .dispatch with
          resumes := s.resumes ++ [⟨ev.fib, c, (p.2.map (·, r)).toList, u.returned c p.1⟩] }) ∨
        ((∀ c, fib.fibCtx ≠ .suspended c) ∧ t = { u with undef := true })) := by
  unfold Sched.schedDispatch at h
  split at h
  · cases h
  · rename_i ev hev
    split at h
    · rename_i hf
      simp only at h
      split at h
      · cases h
      · rename_i fib hfib
        refine ⟨ev, fib, hev, hf, hfib, _, _, rfl, rfl, ?_⟩
        split at h
        · rename_i hctx
          exact Or.inl ⟨hctx, (Option.some.inj h).symm⟩
        · rename_i c hctx
          exact Or.inr (Or.inl ⟨c, hctx, (Option.some.inj h).symm⟩)
        · rename_i _ hctx
          exact Or.inr (Or.inr ⟨hctx, (Option.some.inj h).symm⟩)
    · cases h

theorem recorded_schedDispatch {e : ℕ} {how : Firing} {r : IntPtr} (hs : s.Recorded)
    (h : s.schedDispatch e how r = some t) : t.Recorded := by
  obtain ⟨ev, fib, -, -, hfib, p, u, -, rfl, ht⟩ := schedDispatch_cases h
  have hc : (s.consume e).Recorded := recorded_of_views (views_modifyEvent s e _) hs
  have hu : ((s.consume e).modifyOp ev.fib fun _ => p.1).RecordedBut ev.fib :=
    recordedBut_modifyOp_self (hc.but _) _
  have hrun : (((s.consume e).modifyOp ev.fib fun _ => p.1).activate ev.fib .dispatch).Recorded :=
    recorded_modify hu (views_activate _ _ _) fun _ _ =>
      View.recorded_of_none fun c hc => by cases hc
  rcases ht with ⟨-, rfl⟩ | ⟨c, -, rfl⟩ | ⟨hctx, rfl⟩
  · exact hrun
  · exact hrun
  · refine recorded_modify (g := fun v => { v with op := p.1 }) (hc.but ev.fib)
      (views_modifyOp (s.consume e) ev.fib fun _ => p.1) fun v hv => ?_
    have hview : s.views[ev.fib]? = some fib.view := by simp [Sched.views, hfib]
    obtain rfl : fib.view = v := Option.some.inj (hview.symm.trans hv)
    exact View.recorded_of_none fun c hc => absurd hc (hctx c)

theorem step_inv {l : Label} (h : step s l = some t) : s.undef = false ∧
    match l with
    | .newFiber => t = s.schedNewFiber
    | .launch f => s.fibers[f]?.map (·.fibCtx) = some .created ∧ t = s.schedFiberLaunch f
    | .call c => ∃ f, s.current = some f ∧ t = s.async f c
    | .wake f => t = s.asyncWake f
    | .exit val => ∃ f, s.current = some f ∧ t = s.schedFiberExit f val
    | .delete f => t = s.schedFiberDelete f
    | .dispatch e how r => s.activations = [] ∧ s.schedDispatch e how r = some t := by
  unfold step at h
  split at h
  · cases h
  · refine ⟨by simpa using ‹¬ s.undef = true›, ?_⟩
    cases l with
    | newFiber | wake | delete => exact (Option.some.inj h).symm
    | launch | dispatch =>
      simp only [Option.ite_none_right_eq_some, Option.some.injEq] at h
      exact ⟨h.1, by simp [h.2]⟩
    | call | exit =>
      obtain ⟨f, hf, ht⟩ := Option.map_eq_some_iff.mp h
      exact ⟨f, hf, ht.symm⟩

theorem recorded_step {l : Label} (hs : s.Recorded) (h : step s l = some t) : t.Recorded := by
  obtain ⟨-, h⟩ := step_inv h
  cases l with
  | newFiber =>
    rw [h]
    intro v hv
    simp only [Sched.views, Sched.schedNewFiber, List.map_append, List.mem_append,
      List.map_cons, List.map_nil, List.mem_singleton] at hv
    rcases hv with hv | rfl
    · exact hs v hv
    · exact View.recorded_of_none fun c hc => by cases hc
  | launch f =>
    obtain ⟨-, rfl⟩ := h
    exact recorded_modify (hs.but f) (views_activate s f _) fun _ _ =>
      View.recorded_of_none fun c hc => by cases hc
  | call c =>
    obtain ⟨f, -, rfl⟩ := h
    exact recorded_async hs c
  | wake f =>
    rw [h]
    exact recorded_of_views (views_asyncWake s f) hs
  | exit val =>
    obtain ⟨f, -, rfl⟩ := h
    exact recorded_schedFiberExit hs val
  | delete f =>
    rw [h]
    exact recorded_of_views (views_modifyFiber_id s f fun _ => rfl) hs
  | dispatch e how r => exact recorded_schedDispatch hs h.2

@[simp] theorem resumes_eventActive (e : ℕ) : (s.eventActive e).resumes = s.resumes := by
  unfold Sched.eventActive
  repeat' split
  all_goals rfl

@[simp] theorem resumes_asyncWake : (s.asyncWake f).resumes = s.resumes := by
  unfold Sched.asyncWake
  split
  · exact resumes_eventActive _
  · rfl

@[simp] theorem resumes_arm (fd : Fd) (d : Direction) : (s.arm f fd d).resumes = s.resumes := by
  unfold Sched.arm Sched.getEvents
  simp only
  repeat' split
  all_goals rfl

@[simp] theorem resumes_coroTransfer (c : FibCtx) : (s.coroTransfer f c).resumes = s.resumes := by
  unfold Sched.coroTransfer
  simp only
  repeat' split
  all_goals rfl

@[simp] theorem resumes_modifyOp (g : Operation → Operation) :
    (s.modifyOp f g).resumes = s.resumes := rfl

theorem resumes_async (c : Call) : (s.async f c).resumes = s.resumes := by
  cases c with
  | recvfrom | accept | recv | send | read | write | sendto =>
    exact (resumes_coroTransfer _).trans (resumes_arm _ _)
  | event fd flag =>
    simp only [Sched.async, Sched.asyncEvent, resumes_coroTransfer, resumes_modifyOp]
    split <;> split <;> simp
  | sleep time =>
    refine (resumes_coroTransfer _).trans ?_
    split <;> rfl
  | yield yielded => exact resumes_coroTransfer _
  | continueWith g data => exact (resumes_coroTransfer _).trans resumes_asyncWake

theorem resumes_step {l : Label} (hl : ∀ e how r, l ≠ .dispatch e how r)
    (h : step s l = some t) : t.resumes = s.resumes := by
  obtain ⟨-, h⟩ := step_inv h
  cases l with
  | newFiber | delete =>
    rw [h]
    rfl
  | launch f =>
    obtain ⟨-, rfl⟩ := h
    rfl
  | call c =>
    obtain ⟨f, -, rfl⟩ := h
    exact resumes_async c
  | wake f =>
    rw [h]
    exact resumes_asyncWake
  | exit val =>
    obtain ⟨f, -, rfl⟩ := h
    refine (resumes_coroTransfer _).trans ?_
    cases s.fibers[f]? <;> rfl
  | dispatch e how r => exact absurd rfl (hl e how r)

end Steps

theorem Sched.returned_of_recorded {s : Sched} {c : Call} {op : Operation} {x : Direction × Syscall}
    (h : c.recorded = some x) : s.returned c op = op.ret := by
  cases c <;> first | rfl | cases h

theorem ownReadiness_dispatch_iff {s : Sched} {e : ℕ} {how : Firing} {r : IntPtr} {ev : Event}
    {fib : Fiber} (hev : s.events[e]? = some ev) (hfib : s.fibers[ev.fib]? = some fib) :
    OwnReadiness s (.dispatch e how r) ↔
      ∀ c d sc, fib.fibCtx = .suspended c → c.recorded = some (d, sc) → ev.flag how = d.flag := by
  constructor
  · exact fun h c d sc => h ev fib c d sc hev hfib
  · intro h ev' fib' c d sc hev' hfib'
    obtain rfl := Option.some.inj (hev.symm.trans hev')
    obtain rfl := Option.some.inj (hfib.symm.trans hfib')
    exact h c d sc

/-- A dispatch keeps all resumptions faithful exactly when it brings the fiber its own flag. -/
theorem allFaithful_dispatch_iff {s t : Sched} {e : ℕ} {how : Firing} {r : IntPtr}
    (hs : s.Recorded) (hall : s.AllFaithful) (h : s.schedDispatch e how r = some t) :
    t.AllFaithful ↔ OwnReadiness s (.dispatch e how r) := by
  obtain ⟨ev, fib, hev, hf, hfib, p, u, rfl, rfl, ht⟩ := schedDispatch_cases h
  rw [ownReadiness_dispatch_iff hev hfib]
  rcases ht with ⟨hctx, rfl⟩ | ⟨c, hctx, rfl⟩ | ⟨hctx, rfl⟩
  · exact ⟨fun _ c d sc hc => absurd (hctx.symm.trans hc) (by simp), fun _ => hall⟩
  · have hview : fib.view ∈ s.views :=
      List.mem_of_getElem? (i := ev.fib) (by simp [Sched.views, hfib])
    constructor
    · intro H c' d sc hc hrec
      obtain rfl := FibCtx.suspended.inj (hctx.symm.trans hc)
      have hx := H _ (List.mem_append_right _ (List.mem_singleton.mpr rfl)) d sc hrec
      simp only [Sched.returned_of_recorded hrec] at hx
      exact (Operation.perform_executed (hs _ hview c (d, sc) hctx hrec) hf).mp hx
    · intro H x hx
      rcases List.mem_append.mp hx with hx | hx
      · exact hall x hx
      · obtain rfl := List.mem_singleton.mp hx
        intro d sc hrec
        simp only [Sched.returned_of_recorded hrec]
        exact (Operation.perform_executed (hs _ hview c (d, sc) hctx hrec) hf).mpr
          (H c d sc hctx hrec)
  · exact ⟨fun _ c d sc hc => absurd hc (hctx c), fun _ => hall⟩

/-- A step keeps all resumptions faithful exactly when it brings no fiber a foreign flag. -/
theorem allFaithful_step_iff {s t : Sched} {l : Label} (hs : s.Recorded) (hall : s.AllFaithful)
    (h : step s l = some t) : t.AllFaithful ↔ OwnReadiness s l := by
  by_cases hl : ∃ e how r, l = .dispatch e how r
  · obtain ⟨e, how, r, rfl⟩ := hl
    exact allFaithful_dispatch_iff hs hall (step_inv h).2.2
  · push Not at hl
    have hres := resumes_step hl h
    refine ⟨fun _ => ?_, fun _ x hx => hall x (hres ▸ hx)⟩
    cases l <;> first | trivial | exact absurd rfl (hl _ _ _)

theorem recorded_init : ({} : Sched).Recorded := fun v hv => by cases hv

theorem allFaithful_init : ({} : Sched).AllFaithful := fun x hx => by cases hx

/--
In every run of any set of fibers, from a scheduler without any, all resumptions
of waiting fibers are faithful if and only if every event dispatched to a waiting
fiber carries the flag its call waits for.
-/
theorem resumed_faithfully_iff (ls : List Label) :
    Throughout step Sched.AllFaithful {} ls ↔ Along step OwnReadiness {} ls :=
  throughout_iff_along (I := Sched.Recorded) (fun _ _ _ hs h => recorded_step hs h)
    (fun _ _ _ hs hall h => allFaithful_step_iff hs hall h) recorded_init allFaithful_init

/--
A wake reaches a fiber that waits in `async_sendto`, as the device fiber sends it to the
broadcaster: the call returns although nothing has been sent. A fiber that has waited for
both directions of a descriptor and then calls `async_recv` is resumed by the write
event that was left armed, and the call returns although nothing has been received.
-/
theorem stale_resumptions :
    (¬ Throughout step Sched.AllFaithful {} [.newFiber, .launch 0,
      .call (.sendto 5 16 100 0 32 16), .wake 0, .dispatch 0 .active 0]) ∧
    ¬ Throughout step Sched.AllFaithful {} [.newFiber, .launch 0,
      .call (.event 5 (evRead ||| evWrite)), .dispatch 1 .ready 0, .call (.recv 5 16 100 0),
      .dispatch 2 .ready 0] := by
  constructor
  · intro h
    have hlast := h.last (.cons rfl (.cons rfl (.cons rfl (.cons rfl (.cons rfl (.nil _))))))
    obtain ⟨r, hr, -⟩ := hlast ⟨0, .sendto 5 16 100 0 32 16, [], 0⟩
      (List.mem_singleton.mpr rfl) _ _ rfl
    cases hr
  · intro h
    have hlast := h.last (.cons rfl (.cons rfl (.cons rfl (.cons rfl (.cons rfl (.cons rfl
      (.nil _)))))))
    obtain ⟨r, hr, -⟩ := hlast ⟨0, .recv 5 16 100 0, [], 2⟩
      (List.mem_append_right _ (List.mem_singleton.mpr rfl)) _ _ rfl
    cases hr

end Tnetacle.Fibers
