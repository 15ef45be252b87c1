import Tnetacle.Fibers.Resume

/-! # What a step of a fiber can touch

Every event belongs to one fiber, and the events that a fiber refers to, its yield event
and those in its map, are its own. A step therefore touches the fibers that it names or
that it runs, and leaves every other fiber and its events as they are.
-/

namespace Tnetacle.Fibers

open Runs

def Sched.owner (s : Sched) (e : ℕ) : Option ℕ := s.events[e]?.map (·.fib)

def Fiber.Refers (fib : Fiber) (e : ℕ) : Prop :=
  e = fib.yieldEvent ∨ ∃ fd t d, fib.mapFe fd = some t ∧ t.get d = some e

def Sched.Owned (s : Sched) : Prop :=
  ∀ f fib e, s.fibers[f]? = some fib → fib.Refers e → s.owner e = some f

structure Agree (f : ℕ) (s t : Sched) : Prop where
  fiber : t.fibers[f]? = s.fibers[f]?
  events : ∀ e, t.owner e = some f ∨ s.owner e = some f → t.events[e]? = s.events[e]?

def touched (s : Sched) : Label → List ℕ
  | .newFiber => [s.fibers.length]
  | .launch f | .wake f | .delete f => [f]
  | .call (.continueWith g _) => g :: s.current.toList
  | .call _ | .exit _ => s.current.toList
  | .dispatch e _ _ => (s.owner e).toList

/-- Only the fibers `fs` and their events have changed, been resumed or become active. -/
structure Within (fs : List ℕ) (s t : Sched) : Prop where
  owned : t.Owned
  agree : ∀ f ∉ fs, Agree f s t
  activations : ∀ a ∈ t.activations, a ∈ s.activations ∨ a.fib ∈ fs
  resumes : ∃ xs, t.resumes = s.resumes ++ xs ∧ ∀ x ∈ xs, x.fib ∈ fs

section Within

variable {fs : List ℕ} {s t u : Sched} {f e : ℕ}

theorem Agree.owner_iff (h : Agree f s t) (e : ℕ) : t.owner e = some f ↔ s.owner e = some f := by
  constructor
  · intro ho
    rwa [Sched.owner, ← h.events e (.inl ho)]
  · intro ho
    rwa [Sched.owner, h.events e (.inr ho)]

theorem Agree.trans (h : Agree f s t) (h' : Agree f t u) : Agree f s u := by
  refine ⟨h'.fiber.trans h.fiber, fun e he => ?_⟩
  have ht : t.owner e = some f := he.elim (h'.owner_iff e).mp (h.owner_iff e).mpr
  rw [h'.events e (.inr ht), h.events e (.inl ht)]

theorem Within.trans (h : Within fs s t) (h' : Within fs t u) : Within fs s u where
  owned := h'.owned
  agree := fun f hf => (h.agree f hf).trans (h'.agree f hf)
  activations := fun a ha => (h'.activations a ha).elim (h.activations a) .inr
  resumes := by
    obtain ⟨xs, hxs, hfs⟩ := h.resumes
    obtain ⟨ys, hys, hfs'⟩ := h'.resumes
    refine ⟨xs ++ ys, by rw [hys, hxs, List.append_assoc], fun x hx => ?_⟩
    exact (List.mem_append.mp hx).elim (hfs x) (hfs' x)

theorem within_of_eq (hs : s.Owned) (hf : t.fibers = s.fibers) (he : t.events = s.events)
    (ha : ∀ a ∈ t.activations, a ∈ s.activations ∨ a.fib ∈ fs)
    (hr : ∃ xs, t.resumes = s.resumes ++ xs ∧ ∀ x ∈ xs, x.fib ∈ fs) : Within fs s t where
  owned := by
    intro f fib e hfib href
    rw [Sched.owner, he]
    exact hs f fib e (hf ▸ hfib) href
  agree := fun f _ => ⟨by rw [hf], fun e _ => by rw [he]⟩
  activations := ha
  resumes := hr

theorem within_undef (hs : s.Owned) : Within fs s { s with undef := true } :=
  within_of_eq hs rfl rfl (fun _ => .inl) ⟨[], (List.append_nil _).symm, by simp⟩

theorem within_refl (hs : s.Owned) : Within fs s s :=
  within_of_eq hs rfl rfl (fun _ => .inl) ⟨[], (List.append_nil _).symm, by simp⟩

theorem within_modifyFiber (hs : s.Owned) (hf : f ∈ fs) {g : Fiber → Fiber}
    (hg : ∀ fib e, (g fib).Refers e → fib.Refers e) : Within fs s (s.modifyFiber f g) where
  owned := by
    intro i fib e hfib href
    simp only [Sched.modifyFiber, List.getElem?_modify] at hfib
    obtain ⟨fib', hfib', rfl⟩ := Option.map_eq_some_iff.mp hfib
    refine hs i fib' e hfib' ?_
    split at href
    · exact hg fib' e href
    · exact href
  agree := by
    intro i hi
    have hne : f ≠ i := by
      rintro rfl
      exact hi hf
    exact ⟨List.getElem?_modify_ne _ _ hne, fun _ _ => rfl⟩
  activations := fun _ => .inl
  resumes := ⟨[], (List.append_nil _).symm, by simp⟩

theorem owner_modifyEvent {g : Event → Event} (hg : ∀ ev, (g ev).fib = ev.fib) (e i : ℕ) :
    (s.modifyEvent e g).owner i = s.owner i := by
  simp only [Sched.owner, Sched.modifyEvent, List.getElem?_modify]
  cases s.events[i]? with
  | none => rfl
  | some ev => by_cases hei : e = i <;> simp [hei, hg]

theorem within_modifyEvent (hs : s.Owned) (he : ∃ f ∈ fs, s.owner e = some f) {g : Event → Event}
    (hg : ∀ ev, (g ev).fib = ev.fib) : Within fs s (s.modifyEvent e g) where
  owned := fun f fib i hfib href => (owner_modifyEvent hg e i).trans (hs f fib i hfib href)
  agree := by
    obtain ⟨f, hf, howner⟩ := he
    refine fun i hi => ⟨rfl, fun j hj => ?_⟩
    rw [owner_modifyEvent hg, or_self] at hj
    have hne : e ≠ j := by
      rintro rfl
      rw [howner] at hj
      exact hi (Option.some.inj hj ▸ hf)
    exact List.getElem?_modify_ne _ _ hne
  activations := fun _ => .inl
  resumes := ⟨[], (List.append_nil _).symm, by simp⟩

theorem owner_append_of_some {ev : Event} (h : s.owner e = some f) :
    Sched.owner { s with events := s.events ++ [ev] } e = some f := by
  obtain ⟨ev', hev', rfl⟩ := Option.map_eq_some_iff.mp h
  have hlt : e < s.events.length := (List.getElem?_eq_some_iff.mp hev').1
  simp [Sched.owner, List.getElem?_append_left hlt, hev']

theorem owner_append_length {ev : Event} :
    Sched.owner { s with events := s.events ++ [ev] } s.events.length = some ev.fib := by
  simp [Sched.owner]

theorem agree_append {ev : Event} (hne : ev.fib ≠ f) (ht : t.events = s.events ++ [ev])
    (hfib : t.fibers[f]? = s.fibers[f]?) : Agree f s t := by
  refine ⟨hfib, fun e he => ?_⟩
  rw [ht]
  rcases Nat.lt_trichotomy e s.events.length with hlt | rfl | hgt
  · exact List.getElem?_append_left hlt
  · exfalso
    rcases he with he | he
    · simp only [Sched.owner, ht, List.getElem?_concat_length, Option.map_some,
        Option.some.injEq] at he
      exact hne he
    · simp [Sched.owner] at he
  · rw [List.getElem?_eq_none (by simp; omega), List.getElem?_eq_none (by omega)]

theorem within_insert (hs : s.Owned) (hf : f ∈ fs) {fd : Fd} {t : RwEvents} {ev : Event}
    (hev : ev.fib = f) (hget : ∀ d e, t.get d = some e → e = s.events.length ∨ s.owner e = some f) :
    Within fs s (Sched.modifyFiber { s with events := s.events ++ [ev] } f fun fib =>
      { fib with mapFe := Function.update fib.mapFe fd (some t) }) where
  owned := by
    intro i fib e hfib href
    simp only [Sched.modifyFiber, List.getElem?_modify] at hfib
    obtain ⟨fib', hfib', rfl⟩ := Option.map_eq_some_iff.mp hfib
    show Sched.owner { s with events := s.events ++ [ev] } e = some i
    by_cases hfi : f = i
    · subst hfi
      rw [if_pos rfl] at href
      rcases href with rfl | ⟨fd', t', d, ht', hd⟩
      · exact owner_append_of_some (hs f fib' _ hfib' (.inl rfl))
      · by_cases hfd : fd' = fd
        · subst hfd
          have hnew : Function.update fib'.mapFe fd' (some t) fd' = some t' := ht'
          rw [Function.update_self] at hnew
          cases hnew
          rcases hget d e hd with rfl | ho
          · rw [owner_append_length, hev]
          · exact owner_append_of_some ho
        · have hold : fib'.mapFe fd' = some t' := (Function.update_of_ne hfd ..).symm.trans ht'
          exact owner_append_of_some (hs f fib' e hfib' (.inr ⟨fd', t', d, hold, hd⟩))
    · rw [if_neg hfi] at href
      exact owner_append_of_some (hs i fib' e hfib' href)
  agree := by
    intro i hi
    have hne : f ≠ i := by
      rintro rfl
      exact hi hf
    exact agree_append (hev.trans_ne hne) rfl (List.getElem?_modify_ne _ _ hne)
  activations := fun _ => .inl
  resumes := ⟨[], (List.append_nil _).symm, by simp⟩

theorem RwEvents.get_set (t : RwEvents) (d d' : Direction) (e : ℕ) :
    (t.set d e).get d' = if d' = d then some e else t.get d' := by
  cases d <;> cases d' <;> rfl

/-- `get_events` returns an entry of the map, and the event asked for is one of the fiber. -/
theorem within_getEvents (hs : s.Owned) (hf : f ∈ fs) (fd : Fd) (d : Direction) :
    Within fs s (s.getEvents f fd d).2 ∧
      ∀ e, (s.getEvents f fd d).1.get d = some e → (s.getEvents f fd d).2.owner e = some f := by
  unfold Sched.getEvents
  simp only
  cases hentry : s.fibers[f]?.bind (·.mapFe fd) with
  | none =>
    refine ⟨within_insert hs hf rfl fun d' e he => ?_, fun e he => ?_⟩
    · rw [RwEvents.get_set] at he
      split at he
      · exact .inl (Option.some.inj he).symm
      · cases d' <;> cases he
    · rw [RwEvents.get_set, if_pos rfl] at he
      cases he
      exact owner_append_length
  | some t =>
    obtain ⟨fib, hfib, hmap⟩ := Option.bind_eq_some_iff.mp hentry
    simp only
    cases hget : t.get d with
    | some e =>
      refine ⟨within_refl hs, fun e' he => ?_⟩
      exact hs f fib e' hfib (.inr ⟨fd, t, d, hmap, he⟩)
    | none =>
      refine ⟨within_insert hs hf rfl fun d' e he => ?_, fun e he => ?_⟩
      · rw [RwEvents.get_set] at he
        split at he
        · exact .inl (Option.some.inj he).symm
        · exact .inr (hs f fib e hfib (.inr ⟨fd, t, d', hmap, he⟩))
      · rw [RwEvents.get_set, if_pos rfl] at he
        cases he
        exact owner_append_length

theorem within_arm (hs : s.Owned) (hf : f ∈ fs) (fd : Fd) (d : Direction) :
    Within fs s (s.arm f fd d) := by
  obtain ⟨hget, howner⟩ := within_getEvents hs hf fd d
  unfold Sched.arm
  split
  · exact hget.trans (within_modifyEvent hget.owned ⟨f, hf, howner _ ‹_›⟩ fun _ => rfl)
  · exact within_undef hs

theorem within_modifyOp (hs : s.Owned) (hf : f ∈ fs) (g : Operation → Operation) :
    Within fs s (s.modifyOp f g) :=
  within_modifyFiber hs hf fun _ _ => id

theorem within_asyncWake (hs : s.Owned) (hf : f ∈ fs) : Within fs s (s.asyncWake f) := by
  unfold Sched.asyncWake
  split
  · rename_i fib hfib
    unfold Sched.eventActive
    repeat' split
    · exact within_undef hs
    · exact within_modifyEvent hs ⟨f, hf, hs f fib _ hfib (.inl rfl)⟩ fun _ => rfl
    · exact within_undef hs
  · exact within_undef hs

theorem within_resumed (hs : s.Owned) {a : Activation} {rest : List Activation}
    (ha : a.fib ∈ fs) (hact : s.activations = a :: rest) : Within fs s (s.resumed a rest) := by
  have hpop : ∀ origin, Within fs s { s with activations := rest, originCtx := origin } :=
    fun origin => within_of_eq hs rfl rfl
      (fun b hb => .inl (hact ▸ List.mem_cons_of_mem a hb)) ⟨[], (List.append_nil _).symm, by simp⟩
  refine (hpop _).trans (within_modifyFiber (hpop _).owned ha fun fib e => ?_)
  split
  · exact id
  · exact id

theorem within_coroTransfer (hs : s.Owned) (hf : f ∈ fs) (hcur : s.current = some f) (c : FibCtx) :
    Within fs s (s.coroTransfer f c) := by
  have hctx : Within fs s (s.modifyFiber f fun fib => { fib with fibCtx := c }) :=
    within_modifyFiber hs hf fun _ _ => id
  refine hctx.trans ?_
  unfold Sched.coroTransfer
  simp only
  split
  · exact within_undef hctx.owned
  · rename_i a rest hact
    split
    · refine within_resumed hctx.owned ?_ hact
      rw [Sched.current, show s.activations = a :: rest from hact] at hcur
      have hfib : a.fib = f := Option.some.inj hcur
      rwa [hfib]
    · exact within_undef hctx.owned

end Within

section Step

variable {fs : List ℕ} {s t : Sched} {f e : ℕ}

theorem activations_arm (fd : Fd) (d : Direction) :
    (s.arm f fd d).activations = s.activations := by
  unfold Sched.arm Sched.getEvents
  simp only
  repeat' split
  all_goals rfl

theorem activations_asyncWake : (s.asyncWake f).activations = s.activations := by
  unfold Sched.asyncWake Sched.eventActive
  repeat' split
  all_goals rfl

theorem current_of_eq (h : t.activations = s.activations) (hcur : s.current = some f) :
    t.current = some f := by
  rw [Sched.current, h]
  exact hcur

theorem within_asyncIo (hs : s.Owned) (hf : f ∈ fs) (hcur : s.current = some f) (d : Direction)
    (fd : Fd) (c : Call) (store : Operation → Operation) :
    Within fs s (s.asyncIo f d fd c store) := by
  have harm := within_arm hs hf fd d
  have hop := within_modifyOp harm.owned hf store
  have hacts := activations_arm (s := s) (f := f) fd d
  exact (harm.trans hop).trans (within_coroTransfer hop.owned hf (current_of_eq hacts hcur) _)

/-- `async_event` arms the read event and the write event only if it is asked to. -/
theorem within_arm_if (hs : s.Owned) (hf : f ∈ fs) (fd : Fd) (d : Direction) (b : Prop)
    [Decidable b] : Within fs s (if b then s.arm f fd d else s) ∧
      (if b then s.arm f fd d else s).activations = s.activations := by
  split
  · exact ⟨within_arm hs hf fd d, activations_arm fd d⟩
  · exact ⟨within_refl hs, rfl⟩

theorem within_async (hs : s.Owned) (hcur : s.current = some f) (c : Call)
    (hfs : ∀ i ∈ touched s (.call c), i ∈ fs) : Within fs s (s.async f c) := by
  have hf : f ∈ fs := by
    refine hfs f ?_
    cases c <;> simp [touched, hcur]
  cases c with
  | recvfrom | accept | recv | send | read | write | sendto =>
    exact within_asyncIo hs hf hcur _ _ _ _
  | event fd flag =>
    obtain ⟨hread, hacts⟩ := within_arm_if hs hf fd .read (flag &&& evRead ≠ 0)
    obtain ⟨hwrite, hacts'⟩ := within_arm_if hread.owned hf fd .write (flag &&& evWrite ≠ 0)
    have hop := within_modifyOp hwrite.owned hf fun op => { op with opType := .event, ret := 0 }
    exact ((hread.trans hwrite).trans hop).trans
      (within_coroTransfer hop.owned hf (current_of_eq (hacts'.trans hacts) hcur) _)
  | sleep time =>
    unfold Sched.async Sched.asyncSleep
    simp only
    split
    · rename_i fib hfib
      have hadd : Within fs s (s.modifyEvent fib.yieldEvent fun ev =>
          { ev with added := true, timer := true }) :=
        within_modifyEvent hs ⟨f, hf, hs f fib _ hfib (.inl rfl)⟩ fun _ => rfl
      exact hadd.trans (within_coroTransfer hadd.owned hf hcur _)
    · exact within_coroTransfer hs hf hcur _
  | yield yielded =>
    have hop := within_modifyOp hs hf fun op => { op with opType := .yield, arg1 := yielded }
    exact hop.trans (within_coroTransfer hop.owned hf hcur _)
  | continueWith g data =>
    have hg : g ∈ fs := hfs g (List.mem_cons_self ..)
    have hop := within_modifyOp hs hf fun op => { op with opType := .yield }
    have hdata := within_modifyOp hop.owned hg fun op =>
      { op with fd := BitVec.ofNat 64 f, ret := data }
    have hwake := within_asyncWake hdata.owned hg
    exact ((hop.trans hdata).trans hwake).trans
      (within_coroTransfer hwake.owned hf (current_of_eq activations_asyncWake hcur) _)

theorem within_schedFiberExit (hs : s.Owned) (hf : f ∈ fs) (hcur : s.current = some f)
    (val : IntPtr) : Within fs s (s.schedFiberExit f val) := by
  have hend : ∀ u : Sched, u.Owned → u.activations = s.activations → Within fs u
      (Sched.coroTransfer (u.modifyFiber f fun fib =>
        { fib with
          fibOp := { fib.fibOp with opType := .free, arg1 := val }
          released := { fib.released with
            map := fib.released.map + 1, yieldEvent := fib.released.yieldEvent + 1 } })
        f .exited) := by
    intro u hu hacts
    have hfree := within_modifyFiber hu hf (g := fun fib =>
      { fib with
        fibOp := { fib.fibOp with opType := .free, arg1 := val }
        released := { fib.released with
          map := fib.released.map + 1, yieldEvent := fib.released.yieldEvent + 1 } }) fun _ _ => id
    exact hfree.trans (within_coroTransfer hfree.owned hf (current_of_eq hacts hcur) _)
  unfold Sched.schedFiberExit
  simp only
  split
  · rename_i fib hfib
    have hevent : Within fs s (s.modifyEvent fib.yieldEvent fun ev => { ev with freed := true }) :=
      within_modifyEvent hs ⟨f, hf, hs f fib _ hfib (.inl rfl)⟩ fun _ => rfl
    exact hevent.trans (hend _ hevent.owned rfl)
  · exact hend s hs rfl

theorem within_activate (hs : s.Owned) (hf : f ∈ fs) (r : Resumer) :
    Within fs s (s.activate f r) := by
  have hpush : Within fs s { s with
      activations := ⟨s.nextCtx, f, r⟩ :: s.activations
      originCtx := some s.nextCtx
      nextCtx := s.nextCtx + 1 } := by
    refine within_of_eq hs rfl rfl (fun a ha => ?_) ⟨[], (List.append_nil _).symm, by simp⟩
    rcases List.mem_cons.mp ha with rfl | ha
    · exact .inr hf
    · exact .inl ha
  exact hpush.trans (within_modifyFiber hpush.owned hf fun _ _ => id)

theorem within_schedNewFiber (hs : s.Owned) (hf : s.fibers.length ∈ fs) :
    Within fs s s.schedNewFiber where
  owned := by
    intro i fib e hfib href
    rcases Nat.lt_trichotomy i s.fibers.length with hlt | rfl | hgt
    · rw [Sched.schedNewFiber, List.getElem?_append_left hlt] at hfib
      exact owner_append_of_some (hs i fib e hfib href)
    · rw [Sched.schedNewFiber, List.getElem?_concat_length] at hfib
      obtain rfl := Option.some.inj hfib
      rcases href with rfl | ⟨fd, t, d, ht, -⟩
      · exact owner_append_length
      · cases ht
    · rw [List.getElem?_eq_none (by simp [Sched.schedNewFiber]; omega)] at hfib
      cases hfib
  agree := by
    intro i hi
    have hne : s.fibers.length ≠ i := by
      rintro rfl
      exact hi hf
    refine agree_append hne rfl ?_
    rw [Sched.schedNewFiber, List.getElem?_append]
    split
    · rfl
    · rw [List.getElem?_eq_none (by simp; omega), List.getElem?_eq_none (by omega)]
  activations := fun _ => .inl
  resumes := ⟨[], (List.append_nil _).symm, by simp⟩

theorem within_schedDispatch {how : Firing} {r : IntPtr} (hs : s.Owned)
    (h : s.schedDispatch e how r = some t) (hfs : ∀ i ∈ s.owner e, i ∈ fs) : Within fs s t := by
  obtain ⟨ev, fib, hev, -, -, p, u, -, rfl, ht⟩ := schedDispatch_cases h
  have howner : s.owner e = some ev.fib := by rw [Sched.owner, hev]; rfl
  have hf : ev.fib ∈ fs := hfs _ howner
  have hconsume : Within fs s (s.consume e) :=
    within_modifyEvent hs ⟨ev.fib, hf, howner⟩ fun _ => rfl
  have hop := hconsume.trans (within_modifyOp hconsume.owned hf fun _ => p.1)
  have hrun := hop.trans (within_activate hop.owned hf .dispatch)
  rcases ht with ⟨-, rfl⟩ | ⟨c, -, rfl⟩ | ⟨-, rfl⟩
  · exact hrun
  · refine hrun.trans (within_of_eq hrun.owned rfl rfl (fun _ => .inl) ⟨[_], rfl, fun x hx => ?_⟩)
    rw [List.mem_singleton.mp hx]
    exact hf
  · exact hop.trans (within_undef hop.owned)

theorem within_step {l : Label} (hs : s.Owned) (h : step s l = some t) :
    Within (touched s l) s t := by
  obtain ⟨-, h⟩ := step_inv h
  cases l with
  | newFiber =>
    rw [h]
    exact within_schedNewFiber hs (List.mem_singleton_self _)
  | launch f =>
    obtain ⟨-, rfl⟩ := h
    exact within_activate hs (List.mem_singleton_self _) _
  | call c =>
    obtain ⟨f, hcur, rfl⟩ := h
    exact within_async hs hcur c fun _ => id
  | wake f =>
    rw [h]
    exact within_asyncWake hs (List.mem_singleton_self _)
  | exit val =>
    obtain ⟨f, hcur, rfl⟩ := h
    exact within_schedFiberExit hs (by simp [touched, hcur]) hcur val
  | delete f =>
    rw [h]
    exact within_modifyFiber hs (List.mem_singleton_self _) fun _ _ => id
  | dispatch e how r =>
    exact within_schedDispatch hs h.2 fun i hi => Option.mem_toList.mpr hi

theorem owned_init : ({} : Sched).Owned := fun f fib e h => by simp at h

/-- In every run, the events that a fiber refers to are its own. -/
theorem owned_of_run {ls : List Label} (h : Run step {} ls s) : s.Owned :=
  h.invariant (fun _ _ _ hs hstep => (within_step hs hstep).owned) owned_init

structure Sched.Fresh (s : Sched) (f : ℕ) : Prop where
  events : ∀ e, s.owner e ≠ some f
  activations : ∀ a ∈ s.activations, a.fib ≠ f
  resumes : ∀ x ∈ s.resumes, x.fib ≠ f

theorem Sched.Fresh.within (h : s.Fresh f) (hw : Within fs s t) (hf : f ∉ fs) : t.Fresh f where
  events := fun e he => h.events e (((hw.agree f hf).owner_iff e).mp he)
  activations := fun a ha =>
    (hw.activations a ha).elim (h.activations a) fun hmem heq => hf (heq ▸ hmem)
  resumes := by
    obtain ⟨xs, hxs, hfs⟩ := hw.resumes
    intro x hx
    rw [hxs, List.mem_append] at hx
    exact hx.elim (h.resumes x) fun hmem heq => hf (heq ▸ hfs x hmem)

/-- In a run that does not touch a fiber, the scheduler has nothing that belongs to it. -/
theorem fresh_of_run {ls : List Label} (h : Along step (fun s l => f ∉ touched s l) {} ls)
    (hrun : Run step {} ls s) : s.Fresh f := by
  have hinv : Throughout step (fun s => s.Owned ∧ s.Fresh f) {} ls := by
    refine throughout_of_along (fun s l t hs hl hstep => ?_) ⟨owned_init, ?_⟩ h
    · have hw := within_step hs.1 hstep
      exact ⟨hw.owned, hs.2.within hw hl⟩
    · exact ⟨fun e he => by simp [Sched.owner] at he, by simp, by simp⟩
  exact (hinv.last hrun).2

end Step

end Tnetacle.Fibers
