import Tnetacle.Fibers.Origin

/-! # The events of a fiber

`get_events` keeps two events for every descriptor a fiber has waited for, one for each
direction, and creates an event the first time it is asked for. The calls that arm an
event use what it returns without a test. In every run, the event in a slot is the one
event that has ever been created for it.
-/

namespace Tnetacle.Fibers

open Runs

def Sched.binding (s : Sched) (e : ℕ) : Option (ℕ × Fd × Option Direction) :=
  s.events[e]?.map fun ev => (ev.fib, ev.fd, ev.what)

def Sched.entry (s : Sched) (f : ℕ) (fd : Fd) : Option RwEvents :=
  s.fibers[f]?.bind (·.mapFe fd)

def Sched.slot (s : Sched) (f : ℕ) (fd : Fd) (d : Direction) : Option ℕ :=
  (s.entry f fd).bind (·.get d)

def Sched.OnePerSlot (s : Sched) : Prop :=
  ∀ f fd d e e', s.binding e = some (f, fd, some d) → s.binding e' = some (f, fd, some d) → e = e'

/-- What is asked of the call `get_events(f, fd, d)` in the state `s`. -/
structure Sched.GetsRight (s : Sched) (f : ℕ) (fd : Fd) (d : Direction) : Prop where
  stored : (s.getEvents f fd d).2.entry f fd = some (s.getEvents f fd d).1
  bound : ∃ e, (s.getEvents f fd d).1.get d = some e ∧
    (s.getEvents f fd d).2.binding e = some (f, fd, some d)
  direction : ∀ d', d' ≠ d → (s.getEvents f fd d).1.get d' = s.slot f fd d'
  entries : ∀ f' fd', (f', fd') ≠ (f, fd) → (s.getEvents f fd d).2.entry f' fd' = s.entry f' fd'
  events : s.events <+: (s.getEvents f fd d).2.events
  reused : (s.slot f fd d).isSome → (s.getEvents f fd d).2 = s

def Call.arms : Call → List (Fd × Direction)
  | .recvfrom fd .. | .accept fd .. | .recv fd .. | .read fd .. => [(fd, .read)]
  | .send fd .. | .write fd .. | .sendto fd .. => [(fd, .write)]
  | .event fd flag =>
    (if flag &&& evRead ≠ 0 then [(fd, .read)] else []) ++
      (if flag &&& evWrite ≠ 0 then [(fd, .write)] else [])
  | .sleep _ | .yield _ | .continueWith .. => []

def Sched.armAll (s : Sched) (f : ℕ) (as : List (Fd × Direction)) : Sched :=
  as.foldl (fun s a => s.arm f a.1 a.2) s

/-- Every call of `get_events` that the step makes is right. -/
def LooksUpRight (s : Sched) : Label → Prop
  | .call c => ∀ f, s.current = some f → ∀ as fd d bs, c.arms = as ++ (fd, d) :: bs →
      (s.armAll f as).GetsRight f fd d
  | _ => True

/-- The event in a slot is the only one that was created for it, and none is missing. -/
def Sched.Cached (s : Sched) : Prop :=
  ∀ f fd d e, s.slot f fd d = some e ↔ s.binding e = some (f, fd, some d)

theorem Sched.Cached.onePerSlot {s : Sched} (h : s.Cached) : s.OnePerSlot := by
  intro f fd d e e' he he'
  rw [← h] at he he'
  exact Option.some.inj (he.symm.trans he')

/-! ## Steps that ask for no event -/

structure Same (s t : Sched) : Prop where
  entry : ∀ f fd, t.entry f fd = s.entry f fd
  binding : ∀ e, t.binding e = s.binding e

section Same

variable {s t u : Sched} {f : ℕ}

theorem Same.refl (s : Sched) : Same s s := ⟨fun _ _ => rfl, fun _ => rfl⟩

theorem Same.of_eq (h : Same s t) (hf : u.fibers = t.fibers) (he : u.events = t.events) :
    Same s u := by
  constructor
  · intro f fd
    rw [← h.entry, Sched.entry, hf, Sched.entry]
  · intro e
    rw [← h.binding, Sched.binding, he, Sched.binding]

theorem Same.slot (h : Same s t) (f : ℕ) (fd : Fd) (d : Direction) :
    t.slot f fd d = s.slot f fd d := by
  rw [Sched.slot, h.entry, Sched.slot]

theorem Same.cached (h : Same s t) (hs : s.Cached) : t.Cached := by
  intro f fd d e
  rw [h.slot, h.binding]
  exact hs f fd d e

theorem Same.modifyFiber (h : Same s t) {g : Fiber → Fiber}
    (hg : ∀ fib, (g fib).mapFe = fib.mapFe) : Same s (t.modifyFiber f g) where
  entry := by
    intro i fd
    rw [← h.entry]
    simp only [Sched.entry, Sched.modifyFiber, List.getElem?_modify]
    cases t.fibers[i]? with
    | none => rfl
    | some fib => by_cases hfi : f = i <;> simp [hfi, hg]
  binding := h.binding

theorem Same.modifyEvent (h : Same s t) {e : ℕ} {g : Event → Event}
    (hg : ∀ ev, ((g ev).fib, (g ev).fd, (g ev).what) = (ev.fib, ev.fd, ev.what)) :
    Same s (t.modifyEvent e g) where
  entry := h.entry
  binding := by
    intro i
    rw [← h.binding]
    simp only [Sched.binding, Sched.modifyEvent, List.getElem?_modify]
    cases t.events[i]? with
    | none => rfl
    | some ev => by_cases hei : e = i <;> simp [hei, hg]

theorem Same.asyncWake (h : Same s t) : Same s (t.asyncWake f) := by
  unfold Sched.asyncWake Sched.eventActive
  repeat' split
  · exact h.of_eq rfl rfl
  · exact h.modifyEvent fun _ => rfl
  · exact h.of_eq rfl rfl
  · exact h.of_eq rfl rfl

theorem Same.resumed (h : Same s t) (a : Activation) (rest : List Activation) :
    Same s (t.resumed a rest) := by
  unfold Sched.resumed
  apply Same.modifyFiber
  · exact h.of_eq rfl rfl
  · intro fib
    split <;> rfl

theorem Same.coroTransfer (h : Same s t) (c : FibCtx) : Same s (t.coroTransfer f c) := by
  have hctx : Same s (t.modifyFiber f fun fib => { fib with fibCtx := c }) :=
    h.modifyFiber fun _ => rfl
  unfold Sched.coroTransfer
  simp only
  repeat' split
  · exact hctx.of_eq rfl rfl
  · exact hctx.resumed _ _
  · exact hctx.of_eq rfl rfl

theorem Same.activate (h : Same s t) (r : Resumer) : Same s (t.activate f r) := by
  unfold Sched.activate
  apply Same.modifyFiber
  · exact h.of_eq rfl rfl
  · exact fun _ => rfl

theorem same_schedFiberExit (val : IntPtr) : Same s (s.schedFiberExit f val) := by
  unfold Sched.schedFiberExit
  simp only
  apply Same.coroTransfer
  refine Same.modifyFiber ?_ fun _ => rfl
  split
  · exact (Same.refl s).modifyEvent fun _ => rfl
  · exact .refl s

theorem same_schedDispatch {e : ℕ} {how : Firing} {r : IntPtr}
    (h : s.schedDispatch e how r = some t) : Same s t := by
  obtain ⟨ev, fib, -, -, -, p, u, -, rfl, ht⟩ := schedDispatch_cases h
  have hconsume : Same s (s.consume e) := (Same.refl s).modifyEvent fun _ => rfl
  have hperform : Same s ((s.consume e).modifyOp ev.fib fun _ => p.1) :=
    hconsume.modifyFiber fun _ => rfl
  rcases ht with ⟨-, rfl⟩ | ⟨c, -, rfl⟩ | ⟨-, rfl⟩
  · exact hperform.activate _
  · exact (hperform.activate _).of_eq rfl rfl
  · exact hperform.of_eq rfl rfl

theorem same_async (c : Call) : Same (s.armAll f c.arms) (s.async f c) := by
  cases c with
  | recvfrom | accept | recv | send | read | write | sendto | yield =>
    apply Same.coroTransfer
    exact (Same.refl _).modifyFiber fun _ => rfl
  | event fd flag =>
    apply Same.coroTransfer
    refine Same.modifyFiber ?_ fun _ => rfl
    simp only [Call.arms]
    split <;> split <;> exact .refl _
  | sleep time =>
    apply Same.coroTransfer
    split
    · exact (Same.refl s).modifyEvent fun _ => rfl
    · exact .refl s
  | continueWith g data =>
    apply Same.coroTransfer
    apply Same.asyncWake
    refine Same.modifyFiber ?_ fun _ => rfl
    exact (Same.refl s).modifyFiber fun _ => rfl

end Same

/-! ## Creating an event -/

section Create

variable {s t : Sched} {f : ℕ} {fd : Fd} {d : Direction}

theorem binding_append (ev : Event) (e : ℕ) (ht : t.events = s.events ++ [ev]) :
    t.binding e = if e = s.events.length then some (ev.fib, ev.fd, ev.what) else s.binding e := by
  simp only [Sched.binding, ht]
  rcases Nat.lt_trichotomy e s.events.length with hlt | rfl | hgt
  · rw [List.getElem?_append_left hlt, if_neg (Nat.ne_of_lt hlt)]
  · simp
  · rw [List.getElem?_eq_none (by simp; omega), List.getElem?_eq_none (by omega),
      if_neg (Nat.ne_of_gt hgt)]

theorem binding_length : s.binding s.events.length = none := by
  simp [Sched.binding]

theorem binding_append_iff_of_ne {ev : Event} {e : ℕ} (ht : t.events = s.events ++ [ev])
    {x : ℕ × Fd × Option Direction} (hx : x ≠ (ev.fib, ev.fd, ev.what)) :
    t.binding e = some x ↔ s.binding e = some x := by
  rw [binding_append ev e ht]
  split
  · rename_i he
    rw [he, binding_length]
    simp [hx.symm]
  · rfl

theorem slot_of_entry {t : RwEvents} (h : s.entry f fd = some t) (d : Direction) :
    s.slot f fd d = t.get d := by
  rw [Sched.slot, h]
  rfl

theorem cached_schedNewFiber (hs : s.Cached) : s.schedNewFiber.Cached := by
  have hentry : ∀ f fd, s.schedNewFiber.entry f fd = s.entry f fd := by
    intro f fd
    rw [Sched.entry, Sched.schedNewFiber, Sched.entry]
    rcases Nat.lt_trichotomy f s.fibers.length with hlt | rfl | hgt
    · rw [List.getElem?_append_left hlt]
    · simp
    · rw [List.getElem?_eq_none (by simp; omega), List.getElem?_eq_none (by omega)]
  intro f fd d e
  rw [Sched.slot, hentry, ← Sched.slot, hs]
  -- the yield event waits for no descriptor
  exact (binding_append_iff_of_ne (s := s) (t := s.schedNewFiber) rfl (by simp)).symm

/-- `get_events` finds the event, or creates it and puts it where it was missing. -/
theorem getEvents_cases (s : Sched) (f : ℕ) (fd : Fd) (d : Direction) :
    (∃ t, s.entry f fd = some t ∧ (t.get d).isSome ∧ s.getEvents f fd d = (t, s)) ∨
    (s.slot f fd d = none ∧ ∃ t : RwEvents, t.get d = some s.events.length ∧
      (∀ d', d' ≠ d → t.get d' = s.slot f fd d') ∧
      s.getEvents f fd d = (t, Sched.modifyFiber
        { s with events := s.events ++ [{ fd := fd, what := some d, fib := f }] } f fun fib =>
          { fib with mapFe := Function.update fib.mapFe fd (some t) })) := by
  unfold Sched.getEvents
  simp only [← Sched.entry.eq_1]
  cases hentry : s.entry f fd with
  | none =>
    right
    have hnone : ∀ d', s.slot f fd d' = none := by
      intro d'
      rw [Sched.slot, hentry]
      rfl
    refine ⟨hnone d, _, ?_, ?_, rfl⟩
    · rw [RwEvents.get_set, if_pos rfl]
    · intro d' hd'
      rw [RwEvents.get_set, if_neg hd', hnone]
      cases d' <;> rfl
  | some t =>
    simp only
    cases hget : t.get d with
    | some e =>
      left
      exact ⟨t, rfl, by rw [hget]; rfl, rfl⟩
    | none =>
      right
      refine ⟨(slot_of_entry hentry d).trans hget, _, ?_, ?_, rfl⟩
      · rw [RwEvents.get_set, if_pos rfl]
      · intro d' hd'
        rw [RwEvents.get_set, if_neg hd', slot_of_entry hentry]

theorem entry_update (hf : f < s.fibers.length) {evs : List Event} (t : RwEvents) (f' : ℕ)
    (fd' : Fd) : (Sched.modifyFiber { s with events := evs } f fun fib =>
      { fib with mapFe := Function.update fib.mapFe fd (some t) }).entry f' fd' =
        if (f', fd') = (f, fd) then some t else s.entry f' fd' := by
  simp only [Sched.entry, Sched.modifyFiber, List.getElem?_modify, Prod.mk.injEq]
  by_cases hff : f = f'
  · subst hff
    rw [List.getElem?_eq_getElem hf]
    by_cases hfd : fd' = fd <;> simp [hfd]
  · have hff' : f' ≠ f := Ne.symm hff
    simp [hff, hff']

/-- A call of `get_events` for a fiber that exists. -/
theorem getsRight_of_cached (hs : s.Cached) (hf : f < s.fibers.length) (fd : Fd) (d : Direction) :
    s.GetsRight f fd d := by
  rcases getEvents_cases s f fd d with ⟨t, hentry, hsome, heq⟩ | ⟨hnone, t, hget, hother, heq⟩
  · obtain ⟨e, he⟩ := Option.isSome_iff_exists.mp hsome
    constructor
    · rw [heq]
      exact hentry
    · rw [heq]
      exact ⟨e, he, (hs f fd d e).mp ((slot_of_entry hentry d).trans he)⟩
    · intro d' _
      rw [heq, slot_of_entry hentry]
    · intro f' fd' _
      rw [heq]
    · exact heq ▸ List.prefix_rfl
    · intro _
      rw [heq]
  · constructor
    · rw [heq]
      exact (entry_update hf t f fd).trans (if_pos rfl)
    · rw [heq]
      exact ⟨_, hget, (binding_append (s := s) _ _ rfl).trans (if_pos rfl)⟩
    · intro d' hd'
      rw [heq]
      exact hother d' hd'
    · intro f' fd' hne
      rw [heq]
      exact (entry_update hf t f' fd').trans (if_neg hne)
    · rw [heq]
      exact List.prefix_append _ _
    · intro hsome
      rw [hnone] at hsome
      cases hsome

theorem cached_getEvents (hs : s.Cached) (hf : f < s.fibers.length) (fd : Fd) (d : Direction) :
    (s.getEvents f fd d).2.Cached := by
  rcases getEvents_cases s f fd d with ⟨t, -, -, heq⟩ | ⟨hnone, t, hget, hother, heq⟩
  · rw [heq]
    exact hs
  · rw [heq]
    intro f' fd' d' e
    rw [Sched.slot, entry_update hf t f' fd']
    by_cases hkey : (f', fd') = (f, fd)
    · cases hkey
      rw [if_pos rfl]
      by_cases hd : d' = d
      · -- the new event is in the slot that was empty
        subst hd
        rw [Option.bind_some, hget, binding_append (s := s) _ e rfl]
        split
        · rename_i he
          simp [he]
        · rename_i he
          rw [← hs, hnone]
          simpa using Ne.symm he
      · rw [Option.bind_some, hother d' hd, hs]
        exact (binding_append_iff_of_ne (s := s) rfl (by simp [hd])).symm
    · rw [if_neg hkey, ← Sched.slot, hs]
      refine (binding_append_iff_of_ne (s := s) rfl ?_).symm
      rintro ⟨⟩
      exact hkey rfl

theorem same_arm (hs : s.Cached) (hf : f < s.fibers.length) (fd : Fd) (d : Direction) :
    Same (s.getEvents f fd d).2 (s.arm f fd d) := by
  obtain ⟨e, he, -⟩ := (getsRight_of_cached hs hf fd d).bound
  rw [Sched.arm, he]
  exact (Same.refl _).modifyEvent fun _ => rfl

theorem length_fibers_arm (s : Sched) (f : ℕ) (fd : Fd) (d : Direction) :
    (s.arm f fd d).fibers.length = s.fibers.length := by
  have hctxs := congrArg List.length (prepares_arm (s := s) (f := f) fd d).ctxs
  simpa [Sched.ctxs] using hctxs

theorem cached_armAll (hs : s.Cached) (hf : f < s.fibers.length) (as : List (Fd × Direction)) :
    (s.armAll f as).Cached ∧ f < (s.armAll f as).fibers.length := by
  induction as generalizing s with
  | nil => exact ⟨hs, hf⟩
  | cons a as ih =>
    refine ih ((same_arm hs hf a.1 a.2).cached (cached_getEvents hs hf a.1 a.2)) ?_
    rw [length_fibers_arm]
    exact hf

end Create

section Step

variable {s t : Sched} {l : Label} {f : ℕ}

theorem Sched.Stacked.lt_of_current (hs : s.Stacked) (hcur : s.current = some f) :
    f < s.fibers.length := by
  have hrunning := (List.getElem?_eq_some_iff.mp (hs.running_of_current hcur)).1
  simpa [Sched.ctxs] using hrunning

theorem looksUpRight_of_cached (hstack : s.Stacked) (hs : s.Cached) (l : Label) :
    LooksUpRight s l := by
  cases l with
  | call c =>
    intro f hcur as fd d bs _
    obtain ⟨hcached, hf⟩ := cached_armAll hs (hstack.lt_of_current hcur) as
    exact getsRight_of_cached hcached hf fd d
  | _ => trivial

theorem cached_step (hstack : s.Stacked) (hs : s.Cached) (h : step s l = some t) : t.Cached := by
  obtain ⟨-, h⟩ := step_inv h
  cases l with
  | newFiber =>
    rw [h]
    exact cached_schedNewFiber hs
  | launch f =>
    obtain ⟨-, rfl⟩ := h
    exact ((Same.refl s).activate _).cached hs
  | call c =>
    obtain ⟨f, hcur, rfl⟩ := h
    exact (same_async c).cached (cached_armAll hs (hstack.lt_of_current hcur) c.arms).1
  | wake f =>
    rw [h]
    exact (Same.refl s).asyncWake.cached hs
  | exit val =>
    obtain ⟨f, -, rfl⟩ := h
    exact (same_schedFiberExit val).cached hs
  | delete f =>
    rw [h]
    exact Same.cached ((Same.refl s).modifyFiber fun _ => rfl) hs
  | dispatch e how r => exact (same_schedDispatch h.2).cached hs

theorem cached_init : ({} : Sched).Cached := by
  intro f fd d e
  simp [Sched.slot, Sched.entry, Sched.binding]

theorem cached_throughout (ls : List Label) :
    Throughout step (fun s => s.Stacked ∧ s.Cached) {} ls := by
  refine throughout_of_along ?_ ⟨stacked_init, cached_init⟩ (along_true _ ls)
  rintro s l t ⟨hstack, hs⟩ - hstep
  exact ⟨stacked_step hstack hstep, cached_step hstack hs hstep⟩

end Step

/--
Whatever calls the fibers make, at most one event is created for a direction of a descriptor
of a fiber, and every `get_events` returns the entry of its descriptor with the event that is
bound to the descriptor, the direction and the fiber, and changes nothing else.
-/
theorem events_created_once (ls : List Label) :
    Throughout step Sched.OnePerSlot {} ls ∧ Along step LooksUpRight {} ls := by
  have hinv := cached_throughout ls
  constructor
  · exact hinv.mono fun _ hs => hs.2.onePerSlot
  · exact along_of_throughout (fun _ l _ hs _ _ => looksUpRight_of_cached hs.1 hs.2 l) hinv
      (along_true _ ls)

end Tnetacle.Fibers
