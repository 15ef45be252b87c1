import Tnetacle.Tunnel.Broadcast

/-! # Every frame is passed once to every peer

A round stops at the frame that was the last one when it started, and then frees the
whole queue. A frame pushed while a round is suspended is therefore freed without
having been sent. Without such a frame, every frame that is freed has been passed to
`async_sendto` exactly once for every peer, in the order of the pushes.
-/

namespace Tnetacle.Tunnel

open Growable Runs

variable {peers : List Meta.Endpoint} {s t : Queue} {l : Label}

/-- Every freed frame was passed to `async_sendto` exactly once for every peer. -/
def Queue.PassedOnce (peers : List Meta.Endpoint) (s : Queue) : Prop :=
  s.dangling = false ∧ ∀ f ∈ s.freed, ∀ i < peers.length, s.passed.count (f, i) = 1

/-- No frame is pushed while a round is suspended. -/
def OnTime (s : Queue) : Label → Prop
  | .device moves => moves = [] ∨ s.pc = .yield
  | .writable _ | .wake => True

def Queue.Settled (s : Queue) : Prop := s.pc = .yield ∨ s.dangling = true

/-! ## What the broadcaster does when it is resumed -/

def Queue.roundEnd (s : Queue) : Iter :=
  match s.pc with
  | .yield => s.framesToSend.last
  | .sendto _ fite _ _ => fite

/-- The round is over, the next call is made, or a dangling iterator is used. -/
inductive Resumed (peers : List Meta.Endpoint) (s : Queue) : Queue → Prop
  | ended : Resumed peers s s.finish
  | called {fit : Iter} {it f : ℕ} : fit.base = s.roundEnd.base → fit.idx < s.roundEnd.idx →
      it < peers.length → s.framesToSend.deref fit = some f →
      Resumed peers s { s with
        pc := .sendto fit s.roundEnd it f, writeAdded := true, passed := s.passed ++ [(f, it)] }
  | dangled : Resumed peers s { s with dangling := true }

structure Queue.Shaped (peers : List Meta.Endpoint) (s : Queue) : Prop where
  frames : s.freed ++ s.framesToSend.data = List.range s.next
  passed : ∀ p ∈ s.passed, p.1 < s.next
  bound : s.roundEnd.base ≤ s.framesToSend.base ∧
    (s.roundEnd.base = s.framesToSend.base → s.roundEnd.idx ≤ s.framesToSend.data.length)
  round : ∀ fit fite it f, s.pc = .sendto fit fite it f →
    fit.base = fite.base ∧ fit.idx < fite.idx ∧ it < peers.length

section Resume

variable {fit : Iter} {it : ℕ}

theorem resumed_callSendto (hbase : fit.base = s.roundEnd.base) (hidx : fit.idx < s.roundEnd.idx)
    (hit : it < peers.length) : Resumed peers s (s.callSendto fit s.roundEnd it) := by
  unfold Queue.callSendto
  split
  · exact .dangled
  · exact .called hbase hidx hit ‹_›

theorem resumed_frameLoop (hbase : fit.base = s.roundEnd.base) (hidx : fit.idx ≤ s.roundEnd.idx) :
    Resumed peers s (s.frameLoop peers fit s.roundEnd) := by
  unfold Queue.frameLoop
  split
  · exact .ended
  · rename_i hmore
    rw [not_or] at hmore
    refine resumed_callSendto hbase (Nat.lt_of_le_of_ne hidx fun heq => hmore.1 ?_)
      (List.length_pos_iff.mpr hmore.2)
    exact congrArg₂ Iter.mk hbase heq

theorem resumed_resume (h : s.Shaped peers) : Resumed peers s (s.resume peers) := by
  unfold Queue.resume
  cases hpc : s.pc with
  | yield =>
    have hend : s.roundEnd = s.framesToSend.last := by rw [Queue.roundEnd, hpc]
    have hloop : Resumed peers s (s.frameLoop peers s.framesToSend.first s.roundEnd) :=
      resumed_frameLoop (by rw [hend]; rfl) (Nat.zero_le _)
    rwa [hend] at hloop
  | sendto fit fite it f =>
    obtain ⟨hbase, hidx, -⟩ := h.round fit fite it f hpc
    have hend : s.roundEnd = fite := by rw [Queue.roundEnd, hpc]
    rw [← hend] at hbase hidx ⊢
    simp only [Queue.afterSendto]
    split
    · exact resumed_frameLoop hbase hidx
    · split
      · exact .dangled
      · split
        · exact resumed_callSendto hbase hidx ‹_›
        · exact resumed_frameLoop hbase hidx

end Resume

section Shape

theorem pushFrames_eq (moves : List Bool) (s : Queue) :
    (moves.foldl Queue.pushFrame s).framesToSend.data =
        s.framesToSend.data ++ List.range' s.next moves.length ∧
      s.framesToSend.base ≤ (moves.foldl Queue.pushFrame s).framesToSend.base ∧
      moves.foldl Queue.pushFrame s = { s with
        framesToSend := (moves.foldl Queue.pushFrame s).framesToSend
        next := s.next + moves.length } := by
  induction moves generalizing s with
  | nil => simp
  | cons moved moves ih =>
    obtain ⟨hdata, hbase, hrest⟩ := ih (s.pushFrame moved)
    rw [List.foldl_cons]
    refine ⟨?_, Nat.le_trans ?_ hbase, ?_⟩
    · rw [hdata]
      simp [Queue.pushFrame, List.range'_succ]
    · simp only [Queue.pushFrame, Vec.push]
      split <;> omega
    · rw [hrest]
      simp [Queue.pushFrame, Nat.add_comm, Nat.add_left_comm]

theorem serverDevice_eq (s : Queue) (moves : List Bool) :
    ∃ v act, s.serverDevice moves = { s with
        framesToSend := v, next := s.next + moves.length, yieldActive := act } ∧
      v.data = s.framesToSend.data ++ List.range' s.next moves.length ∧
      s.framesToSend.base ≤ v.base := by
  obtain ⟨hdata, hbase, hrest⟩ := pushFrames_eq moves s
  unfold Queue.serverDevice
  simp only
  generalize moves.foldl Queue.pushFrame s = r at hdata hbase hrest
  split
  · exact ⟨r.framesToSend, true, by rw [Queue.wakeBroadcaster, hrest], hdata, hbase⟩
  · exact ⟨r.framesToSend, s.yieldActive, hrest, hdata, hbase⟩

theorem roundEnd_pushed (hpc : s.pc ≠ .yield) (v : Vec ℕ) (n : ℕ) (act : Bool) :
    Queue.roundEnd { s with framesToSend := v, next := n, yieldActive := act } = s.roundEnd := by
  cases hround : s.pc with
  | yield => exact absurd hround hpc
  | sendto fit fite it f => simp [Queue.roundEnd, hround]

theorem Queue.Shaped.same (h : s.Shaped peers) {added act failed : Bool} {sent : List (ℕ × ℕ)} :
    Queue.Shaped peers { s with
      writeAdded := added, yieldActive := act, failed := failed, sent := sent } :=
  ⟨h.frames, h.passed, h.bound, h.round⟩

theorem step_inv (h : step peers s l = some t) : s.dangling = false ∧
    match l with
    | .device moves => t = s.serverDevice moves
    | .writable ok => s.writeAdded = true ∧ t = s.dispatchWrite peers ok
    | .wake => s.yieldActive = true ∧ t = s.dispatchYield peers := by
  unfold step at h
  split at h
  · cases h
  · refine ⟨by simpa using ‹¬ s.dangling = true›, ?_⟩
    cases l with
    | device moves => exact (Option.some.inj h).symm
    | writable ok | wake =>
      simp only [Option.ite_none_right_eq_some, Option.some.injEq] at h
      exact ⟨h.1, h.2.symm⟩

/-- Everything a step can do to the queue and to the round that is under way. -/
theorem step_cases (hs : s.Shaped peers) (h : step peers s l = some t) :
    (∃ moves, l = .device moves ∧ t = s.serverDevice moves) ∨
    (∀ moves, l ≠ .device moves) ∧ ∃ added act failed sent, Resumed peers { s with
      writeAdded := added, yieldActive := act, failed := failed, sent := sent } t := by
  obtain ⟨-, h⟩ := step_inv h
  cases l with
  | device moves => exact Or.inl ⟨moves, rfl, h⟩
  | writable ok =>
    rw [h.2]
    refine Or.inr ⟨by simp, ?_⟩
    unfold Queue.dispatchWrite Queue.carryOut
    split
    · exact ⟨_, _, _, _, resumed_resume hs.same⟩
    · exact ⟨_, _, _, _, resumed_resume hs.same⟩
  | wake =>
    rw [h.2]
    exact Or.inr ⟨by simp, _, _, _, _, resumed_resume hs.same⟩

theorem Queue.Shaped.notMem_data (h : s.Shaped peers) {f : ℕ} (hf : f ∈ s.freed) :
    f ∉ s.framesToSend.data := by
  have hnodup : (s.freed ++ s.framesToSend.data).Nodup := h.frames ▸ List.nodup_range
  exact fun hmem => List.disjoint_of_nodup_append hnodup hf hmem

theorem Queue.Shaped.lt_next (h : s.Shaped peers) {f : ℕ} (hf : f ∈ s.framesToSend.data) :
    f < s.next :=
  List.mem_range.mp (h.frames ▸ List.mem_append_right _ hf)

theorem Resumed.shaped (hr : Resumed peers s t) (h : s.Shaped peers) : t.Shaped peers := by
  cases hr with
  | ended =>
    refine ⟨?_, h.passed, ⟨Nat.le_refl _, fun _ => Nat.le_refl _⟩, fun _ _ _ _ hpc => by cases hpc⟩
    simpa [Queue.finish] using h.frames
  | @called fit it f hbase hidx hit hderef =>
    refine ⟨h.frames, fun p hp => ?_, h.bound, ?_⟩
    · rcases List.mem_append.mp hp with hp | hp
      · exact h.passed p hp
      · obtain rfl := List.mem_singleton.mp hp
        exact h.lt_next (Vec.mem_of_deref hderef)
    · intro fit' fite' it' f' hpc
      cases hpc
      exact ⟨hbase, hidx, hit⟩
  | dangled => exact ⟨h.frames, h.passed, h.bound, h.round⟩

theorem Queue.Shaped.roundEnd_le (h : s.Shaped peers) {v : Vec ℕ}
    (hbase : s.framesToSend.base ≤ v.base) (heq : s.roundEnd.base = v.base) :
    s.roundEnd.idx ≤ s.framesToSend.data.length :=
  h.bound.2 (Nat.le_antisymm h.bound.1 (heq ▸ hbase))

theorem Queue.Shaped.serverDevice (h : s.Shaped peers) (moves : List Bool) :
    (s.serverDevice moves).Shaped peers := by
  obtain ⟨v, act, heq, hdata, hbase⟩ := serverDevice_eq s moves
  rw [heq]
  refine ⟨?_, fun p hp => Nat.lt_add_right _ (h.passed p hp), ?_, h.round⟩
  · show s.freed ++ v.data = List.range (s.next + moves.length)
    rw [hdata, ← List.append_assoc, h.frames, List.range_eq_range', List.range_eq_range',
      ← List.range'_append_1, Nat.zero_add]
  · by_cases hpc : s.pc = .yield
    · simp [Queue.roundEnd, hpc, Vec.last]
    · rw [roundEnd_pushed hpc]
      refine ⟨Nat.le_trans h.bound.1 hbase, fun hb => ?_⟩
      rw [hdata, List.length_append]
      exact Nat.le_trans (h.roundEnd_le hbase hb) (Nat.le_add_right _ _)

theorem shaped_step (hs : s.Shaped peers) (h : step peers s l = some t) : t.Shaped peers := by
  rcases step_cases hs h with ⟨moves, -, rfl⟩ | ⟨-, _, _, _, _, hr⟩
  · exact hs.serverDevice moves
  · exact hr.shaped hs.same

theorem shaped_init : ({} : Queue).Shaped peers :=
  ⟨rfl, by simp, ⟨Nat.le_refl _, fun _ => Nat.le_refl _⟩, fun _ _ _ _ hpc => by cases hpc⟩

theorem shaped_of_run {ls : List Label} (h : Run (step peers) {} ls s) : s.Shaped peers :=
  h.invariant (fun _ _ _ hs hstep => shaped_step hs hstep) shaped_init

end Shape

/-! ## A frame that comes too late -/

section Late

/-- Some frame has never been passed, and is freed already or behind the end of its round. -/
def Queue.Lost (peers : List Meta.Endpoint) (s : Queue) : Prop :=
  0 < peers.length ∧ ∃ f, (f, 0) ∉ s.passed ∧ (f ∈ s.freed ∨
    s.pc ≠ .yield ∧ f ∈ s.framesToSend.data ∧
      (s.roundEnd.base = s.framesToSend.base → f ∉ s.framesToSend.data.take s.roundEnd.idx))

theorem Resumed.lost (hr : Resumed peers s t) (hs : s.Shaped peers) (h : s.Lost peers) :
    t.Lost peers := by
  obtain ⟨hpeers, f, hf, hwhere⟩ := h
  cases hr with
  | ended =>
    refine ⟨hpeers, f, hf, Or.inl (List.mem_append.mpr ?_)⟩
    exact hwhere.imp id fun hlate => hlate.2.1
  | @called fit it g hbase hidx hit hderef =>
    obtain ⟨hfit, hget⟩ := (Vec.deref_eq_some_iff _).mp hderef
    -- the frame passed now lies before the end of the round, and the lost one does not
    have hne : f ≠ g := by
      rintro rfl
      rcases hwhere with hfreed | ⟨-, -, hlate⟩
      · exact hs.notMem_data hfreed (Vec.mem_of_deref hderef)
      · refine hlate (hbase.symm.trans hfit) (List.mem_of_getElem? (i := fit.idx) ?_)
        rw [List.getElem?_take_of_lt hidx, hget]
    refine ⟨hpeers, f, ?_, hwhere.imp id fun hlate => ⟨by simp, hlate.2⟩⟩
    simpa [hf] using fun heq => absurd heq hne
  | dangled => exact ⟨hpeers, f, hf, hwhere⟩

theorem Queue.Lost.serverDevice (hs : s.Shaped peers) (h : s.Lost peers) (moves : List Bool) :
    (s.serverDevice moves).Lost peers := by
  obtain ⟨hpeers, f, hf, hwhere⟩ := h
  obtain ⟨v, act, heq, hdata, hbase⟩ := serverDevice_eq s moves
  rw [heq]
  refine ⟨hpeers, f, hf, hwhere.imp id ?_⟩
  rintro ⟨hpc, hmem, hlate⟩
  refine ⟨hpc, ?_, ?_⟩
  · rw [hdata]
    exact List.mem_append_left _ hmem
  · rw [roundEnd_pushed hpc]
    intro hb
    rw [hdata, List.take_append_of_le_length (hs.roundEnd_le hbase hb)]
    exact hlate (Nat.le_antisymm hs.bound.1 (hb ▸ hbase))

theorem lost_step (hs : s.Shaped peers) (hlost : s.Lost peers) (h : step peers s l = some t) :
    t.Lost peers := by
  rcases step_cases hs h with ⟨moves, -, rfl⟩ | ⟨-, _, _, _, _, hr⟩
  · exact hlost.serverDevice hs moves
  · exact hr.lost hs.same hlost

theorem lost_of_late (hs : s.Shaped peers) (h : step peers s l = some t) (hlate : ¬ OnTime s l) :
    t.Lost peers := by
  rcases step_cases hs h with ⟨moves, rfl, rfl⟩ | ⟨hl, -⟩
  · obtain ⟨hmoves, hpc⟩ := not_or.mp hlate
    obtain ⟨v, act, heq, hdata, hbase⟩ := serverDevice_eq s moves
    have hlen : 0 < moves.length := List.length_pos_iff.mpr hmoves
    have hpeers : 0 < peers.length := by
      cases hround : s.pc with
      | yield => exact absurd hround hpc
      | sendto fit fite it g => exact Nat.zero_lt_of_lt (hs.round fit fite it g hround).2.2
    rw [heq]
    refine ⟨hpeers, s.next, fun hmem => Nat.lt_irrefl _ (hs.passed _ hmem), Or.inr ⟨hpc, ?_, ?_⟩⟩
    · rw [hdata]
      exact List.mem_append_right _ (List.mem_range'_1.mpr ⟨Nat.le_refl _, by omega⟩)
    · rw [roundEnd_pushed hpc]
      intro hb hmem
      rw [hdata, List.take_append_of_le_length (hs.roundEnd_le hbase hb)] at hmem
      exact Nat.lt_irrefl _ (hs.lt_next (List.mem_of_mem_take hmem))
  · cases l with
    | device moves => exact absurd rfl (hl moves)
    | writable | wake => exact absurd trivial hlate

theorem not_lost_of_settled (hend : s.Settled) (h : s.PassedOnce peers) : ¬ s.Lost peers := by
  rintro ⟨hpeers, f, hf, hwhere⟩
  rcases hend with hpc | hdangling
  · rcases hwhere with hfreed | ⟨hne, -⟩
    · have hone := h.2 f hfreed 0 hpeers
      rw [List.count_eq_zero_of_not_mem hf] at hone
      cases hone
    · exact hne hpc
  · rw [h.1] at hdangling
    cases hdangling

end Late

/-! ## Frames that come in time -/

def round (peers : List Meta.Endpoint) (fs : List ℕ) : List (ℕ × ℕ) :=
  fs.flatMap fun f => (List.range peers.length).map (f, ·)

section Round

theorem mem_round {fs : List ℕ} {f i : ℕ} :
    (f, i) ∈ round peers fs ↔ f ∈ fs ∧ i < peers.length := by
  simp [round]

theorem round_no_peers (fs : List ℕ) : round [] fs = [] := by
  simp [round, List.flatMap_eq_nil_iff]

theorem round_append (fs gs : List ℕ) :
    round peers (fs ++ gs) = round peers fs ++ round peers gs :=
  List.flatMap_append

theorem round_take_succ {fs : List ℕ} {n f : ℕ} (h : fs[n]? = some f) :
    round peers (fs.take (n + 1)) =
      round peers (fs.take n) ++ (List.range peers.length).map (f, ·) := by
  rw [List.take_add_one, h, round_append]
  simp [round]

theorem nodup_round {fs : List ℕ} (h : fs.Nodup) : (round peers fs).Nodup := by
  rw [round, List.nodup_flatMap]
  refine ⟨fun f _ => List.nodup_range.map fun i j hij => (Prod.mk.inj hij).2, ?_⟩
  refine h.imp fun {f g} hfg p hf hg => ?_
  obtain ⟨i, -, rfl⟩ := List.mem_map.mp hf
  obtain ⟨j, -, hj⟩ := List.mem_map.mp hg
  exact hfg (Prod.mk.inj hj).1.symm

/-- The rounds so far have passed `freed`, and the current one has passed `log`. -/
structure Queue.Running (peers : List Meta.Endpoint) (s : Queue) (log : List (ℕ × ℕ)) : Prop where
  dangling : s.dangling = false
  failed : s.failed = false
  passed : s.passed = round peers s.freed ++ log

/-- What a round has passed when it has called for the frame at `fit` and the peer `it`. -/
def Queue.underWay (peers : List Meta.Endpoint) (s : Queue) (fit : Iter) (n f : ℕ) :
    List (ℕ × ℕ) :=
  round peers (s.framesToSend.data.take fit.idx) ++ (List.range n).map (f, ·)

/-- The invariant of the runs in which every frame is on time and no send fails. -/
def Queue.Timely (peers : List Meta.Endpoint) (s : Queue) : Prop :=
  match s.pc with
  | .yield => s.Running peers []
  | .sendto fit fite it f => fite = s.framesToSend.last ∧ s.framesToSend.deref fit = some f ∧
      it < peers.length ∧ s.Running peers (s.underWay peers fit (it + 1) f)

section Loop

variable {fit fite : Iter} {it f : ℕ}

theorem timely_finish (h : s.Running peers (round peers s.framesToSend.data)) :
    s.finish.Timely peers := by
  refine ⟨h.dangling, h.failed, ?_⟩
  show s.passed = round peers (s.freed ++ s.framesToSend.data) ++ []
  rw [List.append_nil, round_append, h.passed]

theorem timely_callSendto (hlast : fite = s.framesToSend.last)
    (hderef : s.framesToSend.deref fit = some f) (hit : it < peers.length)
    (h : s.Running peers (s.underWay peers fit it f)) :
    (s.callSendto fit fite it).Timely peers := by
  rw [Queue.callSendto, hderef]
  refine ⟨hlast, hderef, hit, h.dangling, h.failed, ?_⟩
  show s.passed ++ [(f, it)] = _
  rw [h.passed, Queue.underWay, Queue.underWay, List.range_succ]
  simp

theorem timely_frameLoop (hlast : fite = s.framesToSend.last)
    (hbase : fit.base = s.framesToSend.base) (hidx : fit.idx ≤ s.framesToSend.data.length)
    (h : s.Running peers (round peers (s.framesToSend.data.take fit.idx))) :
    (s.frameLoop peers fit fite).Timely peers := by
  unfold Queue.frameLoop
  split
  · rename_i hend
    refine timely_finish ?_
    rcases hend with heq | rfl
    · rwa [heq, hlast, Vec.last, List.take_length] at h
    · rwa [round_no_peers] at h ⊢
  · rename_i hmore
    rw [not_or] at hmore
    have hlt : fit.idx < s.framesToSend.data.length := by
      refine Nat.lt_of_le_of_ne hidx fun heq => hmore.1 ?_
      rw [hlast, Vec.last, ← heq, ← hbase]
    exact timely_callSendto hlast
      ((Vec.deref_eq_some_iff _).mpr ⟨hbase, List.getElem?_eq_getElem hlt⟩)
      (List.length_pos_iff.mpr hmore.2) (by simpa [Queue.underWay] using h)

/-- A round goes on when the call for the frame `f` and the peer `it` has not failed. -/
theorem timely_afterSendto (hlast : fite = s.framesToSend.last)
    (hderef : s.framesToSend.deref fit = some f) (hit : it < peers.length)
    (h : s.Running peers (s.underWay peers fit (it + 1) f)) :
    (s.afterSendto peers fit fite it).Timely peers := by
  obtain ⟨hbase, hget⟩ := (Vec.deref_eq_some_iff _).mp hderef
  unfold Queue.afterSendto
  rw [if_neg (by simp [h.failed]), hderef]
  simp only
  split
  · rename_i hmore
    exact timely_callSendto hlast hderef hmore h
  · rename_i hdone
    have hall : it + 1 = peers.length := by omega
    refine timely_frameLoop hlast hbase (List.getElem?_eq_some_iff.mp hget).1 ?_
    show s.Running peers (round peers (s.framesToSend.data.take (fit.idx + 1)))
    rwa [round_take_succ hget, ← hall]

end Loop

theorem timely_resume (h : s.Timely peers) : (s.resume peers).Timely peers := by
  unfold Queue.resume
  cases hpc : s.pc with
  | yield =>
    rw [Queue.Timely, hpc] at h
    exact timely_frameLoop rfl rfl (Nat.zero_le _) (by simpa [Vec.first, round] using h)
  | sendto fit fite it f =>
    rw [Queue.Timely, hpc] at h
    obtain ⟨hlast, hderef, hit, hrun⟩ := h
    exact timely_afterSendto hlast hderef hit hrun

theorem Queue.Timely.same (h : s.Timely peers) {added act failed : Bool} {sent : List (ℕ × ℕ)}
    (hf : failed = false) : Queue.Timely peers { s with
      writeAdded := added, yieldActive := act, failed := failed, sent := sent } := by
  cases hpc : s.pc with
  | yield =>
    simp only [Queue.Timely, hpc] at h ⊢
    exact ⟨h.dangling, hf, h.passed⟩
  | sendto fit fite it f =>
    simp only [Queue.Timely, hpc] at h ⊢
    obtain ⟨hlast, hderef, hit, hrun⟩ := h
    exact ⟨hlast, hderef, hit, hrun.dangling, hf, hrun.passed⟩

theorem Queue.Timely.running (h : s.Timely peers) :
    ∃ log, s.Running peers log ∧ ∀ p ∈ log, p.1 ∈ s.framesToSend.data := by
  cases hpc : s.pc with
  | yield =>
    rw [Queue.Timely, hpc] at h
    exact ⟨[], h, by simp⟩
  | sendto fit fite it f =>
    rw [Queue.Timely, hpc] at h
    obtain ⟨-, hderef, -, hrun⟩ := h
    refine ⟨_, hrun, fun p hp => ?_⟩
    rcases List.mem_append.mp hp with hp | hp
    · exact List.mem_of_mem_take (mem_round.mp hp).1
    · obtain ⟨i, -, rfl⟩ := List.mem_map.mp hp
      exact Vec.mem_of_deref hderef

theorem timely_serverDevice (h : s.Timely peers) {moves : List Bool}
    (hon : moves = [] ∨ s.pc = .yield) : (s.serverDevice moves).Timely peers := by
  obtain ⟨log, hrun, -⟩ := h.running
  rcases hon with rfl | hpc
  · rw [Queue.serverDevice, List.foldl_nil]
    by_cases hlen : 0 < s.framesToSend.data.length
    · rw [if_pos hlen]
      exact h.same hrun.failed
    · rw [if_neg hlen]
      exact h
  · obtain ⟨v, act, heq, -, -⟩ := serverDevice_eq s moves
    rw [heq]
    simp only [Queue.Timely, hpc] at h ⊢
    exact ⟨h.dangling, h.failed, h.passed⟩

theorem timely_step (h : s.Timely peers) (hon : OnTime s l) (hok : l ≠ .writable false)
    (hstep : step peers s l = some t) : t.Timely peers := by
  obtain ⟨log, hrun, -⟩ := h.running
  obtain ⟨-, hstep⟩ := step_inv hstep
  cases l with
  | device moves =>
    rw [hstep]
    exact timely_serverDevice h hon
  | writable ok =>
    obtain rfl : ok = true := by simpa using hok
    rw [hstep.2]
    refine timely_resume ?_
    unfold Queue.carryOut
    split
    · exact h.same hrun.failed
    · exact h.same rfl
  | wake =>
    rw [hstep.2]
    exact timely_resume (h.same hrun.failed)

theorem Queue.Timely.passedOnce (h : s.Timely peers) (hs : s.Shaped peers) :
    s.PassedOnce peers := by
  obtain ⟨log, hrun, hlog⟩ := h.running
  refine ⟨hrun.dangling, fun f hf i hi => ?_⟩
  have hnodup : s.freed.Nodup := (hs.frames ▸ List.nodup_range).of_append_left
  rw [hrun.passed, List.count_append, (nodup_round hnodup).count, if_pos (mem_round.mpr ⟨hf, hi⟩),
    List.count_eq_zero_of_not_mem fun hmem => hs.notMem_data hf (hlog _ hmem)]

end Round

theorem timely_init : ({} : Queue).Timely peers := ⟨rfl, rfl, rfl⟩

/--
Suppose that no send fails. If no frame is pushed while a round is suspended, then every
frame that is freed has been passed to `async_sendto` exactly once for every peer, in
every state of the run. In a run that does not stop in the middle of a round, this
holds only if no frame was pushed while a round was suspended.
-/
theorem passed_once_iff_on_time (peers : List Meta.Endpoint) {ls : List Label}
    (hok : .writable false ∉ ls) :
    (Along (step peers) OnTime {} ls →
      Throughout (step peers) (Queue.PassedOnce peers) {} ls) ∧
    ∀ s, Run (step peers) {} ls s → s.Settled →
      Throughout (step peers) (Queue.PassedOnce peers) {} ls →
        Along (step peers) OnTime {} ls := by
  constructor
  · intro h
    have hboth := h.and_forall (D := fun l => l ≠ .writable false)
      fun l hl heq => hok (heq ▸ hl)
    have hinv : Throughout (step peers) (fun s => s.Shaped peers ∧ s.Timely peers) {} ls :=
      throughout_of_along (fun s l t hs hc hstep =>
        ⟨shaped_step hs.1 hstep, timely_step hs.2 hc.1 hc.2 hstep⟩)
        ⟨shaped_init, timely_init⟩ hboth
    exact hinv.mono fun s hs => hs.2.passedOnce hs.1
  · intro s hrun hend h
    exact along_of_run (fun s l t hs hstep => shaped_step hs hstep)
      (fun s l t hs hstep hlate => lost_of_late hs hstep hlate)
      (fun s l t hs hlost hstep => lost_step hs hlost hstep) shaped_init hrun
      (not_lost_of_settled hend (h.last hrun))

/-- Two frames read in one turn of the device fiber reach both peers before they are freed. -/
theorem two_frames_two_peers :
    let peers := [Meta.endpointInit (.inet 0x0a000002 0x8813),
      Meta.endpointInit (.inet 0x0a000003 0x8813)]
    let ls := [.device [false, true], .wake, .writable true, .writable true, .writable true,
      .writable true]
    Throughout (step peers) (Queue.PassedOnce peers) {} ls ∧
      ∃ s, Run (step peers) {} ls s ∧ s.freed = [0, 1] := by
  refine ⟨(passed_once_iff_on_time _ (by decide)).1 ?_, _, .cons rfl (.cons rfl (.cons rfl
    (.cons rfl (.cons rfl (.cons rfl (.nil _)))))), rfl⟩
  exact (along_cons_iff rfl).mpr ⟨.inr rfl, (along_cons_iff rfl).mpr ⟨trivial,
    (along_cons_iff rfl).mpr ⟨trivial, (along_cons_iff rfl).mpr ⟨trivial,
      (along_cons_iff rfl).mpr ⟨trivial, (along_cons_iff rfl).mpr ⟨trivial, trivial⟩⟩⟩⟩⟩⟩

/--
A packet that arrives while the broadcaster waits in `async_sendto` with the one before is
freed at the end of the round, without having been passed to it.
-/
theorem late_frame_freed_unsent :
    ¬ Throughout (step [Meta.endpointInit (.inet 0x0a000002 0x8813)])
      (Queue.PassedOnce [Meta.endpointInit (.inet 0x0a000002 0x8813)]) {}
      [.device [false], .wake, .device [false], .writable true] := by
  intro h
  have hlast := h.last (.cons rfl (.cons rfl (.cons rfl (.cons rfl (.nil _)))))
  have hcount := hlast.2 1 (by decide) 0 (by decide)
  exact absurd hcount (by decide)

/-! ## What reaches the socket -/

def Queue.Ordered (s : Queue) : Prop :=
  s.sent.Sublist s.passed ∧ ∀ fit fite it f, s.pc = .sendto fit fite it f → s.dangling = false →
    ∃ log, s.passed = log ++ [(f, it)] ∧ s.sent.Sublist log

section Order

theorem Resumed.sent (h : Resumed peers s t) : t.sent = s.sent := by
  cases h <;> rfl

theorem Resumed.ordered (hr : Resumed peers s t) (h : s.sent.Sublist s.passed) : t.Ordered := by
  cases hr with
  | ended => exact ⟨h, fun _ _ _ _ hpc => by cases hpc⟩
  | called =>
    refine ⟨h.trans (List.sublist_append_left ..), fun _ _ _ _ hpc _ => ?_⟩
    cases hpc
    exact ⟨s.passed, rfl, h⟩
  | dangled => exact ⟨h, fun _ _ _ _ _ hd => by cases hd⟩

theorem ordered_step (hs : s.Shaped peers) (h : s.Ordered) (hstep : step peers s l = some t) :
    t.Ordered := by
  obtain ⟨hd, hstep⟩ := step_inv hstep
  cases l with
  | device moves =>
    obtain ⟨v, act, heq, -, -⟩ := serverDevice_eq s moves
    rw [hstep, heq]
    exact h
  | writable ok =>
    obtain ⟨-, rfl⟩ := hstep
    unfold Queue.dispatchWrite Queue.carryOut
    split
    · exact (resumed_resume hs.same).ordered h.1
    · rename_i fit fite it f hpc
      obtain ⟨log, hlog, hsub⟩ := h.2 fit fite it f hpc hd
      refine (resumed_resume hs.same).ordered ?_
      show (s.sent ++ [(f, it)]).Sublist s.passed
      rw [hlog]
      exact hsub.append_right _
  | wake =>
    obtain ⟨-, rfl⟩ := hstep
    exact (resumed_resume hs.same).ordered h.1

theorem sent_sublist_passed {ls : List Label} (h : Run (step peers) {} ls s) :
    s.sent.Sublist s.passed := by
  have hinv := h.invariant (P := fun s => s.Shaped peers ∧ s.Ordered)
    (fun _ _ _ hs hstep => ⟨shaped_step hs.1 hstep, ordered_step hs.1 hs.2 hstep⟩)
  exact (hinv ⟨shaped_init, List.Sublist.refl _, fun _ _ _ _ hpc => by cases hpc⟩).2.1

end Order

/-- The device fiber is silent while a round is suspended, and no send fails. -/
def QuietRound (s : Queue) : Label → Prop
  | .device _ => s.pc = .yield
  | .writable ok => ok = true
  | .wake => True

/-- Every call of `async_sendto` but the one that waits has been carried out. -/
def Queue.InStep (s : Queue) : Prop :=
  match s.pc with
  | .yield => s.writeAdded = false ∧ s.sent = s.passed
  | .sendto _ _ it f =>
      s.writeAdded = true ∧ s.yieldActive = false ∧ s.passed = s.sent ++ [(f, it)]

section Sent

theorem QuietRound.onTime (h : QuietRound s l) : OnTime s l ∧ l ≠ .writable false := by
  cases l with
  | device moves => exact ⟨.inr h, by simp⟩
  | writable ok => exact ⟨trivial, by simpa [QuietRound] using h⟩
  | wake => exact ⟨trivial, by simp⟩

theorem Resumed.inStep (hr : Resumed peers s t) (hd : t.dangling = false)
    (hadded : s.writeAdded = false) (hact : s.yieldActive = false) (hsent : s.sent = s.passed) :
    t.InStep := by
  cases hr with
  | ended => exact ⟨hadded, hsent⟩
  | called => exact ⟨rfl, hact, by rw [hsent]⟩
  | dangled => cases hd

theorem inStep_step (hs : s.Shaped peers) (ht : t.dangling = false) (h : s.InStep)
    (hq : QuietRound s l) (hstep : step peers s l = some t) : t.InStep := by
  obtain ⟨-, hstep⟩ := step_inv hstep
  cases l with
  | device moves =>
    obtain ⟨v, act, heq, -, -⟩ := serverDevice_eq s moves
    have hpc : s.pc = .yield := hq
    rw [hstep, heq]
    simpa only [Queue.InStep, hpc] using h
  | writable ok =>
    obtain ⟨hadded, rfl⟩ := hstep
    cases hpc : s.pc with
    | yield =>
      simp only [Queue.InStep, hpc] at h
      rw [h.1] at hadded
      cases hadded
    | sendto fit fite it f =>
      simp only [Queue.InStep, hpc] at h
      have hcarry : s.carryOut ok = { s with
          writeAdded := false, sent := s.sent ++ [(f, it)], failed := !ok } := by
        rw [Queue.carryOut, hpc]
      rw [Queue.dispatchWrite, hcarry] at ht ⊢
      exact (resumed_resume hs.same).inStep ht rfl h.2.1 h.2.2.symm
  | wake =>
    obtain ⟨hact, rfl⟩ := hstep
    cases hpc : s.pc with
    | yield =>
      simp only [Queue.InStep, hpc] at h
      exact (resumed_resume hs.same).inStep ht h.1 rfl h.2
    | sendto fit fite it f =>
      simp only [Queue.InStep, hpc] at h
      rw [h.2.1] at hact
      cases hact

/--
If the device fiber is silent while a round is suspended and no send fails, then what has
been sent between two rounds is every freed frame, once to every peer, in order.
-/
theorem sent_of_quiet {ls : List Label} (h : Along (step peers) QuietRound {} ls)
    (hrun : Run (step peers) {} ls s) (hpc : s.pc = .yield) : s.sent = round peers s.freed := by
  have hinv : Throughout (step peers)
      (fun s => s.Shaped peers ∧ s.Timely peers ∧ s.InStep) {} ls := by
    refine throughout_of_along (fun s l t hs hq hstep => ?_)
      ⟨shaped_init, timely_init, rfl, rfl⟩ h
    have ht := timely_step hs.2.1 hq.onTime.1 hq.onTime.2 hstep
    obtain ⟨_, hrunning, -⟩ := ht.running
    exact ⟨shaped_step hs.1 hstep, ht, inStep_step hs.1 hrunning.dangling hs.2.2 hq hstep⟩
  obtain ⟨-, htimely, hstep⟩ := hinv.last hrun
  simp only [Queue.Timely, Queue.InStep, hpc] at htimely hstep
  rw [hstep.2, htimely.passed, List.append_nil]

end Sent

end Tnetacle.Tunnel
