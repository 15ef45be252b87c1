import Tnetacle.Tunnel.Buffers

/-! # Every frame buffer has one owner

A run keeps every buffer with exactly one owner, as long as `frame_alloc` succeeds, a datagram that
was peeked at is then received, and no push moves the queue under a round that is
suspended. One step that breaks the condition breaks the ownership.
-/

namespace Tnetacle.Tunnel

open Growable Ledgers Runs

namespace Buffers

def held (s : Buffers) : List ℕ := s.tmp.held ++ s.framesToSend.data ++ s.currentFrame.held

/--
Every buffer has one owner, nothing else was used or freed, and no variable was left by a failed
`frame_alloc` with a buffer that is on the queue or freed.
-/
structure Sound (s : Buffers) : Prop where
  alive : s.fault = false
  balanced : Balanced s.heap s.held
  tmp : s.launched = true → ∀ n, s.tmp ≠ .shows (.buf n)
  currentFrame : s.udp = .recv → ∀ n, s.currentFrame ≠ .shows (.buf n)

/--
The label is harmless: the device fiber owns its buffer and gets the others it asks for; the
iterators of a round are not used after a move; and the receiver, which must not go on
with a buffer that it has freed, receives exactly when it has a buffer.
-/
def Careful (s : Buffers) : BufLabel → Prop
  | .device reads alloc =>
    (∃ n, s.tmp = .owns n) ∧ (∀ r ∈ reads, r.2 = true) ∧ alloc = true
  | .sent ok peers =>
    match s.brd with
    | .yield => True
    | .sendto fit fite _ _ =>
      fit.base = s.framesToSend.base ∨ ok = false ∧ (fit.next = fite ∨ peers = 0)
  | .peeked ok alloc => ok = true → alloc = true ∨ s.currentFrame = .shows .null
  | .received ok _ => ok = true ↔ ∃ n, s.currentFrame = .owns n
  | _ => True

structure Span (v : Vec ℕ) (fit fite : Iter) : Prop where
  base_le : fit.base ≤ v.base
  base_eq : fite.base = fit.base
  idx_le : fit.idx ≤ fite.idx
  le_length : fit.base = v.base → fite.idx ≤ v.data.length

structure Round (v : Vec ℕ) (fit fite : Iter) (frame : ℕ) : Prop extends Span v fit fite where
  idx_lt : fit.idx < fite.idx
  mem : frame ∈ v.data

structure Shaped (s : Buffers) : Prop where
  unlaunched : s.launched = false → s.tmp = .shows .wild
  tmp : s.tmp ≠ .shows .null
  currentFrame : s.currentFrame ≠ .shows .wild
  idle : s.udp = .peek ∨ s.udp = .exited → s.currentFrame.held = []
  busy : (s.udp = .write ∨ ∃ left, s.udp = .sendto left) → ∃ n, s.currentFrame = .owns n
  round : ∀ fit fite left frame, s.brd = .sendto fit fite left frame →
    Round s.framesToSend fit fite frame

structure Grown (s t : Buffers) : Prop where
  data : s.framesToSend.data <+: t.framesToSend.data
  base : s.framesToSend.base ≤ t.framesToSend.base
  launched : t.launched = s.launched
  brd : t.brd = s.brd
  udp : t.udp = s.udp
  currentFrame : t.currentFrame = s.currentFrame
  fault : t.fault = s.fault

variable {s t u : Buffers} {n : ℕ} {ok alloc moved : Bool} {reads : List (Bool × Bool)}
  {fit fite : Iter} {left frame peers : ℕ}

theorem Grown.refl (s : Buffers) : Grown s s :=
  ⟨List.prefix_refl _, Nat.le_refl _, rfl, rfl, rfl, rfl, rfl⟩

theorem Grown.trans (h : Grown s t) (h' : Grown t u) : Grown s u :=
  ⟨h.data.trans h'.data, Nat.le_trans h.base h'.base, h'.launched.trans h.launched,
    h'.brd.trans h.brd, h'.udp.trans h.udp, h'.currentFrame.trans h.currentFrame,
    h'.fault.trans h.fault⟩

theorem Grown.set_tmp (h : Grown s t) (heap : Ledger) (tmp : FrameVar) :
    Grown s { t with heap := heap, tmp := tmp } :=
  ⟨h.data, h.base, h.launched, h.brd, h.udp, h.currentFrame, h.fault⟩

theorem Round.grow (h : Round s.framesToSend fit fite frame) (hg : Grown s t) :
    Round t.framesToSend fit fite frame where
  base_le := Nat.le_trans h.base_le hg.base
  base_eq := h.base_eq
  idx_le := h.idx_le
  le_length heq := by
    have hbase := h.base_le
    have hle := hg.base
    exact Nat.le_trans (h.le_length (by omega)) hg.data.length_le
  idx_lt := h.idx_lt
  mem := hg.data.subset h.mem

theorem Shaped.grow (h : Shaped s) (hg : Grown s t) (hlaunched : s.launched = true)
    (htmp : t.tmp ≠ .shows .null) : Shaped t where
  unlaunched hno := by rw [hg.launched, hlaunched] at hno; cases hno
  tmp := htmp
  currentFrame := hg.currentFrame ▸ h.currentFrame
  idle := by rw [hg.udp, hg.currentFrame]; exact h.idle
  busy := by rw [hg.udp, hg.currentFrame]; exact h.busy
  round fit fite left frame hbrd := (h.round fit fite left frame (hg.brd ▸ hbrd)).grow hg

theorem held_eq_nil_iff {f : FrameVar} : f.held = [] ↔ ¬ ∃ n, f = .owns n := by
  cases f with
  | owns n => simp [FrameVar.held]
  | shows p => simp [FrameVar.held]

/-! ## The device fiber -/

theorem grown_allocTmp (s : Buffers) (ok : Bool) : Grown s (s.allocTmp ok) := by
  cases ok with
  | true => exact ⟨List.prefix_refl _, Nat.le_refl _, rfl, rfl, rfl, rfl, rfl⟩
  | false => exact .refl s

theorem balanced_allocTmp (h : Balanced s.heap s.held) (htmp : s.tmp.held = []) :
    Balanced (s.allocTmp true).heap (s.allocTmp true).held := by
  have halloc := h.alloc
  rwa [held, htmp] at halloc

theorem pushTmp_eq_some (h : s.pushTmp moved = some t) :
    ∃ n, s.tmp = .owns n ∧
      t = { s with framesToSend := s.framesToSend.push n moved, tmp := .shows (.buf n) } := by
  unfold pushTmp at h
  split at h
  · rename_i n htmp
    exact ⟨n, htmp, (Option.some.inj h).symm⟩
  · cases h

theorem grown_pushTmp (h : s.pushTmp moved = some t) : Grown s t := by
  obtain ⟨n, -, rfl⟩ := pushTmp_eq_some h
  refine ⟨List.prefix_append _ _, ?_, rfl, rfl, rfl, rfl, rfl⟩
  cases moved with
  | true => exact Nat.le_succ _
  | false => exact Nat.le_refl _

theorem balanced_pushTmp (h : Balanced s.heap s.held) (hpush : s.pushTmp moved = some t) :
    Balanced t.heap t.held := by
  obtain ⟨n, htmp, rfl⟩ := pushTmp_eq_some hpush
  refine h.congr ?_
  rw [held, htmp]
  have hcomm : ([n] ++ s.framesToSend.data).Perm (s.framesToSend.data ++ [n]) :=
    List.perm_append_comm
  exact hcomm.append_right _

theorem grown_readLoop (h : readLoop reads s = some t) : Grown s t := by
  induction reads generalizing s with
  | nil =>
    obtain rfl := Option.some.inj h
    exact .refl s
  | cons r reads ih =>
    obtain ⟨moved, ok⟩ := r
    obtain ⟨u, hpush, hrest⟩ := Option.bind_eq_some_iff.mp h
    exact ((grown_pushTmp hpush).trans (grown_allocTmp u ok)).trans (ih hrest)

theorem readLoop_of_alloc (htmp : s.tmp = .owns n) (hbal : Balanced s.heap s.held)
    (hreads : ∀ r ∈ reads, r.2 = true) :
    ∃ t m, readLoop reads s = some t ∧ t.tmp = .owns m ∧ Balanced t.heap t.held := by
  induction reads generalizing s n with
  | nil => exact ⟨s, n, rfl, htmp, hbal⟩
  | cons r reads ih =>
    obtain ⟨moved, ok⟩ := r
    rw [List.forall_mem_cons] at hreads
    obtain rfl : ok = true := hreads.1
    have hpush : s.pushTmp moved = some { s with
        framesToSend := s.framesToSend.push n moved, tmp := .shows (.buf n) } := by
      rw [pushTmp, htmp]
    have halloc := balanced_allocTmp (balanced_pushTmp hbal hpush) rfl
    obtain ⟨t, m, hrun, ht⟩ := ih rfl halloc hreads.2
    refine ⟨t, m, ?_, ht⟩
    rw [readLoop, hpush]
    exact hrun

theorem tmp_ne_null_of_readLoop (hnull : s.tmp ≠ .shows .null)
    (hrun : readLoop reads s = some t) : t.tmp ≠ .shows .null := by
  induction reads generalizing s with
  | nil =>
    obtain rfl := Option.some.inj hrun
    exact hnull
  | cons r reads ih =>
    obtain ⟨moved, ok⟩ := r
    obtain ⟨u, hpush, hrest⟩ := Option.bind_eq_some_iff.mp hrun
    obtain ⟨n, -, rfl⟩ := pushTmp_eq_some hpush
    exact ih (by cases ok <;> simp [allocTmp]) hrest

theorem held_of_readLoop (h : s.tmp.held = [] ∨ ∃ r ∈ reads, r.2 = false)
    (hrun : readLoop reads s = some t) : t.tmp.held = [] := by
  induction reads generalizing s with
  | nil =>
    obtain rfl := Option.some.inj hrun
    exact h.resolve_right (by simp)
  | cons r reads ih =>
    obtain ⟨moved, ok⟩ := r
    obtain ⟨u, hpush, hrest⟩ := Option.bind_eq_some_iff.mp hrun
    obtain ⟨n, htmp, rfl⟩ := pushTmp_eq_some hpush
    cases ok with
    | false => exact ih (.inl rfl) hrest
    | true =>
      refine ih (.inr ?_) hrest
      rw [htmp] at h
      simpa [FrameVar.held] using h

theorem serverDevice_of_alloc (htmp : s.tmp = .owns n) (hbal : Balanced s.heap s.held)
    (hreads : ∀ r ∈ reads, r.2 = true) (alloc : Bool) :
    ∃ u m, Grown s u ∧ u.tmp = .shows (.buf m) ∧ Balanced u.heap u.held ∧
      s.serverDevice reads alloc = some (u.allocTmp alloc) := by
  obtain ⟨u, m, hrun, hu, hbal'⟩ := readLoop_of_alloc htmp hbal hreads
  rw [held, hu] at hbal'
  obtain ⟨heap, hfree, hend⟩ := hbal'.free
  refine ⟨_, m, (grown_readLoop hrun).set_tmp heap (.shows (.buf m)), rfl, hend, ?_⟩
  simp [serverDevice, hrun, freeVar, hu, hfree]

theorem serverDevice_of_failure (hnull : s.tmp ≠ .shows .null)
    (h : s.tmp.held = [] ∨ ∃ r ∈ reads, r.2 = false) (alloc : Bool) :
    s.serverDevice reads alloc = none := by
  unfold serverDevice
  cases hrun : readLoop reads s with
  | none => rfl
  | some t =>
    have hheld := held_of_readLoop h hrun
    have hne := tmp_ne_null_of_readLoop hnull hrun
    have hfree : t.freeVar t.tmp = none := by
      unfold freeVar
      generalize t.tmp = f at hheld hne
      match f, hheld, hne with
      | .shows .wild, _, _ => rfl
      | .shows (.buf n), _, _ => rfl
      | .shows .null, _, hne => exact absurd rfl hne
    rw [Option.bind_eq_bind, Option.bind_some, hfree]
    rfl

theorem sound_device_iff (hs : Shaped s) (h : Sound s) (hlaunched : s.launched = true) :
    Sound (s.orFault (s.serverDevice reads alloc)) ↔
      (∃ n, s.tmp = .owns n) ∧ (∀ r ∈ reads, r.2 = true) ∧ alloc = true := by
  by_cases hok : (∃ n, s.tmp = .owns n) ∧ ∀ r ∈ reads, r.2 = true
  · obtain ⟨⟨n, htmp⟩, hreads⟩ := hok
    obtain ⟨u, m, hg, hu, hbal, hrun⟩ := serverDevice_of_alloc htmp h.balanced hreads alloc
    have hlaunched' : (u.allocTmp alloc).launched = true := by
      rw [(grown_allocTmp u alloc).launched, hg.launched, hlaunched]
    rw [hrun, orFault, Option.getD_some]
    constructor
    · intro hsound
      refine ⟨⟨n, htmp⟩, hreads, ?_⟩
      by_contra hno
      obtain rfl : alloc = false := by simpa using hno
      exact hsound.tmp hlaunched' m hu
    · rintro ⟨-, -, rfl⟩
      refine ⟨?_, balanced_allocTmp hbal (by rw [hu]; rfl), fun _ => nofun, ?_⟩
      · exact (hg.trans (grown_allocTmp u true)).fault.trans h.alive
      · rw [(hg.trans (grown_allocTmp u true)).udp, (hg.trans (grown_allocTmp u true)).currentFrame]
        exact h.currentFrame
  · have hfail : s.tmp.held = [] ∨ ∃ r ∈ reads, r.2 = false := by
      rcases not_and_or.mp hok with htmp | hreads
      · exact .inl (held_eq_nil_iff.mpr htmp)
      · obtain ⟨r, hr, hno⟩ : ∃ r ∈ reads, ¬ r.2 = true := by
          simpa only [not_forall, exists_prop] using hreads
        exact .inr ⟨r, hr, Bool.eq_false_iff.mpr hno⟩
    rw [serverDevice_of_failure hs.tmp hfail, orFault, Option.getD_none]
    constructor
    · intro hsound
      cases hsound.alive
    · rintro ⟨hown, hreads, -⟩
      exact absurd ⟨hown, hreads⟩ hok

theorem freeVar_eq_some {f g : FrameVar} {heap : Ledger} (h : s.freeVar f = some (heap, g)) :
    (∃ n, f = .owns n ∧ g = .shows (.buf n)) ∨ f = .shows .null ∧ g = f := by
  unfold freeVar at h
  split at h
  · rename_i n
    obtain ⟨l, -, heq⟩ := Option.map_eq_some_iff.mp h
    exact .inl ⟨n, rfl, (congrArg Prod.snd heq).symm⟩
  · exact .inr ⟨rfl, (congrArg Prod.snd (Option.some.inj h)).symm⟩
  · cases h

theorem grown_serverDevice (hnull : s.tmp ≠ .shows .null)
    (h : s.serverDevice reads alloc = some t) : Grown s t ∧ t.tmp ≠ .shows .null := by
  obtain ⟨u, hrun, h⟩ := Option.bind_eq_some_iff.mp h
  obtain ⟨⟨heap, tmp⟩, hfree, h⟩ := Option.bind_eq_some_iff.mp h
  obtain rfl := Option.some.inj h
  have hne := tmp_ne_null_of_readLoop hnull hrun
  have htmp : tmp ≠ .shows .null := by
    rcases freeVar_eq_some hfree with ⟨n, -, rfl⟩ | ⟨hnull', -⟩
    · simp
    · exact absurd hnull' hne
  have hfreed := (grown_readLoop hrun).set_tmp heap tmp
  refine ⟨hfreed.trans (grown_allocTmp _ alloc), ?_⟩
  cases alloc with
  | true => simp [allocTmp]
  | false => exact htmp

theorem shaped_orFault {r : Option Buffers} (hs : Shaped s) (h : ∀ t, r = some t → Shaped t) :
    Shaped (s.orFault r) := by
  cases r with
  | none => exact ⟨hs.unlaunched, hs.tmp, hs.currentFrame, hs.idle, hs.busy, hs.round⟩
  | some t => exact h t rfl

theorem not_sound_orFault_none : ¬ Sound (s.orFault none) := by
  intro h
  cases h.alive

theorem Sound.set_brd (h : Sound s) (pc : SendPc) : Sound { s with brd := pc } :=
  ⟨h.alive, h.balanced, h.tmp, h.currentFrame⟩

/-! ## The broadcaster -/

theorem Span.whole (v : Vec ℕ) : Span v v.first v.last :=
  ⟨Nat.le_refl _, rfl, Nat.zero_le _, fun _ => Nat.le_refl _⟩

theorem Round.ne {v : Vec ℕ} (h : Round v fit fite frame) : fit ≠ fite := by
  rintro rfl
  exact Nat.lt_irrefl _ h.idx_lt

theorem Round.next {v : Vec ℕ} (h : Round v fit fite frame) : Span v fit.next fite :=
  ⟨h.base_le, h.base_eq, h.idx_lt, h.le_length⟩

theorem Span.deref {v : Vec ℕ} (h : Span v fit fite) (hne : fit ≠ fite)
    (hbase : fit.base = v.base) : ∃ n, v.deref fit = some n ∧ Round v fit fite n := by
  have hlt : fit.idx < fite.idx := by
    refine Nat.lt_of_le_of_ne h.idx_le fun heq => hne ?_
    obtain ⟨b, i⟩ := fit
    obtain ⟨b', i'⟩ := fite
    obtain rfl : b' = b := h.base_eq
    obtain rfl : i = i' := heq
    rfl
  have hlen : fit.idx < v.data.length := Nat.lt_of_lt_of_le hlt (h.le_length hbase)
  have hget : v.data[fit.idx]? = some v.data[fit.idx] := List.getElem?_eq_getElem hlen
  exact ⟨_, (Vec.deref_eq_some_iff v).mpr ⟨hbase, hget⟩, h, hlt, List.getElem_mem hlen⟩

theorem deref_of_moved {v : Vec ℕ} (h : fit.base ≠ v.base) : v.deref fit = none := if_neg h

theorem callSendto_eq (h : s.framesToSend.deref fit = some n) (left : ℕ) :
    s.callSendto fit fite left = some { s with brd := .sendto fit fite left n } := by
  rw [callSendto, h]
  rfl

theorem finish_of_balanced (h : Balanced s.heap s.held) :
    ∃ heap, s.finish = some { s with
      heap := heap, framesToSend := s.framesToSend.clean, brd := .yield } ∧
        Balanced heap (s.tmp.held ++ s.currentFrame.held) := by
  have hperm : s.held.Perm (s.framesToSend.data ++ (s.tmp.held ++ s.currentFrame.held)) := by
    rw [held, ← List.append_assoc]
    exact List.perm_append_comm.append_right _
  obtain ⟨heap, hfree, hbal⟩ := (h.congr hperm).freeAll
  exact ⟨heap, by rw [finish, hfree]; rfl, hbal⟩

theorem sound_finish (h : Sound s) : Sound (s.orFault s.finish) := by
  obtain ⟨heap, hfinish, hbal⟩ := finish_of_balanced h.balanced
  rw [hfinish, orFault, Option.getD_some]
  refine ⟨h.alive, ?_, h.tmp, h.currentFrame⟩
  simpa [held] using hbal

/-- The loop over the frames goes on well, unless it uses an iterator after a move. -/
theorem sound_frameLoop_iff (h : Sound s) (hspan : Span s.framesToSend fit fite) :
    Sound (s.orFault (s.frameLoop fit fite peers)) ↔
      fit.base = s.framesToSend.base ∨ fit = fite ∨ peers = 0 := by
  unfold frameLoop
  by_cases hend : fit = fite ∨ peers = 0
  · rw [if_pos hend]
    exact ⟨fun _ => .inr hend, fun _ => sound_finish h⟩
  · rw [if_neg hend]
    have hne : fit ≠ fite := fun heq => hend (.inl heq)
    by_cases hbase : fit.base = s.framesToSend.base
    · obtain ⟨n, hderef, -⟩ := hspan.deref hne hbase
      rw [callSendto_eq hderef, orFault, Option.getD_some]
      exact ⟨fun _ => .inl hbase, fun _ => h.set_brd _⟩
    · rw [callSendto, deref_of_moved hbase]
      exact ⟨fun hsound => absurd hsound not_sound_orFault_none,
        fun hor => absurd hor (not_or.mpr ⟨hbase, hend⟩)⟩

theorem sound_sent_iff (h : Sound s) (hround : Round s.framesToSend fit fite frame) :
    Sound (s.orFault (s.afterSendto fit fite left frame ok peers)) ↔
      fit.base = s.framesToSend.base ∨ ok = false ∧ (fit.next = fite ∨ peers = 0) := by
  unfold afterSendto
  rw [if_neg (not_not_intro hround.mem)]
  cases ok with
  | false =>
    rw [if_neg (by simp), sound_frameLoop_iff h hround.next]
    simp [Iter.next]
  | true =>
    rw [if_pos rfl]
    by_cases hbase : fit.base = s.framesToSend.base
    · obtain ⟨n, hderef, -⟩ := hround.toSpan.deref hround.ne hbase
      rw [hderef, Option.bind_eq_bind, Option.bind_some]
      refine ⟨fun _ => .inl hbase, fun _ => ?_⟩
      split
      · rw [callSendto_eq hderef, orFault, Option.getD_some]
        exact h.set_brd _
      · exact (sound_frameLoop_iff h hround.next).mpr (.inl hbase)
    · rw [deref_of_moved hbase]
      refine ⟨fun hsound => absurd hsound not_sound_orFault_none, fun hor => ?_⟩
      simp [hbase] at hor

theorem shaped_callSendto (hs : Shaped s) (hspan : Span s.framesToSend fit fite) (hne : fit ≠ fite)
    (h : s.callSendto fit fite left = some t) : Shaped t := by
  obtain ⟨n, hderef, h⟩ := Option.bind_eq_some_iff.mp h
  obtain rfl := Option.some.inj h
  obtain ⟨m, hm, hround⟩ := hspan.deref hne ((Vec.deref_eq_some_iff _).mp hderef).1
  obtain rfl := Option.some.inj (hderef.symm.trans hm)
  refine ⟨hs.unlaunched, hs.tmp, hs.currentFrame, hs.idle, hs.busy,
    fun fit' fite' left' frame' hbrd => ?_⟩
  cases hbrd
  exact hround

theorem shaped_frameLoop (hs : Shaped s) (hspan : Span s.framesToSend fit fite)
    (h : s.frameLoop fit fite peers = some t) : Shaped t := by
  unfold frameLoop at h
  split at h
  · obtain ⟨heap, -, h⟩ := Option.bind_eq_some_iff.mp h
    obtain rfl := Option.some.inj h
    exact ⟨hs.unlaunched, hs.tmp, hs.currentFrame, hs.idle, hs.busy, nofun⟩
  · rename_i hend
    exact shaped_callSendto hs hspan (fun heq => hend (.inl heq)) h

theorem shaped_afterSendto (hs : Shaped s) (hround : Round s.framesToSend fit fite frame)
    (h : s.afterSendto fit fite left frame ok peers = some t) : Shaped t := by
  unfold afterSendto at h
  rw [if_neg (not_not_intro hround.mem)] at h
  split at h
  · obtain ⟨n, -, h⟩ := Option.bind_eq_some_iff.mp h
    split at h
    · exact shaped_callSendto hs hround.toSpan hround.ne h
    · exact shaped_frameLoop hs hround.next h
  · exact shaped_frameLoop hs hround.next h

/-! ## The receiver -/

theorem shaped_exitUdp (hs : Shaped s) : Shaped s.exitUdp := by
  refine ⟨hs.unlaunched, hs.tmp, ?_, fun _ => ?_, ?_, hs.round⟩
  · rw [exitUdp]
    split
    · simp
    · exact hs.currentFrame
  · rw [exitUdp]
    cases s.currentFrame <;> rfl
  · rintro (hpc | ⟨left, hpc⟩) <;> cases hpc

theorem held_perm_of_owns (h : s.currentFrame = .owns n) :
    s.held.Perm (n :: (s.tmp.held ++ s.framesToSend.data)) := by
  rw [held, h]
  exact List.perm_append_singleton n _

/-- The end of the fiber loses the buffer that its variable owns. -/
theorem sound_exitUdp_iff (h : Sound s) : Sound s.exitUdp ↔ ¬ ∃ n, s.currentFrame = .owns n := by
  constructor
  · rintro hsound ⟨n, hn⟩
    have hlost : s.exitUdp.held = s.tmp.held ++ s.framesToSend.data := by
      simp [held, exitUdp, hn, FrameVar.held]
    have hbal := hsound.balanced
    rw [hlost] at hbal
    exact (h.balanced.congr (held_perm_of_owns hn)).not_of_lost hbal
  · intro hno
    have hsame : s.exitUdp.currentFrame = s.currentFrame := by
      rw [exitUdp]
      split
      · rename_i n hn
        exact absurd ⟨n, hn⟩ hno
      · rfl
    refine ⟨h.alive, ?_, h.tmp, nofun⟩
    rw [held, hsame]
    exact h.balanced

theorem sound_peeked_iff (hs : Shaped s) (h : Sound s) (hpc : s.udp = .peek) :
    Sound (s.afterPeek ok alloc) ↔ (ok = true → alloc = true ∨ s.currentFrame = .shows .null) := by
  have hheld := hs.idle (.inl hpc)
  have hno := held_eq_nil_iff.mp hheld
  cases ok with
  | false => exact ⟨fun _ => nofun, fun _ => (sound_exitUdp_iff h).mpr hno⟩
  | true =>
    cases alloc with
    | true =>
      refine ⟨fun _ _ => .inl rfl, fun _ => ⟨h.alive, ?_, h.tmp, fun _ => nofun⟩⟩
      have halloc := h.balanced.alloc_append
      rwa [held, hheld, List.append_nil] at halloc
    | false =>
      constructor
      · intro hsound _
        refine .inr ?_
        have hne := hsound.currentFrame rfl
        have hwild := hs.currentFrame
        have hcurrent : ({ s.allocCurrent false with udp := .recv } : Buffers).currentFrame =
            s.currentFrame := rfl
        generalize s.currentFrame = f at *
        match f with
        | .owns n => exact absurd ⟨n, rfl⟩ hno
        | .shows .null => rfl
        | .shows .wild => exact absurd rfl hwild
        | .shows (.buf n) => exact absurd hcurrent (hne n)
      · intro hnull
        have hcurrent : s.currentFrame = .shows .null := (hnull rfl).resolve_left (by simp)
        refine ⟨h.alive, h.balanced, h.tmp, fun _ n heq => ?_⟩
        have heq : s.currentFrame = .shows (.buf n) := heq
        rw [hcurrent] at heq
        cases heq

theorem shaped_afterPeek (hs : Shaped s) : Shaped (s.afterPeek ok alloc) := by
  cases ok with
  | false => exact shaped_exitUdp hs
  | true =>
    have hidle : RecvPc.recv = .peek ∨ RecvPc.recv = .exited → False := by
      rintro (hpc | hpc) <;> cases hpc
    have hbusy : (RecvPc.recv = .write ∨ ∃ left, RecvPc.recv = .sendto left) → False := by
      rintro (hpc | ⟨left, hpc⟩) <;> cases hpc
    cases alloc with
    | true =>
      exact ⟨hs.unlaunched, hs.tmp, nofun, fun h => (hidle h).elim, fun h => (hbusy h).elim,
        hs.round⟩
    | false =>
      exact ⟨hs.unlaunched, hs.tmp, hs.currentFrame, fun h => (hidle h).elim,
        fun h => (hbusy h).elim, hs.round⟩

theorem Shaped.set_busy (hs : Shaped s) (hcurrent : s.currentFrame = .owns n) {pc : RecvPc}
    (hpc : pc ≠ .peek ∧ pc ≠ .exited) : Shaped { s with udp := pc } :=
  ⟨hs.unlaunched, hs.tmp, hs.currentFrame, fun h => absurd h (not_or.mpr hpc),
    fun _ => ⟨n, hcurrent⟩, hs.round⟩

theorem Sound.set_busy (h : Sound s) {pc : RecvPc} (hpc : pc ≠ .recv) :
    Sound { s with udp := pc } :=
  ⟨h.alive, h.balanced, h.tmp, fun heq => absurd heq hpc⟩

theorem afterRecv_of_owns (hcurrent : s.currentFrame = .owns n) (others : ℕ) :
    s.afterRecv true others =
      some { s with udp := if others = 0 then .write else .sendto others } := by
  rw [afterRecv, if_pos rfl, hcurrent]

theorem sound_received_iff (h : Sound s) (others : ℕ) :
    Sound (s.orFault (s.afterRecv ok others)) ↔ (ok = true ↔ ∃ n, s.currentFrame = .owns n) := by
  cases ok with
  | false =>
    rw [afterRecv, if_neg (by simp), orFault, Option.getD_some, sound_exitUdp_iff h]
    simp
  | true =>
    cases hcurrent : s.currentFrame with
    | owns n =>
      rw [afterRecv_of_owns hcurrent, orFault, Option.getD_some]
      exact ⟨fun _ => by simp, fun _ => h.set_busy (by split <;> simp)⟩
    | shows p =>
      have hnone : s.afterRecv true others = none := by
        rw [afterRecv, if_pos rfl, hcurrent]
      rw [hnone]
      refine ⟨fun hsound => absurd hsound not_sound_orFault_none, fun hiff => ?_⟩
      simp at hiff

theorem shaped_afterRecv (hs : Shaped s) {others : ℕ} (h : s.afterRecv ok others = some t) :
    Shaped t := by
  unfold afterRecv at h
  split at h
  · split at h
    · rename_i n hcurrent
      obtain rfl := Option.some.inj h
      exact hs.set_busy hcurrent (by split <;> simp)
    · cases h
  · obtain rfl := Option.some.inj h
    exact shaped_exitUdp hs

theorem afterForward_eq (hcurrent : s.currentFrame = .owns n) (left : ℕ) (ok : Bool) :
    s.afterForward left ok =
      some { s with udp := if ok ∧ 1 < left then .sendto (left - 1) else .write } := by
  rw [afterForward, hcurrent]

theorem afterWrite_of_balanced (hcurrent : s.currentFrame = .owns n)
    (h : Balanced s.heap s.held) :
    ∃ heap, s.afterWrite = some { s with
      heap := heap, currentFrame := .shows (.buf n), udp := .peek } ∧
        Balanced heap (s.tmp.held ++ s.framesToSend.data) := by
  obtain ⟨heap, hfree, hbal⟩ := (h.congr (held_perm_of_owns hcurrent)).free
  exact ⟨heap, by simp [afterWrite, freeVar, hcurrent, hfree], hbal⟩

theorem sound_written (h : Sound s) (hcurrent : s.currentFrame = .owns n) :
    Sound (s.orFault s.afterWrite) := by
  obtain ⟨heap, hrun, hbal⟩ := afterWrite_of_balanced hcurrent h.balanced
  rw [hrun, orFault, Option.getD_some]
  refine ⟨h.alive, ?_, h.tmp, nofun⟩
  simpa [held, FrameVar.held] using hbal

theorem shaped_afterWrite (hs : Shaped s) (h : s.afterWrite = some t) : Shaped t := by
  unfold afterWrite at h
  split at h
  · rename_i n hcurrent
    obtain ⟨⟨heap, f⟩, hfree, h⟩ := Option.bind_eq_some_iff.mp h
    obtain rfl := Option.some.inj h
    rw [hcurrent] at hfree
    obtain rfl : f = .shows (.buf n) := by
      rcases freeVar_eq_some hfree with ⟨m, hm, rfl⟩ | ⟨hnull, -⟩
      · cases hm
        rfl
      · cases hnull
    refine ⟨hs.unlaunched, hs.tmp, nofun, fun _ => rfl, ?_, hs.round⟩
    rintro (hpc | ⟨left, hpc⟩) <;> cases hpc
  · cases h

/-! ## Runs -/

theorem shaped_init : Shaped {} where
  unlaunched _ := rfl
  tmp := nofun
  currentFrame := nofun
  idle _ := rfl
  busy := by rintro (hpc | ⟨left, hpc⟩) <;> cases hpc
  round := nofun

theorem sound_init : Sound {} := ⟨rfl, .empty, nofun, nofun⟩

end Buffers

variable {s t : Buffers} {l : BufLabel}

open Buffers

inductive BufChange (s : Buffers) : BufLabel → Buffers → Prop
  | launchDevice {alloc : Bool} : s.launched = false →
      BufChange s (.launchDevice alloc) { s.allocTmp alloc with launched := true }
  | device {reads : List (Bool × Bool)} {alloc : Bool} : s.launched = true →
      BufChange s (.device reads alloc) (s.orFault (s.serverDevice reads alloc))
  | wake {peers : ℕ} : s.brd = .yield →
      BufChange s (.wake peers)
        (s.orFault (s.frameLoop s.framesToSend.first s.framesToSend.last peers))
  | sent {ok : Bool} {peers left frame : ℕ} {fit fite : Iter} :
      s.brd = .sendto fit fite left frame →
      BufChange s (.sent ok peers) (s.orFault (s.afterSendto fit fite left frame ok peers))
  | peeked {ok alloc : Bool} : s.udp = .peek → BufChange s (.peeked ok alloc) (s.afterPeek ok alloc)
  | received {ok : Bool} {others : ℕ} : s.udp = .recv →
      BufChange s (.received ok others) (s.orFault (s.afterRecv ok others))
  | forwarded {ok : Bool} {left : ℕ} : s.udp = .sendto left →
      BufChange s (.forwarded ok) (s.orFault (s.afterForward left ok))
  | written : s.udp = .write → BufChange s .written (s.orFault s.afterWrite)

theorem bufChange_of_step (h : bufStep s l = some t) : BufChange s l t := by
  unfold bufStep at h
  split at h
  · cases h
  · cases l with
    | launchDevice alloc =>
      obtain ⟨hno, heq⟩ := Option.ite_none_left_eq_some.mp h
      exact Option.some.inj heq ▸ .launchDevice (by simpa using hno)
    | device reads alloc =>
      obtain ⟨hyes, heq⟩ := Option.ite_none_right_eq_some.mp h
      exact Option.some.inj heq ▸ .device hyes
    | wake peers =>
      cases hpc : s.brd with
      | yield =>
        rw [hpc] at h
        exact Option.some.inj h ▸ .wake hpc
      | sendto fit fite left frame =>
        rw [hpc] at h
        cases h
    | sent ok peers =>
      cases hpc : s.brd with
      | yield =>
        rw [hpc] at h
        cases h
      | sendto fit fite left frame =>
        rw [hpc] at h
        exact Option.some.inj h ▸ .sent hpc
    | peeked ok alloc =>
      obtain ⟨hpc, heq⟩ := Option.ite_none_right_eq_some.mp h
      exact Option.some.inj heq ▸ .peeked hpc
    | received ok others =>
      obtain ⟨hpc, heq⟩ := Option.ite_none_right_eq_some.mp h
      exact Option.some.inj heq ▸ .received hpc
    | forwarded ok =>
      cases hpc : s.udp with
      | sendto left =>
        rw [hpc] at h
        exact Option.some.inj h ▸ .forwarded hpc
      | _ =>
        rw [hpc] at h
        cases h
    | written =>
      obtain ⟨hpc, heq⟩ := Option.ite_none_right_eq_some.mp h
      exact Option.some.inj heq ▸ .written hpc

theorem shaped_bufStep (hs : s.Shaped) (h : bufStep s l = some t) : t.Shaped := by
  cases bufChange_of_step h with
  | @launchDevice alloc _ =>
    cases alloc with
    | true => exact ⟨nofun, nofun, hs.currentFrame, hs.idle, hs.busy, hs.round⟩
    | false => exact ⟨nofun, hs.tmp, hs.currentFrame, hs.idle, hs.busy, hs.round⟩
  | device hlaunched =>
    refine shaped_orFault hs fun u hu => ?_
    obtain ⟨hg, htmp⟩ := grown_serverDevice hs.tmp hu
    exact hs.grow hg hlaunched htmp
  | wake _ => exact shaped_orFault hs fun u hu => shaped_frameLoop hs (.whole _) hu
  | sent hpc =>
    exact shaped_orFault hs fun u hu => shaped_afterSendto hs (hs.round _ _ _ _ hpc) hu
  | peeked _ => exact shaped_afterPeek hs
  | received _ => exact shaped_orFault hs fun u hu => shaped_afterRecv hs hu
  | forwarded hpc =>
    obtain ⟨n, hcurrent⟩ := hs.busy (.inr ⟨_, hpc⟩)
    rw [afterForward_eq hcurrent]
    exact hs.set_busy hcurrent (by split <;> simp)
  | written _ => exact shaped_orFault hs fun u hu => shaped_afterWrite hs hu

/-- A step keeps the ownership exactly when its label is harmless. -/
theorem sound_bufStep_iff (hs : s.Shaped) (h : s.Sound) (hstep : bufStep s l = some t) :
    t.Sound ↔ s.Careful l := by
  cases bufChange_of_step hstep with
  | @launchDevice alloc hno =>
    refine ⟨fun _ => trivial, fun _ => ?_⟩
    have htmp := hs.unlaunched hno
    cases alloc with
    | true =>
      have hbal := balanced_allocTmp h.balanced (by rw [htmp]; rfl)
      exact ⟨h.alive, hbal, fun _ => nofun, h.currentFrame⟩
    | false =>
      refine ⟨h.alive, h.balanced, fun _ n heq => ?_, h.currentFrame⟩
      cases htmp.symm.trans heq
  | device hlaunched => exact sound_device_iff hs h hlaunched
  | wake hpc =>
    exact ⟨fun _ => trivial, fun _ => (sound_frameLoop_iff h (.whole _)).mpr (.inl rfl)⟩
  | sent hpc =>
    rw [sound_sent_iff h (hs.round _ _ _ _ hpc), Careful, hpc]
  | peeked hpc => exact sound_peeked_iff hs h hpc
  | received _ => exact sound_received_iff h _
  | forwarded hpc =>
    obtain ⟨n, hcurrent⟩ := hs.busy (.inr ⟨_, hpc⟩)
    rw [afterForward_eq hcurrent]
    exact ⟨fun _ => trivial, fun _ => h.set_busy (by split <;> simp)⟩
  | written hpc =>
    obtain ⟨n, hcurrent⟩ := hs.busy (.inl hpc)
    exact ⟨fun _ => trivial, fun _ => sound_written h hcurrent⟩

/--
In every run of the three fibers, every buffer has exactly one owner in every state, is used only
while it is owned and is freed once, if and only if every step of the run is harmless.
-/
theorem buffers_owned_iff (ls : List BufLabel) :
    Throughout bufStep Sound {} ls ↔ Along bufStep Careful {} ls :=
  throughout_iff_along (fun _ _ _ hs h => shaped_bufStep hs h)
    (fun _ _ _ hs h hstep => sound_bufStep_iff hs h hstep) Buffers.shaped_init
    Buffers.sound_init

/--
The second allocation of the device fiber fails: its variable still shows the frame that it has
just pushed, and `frame_free` releases the entry of the queue. The second receive call of
`frame_recvfrom` fails: the fiber ends, and its buffer is lost.
-/
theorem ownership_broken :
    ¬ Throughout bufStep Sound {} [.launchDevice true, .device [(false, false)] true] ∧
      ¬ Throughout bufStep Sound {} [.peeked true true, .received false 0] := by
  constructor
  · intro h
    have hlast := h.last (.cons rfl (.cons rfl (.nil _)))
    cases hlast.alive
  · intro h
    have hlast := h.last (.cons rfl (.cons rfl (.nil _)))
    cases hlast.balanced.perm.length_eq

end Tnetacle.Tunnel
