import Mathlib.Data.List.Perm.Lattice
import Tnetacle.Fibers.Exit
import Tnetacle.Meta.Buffers
import Tnetacle.Meta.Listeners
import Tnetacle.Meta.Ownership
import Tnetacle.Tunnel.Buffers

/-! # The end of the daemon

When its event loop ends, the daemon releases what it has: the listeners, the UDP side with its two
fibers, the connections of the two lists and the frames that wait. It goes by what it still points
to, so that what has been lost on the way stays, and what has been freed on the way is freed again.
-/

namespace Tnetacle.Meta

open ByteOrder Ledgers Runs

/-- `v_mc_foreach` with `mc_close`. -/
def Server.closeAll (s : Server) (mcs : List Mc) : Server := mcs.foldl Server.mcClose s

/--
`server_udp_exit`, which goes by the pointer that it is given. The peers are registered without
DTLS, so that `udp_peer_free` has nothing to free.
-/
def serverUdpExit (l : Listening) : Option Listening := do
  let udp ← l.udp
  let sockets ← l.sockets.free udp.fd
  let evSched ← l.evSched.deleteOnce udp.udpBrdFib
  let evSched ← evSched.deleteOnce udp.udpRecvFib
  return { l with sockets := sockets, evSched := evSched }

structure Remains where
  listening : Listening
  server : Server
  heap : Ledger

/-- `server_delete`, or nothing if it follows a pointer to nowhere or frees something twice. -/
def serverDelete (l : Listening) (s : Server) (b : Tunnel.Buffers) : Option Remains := do
  let listeners ← l.listeners.freeAll (l.srvList.map Listener.evl)
  let l ← serverUdpExit { l with listeners := listeners }
  let s := (s.closeAll s.pendingPeers).closeAll s.peers
  if s.fault.isSome then none
  else do
    let heap ← b.heap.freeAll b.framesToSend.data
    return ⟨l, s, heap⟩

/-- No listener, socket or connection is left, and the first fibers have been deleted once each. -/
structure Remains.Empty (r : Remains) (fibers : ℕ) : Prop where
  listeners : r.listening.listeners.live = []
  sockets : r.listening.sockets.live = []
  fibers : ∀ f < fibers, ∃ fib, r.listening.evSched.fibers[f]? = some fib ∧
    fib.released.map = 1 ∧ fib.released.stack = 1
  bevs : r.server.bevs = []
  blocks : r.server.blocks = []

/-- Every frame that waits has a buffer of its own, which is allocated. -/
def Queued (b : Tunnel.Buffers) : Prop := b.framesToSend.data.Subperm b.heap.live

/--
A daemon that `server_init` has set up has come to its end: its callbacks and its fibers have
run, and nobody has deleted a fiber.
-/
structure Ran (P : Platform) (as : List ListenAddr) (cs : List (Sockaddr × Bool)) (l : Listening)
    (s : Server) : Prop where
  server : ∃ ctx e, Reachable (serve P) (init ctx e) s
  alive : s.fault = none
  fibers : ∃ ls, Run Fibers.step (serverInit P as cs).evSched ls l.evSched ∧ ∀ f, .delete f ∉ ls
  listening : l = { serverInit P as cs with evSched := l.evSched }

/-! ## The connections -/

/-- The two pointers of an entry are handed out together, and no block is handed out twice. -/
structure Server.Paired (s : Server) : Prop where
  held : ∀ mc ∈ s.held, mc.address.ptr = mc.bev.ptr
  blocks_nodup : s.blocks.Nodup

section Connections

variable {P : Platform} {s t : Server} {l : Label} {mc : Mc}

theorem Server.Paired.shrink (h : s.Paired) (hheld : t.held ⊆ s.held)
    (hblocks : t.blocks.Sublist s.blocks) : t.Paired :=
  ⟨fun mc hmc => h.held mc (hheld hmc), h.blocks_nodup.sublist hblocks⟩

theorem Server.Paired.remove {k : ℕ} (h : s.Paired) (hheld : s.held.Perm (mc :: t.held))
    (hblocks : t.blocks = s.blocks.erase k) : t.Paired := by
  apply h.shrink
  · intro mc' hmc'
    exact hheld.mem_iff.mpr (List.mem_cons_of_mem _ hmc')
  · rw [hblocks]
    exact List.erase_sublist

theorem Server.Paired.allocate (h : s.Paired) (hi : s.Identified) : s.allocate.Paired :=
  ⟨h.held, h.blocks_nodup.append (List.nodup_singleton _)
    (List.disjoint_singleton.mpr hi.blocks_next)⟩

theorem paired_step (hi : s.Identified) (h : s.Paired) (hstep : step P s l = some t) :
    t.Paired := by
  cases change_of_step hstep with
  | idle _ hsame _ | registered _ hsame _ =>
    apply h.shrink
    · intro mc hmc
      rwa [Server.held, hsame.peers, hsame.pendingPeers] at hmc
    · rw [hsame.blocks]
  | leaked => exact h.allocate hi
  | opened =>
    refine ⟨fun mc hmc => ?_, (h.allocate hi).blocks_nodup⟩
    rcases List.mem_cons.mp (held_insertPending.subset hmc) with rfl | hold
    · rfl
    · exact h.held mc hold
  | established _ hmc _ =>
    obtain rfl := ptr_eq_of_find? hmc
    exact h.shrink (held_establish hmc).subset (List.Sublist.refl _)
  | refused _ hmc _ =>
    obtain rfl := ptr_eq_of_find? hmc
    exact h.remove (held_refuse hmc) (mcClose_blocks _ _)
  | disconnected _ hmc =>
    obtain rfl := ptr_eq_of_find? hmc
    exact h.remove (held_disconnect hmc) (mcClose_blocks _ _)
  | droppedPending _ hmc =>
    obtain rfl := ptr_eq_of_find? hmc
    exact h.remove (held_dropPending hmc) (mcClose_blocks _ _)
  | droppedPeer _ _ hmc =>
    obtain rfl := ptr_eq_of_find? hmc
    exact h.remove (held_dropPeer hmc) (mcClose_blocks _ _)

theorem paired_of_reachable {ctx : Bool} {e : Endpoint}
    (h : Reachable (step P) (init ctx e) s) : s.Identified ∧ s.Paired := by
  refine h.invariant (P := fun s => s.Identified ∧ s.Paired) ?_ ⟨identified_init ctx e, ?_⟩
  · rintro s l t ⟨hi, hp⟩ hstep
    exact ⟨identified_step hi hstep, paired_step hi hp hstep⟩
  · exact ⟨fun _ h => absurd h List.not_mem_nil, List.nodup_nil⟩

theorem closeAll_cons (s : Server) (mc : Mc) (mcs : List Mc) :
    s.closeAll (mc :: mcs) = (s.mcClose mc).closeAll mcs :=
  rfl

def Server.Live (s : Server) (mc : Mc) : Prop := mc.bev.ptr ∈ s.bevs ∧ mc.address.ptr ∈ s.blocks

/-- A close that succeeds leaves no fault behind, and one that fails does. -/
theorem fault_mcClose_iff (hf : s.fault = none) : (s.mcClose mc).fault = none ↔ s.Live mc := by
  unfold Server.mcClose Server.freeBev Server.freeBlock Server.Live
  by_cases hb : mc.address.ptr ∈ s.blocks <;> by_cases hv : mc.bev.ptr ∈ s.bevs <;>
    simp [hb, hv, hf]

theorem fault_mcClose_of_fault (hf : s.fault ≠ none) : (s.mcClose mc).fault ≠ none := by
  unfold Server.mcClose Server.freeBev Server.freeBlock
  by_cases hb : mc.address.ptr ∈ s.blocks <;> by_cases hv : mc.bev.ptr ∈ s.bevs <;>
    simp [hb, hv, hf]

theorem fault_closeAll_of_fault (hf : s.fault ≠ none) (mcs : List Mc) :
    (s.closeAll mcs).fault ≠ none := by
  induction mcs generalizing s with
  | nil => exact hf
  | cons mc mcs ih => exact ih (fault_mcClose_of_fault hf)

theorem closeAll_bevs (s : Server) (mcs : List Mc) :
    (s.closeAll mcs).bevs = s.bevs.diff (mcs.map (·.bev.ptr)) := by
  induction mcs generalizing s with
  | nil => rfl
  | cons mc mcs ih => rw [closeAll_cons, ih, mcClose_bevs, List.map_cons, List.diff_cons]

theorem closeAll_blocks (s : Server) (mcs : List Mc) :
    (s.closeAll mcs).blocks = s.blocks.diff (mcs.map (·.address.ptr)) := by
  induction mcs generalizing s with
  | nil => rfl
  | cons mc mcs ih => rw [closeAll_cons, ih, mcClose_blocks, List.map_cons, List.diff_cons]

/-- Entries with pointers of their own are all closed without a fault if and only if all of them
are allocated: closing one does not free another. -/
theorem fault_closeAll_iff {mcs : List Mc} (hf : s.fault = none)
    (hb : (mcs.map (·.bev.ptr)).Nodup) (hk : (mcs.map (·.address.ptr)).Nodup) :
    (s.closeAll mcs).fault = none ↔ ∀ mc ∈ mcs, s.Live mc := by
  induction mcs generalizing s with
  | nil => simp [Server.closeAll, hf]
  | cons mc mcs ih =>
    rw [List.map_cons, List.nodup_cons] at hb hk
    rw [closeAll_cons, List.forall_mem_cons]
    by_cases hlive : s.Live mc
    · rw [ih ((fault_mcClose_iff hf).mpr hlive) hb.2 hk.2]
      simp only [hlive, true_and]
      apply forall₂_congr
      intro mc' hmc'
      have hbne : mc'.bev.ptr ≠ mc.bev.ptr := fun h => hb.1 (h ▸ List.mem_map_of_mem hmc')
      have hkne : mc'.address.ptr ≠ mc.address.ptr := fun h => hk.1 (h ▸ List.mem_map_of_mem hmc')
      rw [Server.Live, mcClose_bevs, mcClose_blocks, List.mem_erase_of_ne hbne,
        List.mem_erase_of_ne hkne, Server.Live]
    · simp only [hlive, false_and, iff_false]
      exact fault_closeAll_of_fault (fun h => hlive ((fault_mcClose_iff hf).mp h)) mcs

theorem Server.Paired.address_eq (h : s.Paired) :
    s.held.map (·.address.ptr) = s.held.map (·.bev.ptr) :=
  List.map_congr_left h.held

theorem diff_eq_nil_iff {l l' : List ℕ} (h : l.Nodup) : l.diff l' = [] ↔ l ⊆ l' := by
  rw [List.eq_nil_iff_forall_not_mem]
  constructor
  · intro hnone b hb
    by_contra hb'
    exact hnone b ((h.mem_sdiff_iff).mpr ⟨hb, hb'⟩)
  · intro hsub b hb
    obtain ⟨hmem, hno⟩ := h.mem_sdiff_iff.mp hb
    exact hno (hsub hmem)

/-- The connections are released, each once and all of them, if and only if the daemon owns what
there is. -/
theorem closeAll_held_iff (hi : s.Identified) (hp : s.Paired) (hf : s.fault = none) :
    (s.closeAll s.held).fault = none ∧ (s.closeAll s.held).bevs = [] ∧
      (s.closeAll s.held).blocks = [] ↔ s.Owned := by
  have haddr : (s.held.map (·.address.ptr)).Nodup := by
    rw [hp.address_eq]
    exact hi.held_nodup
  rw [fault_closeAll_iff hf hi.held_nodup haddr, closeAll_bevs, closeAll_blocks,
    diff_eq_nil_iff hi.bevs_nodup, diff_eq_nil_iff hp.blocks_nodup]
  constructor
  · rintro ⟨hlive, hbevs, hblocks⟩
    refine ⟨?_, ?_, hi.bevs_nodup, hp.blocks_nodup, by simp [hf]⟩
    · apply (List.perm_ext_iff_of_nodup hi.bevs_nodup hi.held_nodup).mpr
      intro b
      refine ⟨fun hb => hbevs hb, fun hb => ?_⟩
      obtain ⟨mc, hmc, rfl⟩ := List.mem_map.mp hb
      exact (hlive mc hmc).1
    · apply (List.perm_ext_iff_of_nodup hp.blocks_nodup haddr).mpr
      intro b
      refine ⟨fun hb => hblocks hb, fun hb => ?_⟩
      obtain ⟨mc, hmc, rfl⟩ := List.mem_map.mp hb
      exact (hlive mc hmc).2
  · intro ho
    refine ⟨fun mc hmc => ⟨?_, ?_⟩, ho.bevs.subset, ho.blocks.subset⟩
    · exact ho.bevs.mem_iff.mpr (List.mem_map_of_mem hmc)
    · exact ho.blocks.mem_iff.mpr (List.mem_map_of_mem hmc)

end Connections

/-! ## The listeners and the UDP side -/

/--
What the daemon still points to among the listeners and sockets that exist, and what it has
lost. A UDP side belongs to a listener for peers and has two fibers.
-/
structure Listening.Accounted (s : Listening) (lostListeners lostSockets : List ℕ) : Prop where
  listeners : Balanced s.listeners (s.srvList.map Listener.evl ++ lostListeners)
  sockets : Balanced s.sockets (s.udp.toList.map UdpSocket.fd ++ lostSockets)
  undeleted : s.evSched.Undeleted
  peer : ∀ u, s.udp = some u →
    ∃ l ∈ s.srvList, l.peer = true ∧ u.udpEndpoint.addr.ip = l.addr.ip
  fibers : ∀ u, s.udp = some u →
    u.udpBrdFib = u.udpRecvFib + 1 ∧ u.udpBrdFib < s.evSched.fibers.length

namespace Listening

variable {P : Platform} {s : Listening} {a : ListenAddr} {lostListeners lostSockets : List ℕ}

theorem Accounted.keep (h : s.Accounted lostListeners lostSockets) {l : Listener}
    (hl : l.evl = s.listeners.next) :
    Balanced s.listeners.alloc ((s.srvList ++ [l]).map Listener.evl ++ lostListeners) := by
  apply h.listeners.alloc.congr
  rw [List.map_append, List.map_singleton, hl, List.append_assoc]
  exact List.perm_middle.symm

theorem Accounted.lose (h : s.Accounted lostListeners lostSockets) :
    Balanced s.listeners.alloc
      (s.srvList.map Listener.evl ++ s.listeners.next :: lostListeners) :=
  h.listeners.alloc.congr List.perm_middle.symm

theorem length_schedNewFiber (s : Fibers.Sched) :
    s.schedNewFiber.fibers.length = s.fibers.length + 1 :=
  List.length_append

theorem accounted_listen (P : Platform) (h : s.Accounted lostListeners lostSockets)
    (a : ListenAddr) :
    ∃ lostListeners' lostSockets', (s.listen P a).Accounted lostListeners' lostSockets' := by
  obtain ⟨addr, bound, outcome⟩ := a
  cases bound with
  | false => exact ⟨lostListeners, lostSockets, h⟩
  | true =>
    cases outcome with
    | made port =>
      obtain ⟨u, hmade, heq⟩ :=
        listen_of_made (P := P) (s := s) (a := ⟨addr, true, .made port⟩) rfl rfl
      rw [heq]
      refine ⟨lostListeners, s.udp.toList.map UdpSocket.fd ++ lostSockets, h.keep rfl, ?_, ?_,
        ?_, ?_⟩
      · rw [Option.toList_some, List.map_singleton, hmade.fd, List.singleton_append]
        exact h.sockets.alloc
      · exact h.undeleted.schedNewFiber.schedNewFiber
      · rintro u' hu'
        obtain rfl := Option.some.inj hu'
        exact ⟨_, List.mem_append_right _ (List.mem_singleton.mpr rfl), rfl, hmade.ip⟩
      · rintro u' hu'
        obtain rfl := Option.some.inj hu'
        rw [length_schedNewFiber, length_schedNewFiber, hmade.brdFib, hmade.recvFib]
        exact ⟨rfl, Nat.lt_succ_self _⟩
    | noMemory | noSocket => exact ⟨_, _, h.lose, h.sockets, h.undeleted, nofun, nofun⟩
    | notBound | blocking => exact ⟨_, _, h.lose, h.sockets.alloc, h.undeleted, nofun, nofun⟩

theorem accounted_listenClient (h : s.Accounted lostListeners lostSockets)
    (c : Sockaddr × Bool) : (s.listenClient c).Accounted lostListeners lostSockets := by
  obtain ⟨addr, bound⟩ := c
  cases bound with
  | false => exact h
  | true =>
    refine ⟨h.keep rfl, h.sockets, h.undeleted, fun u hu => ?_, h.fibers⟩
    obtain ⟨l, hl, hpeer, hip⟩ := h.peer u hu
    exact ⟨l, List.mem_append_left _ hl, hpeer, hip⟩

theorem accounted_serverInit (P : Platform) (as : List ListenAddr) (cs : List (Sockaddr × Bool)) :
    ∃ lostListeners lostSockets, (serverInit P as cs).Accounted lostListeners lostSockets := by
  have hpeers : ∃ lostListeners lostSockets,
      (as.foldl (listen P) {}).Accounted lostListeners lostSockets := by
    induction as using List.reverseRecOn with
    | nil => exact ⟨[], [], .empty, .empty, Fibers.undeleted_init, nofun, nofun⟩
    | append_singleton as a ih =>
      obtain ⟨lostListeners, lostSockets, h⟩ := ih
      rw [List.foldl_append]
      exact accounted_listen P h a
  obtain ⟨lostListeners, lostSockets, h⟩ := hpeers
  refine ⟨lostListeners, lostSockets, ?_⟩
  rw [serverInit]
  induction cs using List.reverseRecOn with
  | nil => exact h
  | append_singleton cs c ih =>
    rw [List.foldl_append]
    exact accounted_listenClient ih c

theorem length_fibers_foldl_listen (as : List ListenAddr) (s : Listening) :
    (as.foldl (listen P) s).evSched.fibers.length =
      s.evSched.fibers.length + 2 * as.countP fun a => a.bound && a.made := by
  induction as generalizing s with
  | nil => rfl
  | cons a as ih =>
    rw [List.foldl_cons, ih, List.countP_cons]
    cases hbound : a.bound with
    | false => simp [listen_of_not_bound hbound]
    | true =>
      cases hmade : a.made with
      | false =>
        obtain ⟨sockets, -, heq⟩ := listen_of_not_made (P := P) (s := s) hbound hmade
        rw [heq]
        simp
      | true =>
        obtain ⟨u, -, heq⟩ := listen_of_made (P := P) (s := s) hbound hmade
        rw [heq, length_schedNewFiber, length_schedNewFiber]
        simp
        omega

theorem length_fibers_serverInit {as : List ListenAddr} (h : SoundAddrs as)
    (cs : List (Sockaddr × Bool)) : (serverInit P as cs).evSched.fibers.length ≤ 2 := by
  have hle : as.countP (fun a => a.bound && a.made) ≤ as.countP (·.bound) := by
    apply List.countP_mono_left
    intro a _ hboth
    exact (Bool.and_eq_true_iff.mp hboth).1
  have hone := h.atMostOne
  rw [serverInit, (lost_foldl_listenClient cs _).2.2.2, length_fibers_foldl_listen,
    List.length_nil]
  omega

theorem udp_serverInit (P : Platform) (as : List ListenAddr) (cs : List (Sockaddr × Bool)) :
    (serverInit P as cs).udp = none ↔ ∀ a ∈ (as.filter (·.bound)).getLast?, a.made = false := by
  rw [serverInit, (lost_foldl_listenClient cs _).2.2.1]
  induction as using List.reverseRecOn with
  | nil => simp
  | append_singleton as a ih =>
    rw [List.foldl_append, List.foldl_cons, List.foldl_nil, List.filter_append]
    cases hbound : a.bound with
    | false =>
      rw [listen_of_not_bound hbound, ih]
      simp [hbound]
    | true =>
      have hlast : (as.filter (·.bound) ++ [a].filter (·.bound)).getLast? = some a := by
        simp [hbound]
      rw [hlast]
      cases hmade : a.made with
      | false =>
        obtain ⟨sockets, -, heq⟩ := listen_of_not_made (P := P) (s := as.foldl (listen P) {})
          hbound hmade
        rw [heq]
        simp [hmade]
      | true =>
        obtain ⟨u, -, heq⟩ := listen_of_made (P := P) (s := as.foldl (listen P) {}) hbound hmade
        rw [heq]
        simp [hmade]

end Listening

/-! ## The whole end -/

section End

variable {P : Platform} {s : Server} {l : Listening} {b : Tunnel.Buffers}
  {as : List ListenAddr} {cs : List (Sockaddr × Bool)} {lostListeners lostSockets : List ℕ}

theorem Ran.accounted (h : Ran P as cs l s) :
    ∃ lostListeners lostSockets, l.Accounted lostListeners lostSockets := by
  obtain ⟨lostListeners, lostSockets, hacc⟩ := Listening.accounted_serverInit P as cs
  obtain ⟨ls, hrun, hls⟩ := h.fibers
  have hlength := Fibers.length_fibers_le_run hrun
  refine ⟨lostListeners, lostSockets, ?_, ?_, Fibers.undeleted_run hacc.undeleted hrun hls, ?_, ?_⟩
  · rw [h.listening]
    exact hacc.listeners
  · rw [h.listening]
    exact hacc.sockets
  · rw [h.listening]
    exact hacc.peer
  · intro u hu
    rw [h.listening] at hu
    obtain ⟨hnext, hlt⟩ := hacc.fibers u hu
    exact ⟨hnext, Nat.lt_of_lt_of_le hlt hlength⟩

theorem Ran.connections (h : Ran P as cs l s) : s.Identified ∧ s.Paired := by
  obtain ⟨ctx, e, hr⟩ := h.server
  exact paired_of_reachable (reachable_step_of_serve hr h.alive)

def Listening.FiberExited (l : Listening) : Prop :=
  ∃ u, l.udp = some u ∧ (l.evSched.Exited u.udpBrdFib ∨ l.evSched.Exited u.udpRecvFib)

theorem Listening.fiberExited_iff {u : UdpSocket} (hu : l.udp = some u) :
    l.FiberExited ↔ l.evSched.Exited u.udpBrdFib ∨ l.evSched.Exited u.udpRecvFib := by
  constructor
  · rintro ⟨u', hu', hexited⟩
    obtain rfl := Option.some.inj (hu.symm.trans hu')
    exact hexited
  · exact fun hexited => ⟨u, hu, hexited⟩

theorem serverDelete_of_none (s : Server) (b : Tunnel.Buffers) (h : l.udp = none) :
    serverDelete l s b = none := by
  simp only [serverDelete, serverUdpExit, h]
  cases l.listeners.freeAll (l.srvList.map Listener.evl) <;> rfl

theorem closeAll_lists (s : Server) :
    (s.closeAll s.pendingPeers).closeAll s.peers = s.closeAll s.held :=
  List.foldl_append.symm

theorem server_of_serverDelete {r : Remains} (h : serverDelete l s b = some r) :
    r.server = s.closeAll s.held := by
  simp only [serverDelete, closeAll_lists, Option.bind_eq_bind, Option.bind_eq_some_iff] at h
  obtain ⟨listeners, -, l', -, h⟩ := h
  split at h
  · cases h
  · obtain ⟨heap, -, h⟩ := Option.bind_eq_some_iff.mp h
    obtain rfl := Option.some.inj h
    rfl

theorem serverDelete_of_exited (h : l.Accounted lostListeners lostSockets) {u : UdpSocket}
    (hu : l.udp = some u) (hexited : l.FiberExited) : serverDelete l s b = none := by
  rw [Listening.fiberExited_iff hu] at hexited
  obtain ⟨hnext, hlt⟩ := h.fibers u hu
  obtain ⟨-, hnone⟩ | ⟨hno, -⟩ := Fibers.deleteOnce_both h.undeleted hlt
    (by omega : u.udpRecvFib < l.evSched.fibers.length) (by omega)
  · have hexit (listeners : Ledger) : serverUdpExit { l with listeners := listeners } = none := by
      rw [Option.bind_eq_bind] at hnone
      simp only [serverUdpExit, hu, Option.bind_eq_bind, Option.bind_some]
      cases l.sockets.free u.fd with
      | none => rfl
      | some sockets => rw [Option.bind_some, ← Option.bind_assoc, hnone, Option.bind_none]
    simp only [serverDelete, hexit]
    cases l.listeners.freeAll (l.srvList.map Listener.evl) <;> rfl
  · exact absurd hexited hno

theorem serverDelete_of_some (h : l.Accounted lostListeners lostSockets) {u : UdpSocket}
    (hu : l.udp = some u) (hno : ¬ l.FiberExited) (s : Server) (b : Tunnel.Buffers) :
    ∃ listeners sockets,
      Balanced listeners lostListeners ∧ Balanced sockets lostSockets ∧
      serverDelete l s b = if (s.closeAll s.held).fault.isSome then none
        else (b.heap.freeAll b.framesToSend.data).map fun heap =>
          { listening := { l with
              listeners := listeners
              sockets := sockets
              evSched := (l.evSched.schedFiberDelete u.udpBrdFib).schedFiberDelete u.udpRecvFib }
            server := s.closeAll s.held
            heap := heap } := by
  rw [Listening.fiberExited_iff hu] at hno
  obtain ⟨listeners, hlisteners, hleft⟩ := h.listeners.freeAll
  have hsockets : Balanced l.sockets (u.fd :: lostSockets) := by simpa [hu] using h.sockets
  obtain ⟨sockets, hfree, hleft'⟩ := hsockets.free
  obtain ⟨hnext, hlt⟩ := h.fibers u hu
  refine ⟨listeners, sockets, hleft, hleft', ?_⟩
  obtain ⟨hexited, -⟩ | ⟨-, hsome⟩ := Fibers.deleteOnce_both h.undeleted hlt
    (by omega : u.udpRecvFib < l.evSched.fibers.length) (by omega)
  · exact absurd hexited hno
  · rw [Option.bind_eq_bind] at hsome
    have hexit : serverUdpExit { l with listeners := listeners } = some { l with
        listeners := listeners
        sockets := sockets
        evSched := (l.evSched.schedFiberDelete u.udpBrdFib).schedFiberDelete u.udpRecvFib } := by
      simp only [serverUdpExit, hu, hfree, Option.bind_eq_bind, Option.bind_some]
      rw [← Option.bind_assoc, hsome]
      rfl
    rw [serverDelete, hlisteners, closeAll_lists, Option.bind_eq_bind, Option.bind_some, hexit,
      Option.map_eq_bind]
    rfl

theorem kept_iff_none_lost (h : l.Accounted lostListeners lostSockets) {u : UdpSocket}
    (hu : l.udp = some u) : l.Kept ↔ lostListeners = [] ∧ lostSockets = [] := by
  constructor
  · intro hkept
    have hlisteners := (h.listeners.perm.symm.trans hkept.listeners.perm).length_eq
    have hsockets := (h.sockets.perm.symm.trans hkept.sockets.perm).length_eq
    rw [List.length_append, Nat.add_eq_left, List.length_eq_zero_iff] at hlisteners hsockets
    exact ⟨hlisteners, hsockets⟩
  · rintro ⟨rfl, rfl⟩
    refine ⟨fun _ => ⟨u, hu, h.peer u hu⟩, ?_, ?_⟩
    · simpa using h.listeners
    · simpa using h.sockets

/-- With sound addresses, there is a UDP side exactly if one of them could be bound. -/
theorem SoundAddrs.udp_iff (h : SoundAddrs as) (cs : List (Sockaddr × Bool)) :
    (serverInit P as cs).udp = none ↔ ∀ a ∈ as, a.bound = false := by
  rw [Listening.udp_serverInit]
  constructor
  · intro hlast a ha
    cases hfound : (as.filter (·.bound)).getLast? with
    | none =>
      rw [List.getLast?_eq_none_iff, List.filter_eq_nil_iff] at hfound
      simpa using hfound a ha
    | some b =>
      obtain ⟨hb, hbound⟩ := List.mem_filter.mp (List.mem_of_getLast? hfound)
      have hmade := h.made b hb hbound
      rw [hlast b hfound] at hmade
      cases hmade
  · intro hnone a ha
    obtain ⟨hmem, hbound⟩ := List.mem_filter.mp (List.mem_of_getLast? ha)
    rw [hnone a hmem] at hbound
    cases hbound

theorem Ran.udp_eq (h : Ran P as cs l s) : l.udp = (serverInit P as cs).udp := by
  rw [h.listening]

theorem Ran.bound_of_udp (h : Ran P as cs l s) (hsound : SoundAddrs as) {u : UdpSocket}
    (hu : l.udp = some u) : ∃ a ∈ as, a.bound = true := by
  by_contra hno
  rw [h.udp_eq, (hsound.udp_iff cs).mpr (by simpa using hno)] at hu
  cases hu

theorem Ran.exists_udp (h : Ran P as cs l s) (hsound : SoundAddrs as)
    (hbound : ∃ a ∈ as, a.bound = true) : ∃ u, l.udp = some u := by
  obtain ⟨a, ha, hbound⟩ := hbound
  rw [← Option.ne_none_iff_exists']
  intro hnone
  rw [(hsound.udp_iff cs).mp (h.udp_eq ▸ hnone) a ha] at hbound
  cases hbound

/-- With sound addresses, the fibers of the UDP side are all that `server_init` has made. -/
theorem Ran.released_fibers (h : Ran P as cs l s) (hsound : SoundAddrs as) {u : UdpSocket}
    (hu : l.udp = some u) (hno : ¬ l.FiberExited) {f : ℕ}
    (hf : f < (serverInit P as cs).evSched.fibers.length) :
    ∃ fib, ((l.evSched.schedFiberDelete u.udpBrdFib).schedFiberDelete u.udpRecvFib).fibers[f]? =
      some fib ∧ fib.released.map = 1 ∧ fib.released.stack = 1 := by
  obtain ⟨_, _, hacc⟩ := h.accounted
  obtain ⟨_, _, hmade⟩ := Listening.accounted_serverInit P as cs
  obtain ⟨hnext, hlt⟩ := hmade.fibers u (h.udp_eq ▸ hu)
  obtain ⟨ls, hrun, -⟩ := h.fibers
  have htwo := Listening.length_fibers_serverInit (P := P) hsound cs
  have hboth : f = u.udpBrdFib ∨ f = u.udpRecvFib := by omega
  rw [Listening.fiberExited_iff hu, not_or] at hno
  apply Fibers.released_deleteBoth hacc.undeleted (by omega)
    (Nat.lt_of_lt_of_le hf (Fibers.length_fibers_le_run hrun)) hboth
  rcases hboth with rfl | rfl
  · exact hno.1
  · exact hno.2

theorem Ran.kept_iff (h : Ran P as cs l s) : l.Kept ↔ SoundAddrs as := by
  have hsame : l.Kept ↔ (serverInit P as cs).Kept := by
    rw [h.listening]
    constructor
    · exact fun hkept => ⟨hkept.udp, hkept.listeners, hkept.sockets⟩
    · exact fun hkept => ⟨hkept.udp, hkept.listeners, hkept.sockets⟩
  rw [hsame]
  exact ⟨Listening.soundAddrs_of_kept, fun hsound => Listening.kept_serverInit hsound cs⟩

def soundAddr : ListenAddr := ⟨.inet 0 0x9210, true, .made 0x8000⟩

theorem ran_unlaunched {s : Server} {ctx : Bool} {e : Endpoint}
    (hr : Reachable (serve .reference) (init ctx e) s) (hf : s.fault = none) :
    Ran .reference [soundAddr] [] (serverInit .reference [soundAddr] []) s :=
  ⟨⟨ctx, e, hr⟩, hf, ⟨[], .nil _, fun _ => List.not_mem_nil⟩, rfl⟩

/--
However a daemon has run, its end releases every listener, socket, bufferevent and address block,
and the map and the stack of every fiber that `server_init` has made, and each of them once, if
and only if it could bind one address, with a UDP socket, neither of its fibers has exited, it
owns all the connections that it has made and not yet closed, and the frames that wait are its own.
-/
theorem shutdown_clean_iff (h : Ran P as cs l s) (b : Tunnel.Buffers) :
    (∃ r, serverDelete l s b = some r ∧ r.Empty (serverInit P as cs).evSched.fibers.length) ↔
      (SoundAddrs as ∧ ∃ a ∈ as, a.bound = true) ∧ ¬ l.FiberExited ∧ s.Owned ∧ Queued b := by
  obtain ⟨hi, hp⟩ := h.connections
  obtain ⟨lostListeners, lostSockets, hacc⟩ := h.accounted
  rw [← closeAll_held_iff hi hp h.alive]
  constructor
  · rintro ⟨r, hr, hempty⟩
    cases hu : l.udp with
    | none =>
      rw [serverDelete_of_none s b hu] at hr
      cases hr
    | some u =>
      by_cases hexited : l.FiberExited
      · rw [serverDelete_of_exited hacc hu hexited] at hr
        cases hr
      obtain ⟨listeners, sockets, hlisteners, hsockets, heq⟩ :=
        serverDelete_of_some hacc hu hexited s b
      rw [heq] at hr
      split at hr
      · cases hr
      rename_i hnone
      obtain ⟨heap, hheap, rfl⟩ := Option.map_eq_some_iff.mp hr
      have hsound := h.kept_iff.mp ((kept_iff_none_lost hacc hu).mpr
        ⟨hlisteners.live_eq_nil_iff.mp hempty.listeners,
          hsockets.live_eq_nil_iff.mp hempty.sockets⟩)
      refine ⟨⟨hsound, h.bound_of_udp hsound hu⟩, hexited,
        ⟨by simpa using hnone, hempty.bevs, hempty.blocks⟩, ?_⟩
      by_contra hno
      rw [Ledger.freeAll_eq_none_iff.mpr hno] at hheap
      cases hheap
  · rintro ⟨⟨hsound, hbound⟩, hexited, ⟨hfault, hbevs, hblocks⟩, hqueued⟩
    obtain ⟨u, hu⟩ := h.exists_udp hsound hbound
    obtain ⟨listeners, sockets, hlisteners, hsockets, heq⟩ :=
      serverDelete_of_some hacc hu hexited s b
    obtain ⟨hnoListener, hnoSocket⟩ := (kept_iff_none_lost hacc hu).mp (h.kept_iff.mpr hsound)
    cases hheap : b.heap.freeAll b.framesToSend.data with
    | none => exact absurd hqueued (Ledger.freeAll_eq_none_iff.mp hheap)
    | some heap =>
      rw [hfault, hheap] at heq
      exact ⟨_, heq, hlisteners.live_eq_nil_iff.mpr hnoListener,
        hsockets.live_eq_nil_iff.mpr hnoSocket,
        fun f hf => h.released_fibers hsound hu hexited hf, hbevs, hblocks⟩

/-- A connection that waits for its handshake is released with the rest. -/
theorem shutdown_clean_pending :
    ∃ s, Ran .reference [soundAddr] [] (serverInit .reference [soundAddr] []) s ∧
      s.held.length = 1 ∧ ∃ r, serverDelete (serverInit .reference [soundAddr] []) s {} = some r ∧
        r.Empty 2 := by
  have hr : Reachable (serve .reference) (init true (endpointInit (.inet 0x0a000001 0x5000))) _ :=
    ⟨[.accept (.inet 0x0a000002 0x3930) 7 ⟨true, true⟩], .cons rfl (.nil _)⟩
  refine ⟨_, ran_unlaunched hr rfl, rfl,
    (shutdown_clean_iff (ran_unlaunched hr rfl) {}).mpr ⟨⟨⟨?_, ?_⟩, ?_⟩, ?_, ?_, ?_⟩⟩
  · intro a ha _
    rw [List.mem_singleton.mp ha]
    rfl
  · exact List.countP_le_length
  · exact ⟨_, List.mem_singleton.mpr rfl, rfl⟩
  · rintro ⟨u, hu, hexited | hexited⟩
    · cases hu
      cases hexited
    · cases hu
      cases hexited
  · exact owned_open (owned_init true _) (identified_init true _) (some 7) _
  · exact List.nil_subperm

end End

end Tnetacle.Meta
