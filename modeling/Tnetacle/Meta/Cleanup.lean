import Tnetacle.Meta.Identity

/-! # What a terminal event cleans up

`server_mc_event_cb` finds the UDP peer of a closed connection by its address alone,
only on an end of file, and only for an established connection. The exact condition
under which a terminal event removes a connection, what was registered on its
behalf, and nothing else, is read off every reachable state.
-/

namespace Tnetacle.Meta

open Runs Keyed

/-- Every registered peer belongs to the connection whose line registered it. -/
structure Server.Attributed (s : Server) : Prop where
  lt : ∀ u ∈ s.udp.udpPeers, u.onBehalf < s.next
  pending : ∀ u ∈ s.udp.udpPeers, ∀ mc ∈ s.pendingPeers, mc.bev.ptr ≠ u.onBehalf
  address : ∀ u ∈ s.udp.udpPeers, ∀ mc ∈ s.peers, mc.bev.ptr = u.onBehalf →
    u.peerAddr.addr.ip = mc.address.sa.ip
  live : ∀ u ∈ s.udp.udpPeers, u.onBehalf ∈ s.bevs → ∃ mc ∈ s.peers, mc.bev.ptr = u.onBehalf

variable {P : Platform} {s t : Server} {l : Label} {mc : Mc}

namespace Server.Attributed

/-- A step that registers and promotes nothing, and frees what leaves `peers`. -/
theorem shrink (hs : s.Attributed) (hu : t.udp.udpPeers ⊆ s.udp.udpPeers)
    (hp : t.pendingPeers ⊆ s.pendingPeers) (hq : t.peers ⊆ s.peers) (hn : s.next ≤ t.next)
    (hlive : ∀ b ∈ t.bevs, b < s.next →
      b ∈ s.bevs ∧ ∀ mc ∈ s.peers, mc.bev.ptr = b → mc ∈ t.peers) :
    t.Attributed where
  lt u h := (hs.lt u (hu h)).trans_le hn
  pending u h mc hmc := hs.pending u (hu h) mc (hp hmc)
  address u h mc hmc := hs.address u (hu h) mc (hq hmc)
  live u h hb := by
    obtain ⟨hb', hkept⟩ := hlive _ hb (hs.lt u (hu h))
    obtain ⟨mc, hmc, heq⟩ := hs.live u (hu h) hb'
    exact ⟨mc, hkept mc hmc heq, heq⟩

theorem forget (hs : s.Attributed) (hu : t.udp = s.udp) (hp : t.pendingPeers ⊆ s.pendingPeers)
    (hq : t.peers = s.peers) (hn : s.next ≤ t.next) (hb : t.bevs ⊆ s.bevs) : t.Attributed :=
  hs.shrink (by rw [hu]; exact List.Subset.refl _) hp (by rw [hq]; exact List.Subset.refl _) hn
    fun _ h _ => ⟨hb h, fun _ hmc _ => hq ▸ hmc⟩

theorem allocate (hs : s.Attributed) : s.allocate.Attributed :=
  hs.shrink (fun _ h => h) (fun _ h => h) (fun _ h => h) (Nat.le_succ _) fun b hb hlt => by
    rcases List.mem_append.mp hb with h | h
    · exact ⟨h, fun _ hmc _ => hmc⟩
    · exact absurd (List.mem_singleton.mp h) hlt.ne

theorem opened (hs : s.Attributed) (fd : Option ℕ) (sock : Sockaddr) :
    (s.allocate.insertPending (s.newMc fd sock)).Attributed where
  lt := hs.allocate.lt
  pending u h mc hmc := by
    rcases List.mem_append.mp hmc with hmc | hmc
    · exact hs.pending u h mc hmc
    · rw [List.mem_singleton.mp hmc]
      exact (hs.lt u h).ne'
  address := hs.address
  live := hs.allocate.live

theorem establish (hs : s.Attributed) (hmc : mc ∈ s.pendingPeers) :
    (s.establish P mc).Attributed where
  lt := hs.lt
  pending u h mc' hmc' := hs.pending u h mc' (List.mem_of_mem_eraseP hmc')
  address u h mc' hmc' heq := by
    rcases List.mem_append.mp hmc' with hmc' | hmc'
    · exact hs.address u h mc' hmc' heq
    · rw [List.mem_singleton.mp hmc'] at heq
      exact absurd heq (hs.pending u h mc hmc)
  live u h hb := by
    obtain ⟨mc', hmc', heq⟩ := hs.live u h hb
    exact ⟨mc', List.mem_append_left _ hmc', heq⟩

theorem register (hs : s.Attributed) (hi : s.Identified) (hmc : mc ∈ s.peers)
    (hsame : SameHoldings s t) {bytes : List ByteOrder.Byte}
    (hudp : t.udp = { s.udp with udpPeers := s.udp.udpPeers ++ s.registered P mc bytes }) :
    t.Attributed := by
  have hsplit : ∀ u ∈ t.udp.udpPeers, u ∈ s.udp.udpPeers ∨
      u.onBehalf = mc.bev.ptr ∧ u.peerAddr.addr.ip = mc.address.sa.ip := by
    intro u hu
    rw [hudp] at hu
    exact (List.mem_append.mp hu).imp_right mem_registrations
  constructor
  · intro u hu
    rcases hsplit u hu with h | ⟨h, -⟩
    · exact (hs.lt u h).trans_le hsame.next
    · rw [h]
      exact (hi.held_lt mc (List.mem_append_right _ hmc)).trans_le hsame.next
  · intro u hu mc' hmc'
    rw [hsame.pendingPeers] at hmc'
    rcases hsplit u hu with h | ⟨h, -⟩
    · exact hs.pending u h mc' hmc'
    · rw [h]
      exact hi.pending_ne_peers hmc' hmc
  · intro u hu mc' hmc' heq
    rw [hsame.peers] at hmc'
    rcases hsplit u hu with h | ⟨h, hip⟩
    · exact hs.address u h mc' hmc' heq
    · rw [List.inj_on_of_nodup_map hi.peers_nodup hmc' hmc (heq.trans h)]
      exact hip
  · intro u hu hb
    rw [hsame.peers]
    rw [hsame.bevs] at hb
    rcases hsplit u hu with h | ⟨h, -⟩
    · exact hs.live u h hb
    · exact ⟨mc, hmc, h.symm⟩

theorem leave (hs : s.Attributed) (hi : s.Identified) (hu : t.udp.udpPeers ⊆ s.udp.udpPeers)
    (hp : t.pendingPeers = s.pendingPeers)
    (hq : t.peers = s.peers.eraseP (findBev mc.bev.ptr))
    (hb : t.bevs = s.bevs.erase mc.bev.ptr) (hn : t.next = s.next) : t.Attributed := by
  refine hs.shrink hu (by rw [hp]; exact fun _ h => h) ?_ hn.ge ?_
  · rw [hq]; exact List.eraseP_sublist.subset
  · intro b hmem _
    rw [hb, hi.bevs_nodup.mem_erase_iff] at hmem
    refine ⟨hmem.2, fun mc' hmc' heq => ?_⟩
    rw [hq, List.mem_eraseP_of_neg (by simpa [findBev, heq] using hmem.1)]
    exact hmc'

end Server.Attributed

theorem attributed_step (hi : s.Identified) (hs : s.Attributed) (h : step P s l = some t) :
    t.Attributed := by
  cases change_of_step h with
  | idle _ hsame hudp =>
    exact hs.forget hudp (by rw [hsame.pendingPeers]; exact List.Subset.refl _) hsame.peers
      hsame.next (by rw [hsame.bevs]; exact List.Subset.refl _)
  | leaked => exact hs.allocate
  | opened => exact hs.opened _ _
  | established _ hmc _ => exact hs.establish (List.mem_of_find?_eq_some hmc)
  | refused _ hmc _ =>
    refine hs.forget (mcClose_udp _ _) ?_ (mcClose_peers _ _) ?_ ?_
    · simpa [Server.refuse] using List.eraseP_sublist.subset
    · simp [Server.refuse]
    · simpa [Server.refuse] using List.erase_sublist.subset
  | droppedPending _ hmc =>
    refine hs.forget (mcClose_udp _ _) ?_ (mcClose_peers _ _) ?_ ?_
    · simpa [Server.dropPending] using List.eraseP_sublist.subset
    · simp [Server.dropPending]
    · simpa [Server.dropPending] using List.erase_sublist.subset
  | disconnected _ hmc =>
    obtain rfl := ptr_eq_of_find? hmc
    refine hs.leave hi ?_ (mcClose_pendingPeers _ _) rfl (mcClose_bevs _ _) (mcClose_next _ _)
    simpa [Server.disconnect] using List.eraseP_sublist.subset
  | droppedPeer _ _ hmc =>
    obtain rfl := ptr_eq_of_find? hmc
    refine hs.leave hi ?_ (mcClose_pendingPeers _ _) rfl (mcClose_bevs _ _) (mcClose_next _ _)
    simp [Server.dropPeer]
  | registered hmc hsame hudp => exact hs.register hi (List.mem_of_find?_eq_some hmc) hsame hudp

theorem attributed_of_reachable {ctx : Bool} {e : Endpoint}
    (h : Reachable (step P) (init ctx e) s) : s.Attributed := by
  have hboth : s.Identified ∧ s.Attributed := by
    refine h.invariant (P := fun s => s.Identified ∧ s.Attributed) (fun s l t hs ht => ?_)
      ⟨identified_init ctx e, ?_⟩
    · exact ⟨identified_step hs.1 ht, attributed_step hs.1 hs.2 ht⟩
    · constructor <;> simp [init]
  exact hboth.2

/--
Between `s` and `t` the connection `bev` has left the two lists, nothing registered on
its behalf remains, and all that belongs to other connections is as before.
-/
structure Cleaned (s : Server) (bev : ℕ) (t : Server) : Prop where
  held : ∀ mc ∈ t.held, mc.bev.ptr ≠ bev
  registered : ∀ u ∈ t.udp.udpPeers, u.onBehalf ≠ bev
  pendingPeers : t.pendingPeers.filter (·.bev.ptr ≠ bev) = s.pendingPeers.filter (·.bev.ptr ≠ bev)
  peers : t.peers.filter (·.bev.ptr ≠ bev) = s.peers.filter (·.bev.ptr ≠ bev)
  udpPeers : t.udp.udpPeers.filter (·.onBehalf ≠ bev) = s.udp.udpPeers.filter (·.onBehalf ≠ bev)

/--
On an end of file, the connection is not pending, and the first registered peer with its
address, if there is one, is the only one registered on its behalf. On an error,
nothing is registered on its behalf.
-/
def Cleanable (P : Platform) (s : Server) (bev : ℕ) (events : BitVec 16) : Prop :=
  if Eof events then
    s.pendingPeers.find? (findBev bev) = none ∧
      ∀ mc, s.peers.find? (findBev bev) = some mc →
        ∀ u, s.udp.udpPeers.find? (findUdppeer P mc.address.sa) = some u →
          s.udp.udpPeers.filter (·.onBehalf = bev) = [u]
  else ∀ u ∈ s.udp.udpPeers, u.onBehalf ≠ bev

section Terminal

variable {bev : ℕ}

theorem not_mem_of_find?_eq_none {l : List Mc} (h : l.find? (findBev bev) = none) :
    ∀ mc ∈ l, mc.bev.ptr ≠ bev := by
  intro mc hmc
  simpa [findBev] using List.find?_eq_none.mp h mc hmc

theorem Server.Attributed.none_of_live (hs : s.Attributed) (hb : bev ∈ s.bevs)
    (h : ∀ mc ∈ s.peers, mc.bev.ptr ≠ bev) : ∀ u ∈ s.udp.udpPeers, u.onBehalf ≠ bev := by
  rintro u hu rfl
  obtain ⟨mc, hmc, heq⟩ := hs.live u hu hb
  exact h mc hmc heq

/-- The lists of connections after the entry of `bev` is erased from `peers`. -/
theorem cleaned_of_leave (hi : s.Identified) (hmc : s.peers.find? (findBev bev) = some mc)
    (hp : t.pendingPeers = s.pendingPeers) (hq : t.peers = s.peers.eraseP (findBev bev)) :
    Cleaned s bev t ↔ (∀ u ∈ t.udp.udpPeers, u.onBehalf ≠ bev) ∧
      t.udp.udpPeers.filter (·.onBehalf ≠ bev) = s.udp.udpPeers.filter (·.onBehalf ≠ bev) := by
  obtain rfl := ptr_eq_of_find? hmc
  rw [eraseP_findBev_eq_filter hi.peers_nodup] at hq
  refine ⟨fun h => ⟨h.registered, h.udpPeers⟩,
    fun h => ⟨fun mc' hmc' => ?_, h.1, by rw [hp], ?_, h.2⟩⟩
  · rw [Server.held, hp, hq] at hmc'
    rcases List.mem_append.mp hmc' with hmc' | hmc'
    · exact hi.pending_ne_peers hmc' (List.mem_of_find?_eq_some hmc)
    · simpa using (List.mem_filter.mp hmc').2
  · rw [hq]; simp

theorem cleaned_disconnect_iff (hi : s.Identified) (hs : s.Attributed)
    (hmc : s.peers.find? (findBev bev) = some mc) :
    Cleaned s bev (s.disconnect P mc) ↔
      ∀ u, s.udp.udpPeers.find? (findUdppeer P mc.address.sa) = some u →
        s.udp.udpPeers.filter (·.onBehalf = bev) = [u] := by
  have hbev := ptr_eq_of_find? hmc
  have hown : ∀ u ∈ s.udp.udpPeers, decide (u.onBehalf = bev) = true →
      findUdppeer P mc.address.sa u = true := by
    intro u hu h
    have heq : mc.bev.ptr = u.onBehalf := hbev.trans (of_decide_eq_true h).symm
    simpa [findUdppeer] using hs.address u hu mc (List.mem_of_find?_eq_some hmc) heq
  have hleave := cleaned_of_leave (t := s.disconnect P mc) hi hmc (mcClose_pendingPeers _ _)
    (by simp [Server.disconnect, hbev])
  rw [hleave, ← eraseP_clears_iff hown]
  simp [Server.disconnect]

/-- Nothing happens to an event of a connection that is not established. -/
theorem cleaned_same_iff (hs : s.Attributed) (hlive : bev ∈ s.bevs) (hsame : SameHoldings s t)
    (hudp : t.udp = s.udp) (hpeers : s.peers.find? (findBev bev) = none) :
    Cleaned s bev t ↔ s.pendingPeers.find? (findBev bev) = none := by
  constructor
  · intro hcl
    rw [List.find?_eq_none]
    intro mc hmc
    simpa [findBev] using hcl.held mc (List.mem_append_left _ (hsame.pendingPeers ▸ hmc))
  · intro hpend
    refine ⟨?_, ?_, by rw [hsame.pendingPeers], by rw [hsame.peers], by rw [hudp]⟩
    · intro mc hmc
      rw [Server.held, hsame.peers, hsame.pendingPeers] at hmc
      rcases List.mem_append.mp hmc with hmc | hmc
      · exact not_mem_of_find?_eq_none hpend mc hmc
      · exact not_mem_of_find?_eq_none hpeers mc hmc
    · rw [hudp]
      exact hs.none_of_live hlive (not_mem_of_find?_eq_none hpeers)

theorem cleaned_dropPending (hi : s.Identified) (hs : s.Attributed) (hlive : bev ∈ s.bevs)
    (hmc : s.pendingPeers.find? (findBev bev) = some mc) :
    Cleaned s bev (s.dropPending mc) ∧ ∀ u ∈ s.udp.udpPeers, u.onBehalf ≠ bev := by
  have hbev := ptr_eq_of_find? hmc
  have hpeers : ∀ mc' ∈ s.peers, mc'.bev.ptr ≠ bev := fun mc' hmc' =>
    hbev ▸ (hi.pending_ne_peers (List.mem_of_find?_eq_some hmc) hmc').symm
  have hnone := hs.none_of_live hlive hpeers
  have hpend : (s.dropPending mc).pendingPeers = s.pendingPeers.filter (·.bev.ptr ≠ bev) := by
    rw [← eraseP_findBev_eq_filter hi.pending_nodup, ← hbev]
    rfl
  have hkeep : (s.dropPending mc).peers = s.peers := mcClose_peers _ _
  have hudp : (s.dropPending mc).udp = s.udp := mcClose_udp _ _
  refine ⟨⟨?_, by rw [hudp]; exact hnone, by rw [hpend]; simp, by rw [hkeep], by rw [hudp]⟩, hnone⟩
  intro mc' hmc'
  rw [Server.held, hpend, hkeep] at hmc'
  rcases List.mem_append.mp hmc' with hmc' | hmc'
  · simpa using (List.mem_filter.mp hmc').2
  · exact hpeers mc' hmc'

theorem cleaned_dropPeer_iff (hi : s.Identified) (hmc : s.peers.find? (findBev bev) = some mc) :
    Cleaned s bev (s.dropPeer mc) ↔ ∀ u ∈ s.udp.udpPeers, u.onBehalf ≠ bev := by
  have hleave := cleaned_of_leave (t := s.dropPeer mc) hi hmc (mcClose_pendingPeers _ _)
    (by simp [Server.dropPeer, ptr_eq_of_find? hmc])
  rw [hleave]
  simp [Server.dropPeer]

end Terminal

/--
A terminal event of a connection, in any reachable state, cleans up exactly when the
condition holds.
-/
theorem cleaned_iff {ctx : Bool} {e : Endpoint} {bev : ℕ} {events : BitVec 16} {cert : Bool}
    {past : Mc} (hr : Reachable (step P) (init ctx e) s) (hev : Eof events ∨ Failed events)
    (h : step P s (.event bev events cert past) = some t) :
    Cleaned s bev t ↔ Cleanable P s bev events := by
  have hi := identified_of_reachable hr
  have hs := attributed_of_reachable hr
  have hlive := (mem_bevs_of_event h).1
  unfold Cleanable
  cases change_of_step h with
  | established hc | refused hc => rcases hev with h | h <;> exact absurd hc h.1
  | opened _ hl => rcases hl with ⟨_, hl⟩ | ⟨_, _, hl⟩ <;> cases hl
  | idle hidle hsame hudp =>
    have hpeers := hidle.2 hev
    rw [cleaned_same_iff hs hlive hsame hudp hpeers]
    split
    · simp [hpeers]
    · rename_i hne
      exact ⟨fun _ => hs.none_of_live hlive (not_mem_of_find?_eq_none hpeers),
        fun _ => hidle.1 (.inr (hev.resolve_left hne))⟩
  | disconnected he hmc =>
    rw [if_pos he, cleaned_disconnect_iff hi hs hmc]
    have hpend : s.pendingPeers.find? (findBev bev) = none := by
      rw [List.find?_eq_none]
      intro mc' hmc'
      have hne := hi.pending_ne_peers hmc' (List.mem_of_find?_eq_some hmc)
      simpa [findBev, ptr_eq_of_find? hmc] using hne
    simp [hpend, hmc]
  | droppedPending hf hmc =>
    rw [if_neg hf.2.1]
    obtain ⟨hclean, hnone⟩ := cleaned_dropPending hi hs hlive hmc
    exact ⟨fun _ => hnone, fun _ => hclean⟩
  | droppedPeer hf _ hmc =>
    rw [if_neg hf.2.1]
    exact cleaned_dropPeer_iff hi hmc

/-- An established connection that has registered port 5000 is cleaned up at its end. -/
theorem end_of_file_cleans_up :
    ∃ s t, Reachable (step .reference) (init false (endpointInit (.inet 0x0a000001 0x5000))) s ∧
      step .reference s (.event 0 bevEventEof false .blank) = some t ∧
      s.udp.udpPeers ≠ [] ∧ Cleaned s 0 t := by
  have hr : Reachable (step .reference) (init false (endpointInit (.inet 0x0a000001 0x5000))) _ :=
    ⟨[.accept (.inet 0x0a000002 0x3930) 7 ⟨true, true⟩,
      .event 0 bevEventConnected false .blank, .read 0 (tunnelLine 5000 ++ CString.ascii "\r\n")],
      .cons rfl (.cons rfl (.cons (step_read_tunnelLine
        ⟨⟨0, .inet 0x0a000002 0x3930⟩, ⟨0, some 7⟩, .disable⟩ rfl (by decide) rfl rfl 5000)
        (.nil _)))⟩
  refine ⟨_, _, hr, rfl, by simp, (cleaned_iff hr (.inl (by decide)) rfl).mpr ?_⟩
  rw [Cleanable, if_pos (by decide)]
  refine ⟨rfl, ?_⟩
  rintro mc hmc u hu
  cases hmc
  cases hu
  rfl

/--
An established connection registers port 5000 and fails: the connection is removed and its
peer stays registered. A connection that reaches its end of file while it is pending stays.
-/
theorem terminal_event_leaves_rest :
    (∃ s t, Reachable (step .reference) (init false (endpointInit (.inet 0x0a000001 0x5000))) s ∧
      step .reference s (.event 0 bevEventError false .blank) = some t ∧ ¬ Cleaned s 0 t) ∧
    ∃ s t, Reachable (step .reference) (init true (endpointInit (.inet 0x0a000001 0x5000))) s ∧
      step .reference s (.event 0 bevEventEof false .blank) = some t ∧ ¬ Cleaned s 0 t := by
  constructor
  · refine ⟨_, _, ⟨[.accept (.inet 0x0a000002 0x3930) 7 ⟨true, true⟩,
      .event 0 bevEventConnected false .blank, .read 0 (tunnelLine 5000 ++ CString.ascii "\r\n")],
      .cons rfl (.cons rfl (.cons (step_read_tunnelLine
        ⟨⟨0, .inet 0x0a000002 0x3930⟩, ⟨0, some 7⟩, .disable⟩ rfl (by decide) rfl rfl 5000)
        (.nil _)))⟩, rfl, ?_⟩
    intro h
    exact h.registered _ (List.mem_singleton.mpr rfl) rfl
  · refine ⟨_, _, ⟨[.accept (.inet 0x0a000002 0x3930) 7 ⟨true, true⟩], .cons rfl (.nil _)⟩, rfl, ?_⟩
    intro h
    exact h.held _ (List.mem_singleton.mpr rfl) rfl

end Tnetacle.Meta
