import Tnetacle.Meta.Identity

/-! # Who holds the bufferevents

Every bufferevent and every address block that is allocated should be held by one
entry of one of the two lists. Two paths break this. A connection that fails at once
is returned by nobody. An entry refused for want of a certificate is erased before
it is closed, and what is closed is the entry behind it.
-/

namespace Tnetacle.Meta

open Runs Keyed

/-- The allocations are those of the entries of the two lists, each held once. -/
structure Server.Owned (s : Server) : Prop where
  bevs : s.bevs.Perm (s.held.map (·.bev.ptr))
  blocks : s.blocks.Perm (s.held.map (·.address.ptr))
  bevs_nodup : s.bevs.Nodup
  blocks_nodup : s.blocks.Nodup
  fault : s.fault ≠ some .badFree

/--
The label neither loses nor mistakes a connection: an attempt to connect does not fail
at once, and an entry without a certificate is the last one pending, with its
pointers still in the cell that it leaves.
-/
def NoneLost (P : Platform) (s : Server) : Label → Prop
  | .connect sock alloc refused =>
    s.mcEstablished P sock = true ∨ alloc.bev = false ∨ alloc.malloc = false ∨ refused = false
  | .event bev events cert past =>
    Connected events → ∀ mc, s.pendingPeers.find? (findBev bev) = some mc →
      mc.sslFlags = .enable → cert = false →
        s.pendingPeers.getLast? = some mc ∧ past.bev.ptr = mc.bev.ptr ∧
          past.address.ptr = mc.address.ptr
  | _ => True

variable {P : Platform} {s t : Server} {l : Label} {mc past : Mc}

section Close

/-- Closing a cell while `mc` leaves the lists is right when the cell holds `mc`'s pointers. -/
theorem owned_close_iff (cell : Mc) (hs : s.Owned) (hheld : s.held.Perm (mc :: t.held))
    (hbevs : t.bevs = s.bevs.erase cell.bev.ptr)
    (hblocks : t.blocks = s.blocks.erase cell.address.ptr)
    (hfault : t.fault ≠ some .badFree ↔ cell.bev.ptr ∈ s.bevs ∧ cell.address.ptr ∈ s.blocks) :
    t.Owned ↔ cell.bev.ptr = mc.bev.ptr ∧ cell.address.ptr = mc.address.ptr := by
  have hb : s.bevs.Perm (mc.bev.ptr :: t.held.map (·.bev.ptr)) := hs.bevs.trans (hheld.map _)
  have hk : s.blocks.Perm (mc.address.ptr :: t.held.map (·.address.ptr)) :=
    hs.blocks.trans (hheld.map _)
  constructor
  · intro ht
    exact ⟨(erase_perm_iff hb hs.bevs_nodup).mp (hbevs ▸ ht.bevs),
      (erase_perm_iff hk hs.blocks_nodup).mp (hblocks ▸ ht.blocks)⟩
  · rintro ⟨hbev, haddr⟩
    refine ⟨hbevs ▸ (erase_perm_iff hb hs.bevs_nodup).mpr hbev,
      hblocks ▸ (erase_perm_iff hk hs.blocks_nodup).mpr haddr,
      hbevs ▸ hs.bevs_nodup.erase _, hblocks ▸ hs.blocks_nodup.erase _, hfault.mpr ?_⟩
    rw [hbev, haddr]
    exact ⟨hb.mem_iff.mpr (by simp), hk.mem_iff.mpr (by simp)⟩

theorem Server.Owned.close (hs : s.Owned) (hheld : s.held.Perm (mc :: t.held))
    (hbevs : t.bevs = s.bevs.erase mc.bev.ptr) (hblocks : t.blocks = s.blocks.erase mc.address.ptr)
    (hfault : t.fault ≠ some .badFree ↔ mc.bev.ptr ∈ s.bevs ∧ mc.address.ptr ∈ s.blocks) :
    t.Owned :=
  (owned_close_iff mc hs hheld hbevs hblocks hfault).mpr ⟨rfl, rfl⟩

/-- The cell that `server_mc_event_cb` closes when it refuses `mc`. -/
theorem refuse_owned_iff (hs : s.Owned)
    (hmc : s.pendingPeers.find? (findBev mc.bev.ptr) = some mc) :
    (s.refuse mc past).Owned ↔ s.pendingPeers.getLast? = some mc ∧
      past.bev.ptr = mc.bev.ptr ∧ past.address.ptr = mc.address.ptr := by
  obtain ⟨as, bs, hl, he, hi, -, -⟩ := split_of_find? hmc
  have hiff := owned_close_iff ((as ++ bs)[as.length]?.getD past) hs (held_refuse hmc)
    (t := s.refuse mc past) (by simp [Server.refuse, he, hi]) (by simp [Server.refuse, he, hi])
    (by
      simp only [Server.refuse, he, hi]
      exact mcClose_fault _ _ hs.fault)
  rw [hiff]
  cases bs with
  | nil => simp [hl]
  | cons b bs =>
    have hnodup : (s.held.map (·.bev.ptr)).Nodup := hs.bevs.nodup_iff.mp hs.bevs_nodup
    have hne : b.bev.ptr ≠ mc.bev.ptr := by
      intro h
      simp [Server.held, hl, h, List.nodup_append, List.nodup_cons] at hnodup
    have hlast : s.pendingPeers.getLast? ≠ some mc := by
      intro h
      have hmem : mc ∈ b :: bs := by
        rw [hl, List.getLast?_append, List.getLast?_cons_cons] at h
        exact List.mem_of_getLast? (by simpa using h)
      have hdup : mc.bev.ptr ∈ (b :: bs).map (·.bev.ptr) := List.mem_map_of_mem hmem
      simp only [Server.held, hl, List.map_append, List.map_cons, List.append_assoc,
        List.cons_append] at hnodup
      exact (List.nodup_cons.mp hnodup.of_append_right).1 (List.mem_append_left _ hdup)
    simp [hne, hlast]

end Close

theorem Server.Owned.same (hs : s.Owned) (h : SameHoldings s t) : t.Owned := by
  have hheld : t.held = s.held := by rw [Server.held, h.peers, h.pendingPeers, Server.held]
  exact ⟨by rw [h.bevs, hheld]; exact hs.bevs, by rw [h.blocks, hheld]; exact hs.blocks,
    h.bevs ▸ hs.bevs_nodup, h.blocks ▸ hs.blocks_nodup, h.fault⟩

theorem not_owned_allocate (hs : s.Owned) : ¬ s.allocate.Owned := by
  intro h
  have hlen := hs.bevs.length_eq.trans h.bevs.length_eq.symm
  simp [Server.allocate] at hlen

theorem owned_open (hs : s.Owned) (hi : s.Identified) (fd : Option ℕ) (sock : Sockaddr) :
    (s.allocate.insertPending (s.newMc fd sock)).Owned := by
  have hheld : (s.allocate.insertPending (s.newMc fd sock)).held.Perm (s.newMc fd sock :: s.held) :=
    held_insertPending
  refine ⟨?_, ?_, ?_, ?_, hs.fault⟩
  · exact (List.perm_append_singleton _ _).trans
      ((hs.bevs.cons _).trans (hheld.map fun mc : Mc => mc.bev.ptr).symm)
  · exact (List.perm_append_singleton _ _).trans
      ((hs.blocks.cons _).trans (hheld.map fun mc : Mc => mc.address.ptr).symm)
  · exact hi.allocate.bevs_nodup
  · exact hs.blocks_nodup.append (List.nodup_singleton _)
      (List.disjoint_singleton.mpr hi.blocks_next)

theorem owned_step_iff (hi : s.Identified) (hs : s.Owned) (h : step P s l = some t) :
    t.Owned ↔ NoneLost P s l := by
  cases change_of_step h with
  | idle hidle hsame _ =>
    refine ⟨fun _ => ?_, fun _ => hs.same hsame⟩
    cases l with
    | connect sock alloc refused =>
      rcases hidle with he | hb | hm
      exacts [.inl he, .inr (.inl hb), .inr (.inr (.inl hm))]
    | event bev events cert past =>
      intro hc mc hmc
      rw [hidle.1 (.inl hc)] at hmc
      cases hmc
    | _ => trivial
  | leaked he hb hm =>
    refine ⟨fun h => absurd h (not_owned_allocate hs), fun h => ?_⟩
    simp [NoneLost, he, hb, hm] at h
  | opened _ hl =>
    refine ⟨fun _ => ?_, fun _ => owned_open hs hi _ _⟩
    rcases hl with ⟨alloc, rfl⟩ | ⟨n, alloc, rfl⟩
    · exact .inr (.inr (.inr rfl))
    · trivial
  | established hc hmc hcert =>
    obtain rfl := ptr_eq_of_find? hmc
    have hp := held_establish (P := P) hmc
    refine ⟨fun _ _ mc' hmc' hssl hno => ?_,
      fun _ => ⟨?_, ?_, hs.bevs_nodup, hs.blocks_nodup, hs.fault⟩⟩
    · obtain rfl := Option.some.inj (hmc.symm.trans hmc')
      simp [hcert hssl] at hno
    · exact hs.bevs.trans (hp.map _).symm
    · exact hs.blocks.trans (hp.map _).symm
  | refused hc hmc hssl =>
    obtain rfl := ptr_eq_of_find? hmc
    rw [refuse_owned_iff hs hmc]
    constructor
    · intro hlast _ mc' hmc' _ _
      obtain rfl := Option.some.inj (hmc.symm.trans hmc')
      exact hlast
    · intro hlost
      exact hlost hc _ hmc hssl rfl
  | disconnected he hmc =>
    obtain rfl := ptr_eq_of_find? hmc
    refine ⟨fun _ hc => absurd hc he.1, fun _ => hs.close (held_disconnect hmc) ?_ ?_ ?_⟩
    · simp [Server.disconnect]
    · simp [Server.disconnect]
    · exact mcClose_fault _ _ hs.fault
  | droppedPending hf hmc =>
    obtain rfl := ptr_eq_of_find? hmc
    refine ⟨fun _ hc => absurd hc hf.1, fun _ => hs.close (held_dropPending hmc) ?_ ?_ ?_⟩
    · simp [Server.dropPending]
    · simp [Server.dropPending]
    · exact mcClose_fault _ _ hs.fault
  | droppedPeer hf _ hmc =>
    obtain rfl := ptr_eq_of_find? hmc
    refine ⟨fun _ hc => absurd hc hf.1, fun _ => hs.close (held_dropPeer hmc) ?_ ?_ ?_⟩
    · simp [Server.dropPeer]
    · simp [Server.dropPeer]
    · exact mcClose_fault _ _ hs.fault
  | registered _ hsame _ => exact ⟨fun _ => trivial, fun _ => hs.same hsame⟩

theorem owned_init (ctx : Bool) (e : Endpoint) : (init ctx e).Owned :=
  ⟨.nil, .nil, .nil, .nil, by simp [init]⟩

/--
From a fresh server, all allocations are held by exactly one entry in every state of a
run if and only if no step of the run loses or mistakes a connection.
-/
theorem owned_iff_none_lost (ctx : Bool) (e : Endpoint) (ls : List Label) :
    Throughout (step P) Server.Owned (init ctx e) ls ↔
      Along (step P) (NoneLost P) (init ctx e) ls :=
  throughout_iff_along (I := Server.Identified) (fun _ _ _ hi h => identified_step hi h)
    (fun _ _ _ hi hs h => owned_step_iff hi hs h) (identified_init ctx e) (owned_init ctx e)

/--
Two TLS connections are pending and the first has no certificate: the second one is
closed and stays in the list, and the first one is lost. Without TLS, a connection
that fails at once is lost as well.
-/
theorem refusal_closes_next :
    (¬ Throughout (step .reference) Server.Owned
      (init true (endpointInit (.inet 0x0a000001 0x5000)))
      [.accept (.inet 0x0a000002 0x3930) 7 ⟨true, true⟩,
        .accept (.inet 0x0a000003 0x3930) 8 ⟨true, true⟩,
        .event 0 bevEventConnected false .blank]) ∧
    ¬ Throughout (step .reference) Server.Owned
      (init false (endpointInit (.inet 0x0a000001 0x5000)))
      [.connect (.inet 0x0a000002 0x1704) ⟨true, true⟩ true] := by
  constructor
  · intro h
    have hlast := h.last (.cons rfl (.cons rfl (.cons rfl (.nil _))))
    exact absurd hlast.bevs (by decide)
  · intro h
    have hlast := h.last (.cons rfl (.nil _))
    exact absurd hlast.bevs (by decide)

end Tnetacle.Meta
