import Mathlib.Data.List.Perm.Subperm
import Tnetacle.Meta.Changes

/-! # Identities of connections

Every bufferevent has its own identity: pointers are handed out in increasing order,
and no two entries of the two lists of connections share one.
-/

namespace Tnetacle.Meta

open Runs Keyed

structure Server.Identified (s : Server) : Prop where
  bevs_lt : ∀ b ∈ s.bevs, b < s.next
  blocks_lt : ∀ b ∈ s.blocks, b < s.next
  held_lt : ∀ mc ∈ s.held, mc.bev.ptr < s.next
  bevs_nodup : s.bevs.Nodup
  held_nodup : (s.held.map (·.bev.ptr)).Nodup

variable {P : Platform} {s t : Server} {l : Label} {mc : Mc}

theorem eraseP_findBev_eq_filter {l : List Mc} {bev : ℕ} (h : (l.map (·.bev.ptr)).Nodup) :
    l.eraseP (findBev bev) = l.filter (·.bev.ptr ≠ bev) :=
  eraseP_eq_filter h

theorem identified_init (ctx : Bool) (e : Endpoint) : (init ctx e).Identified := by
  constructor <;> simp [init, Server.held]

namespace Server.Identified

theorem bevs_next (hs : s.Identified) : s.next ∉ s.bevs := fun h => (hs.bevs_lt _ h).false

theorem blocks_next (hs : s.Identified) : s.next ∉ s.blocks := fun h => (hs.blocks_lt _ h).false

theorem held_ne_next (hs : s.Identified) (h : mc ∈ s.held) : mc.bev.ptr ≠ s.next :=
  (hs.held_lt _ h).ne

theorem pending_nodup (hs : s.Identified) : (s.pendingPeers.map (·.bev.ptr)).Nodup := by
  have h := hs.held_nodup
  rw [Server.held, List.map_append] at h
  exact h.of_append_left

theorem peers_nodup (hs : s.Identified) : (s.peers.map (·.bev.ptr)).Nodup := by
  have h := hs.held_nodup
  rw [Server.held, List.map_append] at h
  exact h.of_append_right

theorem pending_ne_peers (hs : s.Identified) {a b : Mc} (ha : a ∈ s.pendingPeers)
    (hb : b ∈ s.peers) : a.bev.ptr ≠ b.bev.ptr := by
  have h := hs.held_nodup
  rw [Server.held, List.map_append] at h
  exact fun heq => (List.disjoint_of_nodup_append h) (List.mem_map_of_mem ha)
    (heq ▸ List.mem_map_of_mem hb)

theorem shrink (hs : s.Identified) (hb : t.bevs.Sublist s.bevs) (hk : t.blocks.Sublist s.blocks)
    (hh : t.held.Subperm s.held) (hn : s.next ≤ t.next) : t.Identified where
  bevs_lt b h := (hs.bevs_lt b (hb.subset h)).trans_le hn
  blocks_lt b h := (hs.blocks_lt b (hk.subset h)).trans_le hn
  held_lt mc h := (hs.held_lt mc (hh.subset h)).trans_le hn
  bevs_nodup := hs.bevs_nodup.sublist hb
  held_nodup := by
    obtain ⟨l, hl, hsub⟩ := hh
    exact (hl.map _).nodup_iff.mp (hs.held_nodup.sublist (hsub.map _))

theorem remove {b k : ℕ} (hs : s.Identified) (hh : s.held.Perm (mc :: t.held))
    (hb : t.bevs = s.bevs.erase b) (hk : t.blocks = s.blocks.erase k) (hn : t.next = s.next) :
    t.Identified :=
  hs.shrink (hb ▸ List.erase_sublist) (hk ▸ List.erase_sublist)
    (List.subperm_cons_self.trans hh.symm.subperm) hn.ge

theorem allocate (hs : s.Identified) : s.allocate.Identified where
  bevs_lt b h := by
    rcases List.mem_append.mp h with h | h
    · exact Nat.lt_succ_of_lt (hs.bevs_lt b h)
    · exact (List.mem_singleton.mp h) ▸ Nat.lt_succ_self s.next
  blocks_lt b h := by
    rcases List.mem_append.mp h with h | h
    · exact Nat.lt_succ_of_lt (hs.blocks_lt b h)
    · exact (List.mem_singleton.mp h) ▸ Nat.lt_succ_self s.next
  held_lt mc h := Nat.lt_succ_of_lt (hs.held_lt mc h)
  bevs_nodup :=
    hs.bevs_nodup.append (List.nodup_singleton _) (List.disjoint_singleton.mpr hs.bevs_next)
  held_nodup := hs.held_nodup

theorem opened (hs : s.Identified) (fd : Option ℕ) (sock : Sockaddr) :
    (s.allocate.insertPending (s.newMc fd sock)).Identified := by
  have hheld : (s.allocate.insertPending (s.newMc fd sock)).held.Perm (s.newMc fd sock :: s.held) :=
    held_insertPending
  refine ⟨hs.allocate.bevs_lt, hs.allocate.blocks_lt, fun mc h => ?_, hs.allocate.bevs_nodup, ?_⟩
  · rcases List.mem_cons.mp (hheld.subset h) with rfl | h
    · exact Nat.lt_succ_self s.next
    · exact Nat.lt_succ_of_lt (hs.held_lt mc h)
  · rw [(hheld.map _).nodup_iff, List.map_cons, List.nodup_cons]
    refine ⟨fun h => ?_, hs.held_nodup⟩
    obtain ⟨mc, hmc, heq⟩ := List.mem_map.mp h
    exact hs.held_ne_next hmc heq

end Server.Identified

theorem identified_step (hs : s.Identified) (h : step P s l = some t) : t.Identified := by
  cases change_of_step h with
  | idle _ hsame _ | registered _ hsame _ =>
    refine hs.shrink (by rw [hsame.bevs]) (by rw [hsame.blocks]) ?_ hsame.next
    rw [Server.held, hsame.peers, hsame.pendingPeers]
    exact List.Subperm.refl _
  | leaked => exact hs.allocate
  | opened => exact hs.opened _ _
  | established _ hmc _ =>
    obtain rfl := ptr_eq_of_find? hmc
    exact hs.shrink (List.Sublist.refl _) (List.Sublist.refl _) (held_establish hmc).subperm le_rfl
  | refused _ hmc _ =>
    obtain rfl := ptr_eq_of_find? hmc
    exact hs.remove (held_refuse hmc) (mcClose_bevs _ _) (mcClose_blocks _ _) (mcClose_next _ _)
  | disconnected _ hmc =>
    obtain rfl := ptr_eq_of_find? hmc
    exact hs.remove (held_disconnect hmc) (mcClose_bevs _ _) (mcClose_blocks _ _) (mcClose_next _ _)
  | droppedPending _ hmc =>
    obtain rfl := ptr_eq_of_find? hmc
    exact hs.remove (held_dropPending hmc) (mcClose_bevs _ _) (mcClose_blocks _ _)
      (mcClose_next _ _)
  | droppedPeer _ _ hmc =>
    obtain rfl := ptr_eq_of_find? hmc
    exact hs.remove (held_dropPeer hmc) (mcClose_bevs _ _) (mcClose_blocks _ _) (mcClose_next _ _)

theorem identified_of_reachable {ctx : Bool} {e : Endpoint}
    (h : Reachable (step P) (init ctx e) s) : s.Identified :=
  h.invariant (fun _ _ _ hs h => identified_step hs h) (identified_init ctx e)

end Tnetacle.Meta
