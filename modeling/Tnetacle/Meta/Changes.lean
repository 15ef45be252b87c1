import Tnetacle.Library.Keyed
import Tnetacle.Library.Run
import Tnetacle.Meta.Lines

/-! # What a step of the meta-connection machine can do

Every step is one of a few changes of the server's lists and allocations. The
invariants of the machine are derived from this classification.
-/

namespace Tnetacle.Meta

open ByteOrder CString LineBuffer Keyed

section Projections

variable (s : Server) (mc : Mc)

theorem mcClose_eq : ∃ closed fault, s.mcClose mc = { s with
    bevs := s.bevs.erase mc.bev.ptr, blocks := s.blocks.erase mc.address.ptr,
    closed := closed, fault := fault } := by
  unfold Server.mcClose Server.freeBev Server.freeBlock
  by_cases hb : mc.address.ptr ∈ s.blocks <;> by_cases hv : mc.bev.ptr ∈ s.bevs <;>
    simp only [hb, hv, if_true, if_false, List.erase_of_not_mem, not_false_eq_true] <;>
    exact ⟨_, _, rfl⟩

@[simp] theorem mcClose_peers : (s.mcClose mc).peers = s.peers := by
  obtain ⟨c, f, h⟩ := mcClose_eq s mc
  rw [h]

@[simp] theorem mcClose_pendingPeers : (s.mcClose mc).pendingPeers = s.pendingPeers := by
  obtain ⟨c, f, h⟩ := mcClose_eq s mc
  rw [h]

@[simp] theorem mcClose_udp : (s.mcClose mc).udp = s.udp := by
  obtain ⟨c, f, h⟩ := mcClose_eq s mc
  rw [h]

@[simp] theorem mcClose_bevs : (s.mcClose mc).bevs = s.bevs.erase mc.bev.ptr := by
  obtain ⟨c, f, h⟩ := mcClose_eq s mc
  rw [h]

@[simp] theorem mcClose_blocks : (s.mcClose mc).blocks = s.blocks.erase mc.address.ptr := by
  obtain ⟨c, f, h⟩ := mcClose_eq s mc
  rw [h]

@[simp] theorem mcClose_next : (s.mcClose mc).next = s.next := by
  obtain ⟨c, f, h⟩ := mcClose_eq s mc
  rw [h]

theorem mcClose_fault (h : s.fault ≠ some .badFree) :
    (s.mcClose mc).fault ≠ some .badFree ↔ mc.bev.ptr ∈ s.bevs ∧ mc.address.ptr ∈ s.blocks := by
  unfold Server.mcClose Server.freeBev Server.freeBlock
  by_cases hb : mc.address.ptr ∈ s.blocks <;> by_cases hv : mc.bev.ptr ∈ s.bevs <;>
    simp [hb, hv, h]

end Projections

section Held

variable {P : Platform} {s : Server} {mc past : Mc}

def Server.held (s : Server) : List Mc := s.pendingPeers ++ s.peers

theorem held_insertPending : (s.insertPending mc).held.Perm (mc :: s.held) := by
  simp [Server.held, Server.insertPending]

theorem held_eraseP_pending (h : s.pendingPeers.find? (findBev mc.bev.ptr) = some mc) :
    s.held.Perm (mc :: (s.pendingPeers.eraseP (findBev mc.bev.ptr) ++ s.peers)) :=
  (perm_cons_eraseP h).append_right _

theorem held_eraseP_peers (h : s.peers.find? (findBev mc.bev.ptr) = some mc) :
    s.held.Perm (mc :: (s.pendingPeers ++ s.peers.eraseP (findBev mc.bev.ptr))) :=
  ((perm_cons_eraseP h).append_left _).trans List.perm_middle

theorem held_establish (h : s.pendingPeers.find? (findBev mc.bev.ptr) = some mc) :
    (s.establish P mc).held.Perm s.held := by
  have hlast : (s.establish P mc).held.Perm
      (s.pendingPeers.eraseP (findBev mc.bev.ptr) ++ mc :: s.peers) :=
    (List.perm_append_singleton mc s.peers).append_left _
  exact hlast.trans (List.perm_middle.trans (held_eraseP_pending h).symm)

theorem held_refuse (h : s.pendingPeers.find? (findBev mc.bev.ptr) = some mc) :
    s.held.Perm (mc :: (s.refuse mc past).held) := by
  simpa [Server.held, Server.refuse] using held_eraseP_pending h

theorem held_dropPending (h : s.pendingPeers.find? (findBev mc.bev.ptr) = some mc) :
    s.held.Perm (mc :: (s.dropPending mc).held) := by
  simpa [Server.held, Server.dropPending] using held_eraseP_pending h

theorem held_dropPeer (h : s.peers.find? (findBev mc.bev.ptr) = some mc) :
    s.held.Perm (mc :: (s.dropPeer mc).held) := by
  simpa [Server.held, Server.dropPeer] using held_eraseP_peers h

theorem held_disconnect (h : s.peers.find? (findBev mc.bev.ptr) = some mc) :
    s.held.Perm (mc :: (s.disconnect P mc).held) := by
  simpa [Server.held, Server.disconnect] using held_eraseP_peers h

end Held

structure SameHoldings (s t : Server) : Prop where
  peers : t.peers = s.peers
  pendingPeers : t.pendingPeers = s.pendingPeers
  bevs : t.bevs = s.bevs
  blocks : t.blocks = s.blocks
  next : s.next ≤ t.next
  fault : t.fault ≠ some .badFree

def Connected (events : BitVec 16) : Prop := events &&& bevEventConnected ≠ 0
  deriving Decidable

/-- The event is an end of file that `server_mc_event_cb` handles as one. -/
def Eof (events : BitVec 16) : Prop := ¬ Connected events ∧ events &&& bevEventEof ≠ 0
  deriving Decidable

def Failed (events : BitVec 16) : Prop :=
  ¬ Connected events ∧ ¬ Eof events ∧ events &&& bevEventError ≠ 0
  deriving Decidable

def Idle (P : Platform) (s : Server) : Label → Prop
  | .connect sock alloc _ | .accept sock _ alloc =>
    s.mcEstablished P sock = true ∨ alloc.bev = false ∨ alloc.malloc = false
  | .event bev events _ _ =>
    (Connected events ∨ Failed events → s.pendingPeers.find? (findBev bev) = none) ∧
      (Eof events ∨ Failed events → s.peers.find? (findBev bev) = none)
  | .read bev _ => s.peers.find? (findBev bev) = none

/-- What a step does, with the conditions under which it does it. -/
inductive Change (P : Platform) (s : Server) : Label → Server → Prop
  | idle {l : Label} {t : Server} :
      Idle P s l → SameHoldings s t → t.udp = s.udp → Change P s l t
  | leaked {sock : Sockaddr} {alloc : Alloc} :
      s.mcEstablished P sock = false → alloc.bev = true → alloc.malloc = true →
      Change P s (.connect sock alloc true) s.allocate
  | opened {l : Label} {fd : Option ℕ} {sock : Sockaddr} :
      s.mcEstablished P sock = false →
      ((∃ alloc, l = .connect sock alloc false) ∨ ∃ n alloc, l = .accept sock n alloc) →
      Change P s l (s.allocate.insertPending (s.newMc fd sock))
  | established {bev : ℕ} {events : BitVec 16} {cert : Bool} {past mc : Mc} :
      Connected events → s.pendingPeers.find? (findBev bev) = some mc →
      (mc.sslFlags = .enable → cert = true) →
      Change P s (.event bev events cert past) (s.establish P mc)
  | refused {bev : ℕ} {events : BitVec 16} {past mc : Mc} :
      Connected events → s.pendingPeers.find? (findBev bev) = some mc → mc.sslFlags = .enable →
      Change P s (.event bev events false past) (s.refuse mc past)
  | disconnected {bev : ℕ} {events : BitVec 16} {cert : Bool} {past mc : Mc} :
      Eof events → s.peers.find? (findBev bev) = some mc →
      Change P s (.event bev events cert past) (s.disconnect P mc)
  | droppedPending {bev : ℕ} {events : BitVec 16} {cert : Bool} {past mc : Mc} :
      Failed events → s.pendingPeers.find? (findBev bev) = some mc →
      Change P s (.event bev events cert past) (s.dropPending mc)
  | droppedPeer {bev : ℕ} {events : BitVec 16} {cert : Bool} {past mc : Mc} :
      Failed events → s.pendingPeers.find? (findBev bev) = none →
      s.peers.find? (findBev bev) = some mc →
      Change P s (.event bev events cert past) (s.dropPeer mc)
  | registered {bev : ℕ} {bytes : List Byte} {mc : Mc} {t : Server} :
      s.peers.find? (findBev bev) = some mc → SameHoldings s t →
      t.udp = { s.udp with udpPeers := s.udp.udpPeers ++ s.registered P mc bytes } →
      Change P s (.read bev bytes) t

section Step

variable {P : Platform} {s t : Server} {l : Label}

theorem fault_eq_none_of_step (h : step P s l = some t) : s.fault = none := by
  unfold step at h
  split at h
  · cases h
  · rename_i hf; simpa using hf

theorem mem_bevs_of_event {bev : ℕ} {events : BitVec 16} {cert : Bool} {past : Mc}
    (h : step P s (.event bev events cert past) = some t) :
    bev ∈ s.bevs ∧ t = s.serverMcEventCb P bev events cert past := by
  have hf := fault_eq_none_of_step h
  simp only [step, hf, Option.isSome_none, Bool.false_eq_true, if_false] at h
  split at h
  · rename_i hb; exact ⟨hb, (Option.some.inj h).symm⟩
  · cases h

theorem mem_bevs_of_read {bev : ℕ} {bytes : List Byte} (h : step P s (.read bev bytes) = some t) :
    bev ∈ s.bevs ∧ t = (s.receive bev bytes).serverMcReadCb P bev := by
  have hf := fault_eq_none_of_step h
  simp only [step, hf, Option.isSome_none, Bool.false_eq_true, if_false] at h
  split at h
  · rename_i hb; exact ⟨hb, (Option.some.inj h).symm⟩
  · cases h

theorem mcInit_eq_none {fd : Option ℕ} {sock : Sockaddr} {alloc : Alloc} (hf : s.fault = none)
    (h : s.mcInit fd sock alloc = (none, t)) :
    (alloc.bev = false ∨ alloc.malloc = false) ∧ SameHoldings s t ∧ t.udp = s.udp := by
  unfold Server.mcInit at h
  split at h
  · split at h
    · cases h
    · rename_i hm
      cases h
      exact ⟨.inr (by simpa using hm), ⟨rfl, rfl, rfl, rfl, Nat.le_succ _, by simp [hf]⟩, rfl⟩
  · rename_i hb
    cases h
    exact ⟨.inl (by simpa using hb), ⟨rfl, rfl, rfl, rfl, le_rfl, by simp⟩, rfl⟩

theorem mcInit_eq_some {fd : Option ℕ} {sock : Sockaddr} {alloc : Alloc} {mc : Mc}
    (h : s.mcInit fd sock alloc = (some mc, t)) :
    alloc.bev = true ∧ alloc.malloc = true ∧ mc = s.newMc fd sock ∧ t = s.allocate := by
  unfold Server.mcInit at h
  split at h
  · split at h
    · cases h; exact ⟨‹_›, ‹_›, rfl, rfl⟩
    · cases h
  · cases h

theorem change_of_connect {sock : Sockaddr} {alloc : Alloc} {refused : Bool}
    (hf : s.fault = none) :
    Change P s (.connect sock alloc refused) (s.mcPeerConnect P sock alloc refused).2 := by
  unfold Server.mcPeerConnect
  split
  · rename_i he
    exact .idle (.inl he) ⟨rfl, rfl, rfl, rfl, le_rfl, by simp [hf]⟩ rfl
  · rename_i he
    split
    · rename_i r hr
      obtain ⟨hfail, hsame, hudp⟩ := mcInit_eq_none hf hr
      exact .idle (.inr hfail) hsame hudp
    · rename_i mc r hr
      obtain ⟨hb, hm, rfl, rfl⟩ := mcInit_eq_some hr
      cases refused with
      | true => exact .leaked (by simpa using he) hb hm
      | false => exact .opened (by simpa using he) (.inl ⟨alloc, rfl⟩)

theorem change_of_accept {sock : Sockaddr} {n : ℕ} {alloc : Alloc} (hf : s.fault = none) :
    Change P s (.accept sock n alloc) (s.mcPeerAccept P sock n alloc).2 := by
  unfold Server.mcPeerAccept
  split
  · rename_i he
    exact .idle (.inl he) ⟨rfl, rfl, rfl, rfl, le_rfl, by simp [hf]⟩ rfl
  · rename_i he
    split
    · rename_i r hr
      obtain ⟨hfail, hsame, hudp⟩ := mcInit_eq_none hf hr
      exact .idle (.inr hfail) hsame hudp
    · rename_i mc r hr
      obtain ⟨-, -, rfl, rfl⟩ := mcInit_eq_some hr
      exact .opened (by simpa using he) (.inr ⟨n, alloc, rfl⟩)

theorem change_of_event {bev : ℕ} {events : BitVec 16} {cert : Bool} {past : Mc}
    (hf : s.fault = none) :
    Change P s (.event bev events cert past) (s.serverMcEventCb P bev events cert past) := by
  have hidle : Idle P s (.event bev events cert past) →
      Change P s (.event bev events cert past) s :=
    fun h => .idle h ⟨rfl, rfl, rfl, rfl, le_rfl, by simp [hf]⟩ rfl
  unfold Server.serverMcEventCb
  split
  · rename_i hc
    have hnot : ¬ (Eof events ∨ Failed events) := by
      rintro (h | h) <;> exact h.1 hc
    split
    · rename_i hnone; exact hidle ⟨fun _ => hnone, fun h => absurd h hnot⟩
    · rename_i mc hmc
      split
      · rename_i hno
        obtain ⟨hssl, rfl⟩ := hno
        exact .refused hc hmc hssl
      · rename_i hno
        exact .established hc hmc fun hssl => by simpa using fun h => hno ⟨hssl, h⟩
  · rename_i hc
    split
    · rename_i he
      have hnot : ¬ (Connected events ∨ Failed events) := by
        rintro (h | h)
        · exact hc h
        · exact h.2.1 ⟨hc, he⟩
      split
      · rename_i hnone; exact hidle ⟨fun h => absurd h hnot, fun _ => hnone⟩
      · rename_i mc hmc; exact .disconnected ⟨hc, he⟩ hmc
    · rename_i he
      split
      · rename_i hr
        have hfail : Failed events := ⟨hc, fun h => he h.2, hr⟩
        split
        · rename_i mc hmc; exact .droppedPending hfail hmc
        · rename_i hnone
          split
          · rename_i mc hmc; exact .droppedPeer hfail hnone hmc
          · rename_i hnone'; exact hidle ⟨fun _ => hnone, fun _ => hnone'⟩
      · rename_i hr
        refine hidle ⟨?_, ?_⟩
        · rintro (h | h)
          · exact absurd h hc
          · exact absurd h.2.2 hr
        · rintro (h | h)
          · exact absurd h.2 he
          · exact absurd h.2.2 hr

theorem change_of_read {bev : ℕ} {bytes : List Byte} (hf : s.fault = none) :
    Change P s (.read bev bytes) ((s.receive bev bytes).serverMcReadCb P bev) := by
  cases hmc : s.peers.find? (findBev bev) with
  | none =>
    rw [serverMcReadCb_of_none hmc]
    exact .idle hmc ⟨rfl, rfl, rfl, rfl, le_rfl, by simp [Server.receive, hf]⟩ rfl
  | some mc =>
    obtain rfl := ptr_eq_of_find? hmc
    rw [serverMcReadCb_of_some hf hmc]
    refine .registered hmc ⟨rfl, rfl, rfl, rfl, le_rfl, ?_⟩ rfl
    simp only
    split <;> simp

theorem change_of_step (h : step P s l = some t) : Change P s l t := by
  have hf := fault_eq_none_of_step h
  cases l with
  | connect sock alloc refused =>
    have ht : (s.mcPeerConnect P sock alloc refused).2 = t := by simpa [step, hf] using h
    exact ht ▸ change_of_connect hf
  | accept sock n alloc =>
    have ht : (s.mcPeerAccept P sock n alloc).2 = t := by simpa [step, hf] using h
    exact ht ▸ change_of_accept hf
  | event bev events cert past =>
    obtain ⟨-, rfl⟩ := mem_bevs_of_event h
    exact change_of_event hf
  | read bev bytes =>
    obtain ⟨-, rfl⟩ := mem_bevs_of_read h
    exact change_of_read hf

end Step

end Tnetacle.Meta
