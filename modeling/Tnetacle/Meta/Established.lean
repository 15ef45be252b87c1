import Tnetacle.Meta.Changes

/-! # One established connection per address

`mc_established` keeps a second connection with an established peer from being
opened, but an entry moves to `peers` later, when its `CONNECTED` event comes.
The addresses of `peers` stay distinct exactly in the runs in which no entry is
promoted whose address is established by then.
-/

namespace Tnetacle.Meta

open Runs

variable (P : Platform)

def Server.PeersDistinct (s : Server) : Prop :=
  s.peers.Pairwise fun a b => P.evutilSockaddrCmp a.address.sa b.address.sa false ≠ 0

/-- An entry that the label promotes has an address that is not established yet. -/
def PromotesNew (s : Server) : Label → Prop
  | .event bev events cert _ =>
    Connected events → ∀ mc, s.pendingPeers.find? (findBev bev) = some mc →
      (mc.sslFlags = .enable → cert = true) → s.mcEstablished P mc.address.sa = false
  | _ => True

theorem mcEstablished_eq_false_iff {s : Server} {sock : Sockaddr} :
    s.mcEstablished P sock = false ↔
      ∀ mc ∈ s.peers, P.evutilSockaddrCmp mc.address.sa sock false ≠ 0 := by
  simp [Server.mcEstablished, findEstablished, Platform.sameIp]

variable {P} {s t : Server} {l : Label}

theorem Server.PeersDistinct.sublist (hs : s.PeersDistinct P)
    (h : t.peers.Sublist s.peers) : t.PeersDistinct P :=
  List.Pairwise.sublist h hs

theorem peersDistinct_step_iff (hs : s.PeersDistinct P) (h : step P s l = some t) :
    t.PeersDistinct P ↔ PromotesNew P s l := by
  cases change_of_step h with
  | idle hidle hsame _ =>
    refine ⟨fun _ => ?_, fun _ => hs.sublist (by rw [hsame.peers])⟩
    cases l with
    | event bev events cert past =>
      intro hc mc hmc
      rw [hidle.1 (.inl hc)] at hmc
      cases hmc
    | _ => trivial
  | leaked => exact ⟨fun _ => trivial, fun _ => hs⟩
  | opened _ hl =>
    refine ⟨fun _ => ?_, fun _ => hs⟩
    rcases hl with ⟨alloc, rfl⟩ | ⟨n, alloc, rfl⟩ <;> trivial
  | established hc hmc hcert =>
    rename_i mc
    have hpeers : (s.establish P mc).peers = s.peers ++ [mc] := rfl
    have hiff : (s.establish P mc).PeersDistinct P ↔ s.mcEstablished P mc.address.sa = false := by
      rw [Server.PeersDistinct, hpeers, List.pairwise_append, mcEstablished_eq_false_iff]
      simpa using fun _ => (show s.peers.Pairwise _ from hs)
    rw [hiff]
    refine ⟨fun hnew _ mc' hmc' _ => ?_, fun hall => hall hc mc hmc hcert⟩
    obtain rfl := Option.some.inj (hmc.symm.trans hmc')
    exact hnew
  | refused hc hmc hssl =>
    refine ⟨fun _ _ mc' hmc' hcert => ?_, fun _ => hs.sublist (by simp [Server.refuse])⟩
    obtain rfl := Option.some.inj (hmc.symm.trans hmc')
    cases hcert hssl
  | disconnected he hmc =>
    exact ⟨fun _ hc => absurd hc he.1,
      fun _ => hs.sublist (by simpa [Server.disconnect] using List.eraseP_sublist)⟩
  | droppedPending hf hmc =>
    exact ⟨fun _ hc => absurd hc hf.1, fun _ => hs.sublist (by simp [Server.dropPending])⟩
  | droppedPeer hf _ hmc =>
    exact ⟨fun _ hc => absurd hc hf.1,
      fun _ => hs.sublist (by simpa [Server.dropPeer] using List.eraseP_sublist)⟩
  | registered _ hsame _ => exact ⟨fun _ => trivial, fun _ => hs.sublist (by rw [hsame.peers])⟩

/--
From a fresh server, the established addresses are distinct in every state of a run
if and only if every promotion in the run is of an address not established by then.
-/
theorem peers_distinct_iff (ctx : Bool) (e : Endpoint) (ls : List Label) :
    Throughout (step P) (Server.PeersDistinct P) (init ctx e) ls ↔
      Along (step P) (PromotesNew P) (init ctx e) ls :=
  throughout_iff_along (I := fun _ => True) (fun _ _ _ _ _ => trivial)
    (fun _ _ _ _ hs h => peersDistinct_step_iff hs h) trivial List.Pairwise.nil

/--
Two nodes dial each other: the connection that was opened while the other one was
pending is promoted after it, and the peer is established twice.
-/
theorem dial_each_other :
    ¬ Throughout (step .reference) (Server.PeersDistinct .reference)
      (init false (endpointInit (.inet 0x0a000001 0x5000)))
      [.connect (.inet 0x0a000002 0x1704) ⟨true, true⟩ false,
        .accept (.inet 0x0a000002 0x3930) 7 ⟨true, true⟩,
        .event 1 bevEventConnected false .blank,
        .event 0 bevEventConnected false .blank] := by
  intro h
  have hlast := h.last (.cons rfl (.cons rfl (.cons rfl (.cons rfl (.nil _)))))
  exact absurd hlast (by unfold Server.PeersDistinct; decide)

end Tnetacle.Meta
