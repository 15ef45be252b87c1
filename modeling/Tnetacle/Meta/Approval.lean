import Tnetacle.Meta.Identity

/-! # Approval before peering

A line is obeyed only if its connection is in `peers`, and a connection enters that
list only when its `CONNECTED` event is handled, with a certificate if it uses TLS.
The steps taken so far are part of the invariant, so that every registration is
traced back to that event.
-/

namespace Tnetacle.Meta

open ByteOrder Runs

/-- The label is the `CONNECTED` event that approves the connection `mc`. -/
def Approves (mc : Mc) (s : Server) : Label → Prop
  | .event bev events cert _ =>
    mc.bev.ptr = bev ∧ s.pendingPeers.find? (findBev bev) = some mc ∧ Connected events ∧
      (mc.sslFlags = .enable → cert = true)
  | _ => False

def Refuses (bev : ℕ) (s : Server) : Label → Prop
  | .event b events cert _ =>
    b = bev ∧ Connected events ∧ cert = false ∧
      ∃ mc, s.pendingPeers.find? (findBev bev) = some mc ∧ mc.sslFlags = .enable
  | _ => False

def Closes (bev : ℕ) (s : Server) : Label → Prop
  | .event b events _ _ =>
    b = bev ∧ (Eof events ∧ (s.peers.find? (findBev bev)).isSome ∨
      Failed events ∧ ((s.pendingPeers.find? (findBev bev)).isSome ∨
        (s.peers.find? (findBev bev)).isSome))
  | _ => False

/-- The label takes the connection `bev` out of the lists. -/
def Ends (bev : ℕ) (s : Server) (l : Label) : Prop := Refuses bev s l ∨ Closes bev s l

variable {P : Platform} {s t : Server} {l : Label} {mc : Mc} {bev : ℕ}

theorem mem_peers_step (h : step P s l = some t) (hmc : mc ∈ t.peers) :
    mc ∈ s.peers ∨ Approves mc s l := by
  cases change_of_step h with
  | idle _ hsame _ | registered _ hsame _ => exact .inl (hsame.peers ▸ hmc)
  | leaked | opened => exact .inl hmc
  | established hc hfind hcert =>
    rcases List.mem_append.mp hmc with hmc | hmc
    · exact .inl hmc
    · obtain rfl := List.mem_singleton.mp hmc
      exact .inr ⟨ptr_eq_of_find? hfind, hfind, hc, hcert⟩
  | refused => exact .inl (by simpa [Server.refuse] using hmc)
  | disconnected => exact .inl (List.mem_of_mem_eraseP hmc)
  | droppedPending => exact .inl (by simpa [Server.dropPending] using hmc)
  | droppedPeer => exact .inl (List.mem_of_mem_eraseP hmc)

theorem mem_held_step (h : step P s l = some t) (hmc : mc ∈ t.held) :
    mc ∈ s.held ∨ mc.bev.ptr = s.next := by
  cases change_of_step h with
  | idle _ hsame _ | registered _ hsame _ =>
    rw [Server.held, hsame.peers, hsame.pendingPeers] at hmc
    exact .inl hmc
  | leaked => exact .inl hmc
  | opened =>
    rcases List.mem_cons.mp (held_insertPending.subset hmc) with rfl | hmc
    · exact .inr rfl
    · exact .inl hmc
  | established _ hfind _ =>
    obtain rfl := ptr_eq_of_find? hfind
    exact .inl ((held_establish hfind).subset hmc)
  | refused _ hfind _ =>
    obtain rfl := ptr_eq_of_find? hfind
    exact .inl ((held_refuse hfind).symm.subset (List.mem_cons_of_mem _ hmc))
  | disconnected _ hfind =>
    obtain rfl := ptr_eq_of_find? hfind
    exact .inl ((held_disconnect hfind).symm.subset (List.mem_cons_of_mem _ hmc))
  | droppedPending _ hfind =>
    obtain rfl := ptr_eq_of_find? hfind
    exact .inl ((held_dropPending hfind).symm.subset (List.mem_cons_of_mem _ hmc))
  | droppedPeer _ _ hfind =>
    obtain rfl := ptr_eq_of_find? hfind
    exact .inl ((held_dropPeer hfind).symm.subset (List.mem_cons_of_mem _ hmc))

theorem next_step (h : step P s l = some t) : s.next ≤ t.next := by
  cases change_of_step h with
  | idle _ hsame _ | registered _ hsame _ => exact hsame.next
  | leaked | opened => exact Nat.le_succ s.next
  | established => exact le_rfl
  | refused => simp [Server.refuse]
  | disconnected => simp [Server.disconnect]
  | droppedPending => simp [Server.dropPending]
  | droppedPeer => simp [Server.dropPeer]

theorem not_held_of_perm (hi : s.Identified) (h : s.held.Perm (mc :: t.held)) :
    ∀ mc' ∈ t.held, mc'.bev.ptr ≠ mc.bev.ptr := by
  have hnodup := (h.map fun mc : Mc => mc.bev.ptr).nodup_iff.mp hi.held_nodup
  intro mc' hmc' heq
  exact (List.nodup_cons.mp hnodup).1 (List.mem_map.mpr ⟨mc', hmc', heq⟩)

theorem not_held_of_ends (hi : s.Identified) (hend : Ends bev s l) (h : step P s l = some t) :
    bev < s.next ∧ ∀ mc ∈ t.held, mc.bev.ptr ≠ bev := by
  cases l with
  | connect | accept | read => rcases hend with h | h <;> exact h.elim
  | event b events cert past =>
    have hb : b = bev := by rcases hend with h | h <;> exact h.1
    subst hb
    refine ⟨hi.bevs_lt _ (mem_bevs_of_event h).1, ?_⟩
    cases change_of_step h with
    | opened _ hl => rcases hl with ⟨_, hl⟩ | ⟨_, _, hl⟩ <;> cases hl
    | idle hidle =>
      obtain ⟨hpend, hpeers⟩ := hidle
      rcases hend with ⟨-, hc, -, mc, hmc, -⟩ | ⟨-, ⟨he, hmc⟩ | ⟨hf, hmc⟩⟩
      · rw [hpend (.inl hc)] at hmc; cases hmc
      · rw [hpeers (.inl he)] at hmc; cases hmc
      · rw [hpend (.inr hf), hpeers (.inr hf)] at hmc; simp at hmc
    | established hc hfind hcert =>
      rcases hend with ⟨-, -, hno, mc, hmc, hssl⟩ | ⟨-, ⟨he, -⟩ | ⟨hf, -⟩⟩
      · obtain rfl := Option.some.inj (hfind.symm.trans hmc)
        rw [hcert hssl] at hno; cases hno
      · exact absurd hc he.1
      · exact absurd hc hf.1
    | refused _ hfind _ =>
      obtain rfl := ptr_eq_of_find? hfind
      exact not_held_of_perm hi (held_refuse hfind)
    | disconnected _ hfind =>
      obtain rfl := ptr_eq_of_find? hfind
      exact not_held_of_perm hi (held_disconnect hfind)
    | droppedPending _ hfind =>
      obtain rfl := ptr_eq_of_find? hfind
      exact not_held_of_perm hi (held_dropPending hfind)
    | droppedPeer _ _ hfind =>
      obtain rfl := ptr_eq_of_find? hfind
      exact not_held_of_perm hi (held_dropPeer hfind)

/-- What the steps `ls` taken from `s₀` say about the connections of the state reached. -/
structure History (P : Platform) (s₀ : Server) (ls : List Label) (s : Server) : Prop where
  identified : s.Identified
  approved : ∀ mc ∈ s.peers, Earlier (step P) (Approves mc) s₀ ls
  ended : ∀ bev, Earlier (step P) (Ends bev) s₀ ls → bev < s.next ∧ ∀ mc ∈ s.held, mc.bev.ptr ≠ bev

theorem history_of_run {ctx : Bool} {e : Endpoint} {ls : List Label}
    (hr : Run (step P) (init ctx e) ls s) : History P (init ctx e) ls s := by
  refine Run.history (I := History P (init ctx e)) ?_ (fun ls s l t hr hs h => ?_) hr
  · refine ⟨identified_init ctx e, fun mc hmc => ?_, fun bev h => absurd h not_earlier_nil⟩
    exact absurd hmc List.not_mem_nil
  · refine ⟨identified_step hs.identified h, fun mc hmc => ?_, fun bev hend => ?_⟩
    · rw [earlier_snoc_iff hr]
      exact (mem_peers_step h hmc).imp_left (hs.approved mc)
    · rcases (earlier_snoc_iff hr).mp hend with hend | hend
      · obtain ⟨hlt, hnot⟩ := hs.ended bev hend
        refine ⟨hlt.trans_le (next_step h), fun mc hmc => ?_⟩
        rcases mem_held_step h hmc with hmc | hmc
        · exact hnot mc hmc
        · exact hmc ▸ hlt.ne'
      · obtain ⟨hlt, hnot⟩ := not_held_of_ends hs.identified hend h
        exact ⟨hlt.trans_le (next_step h), hnot⟩

/--
In every run, the bytes read on a connection add only peers with its address, after its
`CONNECTED` event has been handled with a certificate if it uses TLS; on a connection that
is pending, has been refused or has been closed they add none.
-/
theorem registered_after_approval {ctx : Bool} {e : Endpoint} {ls : List Label}
    {bytes : List Byte} (hr : Run (step P) (init ctx e) ls s)
    (h : step P s (.read bev bytes) = some t) :
    ∃ new, t.udp.udpPeers = s.udp.udpPeers ++ new ∧
      (∀ u ∈ new, ∃ mc : Mc, mc.bev.ptr = bev ∧ u.peerAddr.addr.ip = mc.address.sa.ip ∧
        Earlier (step P) (Approves mc) (init ctx e) ls) ∧
      ((∃ mc ∈ s.pendingPeers, mc.bev.ptr = bev) ∨
        Earlier (step P) (Refuses bev) (init ctx e) ls ∨
        Earlier (step P) (Closes bev) (init ctx e) ls → new = []) := by
  have hist := history_of_run hr
  cases change_of_step h with
  | idle _ _ hudp => exact ⟨[], by simp [hudp], by simp, fun _ => rfl⟩
  | opened _ hl => rcases hl with ⟨_, hl⟩ | ⟨_, _, hl⟩ <;> cases hl
  | registered hfind hsame hudp =>
    rename_i mc
    obtain rfl := ptr_eq_of_find? hfind
    have hmc := List.mem_of_find?_eq_some hfind
    refine ⟨s.registered P mc bytes, by rw [hudp], fun u hu => ?_, fun hno => ?_⟩
    · exact ⟨mc, rfl, (mem_registrations hu).2, hist.approved mc hmc⟩
    · have hends : ¬ Earlier (step P) (Ends mc.bev.ptr) (init ctx e) ls :=
        fun hend => (hist.ended _ hend).2 mc (List.mem_append_right _ hmc) rfl
      rcases hno with ⟨mc', hmc', heq⟩ | hno | hno
      · exact absurd heq (hist.identified.pending_ne_peers hmc' hmc)
      · exact absurd (hno.mono fun _ _ href => Or.inl href) hends
      · exact absurd (hno.mono fun _ _ hclose => Or.inr hclose) hends

/-- A TLS peer that has shown its certificate sends its port and is registered. -/
theorem registered_with_certificate :
    ∃ s t, Run (step .reference) (init true (endpointInit (.inet 0x0a000001 0x5000)))
        [.accept (.inet 0x0a000002 0x3930) 7 ⟨true, true⟩,
          .event 0 bevEventConnected true .blank] s ∧
      step .reference s (.read 0 (tunnelLine 5000 ++ CString.ascii "\r\n")) = some t ∧
      t.udp.udpPeers ≠ [] ∧
      ∀ u ∈ t.udp.udpPeers, ∃ mc : Mc, mc.bev.ptr = 0 ∧ u.peerAddr.addr.ip = mc.address.sa.ip ∧
        Earlier (step .reference) (Approves mc)
          (init true (endpointInit (.inet 0x0a000001 0x5000)))
          [.accept (.inet 0x0a000002 0x3930) 7 ⟨true, true⟩,
            .event 0 bevEventConnected true .blank] := by
  have hr : Run (step .reference) (init true (endpointInit (.inet 0x0a000001 0x5000)))
      [.accept (.inet 0x0a000002 0x3930) 7 ⟨true, true⟩,
        .event 0 bevEventConnected true .blank] _ :=
    .cons rfl (.cons rfl (.nil _))
  let mc : Mc := ⟨⟨0, .inet 0x0a000002 0x3930⟩, ⟨0, some 7⟩, .enable⟩
  obtain ⟨new, hnew, hall, -⟩ := registered_after_approval hr
    (step_read_tunnelLine mc rfl (by decide) rfl rfl 5000)
  refine ⟨_, _, hr, step_read_tunnelLine mc rfl (by decide) rfl rfl 5000, by simp, ?_⟩
  rw [hnew]
  exact hall

end Tnetacle.Meta
