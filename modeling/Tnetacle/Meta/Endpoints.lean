import Tnetacle.Meta.Changes

/-! # One registration per endpoint

A frame is sent once for every entry of `udp_peers`, so an endpoint listed twice gets
every frame twice. `udp_register_new_peer` appends without looking, and the entries
are distinct exactly as long as no connection names a port twice, or one that is
registered for its address already.
-/

namespace Tnetacle.Meta

open ByteOrder CString Runs

variable (P : Platform)

/-- No two registered peers are equal under `endpoint_cmp`. -/
def Server.EndpointsDistinct (s : Server) : Prop :=
  s.udp.udpPeers.Pairwise fun a b => endpointCmp P a.peerAddr b.peerAddr ≠ 0

def timesRegistered (udpPeers : List UdpPeer) (e : Endpoint) : ℕ :=
  udpPeers.countP fun u => endpointCmp P u.peerAddr e = 0

def Server.copiesTo (s : Server) (e : Endpoint) : ℕ := timesRegistered P s.udp.udpPeers e

/-- The ports that the `udp_port` lines name, up to the first line without its argument. -/
def linePorts : List (List Byte) → List Word
  | [] => []
  | line :: lines =>
    match udpPortArg line with
    | none => linePorts lines
    | some none => []
    | some (some arg) => BitVec.ofInt 16 (atoi arg) :: linePorts lines

/--
The lines that an established connection has complete name distinct ports, none of which
is registered for its address.
-/
def NamesNew (s : Server) : Label → Prop
  | .read bev bytes => ∀ mc, s.peers.find? (findBev bev) = some mc →
    (linePorts (s.linesOf bev bytes)).Nodup ∧
      ∀ u ∈ s.udp.udpPeers, u.peerAddr.addr.ip = mc.address.sa.ip →
        endpointPort P u.peerAddr ∉ linePorts (s.linesOf bev bytes)
  | _ => True

variable {P} {s t : Server} {l : Label}

theorem registrations_eq_map (mc : Mc) (lines : List (List Byte)) :
    registrations P mc lines = (linePorts lines).map fun port =>
      ⟨endpointSetPort P (endpointInit mc.address.sa) port, dtlsDisable, mc.bev.ptr⟩ := by
  induction lines with
  | nil => rfl
  | cons line lines ih =>
    rw [registrations, linePorts]
    rcases udpPortArg line with _ | _ | arg
    · exact ih
    · rfl
    · rw [ih]
      rfl

/-- Entries stay distinct when the lines of a connection name new ports only. -/
theorem pairwise_append_registrations_iff {us : List UdpPeer} {mc : Mc}
    (hus : us.Pairwise fun a b => endpointCmp P a.peerAddr b.peerAddr ≠ 0)
    (lines : List (List Byte)) :
    (us ++ registrations P mc lines).Pairwise
        (fun a b => endpointCmp P a.peerAddr b.peerAddr ≠ 0) ↔
      (linePorts lines).Nodup ∧ ∀ u ∈ us, u.peerAddr.addr.ip = mc.address.sa.ip →
        endpointPort P u.peerAddr ∉ linePorts lines := by
  rw [registrations_eq_map, List.pairwise_append, List.pairwise_map]
  simp only [ne_eq, endpointCmp_setPort_eq_zero_iff, ip_endpointSetPort, endpointPort_setPort,
    List.mem_map, forall_exists_index, and_imp, forall_apply_eq_imp_iff₂]
  constructor
  · rintro ⟨-, hnew, hcross⟩
    exact ⟨hnew.imp fun hne heq => hne ⟨rfl, heq⟩,
      fun u hu hip hmem => hcross u hu _ hmem ⟨hip, rfl⟩⟩
  · rintro ⟨hnew, hcross⟩
    refine ⟨hus, hnew.imp fun hne heq => hne heq.2, ?_⟩
    rintro u hu port hport ⟨hip, rfl⟩
    exact hcross u hu hip hport

theorem timesRegistered_le_one {us : List UdpPeer}
    (h : us.Pairwise fun a b => endpointCmp P a.peerAddr b.peerAddr ≠ 0) (e : Endpoint) :
    timesRegistered P us e ≤ 1 := by
  unfold timesRegistered
  induction us with
  | nil => simp
  | cons a us ih =>
    obtain ⟨ha, hus⟩ := List.pairwise_cons.mp h
    rw [List.countP_cons]
    split
    · rename_i hae
      have hae : endpointCmp P a.peerAddr e = 0 := by simpa using hae
      have hnone : us.countP (fun u => endpointCmp P u.peerAddr e = 0) = 0 := by
        rw [List.countP_eq_zero]
        intro b hb hbe
        have hbe : endpointCmp P b.peerAddr e = 0 := by simpa using hbe
        rw [endpointCmp_eq_zero_iff] at hae hbe
        exact ha b hb ((endpointCmp_eq_zero_iff P).mpr
          ⟨hae.1.trans hbe.1.symm, hae.2.trans hbe.2.symm⟩)
      omega
    · exact ih hus

theorem Server.EndpointsDistinct.sublist (hs : s.EndpointsDistinct P)
    (h : t.udp.udpPeers.Sublist s.udp.udpPeers) : t.EndpointsDistinct P :=
  List.Pairwise.sublist h hs

theorem endpointsDistinct_step_iff (hs : s.EndpointsDistinct P) (h : step P s l = some t) :
    t.EndpointsDistinct P ↔ NamesNew P s l := by
  cases change_of_step h with
  | idle hidle _ hudp =>
    refine ⟨fun _ => ?_, fun _ => hs.sublist (by rw [hudp])⟩
    cases l with
    | read bev bytes =>
      intro mc hmc
      rw [hidle] at hmc
      cases hmc
    | _ => trivial
  | leaked => exact ⟨fun _ => trivial, fun _ => hs⟩
  | opened _ hl =>
    refine ⟨fun _ => ?_, fun _ => hs⟩
    rcases hl with ⟨alloc, rfl⟩ | ⟨n, alloc, rfl⟩ <;> trivial
  | established => exact ⟨fun _ => trivial, fun _ => hs⟩
  | refused => exact ⟨fun _ => trivial, fun _ => hs.sublist (by simp [Server.refuse])⟩
  | disconnected =>
    exact ⟨fun _ => trivial,
      fun _ => hs.sublist (by simpa [Server.disconnect] using List.eraseP_sublist)⟩
  | droppedPending => exact ⟨fun _ => trivial, fun _ => hs.sublist (by simp [Server.dropPending])⟩
  | droppedPeer => exact ⟨fun _ => trivial, fun _ => hs.sublist (by simp [Server.dropPeer])⟩
  | registered hmc _ hudp =>
    obtain rfl := ptr_eq_of_find? hmc
    rw [Server.EndpointsDistinct, hudp, Server.registered, pairwise_append_registrations_iff hs]
    constructor
    · intro hnew mc' hmc'
      obtain rfl := Option.some.inj (hmc.symm.trans hmc')
      exact hnew
    · intro hall
      exact hall _ hmc

/--
From a fresh server, the registered endpoints are distinct and every endpoint gets at
most one copy of a frame, in every state of a run, if and only if the lines read in
every step of the run name new ports.
-/
theorem endpoints_distinct_iff (ctx : Bool) (e : Endpoint) (ls : List Label) :
    Throughout (step P) (fun s => s.EndpointsDistinct P ∧ ∀ r, s.copiesTo P r ≤ 1) (init ctx e) ls ↔
      Along (step P) (NamesNew P) (init ctx e) ls := by
  have hboth : ∀ s : Server, (s.EndpointsDistinct P ∧ ∀ r, s.copiesTo P r ≤ 1) ↔
      s.EndpointsDistinct P :=
    fun s => ⟨And.left, fun h => ⟨h, timesRegistered_le_one h⟩⟩
  simp only [hboth]
  exact throughout_iff_along (I := fun _ => True) (fun _ _ _ _ _ => trivial)
    (fun _ _ _ _ hs h => endpointsDistinct_step_iff hs h) trivial List.Pairwise.nil

/-- A peer that sends its port line twice is registered twice. -/
theorem port_line_twice :
    ¬ Throughout (step .reference)
      (fun s => s.EndpointsDistinct .reference ∧ ∀ r, s.copiesTo .reference r ≤ 1)
      (init false (endpointInit (.inet 0x0a000001 0x5000)))
      [.accept (.inet 0x0a000002 0x3930) 7 ⟨true, true⟩, .event 0 bevEventConnected false .blank,
        .read 0 (tunnelLine 5000 ++ CString.ascii "\r\n"),
        .read 0 (tunnelLine 5000 ++ CString.ascii "\r\n")] := by
  intro h
  let mc : Mc := ⟨⟨0, .inet 0x0a000002 0x3930⟩, ⟨0, some 7⟩, .disable⟩
  have hlast := h.last (.cons rfl (.cons rfl
    (.cons (step_read_tunnelLine mc rfl (by decide) rfl rfl 5000)
      (.cons (step_read_tunnelLine mc rfl (by decide) rfl rfl 5000) (.nil _)))))
  have hne := List.rel_of_pairwise_cons hlast.1 (List.mem_singleton.mpr rfl)
  exact hne ((endpointCmp_eq_zero_iff _).mpr ⟨rfl, rfl⟩)

end Tnetacle.Meta
