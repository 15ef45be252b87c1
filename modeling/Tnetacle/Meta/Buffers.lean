import Tnetacle.Meta.Cleanup
import Tnetacle.Meta.Handshake
import Tnetacle.Meta.Listen

/-! # The buffers of a daemon

What the callbacks of the meta-connection machine write to the output buffers and take from the
input buffers. A daemon writes when it approves a connection, and only its greeting; what it
registers are the lines that it has read.
-/

namespace Tnetacle.Meta

open ByteOrder CString LineBuffer Runs Keyed

/-! ## What a callback leaves in the buffers -/

structure Undisturbed (s t : Server) : Prop where
  input : t.input = s.input
  endpoint : t.udp.udpEndpoint = s.udp.udpEndpoint
  udpPeers : t.udp.udpPeers.Sublist s.udp.udpPeers
  next : s.next ≤ t.next

/-- A step that reads nothing writes nothing, or it approves a connection, pending or new, and
greets it. -/
inductive Spoken (P : Platform) (s t : Server) : Prop
  | quiet : t.output = s.output →
      (∀ mc ∈ t.pendingPeers, mc ∈ s.pendingPeers ∨ mc.bev.ptr = s.next) →
      t.peers ⊆ s.peers → Spoken P s t
  | greeted (mc : Mc) : mc ∈ s.pendingPeers ∨ mc.bev.ptr = s.next → mc.bev.ptr < t.next →
      t.output = Function.update s.output mc.bev.ptr
        (s.output mc.bev.ptr ++ greeting (udpGetPort P s.udp)) →
      (∀ mc' ∈ t.pendingPeers, mc' ∈ s.pendingPeers ∧ mc'.bev.ptr ≠ mc.bev.ptr) →
      (∀ mc' ∈ t.peers, mc' ∈ s.peers ∨ mc' = mc) → Spoken P s t

def Label.isRead : Label → Bool
  | .read .. => true
  | _ => false

section Buffers

variable {P : Platform} {s t : Server} {l : Label} {mc past : Mc}

@[simp] theorem mcClose_output (s : Server) (mc : Mc) : (s.mcClose mc).output = s.output := by
  obtain ⟨c, f, h⟩ := mcClose_eq s mc
  rw [h]

@[simp] theorem mcClose_input (s : Server) (mc : Mc) : (s.mcClose mc).input = s.input := by
  obtain ⟨c, f, h⟩ := mcClose_eq s mc
  rw [h]

theorem spoken_of_shrink (ho : t.output = s.output) (hp : t.pendingPeers ⊆ s.pendingPeers)
    (hq : t.peers ⊆ s.peers) : Spoken P s t :=
  .quiet ho (fun _ h => .inl (hp h)) hq

theorem spoken_same (s : Server) : Undisturbed s s ∧ Spoken P s s :=
  ⟨⟨rfl, rfl, List.Sublist.refl _, le_rfl⟩, spoken_of_shrink rfl (fun _ h => h) (fun _ h => h)⟩

theorem spoken_mcInit_none {fd : Option ℕ} {sock : Sockaddr} {alloc : Alloc}
    (h : s.mcInit fd sock alloc = (none, t)) : Undisturbed s t ∧ Spoken P s t := by
  unfold Server.mcInit at h
  split at h
  · split at h
    · cases h
    · cases h
      exact ⟨⟨rfl, rfl, List.Sublist.refl _, Nat.le_succ _⟩,
        spoken_of_shrink rfl (fun _ h => h) (fun _ h => h)⟩
  · cases h
    exact ⟨⟨rfl, rfl, List.Sublist.refl _, le_rfl⟩,
      spoken_of_shrink rfl (fun _ h => h) (fun _ h => h)⟩

theorem spoken_allocate (s : Server) : Undisturbed s s.allocate ∧ Spoken P s s.allocate :=
  ⟨⟨rfl, rfl, List.Sublist.refl _, Nat.le_succ _⟩,
    spoken_of_shrink rfl (fun _ h => h) (fun _ h => h)⟩

theorem spoken_opened (s : Server) (fd : Option ℕ) (sock : Sockaddr) :
    Undisturbed s (s.allocate.insertPending (s.newMc fd sock)) ∧
      Spoken P s (s.allocate.insertPending (s.newMc fd sock)) := by
  refine ⟨⟨rfl, rfl, List.Sublist.refl _, Nat.le_succ _⟩, .quiet rfl ?_ fun _ h => h⟩
  intro mc hmc
  rcases List.mem_append.mp hmc with hmc | hmc
  · exact .inl hmc
  · rw [List.mem_singleton.mp hmc]
    exact .inr rfl

theorem output_establish (s : Server) (mc : Mc) : (s.establish P mc).output =
    Function.update s.output mc.bev.ptr
      (s.output mc.bev.ptr ++ greeting (udpGetPort P s.udp)) := by
  have hhello : ascii "Hello ~!\r\n" = helloLine ++ ascii "\r\n" := by decide
  simp [Server.establish, Server.mcHello, Server.mcEstablishTunnel, Server.write, greeting,
    tunnelLine, hhello]

theorem mem_pendingPeers_establish (hi : s.Identified) {mc' : Mc}
    (h : mc' ∈ (s.establish P mc).pendingPeers) :
    mc' ∈ s.pendingPeers ∧ mc'.bev.ptr ≠ mc.bev.ptr := by
  have hlist : (s.establish P mc).pendingPeers = s.pendingPeers.filter (·.bev.ptr ≠ mc.bev.ptr) :=
    eraseP_findBev_eq_filter hi.pending_nodup
  rw [hlist] at h
  simpa using h

theorem spoken_establish (hi : s.Identified) (hmc : mc ∈ s.pendingPeers) :
    Undisturbed s (s.establish P mc) ∧ Spoken P s (s.establish P mc) := by
  refine ⟨⟨rfl, rfl, List.Sublist.refl _, le_rfl⟩, .greeted mc (.inl hmc)
    (hi.held_lt mc (List.mem_append_left _ hmc)) (output_establish s mc) ?_ ?_⟩
  · intro mc' hmc'
    exact mem_pendingPeers_establish hi hmc'
  · intro mc' hmc'
    exact (List.mem_append.mp hmc').imp_right List.mem_singleton.mp

theorem spoken_accepted (hi : s.Identified) (fd : Option ℕ) (sock : Sockaddr) :
    Undisturbed s ((s.allocate.insertPending (s.newMc fd sock)).establish P (s.newMc fd sock)) ∧
      Spoken P s
        ((s.allocate.insertPending (s.newMc fd sock)).establish P (s.newMc fd sock)) := by
  refine ⟨⟨rfl, rfl, List.Sublist.refl _, Nat.le_succ _⟩,
    .greeted (s.newMc fd sock) (.inr rfl) (Nat.lt_succ_self _) (output_establish _ _) ?_ ?_⟩
  · intro mc' hmc'
    obtain ⟨hmem, hne⟩ := mem_pendingPeers_establish (hi.opened fd sock) hmc'
    rcases List.mem_append.mp hmem with hold | hnew
    · exact ⟨hold, hne⟩
    · rw [List.mem_singleton.mp hnew] at hne
      exact absurd rfl hne
  · intro mc' hmc'
    exact (List.mem_append.mp hmc').imp_right List.mem_singleton.mp

theorem spoken_refuse : Undisturbed s (s.refuse mc past) ∧ Spoken P s (s.refuse mc past) := by
  refine ⟨⟨by simp [Server.refuse], by simp [Server.refuse], by simp [Server.refuse],
    by simp [Server.refuse]⟩,
    spoken_of_shrink (by simp [Server.refuse]) ?_ (by simp [Server.refuse])⟩
  simpa [Server.refuse] using List.eraseP_sublist.subset

theorem spoken_disconnect : Undisturbed s (s.disconnect P mc) ∧ Spoken P s (s.disconnect P mc) := by
  refine ⟨⟨by simp [Server.disconnect], by simp [Server.disconnect], ?_,
    by simp [Server.disconnect]⟩, spoken_of_shrink (by simp [Server.disconnect])
      (by simp [Server.disconnect]) List.eraseP_sublist.subset⟩
  simpa [Server.disconnect] using List.eraseP_sublist

theorem spoken_dropPending : Undisturbed s (s.dropPending mc) ∧ Spoken P s (s.dropPending mc) :=
  ⟨⟨by simp [Server.dropPending], by simp [Server.dropPending], by simp [Server.dropPending],
    by simp [Server.dropPending]⟩, spoken_of_shrink (by simp [Server.dropPending])
      List.eraseP_sublist.subset (by simp [Server.dropPending])⟩

theorem spoken_dropPeer : Undisturbed s (s.dropPeer mc) ∧ Spoken P s (s.dropPeer mc) :=
  ⟨⟨by simp [Server.dropPeer], by simp [Server.dropPeer], by simp [Server.dropPeer],
    by simp [Server.dropPeer]⟩, spoken_of_shrink (by simp [Server.dropPeer])
      (by simp [Server.dropPeer]) List.eraseP_sublist.subset⟩

theorem spoken_of_event {bev : ℕ} {events : BitVec 16} {cert : Bool} (hi : s.Identified) :
    Undisturbed s (s.serverMcEventCb P bev events cert past) ∧
      Spoken P s (s.serverMcEventCb P bev events cert past) := by
  unfold Server.serverMcEventCb
  split
  · split
    · exact spoken_same s
    · rename_i mc hmc
      split
      · exact spoken_refuse
      · exact spoken_establish hi (List.mem_of_find?_eq_some hmc)
  · split
    · split
      · exact spoken_same s
      · exact spoken_disconnect
    · split
      · split
        · exact spoken_dropPending
        · split
          · exact spoken_dropPeer
          · exact spoken_same s
      · exact spoken_same s

theorem spoken_of_step (hi : s.Identified) (hl : l.isRead = false) (h : step P s l = some t) :
    Undisturbed s t ∧ Spoken P s t := by
  have hf := fault_eq_none_of_step h
  cases l with
  | connect sock alloc refused =>
    have ht : (s.mcPeerConnect P sock alloc refused).2 = t := by simpa [step, hf] using h
    subst ht
    unfold Server.mcPeerConnect
    split
    · exact spoken_same s
    · split
      · rename_i hnone
        exact spoken_mcInit_none hnone
      · rename_i hsome
        obtain ⟨-, -, rfl, rfl⟩ := mcInit_eq_some hsome
        split
        · exact spoken_allocate s
        · exact spoken_opened s _ _
  | accept sock n alloc =>
    have ht : (s.mcPeerAccept P sock n alloc).2 = t := by simpa [step, hf] using h
    subst ht
    unfold Server.mcPeerAccept
    split
    · exact ⟨⟨rfl, rfl, List.Sublist.refl _, le_rfl⟩,
        spoken_of_shrink rfl (fun _ h => h) (fun _ h => h)⟩
    · split
      · rename_i hnone
        exact spoken_mcInit_none hnone
      · rename_i hsome
        obtain ⟨-, -, rfl, rfl⟩ := mcInit_eq_some hsome
        exact spoken_opened s _ _
  | event bev events cert past =>
    obtain ⟨-, rfl⟩ := mem_bevs_of_event h
    exact spoken_of_event hi
  | read bev bytes => cases hl

/-! A whole incoming connection is handled by one callback. -/

theorem Server.Identified.withFault (h : s.Identified) (f : Option Fault) :
    { s with fault := f }.Identified :=
  ⟨h.bevs_lt, h.blocks_lt, h.held_lt, h.bevs_nodup, h.held_nodup⟩

theorem Server.Attributed.withFault (h : s.Attributed) (f : Option Fault) :
    { s with fault := f }.Attributed :=
  ⟨h.lt, h.pending, h.address, h.live⟩

theorem spoken_withFault (h : Undisturbed s t ∧ Spoken P s t) (f : Option Fault) :
    Undisturbed s { t with fault := f } ∧ Spoken P s { t with fault := f } := by
  obtain ⟨⟨hin, he, hu, hn⟩, hspoken⟩ := h
  refine ⟨⟨hin, he, hu, hn⟩, ?_⟩
  cases hspoken with
  | quiet hout hpend hpeers => exact .quiet hout hpend hpeers
  | greeted mc hmc hlt hout hpend hpeers => exact .greeted mc hmc hlt hout hpend hpeers

/-- A step of the daemon is one of the machine, a connection accepted and established at once,
or a connection refused, with which the daemon ends. -/
theorem serve_cases (hi : s.Identified) (h : serve P s l = some t) :
    step P s l = some t ∨
    (∃ fd sock, t = (s.allocate.insertPending (s.newMc fd sock)).establish P (s.newMc fd sock) ∧
      Reachable (step P) s t) ∨
    ∃ t', step P s l = some t' ∧ t = { t' with fault := some .badPointer } := by
  cases l with
  | connect sock alloc refused => exact .inl h
  | event bev events cert past => exact .inl h
  | read bev bytes => exact .inl h
  | accept sock fd alloc =>
    have hf := fault_eq_none_of_serve h
    have ht : s.listenCallback P sock fd alloc = t := by simpa [serve, hf] using h
    by_cases hacc : s.Accepts P sock alloc
    · have hreach := reachable_of_serve hi h (by rwa [← ht, fault_listenCallback hi hf])
      rw [listenCallback_of_accepts hi hacc] at ht
      cases hctx : s.serverCtx with
      | true =>
        rw [hctx, if_pos rfl] at ht
        refine .inl ?_
        rw [← ht, step, hf]
        simp [mcPeerAccept_of_accepts hacc]
      | false =>
        rw [hctx, if_neg Bool.false_ne_true] at ht
        exact .inr (.inl ⟨some fd, sock, ht.symm, hreach⟩)
    · refine .inr (.inr ⟨(s.mcPeerAccept P sock fd alloc).2, ?_, ?_⟩)
      · simp [step, hf]
      · rw [← ht, listenCallback_of_refused hacc]

theorem identified_serve (hi : s.Identified) (h : serve P s l = some t) : t.Identified := by
  rcases serve_cases hi h with hstep | ⟨fd, sock, -, hreach⟩ | ⟨t', hstep, rfl⟩
  · exact identified_step hi hstep
  · exact hreach.invariant (fun _ _ _ hs hstep => identified_step hs hstep) hi
  · exact (identified_step hi hstep).withFault _

theorem attributed_serve (hi : s.Identified) (ha : s.Attributed) (h : serve P s l = some t) :
    t.Attributed := by
  rcases serve_cases hi h with hstep | ⟨fd, sock, -, hreach⟩ | ⟨t', hstep, rfl⟩
  · exact attributed_step hi ha hstep
  · exact (hreach.invariant (P := fun s => s.Identified ∧ s.Attributed)
      (fun _ _ _ hs hstep => ⟨identified_step hs.1 hstep, attributed_step hs.1 hs.2 hstep⟩)
      ⟨hi, ha⟩).2
  · exact (attributed_step hi ha hstep).withFault _

theorem spoken_of_serve (hi : s.Identified) (hl : l.isRead = false) (h : serve P s l = some t) :
    Undisturbed s t ∧ Spoken P s t := by
  rcases serve_cases hi h with hstep | ⟨fd, sock, rfl, -⟩ | ⟨t', hstep, rfl⟩
  · exact spoken_of_step hi hl hstep
  · exact spoken_accepted hi fd sock
  · exact spoken_withFault (spoken_of_step hi hl hstep) _

end Buffers

/-! ## What is read -/

def portLines (lines : List (List Byte)) : ℕ :=
  lines.countP fun line => (udpPortArg line).join.isSome

section Reading

variable {P : Platform} {s t : Server} {mc : Mc} {bev : ℕ} {bytes : List Byte}

theorem Server.Identified.withOutput (h : s.Identified) (out : ℕ → List Byte) :
    { s with output := out }.Identified :=
  ⟨h.bevs_lt, h.blocks_lt, h.held_lt, h.bevs_nodup, h.held_nodup⟩

theorem Server.Attributed.withOutput (h : s.Attributed) (out : ℕ → List Byte) :
    { s with output := out }.Attributed :=
  ⟨h.lt, h.pending, h.address, h.live⟩

theorem length_registrations_le (lines : List (List Byte)) :
    (registrations P mc lines).length ≤ portLines lines := by
  induction lines with
  | nil => exact Nat.zero_le _
  | cons line lines ih =>
    rw [registrations, portLines, List.countP_cons]
    rcases harg : udpPortArg line with _ | _ | arg
    · exact ih.trans (Nat.le_add_right _ _)
    · exact Nat.zero_le _
    · simpa [portLines] using ih

theorem portLines_greeting {port : Word} {lines : List (List Byte)}
    (h : lines <+: [helloLine, tunnelLine port.toNat]) : portLines lines ≤ 1 := by
  refine (h.sublist.countP_le).trans ?_
  simp [udpPortArg_helloLine, udpPortArg_tunnelLine]

theorem lineFeed_mem_of_greeting {port : Word} {received rest : List Byte} (hne : rest ≠ [])
    (h : received ++ rest = greeting port) : lineFeed ∈ rest := by
  have hcrlf : ascii "\r\n" = [carriageReturn, lineFeed] := by decide
  have hlast : (received ++ rest).getLast? = some lineFeed := by
    rw [h, greeting, hcrlf, List.getLast?_append_of_ne_nil _ (by simp),
      List.getLast?_append_of_ne_nil _ (by simp)]
    rfl
  rw [List.getLast?_append_of_ne_nil _ hne] at hlast
  exact List.mem_of_getLast? hlast

theorem registrations_last (P : Platform) (mc : Mc) {port : Word}
    {before lines : List (List Byte)} (hne : lines ≠ [])
    (h : before ++ lines = [helloLine, tunnelLine port.toNat]) :
    portLines before = 0 ∧
      registrations P mc lines = [linePeer P mc (printDecimal port.toNat)] := by
  rcases before with _ | ⟨first, _ | ⟨second, before⟩⟩
  · rw [List.nil_append] at h
    rw [h]
    simp [portLines, registrations, udpPortArg_helloLine, udpPortArg_tunnelLine]
  · rw [List.singleton_append, List.cons.injEq] at h
    rw [h.1, h.2]
    simp [portLines, registrations, udpPortArg_helloLine, udpPortArg_tunnelLine]
  · rw [List.cons_append, List.cons_append, List.cons.injEq, List.cons.injEq] at h
    obtain ⟨-, -, hnil⟩ := h
    exact absurd (List.append_eq_nil_iff.mp hnil).2 hne

theorem missingArg_of_mem_greeting {port : Word} {line : List Byte}
    (h : line ∈ [helloLine, tunnelLine port.toNat]) : missingArg line = false := by
  rcases List.mem_cons.mp h with rfl | h
  · simp [missingArg, udpPortArg_helloLine]
  · rw [List.mem_singleton.mp h]
    simp [missingArg, udpPortArg_tunnelLine]

theorem port_of_registered {port : Word} {lines : List (List Byte)} {u : UdpPeer}
    (hlines : lines ⊆ [helloLine, tunnelLine port.toNat]) (hu : u ∈ registrations P mc lines) :
    endpointPort P u.peerAddr = port := by
  induction lines with
  | nil => cases hu
  | cons line lines ih =>
    obtain ⟨hline, hrest⟩ := List.cons_subset.mp hlines
    rw [registrations] at hu
    rcases List.mem_cons.mp hline with rfl | hline
    · rw [udpPortArg_helloLine] at hu
      exact ih hrest hu
    · rw [List.mem_singleton.mp hline, udpPortArg_tunnelLine] at hu
      rcases List.mem_cons.mp hu with rfl | hu
      · exact endpointPort_linePeer P mc port
      · exact ih hrest hu

structure SameLists (s t : Server) : Prop where
  next : t.next = s.next
  pendingPeers : t.pendingPeers = s.pendingPeers
  peers : t.peers = s.peers

theorem SameLists.trans {r : Server} (h : SameLists s t) (h' : SameLists t r) : SameLists s r :=
  ⟨h'.next.trans h.next, h'.pendingPeers.trans h.pendingPeers, h'.peers.trans h.peers⟩

structure ReadBy (P : Platform) (s : Server) (bev : ℕ) (bytes : List Byte) (t : Server) :
    Prop where
  output : t.output = s.output
  endpoint : t.udp.udpEndpoint = s.udp.udpEndpoint
  lists : SameLists s t
  others : ∀ b, b ≠ bev → t.input b = s.input b
  lines : s.peers.find? (findBev bev) = none ∧
      t.input bev = s.input bev ++ bytes ∧ t.udp = s.udp ∧ t.fault = none ∨
    ∃ mc, s.peers.find? (findBev bev) = some mc ∧
      t.input bev = (drain (s.input bev ++ bytes)).2 ∧
      t.udp.udpPeers = s.udp.udpPeers ++ registrations P mc (s.linesOf bev bytes) ∧
      t.fault = if (s.linesOf bev bytes).any missingArg then some .badPointer else none

theorem readBy_of_step (h : step P s (.read bev bytes) = some t) : ReadBy P s bev bytes t := by
  have hf := fault_eq_none_of_step h
  obtain ⟨-, rfl⟩ := mem_bevs_of_read h
  cases hmc : s.peers.find? (findBev bev) with
  | none =>
    rw [serverMcReadCb_of_none hmc]
    refine ⟨rfl, rfl, ⟨rfl, rfl, rfl⟩, fun b hb => ?_, .inl ⟨hmc, ?_, rfl, hf⟩⟩
    · exact Function.update_of_ne hb _ _
    · exact Function.update_self _ _ _
  | some mc =>
    obtain rfl := ptr_eq_of_find? hmc
    rw [serverMcReadCb_of_some hf hmc]
    refine ⟨rfl, rfl, ⟨rfl, rfl, rfl⟩, fun b hb => ?_, .inr ⟨mc, hmc, ?_, rfl, rfl⟩⟩
    · exact Function.update_of_ne hb _ _
    · exact Function.update_self _ _ _

namespace ReadBy

theorem mem_udpPeers (h : ReadBy P s bev bytes t) {u : UdpPeer} (hu : u ∈ t.udp.udpPeers) :
    u ∈ s.udp.udpPeers ∨
      u.onBehalf = bev ∧ ∃ mc, u ∈ registrations P mc (s.linesOf bev bytes) := by
  rcases h.lines with ⟨-, -, hudp, -⟩ | ⟨mc, hmc, -, hudp, -⟩
  · exact .inl (hudp ▸ hu)
  · rw [hudp, List.mem_append] at hu
    exact hu.imp_right fun hreg =>
      ⟨(mem_registrations hreg).1.trans (ptr_eq_of_find? hmc), mc, hreg⟩

theorem countP_of_ne (h : ReadBy P s bev bytes t) {b : ℕ} (hb : b ≠ bev) :
    t.udp.udpPeers.countP (·.onBehalf = b) = s.udp.udpPeers.countP (·.onBehalf = b) := by
  rcases h.lines with ⟨-, -, hudp, -⟩ | ⟨mc, hmc, -, hudp, -⟩
  · rw [hudp]
  · obtain rfl := ptr_eq_of_find? hmc
    rw [hudp, List.countP_append, Nat.add_eq_left, List.countP_eq_zero]
    intro u hu
    rw [(mem_registrations hu).1]
    simpa using hb.symm

theorem resume (h : ReadBy P s bev bytes t) {stream : List Byte} {lines : List (List Byte)}
    (hs : drain stream = (lines ++ (drain (s.input bev)).1, (drain (s.input bev)).2))
    (hc : s.udp.udpPeers.countP (·.onBehalf = bev) ≤ portLines lines) :
    ∃ lines', drain (stream ++ bytes) =
        (lines' ++ (drain (t.input bev)).1, (drain (t.input bev)).2) ∧
      t.udp.udpPeers.countP (·.onBehalf = bev) ≤ portLines lines' := by
  have hgo := drain_resume hs bytes
  rcases h.lines with ⟨-, hin, hudp, -⟩ | ⟨mc, hmc, hin, hudp, -⟩
  · rw [hin, hudp]
    exact ⟨lines, hgo, hc⟩
  · rw [hin, hudp, drain_drain, hgo]
    refine ⟨lines ++ s.linesOf bev bytes, by rw [List.append_nil, Server.linesOf], ?_⟩
    rw [List.countP_append, portLines, List.countP_append]
    exact Nat.add_le_add hc (List.countP_le_length.trans (length_registrations_le _))

end ReadBy

end Reading

end Tnetacle.Meta
