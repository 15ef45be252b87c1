import Tnetacle.Meta.Identity

/-! # The handshake of two nodes

Two nodes, each with its own platform and its own server, are joined by one
connection: the bytes that one node writes to the output buffer of its bufferevent
are read by the other, in pieces of any size and at any time after the reader's own
`CONNECTED` event. Along every run the state of a node is a function of what it has
read and what it has left to send.
-/

namespace Tnetacle.Meta

open ByteOrder CString LineBuffer Runs Keyed

inductive End | a | b
  deriving DecidableEq, Repr

namespace End

def other : End → End
  | .a => .b
  | .b => .a

@[simp] theorem other_other (x : End) : x.other.other = x := by cases x <;> rfl
@[simp] theorem other_ne (x : End) : x.other ≠ x := by cases x <;> decide
@[simp] theorem ne_other (x : End) : x ≠ x.other := by cases x <;> decide

theorem eq_or_eq_other (x y : End) : y = x ∨ y = x.other := by cases x <;> cases y <;> decide

end End

/-- A step of the pair: an end is told that it is connected, or reads what the other sent. -/
inductive LinkLabel
  | connected (x : End) (past : Mc)
  | deliver (x : End) (n : ℕ)
  deriving DecidableEq

def Server.flush (s : Server) (bev n : ℕ) : Server :=
  { s with output := Function.update s.output bev ((s.output bev).drop n) }

section Model

variable (P : End → Platform) (mc : End → Mc)

def linkStep (s : End → Server) : LinkLabel → Option (End → Server)
  | .connected x past =>
    (step (P x) (s x) (.event (mc x).bev.ptr bevEventConnected true past)).map (Function.update s x)
  | .deliver x n =>
    -- an end reads only once its own `CONNECTED` event has been handled
    if ((s x).peers.find? (findBev (mc x).bev.ptr)).isSome then
      let y := x.other
      let bytes := ((s y).output (mc y).bev.ptr).take n
      (step (P x) (s x) (.read (mc x).bev.ptr bytes)).map
        (Function.update (Function.update s y ((s y).flush (mc y).bev.ptr n)) x)
    else none

end Model

/-- A node that holds the connection `mc` as a pending one, with nothing exchanged yet. -/
structure Joining (s : Server) (mc : Mc) : Prop where
  identified : s.Identified
  fault : s.fault = none
  live : mc.bev.ptr ∈ s.bevs
  pending : mc ∈ s.pendingPeers
  input : s.input mc.bev.ptr = []
  output : s.output mc.bev.ptr = []

/-- What `mc_hello` and `mc_establish_tunnel` write. -/
def greeting (port : Word) : List Byte :=
  helloLine ++ ascii "\r\n" ++ (tunnelLine port.toNat ++ ascii "\r\n")

/-- The node `s` after its `CONNECTED` event, having read `received`, with `rest` left to send. -/
def Server.talking (P : Platform) (s : Server) (mc : Mc) (received rest : List Byte) : Server :=
  { s with
    pendingPeers := s.pendingPeers.eraseP (findBev mc.bev.ptr)
    peers := s.peers ++ [mc]
    udp := { s.udp with
      udpPeers := s.udp.udpPeers ++ registrations P mc (drain received).1 }
    input := Function.update s.input mc.bev.ptr (drain received).2
    output := Function.update s.output mc.bev.ptr rest }

section Lines

theorem drain_greeting (port : Word) :
    drain (greeting port) = ([helloLine, tunnelLine port.toNat], []) := by
  have hcrlf : ascii "\r\n" = [carriageReturn, lineFeed] := by decide
  have hhello : lineFeed ∉ helloLine := by decide
  have htunnel := drain_tunnelLine port.toNat []
  rw [List.append_nil] at htunnel
  rw [greeting, List.append_assoc, hcrlf, List.cons_append, List.cons_append, List.nil_append,
    drain_line hhello, ← hcrlf, htunnel]
  rfl

theorem missingArg_of_prefix {port : Word} {received rest : List Byte}
    (h : received ++ rest = greeting port) : (drain received).1.any missingArg = false := by
  have hlines : (drain received).1 <+: [helloLine, tunnelLine port.toNat] := by
    have hall := congrArg Prod.fst (drain_greeting port)
    rw [← h, drain_append] at hall
    exact ⟨_, hall⟩
  rw [List.any_eq_false]
  intro line hline
  rcases List.mem_cons.mp (hlines.subset hline) with rfl | hline
  · simp [missingArg, udpPortArg_helloLine]
  · rw [List.mem_singleton.mp hline]
    simp [missingArg, udpPortArg_tunnelLine]

theorem registrations_append (P : Platform) (mc : Mc) {lines : List (List Byte)}
    (h : lines.any missingArg = false) (lines' : List (List Byte)) :
    registrations P mc (lines ++ lines') =
      registrations P mc lines ++ registrations P mc lines' := by
  induction lines with
  | nil => rfl
  | cons line lines ih =>
    rw [List.any_cons, Bool.or_eq_false_iff] at h
    rw [List.cons_append, registrations, registrations]
    rcases harg : udpPortArg line with _ | _ | arg
    · exact ih h.2
    · simp [missingArg, harg] at h
    · simp [ih h.2]

end Lines

section Node

variable {P : Platform} {s : Server} {mc : Mc}

theorem Joining.find_pending (h : Joining s mc) :
    s.pendingPeers.find? (findBev mc.bev.ptr) = some mc :=
  (find?_eq_some_iff h.identified.pending_nodup).mpr ⟨h.pending, rfl⟩

theorem Joining.find_peers (h : Joining s mc) : s.peers.find? (findBev mc.bev.ptr) = none := by
  rw [List.find?_eq_none]
  intro mc' hmc'
  simpa [findBev] using (h.identified.pending_ne_peers h.pending hmc').symm

theorem Joining.find_talking (h : Joining s mc) (received rest : List Byte) :
    (s.talking P mc received rest).peers.find? (findBev mc.bev.ptr) = some mc := by
  simp [Server.talking, List.find?_append, h.find_peers, findBev]

/-- The `CONNECTED` event of a node that waits for it. -/
theorem Joining.step_connected (h : Joining s mc) (past : Mc) :
    step P s (.event mc.bev.ptr bevEventConnected true past) =
      some (s.talking P mc [] (greeting (udpGetPort P s.udp))) := by
  have hc : bevEventConnected &&& bevEventConnected ≠ 0 := by decide
  have hin : Function.update s.input mc.bev.ptr [] = s.input := by
    rw [← h.input, Function.update_eq_self]
  have hhello : ascii "Hello ~!\r\n" = helloLine ++ ascii "\r\n" := by decide
  simp only [step, h.fault, Option.isSome_none, Bool.false_eq_true, if_false, if_pos h.live,
    Server.serverMcEventCb, if_pos hc, h.find_pending, Bool.true_eq_false, and_false]
  simp [Server.talking, Server.establish, Server.mcHello, Server.mcEstablishTunnel, Server.write,
    h.output, greeting, tunnelLine, hhello, drain, drainFrom, registrations, hin]

/-- A second `CONNECTED` event finds no pending entry. -/
theorem Joining.step_connected_again (h : Joining s mc) (past : Mc) (received rest : List Byte) :
    step P (s.talking P mc received rest) (.event mc.bev.ptr bevEventConnected true past) =
      some (s.talking P mc received rest) := by
  have hc : bevEventConnected &&& bevEventConnected ≠ 0 := by decide
  have hnone : (s.pendingPeers.eraseP (findBev mc.bev.ptr)).find? (findBev mc.bev.ptr) = none := by
    rw [eraseP_findBev_eq_filter h.identified.pending_nodup, List.find?_eq_none]
    intro mc' hmc'
    simpa [findBev] using (List.mem_filter.mp hmc').2
  have hlive : mc.bev.ptr ∈ (s.talking P mc received rest).bevs := h.live
  have hfault : (s.talking P mc received rest).fault = none := h.fault
  simp only [step, hfault, Option.isSome_none, Bool.false_eq_true, if_false, if_pos hlive,
    Server.serverMcEventCb, if_pos hc]
  simp only [Server.talking, hnone]

theorem Joining.step_read (h : Joining s mc) {port : Word} {received bytes later : List Byte}
    (hpre : received ++ bytes ++ later = greeting port) (rest : List Byte) :
    step P (s.talking P mc received rest) (.read mc.bev.ptr bytes) =
      some (s.talking P mc (received ++ bytes) rest) := by
  have hlive : mc.bev.ptr ∈ (s.talking P mc received rest).bevs := h.live
  have hfault : (s.talking P mc received rest).fault = none := h.fault
  have hlines : (s.talking P mc received rest).linesOf mc.bev.ptr bytes =
      (drain ((drain received).2 ++ bytes)).1 := by
    simp [Server.linesOf, Server.talking]
  have happ := drain_append received bytes
  have hbefore := missingArg_of_prefix (by rw [← hpre, List.append_assoc] :
    received ++ (bytes ++ later) = greeting port)
  have hafter := missingArg_of_prefix hpre
  rw [happ, List.any_append, Bool.or_eq_false_iff] at hafter
  simp only [step, hfault, Option.isSome_none, Bool.false_eq_true, if_false, if_pos hlive]
  rw [serverMcReadCb_of_some hfault (h.find_talking received rest), Server.registered, hlines,
    hafter.2]
  simp [Server.talking, happ, registrations_append P mc hbefore, h.fault]

end Node

/-- How far the handshake has gone: what each end has read and has left to send. -/
structure Phase where
  connected : End → Bool
  received : End → List Byte
  rest : End → List Byte

section Pair

variable {P : End → Platform} {mc : End → Mc} {s₀ s t : End → Server} {p : Phase}

def Phase.node (P : End → Platform) (mc : End → Mc) (s₀ : End → Server) (p : Phase) (x : End) :
    Server :=
  if p.connected x then (s₀ x).talking (P x) (mc x) (p.received x) (p.rest x) else s₀ x

/-- What an end has read and what the other has left to send make the other's greeting. -/
structure Phase.Consistent (P : End → Platform) (s₀ : End → Server) (p : Phase) : Prop where
  silent : ∀ x, p.connected x = false → p.received x = [] ∧ p.rest x = []
  stream : ∀ x, p.received x ++ p.rest x.other =
    cond (p.connected x.other) (greeting (udpGetPort (P x.other) (s₀ x.other).udp)) []

def Phase.connect (P : End → Platform) (s₀ : End → Server) (p : Phase) (x : End) : Phase where
  connected := Function.update p.connected x true
  received := p.received
  rest := Function.update p.rest x (greeting (udpGetPort (P x) (s₀ x).udp))

def Phase.deliver (p : Phase) (x : End) (n : ℕ) : Phase where
  connected := p.connected
  received := Function.update p.received x (p.received x ++ (p.rest x.other).take n)
  rest := Function.update p.rest x.other ((p.rest x.other).drop n)

theorem Phase.Consistent.connect (hp : p.Consistent P s₀) {x : End} (hx : p.connected x = false) :
    (p.connect P s₀ x).Consistent P s₀ := by
  constructor
  · intro y hy
    rcases x.eq_or_eq_other y with rfl | rfl
    · simp [Phase.connect] at hy
    · simpa [Phase.connect] using hp.silent _ (by simpa [Phase.connect] using hy)
  · intro y
    rcases x.eq_or_eq_other y with rfl | rfl
    · simpa [Phase.connect] using hp.stream y
    · have hnone := hp.stream x.other
      simp only [End.other_other, hx, cond_false, List.append_eq_nil_iff] at hnone
      simp [Phase.connect, hnone.1]

theorem Phase.Consistent.deliver (hp : p.Consistent P s₀) {x : End} (hx : p.connected x = true)
    (n : ℕ) : (p.deliver x n).Consistent P s₀ := by
  constructor
  · intro y hy
    rcases x.eq_or_eq_other y with rfl | rfl
    · rw [Phase.deliver, hx] at hy; cases hy
    · simp [Phase.deliver, hp.silent _ hy]
  · intro y
    rcases x.eq_or_eq_other y with rfl | rfl
    · simpa [Phase.deliver] using hp.stream y
    · simpa [Phase.deliver] using hp.stream x.other

theorem Phase.Consistent.continues (hp : p.Consistent P s₀) (x : End) (n : ℕ) :
    ∃ port later, p.received x ++ (p.rest x.other).take n ++ later = greeting port := by
  have hs := hp.stream x
  cases hy : p.connected x.other with
  | true =>
    rw [hy, cond_true] at hs
    exact ⟨udpGetPort (P x.other) (s₀ x.other).udp, (p.rest x.other).drop n, by
      rw [List.append_assoc, List.take_append_drop, hs]⟩
  | false =>
    rw [hy, cond_false, List.append_eq_nil_iff] at hs
    exact ⟨0, greeting 0, by simp [hs.1, hs.2]⟩

variable (hjoin : ∀ x, Joining (s₀ x) (mc x))

include hjoin

theorem node_output (hp : p.Consistent P s₀) (x : End) :
    (p.node P mc s₀ x).output (mc x).bev.ptr = p.rest x := by
  unfold Phase.node
  cases hx : p.connected x with
  | true => simp [Server.talking]
  | false => simp [(hjoin x).output, (hp.silent x hx).2]

theorem node_flush (x : End) (n : ℕ) :
    (p.node P mc s₀ x.other).flush (mc x.other).bev.ptr n =
      (p.deliver x n).node P mc s₀ x.other := by
  unfold Phase.node
  cases hx : p.connected x.other with
  | true => simp [Server.talking, Server.flush, Phase.deliver, hx]
  | false =>
    have hout : Function.update (s₀ x.other).output (mc x.other).bev.ptr [] =
        (s₀ x.other).output := by
      rw [← (hjoin x.other).output, Function.update_eq_self]
    simp [Server.flush, Phase.deliver, hx, (hjoin x.other).output, hout]

/-- A `CONNECTED` event moves the handshake on the first time, and changes nothing later. -/
theorem linkStep_connected (hp : p.Consistent P s₀) (x : End) (past : Mc) :
    ∃ q : Phase, q.Consistent P s₀ ∧ q.connected = Function.update p.connected x true ∧
      linkStep P mc (p.node P mc s₀) (.connected x past) = some (q.node P mc s₀) := by
  cases hx : p.connected x with
  | true =>
    refine ⟨p, hp, by rw [← hx, Function.update_eq_self], ?_⟩
    have hnode : p.node P mc s₀ x =
      (s₀ x).talking (P x) (mc x) (p.received x) (p.rest x) := by simp [Phase.node, hx]
    rw [linkStep, hnode, (hjoin x).step_connected_again, ← hnode, Option.map_some,
      Function.update_eq_self]
  | false =>
    refine ⟨p.connect P s₀ x, hp.connect hx, rfl, ?_⟩
    have hnode : p.node P mc s₀ x = s₀ x := by simp [Phase.node, hx]
    rw [linkStep, hnode, (hjoin x).step_connected, Option.map_some, Option.some.injEq]
    funext y
    rcases x.eq_or_eq_other y with rfl | rfl
    · simp [Phase.node, Phase.connect, (hp.silent y hx).1]
    · simp [Phase.node, Phase.connect]

theorem linkStep_deliver (hp : p.Consistent P s₀) {x : End} (hx : p.connected x = true) (n : ℕ) :
    linkStep P mc (p.node P mc s₀) (.deliver x n) = some ((p.deliver x n).node P mc s₀) := by
  obtain ⟨port, later, hpre⟩ := hp.continues x n
  have hnode : p.node P mc s₀ x =
    (s₀ x).talking (P x) (mc x) (p.received x) (p.rest x) := by simp [Phase.node, hx]
  have hpeer : ((p.node P mc s₀ x).peers.find? (findBev (mc x).bev.ptr)).isSome = true := by
    rw [hnode, (hjoin x).find_talking]
    rfl
  simp only [linkStep, if_pos hpeer, node_output hjoin hp, node_flush hjoin]
  rw [hnode, (hjoin x).step_read hpre, Option.map_some, Option.some.injEq]
  funext y
  rcases x.eq_or_eq_other y with rfl | rfl
  · simp [Phase.node, Phase.deliver, hx]
  · simp

theorem phase_step (hp : p.Consistent P s₀) {l : LinkLabel}
    (h : linkStep P mc (p.node P mc s₀) l = some t) :
    ∃ q : Phase, q.Consistent P s₀ ∧ t = q.node P mc s₀ := by
  cases l with
  | connected x past =>
    obtain ⟨q, hq, -, hstep⟩ := linkStep_connected hjoin hp x past
    exact ⟨q, hq, Option.some.inj (h.symm.trans hstep)⟩
  | deliver x n =>
    cases hx : p.connected x with
    | true =>
      have hstep := linkStep_deliver hjoin hp hx n
      exact ⟨p.deliver x n, hp.deliver hx n, Option.some.inj (h.symm.trans hstep)⟩
    | false => simp [linkStep, Phase.node, hx, (hjoin x).find_peers] at h

theorem phase_of_run {ls : List LinkLabel} (h : Run (linkStep P mc) s₀ ls s) :
    ∃ p : Phase, p.Consistent P s₀ ∧ s = p.node P mc s₀ := by
  refine h.invariant (P := fun s => ∃ p : Phase, p.Consistent P s₀ ∧ s = p.node P mc s₀) ?_ ?_
  · rintro s l t ⟨p, hp, rfl⟩ ht
    exact phase_step hjoin hp ht
  · exact ⟨⟨fun _ => false, fun _ => [], fun _ => []⟩, ⟨by simp, by simp⟩,
      by funext x; simp [Phase.node]⟩

def Delivered (mc : End → Mc) (s : End → Server) : Prop :=
  ∀ x, ((s x).peers.find? (findBev (mc x).bev.ptr)).isSome ∧ (s x).output (mc x).bev.ptr = []

theorem received_of_delivered (hp : p.Consistent P s₀) (hdone : Delivered mc (p.node P mc s₀))
    (x : End) : p.connected x = true ∧
      p.received x = greeting (udpGetPort (P x.other) (s₀ x.other).udp) := by
  have hconn : ∀ y, p.connected y = true := by
    intro y
    by_contra hno
    have hpeer := (hdone y).1
    simp [Phase.node, hno, (hjoin y).find_peers] at hpeer
  have hrest : p.rest x.other = [] := (node_output hjoin hp x.other).symm.trans (hdone x.other).2
  have hstream := hp.stream x
  rw [hrest, List.append_nil, hconn, cond_true] at hstream
  exact ⟨hconn x, hstream⟩

theorem delivered_reachable (hp : p.Consistent P s₀) :
    ∃ ls t, Run (linkStep P mc) (p.node P mc s₀) ls t ∧ Delivered mc t := by
  obtain ⟨q, hq, hqc, hstep₁⟩ := linkStep_connected hjoin hp .a .blank
  obtain ⟨r, hr, hrc, hstep₂⟩ := linkStep_connected hjoin hq .b .blank
  have hconn : ∀ x, r.connected x = true := by
    intro x
    rw [hrc, hqc]
    cases x <;> rfl
  have hstep₃ := linkStep_deliver hjoin hr (hconn .a) (r.rest .b).length
  have hr₃ := hr.deliver (hconn .a) (r.rest .b).length
  have hstep₄ := linkStep_deliver hjoin hr₃ (hconn .b) (r.rest .a).length
  have hr₄ := hr₃.deliver (hconn .b) (r.rest .a).length
  refine ⟨_, _, .cons hstep₁ (.cons hstep₂ (.cons hstep₃ (.cons hstep₄ (.nil _)))), fun x => ?_⟩
  rw [node_output hjoin hr₄ x]
  constructor
  · have hx : ((r.deliver .a (r.rest .b).length).deliver .b (r.rest .a).length).connected x =
        true := hconn x
    rw [Phase.node, if_pos hx, (hjoin x).find_talking]
    rfl
  · cases x <;> simp [Phase.deliver, End.other, Function.update]

end Pair

theorem endpointPort_linePeer (P : Platform) (mc : Mc) (port : Word) :
    endpointPort P (linePeer P mc (printDecimal port.toNat)).peerAddr = port := by
  have hlt : port.toNat < 2 ^ 31 := port.isLt.trans (by decide)
  simp [linePeer, Server.lineEndpoint, atoi_printDecimal _ hlt]

theorem joining_opened {s : Server} (hi : s.Identified) (hf : s.fault = none)
    (hin : s.input s.next = []) (hout : s.output s.next = []) (fd : Option ℕ) (sock : Sockaddr) :
    Joining (s.allocate.insertPending (s.newMc fd sock)) (s.newMc fd sock) where
  identified := hi.opened fd sock
  fault := hf
  live := List.mem_append_right _ (List.mem_singleton.mpr rfl)
  pending := List.mem_append_right _ (List.mem_singleton.mpr rfl)
  input := hin
  output := hout

/--
Whatever has happened so far, the handshake can be completed. Once both greetings are
delivered, in pieces of any size and in any order, each end has registered exactly one
peer, with the address it has for the other end and the port that the other end is
bound to. The line of `mc_hello` registers nothing.
-/
theorem handshake_agreement {P : End → Platform} {mc : End → Mc} {s₀ s : End → Server}
    {ls : List LinkLabel} (hjoin : ∀ x, Joining (s₀ x) (mc x))
    (hr : Run (linkStep P mc) s₀ ls s) :
    (∃ ls' t, Run (linkStep P mc) s ls' t ∧ Delivered mc t) ∧
    (Delivered mc s → ∀ x, ∃ u, (s x).udp.udpPeers = (s₀ x).udp.udpPeers ++ [u] ∧
      u.peerAddr.addr.ip = (mc x).address.sa.ip ∧
      endpointPort (P x) u.peerAddr = endpointPort (P x.other) (s₀ x.other).udp.udpEndpoint) ∧
    ∀ x (r : Server), r.readLine (P x) (mc x) helloLine = r := by
  obtain ⟨p, hp, rfl⟩ := phase_of_run hjoin hr
  refine ⟨delivered_reachable hjoin hp, fun hdone x => ?_, fun x r => ?_⟩
  · obtain ⟨hconn, hrec⟩ := received_of_delivered hjoin hp hdone x
    let port := udpGetPort (P x.other) (s₀ x.other).udp
    refine ⟨linePeer (P x) (mc x) (printDecimal port.toNat), ?_, ip_endpointSetPort _ _ _,
      endpointPort_linePeer _ _ _⟩
    simp [Phase.node, hconn, Server.talking, hrec, drain_greeting, registrations,
      udpPortArg_helloLine, udpPortArg_tunnelLine, port]
  · rw [readLine_eq, udpPortArg_helloLine]

/-- A node dials another one: both end with the port of the other. -/
theorem handshake_of_dialled :
    ∃ (mc : End → Mc) (s₀ : End → Server) (ls : List LinkLabel) (s : End → Server),
      (∀ x, Joining (s₀ x) (mc x)) ∧ Run (linkStep (fun _ => .reference) mc) s₀ ls s ∧
      ∀ x, ∃ u, (s x).udp.udpPeers = [u] ∧ u.peerAddr.addr.ip = (mc x).address.sa.ip ∧
        endpointPort .reference u.peerAddr =
          endpointPort .reference (s₀ x.other).udp.udpEndpoint := by
  let node : End → Server
    | .a => init false (endpointInit (.inet 0x0a000001 0x5000))
    | .b => init false (endpointInit (.inet 0x0a000002 0x6100))
  let fd : End → Option ℕ
    | .a => none
    | .b => some 7
  let sock : End → Sockaddr
    | .a => .inet 0x0a000002 0x1704
    | .b => .inet 0x0a000001 0x3930
  let mc : End → Mc := fun x => (node x).newMc (fd x) (sock x)
  let s₀ : End → Server := fun x => (node x).allocate.insertPending (mc x)
  have hjoin : ∀ x, Joining (s₀ x) (mc x) := by
    intro x
    cases x
    · exact joining_opened (identified_init _ _) rfl rfl rfl _ _
    · exact joining_opened (identified_init _ _) rfl rfl rfl _ _
  obtain ⟨⟨ls, s, hr, hdone⟩, -⟩ :=
    handshake_agreement (P := fun _ => .reference) hjoin (.nil s₀)
  refine ⟨mc, s₀, ls, s, hjoin, hr, fun x => ?_⟩
  have hnil : (s₀ x).udp.udpPeers = [] := by cases x <;> rfl
  simpa [hnil] using (handshake_agreement hjoin hr).2.1 hdone x

end Tnetacle.Meta
