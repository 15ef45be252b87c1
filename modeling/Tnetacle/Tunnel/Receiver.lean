import Tnetacle.Fibers.Blocking
import Tnetacle.Tunnel.Receive

/-! # The receiver on the scheduler

`server_udp` is a fiber that nobody wakes. Between the peek at a header and the receive behind
it, and between any two of its calls, the other fibers run and datagrams arrive. It still does
what its loop does with calls that block: the datagrams are handled one after the other in
the order of their arrival, and what is received is what was peeked at.
-/

namespace Tnetacle.Tunnel

open ByteOrder Memory Meta Runs
open Fibers (IntPtr Fd Syscall Sched)

/-- The call that `server_udp` is in. -/
inductive ReceiverPc
  | created
  | peek
  | recv
  | forward (it : UdpPeer) (rest : List UdpPeer)
  | write
  | exited

/--
The fiber of the receiver, its descriptors, and the addresses of what it passes to its calls;
`rawPacket n` is the block that is allocated for the datagram `n`.
-/
structure ReceiverWiring where
  fib : ℕ
  udpFd : Fd
  tapFd : Fd
  hdr : IntPtr
  sockaddr : IntPtr
  socklen : IntPtr
  rawPacket : ℕ → IntPtr
  endpointAddr : UdpPeer → IntPtr
  endpointAddrlen : UdpPeer → IntPtr

abbrev SocketDatagram := List Byte × Sockaddr

/--
The local variables of `server_udp`, the queue of its socket, what has been passed to `write` and
to `send`, and the scheduler. The list of peers is that of the moment; `round` records the peers
that the loop over them has begun with and which sends have succeeded, `rounds` the same for the
datagrams before.
-/
structure Receiver where
  pc : ReceiverPc := .created
  turns : ℕ := 0
  hdr : List Byte := []
  frame : Frame := ⟨0, []⟩
  source : Sockaddr := .inet 0 0
  udpPeers : List UdpPeer := []
  socket : List SocketDatagram := []
  written : List (List Byte) := []
  sent : List (List Byte) := []
  round : List UdpPeer × List Bool := ([], [])
  rounds : List (List UdpPeer × (ℕ → Bool)) := []
  sched : Sched := {}

/-- What a call leaves open: the kind of a failure, and the contents of new memory. -/
structure ReceiverOutcome where
  tooLong : Bool
  hdr : Block sizeofPacketHdr
  malloc : ∀ n, Block n

inductive ReceiverLabel
  | sched (l : Fibers.Label)
  | arrive (d : SocketDatagram)
  | peers (udpPeers : List UdpPeer)
  | launch
  | resume (e : ℕ) (how : Fibers.Firing) (r : IntPtr) (o : ReceiverOutcome)

def msgPeek : IntPtr := 2

def answered (results : List Bool) (n : ℕ) : Bool := results.getD n true

section Model

variable (P : Platform) (w : ReceiverWiring)

def ReceiverWiring.call (p : Receiver) : Option Fibers.Call :=
  let packetLen := BitVec.ofNat 64 (p.frame.size.toNat + sizeofPacketHdr)
  match p.pc with
  | .peek => some (.recvfrom w.udpFd w.hdr (BitVec.ofNat 64 sizeofPacketHdr) msgPeek w.sockaddr
      w.socklen)
  | .recv => some (.recv w.udpFd (w.rawPacket p.turns) packetLen 0)
  | .forward it _ => some (.sendto w.udpFd (w.rawPacket p.turns) packetLen 0 (w.endpointAddr it)
      (w.endpointAddrlen it))
  | .write => some (.write w.tapFd (w.rawPacket p.turns + BitVec.ofNat 64 sizeofPacketHdr)
      (BitVec.ofNat 64 p.frame.size.toNat))
  | .created | .exited => none

namespace Receiver

/--
What the kernel does for a system call of the receiver. A peek leaves the datagram where it is,
and copies its beginning even if it reports that the datagram is longer.
-/
def execute (tooLong : Bool) (p : Receiver) : Syscall × IntPtr → Receiver
  | (.recvfrom _ _ len _ _ _, r) =>
    match p.socket with
    | [] => p
    | (d, source) :: _ =>
      if r ≠ -1 ∨ tooLong then
        { p with hdr := overwrite p.hdr 0 (d.take len.toNat), source := source }
      else p
  | (.recv _ _ len _, r) =>
    match p.socket with
    | [] => p
    | (d, _) :: rest =>
      if r ≠ -1 then
        { p with
          frame := { p.frame with rawPacket := overwrite p.frame.rawPacket 0 (d.take len.toNat) }
          socket := rest }
      else p
  | (.send _ _ len _, _) => { p with sent := p.sent ++ [p.frame.rawPacket.take len.toNat] }
  | (.write _ _ len, _) => { p with written := p.written ++ [p.frame.frame.take len.toNat] }
  | _ => p

/-- The loop of `forward_udp_frame_to_other_peers` goes on to the next peer but the source. -/
def forward (p : Receiver) (peers : List UdpPeer) : Receiver :=
  match peers.dropWhile fun it => endpointCmp P it.peerAddr (endpointInit p.source) = 0 with
  | [] => { p with pc := .write }
  | it :: rest => { p with pc := .forward it rest }

/-- The code of `server_udp` and the functions it calls, from one call to the next. -/
def serverUdp (p : Receiver) (ret : IntPtr) (o : ReceiverOutcome) : Receiver :=
  match p.pc with
  | .created => { p with pc := .peek }
  | .peek =>
    if ret = -1 ∧ o.tooLong = false then { p with pc := .exited }
    else
      let localSize := ntohs P.host (load P.host (p.hdr.getD 0 0) (p.hdr.getD 1 0))
      { p with
        pc := .recv
        frame := (frameAlloc p.frame (some (o.malloc (localSize.toNat + sizeofPacketHdr)).1)
          localSize.toNat).2 }
  | .recv =>
    if ret = -1 then { p with pc := .exited }
    else { p with round := (p.udpPeers, []) : Receiver }.forward P p.udpPeers
  | .forward _ rest =>
    let p := { p with round := (p.round.1, p.round.2 ++ [decide (ret ≠ -1)]) }
    if ret = -1 then { p with pc := .write } else p.forward P rest
  | .write =>
    { p with
      pc := .peek
      turns := p.turns + 1
      rounds := p.rounds ++ [(p.round.1, answered p.round.2)] }
  | .exited => p

def leave (p : Receiver) (s : Sched) : Option Receiver :=
  (Fibers.step s ((w.call p).elim (.exit 1) .call)).map ({ p with sched := · })

/-- A receive without a datagram fails. -/
def possible (p : Receiver) (r : IntPtr) (o : ReceiverOutcome) : Bool :=
  match p.pc with
  | .peek | .recv => !p.socket.isEmpty || (r == -1 && !o.tooLong)
  | _ => true

/--
The peers do not change while the receiver is in its loop over them. A dispatch that resumes
no call starts the fiber.
-/
def step (p : Receiver) : ReceiverLabel → Option Receiver
  | .sched l =>
    if w.fib ∈ Fibers.touched p.sched l ∧ l ≠ .newFiber then none
    else (Fibers.step p.sched l).map ({ p with sched := · })
  | .arrive d => some { p with socket := p.socket ++ [d] }
  | .peers udpPeers =>
    match p.pc with
    | .forward .. => none
    | _ => some { p with udpPeers := udpPeers }
  | .launch =>
    (Fibers.step p.sched (.launch w.fib)).bind ({ p with pc := .peek : Receiver }.leave w)
  | .resume e how r o =>
    if p.sched.owner e = some w.fib ∧ p.possible r o = true then
      (Fibers.step p.sched (.dispatch e how r)).bind fun t =>
        match t.resumes.drop p.sched.resumes.length with
        | x :: _ =>
          ((x.executed.foldl (execute o.tooLong) { p with hdr := o.hdr.1 }).serverUdp P x.ret
            o).leave w t
        | [] => ({ p with pc := .peek } : Receiver).leave w t
    else none

end Receiver

end Model

/-! ## The fiber of the receiver -/

section Placed

variable {P : Platform} {w : ReceiverWiring} {p p' : Receiver} {s t : Sched}

def Receiver.Placed (w : ReceiverWiring) (p : Receiver) : Prop :=
  match p.pc with
  | .created => p.sched.ctxs[w.fib]? = none ∨ p.sched.ctxs[w.fib]? = some .created
  | _ => p.sched.ctxs[w.fib]? = some ((w.call p).elim .exited .suspended)

theorem placed_iff (hpc : p.pc ≠ .created) :
    p.Placed w ↔ p.sched.ctxs[w.fib]? = some ((w.call p).elim .exited .suspended) := by
  unfold Receiver.Placed
  split
  · rename_i hcreated
    exact absurd hcreated hpc
  · rfl

theorem Receiver.Placed.congr (h : p.Placed w) (hctx : t.ctxs[w.fib]? = p.sched.ctxs[w.fib]?) :
    Receiver.Placed w { p with sched := t } := by
  by_cases hpc : p.pc = .created
  · simp only [Receiver.Placed, hpc, hctx] at h ⊢
    exact h
  · rw [placed_iff hpc] at h
    exact (placed_iff (p := { p with sched := t }) hpc).mpr (hctx.trans h)

theorem call_io {c : Fibers.Call} (h : w.call p = some c) :
    (∀ f data, c ≠ .continueWith f data) ∧ (∃ a, c.arms = [a]) ∧
      ∃ d sc, c.recorded = some (d, sc) := by
  unfold ReceiverWiring.call at h
  simp only at h
  split at h
  all_goals first
    | cases h
      exact ⟨by simp, ⟨_, rfl⟩, _, _, rfl⟩
    | cases h

theorem leave_spec (hs : s.Served w.fib) (hcur : s.current = some w.fib) (hpc : p.pc ≠ .created)
    (h : p.leave w s = some p') :
    ∃ u, p' = { p with sched := u } ∧ u.Served w.fib ∧ p'.Placed w := by
  obtain ⟨u, hstep, rfl⟩ := Option.map_eq_some_iff.mp h
  have hrunning := hs.stacked.running_of_current hcur
  refine ⟨u, rfl, ?_⟩
  rw [placed_iff (p := { p with sched := u }) hpc]
  cases hcall : w.call p with
  | none =>
    rw [hcall] at hstep
    obtain ⟨f, hf, rfl⟩ := (Fibers.step_inv hstep).2
    obtain rfl := Option.some.inj (hcur.symm.trans hf)
    have hunwoken : Fibers.Unwoken w.fib s (.exit 1) := trivial
    refine ⟨Fibers.served_step hs hunwoken hstep, ?_⟩
    have hnone : w.call { p with sched := s.schedFiberExit w.fib 1 } = none := hcall
    rw [hnone, Fibers.ctxs_schedFiberExit, List.getElem?_modify_eq, hrunning]
    rfl
  | some c =>
    rw [hcall] at hstep
    obtain ⟨f, hf, rfl⟩ := (Fibers.step_inv hstep).2
    obtain rfl := Option.some.inj (hcur.symm.trans hf)
    obtain ⟨hno, harms, -⟩ := call_io hcall
    have hunwoken : Fibers.Unwoken w.fib s (.call c) := ⟨hno w.fib, fun _ => harms⟩
    refine ⟨Fibers.served_step hs hunwoken hstep, ?_⟩
    have hsome : w.call { p with sched := s.async w.fib c } = some c := hcall
    rw [hsome, Fibers.ctxs_async, List.getElem?_modify_eq, hrunning]
    rfl

end Placed

/-! ## What has become of the datagrams -/

section Progress

variable (P : Platform)

def Arrival.head (a : Arrival) : SocketDatagram := (a.datagram, a.source)

def Arrival.round (a : Arrival) : List UdpPeer × (ℕ → Bool) := (a.udpPeers, a.sendOk)

def othersOf (a : Arrival) : List UdpPeer :=
  a.udpPeers.filter fun u => endpointCmp P u.peerAddr (endpointInit a.source) ≠ 0

def packets (as : List Arrival) : List (List Byte) :=
  as.flatMap fun a => (turn P a).forwards.map (·.2)

def frames (as : List Arrival) : List (List Byte) := as.flatMap fun a => (turn P a).writes

/-- The datagrams `as` have been handled, and the one after them as far as the call says. -/
def Receiver.Progress (arrived : List SocketDatagram) (p : Receiver) (as : List Arrival) : Prop :=
  p.written = frames P as ∧ as.map Arrival.round = p.rounds ∧
  match p.pc with
  | .created | .peek | .exited =>
    arrived = as.map Arrival.head ++ p.socket ∧ p.sent = packets P as
  | .recv =>
    arrived = as.map Arrival.head ++ p.socket ∧ p.sent = packets P as ∧
      ∃ (a : Arrival) (rest : List SocketDatagram), a.received = true ∧ p.socket = a.head :: rest ∧
        p.source = a.source ∧
        p.frame = ⟨peekedSize P a, (a.malloc ((peekedSize P a).toNat + sizeofPacketHdr)).1⟩
  | .forward it rest =>
    ∃ (a : Arrival) (prior : List UdpPeer), a.received = true ∧
      arrived = as.map Arrival.head ++ a.head :: p.socket ∧ p.source = a.source ∧
      p.frame = receivedFrame P a ∧
      othersOf P a = prior ++ it :: rest.filter
        (fun u => endpointCmp P u.peerAddr (endpointInit a.source) ≠ 0) ∧
      p.round = (a.udpPeers, prior.map fun _ => true) ∧
      p.sent = packets P as ++ prior.map fun _ => (receivedFrame P a).packet
  | .write =>
    ∃ a : Arrival, a.received = true ∧ arrived = as.map Arrival.head ++ a.head :: p.socket ∧
      p.frame = receivedFrame P a ∧ a.round = (p.round.1, answered p.round.2) ∧
      p.sent = packets P as ++ (turn P a).forwards.map (·.2)

/-- All datagrams that have arrived are handled, in the socket, or in the hands of the receiver. -/
def Receiver.Accounted (arrived : List SocketDatagram) (p : Receiver) : Prop :=
  ∃ as : List Arrival, (∀ a ∈ as, a.received = true) ∧ p.Progress P arrived as

end Progress

section Turn

variable {P : Platform} {p : Receiver} {arrived : List SocketDatagram} {as : List Arrival}

theorem filter_of_dropWhile {α : Type*} {q : α → Bool} {l : List α} :
    l.filter (fun a => !q a) = match l.dropWhile q with
      | [] => []
      | a :: rest => a :: rest.filter fun a => !q a := by
  induction l with
  | nil => rfl
  | cons a l ih => cases hq : q a <;> simp [hq, ih]

theorem forwards_turn (a : Arrival) : (turn P a).forwards.map (·.2) =
    (tried a.sendOk (othersOf P a)).map fun _ => (receivedFrame P a).packet := by
  simp only [turn, forward_eq_map, List.map_map]
  rfl

theorem answered_of_ok {α : Type*} (l : List α) :
    answered (l.map fun _ => true) = fun _ => true := by
  ext n
  rw [answered, List.getD_eq_getElem?_getD, List.getElem?_map]
  cases l[n]? <;> rfl

theorem tried_of_failed {α : Type*} (prior : List α) (it : α) (rest : List α) :
    tried (answered (prior.map (fun _ => true) ++ [false])) (prior ++ it :: rest) =
      prior ++ [it] := by
  induction prior with
  | nil => rfl
  | cons a prior ih => exact congrArg (a :: ·) ih

theorem accounted_forward {a : Arrival} (prior : List UdpPeer) {peers : List UdpPeer}
    (has : ∀ a ∈ as, a.received = true) (ha : a.received = true)
    (hwritten : p.written = frames P as) (hrounds : as.map Arrival.round = p.rounds)
    (harrived : arrived = as.map Arrival.head ++ a.head :: p.socket)
    (hsource : p.source = a.source) (hframe : p.frame = receivedFrame P a)
    (hothers : othersOf P a = prior ++ peers.filter
      fun u => endpointCmp P u.peerAddr (endpointInit a.source) ≠ 0)
    (hround : p.round = (a.udpPeers, prior.map fun _ => true))
    (hsent : p.sent = packets P as ++ prior.map fun _ => (receivedFrame P a).packet) :
    (p.forward P peers).pc ≠ .created ∧ (p.forward P peers).Accounted P arrived := by
  have hfilter := filter_of_dropWhile (l := peers)
    (q := fun u => decide (endpointCmp P u.peerAddr (endpointInit a.source) = 0))
  simp only [← decide_not] at hfilter
  unfold Receiver.forward
  rw [hsource]
  split
  · rename_i hnil
    rw [hnil] at hfilter
    have hall : othersOf P a = prior := by rw [hothers]; simpa using hfilter
    refine ⟨by simp, as, has, hwritten, hrounds, { a with sendOk := fun _ => true }, ha, harrived,
      hframe, ?_, ?_⟩
    · rw [hround, answered_of_ok]
      rfl
    · rw [forwards_turn, tried_of_ok]
      exact hsent.trans (by rw [← hall]; rfl)
  · rename_i it rest hcons
    rw [hcons] at hfilter
    refine ⟨by simp, as, has, hwritten, hrounds, a, prior, ha, harrived, rfl, hframe, ?_, hround,
      hsent⟩
    rw [hothers]
    exact congrArg (prior ++ ·) hfilter

theorem toNat_callSize (size : Word) {n : ℕ} (hn : n ≤ sizeofPacketHdr) :
    (BitVec.ofNat 64 (size.toNat + n)).toNat = size.toNat + n := by
  have hsize := size.isLt
  have hhdr : sizeofPacketHdr = 2 := rfl
  rw [BitVec.toNat_ofNat]
  omega

theorem execute_recvfrom {tooLong : Bool} {d : SocketDatagram} {rest : List SocketDatagram}
    {fd buf len flag sock socklen r : IntPtr} (h : p.socket = d :: rest)
    (hr : r ≠ -1 ∨ tooLong = true) :
    p.execute tooLong (.recvfrom fd buf len flag sock socklen, r) =
      { p with hdr := overwrite p.hdr 0 (d.1.take len.toNat), source := d.2 } := by
  simp only [Receiver.execute, h]
  exact if_pos hr

theorem execute_recv {tooLong : Bool} {d : SocketDatagram} {rest : List SocketDatagram}
    {fd buf len flags r : IntPtr} (h : p.socket = d :: rest) (hr : r ≠ -1) :
    p.execute tooLong (.recv fd buf len flags, r) =
      { p with
        frame := { p.frame with rawPacket := overwrite p.frame.rawPacket 0 (d.1.take len.toNat) }
        socket := rest } := by
  simp only [Receiver.execute, h]
  exact if_pos hr

def Receiver.GoesOn (P : Platform) (arrived : List SocketDatagram) (p : Receiver)
    (o : ReceiverOutcome) (sc : Syscall) (r : IntPtr) : Prop :=
  let q := (Receiver.execute o.tooLong { p with hdr := o.hdr.1 } (sc, r)).serverUdp P r o
  q.pc ≠ .created ∧ q.Accounted P arrived

section GoesOn

variable {o : ReceiverOutcome} {r : IntPtr}

theorem goesOn_peek {fd buf flag sock socklen : IntPtr} (has : ∀ a ∈ as, a.received = true)
    (h : p.Progress P arrived as) (hpc : p.pc = .peek) (hposs : p.possible r o = true) :
    p.GoesOn P arrived o
      (.recvfrom fd buf (BitVec.ofNat 64 sizeofPacketHdr) flag sock socklen) r := by
  rcases p with ⟨pc, turns, hdr, frame, source, udpPeers, socket, written, sent, round, rounds,
    sched⟩
  cases hpc
  obtain ⟨hwritten, hrounds, harrived, hsent⟩ := h
  by_cases hfail : r = -1 ∧ o.tooLong = false
  · have hno : ¬ (r ≠ -1 ∨ o.tooLong = true) := by simp [hfail.1, hfail.2]
    cases socket with
    | nil =>
      simp only [Receiver.GoesOn, Receiver.execute, Receiver.serverUdp, if_pos hfail]
      exact ⟨by simp, as, has, hwritten, hrounds, harrived, hsent⟩
    | cons head rest =>
      simp only [Receiver.GoesOn, Receiver.execute, Receiver.serverUdp, if_neg hno, if_pos hfail]
      exact ⟨by simp, as, has, hwritten, hrounds, harrived, hsent⟩
  · have hyes : r ≠ -1 ∨ o.tooLong = true := by
      rcases Decidable.not_and_iff_or_not.mp hfail with hr | hlong
      · exact .inl hr
      · exact .inr (by simpa using hlong)
    cases socket with
    | nil => exact absurd (by simpa [Receiver.possible] using hposs) hfail
    | cons head rest =>
      obtain ⟨datagram, sender⟩ := head
      rw [Receiver.GoesOn, execute_recvfrom rfl hyes]
      simp only [Receiver.serverUdp, if_neg hfail]
      refine ⟨by simp, as, has, hwritten, hrounds, harrived, hsent, ?_⟩
      refine ⟨⟨datagram, sender, .copied, false, o.hdr, o.malloc, [], fun _ => true⟩, rest, rfl,
        rfl, rfl, ?_⟩
      simp [frameAlloc, peekedSize, sizeofPacketHdr]

theorem goesOn_recv {fd buf flags : IntPtr} (has : ∀ a ∈ as, a.received = true)
    (h : p.Progress P arrived as) (hpc : p.pc = .recv) :
    p.GoesOn P arrived o
      (.recv fd buf (BitVec.ofNat 64 (p.frame.size.toNat + sizeofPacketHdr)) flags) r := by
  rcases p with ⟨pc, turns, hdr, frame, source, udpPeers, socket, written, sent, round, rounds,
    sched⟩
  cases hpc
  obtain ⟨hwritten, hrounds, harrived, hsent, a, rest, ha, rfl, rfl, rfl⟩ := h
  by_cases hfail : r = -1
  · have hno : ¬ r ≠ -1 := not_not.mpr hfail
    simp only [Receiver.GoesOn, Receiver.execute, Receiver.serverUdp, Arrival.head, if_neg hno,
      if_pos hfail]
    exact ⟨by simp, as, has, hwritten, hrounds, harrived, hsent⟩
  · rw [Receiver.GoesOn, execute_recv rfl hfail]
    simp only [Receiver.serverUdp, if_neg hfail, toNat_callSize _ le_rfl]
    exact accounted_forward (a := { a with udpPeers := udpPeers }) [] has ha hwritten hrounds
      harrived rfl rfl rfl rfl (hsent.trans (List.append_nil _).symm)

theorem goesOn_forward {fd buf flags : IntPtr} {it : UdpPeer} {rest : List UdpPeer}
    (has : ∀ a ∈ as, a.received = true) (h : p.Progress P arrived as)
    (hpc : p.pc = .forward it rest) :
    p.GoesOn P arrived o
      (.send fd buf (BitVec.ofNat 64 (p.frame.size.toNat + sizeofPacketHdr)) flags) r := by
  rcases p with ⟨pc, turns, hdr, frame, source, udpPeers, socket, written, sent, round, rounds,
    sched⟩
  cases hpc
  obtain ⟨hwritten, hrounds, a, prior, ha, harrived, rfl, rfl, hothers, rfl, rfl⟩ := h
  have hsent : (packets P as ++ prior.map fun _ => (receivedFrame P a).packet) ++
      [(receivedFrame P a).packet] =
        packets P as ++ (prior ++ [it]).map fun _ => (receivedFrame P a).packet := by
    rw [List.map_append, List.append_assoc]
    rfl
  simp only [Receiver.GoesOn, Receiver.execute, Receiver.serverUdp, toNat_callSize _ le_rfl]
  by_cases hfail : r = -1
  · rw [if_pos hfail]
    refine ⟨by simp, as, has, hwritten, hrounds,
      { a with sendOk := answered (prior.map (fun _ => true) ++ [false]) }, ha, harrived, rfl, ?_,
      ?_⟩
    · simp [Arrival.round, hfail]
    · rw [forwards_turn]
      exact hsent.trans (by rw [← tried_of_failed, ← hothers]; rfl)
  · rw [if_neg hfail]
    refine accounted_forward (a := a) (prior ++ [it]) has ha hwritten hrounds harrived rfl rfl ?_
      ?_ hsent
    · rw [hothers, List.append_assoc]
      rfl
    · rw [decide_eq_true hfail, List.map_append]
      rfl

theorem goesOn_write {fd buf : IntPtr} (has : ∀ a ∈ as, a.received = true)
    (h : p.Progress P arrived as) (hpc : p.pc = .write) :
    p.GoesOn P arrived o (.write fd buf (BitVec.ofNat 64 p.frame.size.toNat)) r := by
  rcases p with ⟨pc, turns, hdr, frame, source, udpPeers, socket, written, sent, round, rounds,
    sched⟩
  cases hpc
  obtain ⟨hwritten, hrounds, a, ha, harrived, rfl, hround, hsent⟩ := h
  simp only [Receiver.GoesOn, Receiver.execute, Receiver.serverUdp]
  refine ⟨by simp, as ++ [a], ?_, ?_, ?_, ?_, ?_⟩
  · rw [List.forall_mem_append, List.forall_mem_singleton]
    exact ⟨has, ha⟩
  · have hlen : (BitVec.ofNat 64 (receivedFrame P a).size.toNat).toNat =
        (receivedFrame P a).size.toNat := toNat_callSize _ (Nat.zero_le _)
    rw [frames, List.flatMap_append, ← frames, ← hwritten, hlen]
    rfl
  · rw [List.map_append, hrounds, List.map_singleton, hround]
  · rw [List.map_append, List.append_assoc]
    exact harrived
  · rw [packets, List.flatMap_append, ← packets]
    exact hsent.trans (by simp)

theorem goesOn_of_call {w : ReceiverWiring} {c : Fibers.Call} {d : Fibers.Direction} {sc : Syscall}
    (has : ∀ a ∈ as, a.received = true) (h : p.Progress P arrived as) (hcall : w.call p = some c)
    (hrec : c.recorded = some (d, sc)) (hposs : p.possible r o = true) :
    p.GoesOn P arrived o sc r := by
  cases hpc : p.pc with
  | created | exited => simp [ReceiverWiring.call, hpc] at hcall
  | peek =>
    simp only [ReceiverWiring.call, hpc, Option.some.injEq] at hcall
    cases hcall
    cases hrec
    exact goesOn_peek has h hpc hposs
  | recv =>
    simp only [ReceiverWiring.call, hpc, Option.some.injEq] at hcall
    cases hcall
    cases hrec
    exact goesOn_recv has h hpc
  | forward it rest =>
    simp only [ReceiverWiring.call, hpc, Option.some.injEq] at hcall
    cases hcall
    cases hrec
    exact goesOn_forward has h hpc
  | write =>
    simp only [ReceiverWiring.call, hpc, Option.some.injEq] at hcall
    cases hcall
    cases hrec
    exact goesOn_write has h hpc

end GoesOn

end Turn

/-! ## Whole runs -/

section Runs

variable {P : Platform} {w : ReceiverWiring} {p p' : Receiver} {arrived : List SocketDatagram}
  {l : ReceiverLabel} {ls : List ReceiverLabel}

def arrivals (ls : List ReceiverLabel) : List SocketDatagram :=
  ls.flatMap fun
    | .arrive d => [d]
    | _ => []

structure Receiver.Sound (P : Platform) (w : ReceiverWiring) (arrived : List SocketDatagram)
    (p : Receiver) : Prop where
  served : p.sched.Served w.fib
  placed : p.Placed w
  accounted : p.Accounted P arrived

theorem sound_leave {q : Receiver} {t : Sched} (ht : t.Served w.fib)
    (hcur : t.current = some w.fib) (hpc : q.pc ≠ .created) (hq : q.Accounted P arrived)
    (h : q.leave w t = some p') : p'.Sound P w arrived := by
  obtain ⟨u, rfl, hserved, hplaced⟩ := leave_spec ht hcur hpc h
  exact ⟨hserved, hplaced, hq⟩

theorem sound_sched (h : p.Sound P w arrived) {l : Fibers.Label} {t : Sched}
    (hl : ¬ (w.fib ∈ Fibers.touched p.sched l ∧ l ≠ .newFiber))
    (hstep : Fibers.step p.sched l = some t) :
    Receiver.Sound P w arrived { p with sched := t } := by
  by_cases htouch : w.fib ∈ Fibers.touched p.sched l
  · obtain rfl : l = .newFiber := by
      by_contra hne
      exact hl ⟨htouch, hne⟩
    have hfib : w.fib = p.sched.fibers.length := List.mem_singleton.mp htouch
    have hnone : p.sched.ctxs[w.fib]? = none := by
      rw [hfib]
      simp [Sched.ctxs]
    have hunwoken : Fibers.Unwoken w.fib p.sched .newFiber := trivial
    refine ⟨Fibers.served_step h.served hunwoken hstep, ?_, h.accounted⟩
    have hpc : p.pc = .created := by
      by_contra hpc
      exact absurd (hnone.symm.trans ((placed_iff hpc).mp h.placed)) (by simp)
    have hcreated : t.ctxs[w.fib]? = some .created := by
      rw [(Fibers.step_inv hstep).2, Fibers.ctxs_schedNewFiber, hfib]
      simp [Sched.ctxs]
    simp only [Receiver.Placed, hpc]
    exact .inr hcreated
  · have hagree := (Fibers.within_step h.served.owned hstep).agree w.fib htouch
    have hctx : t.ctxs[w.fib]? = p.sched.ctxs[w.fib]? := by
      rw [Fibers.ctxs_getElem?, Fibers.ctxs_getElem?, hagree.fiber]
    exact ⟨Fibers.served_step h.served (Fibers.unwoken_of_not_touched htouch) hstep,
      h.placed.congr hctx, h.accounted⟩

theorem accounted_arrive (h : p.Accounted P arrived) (d : SocketDatagram) :
    Receiver.Accounted P (arrived ++ [d]) { p with socket := p.socket ++ [d] } := by
  rcases p with ⟨pc, turns, hdr, frame, source, udpPeers, socket, written, sent, round, rounds,
    sched⟩
  obtain ⟨as, has, hwritten, hrounds, h⟩ := h
  refine ⟨as, has, hwritten, hrounds, ?_⟩
  cases pc with
  | created | peek | exited =>
    obtain ⟨rfl, hsent⟩ := h
    exact ⟨List.append_assoc .., hsent⟩
  | recv =>
    obtain ⟨rfl, hsent, a, rest, ha, rfl, hrest⟩ := h
    exact ⟨List.append_assoc .., hsent, a, rest ++ [d], ha, rfl, hrest⟩
  | forward it rest =>
    obtain ⟨a, prior, ha, rfl, hrest⟩ := h
    exact ⟨a, prior, ha, List.append_assoc .., hrest⟩
  | write =>
    obtain ⟨a, ha, rfl, hrest⟩ := h
    exact ⟨a, ha, List.append_assoc .., hrest⟩

theorem sound_launch (h : p.Sound P w arrived) {t : Sched}
    (hstep : Fibers.step p.sched (.launch w.fib) = some t)
    (hleave : ({ p with pc := .peek } : Receiver).leave w t = some p') : p'.Sound P w arrived := by
  have hunwoken : Fibers.Unwoken w.fib p.sched (.launch w.fib) := trivial
  obtain ⟨hcreated, rfl⟩ := (Fibers.step_inv hstep).2
  have hctx : p.sched.ctxs[w.fib]? = some .created :=
    (Fibers.ctxs_getElem? p.sched w.fib).trans hcreated
  have hpc : p.pc = .created := by
    by_contra hpc
    have hsome := Option.some.inj (hctx.symm.trans ((placed_iff hpc).mp h.placed))
    cases hcall : w.call p <;> simp [hcall] at hsome
  refine sound_leave (Fibers.served_step h.served hunwoken hstep) rfl (by simp) ?_ hleave
  obtain ⟨as, has, hwritten, hrounds, hrest⟩ := h.accounted
  rw [hpc] at hrest
  exact ⟨as, has, hwritten, hrounds, hrest⟩

theorem sound_resume (h : p.Sound P w arrived) {e : ℕ} {how : Fibers.Firing} {r : IntPtr}
    {o : ReceiverOutcome} (hstep : p.step P w (.resume e how r o) = some p') :
    p'.Sound P w arrived := by
  simp only [Receiver.step] at hstep
  split at hstep
  · rename_i hboth
    obtain ⟨hown, hposs⟩ := hboth
    obtain ⟨t, ht, hleave⟩ := Option.bind_eq_some_iff.mp hstep
    have hunwoken : Fibers.Unwoken w.fib p.sched (.dispatch e how r) := trivial
    have hserved := Fibers.served_step h.served hunwoken ht
    obtain ⟨-, x, hx⟩ := Fibers.undisturbed_dispatch h.served.undisturbed h.served.cached
      h.served.recorded hown (Fibers.step_inv ht).2.2
    have hpc : p.pc ≠ .created := by
      intro hpc
      have hplaced := h.placed
      simp only [Receiver.Placed, hpc, hx.waiting] at hplaced
      simp at hplaced
    have hcall : w.call p = some x.call := by
      have hsome := Option.some.inj (hx.waiting.symm.trans ((placed_iff hpc).mp h.placed))
      cases hcall : w.call p with
      | none => simp [hcall] at hsome
      | some c =>
        rw [hcall] at hsome
        rw [Fibers.FibCtx.suspended.inj hsome]
    obtain ⟨-, -, d, sc, hrec⟩ := call_io hcall
    have hexecuted : x.executed = [(sc, r)] ∧ x.ret = r := by
      obtain ⟨fd, d', -, hmade⟩ := hx.blocking
      rw [hrec] at hmade
      have hret : x.ret = r := by
        apply hx.result (sc, x.ret)
        rw [hmade]
        exact List.mem_singleton_self _
      exact ⟨by rw [hmade, hret], hret⟩
    rw [hx.resumes, List.drop_left] at hleave
    simp only [hexecuted.1, hexecuted.2, List.foldl_cons, List.foldl_nil] at hleave
    obtain ⟨as, has, hprogress⟩ := h.accounted
    obtain ⟨hnot, haccounted⟩ := goesOn_of_call has hprogress hcall hrec hposs
    exact sound_leave hserved hx.current hnot haccounted hleave
  · cases hstep

theorem sound_step (h : p.Sound P w arrived) (hstep : p.step P w l = some p') :
    p'.Sound P w (arrived ++ arrivals [l]) := by
  cases l with
  | sched l =>
    rw [show arrivals [.sched l] = [] from rfl, List.append_nil]
    simp only [Receiver.step] at hstep
    split at hstep
    · cases hstep
    · rename_i hl
      obtain ⟨t, ht, rfl⟩ := Option.map_eq_some_iff.mp hstep
      exact sound_sched h hl ht
  | arrive d =>
    obtain rfl := Option.some.inj hstep
    exact ⟨h.served, h.placed, accounted_arrive h.accounted d⟩
  | peers udpPeers =>
    rw [show arrivals [.peers udpPeers] = [] from rfl, List.append_nil]
    simp only [Receiver.step] at hstep
    split at hstep
    · cases hstep
    · obtain rfl := Option.some.inj hstep
      exact ⟨h.served, h.placed, h.accounted⟩
  | launch =>
    rw [show arrivals [.launch] = [] from rfl, List.append_nil]
    obtain ⟨t, ht, hleave⟩ := Option.bind_eq_some_iff.mp hstep
    exact sound_launch h ht hleave
  | resume e how r o =>
    rw [show arrivals [.resume e how r o] = [] from rfl, List.append_nil]
    exact sound_resume h hstep

theorem sound_of_run (h : Run (Receiver.step P w) {} ls p) : p.Sound P w (arrivals ls) := by
  refine h.history (I := fun ls p => p.Sound P w (arrivals ls)) ?_ ?_
  · refine ⟨Fibers.served_init w.fib, .inl rfl, [], ?_, rfl, rfl, rfl, rfl⟩
    intro a ha
    cases ha
  · intro ls p l p' _ hs hstep
    rw [show arrivals (ls ++ [l]) = arrivals ls ++ arrivals [l] from List.flatMap_append]
    exact sound_step hs hstep

/--
However the other fibers run, whenever they wake one another and whenever datagrams arrive and
peers change, `server_udp` does on the scheduler what its loop does when its calls
block. The datagrams are handled in the order of their arrival, each of them once and one at a
time, with the peers there are when it is received and the results that its sends have. The
frames passed to the device are those of the loop, and so are the packets passed to `send`
whenever no datagram is in hand.
-/
theorem receiver_refines_loop (h : Run (Receiver.step P w) {} ls p) :
    ∃ (as : List Arrival) (current : List SocketDatagram), (∀ a ∈ as, a.received = true) ∧
      as.map Arrival.round = p.rounds ∧ current.length ≤ 1 ∧
      arrivals ls = as.map Arrival.head ++ current ++ p.socket ∧
      p.written = (serverUdp P ⟨0, []⟩ as).flatMap (·.writes) ∧
      (current = [] →
        p.sent = (serverUdp P ⟨0, []⟩ as).flatMap fun e => e.forwards.map (·.2)) := by
  obtain ⟨as, has, hwritten, hrounds, hrest⟩ := (sound_of_run h).accounted
  have hloop : serverUdp P ⟨0, []⟩ as = as.map (turn P) := by
    rw [serverUdp_eq_map, List.takeWhile_eq_self_iff.mpr has]
  refine ⟨as, ?_⟩
  rw [hloop, List.flatMap_map, List.flatMap_map]
  rcases p with ⟨pc, turns, hdr, frame, source, udpPeers, socket, written, sent, round, rounds,
    sched⟩
  cases pc with
  | created | peek | exited =>
    obtain ⟨harrived, hsent⟩ := hrest
    exact ⟨[], has, hrounds, Nat.zero_le 1, by rwa [List.append_nil], hwritten, fun _ => hsent⟩
  | recv =>
    obtain ⟨harrived, hsent, -⟩ := hrest
    exact ⟨[], has, hrounds, Nat.zero_le 1, by rwa [List.append_nil], hwritten, fun _ => hsent⟩
  | forward it rest =>
    obtain ⟨a, prior, -, harrived, -⟩ := hrest
    refine ⟨[a.head], has, hrounds, le_rfl, ?_, hwritten, by simp⟩
    rwa [List.append_assoc]
  | write =>
    obtain ⟨a, -, harrived, -⟩ := hrest
    refine ⟨[a.head], has, hrounds, le_rfl, ?_, hwritten, by simp⟩
    rwa [List.append_assoc]

/-- A second datagram arrives between the peek at the first one and the receive of it. The first
one is forwarded to the peer that it does not come from. -/
theorem receiver_refines_loop_interleaved :
    let src : Sockaddr := .inet 1 2
    let udpPeers : List UdpPeer := [⟨endpointInit src, 0, 0⟩, ⟨endpointInit (.inet 3 4), 0, 1⟩]
    let w : ReceiverWiring := ⟨0, 5, 6, 16, 32, 48, fun _ => 64, fun _ => 0, fun _ => 0⟩
    let o : ReceiverOutcome := ⟨false, ⟨[0, 0], rfl⟩, fun n => ⟨.replicate n 0, by simp⟩⟩
    let ls : List ReceiverLabel := [.sched .newFiber, .launch, .peers udpPeers,
      .arrive ([0, 1, 0xaa], src), .resume 1 .ready 2 o, .arrive ([0, 1, 0xbb], src),
      .resume 1 .ready 3 o, .resume 2 .ready 3 o, .resume 3 .ready 1 o]
    ∃ p, Run (Receiver.step .reference w) {} ls p ∧
      (p.written, p.sent) = ([[0xaa]], [[0, 1, 0xaa]]) ∧
      ∃ (as : List Arrival) (current : List SocketDatagram), (∀ a ∈ as, a.received = true) ∧
        as.map Arrival.round = p.rounds ∧ current.length ≤ 1 ∧
        arrivals ls = as.map Arrival.head ++ current ++ p.socket ∧
        p.written = (Tunnel.serverUdp .reference ⟨0, []⟩ as).flatMap (·.writes) ∧
        (current = [] → p.sent =
          (Tunnel.serverUdp .reference ⟨0, []⟩ as).flatMap fun e => e.forwards.map (·.2)) := by
  intro src udpPeers w o ls
  have hlast : (ls.foldlM (Receiver.step .reference w) {}).map (fun p => (p.written, p.sent)) =
      some ([[0xaa]], [[0, 1, 0xaa]]) := by
    decide +revert +kernel
  obtain ⟨p, hp, hpassed⟩ := Option.map_eq_some_iff.mp hlast
  have hrun := run_iff_foldlM.mpr hp
  exact ⟨p, hrun, hpassed, receiver_refines_loop hrun⟩

end Runs

end Tnetacle.Tunnel
