import Tnetacle.Meta.Identity

/-! # Incoming connections

`listen_callback` hands an incoming connection to `mc_peer_accept` and reads the flags of the
meta-connection that it returns, also when it has refused the connection and returns none.
-/

namespace Tnetacle.Meta

open Runs

variable {P : Platform} {s t : Server} {l : Label} {sock : Sockaddr} {fd : ℕ} {alloc : Alloc}

/--
`listen_callback`. Without TLS it runs the callback of the new connection itself; no
certificate is looked for on that path.
-/
def Server.listenCallback (P : Platform) (s : Server) (sock : Sockaddr) (fd : ℕ) (alloc : Alloc) :
    Server :=
  match s.mcPeerAccept P sock fd alloc with
  | (none, s) => { s with fault := some .badPointer }
  | (some mc, s) =>
    if mc.sslFlags = .enable then s
    else s.serverMcEventCb P mc.bev.ptr bevEventConnected false .blank

/-- The steps of the daemon, where an incoming connection is handled as a whole. -/
def serve (P : Platform) (s : Server) : Label → Option Server
  | .accept sock fd alloc =>
    if s.fault.isSome then none else some (s.listenCallback P sock fd alloc)
  | l => step P s l

/-- The descriptor is closed, and the lists of peers are as they were. -/
structure RefusedCleanly (fd : ℕ) (s t : Server) : Prop where
  closed : t.closed = fd :: s.closed
  peers : t.peers = s.peers
  pendingPeers : t.pendingPeers = s.pendingPeers
  udpPeers : t.udp.udpPeers = s.udp.udpPeers

/-- The callback uses no absent meta-connection, and a refused connection leaves no trace. -/
structure Server.ListensProperly (P : Platform) (s : Server) (sock : Sockaddr) (fd : ℕ)
    (alloc : Alloc) : Prop where
  alive : (s.listenCallback P sock fd alloc).fault = none
  refused : (s.mcPeerAccept P sock fd alloc).1 = none →
    RefusedCleanly fd s (s.listenCallback P sock fd alloc)

/-- The connection is not refused: its address is new, and `mc_init` succeeds. -/
def Server.Accepts (P : Platform) (s : Server) (sock : Sockaddr) (alloc : Alloc) : Prop :=
  s.mcEstablished P sock = false ∧ alloc.bev = true ∧ alloc.malloc = true

/-! ## The two ways of `mc_peer_accept` -/

theorem mcPeerAccept_of_accepts (h : s.Accepts P sock alloc) :
    s.mcPeerAccept P sock fd alloc =
      (some (s.newMc (some fd) sock), s.allocate.insertPending (s.newMc (some fd) sock)) := by
  obtain ⟨hest, hbev, hmalloc⟩ := h
  simp [Server.mcPeerAccept, Server.mcInit, hest, hbev, hmalloc]

theorem mcPeerAccept_fst_eq_none_iff :
    (s.mcPeerAccept P sock fd alloc).1 = none ↔ ¬ s.Accepts P sock alloc := by
  constructor
  · intro hnone h
    rw [mcPeerAccept_of_accepts h] at hnone
    cases hnone
  · intro h
    unfold Server.mcPeerAccept Server.mcInit
    by_cases hest : s.mcEstablished P sock = true
    · simp [hest]
    · have hfail : alloc.bev = true → alloc.malloc = false := by
        simpa [Server.Accepts, hest] using h
      cases hbev : alloc.bev with
      | false => simp [hest]
      | true => simp [hest, hfail hbev]

theorem refusedCleanly_mcPeerAccept (h : ¬ s.Accepts P sock alloc)
    (hfd : s.mcEstablished P sock = true ∨ alloc.bev = true) :
    RefusedCleanly fd s (s.mcPeerAccept P sock fd alloc).2 := by
  unfold Server.mcPeerAccept Server.mcInit
  by_cases hest : s.mcEstablished P sock = true
  · rw [if_pos hest]
    exact ⟨rfl, rfl, rfl, rfl⟩
  · have hbev := hfd.resolve_left hest
    have hmalloc : alloc.malloc = false := by
      simpa [Server.Accepts, hest, hbev] using h
    rw [if_neg hest]
    simp only [hbev, hmalloc, if_true, Bool.false_eq_true, if_false]
    exact ⟨rfl, rfl, rfl, rfl⟩

/-! ## The callback -/

theorem listenCallback_of_refused (h : ¬ s.Accepts P sock alloc) :
    s.listenCallback P sock fd alloc =
      { (s.mcPeerAccept P sock fd alloc).2 with fault := some .badPointer } := by
  have hnone : (s.mcPeerAccept P sock fd alloc).1 = none := mcPeerAccept_fst_eq_none_iff.mpr h
  unfold Server.listenCallback
  generalize s.mcPeerAccept P sock fd alloc = r at hnone
  obtain ⟨mc, u⟩ := r
  obtain rfl : mc = none := hnone
  rfl

theorem find?_insertPending_newMc (hs : s.Identified) :
    (s.allocate.insertPending (s.newMc (some fd) sock)).pendingPeers.find? (findBev s.next) =
      some (s.newMc (some fd) sock) := by
  have hnone : s.pendingPeers.find? (findBev s.next) = none := by
    refine List.find?_eq_none.mpr fun mc hmc hfind => ?_
    exact hs.held_ne_next (List.mem_append_left _ hmc) (of_decide_eq_true hfind)
  have hnew : findBev s.next (s.newMc (some fd) sock) = true := decide_eq_true rfl
  simp only [Server.insertPending, Server.allocate, List.find?_append, hnone, Option.none_or,
    List.find?_cons, hnew]

theorem serverMcEventCb_newMc (hs : s.Identified) (hctx : s.serverCtx = false) :
    (s.allocate.insertPending (s.newMc (some fd) sock)).serverMcEventCb P s.next bevEventConnected
        false .blank =
      (s.allocate.insertPending (s.newMc (some fd) sock)).establish P
        (s.newMc (some fd) sock) := by
  have hdisable : (s.newMc (some fd) sock).sslFlags = .disable := by simp [Server.newMc, hctx]
  have hconnected : bevEventConnected &&& bevEventConnected ≠ 0 := by decide
  rw [Server.serverMcEventCb, if_pos hconnected, find?_insertPending_newMc hs]
  simp only [hdisable, reduceCtorEq, false_and, if_false]

theorem listenCallback_of_accepts (hs : s.Identified) (h : s.Accepts P sock alloc) :
    s.listenCallback P sock fd alloc =
      if s.serverCtx then s.allocate.insertPending (s.newMc (some fd) sock)
      else (s.allocate.insertPending (s.newMc (some fd) sock)).establish P
        (s.newMc (some fd) sock) := by
  rw [Server.listenCallback, mcPeerAccept_of_accepts h]
  cases hctx : s.serverCtx with
  | true => simp [Server.newMc, hctx]
  | false =>
    have hdisable : (s.newMc (some fd) sock).sslFlags = .disable := by simp [Server.newMc, hctx]
    simp only [hdisable, reduceCtorEq, if_false, Bool.false_eq_true]
    exact serverMcEventCb_newMc hs hctx

theorem fault_listenCallback (hs : s.Identified) (hf : s.fault = none) :
    (s.listenCallback P sock fd alloc).fault = none ↔ s.Accepts P sock alloc := by
  constructor
  · intro h
    by_contra hno
    rw [listenCallback_of_refused hno] at h
    cases h
  · intro h
    rw [listenCallback_of_accepts hs h]
    cases s.serverCtx with
    | true => exact hf
    | false => exact hf

/-! ## Runs -/

theorem reachable_of_serve (hs : s.Identified) (h : serve P s l = some t) (ht : t.fault = none) :
    Reachable (step P) s t := by
  cases l with
  | connect sock alloc refused => exact ⟨[.connect sock alloc refused], .cons h (.nil t)⟩
  | event bev events cert past => exact ⟨[.event bev events cert past], .cons h (.nil t)⟩
  | read bev bytes => exact ⟨[.read bev bytes], .cons h (.nil t)⟩
  | accept sock fd alloc =>
    rw [serve] at h
    split at h
    · cases h
    · rename_i hf
      obtain rfl := Option.some.inj h
      have hf : s.fault = none := by simpa using hf
      have hacc := (fault_listenCallback hs hf).mp ht
      have haccept : step P s (.accept sock fd alloc) =
          some (s.allocate.insertPending (s.newMc (some fd) sock)) := by
        simp [step, hf, mcPeerAccept_of_accepts hacc]
      rw [listenCallback_of_accepts hs hacc]
      cases hctx : s.serverCtx with
      | true => exact ⟨[.accept sock fd alloc], .cons haccept (.nil _)⟩
      | false =>
        have hevent : step P (s.allocate.insertPending (s.newMc (some fd) sock))
            (.event s.next bevEventConnected false .blank) =
              some ((s.allocate.insertPending (s.newMc (some fd) sock)).establish P
                (s.newMc (some fd) sock)) := by
          rw [← serverMcEventCb_newMc hs hctx]
          simp [step, Server.insertPending, Server.allocate, hf]
        exact ⟨[.accept sock fd alloc, .event s.next bevEventConnected false .blank],
          .cons haccept (.cons hevent (.nil _))⟩

theorem fault_eq_none_of_serve (h : serve P s l = some t) : s.fault = none := by
  cases l with
  | connect sock alloc refused => exact fault_eq_none_of_step (l := .connect sock alloc refused) h
  | event bev events cert past => exact fault_eq_none_of_step (l := .event bev events cert past) h
  | read bev bytes => exact fault_eq_none_of_step (l := .read bev bytes) h
  | accept sock fd alloc =>
    rw [serve] at h
    split at h
    · cases h
    · rename_i hf
      simpa using hf

theorem reachable_step_of_serve {ctx : Bool} {e : Endpoint}
    (h : Reachable (serve P) (init ctx e) s) (hf : s.fault = none) :
    Reachable (step P) (init ctx e) s := by
  refine h.invariant (P := fun s => s.fault = none → Reachable (step P) (init ctx e) s) ?_
    (fun _ => ⟨[], .nil _⟩) hf
  intro s l t ih hstep ht
  obtain ⟨ls, hls⟩ := ih (fault_eq_none_of_serve hstep)
  obtain ⟨ls', hls'⟩ := reachable_of_serve (identified_of_reachable ⟨ls, hls⟩) hstep ht
  exact ⟨ls ++ ls', run_append_iff.mpr ⟨s, hls, hls'⟩⟩

/--
In every reachable state, the callback handles an incoming connection properly if and only if
the connection is not refused. A refusal closes the descriptor and leaves the lists alone,
unless no bufferevent could be allocated, before the callback reads what is not there.
-/
theorem listens_properly_iff {ctx : Bool} {e : Endpoint}
    (hs : Reachable (serve P) (init ctx e) s) (hf : s.fault = none) (sock : Sockaddr) (fd : ℕ)
    (alloc : Alloc) :
    (s.ListensProperly P sock fd alloc ↔ s.Accepts P sock alloc) ∧
      (¬ s.Accepts P sock alloc → s.mcEstablished P sock = true ∨ alloc.bev = true →
        RefusedCleanly fd s (s.listenCallback P sock fd alloc)) := by
  have hident := identified_of_reachable (reachable_step_of_serve hs hf)
  constructor
  · constructor
    · intro h
      exact (fault_listenCallback hident hf).mp h.alive
    · intro h
      refine ⟨(fault_listenCallback hident hf).mpr h, fun hnone => ?_⟩
      exact absurd h (mcPeerAccept_fst_eq_none_iff.mp hnone)
  · intro h hfd
    have hclean : RefusedCleanly fd s (s.mcPeerAccept P sock fd alloc).2 :=
      refusedCleanly_mcPeerAccept h hfd
    obtain ⟨hclosed, hpeers, hpending, hudp⟩ := hclean
    rw [listenCallback_of_refused h]
    exact ⟨hclosed, hpeers, hpending, hudp⟩

/-- A first connection, to a server without TLS. -/
theorem listens_properly_first :
    let s := init false (endpointInit (.inet 0x0a000001 0x5000))
    s.ListensProperly .reference (.inet 0x0a000002 0x3930) 7 ⟨true, true⟩ := by
  intro s
  exact ((listens_properly_iff ⟨[], .nil s⟩ rfl _ 7 ⟨true, true⟩).1).mpr ⟨rfl, rfl, rfl⟩

/-- A second connection from a host whose first one is established. -/
theorem second_connection_not_proper :
    let s := init false (endpointInit (.inet 0x0a000001 0x5000))
    ∃ t, Run (serve .reference) s [.accept (.inet 0x0a000002 0x3930) 7 ⟨true, true⟩] t ∧
      t.fault = none ∧
      (t.listenCallback .reference (.inet 0x0a000002 0x3931) 8 ⟨true, true⟩).fault =
        some .badPointer ∧
      ¬ t.ListensProperly .reference (.inet 0x0a000002 0x3931) 8 ⟨true, true⟩ := by
  refine ⟨_, .cons rfl (.nil _), rfl, rfl, fun h => ?_⟩
  cases h.alive

end Tnetacle.Meta
