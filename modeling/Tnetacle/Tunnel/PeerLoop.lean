import Tnetacle.Library.Vector
import Tnetacle.Tunnel.RoundTrip

/-! # The loops over the peers

`forward_udp_frame_to_other_peers` and the inner loop of `_broadcast_udp_to_peers` keep two
pointers into `udp_peers`. They are suspended in `async_sendto` at each peer, and the
address that is sent to is read when the socket is writable. In the meantime the
meta-connections register peers and remove them.
-/

namespace Tnetacle.Tunnel

open Growable Meta Runs

/--
An entry of `udp_peers`. No function reads `tag`: it tells entries for the same peer apart.
-/
structure Entry where
  tag : ℕ
  peer : UdpPeer
  deriving DecidableEq

/-- The two loops; `current` is the endpoint that the frame came from. -/
inductive Loop
  | forward (current : Endpoint)
  | broadcast

def Loop.skips (P : Platform) : Loop → Entry → Bool
  | .forward current, e => endpointCmp P e.peer.peerAddr current = 0
  | .broadcast, _ => false

/-- A loop over the peers for one frame; `sent` records the calls of `sendto`. -/
structure PeerLoop where
  udpPeers : Vec Entry
  next : ℕ
  pc : Stop
  failed : Bool := false
  sent : List Entry := []

inductive LoopLabel
  | register (peer : UdpPeer) (moved : Bool)
  | eof (sock : Sockaddr)
  | resume (ok : Bool)

namespace PeerLoop

variable (P : Platform) (loop : Loop)

/-- `udp_register_new_peer`, with or without a move of the storage. -/
def udpRegisterNewPeer (s : PeerLoop) (peer : UdpPeer) (moved : Bool) : PeerLoop :=
  { s with udpPeers := s.udpPeers.push ⟨s.next, peer⟩ moved, next := s.next + 1 }

/-- `v_udp_find_if(find_udppeer)`. -/
def find (s : PeerLoop) (sock : Sockaddr) : Option ℕ :=
  s.udpPeers.data.findIdx? fun e => findUdppeer P sock e.peer

/-- The `EOF` branch of `server_mc_event_cb`. -/
def eof (s : PeerLoop) (sock : Sockaddr) : PeerLoop :=
  match s.find P sock with
  | none => s
  | some i => { s with udpPeers := s.udpPeers.erase i }

/--
The socket is writable: `sendto` reads the entry at `it`, and so does the log. A failure
leaves the loop.
-/
def resume (s : PeerLoop) (it : Iter) (left : ℕ) (ok : Bool) : PeerLoop :=
  match s.udpPeers.deref it with
  | none => { s with pc := .dangling }
  | some e =>
    if ok then
      { s with sent := s.sent ++ [e], pc := s.udpPeers.scan (loop.skips P) it.next left }
    else { s with sent := s.sent ++ [e], failed := true, pc := .done }

/-- Everything happens while the loop is suspended. -/
def step (s : PeerLoop) (l : LoopLabel) : Option PeerLoop :=
  match s.pc with
  | .rest it left =>
    match l with
    | .register peer moved => some (s.udpRegisterNewPeer peer moved)
    | .eof sock => some (s.eof P sock)
    | .resume ok => some (s.resume P loop it left ok)
  | _ => none

def entries (peers : List UdpPeer) : List Entry := peers.mapIdx fun i p => ⟨i, p⟩

def start (peers : List UdpPeer) : PeerLoop :=
  let udpPeers : Vec Entry := { data := entries peers }
  { udpPeers := udpPeers
    next := peers.length
    pc := udpPeers.scan (loop.skips P) udpPeers.first udpPeers.data.length }

def left (s : PeerLoop) : ℕ :=
  match s.pc with
  | .rest _ left => left + 1
  | _ => 0

/--
A registration does not move the storage, a removal is not before the cursor, and the loop is
resumed only while there is an entry at the cursor, and behind it either one more to send
to or all those that it still counts.
-/
def Steady (s : PeerLoop) (l : LoopLabel) : Prop :=
  match s.pc, l with
  | .rest _ _, .register _ moved => moved = false
  | .rest it _, .eof sock => ∀ i, s.find P sock = some i → it.idx ≤ i
  | .rest it left, .resume ok => it.idx < s.udpPeers.data.length ∧
      (ok = true → Covered (loop.skips P) s.udpPeers.data (it.idx + 1) left)
  | _, _ => True

/-- What a loop over the entries `old` should guarantee in every state. -/
structure Exact (old : List Entry) (s : PeerLoop) : Prop where
  reads : s.pc ≠ .dangling
  once : s.pc = .done → s.failed = false → ∀ e ∈ old, e ∈ s.udpPeers.data →
    loop.skips P e = false → s.sent.count e = 1

structure Sound (old : List Entry) (s : PeerLoop) : Prop extends s.Exact P loop old where
  old_lt : ∀ e ∈ old, e.tag < s.next
  lt : ∀ e ∈ s.udpPeers.data, e.tag < s.next
  rest : ∀ it left, s.pc = .rest it left → it.base = s.udpPeers.base ∧
    Progress (loop.skips P) old s.udpPeers.data s.sent it.idx (left + 1)

end PeerLoop

def LoopLabel.isResume : LoopLabel → Bool
  | .resume _ => true
  | _ => false

namespace PeerLoop

variable {P : Platform} {loop : Loop} {s t : PeerLoop} {l : LoopLabel} {old : List Entry}
  {peers : List UdpPeer}

theorem step_inv (h : step P loop s l = some t) :
    ∃ it left, s.pc = .rest it left ∧
      ((∃ peer moved, l = .register peer moved ∧ t = s.udpRegisterNewPeer peer moved) ∨
        (∃ sock, l = .eof sock ∧ t = s.eof P sock) ∨
          ∃ ok, l = .resume ok ∧ t = s.resume P loop it left ok) := by
  unfold step at h
  split at h
  · rename_i it left hpc
    refine ⟨it, left, hpc, ?_⟩
    cases l with
    | register peer moved => exact .inl ⟨peer, moved, rfl, (Option.some.inj h).symm⟩
    | eof sock => exact .inr (.inl ⟨sock, rfl, (Option.some.inj h).symm⟩)
    | resume ok => exact .inr (.inr ⟨ok, rfl, (Option.some.inj h).symm⟩)
  · cases h

theorem sound_scan (hold : ∀ e ∈ old, e.tag < s.next) (hlt : ∀ e ∈ s.udpPeers.data, e.tag < s.next)
    (it : Iter) {n : ℕ} (hbase : it.base = s.udpPeers.base)
    (hpc : s.pc = s.udpPeers.scan (loop.skips P) it n)
    (hcovered : Covered (loop.skips P) s.udpPeers.data it.idx n)
    (h : Progress (loop.skips P) old s.udpPeers.data s.sent it.idx n) : s.Sound P loop old := by
  refine ⟨⟨?_, ?_⟩, hold, hlt, ?_⟩
  · rw [hpc]
    exact (scan_ne_dangling_iff hbase h.le).mpr hcovered
  · intro hdone _ e he hmem hskip
    exact h.of_scan_done (hpc ▸ hdone) he hmem hskip
  · intro it' left hrest
    obtain ⟨hprogress, hbase'⟩ := h.of_scan_rest (hpc ▸ hrest)
    exact ⟨hbase', hprogress⟩

theorem sound_start (peers : List UdpPeer) : (start P loop peers).Sound P loop (entries peers) := by
  have hlt : ∀ e ∈ entries peers, e.tag < peers.length := by
    intro e he
    obtain ⟨i, hi, rfl⟩ := List.mem_mapIdx.mp he
    exact hi
  have hnodup : (entries peers).Nodup := by
    apply List.Nodup.of_map Entry.tag
    have htags : (entries peers).map Entry.tag = List.range peers.length := by
      apply List.ext_getElem <;> simp [entries]
    rw [htags]
    exact List.nodup_range
  apply sound_scan hlt hlt _ rfl rfl
  · exact .inl (Nat.zero_add _).le
  · exact Progress.start hnodup

theorem sound_register (hs : s.Sound P loop old) {it : Iter} {left : ℕ}
    (hpc : s.pc = .rest it left) (peer : UdpPeer) :
    (s.udpRegisterNewPeer peer false).Sound P loop old := by
  obtain ⟨hbase, hprogress⟩ := hs.rest it left hpc
  refine ⟨⟨hs.reads, fun hdone => ?_⟩, ?_, ?_, ?_⟩
  · exact absurd (hpc.symm.trans hdone) (by simp)
  · intro e he
    exact Nat.lt_succ_of_lt (hs.old_lt e he)
  · intro e he
    rcases List.mem_append.mp he with hold | hnew
    · exact Nat.lt_succ_of_lt (hs.lt e hold)
    · obtain rfl := List.mem_singleton.mp hnew
      exact Nat.lt_succ_self s.next
  · intro it' left' hpc'
    obtain ⟨rfl, rfl⟩ := Stop.rest.inj (hpc.symm.trans hpc')
    refine ⟨hbase, hprogress.push ?_ ?_⟩
    · intro hmem
      exact absurd (hs.lt _ hmem) (Nat.lt_irrefl _)
    · intro hmem
      exact absurd (hs.old_lt _ hmem) (Nat.lt_irrefl _)

theorem sound_eof (hs : s.Sound P loop old) {it : Iter} {left : ℕ} (hpc : s.pc = .rest it left)
    {sock : Sockaddr} (hi : ∀ i, s.find P sock = some i → it.idx ≤ i) :
    (s.eof P sock).Sound P loop old := by
  obtain ⟨hbase, hprogress⟩ := hs.rest it left hpc
  unfold eof
  split
  · exact hs
  · rename_i i hfind
    refine ⟨⟨hs.reads, fun hdone => ?_⟩, hs.old_lt, ?_, ?_⟩
    · exact absurd (hpc.symm.trans hdone) (by simp)
    · intro e he
      exact hs.lt e (List.mem_of_mem_eraseIdx he)
    · intro it' left' hpc'
      obtain ⟨rfl, rfl⟩ := Stop.rest.inj (hpc.symm.trans hpc')
      exact ⟨hbase, hprogress.erase (hi i hfind)⟩

theorem sound_resume (hs : s.Sound P loop old) {it : Iter} {left : ℕ}
    (hpc : s.pc = .rest it left) {ok : Bool} (hlt : it.idx < s.udpPeers.data.length)
    (hcovered : ok = true → Covered (loop.skips P) s.udpPeers.data (it.idx + 1) left) :
    (s.resume P loop it left ok).Sound P loop old := by
  obtain ⟨hbase, hprogress⟩ := hs.rest it left hpc
  have hget := List.getElem?_eq_getElem hlt
  have hderef := (s.udpPeers.deref_eq_some_iff).mpr ⟨hbase, hget⟩
  simp only [resume, hderef]
  cases ok with
  | false =>
    refine ⟨⟨by simp, fun _ hfailed => ?_⟩, hs.old_lt, hs.lt, fun _ _ hrest => ?_⟩
    · cases hfailed
    · cases hrest
  | true =>
    rw [if_pos rfl]
    exact sound_scan hs.old_lt hs.lt it.next hbase rfl (hcovered rfl)
      (hprogress.visit hget)

theorem sound_step (hs : s.Sound P loop old) (hsteady : s.Steady P loop l)
    (h : step P loop s l = some t) : t.Sound P loop old := by
  obtain ⟨it, left, hpc, ⟨peer, moved, rfl, rfl⟩ | ⟨sock, rfl, rfl⟩ | ⟨ok, rfl, rfl⟩⟩ := step_inv h
  · simp only [Steady, hpc] at hsteady
    subst hsteady
    exact sound_register hs hpc peer
  · simp only [Steady, hpc] at hsteady
    exact sound_eof hs hpc hsteady
  · simp only [Steady, hpc] at hsteady
    exact sound_resume hs hpc hsteady.1 hsteady.2

@[simp] theorem pc_eof (s : PeerLoop) (sock : Sockaddr) : (s.eof P sock).pc = s.pc := by
  unfold eof
  split <;> rfl

theorem left_resume_le (s : PeerLoop) (it : Iter) (n : ℕ) (ok : Bool) :
    (s.resume P loop it n ok).left ≤ n := by
  unfold resume
  split
  · exact Nat.zero_le n
  · cases ok with
    | false => exact Nat.zero_le n
    | true =>
      rw [if_pos rfl, left]
      split
      · rename_i it' m hscan
        exact scan_rest_lt hscan
      · exact Nat.zero_le n

theorem left_step (h : step P loop s l = some t) :
    (if l.isResume then 1 else 0) + t.left ≤ s.left := by
  obtain ⟨it, n, hpc, ⟨peer, moved, rfl, rfl⟩ | ⟨sock, rfl, rfl⟩ | ⟨ok, rfl, rfl⟩⟩ := step_inv h
  · simp [LoopLabel.isResume, left, udpRegisterNewPeer]
  · simp [LoopLabel.isResume, left]
  · have hle : (s.resume P loop it n ok).left ≤ n := left_resume_le s it n ok
    have hleft : s.left = n + 1 := by rw [left, hpc]
    simp only [LoopLabel.isResume, if_true]
    omega

/-- The loop ends: no more sends can come than there were entries. -/
theorem resumes_le_of_run {ls : List LoopLabel} (h : Run (step P loop) s ls t) :
    ls.countP LoopLabel.isResume + t.left ≤ s.left := by
  induction h with
  | nil => simp
  | cons hs _ ih =>
    have hstep := left_step hs
    rw [List.countP_cons]
    omega

theorem left_start (peers : List UdpPeer) : (start P loop peers).left ≤ peers.length := by
  rw [left]
  split
  · rename_i it left hpc
    have hlt := scan_rest_lt hpc
    rwa [entries, List.length_mapIdx] at hlt
  · exact Nat.zero_le _

/-! ## Undisturbed loops -/

theorem map_peer_entries (peers : List UdpPeer) : (entries peers).map (·.peer) = peers := by
  apply List.ext_getElem <;> simp [entries]

theorem exists_run_of_resumes {it : Iter} {n : ℕ} (sendOk : ℕ → Bool)
    (hbase : it.base = s.udpPeers.base) (hlen : it.idx + n = s.udpPeers.data.length)
    (hpc : s.pc = s.udpPeers.scan (loop.skips P) it n) :
    ∃ k t, Run (step P loop) s ((List.range k).map fun i => .resume (sendOk i)) t ∧
      t.pc = .done ∧ t.sent = s.sent ++ tried sendOk
        ((s.udpPeers.data.drop it.idx).filter fun e => !loop.skips P e) := by
  induction n generalizing s it sendOk with
  | zero =>
    refine ⟨0, s, .nil s, hpc, ?_⟩
    rw [List.drop_eq_nil_of_le (by omega)]
    simp [tried]
  | succ n ih =>
    have hlt : it.idx < s.udpPeers.data.length := by omega
    have hderef := (s.udpPeers.deref_eq_some_iff).mpr ⟨hbase, List.getElem?_eq_getElem hlt⟩
    have hdrop := List.drop_eq_getElem_cons hlt
    generalize s.udpPeers.data[it.idx] = e at hderef hdrop
    rw [Vec.scan, hderef] at hpc
    rw [hdrop]
    cases hskip : loop.skips P e with
    | true =>
      rw [List.filter_cons_of_neg (by simp [hskip])]
      exact @ih s it.next sendOk hbase (by simp only [Iter.next]; omega)
        (by simpa [hskip] using hpc)
    | false =>
      have hrest : s.pc = .rest it n := by simpa [hskip] using hpc
      have hstep : step P loop s (.resume (sendOk 0)) =
          some (s.resume P loop it n (sendOk 0)) := by simp [step, hrest]
      rw [List.filter_cons_of_pos (by simp [hskip]), tried]
      cases hok : sendOk 0 with
      | false =>
        refine ⟨1, _, .cons hstep (.nil _), ?_, ?_⟩ <;> simp [resume, hderef, hok]
      | true =>
        obtain ⟨k, t, hrun, hdone, hsent⟩ := @ih
          { s with sent := s.sent ++ [e], pc := s.udpPeers.scan (loop.skips P) it.next n }
          it.next (fun i => sendOk (i + 1)) hbase (by simp only [Iter.next]; omega) rfl
        refine ⟨k + 1, t, ?_, hdone, ?_⟩
        · rw [List.range_succ_eq_map, List.map_cons, List.map_map]
          refine .cons hstep ?_
          simp only [resume, hderef, hok, if_true]
          exact hrun
        · rw [hsent, if_pos rfl]
          simp [Iter.next]

theorem exists_run_start (P : Platform) (loop : Loop) (sendOk : ℕ → Bool)
    (peers : List UdpPeer) :
    ∃ k t, Run (step P loop) (start P loop peers)
        ((List.range k).map fun i => .resume (sendOk i)) t ∧ t.pc = .done ∧
      t.sent = tried sendOk ((entries peers).filter fun e => !loop.skips P e) :=
  @exists_run_of_resumes P loop (start P loop peers) ⟨0, 0⟩ _ sendOk rfl (Nat.zero_add _) rfl

theorem forward_of_resumes (frame : Frame) (current : Endpoint) (sendOk : ℕ → Bool)
    (peers : List UdpPeer) :
    ∃ k t, Run (step P (.forward current)) (start P (.forward current) peers)
        ((List.range k).map fun i => .resume (sendOk i)) t ∧ t.pc = .done ∧
      t.sent.map (fun e => (e.peer.peerAddr, frame.packet)) =
        forwardUdpFrameToOtherPeers P frame current sendOk peers := by
  obtain ⟨k, t, hrun, hdone, hsent⟩ := exists_run_start P (.forward current) sendOk peers
  refine ⟨k, t, hrun, hdone, ?_⟩
  nth_rewrite 1 [← map_peer_entries peers]
  rw [hsent, forward_eq_map, List.filter_map, tried_map, List.map_map]
  simp [Loop.skips, Function.comp_def]

theorem broadcast_of_resumes (fit : Frame) (sendOk : ℕ → Bool) (peers : List UdpPeer) :
    ∃ k t, Run (step P .broadcast) (start P .broadcast peers)
        ((List.range k).map fun i => .resume (sendOk i)) t ∧ t.pc = .done ∧
      t.sent.map (fun e => (e.peer.peerAddr, (stamp P fit).packet)) =
        broadcastFrame P fit sendOk peers := by
  obtain ⟨k, t, hrun, hdone, hsent⟩ := exists_run_start P .broadcast sendOk peers
  refine ⟨k, t, hrun, hdone, ?_⟩
  nth_rewrite 1 [← map_peer_entries peers]
  rw [hsent, broadcastFrame_eq_map, tried_map, List.map_map]
  simp [Loop.skips, Function.comp_def]

end PeerLoop

/--
In every run of a loop over the peers whose steps are all steady, the loop reads only entries
of `udp_peers`, and every entry that is there from its start to its end is sent the
frame exactly once, unless the loop passes over it or a send fails. It can always be
resumed, and ends after at most as many sends as there were entries.
-/
theorem peer_loop_exact_of_steady (P : Platform) (loop : Loop) (peers : List UdpPeer)
    {ls : List LoopLabel} {s : PeerLoop}
    (hsteady : Along (PeerLoop.step P loop) (PeerLoop.Steady P loop) (.start P loop peers) ls)
    (hrun : Run (PeerLoop.step P loop) (.start P loop peers) ls s) :
    s.Exact P loop (PeerLoop.entries peers) ∧
      ls.countP LoopLabel.isResume + s.left ≤ peers.length ∧
        (s.pc = .done ∨ ∀ ok, (PeerLoop.step P loop s (.resume ok)).isSome) := by
  have hsound := throughout_of_along (P := PeerLoop.Sound P loop (PeerLoop.entries peers))
    (fun s l t hs hl h => PeerLoop.sound_step hs hl h) (PeerLoop.sound_start peers) hsteady
  have hs := hsound.last hrun
  refine ⟨hs.toExact, ?_, ?_⟩
  · exact (PeerLoop.resumes_le_of_run hrun).trans (PeerLoop.left_start peers)
  · cases hpc : s.pc with
    | done => exact .inl rfl
    | rest it left => exact .inr fun ok => by simp [PeerLoop.step, hpc]
    | dangling => exact absurd hpc hs.reads

/-- Three peers, one of which goes and another comes while the loop is at the first. -/
theorem peer_loop_exact_three :
    let peer (n : ℕ) : UdpPeer :=
      ⟨endpointInit (.inet (BitVec.ofNat 32 n) 5000), dtlsDisable, n⟩
    let start : PeerLoop := .start .reference .broadcast [peer 1, peer 2, peer 3]
    let ls : List LoopLabel := [.register (peer 4) false, .eof (.inet 2 0), .resume true,
      .resume true, .resume true]
    ∃ s, Run (PeerLoop.step .reference .broadcast) start ls s ∧ s.pc = .done ∧
      s.sent = [⟨0, peer 1⟩, ⟨2, peer 3⟩, ⟨3, peer 4⟩] ∧
        s.Exact .reference .broadcast (PeerLoop.entries [peer 1, peer 2, peer 3]) := by
  intro peer start ls
  have hsteady : Along (PeerLoop.step .reference .broadcast)
      (PeerLoop.Steady .reference .broadcast) start ls := by
    refine (along_cons_iff rfl).mpr ⟨rfl, ?_⟩
    refine (along_cons_iff rfl).mpr ⟨fun i _ => Nat.zero_le i, ?_⟩
    refine (along_cons_iff rfl).mpr ⟨⟨by decide, fun _ => .inl (by decide)⟩, ?_⟩
    refine (along_cons_iff rfl).mpr ⟨⟨by decide, fun _ => .inl (by decide)⟩, ?_⟩
    exact (along_cons_iff rfl).mpr ⟨⟨by decide, fun _ => .inl (by decide)⟩, trivial⟩
  have hrun : Run (PeerLoop.step .reference .broadcast) start ls _ :=
    .cons rfl (.cons rfl (.cons rfl (.cons rfl (.cons rfl (.nil _)))))
  exact ⟨_, hrun, by decide, by decide, (peer_loop_exact_of_steady _ _ _ hsteady hrun).1⟩

/--
A registration moves the storage, and the loop reads what it no longer holds. Or the first
peer goes while the loop is at the second one, and the second one is never sent the
frame although it stays.
-/
theorem peer_loop_not_exact :
    let peer (n : ℕ) : UdpPeer :=
      ⟨endpointInit (.inet (BitVec.ofNat 32 n) 5000), dtlsDisable, n⟩
    let start : PeerLoop := .start .reference .broadcast [peer 1, peer 2, peer 3]
    (∃ s, Run (PeerLoop.step .reference .broadcast) start
      [.register (peer 4) true, .resume true] s ∧ s.pc = .dangling) ∧
    ∃ s, Run (PeerLoop.step .reference .broadcast) start
        [.resume true, .eof (.inet 1 0), .register (peer 4) false, .resume true, .resume true] s ∧
      s.pc = .done ∧ s.failed = false ∧ ⟨1, peer 2⟩ ∈ s.udpPeers.data ∧
        s.sent.count ⟨1, peer 2⟩ = 0 := by
  intro peer start
  refine ⟨⟨_, .cons rfl (.cons rfl (.nil _)), by decide⟩, _, .cons rfl (.cons rfl (.cons rfl
    (.cons rfl (.cons rfl (.nil _))))), by decide, by decide, by decide, by decide⟩

end Tnetacle.Tunnel
