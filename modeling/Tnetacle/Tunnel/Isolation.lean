import Tnetacle.Tunnel.RoundTrip

/-! # Peers that cannot be reached

Both loops over the UDP peers are left at the first send that fails. The peers behind the one
that cannot be reached are not tried, so that a frame reaches every peer only if no send but
the last one fails.
-/

namespace Tnetacle.Tunnel

open ByteOrder Meta

def OnlyLastFails (sendOk : ℕ → Bool) (n : ℕ) : Prop := ∀ j, j + 1 < n → sendOk j = true

section Tried

variable {α β : Type*} {ok : ℕ → Bool}

theorem length_tried_le (ok : ℕ → Bool) (l : List α) : (tried ok l).length ≤ l.length := by
  induction l generalizing ok with
  | nil => exact le_rfl
  | cons a rest ih =>
    rw [tried, List.length_cons, List.length_cons]
    cases ok 0 with
    | true => exact Nat.succ_le_succ (ih _)
    | false => exact Nat.succ_le_succ (Nat.zero_le _)

theorem tried_of_onlyLastFails {l : List α} (h : OnlyLastFails ok l.length) : tried ok l = l := by
  induction l generalizing ok with
  | nil => rfl
  | cons a rest ih =>
    rw [tried]
    cases rest with
    | nil => cases ok 0 <;> rfl
    | cons b rest =>
      have hrest : OnlyLastFails (fun n => ok (n + 1)) (b :: rest).length :=
        fun j hj => h (j + 1) (Nat.succ_lt_succ hj)
      rw [if_pos (h 0 (by simp)), ih hrest]

/-- The length tells whether all entries have been tried. -/
theorem length_tried_eq_iff {l : List α} :
    (tried ok l).length = l.length ↔ OnlyLastFails ok l.length := by
  constructor
  · intro h
    induction l generalizing ok with
    | nil => exact fun j hj => absurd hj (Nat.not_lt_zero _)
    | cons a rest ih =>
      rw [tried, List.length_cons, List.length_cons] at h
      intro j hj
      cases hok : ok 0 with
      | true =>
        rw [hok] at h
        cases j with
        | zero => exact hok
        | succ j => exact ih (Nat.succ.inj h) j (Nat.lt_of_succ_lt_succ hj)
      | false =>
        rw [hok] at h
        have hrest : rest.length = 0 := (Nat.succ.inj h).symm
        rw [List.length_cons, hrest] at hj
        omega
  · intro h
    rw [tried_of_onlyLastFails h]

/-- All entries are used, each once, exactly when only the last one may fail. -/
theorem map_tried_perm_iff {l : List α} (f : α → β) :
    ((tried ok l).map f).Perm (l.map f) ↔ OnlyLastFails ok l.length := by
  constructor
  · intro h
    have hlen := h.length_eq
    rw [List.length_map, List.length_map] at hlen
    exact length_tried_eq_iff.mp hlen
  · intro h
    rw [tried_of_onlyLastFails h]

end Tried

variable (P : Platform)

def allSends (udpPeers : List UdpPeer) (frames : List Frame) : List (Endpoint × List Byte) :=
  frames.flatMap fun fit => udpPeers.map fun it => (it.peerAddr, (stamp P fit).packet)

/-- The peers that a frame from `current` is to be forwarded to. -/
def othersThan (current : Endpoint) (udpPeers : List UdpPeer) : List UdpPeer :=
  udpPeers.filter fun it => endpointCmp P it.peerAddr current ≠ 0

section Broadcast

variable {P} {udpPeers : List UdpPeer}

theorem length_broadcast_le (sendOk : ℕ → ℕ → Bool) (frames : List Frame) :
    (broadcastUdpToPeers P udpPeers sendOk frames).length ≤
      (allSends P udpPeers frames).length := by
  induction frames generalizing sendOk with
  | nil => exact le_rfl
  | cons fit rest ih =>
    have hfirst := length_tried_le (sendOk 0) udpPeers
    have hrest := ih fun n => sendOk (n + 1)
    rw [broadcastUdpToPeers, allSends, List.flatMap_cons, broadcastFrame_eq_map]
    rw [allSends] at hrest
    simp only [List.length_append, List.length_map]
    omega

/-- The length tells whether every frame has been tried for every peer. -/
theorem length_broadcast_eq_iff {sendOk : ℕ → ℕ → Bool} {frames : List Frame} :
    (broadcastUdpToPeers P udpPeers sendOk frames).length = (allSends P udpPeers frames).length ↔
      ∀ i < frames.length, OnlyLastFails (sendOk i) udpPeers.length := by
  induction frames generalizing sendOk with
  | nil => simp [broadcastUdpToPeers, allSends]
  | cons fit rest ih =>
    have hfirst := length_tried_le (sendOk 0) udpPeers
    have hle : (broadcastUdpToPeers P udpPeers (fun n => sendOk (n + 1)) rest).length ≤
        (allSends P udpPeers rest).length := length_broadcast_le _ rest
    have hsum : (broadcastUdpToPeers P udpPeers sendOk (fit :: rest)).length =
        (allSends P udpPeers (fit :: rest)).length ↔
          (tried (sendOk 0) udpPeers).length = udpPeers.length ∧
            (broadcastUdpToPeers P udpPeers (fun n => sendOk (n + 1)) rest).length =
              (allSends P udpPeers rest).length := by
      rw [broadcastUdpToPeers, broadcastFrame_eq_map, allSends, List.flatMap_cons, ← allSends]
      simp only [List.length_append, List.length_map]
      omega
    rw [hsum, length_tried_eq_iff, ih]
    constructor
    · rintro ⟨hzero, hrest⟩ i hi
      cases i with
      | zero => exact hzero
      | succ i => exact hrest i (Nat.lt_of_succ_lt_succ hi)
    · intro h
      exact ⟨h 0 (Nat.succ_pos _), fun i hi => h (i + 1) (Nat.succ_lt_succ hi)⟩

theorem broadcast_of_onlyLastFails {sendOk : ℕ → ℕ → Bool} {frames : List Frame}
    (h : ∀ i < frames.length, OnlyLastFails (sendOk i) udpPeers.length) :
    broadcastUdpToPeers P udpPeers sendOk frames = allSends P udpPeers frames := by
  induction frames generalizing sendOk with
  | nil => rfl
  | cons fit rest ih =>
    have hrest := @ih (fun n => sendOk (n + 1)) fun i hi => h (i + 1) (Nat.succ_lt_succ hi)
    rw [broadcastUdpToPeers, hrest, broadcastFrame_eq_map,
      tried_of_onlyLastFails (h 0 (Nat.succ_pos _))]
    rfl

end Broadcast

/--
Whatever sends fail, every frame is attempted for every peer exactly once if and only if no
send of a frame fails but the one to the last peer; and a frame that is forwarded is attempted for
every peer other than its source exactly once if and only if no send fails but the
last one.
-/
theorem failure_isolated_iff (udpPeers : List UdpPeer) (frames : List Frame)
    (sendOk : ℕ → ℕ → Bool) (frame : Frame) (current : Endpoint) (forwardOk : ℕ → Bool) :
    ((broadcastUdpToPeers P udpPeers sendOk frames).Perm (allSends P udpPeers frames) ↔
      ∀ i < frames.length, OnlyLastFails (sendOk i) udpPeers.length) ∧
    ((forwardUdpFrameToOtherPeers P frame current forwardOk udpPeers).Perm
        ((othersThan P current udpPeers).map fun it => (it.peerAddr, frame.packet)) ↔
      OnlyLastFails forwardOk (othersThan P current udpPeers).length) := by
  constructor
  · constructor
    · intro h
      exact length_broadcast_eq_iff.mp h.length_eq
    · intro h
      rw [broadcast_of_onlyLastFails h]
  · rw [forward_eq_map]
    exact map_tried_perm_iff _

/-- The first of two peers cannot be reached, and the second one gets neither kind of frame. -/
theorem unreachable_peer_deprives :
    let a := endpointInit (.inet 0x0a000002 0x8813)
    let b := endpointInit (.inet 0x0a000003 0x8813)
    let udpPeers : List UdpPeer := [⟨a, dtlsDisable, 0⟩, ⟨b, dtlsDisable, 1⟩]
    let frame : Frame := ⟨1, [0, 1, 0xaa]⟩
    broadcastUdpToPeers .reference udpPeers (fun _ j => j ≠ 0) [frame] =
        [(a, [0, 1, 0xaa])] ∧
      forwardUdpFrameToOtherPeers .reference frame (endpointInit (.inet 0x0a000004 0x8813))
        (fun j => j ≠ 0) udpPeers = [(a, [0, 1, 0xaa])] ∧
      ¬ (broadcastUdpToPeers .reference udpPeers (fun _ j => j ≠ 0) [frame]).Perm
        (allSends .reference udpPeers [frame]) := by
  decide

end Tnetacle.Tunnel
