import Tnetacle.Privileged.Startup

/-! # No wake-up is lost

The events of the socket are reported once for each change (`EV_ET`), and a callback reads once and
writes once. While the socket takes and gives everything at once, the start does not wait for a
change that has already been reported.
-/

namespace Tnetacle.Privileged

open ByteOrder CString Framing Runs Sideband
open Config (Options)

structure Edges where
  read : Bool := false
  write : Bool := false
  deriving DecidableEq

def Edges.told (e : Edges) (sent room : Bool) : Edges where
  read := e.read || sent
  write := e.write || room

/-- The two processes with what their event loops have to report. -/
structure Boot where
  link : Link Child State
  child : Edges := {}
  parent : Edges := {}

/-- The callback of one process: what is reported along with the changes, and whether the
other process is told that there is room again. -/
inductive Turn
  | child (more : Edges) (freed : Bool)
  | parent (more : Edges) (freed : Bool)

def wholeRecv (inc : List (Token ℕ Byte)) : Recv :=
  if elems inc = [] then .again else .got (elems inc).length true

section Whole

variable {σ : Type*} (host : Endian) (iovMax : ℕ)
  (handle : σ → Imsg → Option ℕ → σ × Option Request)

/-- What `sendmsg` is given after the read is sent at once. -/
def wholeEvent (p : Feed (Peer σ) Byte) (inc : List (Token ℕ Byte)) (edges more : Edges) : Event :=
  let ev : Event :=
    { read := edges.read || more.read, write := edges.write || more.write, recv := wholeRecv inc }
  { ev with
    send := .sent (match readPart host handle p inc ev with
      | some r => (iov iovMax r.1.sink.w.bufs).1.length
      | none => 0) }

end Whole

section Boot

variable (servOpts : Options) (opens : ℕ → Bool) (host : Endian) (iovMax : ℕ)
  (pidChild pidParent : Long)

def Boot.start : Boot :=
  let s : Link Child State := .start {} {} pidChild pidParent
  { link := { s with left := { s.left with sink := s.left.sink.compose host {} createRequest } }
    child := { write := true }
    parent := { write := true } }

/-- The unprivileged process has run its callback. What it has sent is reported to the other one. -/
def Boot.childRan (s : Boot) (freed : Bool) (link : Link Child State) : Boot where
  link := link
  parent := s.parent.told (link.toRight ≠ s.link.toRight) (freed && elems s.link.toLeft ≠ [])

def Boot.parentRan (s : Boot) (freed : Bool) (link : Link Child State) : Boot where
  link := link
  child := s.child.told (link.toLeft ≠ s.link.toLeft) (freed && elems s.link.toRight ≠ [])

def Boot.due (s : Boot) : Turn → Bool
  | .child _ _ => s.child.read || s.child.write
  | .parent _ _ => s.parent.read || s.parent.write

/-- A callback runs when there is something to report. -/
def Boot.step (s : Boot) : Turn → Option Boot
  | .child more freed =>
    if s.child.read || s.child.write then
      (s.link.step host iovMax (Child.handle servOpts) (State.handle servOpts opens)
        (.left (.callback (wholeEvent host iovMax (Child.handle servOpts) s.link.left s.link.toLeft
          s.child more)))).map (s.childRan freed)
    else none
  | .parent more freed =>
    if s.parent.read || s.parent.write then
      (s.link.step host iovMax (Child.handle servOpts) (State.handle servOpts opens)
        (.right (.callback (wholeEvent host iovMax (State.handle servOpts opens) s.link.right
          s.link.toRight s.parent more)))).map (s.parentRan freed)
    else none

end Boot

/-! ## A whole queue -/

section Queue

variable {bs : List Ibuf} {w : Msgbuf} {i : ℕ}

def Plain (bs : List Ibuf) : Prop := ∀ b ∈ bs.dropLast, b.fd = none

theorem tokens_detach_of_plain (hplain : Plain bs) (hlen : bs.length ≤ i) :
    (detach i bs).flatMap Ibuf.tokens = (iov i bs).1.map .data := by
  induction bs generalizing i with
  | nil => cases i <;> rfl
  | cons b bs ih =>
    obtain ⟨i, rfl⟩ : ∃ j, i = j + 1 := ⟨i - 1, by rw [List.length_cons] at hlen; omega⟩
    rw [detach, iov]
    cases bs with
    | nil =>
      split
      · next hfd =>
        cases i <;> simp [detach, iov, Ibuf.tokens, frame, hfd]
      · simp [Ibuf.tokens, Ibuf.pending, frame]
    | cons b' bs =>
      have hb : b.fd = none := hplain b List.mem_cons_self
      have hrest : Plain (b' :: bs) := fun b hb => hplain b (List.mem_cons_of_mem _ hb)
      rw [if_pos hb, if_pos hb, List.flatMap_cons, ih hrest (Nat.le_of_succ_le_succ hlen)]
      simp [Ibuf.tokens, frame, hb]

theorem iov_ne_nil (hw : ∀ b ∈ bs, b.rpos < b.wpos) (hne : bs ≠ []) (hi : 0 < i) :
    (iov i bs).1 ≠ [] := by
  obtain ⟨b, bs, rfl⟩ := List.exists_cons_of_ne_nil hne
  obtain ⟨i, rfl⟩ : ∃ j, i = j + 1 := ⟨i - 1, by omega⟩
  have hpending : b.pending ≠ [] := by
    intro hnil
    have hlt := hw b List.mem_cons_self
    have hlen := congrArg List.length hnil
    rw [Ibuf.pending, List.length_drop, List.length_nil] at hlen
    rw [Ibuf.wpos] at hlt
    omega
  rw [iov]
  split
  · exact fun hnil => hpending (List.append_eq_nil_iff.mp hnil).1
  · exact hpending

theorem bufs_msgbufWrite_of_plain (hw : w.Waiting) (hplain : Plain w.bufs)
    (hlen : w.bufs.length ≤ i) :
    (msgbufWrite i w (.sent (iov i w.bufs).1.length)).1.bufs = [] := by
  have htokens : (detach i w.bufs).flatMap Ibuf.tokens = (iov i w.bufs).1.map .data ++ [] := by
    rw [List.append_nil, tokens_detach_of_plain hplain hlen]
  have hdrain := (tokens_drain htokens).1
  by_contra hne
  have hwait := hw.write i (.sent (iov i w.bufs).1.length)
  apply hne
  rw [← List.length_eq_zero_iff, ← (msgbufWrite i w _).1.queued_eq, ← hwait.tokens_eq_nil_iff]
  show elems ((drain (detach i w.bufs) _).2.flatMap Ibuf.tokens) = []
  rw [hdrain]
  rfl

end Queue

/-! ## A whole callback -/

section Callback

variable {σ : Type*} {host : Endian} {iovMax : ℕ}
  {handle : σ → Imsg → Option ℕ → σ × Option Request} {C H : List Passed}
  {u a inc inc' out : List (Token ℕ Byte)} {p p' : Feed (Peer σ) Byte} {edges more : Edges}
  {ev : Event}

theorem sound_wholeRecv (inc : List (Token ℕ Byte)) : (wholeRecv inc).Sound := by
  rw [wholeRecv]
  split <;> trivial

theorem allowed_wholeRecv {buffer : List Byte}
    (hroom : buffer.length + (elems inc).length ≤ ibufReadSize) (hmarks : (marks inc).length ≤ 1) :
    (wholeRecv inc).Allowed buffer inc := by
  rw [wholeRecv]
  split
  · trivial
  · next hne =>
    refine ⟨List.length_pos_iff.mpr hne, hroom, Nat.le_refl _, Nat.le_trans ?_ hmarks⟩
    conv_rhs => rw [← split_append inc (elems inc).length, marks_append, List.length_append]
    exact Nat.le_add_right _ _

theorem readPart_whole (host : Endian) (handle : σ → Imsg → Option ℕ → σ × Option Request)
    (hrecv : ev.recv = wholeRecv inc)
    (hallowed : (wholeRecv inc).Allowed p.buffer inc) (hread : elems inc ≠ [] → ev.read = true) :
    ∃ q inc', readPart host handle p inc ev = some (q, inc') ∧ elems inc' = [] := by
  rw [readPart]
  split
  · rw [if_pos (by rwa [hrecv])]
    refine ⟨_, _, rfl, ?_⟩
    by_cases hnil : elems inc = []
    · have hagain : ev.recv = .again := by rw [hrecv, wholeRecv, if_pos hnil]
      rw [dispatchWith, hagain]
      exact hnil
    · have hgot : ev.recv = .got (elems inc).length true := by rw [hrecv, wholeRecv, if_neg hnil]
      have hpos := List.length_pos_iff.mpr hnil
      rw [dispatchWith, hgot]
      simp only [imsgRead, Bool.true_or, if_true]
      rw [if_neg (by omega), if_neg (by omega)]
      exact (elems_split_snd inc _).trans List.drop_length
  · next hnot =>
    refine ⟨p, inc, rfl, ?_⟩
    by_contra hnil
    rw [hread hnil] at hnot
    simp at hnot

def Balanced (c b : ℕ) (ready : Bool) (p : Feed (Peer σ) Byte) : Prop :=
  p.sink.w.bufs.length + c = b + p.sink.composed.length ∧ p.sink.readyWrite = ready

theorem Balanced.emit {c b : ℕ} {ready : Bool} (h : Balanced c b ready p) (alloc : ℕ → Alloc)
    (m : Imsg) (rest : List Byte) :
    Balanced c b ready { p with buffer := rest, sink := p.sink.emit host handle alloc m } := by
  rw [Peer.emit, Balanced]
  cases (handle p.sink.app m (getFd m p.sink.fds).1).2 with
  | none => exact h
  | some req =>
    rcases Peer.compose_cases host (alloc p.sink.handled.length) req
      { p.sink with
        app := (handle p.sink.app m (getFd m p.sink.fds).1).1
        fds := (getFd m p.sink.fds).2
        handled := p.sink.handled ++ [(m, (getFd m p.sink.fds).1)] } with
      heq | ⟨m', b', -, -, -, heq⟩
    · simp only [heq]
      exact h
    · simp only [heq]
      obtain ⟨hlen, hready⟩ := h
      refine ⟨?_, hready⟩
      simp only [ibufEnqueue, List.length_append, List.length_singleton]
      omega

theorem Balanced.readPart {c b : ℕ} {ready : Bool} (h : Balanced c b ready p)
    (hsound : ev.recv.Sound) (hread : readPart host handle p inc ev = some (p', inc')) :
    Balanced c b ready p' := by
  rcases readPart_eq_some hread with ⟨rfl, -⟩ | ⟨hallowed, ready, rfl, -⟩
  · exact h
  · rcases dispatchWith_cases host handle hsound hallowed with
      ⟨-, heq⟩ | ⟨t, -, heq⟩
    · rw [heq]
      exact h
    · rw [heq]
      have hloop := loop_invariant (imsgNext host ev.malloc)
        (Peer.emit host handle ev.alloc) (P := Balanced c b _)
        (fun q m rest hq _ => hq.emit ev.alloc m rest) (fun q hq _ => hq)
        (received p t).buffer.length (s := received p t) h
      exact hloop

theorem writePart_whole (hw : p.sink.w.Waiting)
    (hsend : ev.send = .sent (iov iovMax p.sink.w.bufs).1.length)
    (hdue : (ev.write || p.sink.readyWrite) = true) (hiov : 0 < iovMax) :
    ∃ p' out, writePart iovMax p ev = some (p', out) ∧ p'.sink.composed = p.sink.composed ∧
      p'.sink.readyWrite = true ∧
      ((p.sink.w.bufs = [] ∧ p'.sink.w = p.sink.w ∧ out = []) ∨ (p.sink.w.bufs ≠ [] ∧
        p'.sink.w =
          (msgbufWrite iovMax p.sink.w (.sent (iov iovMax p.sink.w.bufs).1.length)).1)) := by
  rw [writePart, if_pos hdue, p.sink.w.queued_eq]
  by_cases hempty : p.sink.w.bufs = []
  · rw [if_neg (by simp [hempty])]
    exact ⟨_, _, rfl, rfl, rfl, .inl ⟨hempty, rfl, rfl⟩⟩
  · have hallowed : Send.Allowed iovMax p.sink.w (.sent (iov iovMax p.sink.w.bufs).1.length) :=
      ⟨List.length_pos_iff.mpr (iov_ne_nil hw hempty hiov), Nat.le_refl _⟩
    rw [if_pos (List.length_pos_iff.mpr hempty), hsend, if_pos hallowed]
    exact ⟨_, _, rfl, rfl, rfl, .inr ⟨hempty, rfl⟩⟩

/-- What a whole callback does: there is a state `q` between its halves, from which the whole queue
is sent. -/
structure Whole (host : Endian) (iovMax : ℕ) (C H : List Passed) (u a : List (Token ℕ Byte))
    (p p' : Feed (Peer σ) Byte) (out : List (Token ℕ Byte)) (q : Feed (Peer σ) Byte) : Prop where
  linked : Linked host C H u a q
  balanced : q.sink.w.bufs.length + p.sink.composed.length =
    p.sink.w.bufs.length + q.sink.composed.length
  composed : p'.sink.composed = q.sink.composed
  ready : p'.sink.readyWrite = true
  sent : (q.sink.w.bufs = [] ∧ p'.sink.w = q.sink.w ∧ out = []) ∨ (q.sink.w.bufs ≠ [] ∧
    p'.sink.w = (msgbufWrite iovMax q.sink.w (.sent (iov iovMax q.sink.w.bufs).1.length)).1)

theorem run_whole (handle : σ → Imsg → Option ℕ → σ × Option Request) (more : Edges)
    (h : Linked host C H (inc ++ u) a p)
    (hroom : p.buffer.length + (elems inc).length ≤ ibufReadSize) (hmarks : (marks inc).length ≤ 1)
    (hread : elems inc ≠ [] → edges.read = true)
    (hwrite : p.sink.readyWrite = true ∨ edges.write = true) (hiov : 0 < iovMax) :
    ∃ p' inc' out q,
      (Action.callback (wholeEvent host iovMax handle p inc edges more)).run host iovMax handle p
        inc = some (p', inc', out) ∧ elems inc' = [] ∧
      Whole host iovMax C H (inc' ++ u) a p p' out q := by
  generalize hev : wholeEvent host iovMax handle p inc edges more = ev
  have hrecv : ev.recv = wholeRecv inc := by rw [← hev]; rfl
  have hsound : ev.recv.Sound := hrecv ▸ sound_wholeRecv inc
  obtain ⟨q, inc', hq, hnil⟩ := readPart_whole host handle hrecv
    (allowed_wholeRecv hroom hmarks) (fun hne => by rw [← hev]; simp [wholeEvent, hread hne])
  have hlinked := h.readPart hsound hq
  have hbalanced : Balanced p.sink.composed.length p.sink.w.bufs.length p.sink.readyWrite q :=
    Balanced.readPart ⟨rfl, rfl⟩ hsound hq
  have hsend : ev.send = .sent (iov iovMax q.sink.w.bufs).1.length := by
    -- what is sent has no part in the first half
    have hsame : readPart host handle p inc
        { read := edges.read || more.read, write := edges.write || more.write,
          recv := wholeRecv inc } = some (q, inc') := by
      rw [← hq, ← hev]
      rfl
    rw [← hev, wholeEvent]
    simp only [hsame]
  have hdue : (ev.write || q.sink.readyWrite) = true := by
    rw [hbalanced.2, ← hev]
    rcases hwrite with hready | hedge
    · rw [hready, Bool.or_true]
    · simp [wholeEvent, hedge]
  obtain ⟨p', out, hp', hcomposed, hready, hsent⟩ :=
    writePart_whole hlinked.waiting hsend hdue hiov
  refine ⟨p', inc', out, q, ?_, hnil, hlinked, hbalanced.1, hcomposed, hready, hsent⟩
  rw [Action.run, hq, Option.bind_some, hp', Option.map_some]

structure Turned (p p' : Feed (Peer σ) Byte) (out : List (Token ℕ Byte)) : Prop where
  ready : p'.sink.readyWrite = true
  empty : p'.sink.w.bufs = []
  sent : ∃ n, n + p.sink.composed.length = p.sink.w.bufs.length + p'.sink.composed.length ∧
    (out ≠ [] → 0 < n)

theorem Whole.turned {q : Feed (Peer σ) Byte} (h : Whole host iovMax C H u a p p' out q)
    (hplain : Plain q.sink.w.bufs) (hlen : q.sink.w.bufs.length ≤ iovMax) : Turned p p' out := by
  have hcount : q.sink.w.bufs.length + p.sink.composed.length =
      p.sink.w.bufs.length + p'.sink.composed.length := by rw [h.composed, h.balanced]
  rcases h.sent with ⟨hempty, hw, rfl⟩ | ⟨hne, hw⟩
  · exact ⟨h.ready, by rw [hw, hempty], _, hcount, fun hout => absurd rfl hout⟩
  · refine ⟨h.ready, ?_, _, hcount, fun _ => List.length_pos_iff.mpr hne⟩
    rw [hw, bufs_msgbufWrite_of_plain h.linked.waiting hplain hlen]

/-- What is still to be reported to a process is enough for it to go on. -/
structure Awake (p : Feed (Peer σ) Byte) (inc : List (Token ℕ Byte)) (edges : Edges) : Prop where
  read : elems inc ≠ [] → edges.read = true
  queue : p.sink.w.bufs ≠ [] → edges.write = true
  ready : p.sink.readyWrite = true ∨ edges.write = true
  few : p.sink.w.bufs.length ≤ p.sink.composed.length

theorem Turned.awake (h : Turned p p' out) (hnil : elems inc = []) : Awake p' inc {} where
  read hne := absurd hnil hne
  queue hne := absurd h.empty hne
  ready := .inl h.ready
  few := by
    rw [h.empty]
    exact Nat.zero_le _

theorem Awake.told (h : Awake p inc edges) (out : List (Token ℕ Byte)) (room : Bool) :
    Awake p (inc ++ out) (edges.told (inc ++ out ≠ inc) room) where
  read hne := by
    rw [Edges.told]
    by_cases hnil : elems inc = []
    · have hout : out ≠ [] := by
        rintro rfl
        exact hne (by rwa [List.append_nil])
      simp [hout]
    · simp [h.read hnil]
  queue hne := by simp [Edges.told, h.queue hne]
  ready := by
    rcases h.ready with hready | hwrite
    · exact .inl hready
    · exact .inr (by simp [Edges.told, hwrite])
  few := h.few

/-- What a process still has to do, where a message counts for what its sending and its reading may
cause to be reported. -/
def workload (p : Feed (Peer σ) Byte) (inc : List (Token ℕ Byte)) (edges : Edges) : ℕ :=
  edges.read.toNat + edges.write.toNat + 4 * p.sink.w.bufs.length +
    2 * (decide (elems inc ≠ [])).toNat

theorem toNat_or_le (a b : Bool) : (a || b).toNat ≤ a.toNat + b.toNat := by
  cases a <;> cases b <;> decide

theorem toNat_and_le (a b : Bool) : (a && b).toNat ≤ b.toNat := by
  cases a <;> cases b <;> decide

theorem toNat_append_le (t out : List (Token ℕ Byte)) :
    (decide (elems (t ++ out) ≠ [])).toNat ≤
      (decide (elems t ≠ [])).toNat + (decide (t ++ out ≠ t)).toNat := by
  by_cases hout : out = []
  · simp [hout]
  · have hne : decide (t ++ out ≠ t) = true := by simpa using hout
    rw [hne]
    exact Nat.le_trans (Bool.toNat_le _) (Nat.le_add_left _ _)

/-- A callback that is due takes more off the two processes than it adds, apart from the messages
it composes. -/
theorem Turned.workload_lt {τ : Type*} (h : Turned p p' out) (inc : List (Token ℕ Byte))
    (q : Feed (Peer τ) Byte) (t : List (Token ℕ Byte)) (other : Edges) (hnil : elems inc' = [])
    (hdue : (edges.read || edges.write) = true) (freed : Bool) :
    workload p' inc' {} + workload q (t ++ out)
        (other.told (t ++ out ≠ t) (freed && elems inc ≠ [])) + 4 * p.sink.composed.length <
      workload p inc edges + workload q t other + 4 * p'.sink.composed.length := by
  obtain ⟨n, hn, hpos⟩ := h.sent
  have hout : (decide (t ++ out ≠ t)).toNat ≤ n := by
    by_cases hout : out = []
    · simp [hout]
    · exact Nat.le_trans (Bool.toNat_le _) (hpos hout)
  have hedge := toNat_or_le edges.read edges.write
  have hread := toNat_or_le other.read (decide (t ++ out ≠ t))
  have hwrite := toNat_or_le other.write (freed && decide (elems inc ≠ []))
  have hfreed := toNat_and_le freed (decide (elems inc ≠ []))
  have hsocket := toNat_append_le t out
  have hzero : (decide (elems inc' ≠ [])).toNat = 0 := by simp [hnil]
  have hfalse : false.toNat = 0 := rfl
  have htrue : true.toNat = 1 := rfl
  rw [hdue] at hedge
  simp only [workload, Edges.told, h.empty, List.length_nil]
  omega

end Callback

/-! ## How much is on its way -/

section Bounds

variable {host : Endian} {C H : List Passed} {fds : List ℕ} {buf : List Byte}
  {inc u : List (Token ℕ Byte)}

theorem length_stream_le (host : Endian) (ms : List Imsg) :
    (stream (Imsg.encode host) ms).length ≤ ms.length * maxImsgsize := by
  induction ms with
  | nil => exact Nat.zero_le _
  | cons m ms ih =>
    have hm : (m.encode host).length ≤ maxImsgsize := by
      have hle := m.le_max
      rw [length_encode]
      rw [maxImsgsize, imsgHeaderSize] at *
      omega
    rw [stream_cons, List.length_append, List.length_cons, Nat.succ_mul]
    omega

theorem Carries.bytes_le (h : Carries host C H (apart fds buf ++ (inc ++ u))) :
    buf.length + (elems inc).length ≤ C.length * maxImsgsize := by
  obtain ⟨pending, rfl, -, hpending⟩ := h
  have hlen := congrArg List.length hpending.elems_eq
  have hle := length_stream_le host (pending.map Prod.fst)
  rw [elems_frames] at hlen
  rw [List.length_map] at hle
  simp only [apart, elems_append, elems_map_mark, elems_map_data, List.nil_append,
    List.length_append] at hlen
  have hmul : pending.length * maxImsgsize ≤ (H ++ pending).length * maxImsgsize := by
    apply Nat.mul_le_mul_right
    rw [List.length_append]
    omega
  omega

theorem Carries.marks_le (h : Carries host C H (apart fds buf ++ (inc ++ u))) :
    (marks inc).length ≤ (C.filterMap Prod.snd).length := by
  rw [h.fds_eq, marks_append]
  simp only [List.length_append]
  omega

theorem Linked.run_awake {σ : Type*} {iovMax : ℕ} {p : Feed (Peer σ) Byte}
    {a : List (Token ℕ Byte)} {edges : Edges} (h : Linked host C H (inc ++ u) a p)
    (handle : σ → Imsg → Option ℕ → σ × Option Request) (hawake : Awake p inc edges)
    (more : Edges) (hfew : C.length ≤ 2) (hfds : (C.filterMap Prod.snd).length ≤ 1)
    (hiov : 0 < iovMax) :
    ∃ p' inc' out q,
      (Action.callback (wholeEvent host iovMax handle p inc edges more)).run host iovMax handle p
        inc = some (p', inc', out) ∧ elems inc' = [] ∧
      Whole host iovMax C H (inc' ++ u) a p p' out q := by
  refine run_whole handle more h ?_ (Nat.le_trans h.arrives.marks_le hfds) hawake.read hawake.ready
    hiov
  calc p.buffer.length + (elems inc).length
    _ ≤ C.length * maxImsgsize := h.arrives.bytes_le
    _ ≤ 2 * maxImsgsize := Nat.mul_le_mul_right _ hfew
    _ ≤ ibufReadSize := by decide

theorem Whole.turned_of_few {σ : Type*} {iovMax : ℕ} {p p' q : Feed (Peer σ) Byte}
    {a out : List (Token ℕ Byte)} {edges : Edges} (h : Whole host iovMax C H u a p p' out q)
    (hawake : Awake p inc edges) (hfew : p'.sink.composed.length ≤ iovMax)
    (hplain : p'.sink.composed.filterMap Prod.snd = [] ∨ p'.sink.composed.length ≤ 1) :
    Turned p p' out := by
  have hlen : q.sink.w.bufs.length ≤ p'.sink.composed.length := by
    have hbalanced := h.balanced
    have hqueue := hawake.few
    rw [h.composed]
    omega
  apply h.turned _ (Nat.le_trans hlen hfew)
  intro b hb
  rcases hplain with hnone | hone
  · have hclosed := h.linked.closed
    rw [← h.composed, hnone, List.append_eq_nil_iff, Msgbuf.tokens, marks_tokens] at hclosed
    exact List.filterMap_eq_nil_iff.mp hclosed.2 b (List.dropLast_subset _ hb)
  · have hnone : q.sink.w.bufs.dropLast = [] := by
      rw [← List.length_eq_zero_iff, List.length_dropLast]
      omega
    rw [hnone] at hb
    cases hb

end Bounds

/-! ## The start -/

section Start

variable {servOpts : Options} {opens : ℕ → Bool} {host : Endian} {iovMax : ℕ}
  {pidChild pidParent : Long} {addr : List Byte} {s t : Boot} {l l' : Link Child State}

theorem Started.composed_le {moves : List Move}
    (h : Started servOpts opens host iovMax pidChild pidParent moves l)
    (haddr : servOpts.addr = some addr) (hlen : (ofMemory addr).length < bufSize) :
    l.left.sink.composed.length ≤ 2 ∧ l.left.sink.composed.filterMap Prod.snd = [] ∧
      l.right.sink.composed.length ≤ 1 := by
  obtain ⟨⟨-, hchild⟩, -, hparent⟩ := h.follows
  replace hchild : l.left.sink.composed = _ := congrArg Prod.snd hchild
  replace hparent : l.right.sink.composed = _ := congrArg Prod.snd hparent
  have hexchange := h.exchange haddr hlen
  generalize l.left.sink.handled = cs at hexchange hchild
  generalize l.right.sink.handled = ps at hexchange hparent
  have hasked : cs = [] → l.left.sink.composed = [(createImsg pidChild, none)] := by
    rintro rfl
    exact hchild
  have hpassed : cs = [(deviceImsg pidParent, some 0)] → l.left.sink.composed =
      [(createImsg pidChild, none), (addressImsg pidChild addr hlen, none)] := by
    rintro rfl
    rwa [List.foldl_cons, answer_child_device haddr hlen] at hchild
  have hfirst (rest : List Passed) (hrest : ∀ m ∈ rest, m.1.type = imsgSetIp)
      (hps : ps = (createImsg pidChild, none) :: rest) : l.right.sink.composed.length ≤ 1 := by
    rw [hps, List.foldl_cons, answer_parent_create, foldl_answer_parent hrest] at hparent
    rw [hparent]
    cases opens 0 <;> simp
  cases hexchange with
  | start =>
    rw [hasked rfl, hparent]
    exact ⟨by simp, rfl, by simp⟩
  | asked => exact ⟨by simp [hasked rfl], by rw [hasked rfl]; rfl, hfirst [] nofun rfl⟩
  | passed => exact ⟨by simp [hpassed rfl], by rw [hpassed rfl]; rfl, hfirst [] nofun rfl⟩
  | done =>
    refine ⟨by simp [hpassed rfl], by rw [hpassed rfl]; rfl, hfirst _ ?_ rfl⟩
    rw [List.forall_mem_singleton]
    rfl

/-- What has changed and is still to be reported is enough to go on. -/
structure Boot.Due (servOpts : Options) (opens : ℕ → Bool) (host : Endian) (iovMax : ℕ)
    (pidChild pidParent : Long) (s : Boot) : Prop where
  started : ∃ moves, Started servOpts opens host iovMax pidChild pidParent moves s.link
  child : Awake s.link.left s.link.toLeft s.child
  parent : Awake s.link.right s.link.toRight s.parent

theorem Boot.due_start :
    (Boot.start host pidChild pidParent).Due servOpts opens host iovMax pidChild pidParent where
  started := ⟨[], .cons rfl (.nil _), nofun⟩
  child := by
    refine ⟨fun hne => absurd rfl hne, fun _ => rfl, .inr rfl, ?_⟩
    show (Peer.compose host {} createRequest _).w.bufs.length ≤
      (Peer.compose host {} createRequest _).composed.length
    rcases Peer.compose_cases host {} createRequest
      (Link.start (σ := Child) (τ := State) {} {} pidChild pidParent).left.sink with
      heq | ⟨m, b, -, -, -, heq⟩
    · rw [heq]
      exact Nat.le_refl _
    · rw [heq]
      exact Nat.le_refl _
  parent := ⟨fun hne => absurd rfl hne, fun _ => rfl, .inr rfl, Nat.le_refl _⟩

theorem Started.snoc {moves : List Move}
    (h : Started servOpts opens host iovMax pidChild pidParent moves l) {mv : Move}
    (hstep : l.step host iovMax (Child.handle servOpts) (State.handle servOpts opens) mv = some l')
    (hmv : mv.IsCallback ∧ mv.Sound ∧ mv.Allocated) :
    Started servOpts opens host iovMax pidChild pidParent (moves ++ [mv]) l' where
  run := by
    rw [← List.cons_append, run_append_iff]
    exact ⟨l, h.run, .cons hstep (.nil l')⟩
  sound := List.forall_mem_append.mpr ⟨h.sound, List.forall_mem_singleton.mpr hmv⟩

def Boot.todo (s : Boot) : ℕ :=
  workload s.link.left s.link.toLeft s.child + workload s.link.right s.link.toRight s.parent +
    4 * (3 - (s.link.left.sink.composed.length + s.link.right.sink.composed.length))

section Turns

variable (haddr : servOpts.addr = some addr) (hlen : (ofMemory addr).length < bufSize)
  (hiov : 2 ≤ iovMax)
include haddr hlen hiov

theorem Boot.Due.exists_step (h : s.Due servOpts opens host iovMax pidChild pidParent) (turn : Turn)
    (hdue : s.due turn = true) :
    ∃ t, s.step servOpts opens host iovMax turn = some t ∧
      t.Due servOpts opens host iovMax pidChild pidParent ∧ t.todo < s.todo := by
  obtain ⟨moves, hstarted⟩ := h.started
  obtain ⟨hleft, hfds, hright⟩ := hstarted.composed_le haddr hlen
  have hordered := Link.ordered_of_run hstarted.run fun mv hmv => (hstarted.sound_all mv hmv).1
  have hpos : 0 < iovMax := by omega
  cases turn with
  | child more freed =>
    have hone : (s.link.right.sink.composed.filterMap Prod.snd).length ≤ 1 :=
      Nat.le_trans (List.length_filterMap_le _ _) hright
    obtain ⟨p, inc, out, q, hrun, hnil, hwhole⟩ := hordered.left.run_awake (Child.handle servOpts)
      h.child more (by omega) hone hpos
    have hlink := Link.step_left (State.handle servOpts opens) hrun
    have hnext := hstarted.snoc hlink ⟨trivial, sound_wholeRecv _, fun _ => rfl, fun _ => rfl⟩
    obtain ⟨hcomposed, hnone, -⟩ := hnext.composed_le haddr hlen
    replace hcomposed : p.sink.composed.length ≤ 2 := hcomposed
    have hturned := hwhole.turned_of_few h.child (Nat.le_trans hcomposed hiov) (.inl hnone)
    have hlt :=
      hturned.workload_lt s.link.toLeft s.link.right s.link.toRight s.parent hnil hdue freed
    refine ⟨_, (if_pos hdue).trans (congrArg (Option.map _) hlink),
      ⟨⟨_, hnext⟩, hturned.awake hnil, h.parent.told out _⟩, ?_⟩
    simp only [Boot.todo, Boot.childRan]
    omega
  | parent more freed =>
    have hone : (s.link.left.sink.composed.filterMap Prod.snd).length ≤ 1 := by simp [hfds]
    obtain ⟨p, inc, out, q, hrun, hnil, hwhole⟩ :=
      hordered.right.run_awake (State.handle servOpts opens) h.parent more hleft hone hpos
    have hlink := Link.step_right (Child.handle servOpts) hrun
    have hnext := hstarted.snoc hlink ⟨trivial, sound_wholeRecv _, fun _ => rfl, fun _ => rfl⟩
    obtain ⟨-, -, hcomposed⟩ := hnext.composed_le haddr hlen
    replace hcomposed : p.sink.composed.length ≤ 1 := hcomposed
    have hturned := hwhole.turned_of_few h.parent (by omega) (.inr hcomposed)
    have hlt :=
      hturned.workload_lt s.link.toRight s.link.left s.link.toLeft s.child hnil hdue freed
    refine ⟨_, (if_pos hdue).trans (congrArg (Option.map _) hlink),
      ⟨⟨_, hnext⟩, h.child.told out _, hturned.awake hnil⟩, ?_⟩
    simp only [Boot.todo, Boot.parentRan]
    omega

theorem Boot.Due.step_cases (h : s.Due servOpts opens host iovMax pidChild pidParent) {turn : Turn}
    (hstep : s.step servOpts opens host iovMax turn = some t) :
    t.Due servOpts opens host iovMax pidChild pidParent ∧ t.todo < s.todo := by
  have hdue : s.due turn = true := by
    by_contra hno
    have hnone : s.step servOpts opens host iovMax turn = none := by
      cases turn with
      | child => exact if_neg hno
      | parent => exact if_neg hno
    rw [hnone] at hstep
    cases hstep
  obtain ⟨t', ht', hnext⟩ := h.exists_step haddr hlen hiov turn hdue
  cases ht'.symm.trans hstep
  exact hnext

theorem Boot.Due.quiet_of_final (h : s.Due servOpts opens host iovMax pidChild pidParent)
    (hfinal : Final (Boot.step servOpts opens host iovMax) s) : s.link.Quiet := by
  have hnone (turn : Turn) : ¬ s.due turn = true := by
    intro hdue
    obtain ⟨t, ht, -⟩ := h.exists_step haddr hlen hiov turn hdue
    cases (hfinal _).symm.trans ht
  obtain ⟨hchildRead, hchildWrite⟩ :=
    not_or.mp fun hor => hnone (.child {} false) (Bool.or_eq_true _ _ ▸ hor)
  obtain ⟨hparentRead, hparentWrite⟩ :=
    not_or.mp fun hor => hnone (.parent {} false) (Bool.or_eq_true _ _ ▸ hor)
  constructor
  · rw [Msgbuf.queued_eq, List.length_eq_zero_iff]
    exact by_contra fun hne => hchildWrite (h.child.queue hne)
  · rw [Msgbuf.queued_eq, List.length_eq_zero_iff]
    exact by_contra fun hne => hparentWrite (h.parent.queue hne)
  · exact by_contra fun hne => hchildRead (h.child.read hne)
  · exact by_contra fun hne => hparentRead (h.parent.read hne)

end Turns

/--
While the sockets take and give everything at once, the start comes to an end however the two event
loops take turns, and at its end the server has the device and the device is up: no callback waits
for a change that has been reported before.
-/
theorem startup_ends (haddr : servOpts.addr = some addr) (hlen : (ofMemory addr).length < bufSize)
    (hopen : opens 0 = true) (hiov : 2 ≤ iovMax) :
    Ends (Boot.step servOpts opens host iovMax)
      (fun s => s.link.left.sink.app.devices = [some 0] ∧
        s.link.right.sink.app.ops = setupOps servOpts (addressImsg pidChild addr hlen))
      (Boot.start host pidChild pidParent) := by
  have hkeep (s : Boot) (turn : Turn) (t : Boot)
      (h : s.Due servOpts opens host iovMax pidChild pidParent)
      (ht : s.step servOpts opens host iovMax turn = some t) := h.step_cases haddr hlen hiov ht
  constructor
  · exact terminates_of_measure Boot.todo (fun s turn t h ht => (hkeep s turn t h ht).1)
      (fun s turn t h ht => (hkeep s turn t h ht).2) Boot.due_start
  · intro turns s hrun hfinal
    have hdue : s.Due servOpts opens host iovMax pidChild pidParent :=
      hrun.invariant (fun s turn t h ht => (hkeep s turn t h ht).1) Boot.due_start
    obtain ⟨moves, hstarted⟩ := hdue.started
    have hquiet := hdue.quiet_of_final haddr hlen hiov hfinal
    obtain ⟨hchild, hparent⟩ := hstarted.set_up haddr hlen hopen hquiet
    rw [hchild, hparent]
    exact ⟨rfl, (ops_setIp servOpts hopen rfl hlen).1⟩

theorem startup_ends_shortAddress :
    Ends (Boot.step shortAddress (fun _ => true) .little 1024)
      (fun s => s.link.left.sink.app.devices = [some 0] ∧
        s.link.right.sink.app.ops =
          setupOps shortAddress (addressImsg 1 _ length_shortAddress))
      (Boot.start .little 1 2) :=
  startup_ends rfl length_shortAddress rfl (by decide)

end Start

end Tnetacle.Privileged
