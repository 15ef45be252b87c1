import Tnetacle.Library.Run
import Tnetacle.Privileged.Ibuf

/-! # Two processes with a socket between them

Both event loops have the same callback: it reads once, handles the messages that are complete, each
with its descriptor, and writes once. What the handlers do with a message is left open here,
as is how the socket cuts what it is given.
-/

namespace Tnetacle.Privileged

open ByteOrder Framing Runs Sideband

def ibufReadSize : ℕ := 65535

/-- What `recvmsg` does: it fails, has nothing, reports the end, or stores `k` bytes; and whether
a descriptor that comes with them can be queued. -/
inductive Recv
  | failed
  | again
  | closed
  | got (k : ℕ) (calloc : Bool)
  deriving DecidableEq

abbrev Passed := Imsg × Option ℕ

/--
A process with its `struct imsgbuf`, apart from the bytes that it has read. What it has composed
and handled is recorded.
-/
structure Peer (σ : Type*) where
  app : σ
  pid : Long
  w : Msgbuf := msgbufInit
  fds : List ℕ := []
  readyRead : Bool := false
  readyWrite : Bool := false
  composed : List Passed := []
  handled : List Passed := []

/-- What happens around one call of the callback: the events, the results of the system calls and
those of the allocator, for the data of a message and for the answer to the message of a number. -/
structure Event where
  read : Bool
  write : Bool
  recv : Recv := .again
  send : Send := .again
  malloc : List Byte → Bool := fun _ => true
  alloc : ℕ → Alloc := fun _ => {}

section Process

variable {σ : Type*} (host : Endian) (iovMax : ℕ)
  (handle : σ → Imsg → Option ℕ → σ × Option Request)

/-- `imsg_compose`. -/
def Peer.compose (alloc : Alloc) (req : Request) (p : Peer σ) : Peer σ :=
  match composeIbuf host alloc p.pid req with
  | none => p
  | some b =>
    { p with
      w := ibufEnqueue p.w b
      composed := p.composed ++ ((req.imsg alloc p.pid).map (·, req.fd)).toList }

/-- The part of `imsg_get` that is about the descriptor, with `imsg_get_fd`. -/
def getFd (imsg : Imsg) (fds : List ℕ) : Option ℕ × List ℕ :=
  if imsg.flags &&& imsgfHasfd = 0 then (none, fds) else (fds.head?, fds.tail)

def Peer.emit (alloc : ℕ → Alloc) (p : Peer σ) (imsg : Imsg) : Peer σ :=
  let get := getFd imsg p.fds
  let out := handle p.app imsg get.1
  let q := { p with app := out.1, fds := get.2, handled := p.handled ++ [(imsg, get.1)] }
  match out.2 with
  | none => q
  | some req => q.compose host (alloc p.handled.length) req

/-- `imsg_clear` also closes the descriptors that have come in. -/
def Peer.imsgClear (p : Peer σ) : Peer σ :=
  { p with
    w := { msgbufClear p.w with closed := (msgbufClear p.w).closed ++ p.fds }
    fds := [] }

def received (p : Feed (Peer σ) Byte) (t : List (Token ℕ Byte)) : Feed (Peer σ) Byte :=
  { p with
    buffer := p.buffer ++ elems t
    sink := { p.sink with fds := p.sink.fds ++ marks t } }

/-- `imsg_read`: the process, what is left in the socket, and what is returned. -/
def imsgRead (p : Feed (Peer σ) Byte) (inc : List (Token ℕ Byte)) :
    Recv → Feed (Peer σ) Byte × List (Token ℕ Byte) × Int
  | .failed => (p, inc, -1)
  | .again => (p, inc, -2)
  | .closed => (p, inc, 0)
  | .got k calloc =>
    let t := split inc k
    if calloc || (marks t.1).isEmpty then (received p t.1, t.2, k)
    else
      ({ p with
        buffer := p.buffer ++ elems t.1
        sink := { p.sink with
          w := { p.sink.w with closed := p.sink.w.closed ++ marks t.1 } } }, t.2, -1)

/-- `dispatch_imsg` and `tnt_dispatch_imsg`, with their own handlers; whether `0` is returned. -/
def dispatchWith (p : Feed (Peer σ) Byte) (inc : List (Token ℕ Byte)) (ev : Event) :
    Feed (Peer σ) Byte × List (Token ℕ Byte) × Bool :=
  let r := imsgRead p inc ev.recv
  if r.2.2 = -1 then ({ r.1 with sink := r.1.sink.imsgClear }, r.2.1, false)
  else if r.2.2 = 0 then (r.1, r.2.1, false)
  else
    let q := loop (imsgNext host ev.malloc) (Peer.emit host handle ev.alloc) r.1.buffer.length r.1
    (q, r.2.1, imsgGet host (ev.malloc q.buffer) q.buffer ≠ .error)

/-- What the socket can do for a process that reads: of the bytes in it, `recvmsg` gives some, with
one descriptor at most; without room for any it returns `0`. -/
def Recv.Allowed (buffer : List Byte) (inc : List (Token ℕ Byte)) : Recv → Prop
  | .failed | .again => True
  | .closed => ibufReadSize ≤ buffer.length
  | .got k _ => 0 < k ∧ buffer.length + k ≤ ibufReadSize ∧ k ≤ (elems inc).length ∧
    (marks (split inc k).1).length ≤ 1

instance (buffer : List Byte) (inc : List (Token ℕ Byte)) :
    (r : Recv) → Decidable (r.Allowed buffer inc)
  | .failed | .again => .isTrue trivial
  | .closed => inferInstanceAs (Decidable (_ ≤ _))
  | .got _ _ => inferInstanceAs (Decidable (_ ∧ _ ∧ _ ∧ _))

/-- `sendmsg` takes some of the bytes that it is given. -/
def Send.Allowed (w : Msgbuf) : Send → Prop
  | .sent n => 0 < n ∧ n ≤ (iov iovMax w.bufs).1.length
  | _ => True

instance (w : Msgbuf) : (r : Send) → Decidable (r.Allowed iovMax w)
  | .again | .failed | .closed => .isTrue trivial
  | .sent _ => inferInstanceAs (Decidable (_ ∧ _))

def readPart (p : Feed (Peer σ) Byte) (inc : List (Token ℕ Byte)) (ev : Event) :
    Option (Feed (Peer σ) Byte × List (Token ℕ Byte)) :=
  if ev.read || p.sink.readyRead then
    if ev.recv.Allowed p.buffer inc then
      let d := dispatchWith host handle p inc ev
      some ({ d.1 with sink := { d.1.sink with readyRead := d.2.2 } }, d.2.1)
    else none
  else some (p, inc)

def writePart (p : Feed (Peer σ) Byte) (ev : Event) :
    Option (Feed (Peer σ) Byte × List (Token ℕ Byte)) :=
  if ev.write || p.sink.readyWrite then
    if 0 < p.sink.w.queued then
      if ev.send.Allowed iovMax p.sink.w then
        let r := msgbufWrite iovMax p.sink.w ev.send
        some ({ p with sink := { p.sink with w := r.1, readyWrite := r.2.1 ≠ -1 } }, r.2.2)
      else none
    else some ({ p with sink := { p.sink with readyWrite := true } }, [])
  else some (p, [])

inductive Action
  | compose (alloc : Alloc) (req : Request)
  | callback (ev : Event)

def Action.run (p : Feed (Peer σ) Byte) (inc : List (Token ℕ Byte)) :
    Action → Option (Feed (Peer σ) Byte × List (Token ℕ Byte) × List (Token ℕ Byte))
  | .compose alloc req => some ({ p with sink := p.sink.compose host alloc req }, inc, [])
  | .callback ev => (readPart host handle p inc ev).bind fun r =>
      (writePart iovMax r.1 ev).map fun w => (w.1, r.2, w.2)

end Process

/-! ## One direction -/

def Passed.Flagged (m : Passed) : Prop := m.1.flags = if m.2 = none then 0 else imsgfHasfd

def Passed.frame (host : Endian) (m : Passed) : List (Token ℕ Byte) :=
  Sideband.frame m.2 (m.1.encode host)

/-- Of the composed messages, those that are not handled yet are on their way. -/
def Carries (host : Endian) (composed handled : List Passed) (t : List (Token ℕ Byte)) : Prop :=
  ∃ pending, composed = handled ++ pending ∧ (∀ m ∈ pending, m.Flagged) ∧
    Early t (pending.flatMap (Passed.frame host))

section Direction

variable {host : Endian} {C H : List Passed} {t u : List (Token ℕ Byte)} {m : Imsg}
  {buf rest : List Byte} {malloc : Bool}

theorem Imsg.encode_ne_nil (m : Imsg) : m.encode host ≠ [] := by
  intro h
  have hlen := length_encode host m
  rw [h, imsgHeaderSize] at hlen
  simp only [List.length_nil] at hlen
  omega

theorem imsgGet_false_ne (buf : List Byte) : imsgGet host false buf ≠ .message m rest := by
  unfold imsgGet
  split
  · simp only
    split_ifs <;> simp
  · simp

/-- What can stand at the beginning of a stream of messages. -/
theorem prefix_stream_cases {ms : List Imsg} (h : buf <+: stream (Imsg.encode host) ms) :
    (ms = [] ∧ buf = []) ∨ ∃ m ms', ms = m :: ms' ∧
      ((buf.length < (m.encode host).length ∧ buf = (m.encode host).take buf.length) ∨
        ∃ rest, buf = m.encode host ++ rest) := by
  cases ms with
  | nil => exact .inl ⟨rfl, List.prefix_nil.mp h⟩
  | cons m ms =>
    refine .inr ⟨m, ms, rfl, ?_⟩
    rw [stream_cons] at h
    rcases List.prefix_or_prefix_of_prefix h (List.prefix_append _ _) with hbuf | ⟨rest, hrest⟩
    · rcases Nat.lt_or_eq_of_le hbuf.length_le with hlt | heq
      · exact .inl ⟨hlt, List.prefix_iff_eq_take.mp hbuf⟩
      · exact .inr ⟨[], by rw [List.append_nil, hbuf.eq_of_length heq]⟩
    · exact .inr ⟨rest, hrest.symm⟩

theorem imsgGet_of_prefix {ms : List Imsg} (hpre : buf <+: stream (Imsg.encode host) ms)
    (h : imsgGet host malloc buf = .message m rest) :
    ∃ ms', ms = m :: ms' ∧ buf = m.encode host ++ rest := by
  rcases prefix_stream_cases hpre with ⟨-, rfl⟩ | ⟨m', ms', rfl, ⟨hlt, hbuf⟩ | ⟨rest', rfl⟩⟩
  · cases h
  · rw [hbuf, imsgGet_take_encode host m' malloc hlt] at h
    cases h
  · cases malloc with
    | false => exact absurd h (imsgGet_false_ne _)
    | true =>
      rw [imsgGet_encode] at h
      obtain ⟨rfl, rfl⟩ := Got.message.inj h
      exact ⟨ms', rfl, rfl⟩

theorem elems_frames (ms : List Passed) :
    elems (ms.flatMap (Passed.frame host)) = stream (Imsg.encode host) (ms.map Prod.fst) := by
  induction ms with
  | nil => rfl
  | cons m ms ih =>
    rw [List.flatMap_cons, elems_append, ih, Passed.frame, elems_frame, List.map_cons, stream_cons]

theorem Carries.early (h : Carries host C H u) (hearly : Early t u) : Carries host C H t := by
  obtain ⟨pending, hC, hflags, hpending⟩ := h
  exact ⟨pending, hC, hflags, hearly.trans hpending⟩

theorem Carries.snoc (h : Carries host C H t) {m : Passed} (hm : m.Flagged) :
    Carries host (C ++ [m]) H (t ++ m.frame host) := by
  obtain ⟨pending, rfl, hflags, hpending⟩ := h
  refine ⟨pending ++ [m], List.append_assoc _ _ _, ?_, ?_⟩
  · intro m' hm'
    rcases List.mem_append.mp hm' with hold | hnew
    · exact hflags m' hold
    · exact List.mem_singleton.mp hnew ▸ hm
  · rw [List.flatMap_append, List.flatMap_singleton]
    exact hpending.append (early_refl _)

theorem getFd_of_flagged {fd : Option ℕ} {fds : List ℕ} (h : Passed.Flagged (m, fd)) :
    getFd m (fd.toList ++ fds) = (fd, fds) := by
  rw [Passed.Flagged] at h
  cases fd <;> simp_all [getFd, imsgfHasfd]

theorem Carries.get {fds : List ℕ} (h : Carries host C H (apart fds buf ++ t))
    (hget : imsgGet host malloc buf = .message m rest) :
    Carries host C (H ++ [(m, (getFd m fds).1)]) (apart (getFd m fds).2 rest ++ t) := by
  obtain ⟨pending, rfl, hflags, hpending⟩ := h
  have hprefix : buf <+: stream (Imsg.encode host) (pending.map Prod.fst) := by
    rw [← elems_frames, ← hpending.elems_eq]
    simp [apart]
  obtain ⟨ms, hms, rfl⟩ := imsgGet_of_prefix hprefix hget
  obtain ⟨⟨m', fd⟩, pending, rfl, rfl, rfl⟩ := List.map_eq_cons_iff.mp hms
  rw [List.forall_mem_cons] at hflags
  obtain ⟨fds, rfl, hearly⟩ := hpending.of_frame m'.encode_ne_nil
  rw [getFd_of_flagged hflags.1]
  exact ⟨pending, List.append_cons _ _ _, hflags.2, hearly⟩

/-- Nothing is left to handle exactly when nothing is on its way. -/
theorem Carries.eq_iff {fds : List ℕ} {w : Msgbuf}
    (h : Carries host C H (apart fds buf ++ (t ++ w.tokens))) (hw : w.Waiting) :
    H = C ↔ w.queued = 0 ∧ t = [] ∧ buf = [] := by
  obtain ⟨pending, rfl, -, hpending⟩ := h
  rw [List.self_eq_append_right, ← hw.tokens_eq_nil_iff]
  constructor
  · rintro rfl
    obtain ⟨hbuf, hrest⟩ := List.append_eq_nil_iff.mp hpending.eq_nil
    obtain ⟨ht, hqueue⟩ := List.append_eq_nil_iff.mp hrest
    refine ⟨by rw [hqueue]; rfl, ht, ?_⟩
    exact List.map_eq_nil_iff.mp (List.append_eq_nil_iff.mp hbuf).2
  · rintro ⟨hqueue, rfl, rfl⟩
    have helems := hpending.elems_eq
    rw [elems_frames] at helems
    cases pending with
    | nil => rfl
    | cons m pending =>
      rw [List.map_cons, stream_cons] at helems
      simp [apart, hqueue, m.1.encode_ne_nil] at helems

theorem Carries.eq_of_rested {fds : List ℕ} (h : Carries host C H (apart fds buf ++ t))
    (ht : elems t = []) (hrest : ∀ m rest, imsgGet host true buf ≠ .message m rest) : H = C := by
  obtain ⟨pending, rfl, -, hpending⟩ := h
  have helems := hpending.elems_eq
  rw [elems_frames] at helems
  simp only [apart, elems_append, elems_map_mark, elems_map_data, ht, List.nil_append,
    List.append_nil] at helems
  cases pending with
  | nil => rw [List.append_nil]
  | cons m pending =>
    rw [List.map_cons, stream_cons] at helems
    exact absurd (helems ▸ imsgGet_encode host m.1 _) (hrest m.1 _)

theorem marks_frames (ms : List Passed) :
    marks (ms.flatMap (Passed.frame host)) = ms.filterMap Prod.snd := by
  induction ms with
  | nil => rfl
  | cons m ms ih =>
    rw [List.flatMap_cons, marks_append, ih, Passed.frame, marks_frame]
    cases hfd : m.2 <;> simp [hfd]

theorem Carries.fds_eq {fds : List ℕ} (h : Carries host C H (apart fds buf ++ t)) :
    C.filterMap Prod.snd = H.filterMap Prod.snd ++ (fds ++ marks t) := by
  obtain ⟨pending, rfl, -, hpending⟩ := h
  have hmarks := hpending.marks_eq
  rw [marks_frames] at hmarks
  rw [List.filterMap_append, ← hmarks]
  simp [apart]

theorem length_lt_of_imsgGet (h : imsgGet host malloc buf = .message m rest) :
    rest.length < buf.length := by
  unfold imsgGet at h
  split at h
  · simp only at h
    split_ifs at h
    obtain ⟨-, rfl⟩ := Got.message.inj h
    simp only [List.length_drop, List.length_cons]
    omega
  · cases h

theorem Carries.length_lt {fds : List ℕ} (h : Carries host C H (apart fds buf ++ t))
    (hrest : ∀ m rest, imsgGet host true buf ≠ .message m rest) : buf.length < maxImsgsize := by
  obtain ⟨pending, -, -, hpending⟩ := h
  have hprefix : buf <+: stream (Imsg.encode host) (pending.map Prod.fst) := by
    rw [← elems_frames, ← hpending.elems_eq]
    simp [apart]
  rcases prefix_stream_cases hprefix with ⟨-, rfl⟩ | ⟨m, ms, -, ⟨hlt, -⟩ | ⟨rest, rfl⟩⟩
  · decide
  · have hmax := m.le_max
    rw [length_encode] at hlt
    rw [maxImsgsize, imsgHeaderSize] at *
    omega
  · exact absurd (imsgGet_encode host m rest) (hrest m rest)

end Direction

/-! ## One process -/

/--
A process between what comes to it and what it sends: the messages `C` of the other one, which
arrive through `t`, and its own, of which the other one has handled `H`, behind `a`. Of its
descriptors, it has closed those that it has sent.
-/
structure Linked {σ : Type*} (host : Endian) (C H : List Passed) (t a : List (Token ℕ Byte))
    (p : Feed (Peer σ) Byte) : Prop where
  arrives : Carries host C p.sink.handled (apart p.sink.fds p.buffer ++ t)
  leaves : Carries host p.sink.composed H (a ++ p.sink.w.tokens)
  closed : p.sink.w.closed ++ marks p.sink.w.tokens = p.sink.composed.filterMap Prod.snd
  waiting : p.sink.w.Waiting

/-- No call of `imsg_read` fails. -/
def Recv.Sound : Recv → Prop
  | .failed | .got _ false => False
  | _ => True

def Action.Sound : Action → Prop
  | .compose _ _ => True
  | .callback ev => ev.recv.Sound

section Process

variable {σ : Type*} {host : Endian} {iovMax : ℕ}
  {handle : σ → Imsg → Option ℕ → σ × Option Request} {C H : List Passed}
  {t u a inc inc' out : List (Token ℕ Byte)} {p p' : Feed (Peer σ) Byte} {ev : Event}

theorem Peer.compose_cases (host : Endian) (alloc : Alloc) (req : Request) (q : Peer σ) :
    q.compose host alloc req = q ∨ ∃ (m : Passed) (b : Ibuf), m.Flagged ∧
      b.tokens = m.frame host ∧ b.rpos < b.wpos ∧ q.compose host alloc req =
        { q with w := ibufEnqueue q.w b, composed := q.composed ++ [m] } := by
  rw [Peer.compose]
  cases hm : req.imsg alloc q.pid with
  | none =>
    rw [composeIbuf_of_none hm]
    exact .inl rfl
  | some m =>
    obtain ⟨b, hb, hbuf, hfd, hrpos⟩ := composeIbuf_of_some host hm
    rw [hb]
    refine .inr ⟨(m, req.fd), b, ?_, ?_, ?_, rfl⟩
    · obtain ⟨m₀, -, rfl⟩ := Option.map_eq_some_iff.mp hm
      rfl
    · rw [Ibuf.tokens, Passed.frame, Ibuf.pending, hrpos, List.drop_zero, hbuf, hfd]
    · rw [Ibuf.wpos, hrpos, hbuf]
      exact List.length_pos_iff.mpr m.encode_ne_nil

theorem Linked.compose (h : Linked host C H t a p) (alloc : Alloc) (req : Request) :
    Linked host C H t a { p with sink := p.sink.compose host alloc req } := by
  rcases p.sink.compose_cases host alloc req with heq | ⟨m, b, hm, hb, hpos, heq⟩
  · rw [heq]
    exact h
  · rw [heq]
    refine ⟨h.arrives, ?_, ?_, ?_⟩
    · have hsnoc := h.leaves.snoc hm
      rwa [List.append_assoc, ← hb, ← tokens_ibufEnqueue] at hsnoc
    · show p.sink.w.closed ++ marks (ibufEnqueue p.sink.w b).tokens = _
      rw [tokens_ibufEnqueue, marks_append, ← List.append_assoc, h.closed, hb, Passed.frame,
        marks_frame, List.filterMap_append]
      cases hfd : m.2 <;> simp [hfd]
    · intro b' hb'
      rcases List.mem_append.mp hb' with hold | hnew
      · exact h.waiting b' hold
      · exact List.mem_singleton.mp hnew ▸ hpos

theorem Linked.emit (h : Linked host C H t a p) (alloc : ℕ → Alloc) {m : Imsg} {rest : List Byte}
    {malloc : Bool} (hget : imsgGet host malloc p.buffer = .message m rest) :
    Linked host C H t a
      { p with buffer := rest, sink := p.sink.emit host handle alloc m } := by
  have hgot : Linked host C H t a
      { p with
        buffer := rest
        sink := { p.sink with
          app := (handle p.sink.app m (getFd m p.sink.fds).1).1
          fds := (getFd m p.sink.fds).2
          handled := p.sink.handled ++ [(m, (getFd m p.sink.fds).1)] } } :=
    ⟨h.arrives.get hget, h.leaves, h.closed, h.waiting⟩
  rw [Peer.emit]
  cases (handle p.sink.app m (getFd m p.sink.fds).1).2 with
  | none => exact hgot
  | some req => exact hgot.compose _ req

theorem imsgNext_eq_take {malloc : List Byte → Bool} {buf : List Byte} {m : Imsg}
    {rest : List Byte} (h : imsgNext host malloc buf = .take m rest) :
    imsgGet host (malloc buf) buf = .message m rest := by
  rw [imsgNext] at h
  cases hget : imsgGet host (malloc buf) buf with
  | nothing => rw [hget] at h; cases h
  | error => rw [hget] at h; cases h
  | message m' rest' =>
    rw [hget] at h
    obtain ⟨rfl, rfl⟩ := Next.take.inj h
    rfl

theorem imsgNext_ne_fault (malloc : List Byte → Bool) (buf : List Byte) :
    imsgNext host malloc buf ≠ .fault := by
  rw [imsgNext]
  cases imsgGet host (malloc buf) buf <;> simp

theorem Linked.loop (h : Linked host C H t a p) (malloc : List Byte → Bool) (alloc : ℕ → Alloc)
    (n : ℕ) :
    Linked host C H t a (loop (imsgNext host malloc) (Peer.emit host handle alloc) n p) := by
  apply loop_invariant _ _ (P := Linked host C H t a) _ _ n h
  · intro s m rest hs hnext
    exact hs.emit alloc (imsgNext_eq_take hnext)
  · intro s _ hnext
    exact absurd hnext (imsgNext_ne_fault malloc s.buffer)

theorem Linked.received (h : Linked host C H (inc ++ u) a p) :
    Linked host C H u a (received p inc) :=
  ⟨h.arrives.early (early_apart_append p.sink.fds p.buffer inc u), h.leaves, h.closed, h.waiting⟩

/-- The two ways of a call that does not fail: without room for a byte it ends at once. -/
theorem dispatchWith_cases (host : Endian)
    (handle : σ → Imsg → Option ℕ → σ × Option Request) (hsound : ev.recv.Sound)
    (hallowed : ev.recv.Allowed p.buffer inc) :
    (ibufReadSize ≤ p.buffer.length ∧ dispatchWith host handle p inc ev = (p, inc, false)) ∨
      ∃ t, inc = t ++ (dispatchWith host handle p inc ev).2.1 ∧
        (dispatchWith host handle p inc ev).1 =
          loop (imsgNext host ev.malloc) (Peer.emit host handle ev.alloc)
            (received p t).buffer.length (received p t) := by
  rw [dispatchWith]
  cases hrecv : ev.recv with
  | failed => rw [hrecv] at hsound; exact hsound.elim
  | again =>
    have hnothing : received p [] = p := by simp [received, elems, marks]
    exact .inr ⟨[], rfl, by rw [hnothing]; rfl⟩
  | closed =>
    rw [hrecv] at hallowed
    exact .inl ⟨hallowed, rfl⟩
  | got k calloc =>
    cases calloc with
    | false => rw [hrecv] at hsound; exact hsound.elim
    | true =>
      rw [hrecv] at hallowed
      have hk := hallowed.1
      simp only [imsgRead, Bool.true_or, if_true]
      rw [if_neg (by omega), if_neg (by omega)]
      exact .inr ⟨(split inc k).1, (split_append inc k).symm, rfl⟩

theorem Linked.dispatch (h : Linked host C H (inc ++ u) a p)
    (handle : σ → Imsg → Option ℕ → σ × Option Request) (hsound : ev.recv.Sound)
    (hallowed : ev.recv.Allowed p.buffer inc) :
    Linked host C H ((dispatchWith host handle p inc ev).2.1 ++ u) a
      (dispatchWith host handle p inc ev).1 := by
  rcases dispatchWith_cases host handle hsound hallowed with
    ⟨-, heq⟩ | ⟨t, hinc, heq⟩
  · rw [heq]
    exact h
  · rw [heq]
    rw [hinc, List.append_assoc] at h
    exact h.received.loop _ _ _

def Rested (host : Endian) (p : Feed (Peer σ) Byte) : Prop :=
  ∀ m rest, imsgGet host true p.buffer ≠ .message m rest

theorem rested_loop {malloc : List Byte → Bool} (hmalloc : ∀ buf, malloc buf = true)
    (alloc : ℕ → Alloc) (p : Feed (Peer σ) Byte) :
    Rested host (loop (imsgNext host malloc) (Peer.emit host handle alloc) p.buffer.length p) := by
  intro m rest hget
  rcases loop_rests (imsgNext host malloc) (Peer.emit host handle alloc)
    (fun buf x rest hx => length_lt_of_imsgGet (imsgNext_eq_take hx)) (Nat.le_refl _) with
    hnil | hwait
  · rw [hnil] at hget
    cases hget
  · apply hwait m rest
    rw [imsgNext, hmalloc, hget]

theorem Rested.dispatch (h : Rested host p) (hsound : ev.recv.Sound)
    (hallowed : ev.recv.Allowed p.buffer inc) (hmalloc : ∀ buf, ev.malloc buf = true) :
    Rested host (dispatchWith host handle p inc ev).1 := by
  rcases dispatchWith_cases host handle hsound hallowed with
    ⟨-, heq⟩ | ⟨t, -, heq⟩
  · rw [heq]
    exact h
  · rw [heq]
    exact rested_loop hmalloc _ _

theorem readPart_eq_some (h : readPart host handle p inc ev = some (p', inc')) :
    (p' = p ∧ inc' = inc) ∨ ev.recv.Allowed p.buffer inc ∧
      ∃ ready, p' = { (dispatchWith host handle p inc ev).1 with
          sink := { (dispatchWith host handle p inc ev).1.sink with readyRead := ready } } ∧
        inc' = (dispatchWith host handle p inc ev).2.1 := by
  rw [readPart] at h
  split at h
  · split at h
    · next hallowed =>
      obtain ⟨rfl, rfl⟩ := Prod.mk.inj (Option.some.inj h)
      exact .inr ⟨hallowed, _, rfl, rfl⟩
    · cases h
  · obtain ⟨rfl, rfl⟩ := Prod.mk.inj (Option.some.inj h)
    exact .inl ⟨rfl, rfl⟩

theorem Linked.readPart (h : Linked host C H (inc ++ u) a p) (hsound : ev.recv.Sound)
    (hread : readPart host handle p inc ev = some (p', inc')) :
    Linked host C H (inc' ++ u) a p' := by
  rcases readPart_eq_some hread with ⟨rfl, rfl⟩ | ⟨hallowed, ready, rfl, rfl⟩
  · exact h
  · have hdispatch := h.dispatch handle hsound hallowed
    exact ⟨hdispatch.arrives, hdispatch.leaves, hdispatch.closed, hdispatch.waiting⟩

theorem Linked.write (h : Linked host C H t a p) {r : Send} (hr : r.Allowed iovMax p.sink.w)
    (ready : Bool) :
    Linked host C H t (a ++ (msgbufWrite iovMax p.sink.w r).2.2)
      { p with sink := { p.sink with
          w := (msgbufWrite iovMax p.sink.w r).1, readyWrite := ready } } := by
  have hnothing : Linked host C H t (a ++ []) p := by rwa [List.append_nil]
  cases r with
  | again => exact ⟨hnothing.arrives, hnothing.leaves, hnothing.closed, hnothing.waiting⟩
  | failed => exact ⟨hnothing.arrives, hnothing.leaves, hnothing.closed, hnothing.waiting⟩
  | closed => exact ⟨hnothing.arrives, hnothing.leaves, hnothing.closed, hnothing.waiting⟩
  | sent n =>
    obtain ⟨hearly, hclosed⟩ := msgbufWrite_sent hr.2
    refine ⟨h.arrives, ?_, hclosed.trans h.closed, h.waiting.write iovMax (.sent n)⟩
    apply h.leaves.early
    rw [List.append_assoc]
    exact (early_refl a).append hearly

theorem writePart_eq_some (h : writePart iovMax p ev = some (p', out)) :
    (∃ ready, p' = { p with sink := { p.sink with readyWrite := ready } } ∧ out = []) ∨
      ev.send.Allowed iovMax p.sink.w ∧
        ∃ ready, p' = { p with sink := { p.sink with
            w := (msgbufWrite iovMax p.sink.w ev.send).1, readyWrite := ready } } ∧
          out = (msgbufWrite iovMax p.sink.w ev.send).2.2 := by
  rw [writePart] at h
  split at h
  · split at h
    · split at h
      · next hallowed =>
        obtain ⟨rfl, rfl⟩ := Prod.mk.inj (Option.some.inj h)
        exact .inr ⟨hallowed, _, rfl, rfl⟩
      · cases h
    · obtain ⟨rfl, rfl⟩ := Prod.mk.inj (Option.some.inj h)
      exact .inl ⟨_, rfl, rfl⟩
  · obtain ⟨rfl, rfl⟩ := Prod.mk.inj (Option.some.inj h)
    exact .inl ⟨_, rfl, rfl⟩

theorem Linked.writePart (h : Linked host C H t a p)
    (hwrite : writePart iovMax p ev = some (p', out)) : Linked host C H t (a ++ out) p' := by
  rcases writePart_eq_some hwrite with ⟨ready, rfl, rfl⟩ | ⟨hallowed, ready, rfl, rfl⟩
  · rw [List.append_nil]
    exact ⟨h.arrives, h.leaves, h.closed, h.waiting⟩
  · exact h.write hallowed ready

theorem run_callback_eq_some
    (h : (Action.callback ev).run host iovMax handle p inc = some (p', inc', out)) :
    ∃ q, readPart host handle p inc ev = some (q, inc') ∧
      writePart iovMax q ev = some (p', out) := by
  obtain ⟨⟨q, inc₁⟩, hread, hrest⟩ := Option.bind_eq_some_iff.mp h
  obtain ⟨⟨q', out'⟩, hwrite, heq⟩ := Option.map_eq_some_iff.mp hrest
  obtain ⟨rfl, rfl, rfl⟩ := by simpa only [Prod.mk.injEq] using heq
  exact ⟨q, hread, hwrite⟩

theorem Linked.run (h : Linked host C H (inc ++ u) a p) {act : Action} (hsound : act.Sound)
    (hrun : act.run host iovMax handle p inc = some (p', inc', out)) :
    Linked host C H (inc' ++ u) (a ++ out) p' := by
  cases act with
  | compose alloc req =>
    rw [Action.run] at hrun
    cases hrun
    rw [List.append_nil]
    exact h.compose alloc req
  | callback ev =>
    obtain ⟨q, hread, hwrite⟩ := run_callback_eq_some hrun
    exact (h.readPart hsound hread).writePart hwrite

def Action.Allocated : Action → Prop
  | .compose alloc _ => alloc.malloc = true
  | .callback ev => (∀ buf, ev.malloc buf = true) ∧ ∀ n, (ev.alloc n).malloc = true

theorem Rested.run (h : Rested host p) {act : Action} (hsound : act.Sound)
    (halloc : act.Allocated)
    (hrun : act.run host iovMax handle p inc = some (p', inc', out)) : Rested host p' := by
  cases act with
  | compose alloc req =>
    rw [Action.run] at hrun
    cases hrun
    exact h
  | callback ev =>
    obtain ⟨q, hread, hwrite⟩ := run_callback_eq_some hrun
    have hq : Rested host q := by
      rcases readPart_eq_some hread with ⟨rfl, -⟩ | ⟨hallowed, ready, rfl, -⟩
      · exact h
      · exact h.dispatch hsound hallowed halloc.1
    rcases writePart_eq_some hwrite with ⟨ready, rfl, -⟩ | ⟨-, ready, rfl, -⟩
    · exact hq
    · exact hq

/-! ## What a process makes of its messages -/

def answer (handle : σ → Imsg → Option ℕ → σ × Option Request) (pid : Long)
    (s : σ × List Passed) (m : Passed) : σ × List Passed :=
  let out := handle s.1 m.1 m.2
  (out.1, s.2 ++ (out.2.bind fun req => (req.imsg {} pid).map (·, req.fd)).toList)

/-- What a process is and has composed is what its handler has made of the messages. -/
def Follows (handle : σ → Imsg → Option ℕ → σ × Option Request) (pid : Long)
    (s : σ × List Passed) (p : Feed (Peer σ) Byte) : Prop :=
  p.sink.pid = pid ∧
    (p.sink.app, p.sink.composed) = p.sink.handled.foldl (answer handle pid) s

section Follows

variable {pid : Long} {s : σ × List Passed}

theorem Request.imsg_of_malloc {alloc : Alloc} (h : alloc.malloc = true) (req : Request)
    (pid : Long) : req.imsg alloc pid = req.imsg {} pid := by
  rw [Request.imsg, h, Request.imsg]

theorem Peer.compose_of_malloc (host : Endian) {alloc : Alloc} (h : alloc.malloc = true)
    (req : Request) (q : Peer σ) : ∃ w, q.compose host alloc req =
      { q with
        w := w
        composed := q.composed ++ ((req.imsg {} q.pid).map (·, req.fd)).toList } := by
  rw [Peer.compose, Request.imsg_of_malloc h]
  cases hm : req.imsg {} q.pid with
  | none =>
    rw [composeIbuf_of_none ((Request.imsg_of_malloc h req q.pid).trans hm)]
    exact ⟨q.w, by simp⟩
  | some m =>
    obtain ⟨b, hb, -⟩ := composeIbuf_of_some host
      ((Request.imsg_of_malloc h req q.pid).trans hm)
    rw [hb]
    exact ⟨_, rfl⟩

theorem Follows.emit (h : Follows handle pid s p) {alloc : ℕ → Alloc}
    (halloc : ∀ n, (alloc n).malloc = true) (m : Imsg) (rest : List Byte) :
    Follows handle pid s
      { p with buffer := rest, sink := p.sink.emit host handle alloc m } := by
  obtain ⟨hpid, hfold⟩ := h
  rw [Peer.emit, Follows]
  cases hreq : (handle p.sink.app m (getFd m p.sink.fds).1).2 with
  | none =>
    refine ⟨hpid, ?_⟩
    rw [List.foldl_append, ← hfold]
    simp [answer, hreq]
  | some req =>
    obtain ⟨w, hcompose⟩ := Peer.compose_of_malloc host
      (halloc p.sink.handled.length) req
      { p.sink with
        app := (handle p.sink.app m (getFd m p.sink.fds).1).1
        fds := (getFd m p.sink.fds).2
        handled := p.sink.handled ++ [(m, (getFd m p.sink.fds).1)] }
    simp only [hcompose]
    refine ⟨hpid, ?_⟩
    rw [List.foldl_append, ← hfold]
    simp [answer, hreq, hpid]

theorem Follows.callback (h : Follows handle pid s p) (hsound : ev.recv.Sound)
    (halloc : ∀ n, (ev.alloc n).malloc = true)
    (hrun : (Action.callback ev).run host iovMax handle p inc = some (p', inc', out)) :
    Follows handle pid s p' := by
  obtain ⟨q, hread, hwrite⟩ := run_callback_eq_some hrun
  have hq : Follows handle pid s q := by
    rcases readPart_eq_some hread with ⟨rfl, -⟩ | ⟨hallowed, ready, rfl, -⟩
    · exact h
    · rcases dispatchWith_cases host handle hsound hallowed with
        ⟨-, heq⟩ | ⟨t, -, heq⟩
      · rw [heq]
        exact h
      · rw [heq]
        have hloop := loop_invariant (imsgNext host ev.malloc)
          (Peer.emit host handle ev.alloc) (P := Follows handle pid s)
          (fun q m rest hq _ => hq.emit halloc m rest) (fun q hq _ => hq)
          (received p t).buffer.length (s := received p t) h
        exact hloop
  rcases writePart_eq_some hwrite with ⟨ready, rfl, -⟩ | ⟨-, ready, rfl, -⟩
  · exact hq
  · exact hq

end Follows

end Process

end Tnetacle.Privileged
