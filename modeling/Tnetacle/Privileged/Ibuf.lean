import Mathlib.Algebra.Group.Nat.Defs
import Tnetacle.Library.Sideband
import Tnetacle.Privileged.Address

/-! # The queue of messages to the other process

`imsg_compose` writes a message into a buffer of its own and queues it with its descriptor.
`msgbuf_write` hands the first buffers of the queue to `sendmsg`, up to one with a descriptor,
which goes with the first byte that is sent, of whichever buffer it is.
-/

namespace Tnetacle.Privileged

open ByteOrder Sideband

def imsgfHasfd : Word := 1

/--
A `struct ibuf`: what has been written to `buf`, of which there are `wpos` bytes, and from where on
it is still to be sent. Nothing is written behind the end of the block.
-/
structure Ibuf where
  buf : List Byte
  size : ℕ
  max : ℕ
  rpos : ℕ := 0
  fd : Option ℕ := none
  wpos_le : buf.length ≤ size
  size_le : size ≤ max
  rpos_le : rpos ≤ buf.length
  deriving DecidableEq

/-- The arguments of `imsg_compose`; of `data`, `datalen` bytes are read. -/
structure Request where
  type : Long
  peerid : Long := 0
  pid : Long := 0
  fd : Option ℕ := none
  data : List Byte := []
  datalen : ℕ := 0
  deriving DecidableEq

/-- What the allocator does for `imsg_compose`, and the bytes of the stack where the length of the
header is not set yet. -/
structure Alloc where
  malloc : Bool := true
  realloc : Bool := true
  junk : Word := 0
  deriving DecidableEq

namespace Ibuf

def wpos (b : Ibuf) : ℕ := b.buf.length

def pending (b : Ibuf) : List Byte := b.buf.drop b.rpos

def tokens (b : Ibuf) : List (Token ℕ Byte) := frame b.fd b.pending

end Ibuf

/-! ## A buffer -/

def ibufOpen (malloc : Bool) (len : ℕ) : Option { b : Ibuf // b.size = len } :=
  if malloc then
    some ⟨⟨[], len, len, 0, none, Nat.zero_le _, Nat.le_refl _, Nat.le_refl _⟩, rfl⟩
  else none

def ibufDynamic (malloc : Bool) (len max : ℕ) : Option Ibuf :=
  if h : max < len then none
  else (ibufOpen malloc len).map fun b =>
    if 0 < max then
      { b.1 with max := max, size_le := b.2.trans_le (Nat.le_of_not_lt h) }
    else b.1

/-- On success there is room for `len` bytes. -/
def ibufRealloc (realloc : Bool) (b : Ibuf) (len : ℕ) :
    Option { b : Ibuf // b.wpos + len ≤ b.size } :=
  if h : b.max < b.wpos + len then none
  else if realloc then
    some ⟨{ b with
      size := b.wpos + len
      wpos_le := Nat.le_add_right _ _
      size_le := Nat.le_of_not_lt h }, Nat.le_refl _⟩
  else none

/-- `memcpy` of the `len` bytes at `data`, for which there is room. -/
def Ibuf.append (b : Ibuf) (data : List Byte) (len : ℕ) (h : b.wpos + len ≤ b.size) : Ibuf :=
  { b with
    buf := b.buf ++ data.take len
    wpos_le := by
      rw [List.length_append, List.length_take]
      have := Nat.min_le_left len data.length
      rw [wpos] at h
      omega
    rpos_le := by
      rw [List.length_append]
      exact Nat.le_add_right_of_le b.rpos_le }

def ibufAdd (realloc : Bool) (b : Ibuf) (data : List Byte) (len : ℕ) : Option Ibuf :=
  if h : b.wpos + len ≤ b.size then some (b.append data len h)
  else (ibufRealloc realloc b len).map fun b => b.1.append data len b.2

/-! ## A message -/

def imsgAdd (realloc : Bool) (msg : Ibuf) (data : List Byte) (datalen : ℕ) : Option Ibuf :=
  let datalen := datalen % 2 ^ 16
  if datalen = 0 then some msg else ibufAdd realloc msg data datalen

section Compose

variable (host : Endian) (alloc : Alloc) (bufPid : Long) (req : Request)

/-- The header, whose length is not known yet. -/
def imsgHdr : List Byte :=
  storeLong host req.type ++ store host alloc.junk ++ store host 0 ++
    storeLong host req.peerid ++ storeLong host (if req.pid = 0 then bufPid else req.pid)

def imsgCreate : Option Ibuf :=
  let datalen := (req.datalen % 2 ^ 16 + imsgHeaderSize) % 2 ^ 16
  if maxImsgsize < datalen then none
  else (ibufDynamic alloc.malloc datalen maxImsgsize).bind fun wbuf =>
    imsgAdd alloc.realloc wbuf (imsgHdr host alloc bufPid req) imsgHeaderSize

/-- The flags and the length are set in the header at the beginning of `buf`. -/
def closeHdr (fd : Option ℕ) (wpos : ℕ) : List Byte → List Byte
  | t₀ :: t₁ :: t₂ :: t₃ :: _ :: _ :: f₀ :: f₁ :: rest =>
    let flags := load host f₀ f₁ &&& ~~~imsgfHasfd
    let flags := if fd = none then flags else flags ||| imsgfHasfd
    t₀ :: t₁ :: t₂ :: t₃ :: store host (BitVec.ofNat 16 wpos) ++ store host flags ++ rest
  | buf => buf

theorem length_store (x : Word) : (store host x).length = 2 := by
  cases host <;> rfl

theorem length_closeHdr (fd : Option ℕ) (wpos : ℕ) (buf : List Byte) :
    (closeHdr host fd wpos buf).length = buf.length := by
  unfold closeHdr
  split
  · simp only [List.length_append, List.length_cons, length_store]
    omega
  · rfl

def imsgClose (msg : Ibuf) : Ibuf :=
  { msg with
    buf := closeHdr host msg.fd msg.wpos msg.buf
    wpos_le := (length_closeHdr host msg.fd msg.wpos msg.buf).symm ▸ msg.wpos_le
    rpos_le := (length_closeHdr host msg.fd msg.wpos msg.buf).symm ▸ msg.rpos_le }

/-- The buffer that `imsg_compose` queues, unless it fails. -/
def composeIbuf : Option Ibuf :=
  (imsgCreate host alloc bufPid req).bind fun wbuf =>
    (imsgAdd alloc.realloc wbuf req.data req.datalen).map fun wbuf =>
      imsgClose host { wbuf with fd := req.fd }

def Request.imsg : Option Imsg :=
  (imsgCompose alloc.malloc bufPid req.type req.peerid req.pid req.data req.datalen).map
    fun m => { m with flags := if req.fd = none then 0 else imsgfHasfd }

end Compose

/-! ## The queue -/

/-- A `struct msgbuf`, with the descriptors that were closed on its way. -/
structure Msgbuf where
  bufs : List Ibuf
  queued : ℕ
  closed : List ℕ
  queued_eq : queued = bufs.length

def msgbufInit : Msgbuf := ⟨[], 0, [], rfl⟩

def ibufEnqueue (w : Msgbuf) (b : Ibuf) : Msgbuf where
  bufs := w.bufs ++ [b]
  queued := w.queued + 1
  closed := w.closed
  queued_eq := by rw [w.queued_eq, List.length_append, List.length_singleton]

/-- The loop of `msgbuf_drain`: the buffers that are dequeued, and those that stay. -/
def drain : List Ibuf → ℕ → List Ibuf × List Ibuf
  | [], _ => ([], [])
  | b :: bs, n =>
    if n = 0 then ([], b :: bs)
    else if h : b.wpos ≤ b.rpos + n then
      (b :: (drain bs (n - (b.wpos - b.rpos))).1, (drain bs (n - (b.wpos - b.rpos))).2)
    else ([], { b with rpos := b.rpos + n, rpos_le := Nat.le_of_not_le h } :: bs)

theorem length_drain (bs : List Ibuf) (n : ℕ) :
    (drain bs n).1.length + (drain bs n).2.length = bs.length := by
  induction bs generalizing n with
  | nil => rfl
  | cons b bs ih =>
    rw [drain]
    split
    · exact Nat.zero_add _
    · split
      · have := ih (n - (b.wpos - b.rpos))
        simp only [List.length_cons]
        omega
      · exact Nat.zero_add _

/-- A buffer that is dequeued while it has a descriptor takes it along. -/
def msgbufDrain (w : Msgbuf) (n : ℕ) : Msgbuf where
  bufs := (drain w.bufs n).2
  queued := w.queued - (drain w.bufs n).1.length
  closed := w.closed ++ (drain w.bufs n).1.filterMap Ibuf.fd
  queued_eq := by
    rw [w.queued_eq, ← length_drain w.bufs n]
    omega

def msgbufClear (w : Msgbuf) : Msgbuf where
  bufs := []
  queued := w.queued - w.bufs.length
  closed := w.closed ++ w.bufs.filterMap Ibuf.fd
  queued_eq := by rw [w.queued_eq, Nat.sub_self]; rfl

/-- The bytes that `msgbuf_write` gives to `sendmsg`, of at most `i` buffers, and the descriptor
of the buffer where it stops. -/
def iov : ℕ → List Ibuf → List Byte × Option ℕ
  | _, [] => ([], none)
  | 0, b :: _ => ([], b.fd)
  | i + 1, b :: bs =>
    if b.fd = none then (b.pending ++ (iov i bs).1, (iov i bs).2) else (b.pending, b.fd)

def detach : ℕ → List Ibuf → List Ibuf
  | _, [] => []
  | 0, b :: bs => { b with fd := none } :: bs
  | i + 1, b :: bs =>
    if b.fd = none then b :: detach i bs else { b with fd := none } :: bs

theorem length_detach (i : ℕ) (bs : List Ibuf) : (detach i bs).length = bs.length := by
  induction bs generalizing i with
  | nil => cases i <;> rfl
  | cons b bs ih =>
    cases i with
    | zero => rfl
    | succ i =>
      rw [detach]
      split
      · rw [List.length_cons, ih, List.length_cons]
      · rfl

/-- What `sendmsg` does: it has to be called again, fails, finds the connection closed, or takes
`n` bytes. -/
inductive Send
  | again
  | failed
  | closed
  | sent (n : ℕ)
  deriving DecidableEq

/-- `msgbuf_write`: the queue, what is returned, and what the socket is given. -/
def msgbufWrite (iovMax : ℕ) (w : Msgbuf) : Send → Msgbuf × Int × List (Token ℕ Byte)
  | .again => (w, 0, [])
  | .failed => (w, -1, [])
  | .closed => (w, -2, [])
  | .sent n =>
    let msg := iov iovMax w.bufs
    let w := { w with
      bufs := detach iovMax w.bufs
      closed := w.closed ++ msg.2.toList
      queued_eq := by rw [length_detach]; exact w.queued_eq }
    (msgbufDrain w n, 0, frame msg.2 (msg.1.take n))

def Msgbuf.tokens (w : Msgbuf) : List (Token ℕ Byte) := w.bufs.flatMap Ibuf.tokens

/-! ## What is composed -/

section Composed

variable {host : Endian} {alloc : Alloc} {bufPid : Long} {req : Request}

theorem ibufAdd_of_le {realloc : Bool} {b : Ibuf} {data : List Byte} {len : ℕ}
    (h : b.wpos + len ≤ b.size) : ibufAdd realloc b data len = some (b.append data len h) :=
  dif_pos h

theorem ibufAdd_of_lt {realloc : Bool} {b : Ibuf} {data : List Byte} {len : ℕ}
    (h : b.max < b.wpos + len) : ibufAdd realloc b data len = none := by
  have hsize := b.size_le
  rw [ibufAdd, dif_neg (by omega), ibufRealloc, dif_pos h]
  rfl

theorem ibufDynamic_eq_some {malloc : Bool} {len max : ℕ} {b : Ibuf} (hmax : 0 < max)
    (h : ibufDynamic malloc len max = some b) : b.buf = [] ∧ b.max = max := by
  rw [ibufDynamic, ibufOpen] at h
  split at h
  · cases h
  · cases malloc with
    | false => cases h
    | true =>
      rw [if_pos rfl, Option.map_some] at h
      obtain rfl := Option.some.inj h
      exact ⟨rfl, rfl⟩

theorem ibufAdd_eq_some {realloc : Bool} {b b' : Ibuf} {data : List Byte} {len : ℕ}
    (h : ibufAdd realloc b data len = some b') :
    b'.max = b.max ∧ b'.buf = b.buf ++ data.take len := by
  rw [ibufAdd, ibufRealloc] at h
  split at h
  · obtain rfl := Option.some.inj h
    exact ⟨rfl, rfl⟩
  · split at h
    · cases h
    · cases realloc with
      | false => cases h
      | true =>
        obtain rfl := Option.some.inj h
        exact ⟨rfl, rfl⟩

theorem length_imsgHdr : (imsgHdr host alloc bufPid req).length = imsgHeaderSize := by
  cases host <;> rfl

theorem closeHdr_imsgHdr {fd : Option ℕ} {wpos : ℕ} {data : List Byte} {m : Imsg}
    (htype : m.type = req.type) (hflags : m.flags = if fd = none then 0 else imsgfHasfd)
    (hpeerid : m.peerid = req.peerid) (hpid : m.pid = if req.pid = 0 then bufPid else req.pid)
    (hdata : m.data = data) (hwpos : wpos = imsgHeaderSize + data.length) :
    closeHdr host fd wpos (imsgHdr host alloc bufPid req ++ data) = m.encode host := by
  obtain ⟨t₀, t₁, t₂, t₃, ht, -⟩ := exists_storeLong_eq host req.type
  obtain ⟨l₀, l₁, hl, -⟩ := exists_store_eq host alloc.junk
  obtain ⟨f₀, f₁, hf, hzero⟩ := exists_store_eq host 0
  have hset : (if fd = none then load host f₀ f₁ &&& ~~~imsgfHasfd
      else load host f₀ f₁ &&& ~~~imsgfHasfd ||| imsgfHasfd) = m.flags := by
    rw [hflags, hzero]
    split <;> decide
  rw [imsgHdr, ht, hl, hf, Imsg.encode, htype, ht, hpeerid, hpid, hdata]
  simp only [List.cons_append, List.nil_append, List.append_assoc, closeHdr]
  rw [hset, hwpos]

theorem imsgAdd_of_le (realloc : Bool) {b : Ibuf} (data : List Byte) {datalen : ℕ}
    (h : b.wpos + datalen % 2 ^ 16 ≤ b.size) :
    ∃ b', imsgAdd realloc b data datalen = some b' ∧
      b'.buf = b.buf ++ data.take (datalen % 2 ^ 16) ∧ b'.size = b.size ∧ b'.rpos = b.rpos := by
  rw [imsgAdd]
  by_cases hzero : datalen % 2 ^ 16 = 0
  · exact ⟨b, if_pos hzero, by rw [hzero]; simp, rfl, rfl⟩
  · exact ⟨b.append data _ h, (if_neg hzero).trans (ibufAdd_of_le h), rfl, rfl, rfl⟩

theorem imsgCreate_of_le (host : Endian) (bufPid : Long) (hmalloc : alloc.malloc = true)
    (h : imsgHeaderSize + req.datalen % 2 ^ 16 ≤ maxImsgsize) :
    ∃ b, imsgCreate host alloc bufPid req = some b ∧ b.buf = imsgHdr host alloc bufPid req ∧
      b.size = imsgHeaderSize + req.datalen % 2 ^ 16 ∧ b.rpos = 0 := by
  have hlen : (req.datalen % 2 ^ 16 + imsgHeaderSize) % 2 ^ 16 =
      imsgHeaderSize + req.datalen % 2 ^ 16 := by
    rw [maxImsgsize] at h
    rw [Nat.add_comm, Nat.mod_eq_of_lt (by omega)]
  let b₀ : Ibuf := ⟨[], imsgHeaderSize + req.datalen % 2 ^ 16, maxImsgsize, 0, none,
    Nat.zero_le _, h, Nat.le_refl _⟩
  have hopen : ibufDynamic alloc.malloc (imsgHeaderSize + req.datalen % 2 ^ 16) maxImsgsize =
      some b₀ := by
    rw [ibufDynamic, dif_neg (Nat.not_lt.mpr h), ibufOpen, if_pos hmalloc, Option.map_some,
      if_pos (by decide)]
  have hroom : b₀.wpos + imsgHeaderSize % 2 ^ 16 ≤ b₀.size := by
    show 0 + imsgHeaderSize % 2 ^ 16 ≤ imsgHeaderSize + _
    rw [imsgHeaderSize]
    omega
  obtain ⟨b, hadd, hbuf, hsize, hrpos⟩ := imsgAdd_of_le alloc.realloc
    (imsgHdr host alloc bufPid req) hroom
  refine ⟨b, ?_, ?_, hsize, hrpos⟩
  · rw [imsgCreate, hlen, if_neg (Nat.not_lt.mpr h), hopen, Option.bind_some, hadd]
  · have hall : imsgHeaderSize % 2 ^ 16 = (imsgHdr host alloc bufPid req).length := by
      rw [length_imsgHdr]
      rfl
    rw [hbuf, hall, List.take_length]
    rfl

theorem imsgCreate_eq_some {b : Ibuf} (h : imsgCreate host alloc bufPid req = some b) :
    b.wpos = imsgHeaderSize ∧ b.max = maxImsgsize := by
  rw [imsgCreate] at h
  split at h
  · cases h
  · obtain ⟨b₀, hopen, hadd⟩ := Option.bind_eq_some_iff.mp h
    have hempty := ibufDynamic_eq_some (by decide) hopen
    rw [imsgAdd, if_neg (by decide)] at hadd
    obtain ⟨hmax, hbuf⟩ := ibufAdd_eq_some hadd
    refine ⟨?_, hmax.trans hempty.2⟩
    rw [Ibuf.wpos, hbuf, hempty.1, List.nil_append, List.length_take, length_imsgHdr]
    rfl

theorem composeIbuf_of_some (host : Endian) {m : Imsg} (h : req.imsg alloc bufPid = some m) :
    ∃ b, composeIbuf host alloc bufPid req = some b ∧ b.buf = m.encode host ∧ b.fd = req.fd ∧
      b.rpos = 0 := by
  obtain ⟨m₀, hm₀, rfl⟩ := Option.map_eq_some_iff.mp h
  rw [imsgCompose] at hm₀
  split at hm₀
  · next hfits =>
    obtain rfl := Option.some.inj hm₀
    obtain ⟨b₀, hcreate, hbuf₀, hsize, hrpos₀⟩ :=
      imsgCreate_of_le host bufPid hfits.1 hfits.2.2
    have hroom : b₀.wpos + req.datalen % 2 ^ 16 ≤ b₀.size := by
      rw [Ibuf.wpos, hbuf₀, length_imsgHdr, hsize]
    obtain ⟨b, hadd, hbuf, -, hrpos⟩ := imsgAdd_of_le alloc.realloc req.data hroom
    refine ⟨imsgClose host { b with fd := req.fd }, ?_, ?_, rfl, hrpos.trans hrpos₀⟩
    · rw [composeIbuf, hcreate, Option.bind_some, hadd, Option.map_some]
    · show closeHdr host req.fd b.wpos b.buf = _
      rw [Ibuf.wpos, hbuf, hbuf₀]
      apply closeHdr_imsgHdr <;> try rfl
      rw [List.length_append, length_imsgHdr]
  · cases hm₀

theorem composeIbuf_of_none (h : req.imsg alloc bufPid = none) :
    composeIbuf host alloc bufPid req = none := by
  rw [Request.imsg, Option.map_eq_none_iff, imsgCompose] at h
  split at h
  · cases h
  · next hfits =>
    by_cases hlong : maxImsgsize < (req.datalen % 2 ^ 16 + imsgHeaderSize) % 2 ^ 16
    · rw [composeIbuf, imsgCreate, if_pos hlong, Option.bind_none]
    · cases hmalloc : alloc.malloc with
      | false =>
        rw [composeIbuf, imsgCreate, if_neg hlong, hmalloc, ibufDynamic, ibufOpen]
        simp
      | true =>
        have hover : maxImsgsize < imsgHeaderSize + req.datalen % 2 ^ 16 := by
          by_contra hle
          exact hfits ⟨hmalloc, Nat.le_of_not_lt hlong, Nat.le_of_not_lt hle⟩
        rw [composeIbuf, Option.bind_eq_none_iff]
        intro b hb
        obtain ⟨hwpos, hmax⟩ := imsgCreate_eq_some hb
        have hpos : req.datalen % 2 ^ 16 ≠ 0 := by
          intro hzero
          rw [hzero, imsgHeaderSize, maxImsgsize] at hover
          omega
        have hrefused : b.max < b.wpos + req.datalen % 2 ^ 16 := by rwa [hmax, hwpos]
        rw [imsgAdd, if_neg hpos, ibufAdd_of_lt hrefused, Option.map_none]

theorem imsg_isSome_iff : (req.imsg alloc bufPid).isSome ↔
    alloc.malloc = true ∧ imsgHeaderSize + req.datalen % 2 ^ 16 ≤ maxImsgsize := by
  rw [Request.imsg, Option.isSome_map, imsgCompose]
  split
  · next hfits => exact ⟨fun _ => ⟨hfits.1, hfits.2.2⟩, fun _ => rfl⟩
  · next hfits =>
    constructor
    · intro hsome
      cases hsome
    · rintro ⟨hmalloc, hle⟩
      have hsum : (req.datalen % 2 ^ 16 + imsgHeaderSize) % 2 ^ 16 ≤ maxImsgsize := by
        rw [Nat.add_comm]
        exact Nat.le_trans (Nat.mod_le _ _) hle
      exact absurd ⟨hmalloc, hsum, hle⟩ hfits

theorem imsg_of_fd_none (h : req.fd = none) :
    req.imsg alloc bufPid =
      imsgCompose alloc.malloc bufPid req.type req.peerid req.pid req.data req.datalen := by
  rw [Request.imsg, imsgCompose, if_pos h]
  split <;> rfl

theorem imsg_eq_some {m : Imsg} (h : req.imsg alloc bufPid = some m) :
    m.type = req.type ∧ m.flags = (if req.fd = none then 0 else imsgfHasfd) ∧
      m.peerid = req.peerid ∧ m.pid = (if req.pid = 0 then bufPid else req.pid) ∧
      m.data = req.data.take (req.datalen % 2 ^ 16) := by
  obtain ⟨m₀, hm₀, rfl⟩ := Option.map_eq_some_iff.mp h
  rw [imsgCompose] at hm₀
  split at hm₀
  · obtain rfl := Option.some.inj hm₀
    exact ⟨rfl, rfl, rfl, rfl, rfl⟩
  · cases hm₀

/--
What `imsg_compose` queues is what `imsg_get` takes, whatever was on the stack and however the
buffer has grown: the flag is set for a descriptor only, and the length is that of the data. A
message that does not fit is not queued at all.
-/
theorem imsgGet_composeIbuf (host : Endian) (alloc : Alloc) (bufPid : Long) (req : Request) :
    if alloc.malloc = true ∧ imsgHeaderSize + req.datalen % 2 ^ 16 ≤ maxImsgsize then
      ∃ b, composeIbuf host alloc bufPid req = some b ∧ b.fd = req.fd ∧
        ∀ rest, ∃ m, imsgGet host true (b.pending ++ rest) = .message m rest ∧
          m.type = req.type ∧ m.flags = (if req.fd = none then 0 else imsgfHasfd) ∧
          m.peerid = req.peerid ∧ m.pid = (if req.pid = 0 then bufPid else req.pid) ∧
          m.data = req.data.take (req.datalen % 2 ^ 16)
    else composeIbuf host alloc bufPid req = none := by
  have hmeant : (req.imsg alloc bufPid).isSome ↔ _ := imsg_isSome_iff
  split
  · next hfits =>
    obtain ⟨m, hm⟩ := Option.isSome_iff_exists.mp (hmeant.mpr hfits)
    obtain ⟨b, hb, hbuf, hfd, hrpos⟩ := composeIbuf_of_some host hm
    refine ⟨b, hb, hfd, fun rest => ⟨m, ?_, imsg_eq_some hm⟩⟩
    rw [Ibuf.pending, hrpos, List.drop_zero, hbuf, imsgGet_encode]
  · next hfits =>
    apply composeIbuf_of_none
    rw [← Option.not_isSome_iff_eq_none, hmeant]
    exact hfits

end Composed

/-! ## What is sent -/

section Sent

variable {w : Msgbuf} {bs : List Ibuf} {es : List Byte} {rest : List (Token ℕ Byte)}

theorem tokens_ibufEnqueue (w : Msgbuf) (b : Ibuf) :
    (ibufEnqueue w b).tokens = w.tokens ++ b.tokens := by
  simp [Msgbuf.tokens, ibufEnqueue]

theorem marks_tokens (bs : List Ibuf) :
    marks (bs.flatMap Ibuf.tokens) = bs.filterMap Ibuf.fd := by
  induction bs with
  | nil => rfl
  | cons b bs ih =>
    rw [List.flatMap_cons, marks_append, ih, Ibuf.tokens, marks_frame]
    cases hfd : b.fd <;> simp [hfd]

theorem early_detach (i : ℕ) (bs : List Ibuf) :
    Early ((iov i bs).2.toList.map .mark ++ (detach i bs).flatMap Ibuf.tokens)
      (bs.flatMap Ibuf.tokens) := by
  induction bs generalizing i with
  | nil => cases i <;> exact .nil
  | cons b bs ih =>
    have htake : b.fd.toList.map Token.mark ++
        (({ b with fd := none } : Ibuf) :: bs).flatMap Ibuf.tokens =
          (b :: bs).flatMap Ibuf.tokens := by
      simp [Ibuf.tokens, Ibuf.pending, frame]
    cases i with
    | zero =>
      rw [← htake]
      exact early_refl _
    | succ i =>
      rw [iov, detach]
      split
      · next hfd =>
        have hb : b.tokens = b.pending.map .data := by simp [Ibuf.tokens, frame, hfd]
        rw [List.flatMap_cons, List.flatMap_cons, hb]
        exact (ih i).behind b.pending
      · rw [← htake]
        exact early_refl _

/-- No descriptor is left among the bytes that are given to `sendmsg`. -/
theorem exists_tokens_detach (i : ℕ) (bs : List Ibuf) :
    ∃ rest, (detach i bs).flatMap Ibuf.tokens = (iov i bs).1.map .data ++ rest := by
  induction bs generalizing i with
  | nil => exact ⟨[], by cases i <;> rfl⟩
  | cons b bs ih =>
    cases i with
    | zero => exact ⟨_, rfl⟩
    | succ i =>
      rw [iov, detach]
      split
      · next hfd =>
        obtain ⟨rest, hrest⟩ := ih i
        refine ⟨rest, ?_⟩
        rw [List.flatMap_cons, hrest]
        simp [Ibuf.tokens, frame, hfd]
      · refine ⟨bs.flatMap Ibuf.tokens, ?_⟩
        simp [Ibuf.tokens, Ibuf.pending, frame]

theorem tokens_drain (h : bs.flatMap Ibuf.tokens = es.map .data ++ rest) :
    (drain bs es.length).2.flatMap Ibuf.tokens = rest ∧
      (drain bs es.length).1.filterMap Ibuf.fd = [] := by
  induction bs generalizing es with
  | nil =>
    obtain ⟨hes, rfl⟩ := List.append_eq_nil_iff.mp h.symm
    obtain rfl := List.map_eq_nil_iff.mp hes
    exact ⟨rfl, rfl⟩
  | cons b bs ih =>
    rw [drain]
    cases es with
    | nil => exact ⟨h, rfl⟩
    | cons e es =>
      have hfd : b.fd = none := by
        cases hfd : b.fd with
        | none => rfl
        | some fd => simp [Ibuf.tokens, frame, hfd] at h
      have htokens : b.pending.map Token.data ++ bs.flatMap Ibuf.tokens =
          (e :: es).map .data ++ rest := by
        simpa [Ibuf.tokens, frame, hfd] using h
      have hlen : b.pending.length = b.wpos - b.rpos := List.length_drop
      rw [if_neg (by simp)]
      split
      · next hle =>
        have hrest : bs.flatMap Ibuf.tokens =
            ((e :: es).drop (b.wpos - b.rpos)).map .data ++ rest := by
          have hdrop := congrArg (List.drop (b.wpos - b.rpos)) htokens
          rwa [List.drop_left' (by rw [List.length_map, hlen]),
            List.drop_append_of_le_length (by rw [List.length_map]; omega), ← List.map_drop]
            at hdrop
        have hih := ih hrest
        rw [List.length_drop] at hih
        exact ⟨hih.1, (List.filterMap_cons_none hfd).trans hih.2⟩
      · next hle =>
        have hrest : (b.pending.drop (e :: es).length).map Token.data ++ bs.flatMap Ibuf.tokens =
            rest := by
          have hdrop := congrArg (List.drop (e :: es).length) htokens
          rwa [List.drop_append_of_le_length (by rw [List.length_map]; omega), ← List.map_drop,
            List.drop_left' (List.length_map _)] at hdrop
        refine ⟨?_, rfl⟩
        rw [← hrest, Ibuf.pending, List.drop_drop]
        simp [Ibuf.tokens, Ibuf.pending, frame, hfd]

def Msgbuf.Waiting (w : Msgbuf) : Prop := ∀ b ∈ w.bufs, b.rpos < b.wpos

theorem rpos_lt_of_mem_detach {i : ℕ} (h : ∀ b ∈ bs, b.rpos < b.wpos) :
    ∀ b ∈ detach i bs, b.rpos < b.wpos := by
  induction bs generalizing i with
  | nil => cases i <;> exact h
  | cons b bs ih =>
    rw [List.forall_mem_cons] at h
    cases i with
    | zero => exact List.forall_mem_cons.mpr h
    | succ i =>
      rw [detach]
      split
      · exact List.forall_mem_cons.mpr ⟨h.1, ih h.2⟩
      · exact List.forall_mem_cons.mpr h

theorem rpos_lt_of_mem_drain {n : ℕ} (h : ∀ b ∈ bs, b.rpos < b.wpos) :
    ∀ b ∈ (drain bs n).2, b.rpos < b.wpos := by
  induction bs generalizing n with
  | nil => exact h
  | cons b bs ih =>
    rw [drain]
    split
    · exact h
    · rw [List.forall_mem_cons] at h
      split
      · exact ih h.2
      · next hle => exact List.forall_mem_cons.mpr ⟨Nat.lt_of_not_le hle, h.2⟩

theorem Msgbuf.Waiting.write (h : w.Waiting) (iovMax : ℕ) (r : Send) :
    (msgbufWrite iovMax w r).1.Waiting := by
  cases r with
  | again => exact h
  | failed => exact h
  | closed => exact h
  | sent n => exact rpos_lt_of_mem_drain (rpos_lt_of_mem_detach h)

theorem Msgbuf.Waiting.tokens_eq_nil_iff (h : w.Waiting) : elems w.tokens = [] ↔ w.queued = 0 := by
  rw [w.queued_eq, List.length_eq_zero_iff, Msgbuf.tokens]
  constructor
  · intro hnil
    by_contra hne
    obtain ⟨b, bs, hbs⟩ := List.exists_cons_of_ne_nil hne
    rw [hbs, List.flatMap_cons, elems_append, Ibuf.tokens, elems_frame] at hnil
    have hlen := congrArg List.length (List.append_eq_nil_iff.mp hnil).1
    have hlt := h b (by rw [hbs]; exact List.mem_cons_self)
    rw [Ibuf.pending, List.length_drop, List.length_nil] at hlen
    rw [Ibuf.wpos] at hlt
    omega
  · intro hnil
    rw [hnil]
    rfl

/-- What `msgbuf_write` sends and what stays in the queue, and which descriptors are closed. -/
theorem msgbufWrite_sent {iovMax n : ℕ} (hn : n ≤ (iov iovMax w.bufs).1.length) :
    Early ((msgbufWrite iovMax w (.sent n)).2.2 ++ (msgbufWrite iovMax w (.sent n)).1.tokens)
        w.tokens ∧
      (msgbufWrite iovMax w (.sent n)).1.closed ++
        marks (msgbufWrite iovMax w (.sent n)).1.tokens = w.closed ++ marks w.tokens := by
  obtain ⟨rest, hrest⟩ := exists_tokens_detach iovMax w.bufs
  have hearly := early_detach iovMax w.bufs
  have hdetach : (detach iovMax w.bufs).flatMap Ibuf.tokens =
      ((iov iovMax w.bufs).1.take n).map .data ++
        (((iov iovMax w.bufs).1.drop n).map .data ++ rest) := by
    rw [hrest, ← List.append_assoc, ← List.map_append, List.take_append_drop]
  have hdrain := tokens_drain hdetach
  rw [List.length_take_of_le hn] at hdrain
  have htokens : (msgbufWrite iovMax w (.sent n)).1.tokens =
      ((iov iovMax w.bufs).1.drop n).map .data ++ rest := hdrain.1
  have hclosed : (msgbufWrite iovMax w (.sent n)).1.closed =
      w.closed ++ (iov iovMax w.bufs).2.toList := by
    show _ ++ _ ++ (drain (detach iovMax w.bufs) n).1.filterMap Ibuf.fd = _
    rw [hdrain.2, List.append_nil]
  constructor
  · rw [htokens]
    show Early (frame _ _ ++ _) (w.bufs.flatMap Ibuf.tokens)
    rw [frame, List.append_assoc, ← hdetach]
    exact hearly
  · have hmarks := hearly.marks_eq
    rw [marks_append, marks_map_mark, hdetach, marks_append, marks_map_data, List.nil_append]
      at hmarks
    rw [hclosed, htokens, List.append_assoc, hmarks]
    rfl

end Sent

end Tnetacle.Privileged
