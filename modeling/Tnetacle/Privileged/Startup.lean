import Tnetacle.Privileged.Delivery

/-! # How the device is set up

The unprivileged process asks for a device before its event loop starts. What follows is driven by
the messages alone: the privileged process opens the device and passes its descriptor, the other
one gives it to the server and sends the address back.
-/

namespace Tnetacle.Privileged

open ByteOrder CString Framing Runs Sideband
open Config (Options)

/-- The unprivileged process: the calls of `server_set_device`, and whether it has read through a
null pointer. -/
structure Child where
  devices : List (Option ℕ) := []
  fault : Bool := false
  deriving DecidableEq

/-- The `switch` of `tnt_dispatch_imsg`. -/
def Child.handle (servOpts : Options) (c : Child) (imsg : Imsg) (fd : Option ℕ) :
    Child × Option Request :=
  if c.fault then (c, none)
  else if imsg.type = imsgCreateDev then
    let c := { c with devices := c.devices ++ [fd] }
    match servOpts.addr with
    | none => ({ c with fault := true }, none)
    | some addr =>
      (c, some { type := imsgSetIp, data := addr, datalen := (ofMemory addr).length })
  else (c, none)

/-- The `switch` of `dispatch_imsg`, with the message that passes the descriptor of the device. -/
def State.handle (servOpts : Options) (opens : ℕ → Bool) (s : State) (imsg : Imsg)
    (_ : Option ℕ) : State × Option Request :=
  (s.dispatch servOpts opens imsg,
    if s.Inside ∧ imsg.type = imsgCreateDev ∧ opens s.tries then
      some { type := imsgCreateDev, fd := some s.tries }
    else none)

/-- `tnt_fork` asks for a device. -/
def createRequest : Request := { type := imsgCreateDev }

theorem length_nil_le : ([] : List Byte).length ≤ maxImsgsize - imsgHeaderSize := Nat.zero_le _

def createImsg (pid : Long) : Imsg := ⟨imsgCreateDev, 0, 0, pid, [], length_nil_le⟩

def deviceImsg (pid : Long) : Imsg := ⟨imsgCreateDev, imsgfHasfd, 0, pid, [], length_nil_le⟩

def addressImsg (pid : Long) (addr : List Byte) (h : (ofMemory addr).length < bufSize) : Imsg :=
  textImsg imsgSetIp 0 pid addr h

def setupOps (servOpts : Options) (address : Imsg) : List DeviceOp :=
  [.open servOpts.tunnel 0, .getFd 0, .compose 0, .setIp 0 (bufContents address.data) address,
    .up 0]

/-- The callbacks run in any order; nothing else is composed. -/
def Move.IsCallback : Move → Prop
  | .left (.callback _) | .right (.callback _) => True
  | _ => False

/-! ## The messages -/

section Messages

variable {servOpts : Options} {opens : ℕ → Bool} {pid pidChild pidParent : Long}
  {addr : List Byte} {hlen : (ofMemory addr).length < bufSize}

theorem imsg_address (hlen : (ofMemory addr).length < bufSize) :
    Request.imsg {} pid { type := imsgSetIp, data := addr, datalen := (ofMemory addr).length } =
      some (addressImsg pid addr hlen) := by
  rw [Request.imsg, imsgCompose_of_lt pid imsgSetIp 0 0 hlen]
  rfl

theorem type_handle_child {c : Child} {m : Passed} {req : Request}
    (h : (Child.handle servOpts c m.1 m.2).2 = some req) : req.type = imsgSetIp := by
  rw [Child.handle] at h
  split at h
  · cases h
  · split at h
    · split at h
      · cases h
      · obtain rfl := Option.some.inj h
        rfl
    · cases h

theorem exists_answers_child (servOpts : Options) (pid : Long) (cs : List Passed)
    (s : Child × List Passed) :
    ∃ rest, (cs.foldl (answer (Child.handle servOpts) pid) s).2 = s.2 ++ rest ∧
      ∀ m ∈ rest, m.1.type = imsgSetIp := by
  induction cs generalizing s with
  | nil => exact ⟨[], (List.append_nil _).symm, nofun⟩
  | cons m cs ih =>
    obtain ⟨rest, hrest, htype⟩ := ih (answer (Child.handle servOpts) pid s m)
    rw [List.foldl_cons, hrest, answer]
    refine ⟨_, List.append_assoc _ _ _, List.forall_mem_append.mpr ⟨?_, htype⟩⟩
    intro m' hm'
    obtain ⟨req, hreq, hm'⟩ := Option.bind_eq_some_iff.mp (Option.mem_toList.mp hm')
    obtain ⟨imsg, himsg, rfl⟩ := Option.map_eq_some_iff.mp hm'
    exact (imsg_eq_some himsg).1.trans (type_handle_child hreq)

theorem answer_parent_of_setIp {s : State × List Passed} {m : Passed}
    (h : m.1.type = imsgSetIp) :
    answer (State.handle servOpts opens) pid s m = (s.1.dispatch servOpts opens m.1, s.2) := by
  have hne : m.1.type ≠ imsgCreateDev := by rw [h]; decide
  simp [answer, State.handle, hne]

theorem foldl_answer_parent {ms : List Passed} (h : ∀ m ∈ ms, m.1.type = imsgSetIp)
    (s : State × List Passed) :
    (ms.foldl (answer (State.handle servOpts opens) pid) s).2 = s.2 := by
  induction ms generalizing s with
  | nil => rfl
  | cons m ms ih =>
    rw [List.forall_mem_cons] at h
    rw [List.foldl_cons, ih h.2, answer_parent_of_setIp h.1]

theorem answer_parent_create : answer (State.handle servOpts opens) pidParent ({}, [])
      (createImsg pidChild, none) =
    (State.createDev servOpts opens {},
      if opens 0 then [(deviceImsg pidParent, some 0)] else []) := by
  have hinside : State.Inside {} := nofun
  have hhandle : State.handle servOpts opens {} (createImsg pidChild) none =
      (State.createDev servOpts opens {},
        if opens 0 then some { type := imsgCreateDev, fd := some 0 } else none) := by
    rw [State.handle, State.dispatch, if_neg (not_not_intro hinside),
      if_pos (show (createImsg pidChild).type = imsgCreateDev from rfl)]
    have hiff : State.Inside {} ∧ (createImsg pidChild).type = imsgCreateDev ∧
        opens (State.tries {}) = true ↔ opens 0 = true :=
      ⟨fun h => h.2.2, fun h => ⟨hinside, rfl, h⟩⟩
    rw [if_congr hiff rfl rfl]
  rw [answer, hhandle]
  cases opens 0 <;> rfl

theorem answer_child_device {l : List Passed} (haddr : servOpts.addr = some addr)
    (hlen : (ofMemory addr).length < bufSize) :
    answer (Child.handle servOpts) pidChild ({}, l) (deviceImsg pidParent, some 0) =
      ({ devices := [some 0] }, l ++ [(addressImsg pidChild addr hlen, none)]) := by
  simpa [answer, Child.handle, deviceImsg, haddr] using imsg_address hlen

theorem dispatch_eq_answer (servOpts : Options) (pid : Long) (c : Child) (sent : List Passed)
    (m : Passed) :
    Unprivileged.dispatch servOpts true pid { outbox := sent.map Prod.fst, fault := c.fault } m.1 =
      { outbox := (answer (Child.handle servOpts) pid (c, sent) m).2.map Prod.fst
        fault := (answer (Child.handle servOpts) pid (c, sent) m).1.fault } := by
  unfold Unprivileged.dispatch answer Child.handle
  cases hfault : c.fault with
  | true => simp [hfault]
  | false =>
    by_cases htype : m.1.type = imsgCreateDev
    · cases servOpts.addr with
      | none => simp [htype]
      | some addr =>
        simp only [htype, Bool.false_eq_true, if_false, if_true, Option.bind_some,
          imsg_of_fd_none, List.map_append]
        cases imsgCompose true pid imsgSetIp 0 0 addr (ofMemory addr).length <;> rfl
    · simp [htype, hfault]

theorem foldl_dispatch_eq_answers (servOpts : Options) (pid : Long) (ms : List Passed)
    (c : Child) (sent : List Passed) :
    (ms.map Prod.fst).foldl (Unprivileged.dispatch servOpts true pid)
        { outbox := sent.map Prod.fst, fault := c.fault } =
      { outbox := (ms.foldl (answer (Child.handle servOpts) pid) (c, sent)).2.map Prod.fst
        fault := (ms.foldl (answer (Child.handle servOpts) pid) (c, sent)).1.fault } := by
  induction ms generalizing c sent with
  | nil => rfl
  | cons m ms ih =>
    rw [List.map_cons, List.foldl_cons, List.foldl_cons, dispatch_eq_answer]
    exact ih _ _

/-- What the two processes can have handled, where `opened` says whether there is a device. -/
inductive Exchange (opened : Bool) (create device address : Passed) :
    List Passed → List Passed → Prop
  | start : Exchange opened create device address [] []
  | asked : Exchange opened create device address [] [create]
  | passed : opened = true → Exchange opened create device address [device] [create]
  | done : opened = true → Exchange opened create device address [device] [create, address]

theorem exchange_of_prefix (haddr : servOpts.addr = some addr)
    (hlen : (ofMemory addr).length < bufSize) {cs ps : List Passed}
    (hps : ps <+: (cs.foldl (answer (Child.handle servOpts) pidChild)
      ({}, [(createImsg pidChild, none)])).2)
    (hcs : cs <+: (ps.foldl (answer (State.handle servOpts opens) pidParent) ({}, [])).2) :
    Exchange (opens 0) (createImsg pidChild, none) (deviceImsg pidParent, some 0)
      (addressImsg pidChild addr hlen, none) cs ps := by
  obtain ⟨rest, hrest, htype⟩ := exists_answers_child servOpts pidChild cs
    ({}, [(createImsg pidChild, none)])
  rw [hrest] at hps
  rcases List.prefix_cons_iff.mp hps with rfl | ⟨qs, rfl, hqs⟩
  · obtain rfl := List.prefix_nil.mp hcs
    exact .start
  · rw [List.foldl_cons, foldl_answer_parent fun m hm => htype m (hqs.subset hm),
      answer_parent_create] at hcs
    have hasked : cs = [] → qs = [] := by
      rintro rfl
      obtain rfl : rest = [] := List.append_cancel_left (hrest.symm.trans (List.append_nil _).symm)
      exact List.prefix_nil.mp hqs
    cases hopen : opens 0 with
    | false =>
      rw [hopen] at hcs
      obtain rfl := List.prefix_nil.mp hcs
      obtain rfl := hasked rfl
      exact .asked
    | true =>
      rw [hopen] at hcs
      rcases List.prefix_cons_iff.mp hcs with rfl | ⟨cs, rfl, hnil⟩
      · obtain rfl := hasked rfl
        exact .asked
      · obtain rfl := List.prefix_nil.mp hnil
        rw [List.foldl_cons, answer_child_device haddr hlen] at hrest
        obtain rfl := List.append_cancel_left hrest
        rcases List.prefix_cons_iff.mp hqs with rfl | ⟨qs, rfl, hnil⟩
        · exact .passed rfl
        · obtain rfl := List.prefix_nil.mp hnil
          exact .done rfl

end Messages

/-! ## The start -/

section Start

variable {servOpts : Options} {opens : ℕ → Bool} {host : Endian} {iovMax : ℕ}
  {pidChild pidParent : Long} {addr : List Byte} {alloc : Alloc} {moves : List Move}
  {s s' : Link Child State}

def Link.Follows (servOpts : Options) (opens : ℕ → Bool) (pidChild pidParent : Long)
    (s : Link Child State) : Prop :=
  Privileged.Follows (Child.handle servOpts) pidChild ({}, [(createImsg pidChild, none)]) s.left ∧
    Privileged.Follows (State.handle servOpts opens) pidParent ({}, []) s.right

theorem Link.Follows.step (h : s.Follows servOpts opens pidChild pidParent) {mv : Move}
    (hcallback : mv.IsCallback) (hsound : mv.Sound) (halloc : mv.Allocated)
    (hstep : s.step host iovMax (Child.handle servOpts) (State.handle servOpts opens) mv =
      some s') :
    s'.Follows servOpts opens pidChild pidParent := by
  cases mv with
  | left act =>
    obtain ⟨⟨p, inc, out⟩, hrun, rfl⟩ := Option.map_eq_some_iff.mp hstep
    cases act with
    | compose alloc req => exact hcallback.elim
    | callback ev => exact ⟨h.1.callback hsound halloc.2 hrun, h.2⟩
  | right act =>
    obtain ⟨⟨p, inc, out⟩, hrun, rfl⟩ := Option.map_eq_some_iff.mp hstep
    cases act with
    | compose alloc req => exact hcallback.elim
    | callback ev => exact ⟨h.1, h.2.callback hsound halloc.2 hrun⟩

/-- A run from the beginning: the device is asked for, and then the callbacks run. -/
structure Started (servOpts : Options) (opens : ℕ → Bool) (host : Endian) (iovMax : ℕ)
    (pidChild pidParent : Long) (moves : List Move) (s : Link Child State) : Prop where
  run : Run (Link.step host iovMax (Child.handle servOpts) (State.handle servOpts opens))
    (.start {} {} pidChild pidParent) (.left (.compose {} createRequest) :: moves) s
  sound : ∀ mv ∈ moves, mv.IsCallback ∧ mv.Sound ∧ mv.Allocated

theorem Started.sound_all (h : Started servOpts opens host iovMax pidChild pidParent moves s) :
    ∀ mv ∈ Move.left (.compose {} createRequest) :: moves, mv.Sound ∧ mv.Allocated := by
  rw [List.forall_mem_cons]
  exact ⟨⟨trivial, rfl⟩, fun mv hmv => (h.sound mv hmv).2⟩

theorem Started.follows (h : Started servOpts opens host iovMax pidChild pidParent moves s) :
    s.Follows servOpts opens pidChild pidParent := by
  obtain ⟨s₁, hfirst, hrun⟩ := run_cons_iff.mp h.run
  have hs₁ : s₁.Follows servOpts opens pidChild pidParent := by
    obtain ⟨w, hcompose⟩ := Peer.compose_of_malloc host (rfl : Alloc.malloc {} = true)
      createRequest ({ app := {}, pid := pidChild } : Peer Child)
    have hs := Option.some.inj hfirst
    have hleft : s₁.left.sink = _ := (congrArg (·.left.sink) hs).symm.trans hcompose
    have hright : s₁.right.sink = _ := (congrArg (·.right.sink) hs).symm
    rw [Link.Follows, Privileged.Follows, Privileged.Follows, hleft, hright]
    exact ⟨⟨rfl, rfl⟩, rfl, rfl⟩
  apply hrun.invariant_of_forall _ h.sound hs₁
  exact fun s mv t hs hmv hstep => hs.step hmv.1 hmv.2.1 hmv.2.2 hstep

/-- What `tnt_dispatch_imsg` queues, as the address was followed, is what the process composes. -/
theorem Started.outbox_eq (h : Started servOpts opens host iovMax pidChild pidParent moves s) :
    (s.left.sink.handled.map Prod.fst).foldl (Unprivileged.dispatch servOpts true pidChild)
        { outbox := [createImsg pidChild] } =
      { outbox := s.left.sink.composed.map Prod.fst, fault := s.left.sink.app.fault } := by
  obtain ⟨⟨-, hchild⟩, -⟩ := h.follows
  have hqueue := foldl_dispatch_eq_answers servOpts pidChild s.left.sink.handled {}
    [(createImsg pidChild, none)]
  rw [← hchild] at hqueue
  exact hqueue

theorem Started.exchange (h : Started servOpts opens host iovMax pidChild pidParent moves s)
    (haddr : servOpts.addr = some addr) (hlen : (ofMemory addr).length < bufSize) :
    Exchange (opens 0) (createImsg pidChild, none) (deviceImsg pidParent, some 0)
      (addressImsg pidChild addr hlen, none) s.left.sink.handled s.right.sink.handled := by
  obtain ⟨hright, hleft⟩ :=
    (Link.ordered_of_run h.run fun mv hmv => (h.sound_all mv hmv).1).in_order
  obtain ⟨⟨-, hchild⟩, -, hparent⟩ := h.follows
  apply exchange_of_prefix haddr hlen
  · rwa [← hchild]
  · rwa [← hparent]

theorem ops_setIp (servOpts : Options) (hopen : opens 0 = true) {address : Imsg}
    (htype : address.type = imsgSetIp)
    (hlen : address.data.length < bufSize) :
    ((State.createDev servOpts opens {}).dispatch servOpts opens address).ops =
        setupOps servOpts address ∧
      ((State.createDev servOpts opens {}).dispatch servOpts opens address).Inside := by
  have hcreate : State.createDev servOpts opens {} =
      { dev := some 0, tries := 1, ops := [.open servOpts.tunnel 0, .getFd 0, .compose 0] } :=
    if_pos hopen
  have hinside : (State.createDev servOpts opens {}).Inside := by rw [hcreate]; exact nofun
  have hne : address.type ≠ imsgCreateDev := by rw [htype]; decide
  have hdev : (State.createDev servOpts opens {}).dev = some 0 := by rw [hcreate]
  rw [State.dispatch, if_neg (not_not_intro hinside), if_neg hne, if_pos htype,
    setIp_of_lt hdev hinside hlen]
  refine ⟨by rw [hcreate]; rfl, ?_⟩
  exact List.forall_mem_append.mpr ⟨hinside, inside_bufWrites_iff.mpr hlen⟩

theorem inside_createDev : (State.createDev servOpts opens {}).Inside := by
  rw [State.createDev]
  split <;> exact nofun

theorem ops_createDev (address : Imsg) :
    (State.createDev servOpts opens {}).ops <+: setupOps servOpts address := by
  rw [State.createDev]
  split
  · exact ⟨[.setIp 0 (bufContents address.data) address, .up 0], rfl⟩
  · exact List.nil_prefix

theorem Started.apps (h : Started servOpts opens host iovMax pidChild pidParent moves s)
    (haddr : servOpts.addr = some addr) (hlen : (ofMemory addr).length < bufSize) :
    (s.left.sink.app = {} ∧ s.right.sink.app = {}) ∨
      (s.left.sink.app = {} ∧ s.right.sink.app = State.createDev servOpts opens {}) ∨
      opens 0 = true ∧ s.left.sink.app = { devices := [some 0] } ∧
        (s.right.sink.app = State.createDev servOpts opens {} ∨
          s.right.sink.app = (State.createDev servOpts opens {}).dispatch servOpts opens
            (addressImsg pidChild addr hlen)) := by
  obtain ⟨⟨-, hchild⟩, -, hparent⟩ := h.follows
  replace hchild := congrArg Prod.fst hchild
  replace hparent := congrArg Prod.fst hparent
  have hexchange := h.exchange haddr hlen
  generalize s.left.sink.handled = cs at hexchange hchild
  generalize s.right.sink.handled = ps at hexchange hparent
  cases hexchange with
  | start => exact .inl ⟨hchild, hparent⟩
  | asked =>
    rw [List.foldl_cons, answer_parent_create] at hparent
    exact .inr (.inl ⟨hchild, hparent⟩)
  | passed hopen =>
    rw [List.foldl_cons, answer_child_device haddr hlen] at hchild
    rw [List.foldl_cons, answer_parent_create] at hparent
    exact .inr (.inr ⟨hopen, hchild, .inl hparent⟩)
  | done hopen =>
    rw [List.foldl_cons, answer_child_device haddr hlen] at hchild
    rw [List.foldl_cons, answer_parent_create, List.foldl_cons, answer_parent_of_setIp rfl]
      at hparent
    exact .inr (.inr ⟨hopen, hchild, .inr hparent⟩)

theorem up_notMem_createDev : DeviceOp.up 0 ∉ (State.createDev servOpts opens {}).ops := by
  rw [State.createDev]
  split <;> simp

structure Link.Quiet (s : Link Child State) : Prop where
  left : s.left.sink.w.queued = 0
  right : s.right.sink.w.queued = 0
  toLeft : elems s.toLeft = []
  toRight : elems s.toRight = []

def fourCallbacks : List Move :=
  [.left (.callback { read := false, write := true, send := .sent 16 }),
    .right (.callback { read := true, write := true, recv := .got 16 true, send := .sent 16 }),
    .left (.callback { read := true, write := true, recv := .got 16 true, send := .sent 19 }),
    .right (.callback { read := true, write := true, recv := .got 19 true })]

def shortAddress : Options := { addr := some [49, 47, 50] }

theorem length_shortAddress : (ofMemory [49, 47, 50]).length < bufSize := by decide

theorem started_fourCallbacks : ∃ s : Link Child State,
    Started shortAddress (fun _ => true) .little 1024 1 2 fourCallbacks s ∧ s.Quiet := by
  refine ⟨_, ⟨.cons rfl (.cons rfl (.cons rfl (.cons rfl (.cons rfl (.nil _))))), ?_⟩,
    rfl, rfl, rfl, rfl⟩
  simp [fourCallbacks, Move.IsCallback, Move.Sound, Move.Allocated, Action.Sound, Action.Allocated,
    Recv.Sound]

/--
However the callbacks alternate, the device is set up in one order: it is opened, its
descriptor is passed and given to the server once, and only then it gets its address and is put
up.
-/
theorem startup_in_order (h : Started servOpts opens host iovMax pidChild pidParent moves s)
    (haddr : servOpts.addr = some addr) (hlen : (ofMemory addr).length < bufSize) :
    s.left.sink.app.fault = false ∧ s.right.sink.app.Inside ∧
      s.left.sink.app.devices <+: [some 0] ∧
      s.right.sink.app.ops <+: setupOps servOpts (addressImsg pidChild addr hlen) ∧
      (.up 0 ∈ s.right.sink.app.ops → s.left.sink.app.devices = [some 0]) := by
  rcases h.apps haddr hlen with ⟨hchild, hparent⟩ | ⟨hchild, hparent⟩ |
    ⟨hopen, hchild, hparent | hparent⟩
  · rw [hchild, hparent]
    exact ⟨rfl, nofun, List.nil_prefix, List.nil_prefix, nofun⟩
  · rw [hchild, hparent]
    exact ⟨rfl, inside_createDev, List.nil_prefix, ops_createDev _,
      fun hup => absurd hup up_notMem_createDev⟩
  · rw [hchild, hparent]
    exact ⟨rfl, inside_createDev, List.prefix_rfl, ops_createDev _, fun _ => rfl⟩
  · obtain ⟨hops, hinside⟩ := ops_setIp servOpts hopen
      (rfl : (addressImsg pidChild addr hlen).type = imsgSetIp) hlen
    rw [hchild, hparent]
    exact ⟨rfl, hinside, List.prefix_rfl, hops ▸ List.prefix_rfl, fun _ => rfl⟩

theorem startup_in_order_fourCallbacks : ∃ s : Link Child State,
    Started shortAddress (fun _ => true) .little 1024 1 2 fourCallbacks s ∧
      s.right.sink.app.ops <+: setupOps shortAddress (addressImsg 1 _ length_shortAddress) := by
  obtain ⟨s, hs, -⟩ := started_fourCallbacks
  exact ⟨s, hs, (startup_in_order hs rfl length_shortAddress).2.2.2.1⟩

theorem Started.handled_eq (h : Started servOpts opens host iovMax pidChild pidParent moves s)
    (hquiet : s.Quiet) :
    s.left.sink.handled = s.right.sink.composed ∧ s.right.sink.handled = s.left.sink.composed := by
  have hordered := Link.ordered_of_run h.run fun mv hmv => (h.sound_all mv hmv).1
  have hrested := Link.rested_of_run h.run h.sound_all
  constructor
  · apply hordered.left.arrives.eq_of_rested _ hrested.1
    rw [elems_append, hquiet.toLeft, List.nil_append]
    exact hordered.right.waiting.tokens_eq_nil_iff.mpr hquiet.right
  · apply hordered.right.arrives.eq_of_rested _ hrested.2
    rw [elems_append, hquiet.toRight, List.nil_append]
    exact hordered.left.waiting.tokens_eq_nil_iff.mpr hquiet.left

theorem Started.set_up (h : Started servOpts opens host iovMax pidChild pidParent moves s)
    (haddr : servOpts.addr = some addr) (hlen : (ofMemory addr).length < bufSize)
    (hopen : opens 0 = true) (hquiet : s.Quiet) :
    s.left.sink.app = { devices := [some 0] } ∧
      s.right.sink.app = (State.createDev servOpts opens {}).dispatch servOpts opens
        (addressImsg pidChild addr hlen) := by
  obtain ⟨hleft, hright⟩ := h.handled_eq hquiet
  obtain ⟨⟨-, hchild⟩, -, hparent⟩ := h.follows
  have hexchange := h.exchange haddr hlen
  rw [← hright] at hchild
  rw [← hleft] at hparent
  generalize s.left.sink.handled = cs at hexchange hchild hparent
  generalize s.right.sink.handled = ps at hexchange hchild hparent
  cases hexchange with
  | start => cases congrArg Prod.snd hchild
  | asked =>
    rw [List.foldl_cons, answer_parent_create, if_pos hopen] at hparent
    cases congrArg Prod.snd hparent
  | passed =>
    rw [List.foldl_cons, answer_child_device haddr hlen] at hchild
    cases congrArg Prod.snd hchild
  | done =>
    rw [List.foldl_cons, answer_child_device haddr hlen] at hchild
    rw [List.foldl_cons, answer_parent_create, List.foldl_cons, answer_parent_of_setIp rfl]
      at hparent
    exact ⟨congrArg Prod.fst hchild, congrArg Prod.fst hparent⟩

/-- Whenever nothing is on its way any more, the device has been set up and given to the server. -/
theorem startup_complete (h : Started servOpts opens host iovMax pidChild pidParent moves s)
    (haddr : servOpts.addr = some addr) (hlen : (ofMemory addr).length < bufSize)
    (hopen : opens 0 = true) (hquiet : s.Quiet) :
    s.left.sink.app.devices = [some 0] ∧
      s.right.sink.app.ops = setupOps servOpts (addressImsg pidChild addr hlen) := by
  obtain ⟨hchild, hparent⟩ := h.set_up haddr hlen hopen hquiet
  rw [hchild, hparent]
  exact ⟨rfl, (ops_setIp servOpts hopen rfl hlen).1⟩

theorem startup_complete_fourCallbacks : ∃ s : Link Child State,
    Started shortAddress (fun _ => true) .little 1024 1 2 fourCallbacks s ∧
      s.left.sink.app.devices = [some 0] ∧
      s.right.sink.app.ops = setupOps shortAddress (addressImsg 1 _ length_shortAddress) := by
  obtain ⟨s, hs, hquiet⟩ := started_fourCallbacks
  exact ⟨s, hs, startup_complete hs rfl length_shortAddress rfl hquiet⟩

end Start

end Tnetacle.Privileged
