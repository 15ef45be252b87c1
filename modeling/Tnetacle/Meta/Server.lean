import Mathlib.Logic.Function.Basic
import Tnetacle.Library.LineBuffer
import Tnetacle.Meta.Endpoint
import Tnetacle.Meta.Tokens

/-! # The meta-connection machine

The functions of `mc.c` and the callbacks of `server.c` that create, establish
and close meta-connections and register UDP peers. The state keeps, besides the
lists of the server, which bufferevents and address blocks are allocated, so that
a leak or a second release is a fact about states. Pointers are never reused.
-/

namespace Tnetacle.Meta

open ByteOrder CString LineBuffer

inductive TlsFlags | enable | disable
  deriving DecidableEq, Repr

/-- A block of memory that `mc_init` fills with an address and nobody writes again. -/
structure Block where
  ptr : ℕ
  sa : Sockaddr
  deriving DecidableEq, Repr

/-- A bufferevent, with the descriptor it was created on and closes when it is freed. -/
structure Bev where
  ptr : ℕ
  fd : Option ℕ
  deriving DecidableEq, Repr

/-- `struct mc`. -/
structure Mc where
  address : Block
  bev : Bev
  sslFlags : TlsFlags
  deriving DecidableEq, Repr

def Mc.blank : Mc := ⟨⟨0, .inet 0 0⟩, ⟨0, none⟩, .disable⟩

def dtlsDisable : ℕ := 2

/--
`struct udp_peer`. The field `onBehalf` is not in the source and no function reads
it: it names the bufferevent of the connection whose line registered the peer.
-/
structure UdpPeer where
  peerAddr : Endpoint
  sslFlags : ℕ
  onBehalf : ℕ
  deriving DecidableEq

structure Udp where
  udpEndpoint : Endpoint
  udpPeers : List UdpPeer := []

def udpGetPort (P : Platform) (udp : Udp) : Word := endpointPort P udp.udpEndpoint

/-- What ends the process: the use of an invalid pointer, or a release of what is not held. -/
inductive Fault | badPointer | badFree
  deriving DecidableEq, Repr

/-- `struct server`, with the allocations and the buffers of its connections. -/
structure Server where
  serverCtx : Bool := false
  peers : List Mc := []
  pendingPeers : List Mc := []
  udp : Udp
  bevs : List ℕ := []
  blocks : List ℕ := []
  next : ℕ := 0
  closed : List ℕ := []
  input : ℕ → List Byte := fun _ => []
  output : ℕ → List Byte := fun _ => []
  fault : Option Fault := none

def bevEventEof : BitVec 16 := 0x10
def bevEventError : BitVec 16 := 0x20
def bevEventConnected : BitVec 16 := 0x80

/-- Whether the two allocations of `mc_init` succeed. -/
structure Alloc where
  malloc : Bool
  bev : Bool
  deriving DecidableEq, Repr

def findBev (bev : ℕ) (a : Mc) : Bool := a.bev.ptr = bev

def findUdppeer (P : Platform) (s : Sockaddr) (a : UdpPeer) : Bool := P.sameIp a.peerAddr.addr s

def findEstablished (P : Platform) (test : Sockaddr) (mc : Mc) : Bool :=
  P.sameIp mc.address.sa test

namespace Server

variable (P : Platform) (s : Server)

def freeBlock (b : Block) : Server :=
  if b.ptr ∈ s.blocks then { s with blocks := s.blocks.erase b.ptr }
  else { s with fault := some .badFree }

/-- `bufferevent_free(bev)`, which closes the descriptor. -/
def freeBev (b : Bev) : Server :=
  if b.ptr ∈ s.bevs then
    { s with bevs := s.bevs.erase b.ptr, closed := b.fd.toList ++ s.closed }
  else { s with fault := some .badFree }

def allocate : Server :=
  { s with bevs := s.bevs ++ [s.next], blocks := s.blocks ++ [s.next], next := s.next + 1 }

def newMc (fd : Option ℕ) (sock : Sockaddr) : Mc :=
  ⟨⟨s.next, sock⟩, ⟨s.next, fd⟩, if s.serverCtx then .enable else .disable⟩

/--
`mc_init`. When only `malloc` fails the new bufferevent is freed again; when there is
no bufferevent, `bufferevent_free` is called on a null pointer.
-/
def mcInit (fd : Option ℕ) (sock : Sockaddr) (alloc : Alloc) : Option Mc × Server :=
  if alloc.bev then
    if alloc.malloc then (some (s.newMc fd sock), s.allocate)
    else (none, { s with next := s.next + 1, closed := fd.toList ++ s.closed })
  else (none, { s with fault := some .badPointer })

def mcEstablished (sock : Sockaddr) : Bool := s.peers.any (findEstablished P sock)

/-- Never called by the daemon. -/
def mcPending (sock : Sockaddr) : Bool :=
  s.pendingPeers.any (findEstablished P sock)

/-- `v_mc_insert` on the list of pending connections. -/
def insertPending (mc : Mc) : Server := { s with pendingPeers := s.pendingPeers ++ [mc] }

/--
`mc_peer_connect`; `refused` says that `bufferevent_socket_connect` fails at once.
Nothing is released on that path.
-/
def mcPeerConnect (sock : Sockaddr) (alloc : Alloc) (refused : Bool) : Option Mc × Server :=
  if s.mcEstablished P sock then (none, s)
  else match s.mcInit none sock alloc with
    | (none, s) => (none, s)
    | (some mc, s) =>
      if refused then (none, s) else (some mc, s.insertPending mc)

def mcPeerAccept (sock : Sockaddr) (fd : ℕ) (alloc : Alloc) : Option Mc × Server :=
  if s.mcEstablished P sock then (none, { s with closed := fd :: s.closed })
  else match s.mcInit (some fd) sock alloc with
    | (none, s) => (none, s)
    | (some mc, s) => (some mc, s.insertPending mc)

def mcClose (mc : Mc) : Server := (s.freeBlock mc.address).freeBev mc.bev

/-- `evbuffer_add_printf` on the output buffer of a connection. -/
def write (bev : ℕ) (bytes : List Byte) : Server :=
  { s with output := Function.update s.output bev (s.output bev ++ bytes) }

def mcHello (mc : Mc) : Server := s.write mc.bev.ptr (ascii "Hello ~!\r\n")

def mcEstablishTunnel (mc : Mc) : Server :=
  s.write mc.bev.ptr
    (ascii "udp_port:" ++ printDecimal (udpGetPort P s.udp).toNat ++ ascii "\r\n")

/-- The peer is stored as given: the DTLS state is not part of the model. -/
def udpRegisterNewPeer (remote : Endpoint) (sslFlags onBehalf : ℕ) : Server :=
  { s with udp := { s.udp with
      udpPeers := s.udp.udpPeers ++ [⟨endpointCopy remote remote, sslFlags, onBehalf⟩] } }

/-- The `CONNECTED` branch for the pending entry `mc`, when its certificate is at hand. -/
def establish (mc : Mc) : Server :=
  let s₁ := { s with
    pendingPeers := s.pendingPeers.eraseP (findBev mc.bev.ptr), peers := s.peers ++ [mc] }
  (s₁.mcHello mc).mcEstablishTunnel P mc

/--
The `CONNECTED` branch without a certificate: the entry is erased first, and the
pointer to it then shows the entry behind it, or the cell past the end.
-/
def refuse (mc past : Mc) : Server :=
  let i := s.pendingPeers.findIdx (findBev mc.bev.ptr)
  let s₁ := { s with pendingPeers := s.pendingPeers.eraseP (findBev mc.bev.ptr) }
  s₁.mcClose (s₁.pendingPeers[i]?.getD past)

/-- The `EOF` branch for the established entry `mc`. -/
def disconnect (mc : Mc) : Server :=
  let s₁ := { s with
    udp := { s.udp with udpPeers := s.udp.udpPeers.eraseP (findUdppeer P mc.address.sa) } }
  { s₁.mcClose mc with peers := s.peers.eraseP (findBev mc.bev.ptr) }

/-- The `ERROR` branch for a pending entry. -/
def dropPending (mc : Mc) : Server :=
  { s.mcClose mc with pendingPeers := s.pendingPeers.eraseP (findBev mc.bev.ptr) }

/-- The `ERROR` branch for an established entry. -/
def dropPeer (mc : Mc) : Server :=
  { s.mcClose mc with peers := s.peers.eraseP (findBev mc.bev.ptr) }

/--
`server_mc_event_cb`. `cert` says whether the peer has a certificate, and `past` is
what the memory past the end of `pending_peers` holds.
-/
def serverMcEventCb (bev : ℕ) (events : BitVec 16) (cert : Bool) (past : Mc) : Server :=
  if events &&& bevEventConnected ≠ 0 then
    match s.pendingPeers.find? (findBev bev) with
    | none => s
    | some mc =>
      if mc.sslFlags = .enable ∧ cert = false then s.refuse mc past
      else s.establish P mc
  else if events &&& bevEventEof ≠ 0 then
    match s.peers.find? (findBev bev) with
    | none => s
    | some mc => s.disconnect P mc
  else if events &&& bevEventError ≠ 0 then
    match s.pendingPeers.find? (findBev bev) with
    | some mc => s.dropPending mc
    | none =>
      match s.peers.find? (findBev bev) with
      | some mc => s.dropPeer mc
      | none => s
  else s

/-- The endpoint that a `udp_port` line of the connection `mc` names. -/
def lineEndpoint (mc : Mc) (arg : Str) : Endpoint :=
  endpointSetPort P (endpointInit mc.address.sa) (BitVec.ofInt 16 (atoi arg))

/-- The body of the loop of `server_mc_read_cb` on one line. -/
def readLine (mc : Mc) (line : List Byte) : Server :=
  let tokens := split (ofMemory line)
  match tokens[0]? with
  | none => { s with fault := some .badPointer }
  | some cmdName =>
    if strncmp cmdName (ascii "udp_port") cmdName.length = 0 then
      match tokens[1]? with
      | none => { s with fault := some .badPointer }
      | some arg => s.udpRegisterNewPeer (lineEndpoint P mc arg) dtlsDisable mc.bev.ptr
    else s

/-- The loop of `server_mc_read_cb`, which a fault ends; its body leaves the buffer alone. -/
def readLines (mc : Mc) (lines : List (List Byte)) : Server :=
  lines.foldl (fun s line => if s.fault.isSome then s else s.readLine P mc line) s

def receive (bev : ℕ) (bytes : List Byte) : Server :=
  { s with input := Function.update s.input bev (s.input bev ++ bytes) }

def serverMcReadCb (bev : ℕ) : Server :=
  match s.peers.find? (findBev bev) with
  | none => s
  | some mc =>
    let d := drain (s.input bev)
    { s with input := Function.update s.input bev d.2 }.readLines P mc d.1

end Server

/-- One step of the daemon: a call made by it, or a callback that libevent runs. -/
inductive Label
  | connect (sock : Sockaddr) (alloc : Alloc) (refused : Bool)
  | accept (sock : Sockaddr) (fd : ℕ) (alloc : Alloc)
  | event (bev : ℕ) (events : BitVec 16) (cert : Bool) (past : Mc)
  | read (bev : ℕ) (bytes : List Byte)
  deriving DecidableEq

/-- Callbacks are run for bufferevents that exist, and nothing happens after a fault. -/
def step (P : Platform) (s : Server) (l : Label) : Option Server :=
  if s.fault.isSome then none
  else match l with
    | .connect sock alloc refused => some (s.mcPeerConnect P sock alloc refused).2
    | .accept sock fd alloc => some (s.mcPeerAccept P sock fd alloc).2
    | .event bev events cert past =>
      if bev ∈ s.bevs then some (s.serverMcEventCb P bev events cert past) else none
    | .read bev bytes =>
      if bev ∈ s.bevs then some ((s.receive bev bytes).serverMcReadCb P bev) else none

def init (serverCtx : Bool) (udpEndpoint : Endpoint) : Server :=
  { serverCtx := serverCtx, udp := { udpEndpoint := udpEndpoint } }

end Tnetacle.Meta
