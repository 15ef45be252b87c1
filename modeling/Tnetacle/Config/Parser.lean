import Tnetacle.Library.CString
import Tnetacle.Meta.Endpoint

/-! # The configuration parser

The callbacks that `conf.c` gives to yajl, which act on each value as it is met, under the
last key seen. A callback that returns `-1` does not stop the parser. A port table or an address
buffer that overflows is a fault. The NUL that the message for an unknown key puts behind a copy of
the key on the stack is not followed.
-/

namespace Tnetacle.Config

open ByteOrder CString
open Meta (Sockaddr)

inductive AddrFamily | unspec | inet | inet6
  deriving DecidableEq, Repr

/-- `struct options`; of the port tables only the entries in use. -/
structure Options where
  tunnel : ℕ := 0
  tunnelIndex : Int := -1
  mode : ℕ := 0
  debug : Bool := false
  compression : Bool := true
  encryption : Bool := true
  ports : List ℕ := []
  cports : List ℕ := []
  addrFamily : AddrFamily := .unspec
  listenAddrs : List Sockaddr := []
  clientAddrs : List Sockaddr := []
  peerAddrs : List Sockaddr := []
  addr : Option Str := none
  keyPath : Option Str := none
  certPath : Option Str := none
  deriving DecidableEq

def tnetacleMaxPorts : ℕ := 256
def tnetacleDefaultPort : ℕ := 4242
def clientDefaultPort : ℕ := 4243
def inet6Addrstrlen : ℕ := 46

/-- The host, and `evutil_parse_sockaddr_port`, for which a beginning of `any` is no address. -/
structure Evutil where
  host : Endian
  parseSockaddrPort : Str → Option Sockaddr
  parse_any : ∀ s, s <+: ascii "any" → parseSockaddrPort s = none

/-- The state of a parse: the key of `ctx`, the options, and whether memory was overrun. -/
structure Parser where
  map : Option Str := none
  servOpts : Options := {}
  fault : Bool := false
  deriving DecidableEq

/-- `strncmp(name, text, len) == 0`, where `text` has `len` bytes. -/
def named (name : String) (text : Str) : Bool := strncmp (ascii name) text text.length = 0

variable (E : Evutil)

/-- The addresses `0.0.0.0` and `::` of a family, with a port. -/
def wildcards (family : AddrFamily) (port : ℕ) : List Sockaddr :=
  (if family = .inet ∨ family = .unspec then
    [.inet 0 (htons E.host (BitVec.ofNat 16 port))] else []) ++
  (if family = .inet6 ∨ family = .unspec then
    [.inet6 0 (htons E.host (BitVec.ofNat 16 port)) 0 0] else [])

def addListenAddrsPorts (o : Options) : Options :=
  { o with listenAddrs := o.listenAddrs ++ o.ports.flatMap (wildcards E o.addrFamily) }

def addClientAddrsPorts (o : Options) : Options :=
  { o with clientAddrs := o.clientAddrs ++ o.cports.flatMap (wildcards E o.addrFamily) }

/-- `add_sockaddr`: the vector is unchanged if the text is no address. -/
def addSockaddr (vsp : List Sockaddr) (bufaddr : Str) : List Sockaddr :=
  match E.parseSockaddrPort bufaddr with
  | none => vsp
  | some out => vsp ++ [out]

/-- The first free entry of a table is set, unless there is none. -/
def pushPort (ports : List ℕ) (ret : ℕ) : Option (List ℕ) :=
  if ports.length < tnetacleMaxPorts then some (ports ++ [ret]) else none

def yajlBoolean (val : Bool) (map : Str) (o : Options) : Option Options :=
  if named "Compression" map then some { o with compression := val }
  else if named "Encryption" map then some { o with encryption := val }
  else if named "Debug" map then some { o with debug := val }
  else some o

/-- A number of twenty bytes fills `nptr` without its terminator. -/
def yajlNumber (num : Str) (map : Str) (o : Options) : Option Options :=
  if 20 < num.length then some o
  else if num.length = 20 then none
  else
    let ret := strtol num
    if strtolEnd num ≠ [] ∨ ret < 0 ∨ 65535 < ret then some o
    else if named "TunnelIndex" map then some { o with tunnelIndex := ret }
    else if named "Port" map then
      (pushPort o.ports ret.toNat).map fun ports => { o with ports := ports }
    else if named "ClientPort" map then
      (pushPort o.cports ret.toNat).map fun cports => { o with cports := cports }
    else some o

/-- An address of as many bytes as `bufaddr` has leaves no room for the terminator. -/
def yajlString (str : Str) (map : Str) (o : Options) : Option Options :=
  if named "Address" map then some { o with addr := some (ofMemory str) }
  else if named "AddressFamily" map then
    if named "inet6" str then some { o with addrFamily := .inet }
    else if named "inet" str then some { o with addrFamily := .inet6 }
    else if named "any" str then some { o with addrFamily := .unspec }
    else some o
  else if named "Mode" map then
    if named "router" str then some { o with tunnel := 0 }
    else if named "switch" str then some { o with tunnel := 1 }
    else if named "hub" str then some { o with tunnel := 2 }
    else some o
  else if named "Tunnel" map then
    if named "point-to-point" str then some { o with tunnel := 0 }
    else if named "ethernet" str then some { o with tunnel := 1 }
    else some o
  else if named "PrivateKey" map then some { o with keyPath := some (ofMemory str) }
  else if named "CertFile" map then some { o with certPath := some (ofMemory str) }
  else if named "PeerAddress" map then
    if inet6Addrstrlen ≤ str.length then none
    else some { o with peerAddrs := addSockaddr E o.peerAddrs (ofMemory str) }
  else if named "ListenAddress" map then
    if inet6Addrstrlen ≤ str.length then none
    else if named "any" str then some (addClientAddrsPorts E (addListenAddrsPorts E o))
    else some (addClientAddrsPorts E
      { o with listenAddrs := addSockaddr E o.listenAddrs (ofMemory str) })
  else some o

/-- What yajl reports while it parses a text. -/
inductive Event
  | null
  | boolean (val : Bool)
  | number (num : Str)
  | string (str : Str)
  | startMap
  | mapKey (key : Str)
  | endMap
  | startArray
  | endArray
  deriving DecidableEq

/-- A value is looked at only under a key. -/
def Parser.value (p : Parser) (f : Str → Options → Option Options) : Parser :=
  match p.map with
  | none => p
  | some map =>
    match f map p.servOpts with
    | none => { p with fault := true }
    | some o => { p with servOpts := o }

def step (p : Parser) (e : Event) : Parser :=
  if p.fault then p
  else match e with
    | .null | .startMap | .startArray => p
    | .boolean val => p.value (yajlBoolean val)
    | .number num => p.value (yajlNumber num)
    | .string str => p.value (yajlString E str)
    | .mapKey key => { p with map := some key }
    | .endMap | .endArray => { p with map := none }

def defaults (o : Options) : Options :=
  { o with
    ports := if o.ports = [] then [tnetacleDefaultPort] else o.ports
    cports := if o.cports = [] then [clientDefaultPort] else o.cports }

/-- `tnt_parse_buf`, for a text that yajl reports as the given events. -/
def tntParseBuf (events : List Event) : Parser :=
  let p := events.foldl (step E) {}
  if p.fault then p else { p with servOpts := defaults p.servOpts }

end Tnetacle.Config
