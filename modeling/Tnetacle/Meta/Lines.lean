import Tnetacle.Meta.Server

/-! # The lines of a meta-connection

`server_mc_read_cb` in closed form: what one line asks for, what a list of lines
registers, and what the two lines of the handshake mean.
-/

namespace Tnetacle.Meta

open ByteOrder CString LineBuffer

/-- The argument of a `udp_port` line, or `some none` when it has none. -/
def udpPortArg (line : List Byte) : Option (Option Str) :=
  match (split (ofMemory line))[0]? with
  | none => some none
  | some cmdName =>
    if strncmp cmdName (ascii "udp_port") cmdName.length = 0 then
      some (split (ofMemory line))[1]?
    else none

def missingArg (line : List Byte) : Bool := udpPortArg line = some none

section Read

variable (P : Platform) (mc : Mc)

/-- The peer that a `udp_port` line registers. -/
def linePeer (arg : Str) : UdpPeer := ⟨Server.lineEndpoint P mc arg, dtlsDisable, mc.bev.ptr⟩

/-- The peers registered by the lines up to the first one without its argument. -/
def registrations : List (List Byte) → List UdpPeer
  | [] => []
  | line :: lines =>
    match udpPortArg line with
    | none => registrations lines
    | some none => []
    | some (some arg) => linePeer P mc arg :: registrations lines

theorem readLine_eq (s : Server) (line : List Byte) :
    s.readLine P mc line = match udpPortArg line with
      | none => s
      | some none => { s with fault := some .badPointer }
      | some (some arg) =>
        { s with udp := { s.udp with udpPeers := s.udp.udpPeers ++ [linePeer P mc arg] } } := by
  unfold Server.readLine udpPortArg
  cases hcmd : (split (ofMemory line))[0]? with
  | none => simp [hcmd]
  | some cmdName =>
    simp only [hcmd]
    split
    · cases (split (ofMemory line))[1]? <;> rfl
    · rfl

theorem readLines_of_fault {s : Server} (hs : s.fault.isSome) (lines : List (List Byte)) :
    s.readLines P mc lines = s := by
  induction lines with
  | nil => rfl
  | cons line lines ih =>
    rw [Server.readLines, List.foldl_cons, if_pos hs]
    exact ih

theorem readLines_eq {s : Server} (hs : s.fault = none) (lines : List (List Byte)) :
    s.readLines P mc lines = { s with
      udp := { s.udp with udpPeers := s.udp.udpPeers ++ registrations P mc lines }
      fault := if lines.any missingArg then some .badPointer else none } := by
  induction lines generalizing s with
  | nil => simp [Server.readLines, registrations, ← hs]
  | cons line lines ih =>
    have hcons : s.readLines P mc (line :: lines) =
        (s.readLine P mc line).readLines P mc lines := by
      simp [Server.readLines, hs]
    rw [hcons, readLine_eq, registrations]
    rcases harg : udpPortArg line with _ | _ | arg
    · rw [ih hs]
      simp [missingArg, harg]
    · rw [readLines_of_fault P mc rfl]
      simp [missingArg, harg]
    · rw [ih (by exact hs)]
      simp [missingArg, harg]

variable {P mc} {s : Server}

theorem mem_registrations {lines : List (List Byte)} {u : UdpPeer}
    (h : u ∈ registrations P mc lines) :
    u.onBehalf = mc.bev.ptr ∧ u.peerAddr.addr.ip = mc.address.sa.ip := by
  induction lines with
  | nil => cases h
  | cons line lines ih =>
    rw [registrations] at h
    rcases harg : udpPortArg line with _ | _ | arg
    · rw [harg] at h; exact ih h
    · rw [harg] at h; cases h
    · rw [harg] at h
      rcases List.mem_cons.mp h with rfl | h
      · exact ⟨rfl, ip_endpointSetPort P _ _⟩
      · exact ih h

theorem ptr_eq_of_find? {l : List Mc} {bev : ℕ} (h : l.find? (findBev bev) = some mc) :
    mc.bev.ptr = bev := by
  simpa [findBev] using List.find?_some h

def Server.linesOf (s : Server) (bev : ℕ) (bytes : List Byte) : List (List Byte) :=
  (drain (s.input bev ++ bytes)).1

def Server.registered (P : Platform) (s : Server) (mc : Mc) (bytes : List Byte) : List UdpPeer :=
  registrations P mc (s.linesOf mc.bev.ptr bytes)

theorem serverMcReadCb_of_none {bev : ℕ} {bytes : List Byte}
    (h : s.peers.find? (findBev bev) = none) :
    (s.receive bev bytes).serverMcReadCb P bev = s.receive bev bytes := by
  unfold Server.serverMcReadCb
  simp [Server.receive, h]

theorem serverMcReadCb_of_some {bytes : List Byte} (hs : s.fault = none)
    (h : s.peers.find? (findBev mc.bev.ptr) = some mc) :
    (s.receive mc.bev.ptr bytes).serverMcReadCb P mc.bev.ptr = { s with
      input := Function.update s.input mc.bev.ptr (drain (s.input mc.bev.ptr ++ bytes)).2
      udp := { s.udp with udpPeers := s.udp.udpPeers ++ s.registered P mc bytes }
      fault :=
        if (s.linesOf mc.bev.ptr bytes).any missingArg then some .badPointer else none } := by
  unfold Server.serverMcReadCb
  simp only [Server.receive, h, Function.update_self, Function.update_idem]
  rw [readLines_eq P mc (by exact hs)]
  rfl

end Read

section Handshake

/-- A command is taken for `udp_port` when it is a prefix of that word. -/
theorem strncmp_udp_port_iff {cmd : Str} (h : (0 : Byte) ∉ cmd) :
    strncmp cmd (ascii "udp_port") cmd.length = 0 ↔ cmd <+: ascii "udp_port" := by
  rw [strncmp_eq_zero_iff h (by decide), List.take_length, List.prefix_iff_eq_take]

/-- The line that `mc_hello` writes. -/
def helloLine : List Byte := ascii "Hello ~!"

/-- The line that `mc_establish_tunnel` writes for a port. -/
def tunnelLine (port : ℕ) : List Byte := ascii "udp_port:" ++ printDecimal port

theorem udpPortArg_helloLine : udpPortArg helloLine = none := by
  have hsplit : split (ofMemory helloLine) = [ascii "Hello", ascii "~!"] := by
    rw [split_eq_splitOnP]
    decide
  have hcmd : ¬ ascii "Hello" <+: ascii "udp_port" := by decide
  simp only [udpPortArg, hsplit, List.getElem?_cons_zero]
  rw [if_neg (mt (strncmp_udp_port_iff (by decide)).mp hcmd)]

theorem isDigit_notMem {b : Byte} (hb : isDigit b = false) (n : ℕ) : b ∉ printDecimal n := by
  intro h
  rw [isDigit_of_mem_printDecimal n h] at hb
  cases hb

theorem notMem_tunnelLine {b : Byte} (hb : isDigit b = false) (h : b ∉ ascii "udp_port:") (n : ℕ) :
    b ∉ tunnelLine n := by
  rw [tunnelLine, List.mem_append, not_or]
  exact ⟨h, isDigit_notMem hb n⟩

theorem split_tunnelLine (n : ℕ) : split (tunnelLine n) = [ascii "udp_port", printDecimal n] := by
  have hdigits : ∀ b ∈ printDecimal n, delimiters.contains b = false := by
    intro b hb
    by_contra h
    have hmem : b ∈ delimiters := by simpa using h
    have hno : ∀ d ∈ delimiters, isDigit d = false := by decide
    exact isDigit_notMem (hno b hmem) n hb
  have hspan : strspn (tunnelLine n) delimiters = 0 := rfl
  have hword : ∀ b ∈ ascii "udp_port", delimiters.contains b = false := by decide
  have hcut : tunnelLine n = ascii "udp_port" ++ 58 :: printDecimal n := rfl
  rw [split_eq_splitOnP, hspan, List.drop_zero, hcut,
    List.splitOnP_append_cons_of_forall_mem hword 58 (by decide),
    List.splitOnP_eq_singleton hdigits]

theorem udpPortArg_tunnelLine (n : ℕ) :
    udpPortArg (tunnelLine n) = some (some (printDecimal n)) := by
  have hmem : ofMemory (tunnelLine n) = tunnelLine n :=
    ofMemory_eq_self (notMem_tunnelLine (by decide) (by decide) n)
  simp only [udpPortArg, hmem, split_tunnelLine, List.getElem?_cons_zero]
  rw [if_pos (by decide)]
  rfl

theorem drain_tunnelLine (n : ℕ) (rest : List Byte) :
    drain (tunnelLine n ++ ascii "\r\n" ++ rest) =
      (tunnelLine n :: (drain rest).1, (drain rest).2) := by
  have hcrlf : ascii "\r\n" = [carriageReturn, lineFeed] := by decide
  rw [hcrlf, List.append_assoc]
  exact drain_line (notMem_tunnelLine (by decide) (by decide) n) rest

theorem step_read_tunnelLine {P : Platform} {s : Server} (mc : Mc) (hs : s.fault = none)
    (hb : mc.bev.ptr ∈ s.bevs) (hmc : s.peers.find? (findBev mc.bev.ptr) = some mc)
    (hin : s.input mc.bev.ptr = []) (n : ℕ) :
    step P s (.read mc.bev.ptr (tunnelLine n ++ ascii "\r\n")) = some { s with
      input := Function.update s.input mc.bev.ptr []
      udp := { s.udp with udpPeers := s.udp.udpPeers ++ [linePeer P mc (printDecimal n)] }
      fault := none } := by
  have hd : drain (s.input mc.bev.ptr ++ (tunnelLine n ++ ascii "\r\n")) =
      ([tunnelLine n], []) := by
    have h := drain_tunnelLine n []
    rw [List.append_nil] at h
    rw [hin, List.nil_append, h]
    rfl
  simp only [step, hs, Option.isSome_none, Bool.false_eq_true, if_false, if_pos hb]
  rw [serverMcReadCb_of_some hs hmc]
  simp [Server.registered, Server.linesOf, hd, registrations, missingArg, udpPortArg_tunnelLine]

end Handshake

end Tnetacle.Meta
