import Tnetacle.Meta.Lines

/-! # The lines that register a peer

What a line of an established connection asks for, stated on its tokens and apart from the
reader: a port from 1 to 65535, written in decimal after the word `udp_port`. The reader
does as asked exactly on the lines that it cannot take for something else.
-/

namespace Tnetacle.Meta

open ByteOrder CString

def tokens (line : List Byte) : List Str :=
  ((ofMemory line).dropWhile (delimiters.contains ·)).splitOnP (delimiters.contains ·)

def portNumber (token : Str) : Option ℕ :=
  if token ≠ [] ∧ (∀ b ∈ token, isDigit b = true) ∧ 1 ≤ leadingDigits token ∧
      leadingDigits token ≤ 65535 then
    some (leadingDigits token)
  else none

def requestedPort (line : List Byte) : Option ℕ :=
  match tokens line with
  | cmdName :: arg :: _ => if cmdName = ascii "udp_port" then portNumber arg else none
  | _ => none

def peerAt (P : Platform) (mc : Mc) (port : ℕ) : UdpPeer :=
  ⟨endpointSetPort P (endpointInit mc.address.sa) (BitVec.ofNat 16 port), dtlsDisable, mc.bev.ptr⟩

def requestedPeers (P : Platform) (mc : Mc) (lines : List (List Byte)) : List UdpPeer :=
  (lines.filterMap requestedPort).map (peerAt P mc)

/-- The first token cannot be taken for the keyword, or the line asks for a port. -/
def plain (line : List Byte) : Bool :=
  !decide ((tokens line).headD [] <+: ascii "udp_port") || (requestedPort line).isSome

section

variable {P : Platform} {mc : Mc}

theorem ip_peerAt (port : ℕ) : (peerAt P mc port).peerAddr.addr.ip = mc.address.sa.ip :=
  ip_endpointSetPort P _ _

theorem endpointPort_peerAt {port : ℕ} (h : port ≤ 65535) :
    (endpointPort P (peerAt P mc port).peerAddr).toNat = port := by
  rw [peerAt, endpointPort_setPort, BitVec.toNat_ofNat]
  omega

/-! ## The tokens of the reader -/

theorem split_eq_tokens (line : List Byte) : split (ofMemory line) = tokens line := by
  rw [split_eq_splitOnP, drop_strspn, tokens]

theorem head_splitOnP {α : Type*} (p : α → Bool) (l : List α) :
    ∃ rest, l.splitOnP p = l.takeWhile (fun x => !p x) :: rest := by
  induction l with
  | nil => exact ⟨[], rfl⟩
  | cons a l ih =>
    obtain ⟨rest, hrest⟩ := ih
    rw [List.splitOnP_cons_eq_if_modifyHead, hrest]
    cases hp : p a with
    | true => exact ⟨_, by simp [hp]; rfl⟩
    | false => exact ⟨rest, by simp [hp]⟩

theorem exists_tokens_eq (line : List Byte) :
    ∃ cmdName rest, tokens line = cmdName :: rest ∧ (0 : Byte) ∉ cmdName := by
  obtain ⟨rest, hrest⟩ := head_splitOnP (delimiters.contains ·)
    ((ofMemory line).dropWhile (delimiters.contains ·))
  refine ⟨_, rest, hrest, fun hmem => ?_⟩
  have hdrop := (List.dropWhile_sublist _).mem ((List.takeWhile_sublist _).mem hmem)
  have hne := List.mem_takeWhile_imp hdrop
  simp at hne

theorem udpPortArg_of_tokens {line : List Byte} {cmdName : Str} {rest : List Str}
    (h : tokens line = cmdName :: rest) (h0 : (0 : Byte) ∉ cmdName) :
    udpPortArg line = if cmdName <+: ascii "udp_port" then some rest.head? else none := by
  rw [udpPortArg, split_eq_tokens, h]
  simp only [List.getElem?_cons_zero, List.getElem?_cons_succ, strncmp_udp_port_iff h0,
    List.head?_eq_getElem?]

theorem linePeer_of_portNumber {arg : Str} {port : ℕ} (h : portNumber arg = some port) :
    linePeer P mc arg = peerAt P mc port := by
  unfold portNumber at h
  split at h
  · rename_i harg
    obtain ⟨hne, hdigits, -, hle⟩ := harg
    obtain rfl := Option.some.inj h
    rw [linePeer, peerAt, Server.lineEndpoint, atoi_of_digits hne hdigits (by omega),
      BitVec.ofInt_natCast]
  · cases h

theorem keyword_of_requestedPort {line : List Byte} {port : ℕ}
    (h : requestedPort line = some port) :
    ∃ arg rest, tokens line = ascii "udp_port" :: arg :: rest ∧ portNumber arg = some port := by
  unfold requestedPort at h
  split at h
  · rename_i cmdName arg rest htokens
    split at h
    · rename_i hcmd
      exact ⟨arg, rest, hcmd ▸ htokens, h⟩
    · cases h
  · cases h

/-- A plain line is ignored or registers the port that it asks for; every other line is taken for
a request that it is not. -/
theorem line_cases (P : Platform) (mc : Mc) (line : List Byte) :
    (plain line = true ∧ udpPortArg line = none ∧ requestedPort line = none) ∨
    (plain line = true ∧ ∃ arg port, udpPortArg line = some (some arg) ∧
      requestedPort line = some port ∧ linePeer P mc arg = peerAt P mc port) ∨
    (plain line = false ∧ udpPortArg line ≠ none ∧ requestedPort line = none) := by
  cases hport : requestedPort line with
  | some port =>
    obtain ⟨arg, rest, htokens, harg⟩ := keyword_of_requestedPort hport
    refine .inr (.inl ⟨by simp [plain, hport], arg, port, ?_, rfl, linePeer_of_portNumber harg⟩)
    rw [udpPortArg_of_tokens htokens (by decide), if_pos (List.prefix_refl _)]
    rfl
  | none =>
    obtain ⟨cmdName, rest, htokens, h0⟩ := exists_tokens_eq line
    by_cases hpre : cmdName <+: ascii "udp_port"
    · refine .inr (.inr ⟨by simp [plain, hport, htokens, hpre], ?_, rfl⟩)
      rw [udpPortArg_of_tokens htokens h0, if_pos hpre]
      exact Option.some_ne_none _
    · refine .inl ⟨by simp [plain, htokens, hpre], ?_, rfl⟩
      rw [udpPortArg_of_tokens htokens h0, if_neg hpre]

/-! ## Lists of lines -/

theorem length_requestedPeers_le (P : Platform) (mc : Mc) {lines : List (List Byte)}
    (h : lines.any missingArg = false) :
    (requestedPeers P mc lines).length ≤ (registrations P mc lines).length := by
  induction lines with
  | nil => exact Nat.le_refl 0
  | cons line lines ih =>
    rw [List.any_cons, Bool.or_eq_false_iff] at h
    have hle := ih h.2
    simp only [requestedPeers, List.length_map] at hle ⊢
    rcases line_cases P mc line with ⟨-, harg, hport⟩ | ⟨-, arg, port, harg, hport, -⟩ |
      ⟨-, harg, hport⟩
    · simpa [registrations, harg, hport] using hle
    · simpa [registrations, harg, hport] using hle
    · obtain ⟨_ | arg, harg⟩ := Option.ne_none_iff_exists'.mp harg
      · simp [missingArg, harg] at h
      · simp only [registrations, harg, List.filterMap_cons, hport, List.length_cons]
        omega

/-- The lines register what they ask for, and none of them fails, exactly when all are plain. -/
theorem registrations_eq_iff (P : Platform) (mc : Mc) (lines : List (List Byte)) :
    (lines.any missingArg = false ∧ registrations P mc lines = requestedPeers P mc lines) ↔
      ∀ line ∈ lines, plain line = true := by
  induction lines with
  | nil => simp [registrations, requestedPeers]
  | cons line lines ih =>
    rw [List.forall_mem_cons, ← ih, List.any_cons, Bool.or_eq_false_iff]
    rcases line_cases P mc line with ⟨hplain, harg, hport⟩ |
      ⟨hplain, arg, port, harg, hport, hpeer⟩ | ⟨hplain, harg, hport⟩
    · simp [registrations, requestedPeers, missingArg, harg, hport, hplain]
    · simp [registrations, requestedPeers, missingArg, harg, hport, hplain, hpeer]
    · simp only [hplain, Bool.false_eq_true, false_and, iff_false]
      rintro ⟨⟨hmissing, hrest⟩, heq⟩
      obtain ⟨_ | arg, harg⟩ := Option.ne_none_iff_exists'.mp harg
      · simp [missingArg, harg] at hmissing
      · have hle := length_requestedPeers_le P mc hrest
        have hlen := congrArg List.length heq
        simp only [registrations, harg, requestedPeers, List.filterMap_cons, hport,
          List.length_cons, List.length_map] at hlen hle
        omega

/--
Whatever bytes an established connection receives, the reader registers for every line that
asks for a port exactly one peer, with the address of the connection and that port, nothing
for any other line, and uses no missing token, exactly when all the lines are plain.
-/
theorem read_cb_as_requested_iff (P : Platform) (mc : Mc) {s : Server} (hs : s.fault = none)
    (hmc : s.peers.find? (findBev mc.bev.ptr) = some mc) (bytes : List Byte) :
    (((s.receive mc.bev.ptr bytes).serverMcReadCb P mc.bev.ptr).fault = none ∧
      ((s.receive mc.bev.ptr bytes).serverMcReadCb P mc.bev.ptr).udp.udpPeers =
        s.udp.udpPeers ++ requestedPeers P mc (s.linesOf mc.bev.ptr bytes)) ↔
    ∀ line ∈ s.linesOf mc.bev.ptr bytes, plain line = true := by
  rw [serverMcReadCb_of_some hs hmc, ← registrations_eq_iff P mc]
  apply and_congr
  · cases (s.linesOf mc.bev.ptr bytes).any missingArg <;> simp
  · exact List.append_right_inj _

end

def onlyMc : Mc := ⟨⟨0, .inet 0x0a000001 0⟩, ⟨1, none⟩, .disable⟩

def onlyServer : Server := { peers := [onlyMc], udp := ⟨endpointInit (.inet 0 0), []⟩ }

/-- A greeting is ignored, and the line behind it registers the port 5000. -/
theorem read_cb_as_requested_hello :
    let t := (onlyServer.receive 1 (ascii "Hello ~!\r\nudp_port:5000\r\n")).serverMcReadCb
      .reference 1
    t.fault = none ∧ t.udp.udpPeers = [peerAt .reference onlyMc 5000] := by
  have hmc : onlyServer.peers.find? (findBev onlyMc.bev.ptr) = some onlyMc := rfl
  exact (read_cb_as_requested_iff .reference onlyMc rfl hmc
    (ascii "Hello ~!\r\nudp_port:5000\r\n")).mpr (by decide)

/-- An empty line uses a token that is missing; a beginning of the keyword and a number that is
no port register a peer. -/
theorem read_cb_not_as_requested :
    ((onlyServer.receive 1 (ascii "\r\n")).serverMcReadCb .reference 1).fault =
        some .badPointer ∧
      ((onlyServer.receive 1 (ascii "udp:5000\r\n")).serverMcReadCb .reference 1).udp.udpPeers =
        [peerAt .reference onlyMc 5000] ∧
      ((onlyServer.receive 1 (ascii "udp_port:70000\r\n")).serverMcReadCb
        .reference 1).udp.udpPeers = [peerAt .reference onlyMc 4464] := by
  have hmc : onlyServer.peers.find? (findBev onlyMc.bev.ptr) = some onlyMc := rfl
  have hptr : 1 = onlyMc.bev.ptr := rfl
  have hempty : udpPortArg [] = some none :=
    udpPortArg_of_tokens (by decide : tokens [] = [[]]) (by decide)
  have hbeginning : udpPortArg (ascii "udp:5000") = some (some (ascii "5000")) :=
    udpPortArg_of_tokens (by decide : tokens (ascii "udp:5000") = [ascii "udp", ascii "5000"])
      (by decide)
  have hrange : udpPortArg (ascii "udp_port:70000") = some (some (ascii "70000")) :=
    udpPortArg_of_tokens
      (by decide : tokens (ascii "udp_port:70000") = [ascii "udp_port", ascii "70000"]) (by decide)
  refine ⟨?_, ?_, ?_⟩
  · have hlines : onlyServer.linesOf onlyMc.bev.ptr (ascii "\r\n") = [[]] := by decide
    rw [hptr, serverMcReadCb_of_some rfl hmc]
    simp only [hlines, List.any_cons, missingArg, hempty]
    rfl
  · have hlines : onlyServer.linesOf onlyMc.bev.ptr (ascii "udp:5000\r\n") =
        [ascii "udp:5000"] := by decide
    rw [hptr, serverMcReadCb_of_some rfl hmc]
    simp only [Server.registered, hlines, registrations, hbeginning]
    decide
  · have hlines : onlyServer.linesOf onlyMc.bev.ptr (ascii "udp_port:70000\r\n") =
        [ascii "udp_port:70000"] := by decide
    rw [hptr, serverMcReadCb_of_some rfl hmc]
    simp only [Server.registered, hlines, registrations, hrange]
    decide

end Tnetacle.Meta
