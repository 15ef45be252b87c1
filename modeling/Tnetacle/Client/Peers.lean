import Tnetacle.Client.Control
import Tnetacle.Meta.Shutdown

/-! # Peers added by clients

A client on the control channel can ask the daemon to connect to another one. The daemon
answers on the connection of that client, and only if it has a new connection to show for it. It
keeps one place for the connection of a client, which the next client overwrites.
-/

namespace Tnetacle.Client

open ByteOrder CString Meta Runs

/-- The libraries: the parser of commands, `evutil_parse_sockaddr_port`, and `tclt_add_peer`, the
text that is sent back for a peer. -/
structure Control where
  tclt : Tclt
  parseSockaddrPort : Str → Option Sockaddr
  addPeerText : Str → Str

/-- What becomes of the calls that `add_peer` makes. -/
structure Outcome where
  alloc : Alloc
  refused : Bool
  memory : Bool

/-- The daemon with its clients: the bufferevents that have the callbacks of a client, and
`mc_client`, unless its bufferevent could not be made. The answers are recorded with the client,
the peer that it asked for and the connection that was opened for it. -/
structure Controlled where
  server : Server
  clients : List ℕ := []
  mcClient : Option Mc := none
  told : List (ℕ × Str × Mc) := []

inductive ControlLabel
  | daemon (l : Meta.Label)
  | client (sock : Sockaddr) (fd : ℕ) (alloc : Alloc)
  | command (bev : ℕ) (bytes : List Byte) (outcome : ℕ → Outcome)

section Model

variable (P : Platform) (C : Control)

namespace Controlled

/-- `listen_client_callback`. The connection of the client before is overwritten, not closed. -/
def listenClientCallback (c : Controlled) (sock : Sockaddr) (fd : ℕ) (alloc : Alloc) :
    Controlled :=
  match c.server.mcInit (some fd) sock alloc with
  | (none, s) => { c with server := s, mcClient := none }
  | (some mc, s) =>
    { c with server := s, mcClient := some mc, clients := c.clients ++ [mc.bev.ptr] }

/-- `add_peer`, for a command of the client `bev`. -/
def addPeer (c : Controlled) (bev : ℕ) (ip : Str) (o : Outcome) : Controlled :=
  match C.parseSockaddrPort ip with
  | none => c
  | some sock =>
    match c.server.mcPeerConnect P sock o.alloc o.refused with
    | (none, s) => { c with server := s }
    | (some mc, s) =>
      if o.memory then
        { c with server := s.write bev (C.addPeerText ip), told := c.told ++ [(bev, ip, mc)] }
      else { c with server := s }

/-- A callback of the parser; `delete_peer` does nothing, and nothing runs after a fault. -/
def run (c : Controlled) (bev : ℕ) (call : Callback × ℕ) (outcome : ℕ → Outcome) : Controlled :=
  if c.server.fault.isSome then c
  else match call.1 with
    | .addPeer ip => c.addPeer P C bev ip (outcome call.2)
    | .deletePeer _ => c

/-- `client_mc_read_cb`: the callbacks that the buffers run, with the outcomes in their order. -/
def clientMcReadCb (c : Controlled) (bev : ℕ) (bytes : List Byte) (outcome : ℕ → Outcome) :
    Controlled :=
  let channel := Client.receive C.tclt ⟨c.server.input bev, []⟩ bytes
  channel.ran.zipIdx.foldl (fun c call => c.run P C bev call outcome)
    { c with server := { c.server with
        input := Function.update c.server.input bev channel.input } }

def own (c : Controlled) : Meta.Label → Bool
  | .event bev .. | .read bev _ => bev ∉ c.clients
  | _ => true

def step (c : Controlled) : ControlLabel → Option Controlled
  | .daemon l =>
    if c.own l then (serve P c.server l).map fun s => { c with server := s } else none
  | .client sock fd alloc =>
    if c.server.fault.isSome then none else some (c.listenClientCallback sock fd alloc)
  | .command bev bytes outcome =>
    if c.server.fault = none ∧ bev ∈ c.clients then some (c.clientMcReadCb P C bev bytes outcome)
    else none

def answers (c : Controlled) (bev : ℕ) : List Byte :=
  (c.told.filter (·.1 = bev)).flatMap fun entry => C.addPeerText entry.2.1

end Controlled

end Model

/-! ## What the daemon leaves to its clients -/

/-- Between two states, entries of the lists are old or have the new name, and buffers of
bufferevents that are in no list are left alone. -/
structure Keeps (s t : Server) : Prop where
  next : s.next ≤ t.next
  held : ∀ mc ∈ t.held, mc ∈ s.held ∨ mc.bev.ptr = s.next
  output : ∀ b, b < s.next → (∀ mc ∈ s.held, mc.bev.ptr ≠ b) → t.output b = s.output b
  fresh : ∀ b, t.next ≤ b → t.output b = s.output b

section Keeps

variable {P : Platform} {s t : Server} {l : Meta.Label}

theorem keeps_of_spoken (h : Undisturbed s t ∧ Spoken P s t) : Keeps s t := by
  obtain ⟨hsame, hspoken⟩ := h
  cases hspoken with
  | quiet hout hpend hpeers =>
    refine ⟨hsame.next, fun mc hmc => ?_, fun _ _ _ => by rw [hout], fun _ _ => by rw [hout]⟩
    rcases List.mem_append.mp hmc with hmc | hmc
    · exact (hpend mc hmc).imp_left (List.mem_append_left _)
    · exact .inl (List.mem_append_right _ (hpeers hmc))
  | greeted mc hmc hlt hout hpend hpeers =>
    refine ⟨hsame.next, fun mc' hmc' => ?_, fun b hb hne => ?_, fun b hb => ?_⟩
    · rcases List.mem_append.mp hmc' with hmc' | hmc'
      · exact .inl (List.mem_append_left _ (hpend mc' hmc').1)
      · rcases hpeers mc' hmc' with hold | rfl
        · exact .inl (List.mem_append_right _ hold)
        · exact hmc.imp_left (List.mem_append_left _)
    · have hbev : b ≠ mc.bev.ptr := by
        rcases hmc with hold | hnew
        · exact (hne mc (List.mem_append_left _ hold)).symm
        · exact hnew ▸ hb.ne
      rw [hout, Function.update_of_ne hbev]
    · rw [hout, Function.update_of_ne (hlt.trans_le hb).ne']

theorem keeps_of_readBy {bev : ℕ} {bytes : List Byte} (h : ReadBy P s bev bytes t) : Keeps s t := by
  have hheld : t.held = s.held := by
    rw [Server.held, h.lists.pendingPeers, h.lists.peers, Server.held]
  refine ⟨h.lists.next.ge, fun mc hmc => .inl (hheld ▸ hmc), fun _ _ _ => by rw [h.output],
    fun _ _ => by rw [h.output]⟩

theorem keeps_of_serve (hi : s.Identified) (h : serve P s l = some t) : Keeps s t := by
  cases hl : l.isRead with
  | false => exact keeps_of_spoken (spoken_of_serve hi hl h)
  | true =>
    cases l with
    | read bev bytes => exact keeps_of_readBy (readBy_of_step h)
    | _ => cases hl

/-- `mc_peer_connect` is a step of the daemon, from whatever it is called. -/
theorem keeps_mcPeerConnect (hi : s.Identified) (hf : s.fault = none) (sock : Sockaddr)
    (alloc : Alloc) (refused : Bool) :
    (s.mcPeerConnect P sock alloc refused).2.Identified ∧
      Keeps s (s.mcPeerConnect P sock alloc refused).2 := by
  have hstep : Meta.step P s (.connect sock alloc refused) =
      some (s.mcPeerConnect P sock alloc refused).2 := by
    simp [Meta.step, hf]
  exact ⟨identified_step hi hstep, keeps_of_spoken (spoken_of_step hi rfl hstep)⟩

end Keeps

/-! ## What the clients are told -/

/-- The connections of the clients are apart from those of the lists, and what a client has been
sent are the answers to it. -/
structure Controlled.Sound (C : Control) (c : Controlled) : Prop where
  identified : c.server.Identified
  lt : ∀ b ∈ c.clients, b < c.server.next
  apart : ∀ b ∈ c.clients, ∀ mc ∈ c.server.held, mc.bev.ptr ≠ b
  output : ∀ b ∈ c.clients, c.server.output b = c.answers C b
  fresh : ∀ b, c.server.next ≤ b → c.server.output b = []
  asked : ∀ entry ∈ c.told, entry.1 ∈ c.clients
  named : ∀ entry ∈ c.told, C.parseSockaddrPort entry.2.1 = some entry.2.2.address.sa
  opened : ∀ entry ∈ c.told, entry.2.2.bev.ptr < c.server.next
  distinct : (c.told.map (·.2.2.bev.ptr)).Nodup

section Sound

variable {P : Platform} {C : Control} {c c' : Controlled} {t : Server}

namespace Controlled

theorem Sound.keeps (h : c.Sound C) (hclients : c'.clients = c.clients) (htold : c'.told = c.told)
    (hid : c'.server.Identified) (hk : Keeps c.server c'.server) : c'.Sound C where
  identified := hid
  lt b hb := (h.lt b (hclients ▸ hb)).trans_le hk.next
  apart b hb mc hmc := by
    rw [hclients] at hb
    rcases hk.held mc hmc with hold | hnew
    · exact h.apart b hb mc hold
    · rw [hnew]
      exact (h.lt b hb).ne'
  output b hb := by
    rw [hclients] at hb
    rw [hk.output b (h.lt b hb) (h.apart b hb), h.output b hb, answers, answers, htold]
  fresh b hb := (hk.fresh b hb).trans (h.fresh b (hk.next.trans hb))
  asked entry hentry := hclients ▸ h.asked entry (htold ▸ hentry)
  named entry hentry := h.named entry (htold ▸ hentry)
  opened entry hentry := (h.opened entry (htold ▸ hentry)).trans_le hk.next
  distinct := htold ▸ h.distinct

theorem Sound.daemon {l : Meta.Label} (h : c.Sound C) (hstep : serve P c.server l = some t) :
    Sound C { c with server := t } :=
  h.keeps rfl rfl (identified_serve h.identified hstep) (keeps_of_serve h.identified hstep)

theorem Sound.answers_next (h : c.Sound C) : c.answers C c.server.next = [] := by
  have hnone : c.told.filter (·.1 = c.server.next) = [] := by
    rw [List.filter_eq_nil_iff]
    intro entry hentry
    simpa using (h.lt _ (h.asked entry hentry)).ne
  rw [answers, hnone, List.flatMap_nil]

theorem Sound.listenClientCallback (h : c.Sound C) (hf : c.server.fault = none)
    (sock : Sockaddr) (fd : ℕ) (alloc : Alloc) :
    (c.listenClientCallback sock fd alloc).Sound C := by
  unfold Controlled.listenClientCallback
  split
  · rename_i t hnone
    obtain ⟨-, hsame, -⟩ := mcInit_eq_none hf hnone
    have hid : t.Identified := by
      refine h.identified.shrink (by rw [hsame.bevs]) (by rw [hsame.blocks]) ?_ hsame.next
      rw [Server.held, hsame.peers, hsame.pendingPeers]
      exact List.Subperm.refl _
    exact h.keeps rfl rfl hid (keeps_of_spoken (P := .reference) (spoken_mcInit_none hnone))
  · rename_i mc t hsome
    obtain ⟨-, -, rfl, rfl⟩ := mcInit_eq_some hsome
    constructor
    · exact h.identified.allocate
    · intro b hb
      rcases List.mem_append.mp hb with hold | hnew
      · exact (h.lt b hold).trans (Nat.lt_succ_self _)
      · rw [List.mem_singleton.mp hnew]
        exact Nat.lt_succ_self c.server.next
    · intro b hb mc hmc
      rcases List.mem_append.mp hb with hold | hnew
      · exact h.apart b hold mc hmc
      · rw [List.mem_singleton.mp hnew]
        exact h.identified.held_ne_next hmc
    · intro b hb
      rcases List.mem_append.mp hb with hold | hnew
      · exact h.output b hold
      · rw [List.mem_singleton.mp hnew]
        exact (h.fresh c.server.next le_rfl).trans h.answers_next.symm
    · intro b hb
      exact h.fresh b ((Nat.le_succ _).trans hb)
    · intro entry hentry
      exact List.mem_append_left _ (h.asked entry hentry)
    · exact h.named
    · intro entry hentry
      exact (h.opened entry hentry).trans (Nat.lt_succ_self _)
    · exact h.distinct

/-- A connection that `mc_peer_connect` returns is new. -/
theorem mcPeerConnect_eq_some {s : Server} {sock : Sockaddr} {alloc : Alloc} {refused : Bool}
    {mc : Mc} (h : s.mcPeerConnect P sock alloc refused = (some mc, t)) :
    mc = s.newMc none sock ∧ t.next = s.next + 1 := by
  unfold Server.mcPeerConnect at h
  split at h
  · cases h
  · split at h
    · cases h
    · rename_i mc' s' hsome
      obtain ⟨-, -, rfl, rfl⟩ := mcInit_eq_some hsome
      split at h
      · cases h
      · cases h
        exact ⟨rfl, rfl⟩

theorem Sound.answer (h : c.Sound C) {bev : ℕ} (hbev : bev ∈ c.clients) {ip : Str} {mc : Mc}
    (hname : C.parseSockaddrPort ip = some mc.address.sa) (hlt : mc.bev.ptr < c.server.next)
    (hnew : ∀ entry ∈ c.told, entry.2.2.bev.ptr ≠ mc.bev.ptr) :
    Sound C { c with
      server := c.server.write bev (C.addPeerText ip), told := c.told ++ [(bev, ip, mc)] } where
  identified := h.identified.withOutput _
  lt := h.lt
  apart := h.apart
  output b hb := by
    change Function.update c.server.output bev (c.server.output bev ++ C.addPeerText ip) b =
      ((c.told ++ [(bev, ip, mc)]).filter (·.1 = b)).flatMap fun entry =>
        C.addPeerText entry.2.1
    rw [List.filter_append, List.flatMap_append]
    rcases eq_or_ne b bev with rfl | hne
    · rw [Function.update_self, h.output b hb]
      simp [answers]
    · rw [Function.update_of_ne hne, h.output b hb]
      simp [answers, hne.symm]
  fresh b hb := by
    have hne : b ≠ bev := ((h.lt bev hbev).trans_le hb).ne'
    exact (Function.update_of_ne hne _ _).trans (h.fresh b hb)
  asked := List.forall_mem_append.mpr ⟨h.asked, List.forall_mem_singleton.mpr hbev⟩
  named := List.forall_mem_append.mpr ⟨h.named, List.forall_mem_singleton.mpr hname⟩
  opened := List.forall_mem_append.mpr ⟨h.opened, List.forall_mem_singleton.mpr hlt⟩
  distinct := by
    rw [List.map_append, List.map_singleton]
    apply h.distinct.append (List.nodup_singleton _)
    rw [List.disjoint_singleton]
    intro hmem
    obtain ⟨entry, hentry, heq⟩ := List.mem_map.mp hmem
    exact hnew entry hentry heq

theorem Sound.addPeer (h : c.Sound C) (hf : c.server.fault = none) {bev : ℕ}
    (hbev : bev ∈ c.clients) (ip : Str) (o : Outcome) : (c.addPeer P C bev ip o).Sound C := by
  unfold Controlled.addPeer
  split
  · exact h
  · rename_i sock hsock
    obtain ⟨hid, hk⟩ := keeps_mcPeerConnect (P := P) h.identified hf sock o.alloc o.refused
    split
    · rename_i t hconnect
      rw [hconnect] at hid hk
      exact h.keeps rfl rfl hid hk
    · rename_i mc t hconnect
      rw [hconnect] at hid hk
      have hkept : Sound C { c with server := t } := h.keeps rfl rfl hid hk
      obtain ⟨rfl, hnext⟩ := mcPeerConnect_eq_some hconnect
      split
      · apply hkept.answer hbev hsock
        · exact Nat.lt_of_lt_of_eq (Nat.lt_succ_self c.server.next) hnext.symm
        · intro entry hentry
          exact (h.opened entry hentry).ne
      · exact hkept

/-- Commands make no clients. -/
theorem clients_run (c : Controlled) (bev : ℕ) (call : Callback × ℕ) (outcome : ℕ → Outcome) :
    (c.run P C bev call outcome).clients = c.clients := by
  unfold Controlled.run Controlled.addPeer
  split
  · rfl
  · split
    · split
      · rfl
      · split
        · rfl
        · split <;> rfl
    · rfl

theorem Sound.run (h : c.Sound C) {bev : ℕ} (hbev : bev ∈ c.clients) (call : Callback × ℕ)
    (outcome : ℕ → Outcome) : (c.run P C bev call outcome).Sound C := by
  unfold Controlled.run
  split
  · exact h
  · rename_i hf
    split
    · exact h.addPeer (by simpa using hf) hbev _ _
    · exact h

theorem Sound.foldl_run (calls : List (Callback × ℕ)) (outcome : ℕ → Outcome) {bev : ℕ}
    (h : c.Sound C) (hbev : bev ∈ c.clients) :
    (calls.foldl (fun c call => c.run P C bev call outcome) c).Sound C := by
  induction calls generalizing c with
  | nil => exact h
  | cons call calls ih =>
    apply ih (h.run hbev call outcome)
    rwa [clients_run]

theorem Sound.received (h : c.Sound C) (bev : ℕ) (rest : List Byte) :
    Sound C { c with server := { c.server with
      input := Function.update c.server.input bev rest } } := by
  refine h.keeps rfl rfl ?_ ⟨le_rfl, fun _ hmc => .inl hmc, fun _ _ _ => rfl, fun _ _ => rfl⟩
  exact ⟨h.identified.bevs_lt, h.identified.blocks_lt, h.identified.held_lt,
    h.identified.bevs_nodup, h.identified.held_nodup⟩

theorem Sound.clientMcReadCb (h : c.Sound C) {bev : ℕ} (hbev : bev ∈ c.clients)
    (bytes : List Byte) (outcome : ℕ → Outcome) :
    (c.clientMcReadCb P C bev bytes outcome).Sound C := by
  apply Sound.foldl_run
  · exact h.received bev _
  · exact hbev

theorem sound_step {l : ControlLabel} (h : c.Sound C) (hstep : c.step P C l = some c') :
    c'.Sound C := by
  cases l with
  | daemon l =>
    rw [Controlled.step] at hstep
    split at hstep
    · obtain ⟨t, ht, rfl⟩ := Option.map_eq_some_iff.mp hstep
      exact h.daemon ht
    · cases hstep
  | client sock fd alloc =>
    rw [Controlled.step] at hstep
    split at hstep
    · cases hstep
    · rename_i hf
      obtain rfl := Option.some.inj hstep
      exact h.listenClientCallback (by simpa using hf) sock fd alloc
  | command bev bytes outcome =>
    rw [Controlled.step] at hstep
    split at hstep
    · rename_i hboth
      obtain rfl := Option.some.inj hstep
      exact h.clientMcReadCb hboth.2 bytes outcome
    · cases hstep

theorem sound_start (C : Control) (ctx : Bool) (e : Endpoint) :
    Sound C { server := init ctx e } := by
  refine ⟨identified_init ctx e, ?_, ?_, ?_, fun _ _ => rfl, ?_, ?_, ?_, List.nodup_nil⟩
  all_goals
    intro x hx
    cases hx

theorem sound_of_reachable {ctx : Bool} {e : Endpoint}
    (hr : Reachable (Controlled.step P C) { server := init ctx e } c) : c.Sound C :=
  hr.invariant (fun _ _ _ h hstep => sound_step h hstep) (sound_start C ctx e)

end Controlled

/--
Whatever the clients and the other daemons do, what a client has been sent are the answers to its
own requests, in order. Every answer stands for a connection of its own, to the address that the
request named, and no connection to another daemon shares its buffer with a client.
-/
theorem client_hears_own_answers {ctx : Bool} {e : Endpoint}
    (hr : Reachable (Controlled.step P C) { server := init ctx e } c) :
    (∀ b ∈ c.clients, c.server.output b = c.answers C b ∧
      ∀ mc ∈ c.server.held, mc.bev.ptr ≠ b) ∧
    (∀ entry ∈ c.told, C.parseSockaddrPort entry.2.1 = some entry.2.2.address.sa) ∧
    (c.told.map (·.2.2.bev.ptr)).Nodup := by
  have h := Controlled.sound_of_reachable hr
  exact ⟨fun b hb => ⟨h.output b hb, h.apart b hb⟩, h.named, h.distinct⟩

def exampleControl : Control where
  tclt := exampleTclt
  parseSockaddrPort _ := some (.inet 0x01020304 0x9210)
  addPeerText := id

def addedLabels : List ControlLabel :=
  [.client (.inet 0x7f000001 0x3930) 7 ⟨true, true⟩,
    .command 0 addText fun _ => ⟨⟨true, true⟩, false, true⟩]

theorem clientMcReadCb_addText (c : Controlled) (bev : ℕ) (hin : c.server.input bev = [])
    (outcome : ℕ → Outcome) :
    c.clientMcReadCb .reference exampleControl bev addText outcome =
      Controlled.run .reference exampleControl c bev (.addPeer (ascii "1.2.3.4"), 0) outcome := by
  have hread : Client.receive exampleTclt ⟨[], []⟩ addText =
      ⟨[], [.addPeer (ascii "1.2.3.4")]⟩ := by
    rw [Client.receive, clientMcReadCb_eq, List.nil_append,
      Cuts.blocks_of_length_le (by decide) (by decide)]
    decide
  have hsame : Function.update c.server.input bev [] = c.server.input := by
    rw [← hin, Function.update_eq_self]
  have hreceive : Client.receive exampleControl.tclt ⟨c.server.input bev, []⟩ addText =
      ⟨[], [.addPeer (ascii "1.2.3.4")]⟩ := by
    rw [hin]
    exact hread
  rw [Controlled.clientMcReadCb, hreceive]
  simp only [hsame]
  rfl

theorem run_added : ∃ c, Run (Controlled.step .reference exampleControl)
      { server := init false (endpointInit (.inet 0x0a000001 0x5000)) } addedLabels c ∧
    c.clients = [0] ∧ c.answers exampleControl 0 = ascii "1.2.3.4" := by
  refine ⟨_, .cons rfl (.cons rfl (.nil _)), ?_⟩
  rw [clientMcReadCb_addText _ 0 rfl]
  exact ⟨rfl, rfl⟩

theorem client_hears_own_answers_added :
    ∃ c, Reachable (Controlled.step .reference exampleControl)
        { server := init false (endpointInit (.inet 0x0a000001 0x5000)) } c ∧
      c.server.output 0 = ascii "1.2.3.4" := by
  obtain ⟨c, hr, hclients, hanswers⟩ := run_added
  have hmem : 0 ∈ c.clients := by rw [hclients]; exact List.mem_singleton.mpr rfl
  exact ⟨c, ⟨_, hr⟩, (((client_hears_own_answers ⟨_, hr⟩).1 0 hmem).1).trans hanswers⟩

end Sound

/-! ## What becomes of the clients -/

section Left

variable {P : Platform} {C : Control} {c c' : Controlled} {s t : Server} {b : ℕ}

/-- The cell that a refusal closes is not that of a client. -/
def Spares (c : Controlled) : ControlLabel → Prop
  | .daemon (.event _ _ _ past) => past.bev.ptr ∉ c.clients
  | _ => True

theorem bevs_refuse (s : Server) (mc past : Mc) :
    ∃ cell, (cell = past ∨ cell ∈ s.pendingPeers) ∧
      (s.refuse mc past).bevs = s.bevs.erase cell.bev.ptr := by
  refine ⟨_, ?_, mcClose_bevs _ _⟩
  cases hcell : (s.pendingPeers.eraseP (findBev mc.bev.ptr))[
      s.pendingPeers.findIdx (findBev mc.bev.ptr)]? with
  | none => exact .inl rfl
  | some cell => exact .inr (List.mem_of_mem_eraseP (List.mem_of_getElem? hcell))

theorem bevs_of_step {l : Meta.Label} (hb : b ∈ s.bevs) (hne : ∀ mc ∈ s.held, mc.bev.ptr ≠ b)
    (hpast : ∀ bev events cert past, l = .event bev events cert past → past.bev.ptr ≠ b)
    (hstep : Meta.step P s l = some t) : b ∈ t.bevs := by
  have herase : ∀ {mc : Mc}, mc ∈ s.held → b ∈ s.bevs.erase mc.bev.ptr := fun hmc =>
    (List.mem_erase_of_ne (hne _ hmc).symm).mpr hb
  cases change_of_step hstep with
  | idle _ hsame _ | registered _ hsame _ => rwa [hsame.bevs]
  | leaked => exact List.mem_append_left _ hb
  | opened => exact List.mem_append_left _ hb
  | established => exact hb
  | @refused bev events past mc _ _ _ =>
    obtain ⟨cell, hcell, hbevs⟩ := bevs_refuse s mc past
    rw [hbevs]
    apply (List.mem_erase_of_ne _).mpr hb
    rcases hcell with rfl | hmem
    · exact (hpast bev events false _ rfl).symm
    · exact (hne cell (List.mem_append_left _ hmem)).symm
  | disconnected _ hmc =>
    exact (mcClose_bevs _ _).symm ▸ herase (List.mem_append_right _ (List.mem_of_find?_eq_some hmc))
  | droppedPending _ hmc =>
    exact (mcClose_bevs _ _).symm ▸ herase (List.mem_append_left _ (List.mem_of_find?_eq_some hmc))
  | droppedPeer _ _ hmc =>
    exact (mcClose_bevs _ _).symm ▸ herase (List.mem_append_right _ (List.mem_of_find?_eq_some hmc))

theorem bevs_of_serve {l : Meta.Label} (hi : s.Identified) (hb : b ∈ s.bevs)
    (hne : ∀ mc ∈ s.held, mc.bev.ptr ≠ b)
    (hpast : ∀ bev events cert past, l = .event bev events cert past → past.bev.ptr ≠ b)
    (hstep : serve P s l = some t) : b ∈ t.bevs := by
  rcases serve_cases hi hstep with hone | ⟨fd, sock, rfl, -⟩ | ⟨t', hone, rfl⟩
  · exact bevs_of_step hb hne hpast hone
  · exact List.mem_append_left _ hb
  · have hkept : b ∈ t'.bevs := bevs_of_step hb hne hpast hone
    exact hkept

namespace Controlled

def Kept (c : Controlled) : Prop := ∀ b ∈ c.clients, b ∈ c.server.bevs

theorem kept_addPeer (h : c.Sound C) (hk : c.Kept) (hf : c.server.fault = none) (bev : ℕ)
    (ip : Str) (o : Outcome) : (c.addPeer P C bev ip o).Kept := by
  unfold Controlled.addPeer
  split
  · exact hk
  · rename_i sock hsock
    have hstep : Meta.step P c.server (.connect sock o.alloc o.refused) =
        some (c.server.mcPeerConnect P sock o.alloc o.refused).2 := by
      simp [Meta.step, hf]
    have hbevs : ∀ b ∈ c.clients, b ∈ (c.server.mcPeerConnect P sock o.alloc o.refused).2.bevs :=
      fun b hb => bevs_of_step (hk b hb) (h.apart b hb) (fun _ _ _ _ h => by cases h) hstep
    split
    · rename_i t hconnect
      rw [hconnect] at hbevs
      exact hbevs
    · rename_i mc t hconnect
      rw [hconnect] at hbevs
      split
      · exact hbevs
      · exact hbevs

theorem kept_run (h : c.Sound C) (hk : c.Kept) (bev : ℕ) (call : Callback × ℕ)
    (outcome : ℕ → Outcome) : (c.run P C bev call outcome).Kept := by
  unfold Controlled.run
  split
  · exact hk
  · rename_i hf
    split
    · exact kept_addPeer h hk (by simpa using hf) _ _ _
    · exact hk

theorem kept_foldl_run (calls : List (Callback × ℕ)) (outcome : ℕ → Outcome) {bev : ℕ}
    (h : c.Sound C) (hk : c.Kept) (hbev : bev ∈ c.clients) :
    (calls.foldl (fun c call => c.run P C bev call outcome) c).Kept := by
  induction calls generalizing c with
  | nil => exact hk
  | cons call calls ih =>
    apply ih (h.run hbev call outcome) (kept_run h hk bev call outcome)
    rwa [clients_run]

theorem kept_listenClientCallback (hk : c.Kept) (hf : c.server.fault = none) (sock : Sockaddr)
    (fd : ℕ) (alloc : Alloc) : (c.listenClientCallback sock fd alloc).Kept := by
  unfold Controlled.listenClientCallback
  split
  · rename_i t hnone
    obtain ⟨-, hsame, -⟩ := mcInit_eq_none hf hnone
    intro b hb
    rw [hsame.bevs]
    exact hk b hb
  · rename_i mc t hsome
    obtain ⟨-, -, rfl, rfl⟩ := mcInit_eq_some hsome
    intro b hb
    rcases List.mem_append.mp hb with hold | hnew
    · exact List.mem_append_left _ (hk b hold)
    · exact List.mem_append_right _ hnew

theorem kept_step {l : ControlLabel} (h : c.Sound C) (hk : c.Kept) (hs : Spares c l)
    (hstep : c.step P C l = some c') : c'.Kept := by
  cases l with
  | daemon l =>
    rw [Controlled.step] at hstep
    split at hstep
    · obtain ⟨t, ht, rfl⟩ := Option.map_eq_some_iff.mp hstep
      intro b hb
      refine bevs_of_serve h.identified (hk b hb) (h.apart b hb) ?_ ht
      rintro bev events cert past rfl rfl
      exact hs hb
    · cases hstep
  | client sock fd alloc =>
    rw [Controlled.step] at hstep
    split at hstep
    · cases hstep
    · rename_i hf
      obtain rfl := Option.some.inj hstep
      exact kept_listenClientCallback hk (by simpa using hf) sock fd alloc
  | command bev bytes outcome =>
    rw [Controlled.step] at hstep
    split at hstep
    · rename_i hboth
      obtain rfl := Option.some.inj hstep
      exact kept_foldl_run _ _ (h.received bev _) hk hboth.2
    · cases hstep

end Controlled

/--
No client is ever closed by the daemon: as long as a refusal does not take the memory behind the
pending connections for one, every client that has come still has its bufferevent, also when the
daemon has released what it releases at its end.
-/
theorem clients_never_released {ctx : Bool} {e : Endpoint} {ls : List ControlLabel}
    (hr : Run (Controlled.step P C) { server := init ctx e } ls c)
    (hs : Along (Controlled.step P C) Spares { server := init ctx e } ls) :
    c.clients ⊆ c.server.bevs ∧
      ∀ l b r, serverDelete l c.server b = some r → c.clients ⊆ r.server.bevs := by
  have hboth : c.Sound C ∧ c.Kept := by
    refine (throughout_of_along (P := fun c => c.Sound C ∧ c.Kept) ?_ ?_ hs).last hr
    · rintro c l c' ⟨h, hk⟩ hspares hstep
      exact ⟨Controlled.sound_step h hstep, Controlled.kept_step h hk hspares hstep⟩
    · exact ⟨Controlled.sound_start C ctx e, fun b hb => absurd hb List.not_mem_nil⟩
  obtain ⟨h, hk⟩ := hboth
  refine ⟨hk, fun l b r hdelete bev hbev => ?_⟩
  rw [server_of_serverDelete hdelete, closeAll_bevs, h.identified.bevs_nodup.mem_sdiff_iff]
  refine ⟨hk bev hbev, fun hmem => ?_⟩
  obtain ⟨mc, hmc, hptr⟩ := List.mem_map.mp hmem
  exact h.apart bev hbev mc hmc hptr

theorem clients_never_released_added :
    ∃ c, Reachable (Controlled.step .reference exampleControl)
        { server := init false (endpointInit (.inet 0x0a000001 0x5000)) } c ∧
      0 ∈ c.server.bevs := by
  obtain ⟨c, hr, hclients, -⟩ := run_added
  have hmem : 0 ∈ c.clients := by rw [hclients]; exact List.mem_singleton.mpr rfl
  have hspares : Along (Controlled.step .reference exampleControl) Spares
      { server := init false (endpointInit (.inet 0x0a000001 0x5000)) } addedLabels :=
    fun _ _ => ⟨trivial, fun _ _ => ⟨trivial, trivial⟩⟩
  exact ⟨c, ⟨_, hr⟩, (clients_never_released hr hspares).1 hmem⟩

end Left

end Tnetacle.Client
