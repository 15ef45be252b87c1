import Tnetacle.Config.Parser

/-! # Configuration documents

One object with distinct known keys, each with a value or an array of values of its type. The
parser runs such a document setting by setting, and what a setting does is stated
apart from the texts.
-/

namespace Tnetacle.Config

open ByteOrder CString
open Meta (Sockaddr)

inductive Key
  | compression | encryption | debug
  | tunnelIndex | port | clientPort
  | address | addressFamily | mode | tunnel | privateKey | certFile | peerAddress | listenAddress
  deriving DecidableEq, Repr

def Key.name : Key → String
  | .compression => "Compression"
  | .encryption => "Encryption"
  | .debug => "Debug"
  | .tunnelIndex => "TunnelIndex"
  | .port => "Port"
  | .clientPort => "ClientPort"
  | .address => "Address"
  | .addressFamily => "AddressFamily"
  | .mode => "Mode"
  | .tunnel => "Tunnel"
  | .privateKey => "PrivateKey"
  | .certFile => "CertFile"
  | .peerAddress => "PeerAddress"
  | .listenAddress => "ListenAddress"

inductive FamilyName | inet6 | inet | any
  deriving DecidableEq, Repr

inductive ModeName | router | switch | hub
  deriving DecidableEq, Repr

inductive TunnelName | pointToPoint | ethernet
  deriving DecidableEq, Repr

def FamilyName.text : FamilyName → Str
  | .inet6 => ascii "inet6"
  | .inet => ascii "inet"
  | .any => ascii "any"

def ModeName.text : ModeName → Str
  | .router => ascii "router"
  | .switch => ascii "switch"
  | .hub => ascii "hub"

def TunnelName.text : TunnelName → Str
  | .pointToPoint => ascii "point-to-point"
  | .ethernet => ascii "ethernet"

structure AddressText (E : Evutil) where
  text : Str
  noNul : (0 : Byte) ∉ text
  sockaddr : Sockaddr
  parse_eq : E.parseSockaddrPort text = some sockaddr

/-- The valid values of a key; a listen address may also be `any`. -/
abbrev Key.Val (E : Evutil) : Key → Type
  | .compression | .encryption | .debug => Bool
  | .tunnelIndex | .port | .clientPort => Fin 65536
  | .address | .privateKey | .certFile => Str
  | .addressFamily => FamilyName
  | .mode => ModeName
  | .tunnel => TunnelName
  | .peerAddress => AddressText E
  | .listenAddress => Option (AddressText E)

variable {E : Evutil}

def listenText : Option (AddressText E) → Str
  | none => ascii "any"
  | some a => a.text

def Key.event : (k : Key) → k.Val E → Event
  | .compression, v | .encryption, v | .debug, v => .boolean v
  | .tunnelIndex, n | .port, n | .clientPort, n => .number (printDecimal (Fin.val n))
  | .address, s | .privateKey, s | .certFile, s => .string s
  | .addressFamily, f => .string (FamilyName.text f)
  | .mode, m => .string (ModeName.text m)
  | .tunnel, t => .string (TunnelName.text t)
  | .peerAddress, a => .string (AddressText.text a)
  | .listenAddress, a => .string (listenText a)

inductive Shape (α : Type)
  | scalar (x : α)
  | array (xs : List α)

def Shape.values {α : Type} : Shape α → List α
  | .scalar x => [x]
  | .array xs => xs

structure Setting (E : Evutil) where
  key : Key
  shape : Shape (key.Val E)

namespace Setting

def values (s : Setting E) : List (s.key.Val E) := s.shape.values

def events (s : Setting E) : List Event :=
  .mapKey (ascii s.key.name) :: match s.shape with
    | .scalar v => [s.key.event v]
    | .array vs => .startArray :: vs.map s.key.event ++ [.endArray]

end Setting

/-- One object with distinct keys. -/
structure Document (E : Evutil) where
  settings : List (Setting E)
  nodup : (settings.map Setting.key).Nodup

def Document.events (d : Document E) : List Event :=
  .startMap :: d.settings.flatMap Setting.events ++ [.endMap]

/-! ## What a setting does -/

/-- The family that `yajl_string` sets: a beginning of `inet6` is taken for it. -/
def FamilyName.stored : FamilyName → AddrFamily
  | .inet6 | .inet => .inet
  | .any => .unspec

def ModeName.code : ModeName → ℕ
  | .router => 0
  | .switch => 1
  | .hub => 2

def TunnelName.code : TunnelName → ℕ
  | .pointToPoint => 0
  | .ethernet => 1

def listenAddrs (o : Options) : Option (AddressText E) → List Sockaddr
  | none => o.ports.flatMap (wildcards E o.addrFamily)
  | some a => [a.sockaddr]

/-- A value is stored, whether there is room for it or not. -/
def Key.set : (k : Key) → k.Val E → Options → Options
  | .compression, v, o => { o with compression := v }
  | .encryption, v, o => { o with encryption := v }
  | .debug, v, o => { o with debug := v }
  | .tunnelIndex, n, o => { o with tunnelIndex := (Fin.val n : ℕ) }
  | .port, n, o => { o with ports := o.ports ++ [Fin.val n] }
  | .clientPort, n, o => { o with cports := o.cports ++ [Fin.val n] }
  | .address, s, o => { o with addr := some (ofMemory s) }
  | .addressFamily, f, o => { o with addrFamily := FamilyName.stored f }
  | .mode, m, o => { o with tunnel := ModeName.code m }
  | .tunnel, t, o => { o with tunnel := TunnelName.code t }
  | .privateKey, s, o => { o with keyPath := some (ofMemory s) }
  | .certFile, s, o => { o with certPath := some (ofMemory s) }
  | .peerAddress, a, o => { o with peerAddrs := o.peerAddrs ++ [AddressText.sockaddr a] }
  | .listenAddress, a, o => { o with
      listenAddrs := o.listenAddrs ++ listenAddrs o a
      clientAddrs := o.clientAddrs ++ o.cports.flatMap (wildcards E o.addrFamily) }

def Key.room : (k : Key) → k.Val E → Options → Bool
  | .port, _, o => o.ports.length < tnetacleMaxPorts
  | .clientPort, _, o => o.cports.length < tnetacleMaxPorts
  | .peerAddress, a, _ => (AddressText.text a).length < inet6Addrstrlen
  | .listenAddress, a, _ => (listenText a).length < inet6Addrstrlen
  | _, _, _ => true

/-! ## The callbacks on the texts -/

theorem named_eq {name : String} {text : Str} (h : (0 : Byte) ∉ ascii name)
    (h' : (0 : Byte) ∉ text) : named name text = decide (text <+: ascii name) := by
  rw [named, decide_eq_decide, strncmp_eq_zero_iff h h', List.take_length, List.prefix_iff_eq_take]
  exact eq_comm

theorem yajlNumber_printDecimal {n : ℕ} (h : n < 65536) (map : Str) (o : Options) :
    yajlNumber (printDecimal n) map o =
      if named "TunnelIndex" map then some { o with tunnelIndex := n }
      else if named "Port" map then
        (pushPort o.ports n).map fun ports => { o with ports := ports }
      else if named "ClientPort" map then
        (pushPort o.cports n).map fun cports => { o with cports := cports }
      else some o := by
  have hlead := leadingDigits_printDecimal n
  obtain ⟨hval, hend⟩ := strtol_of_digits (printDecimal_ne_nil n)
    (fun _ => isDigit_of_mem_printDecimal n) (by omega)
  have hlen : (printDecimal n).length ≤ 5 := by
    rw [printDecimal, List.length_map, Nat.length_toDigits_le_iff (by omega) (by omega)]
    omega
  rw [hlead] at hval
  rw [yajlNumber, if_neg (by omega), if_neg (by omega)]
  simp only [hval, hend]
  rw [if_neg (by simp; omega), Int.toNat_natCast]

def Parser.store (p : Parser) (k : Key) (v : k.Val E) : Parser :=
  if k.room v p.servOpts then { p with servOpts := k.set v p.servOpts }
  else { p with fault := true }

section Callbacks

variable {p : Parser} {map : Str}

theorem value_eq_store {f : Str → Options → Option Options} {k : Key} {v : k.Val E}
    (hmap : p.map = some map)
    (hroom : k.room v p.servOpts = true → f map p.servOpts = some (k.set v p.servOpts))
    (hfull : k.room v p.servOpts = false → f map p.servOpts = none) : p.value f = p.store k v := by
  unfold Parser.store
  cases h : k.room v p.servOpts with
  | true => simp [Parser.value, hmap, hroom h]
  | false => simp [Parser.value, hmap, hfull h]

theorem value_pushPort {f : Str → Options → Option Options} {k : Key} {v : k.Val E}
    {ports : List ℕ} {n : ℕ} {g : List ℕ → Options} (hmap : p.map = some map)
    (hf : f map p.servOpts = (pushPort ports n).map g)
    (hroom : k.room v p.servOpts = decide (ports.length < tnetacleMaxPorts))
    (hset : k.set v p.servOpts = g (ports ++ [n])) : p.value f = p.store k v := by
  apply value_eq_store hmap
  · intro h
    rw [hf, pushPort, if_pos (of_decide_eq_true (hroom.symm.trans h)), hset]
    rfl
  · intro h
    rw [hf, pushPort, if_neg (of_decide_eq_false (hroom.symm.trans h))]
    rfl

theorem value_port (hmap : p.map = some (ascii "Port")) (n : Fin 65536) :
    p.value (yajlNumber (printDecimal n)) = p.store (E := E) .port n := by
  have hf : yajlNumber (printDecimal n) (ascii "Port") p.servOpts =
      (pushPort p.servOpts.ports n).map fun ports => { p.servOpts with ports := ports } :=
    yajlNumber_printDecimal n.isLt _ _
  exact value_pushPort hmap hf rfl rfl

theorem value_clientPort (hmap : p.map = some (ascii "ClientPort")) (n : Fin 65536) :
    p.value (yajlNumber (printDecimal n)) = p.store (E := E) .clientPort n := by
  have hf : yajlNumber (printDecimal n) (ascii "ClientPort") p.servOpts =
      (pushPort p.servOpts.cports n).map fun cports => { p.servOpts with cports := cports } :=
    yajlNumber_printDecimal n.isLt _ _
  exact value_pushPort hmap hf rfl rfl

theorem value_peerAddress (hmap : p.map = some (ascii "PeerAddress")) (a : AddressText E) :
    p.value (yajlString E a.text) = p.store .peerAddress a := by
  have hf : yajlString E a.text (ascii "PeerAddress") p.servOpts =
      if inet6Addrstrlen ≤ a.text.length then none
      else some { p.servOpts with
        peerAddrs := addSockaddr E p.servOpts.peerAddrs (ofMemory a.text) } := rfl
  rw [ofMemory_eq_self a.noNul, addSockaddr, a.parse_eq] at hf
  apply value_eq_store hmap
  · intro hroom
    rw [hf, if_neg (Nat.not_le.mpr (of_decide_eq_true hroom))]
    rfl
  · intro hfull
    rw [hf, if_pos (Nat.not_lt.mp (of_decide_eq_false hfull))]

theorem named_any_eq_false (a : AddressText E) : named "any" a.text = false := by
  rw [named_eq (by decide) a.noNul, decide_eq_false_iff_not]
  intro hpre
  have hparse := a.parse_eq
  rw [E.parse_any _ hpre] at hparse
  cases hparse

theorem value_listenAddress (hmap : p.map = some (ascii "ListenAddress"))
    (a : Option (AddressText E)) :
    p.value (yajlString E (listenText a)) = p.store .listenAddress a := by
  have hf : yajlString E (listenText a) (ascii "ListenAddress") p.servOpts =
      if inet6Addrstrlen ≤ (listenText a).length then none
      else if named "any" (listenText a) then
        some (addClientAddrsPorts E (addListenAddrsPorts E p.servOpts))
      else some (addClientAddrsPorts E { p.servOpts with
        listenAddrs := addSockaddr E p.servOpts.listenAddrs (ofMemory (listenText a)) }) := rfl
  apply value_eq_store hmap
  · intro hroom
    rw [hf, if_neg (Nat.not_le.mpr (of_decide_eq_true hroom))]
    cases a with
    | none => rfl
    | some a =>
      rw [listenText, named_any_eq_false, if_neg (by simp), ofMemory_eq_self a.noNul, addSockaddr,
        a.parse_eq]
      rfl
  · intro hfull
    rw [hf, if_pos (Nat.not_lt.mp (of_decide_eq_false hfull))]

theorem step_event {k : Key} (hmap : p.map = some (ascii k.name)) (hfault : p.fault = false)
    (v : k.Val E) : step E p (k.event v) = p.store k v := by
  unfold step
  rw [if_neg (by simp [hfault])]
  cases k with
  | compression => exact value_eq_store hmap (fun _ => rfl) nofun
  | encryption => exact value_eq_store hmap (fun _ => rfl) nofun
  | debug => exact value_eq_store hmap (fun _ => rfl) nofun
  | tunnelIndex =>
    exact value_eq_store hmap (fun _ => yajlNumber_printDecimal (Fin.isLt v) _ _) nofun
  | port => exact value_port hmap v
  | clientPort => exact value_clientPort hmap v
  | address => exact value_eq_store hmap (fun _ => rfl) nofun
  | addressFamily => cases v <;> exact value_eq_store hmap (fun _ => rfl) nofun
  | mode => cases v <;> exact value_eq_store hmap (fun _ => rfl) nofun
  | tunnel => cases v <;> exact value_eq_store hmap (fun _ => rfl) nofun
  | privateKey => exact value_eq_store hmap (fun _ => rfl) nofun
  | certFile => exact value_eq_store hmap (fun _ => rfl) nofun
  | peerAddress => exact value_peerAddress hmap v
  | listenAddress => exact value_listenAddress hmap v

end Callbacks

/-! ## Whole documents -/

def Key.roomAll (k : Key) : List (k.Val E) → Options → Bool
  | [], _ => true
  | v :: vs, o => k.room v o && k.roomAll vs (k.set v o)

namespace Setting

def set (s : Setting E) (o : Options) : Options := s.values.foldl (fun o v => s.key.set v o) o

def fits : Setting E → Bool
  | ⟨.port, shape⟩ => shape.values.length ≤ tnetacleMaxPorts
  | ⟨.clientPort, shape⟩ => shape.values.length ≤ tnetacleMaxPorts
  | ⟨.peerAddress, shape⟩ => shape.values.all fun a => a.text.length < inet6Addrstrlen
  | ⟨.listenAddress, shape⟩ => shape.values.all fun a => (listenText a).length < inet6Addrstrlen
  | _ => true

end Setting

def Key.Unset (k : Key) (o : Options) : Prop :=
  (k = .port → o.ports = []) ∧ (k = .clientPort → o.cports = [])

/-- What a value under the key `k` leaves as it is. The tunnel is missing: two keys set it. -/
structure Key.Frame (k : Key) (o t : Options) : Prop where
  compression : k ≠ .compression → t.compression = o.compression
  encryption : k ≠ .encryption → t.encryption = o.encryption
  debug : k ≠ .debug → t.debug = o.debug
  tunnelIndex : k ≠ .tunnelIndex → t.tunnelIndex = o.tunnelIndex
  ports : k ≠ .port → t.ports = o.ports
  cports : k ≠ .clientPort → t.cports = o.cports
  addr : k ≠ .address → t.addr = o.addr
  addrFamily : k ≠ .addressFamily → t.addrFamily = o.addrFamily
  keyPath : k ≠ .privateKey → t.keyPath = o.keyPath
  certPath : k ≠ .certFile → t.certPath = o.certPath
  peerAddrs : k ≠ .peerAddress → t.peerAddrs = o.peerAddrs
  listenAddrs : k ≠ .listenAddress → t.listenAddrs = o.listenAddrs
  clientAddrs : k ≠ .listenAddress → t.clientAddrs = o.clientAddrs
  mode : t.mode = o.mode

theorem Key.frame_set (k : Key) (v : k.Val E) (o : Options) : k.Frame o (k.set v o) := by
  cases k <;> constructor <;> first | rfl | exact fun _ => rfl | exact fun h => absurd rfl h

theorem roomAll_of_table {k : Key} (table : Options → List ℕ)
    (hroom : ∀ (v : k.Val E) o, k.room v o = decide ((table o).length < tnetacleMaxPorts))
    (hset : ∀ (v : k.Val E) o, (table (k.set v o)).length = (table o).length + 1)
    (vs : List (k.Val E)) (o : Options) :
    k.roomAll vs o = true ↔ vs = [] ∨ (table o).length + vs.length ≤ tnetacleMaxPorts := by
  induction vs generalizing o with
  | nil => simp [Key.roomAll]
  | cons v vs ih =>
    rw [Key.roomAll, Bool.and_eq_true, ih, hroom, decide_eq_true_iff, hset, List.length_cons]
    constructor
    · rintro ⟨hlt, rfl | hle⟩
      · exact .inr hlt
      · exact .inr (by omega)
    · rintro (hnil | hle)
      · cases hnil
      · exact ⟨by omega, .inr (by omega)⟩

theorem roomAll_of_const {k : Key} {room : k.Val E → Bool} (h : ∀ v o, k.room v o = room v)
    (vs : List (k.Val E)) (o : Options) : k.roomAll vs o = vs.all room := by
  induction vs generalizing o with
  | nil => rfl
  | cons v vs ih => rw [Key.roomAll, h, ih, List.all_cons]

theorem roomAll_values {s : Setting E} {o : Options} (hu : s.key.Unset o) :
    s.key.roomAll s.values o = s.fits := by
  obtain ⟨k, shape⟩ := s
  have hall : ∀ vs : List (k.Val E), (vs.all fun _ => true) = true := by simp
  cases k with
  | port =>
    have hroom := roomAll_of_table (E := E) (k := .port) Options.ports (fun _ _ => rfl)
      (fun _ _ => List.length_append) shape.values o
    rw [hu.1 rfl, List.length_nil, Nat.zero_add] at hroom
    rw [Bool.eq_iff_iff, Setting.fits, decide_eq_true_iff]
    exact hroom.trans (or_iff_right_of_imp fun h => by simp [h])
  | clientPort =>
    have hroom := roomAll_of_table (E := E) (k := .clientPort) Options.cports (fun _ _ => rfl)
      (fun _ _ => List.length_append) shape.values o
    rw [hu.2 rfl, List.length_nil, Nat.zero_add] at hroom
    rw [Bool.eq_iff_iff, Setting.fits, decide_eq_true_iff]
    exact hroom.trans (or_iff_right_of_imp fun h => by simp [h])
  | peerAddress => exact roomAll_of_const (fun _ _ => rfl) _ o
  | listenAddress => exact roomAll_of_const (fun _ _ => rfl) _ o
  | _ => exact (roomAll_of_const (fun _ _ => rfl) _ o).trans (hall _)

theorem Setting.frame {β : Type*} {f : Options → β} (s : Setting E)
    (h : ∀ (v : s.key.Val E) o, f (s.key.set v o) = f o) (o : Options) : f (s.set o) = f o := by
  rw [Setting.set]
  generalize s.values = vs
  induction vs generalizing o with
  | nil => rfl
  | cons v vs ih => rw [List.foldl_cons, ih, h]

theorem foldl_set_frame {β : Type*} {f : Options → β} {ss : List (Setting E)}
    (h : ∀ s ∈ ss, ∀ (v : s.key.Val E) o, f (s.key.set v o) = f o) (o : Options) :
    f (ss.foldl (fun o s => s.set o) o) = f o := by
  induction ss generalizing o with
  | nil => rfl
  | cons s ss ih =>
    rw [List.forall_mem_cons] at h
    rw [List.foldl_cons, ih h.2, s.frame h.1]

theorem unset_set {s : Setting E} {k : Key} (hne : s.key ≠ k) {o : Options} (hu : k.Unset o) :
    k.Unset (s.set o) := by
  constructor
  · rintro rfl
    rw [s.frame (f := Options.ports) (fun v o => (Key.frame_set _ v o).ports hne), hu.1 rfl]
  · rintro rfl
    rw [s.frame (f := Options.cports) (fun v o => (Key.frame_set _ v o).cports hne), hu.2 rfl]

section Run

variable {p : Parser}

theorem fault_step (E : Evutil) (h : p.fault = true) (e : Event) : (step E p e).fault = true := by
  unfold step
  rw [if_pos h, h]

theorem fault_foldl_step (h : p.fault = true) (es : List Event) :
    (es.foldl (step E) p).fault = true := by
  induction es generalizing p with
  | nil => exact h
  | cons e es ih => exact ih (fault_step E h e)

theorem foldl_step_values {k : Key} (hmap : p.map = some (ascii k.name)) (hfault : p.fault = false)
    (vs : List (k.Val E)) :
    (k.roomAll vs p.servOpts = true → (vs.map k.event).foldl (step E) p =
      { p with servOpts := vs.foldl (fun o v => k.set v o) p.servOpts }) ∧
    (k.roomAll vs p.servOpts = false → ((vs.map k.event).foldl (step E) p).fault = true) := by
  induction vs generalizing p with
  | nil => exact ⟨fun _ => rfl, nofun⟩
  | cons v vs ih =>
    rw [Key.roomAll, List.map_cons, List.foldl_cons, step_event hmap hfault, Parser.store]
    cases hroom : k.room v p.servOpts with
    | false =>
      exact ⟨nofun, fun _ => fault_foldl_step rfl _⟩
    | true => exact @ih { p with servOpts := k.set v p.servOpts } hmap hfault

theorem step_mapKey (hfault : p.fault = false) (key : Str) :
    step E p (.mapKey key) = { p with map := some key } := by
  unfold step
  rw [if_neg (by simp [hfault])]

theorem step_startArray : step E p .startArray = p := by
  unfold step
  split <;> rfl

theorem step_endArray (hfault : p.fault = false) : step E p .endArray = { p with map := none } := by
  unfold step
  rw [if_neg (by simp [hfault])]

theorem foldl_step_room (hfault : p.fault = false) (s : Setting E) :
    (s.key.roomAll s.values p.servOpts = true → ∃ map, s.events.foldl (step E) p =
      { p with map := map, servOpts := s.set p.servOpts }) ∧
    (s.key.roomAll s.values p.servOpts = false → (s.events.foldl (step E) p).fault = true) := by
  have hkey := step_mapKey (E := E) hfault (ascii s.key.name)
  have hrun := @foldl_step_values E { p with map := some (ascii s.key.name) } s.key rfl hfault
    s.values
  obtain ⟨k, _ | vs⟩ := s
  · rw [Setting.events, List.foldl_cons, hkey]
    exact ⟨fun h => ⟨_, hrun.1 h⟩, hrun.2⟩
  · have hevents : (⟨k, .array vs⟩ : Setting E).events.foldl (step E) p =
        step E ((vs.map k.event).foldl (step E) { p with map := some (ascii k.name) })
          .endArray := by
      rw [Setting.events, List.foldl_cons, hkey]
      simp only [List.cons_append, List.foldl_cons, step_startArray, List.foldl_append,
        List.foldl_nil]
    rw [hevents]
    constructor
    · intro h
      refine ⟨none, ?_⟩
      have hvalues : (vs.map k.event).foldl (step E) { p with map := some (ascii k.name) } = _ :=
        hrun.1 h
      rw [hvalues]
      exact step_endArray hfault
    · intro h
      exact fault_step E (hrun.2 h) .endArray

theorem foldl_step_setting (hfault : p.fault = false) {s : Setting E}
    (hu : s.key.Unset p.servOpts) :
    (s.fits = true → ∃ map, s.events.foldl (step E) p =
      { p with map := map, servOpts := s.set p.servOpts }) ∧
    (s.fits = false → (s.events.foldl (step E) p).fault = true) := by
  rw [← roomAll_values hu]
  exact foldl_step_room hfault s

theorem foldl_step_settings (hfault : p.fault = false) {ss : List (Setting E)}
    (hnodup : (ss.map Setting.key).Nodup) (hu : ∀ s ∈ ss, s.key.Unset p.servOpts) :
    ((∀ s ∈ ss, s.fits = true) → ∃ map, (ss.flatMap Setting.events).foldl (step E) p =
      { p with map := map, servOpts := ss.foldl (fun o s => s.set o) p.servOpts }) ∧
    ((∃ s ∈ ss, s.fits = false) →
      ((ss.flatMap Setting.events).foldl (step E) p).fault = true) := by
  induction ss generalizing p with
  | nil => exact ⟨fun _ => ⟨p.map, rfl⟩, by simp⟩
  | cons s ss ih =>
    obtain ⟨hnot, hnodup⟩ := List.nodup_cons.mp hnodup
    obtain ⟨hfits, hfull⟩ := foldl_step_setting hfault (hu s List.mem_cons_self)
    rw [List.flatMap_cons, List.foldl_append]
    cases hs : s.fits with
    | false =>
      refine ⟨fun h => ?_, fun _ => fault_foldl_step (hfull hs) _⟩
      have := h s List.mem_cons_self
      rw [hs] at this
      cases this
    | true =>
      obtain ⟨map, hmap⟩ := hfits hs
      have hrest : ∀ t ∈ ss, t.key.Unset (s.set p.servOpts) := by
        intro t ht
        apply unset_set _ (hu t (List.mem_cons_of_mem s ht))
        intro heq
        exact hnot (List.mem_map.mpr ⟨t, ht, heq.symm⟩)
      obtain ⟨hall, hsome⟩ := @ih { p with map := map, servOpts := s.set p.servOpts } hfault
        hnodup hrest
      rw [hmap]
      constructor
      · intro h
        exact hall fun t ht => h t (List.mem_cons_of_mem s ht)
      · rintro ⟨t, ht, htf⟩
        rcases List.mem_cons.mp ht with rfl | ht
        · rw [hs] at htf
          cases htf
        · exact hsome ⟨t, ht, htf⟩

end Run

/-- The options that the settings leave, one after the other. -/
def optionsOf (ss : List (Setting E)) : Options := ss.foldl (fun o s => s.set o) {}

namespace Document

variable (d : Document E)

theorem foldl_step_events :
    ((∀ s ∈ d.settings, s.fits = true) → d.events.foldl (step E) {} =
      { servOpts := optionsOf d.settings }) ∧
    ((∃ s ∈ d.settings, s.fits = false) → (d.events.foldl (step E) {}).fault = true) := by
  have hu : ∀ s ∈ d.settings, s.key.Unset {} := fun s _ => ⟨fun _ => rfl, fun _ => rfl⟩
  obtain ⟨hall, hsome⟩ := foldl_step_settings (p := {}) rfl d.nodup hu
  have hevents : d.events.foldl (step E) {} =
      step E ((d.settings.flatMap Setting.events).foldl (step E) {}) .endMap := by
    rw [events, List.cons_append, List.foldl_cons, List.foldl_append]
    rfl
  rw [hevents]
  constructor
  · intro h
    obtain ⟨map, hmap⟩ := hall h
    rw [hmap]
    rfl
  · intro h
    exact fault_step E (hsome h) .endMap

/-- A document is read without a fault exactly when all of its settings fit. -/
theorem fault_tntParseBuf_iff :
    (tntParseBuf E d.events).fault = false ↔ ∀ s ∈ d.settings, s.fits = true := by
  obtain ⟨hall, hsome⟩ := d.foldl_step_events
  constructor
  · intro h s hs
    by_contra hfits
    have hend := hsome ⟨s, hs, Bool.eq_false_iff.mpr hfits⟩
    rw [tntParseBuf, if_pos hend, hend] at h
    cases h
  · intro h
    rw [tntParseBuf, hall h]
    rfl

theorem servOpts_tntParseBuf (h : ∀ s ∈ d.settings, s.fits = true) :
    (tntParseBuf E d.events).servOpts = defaults (optionsOf d.settings) := by
  rw [tntParseBuf, d.foldl_step_events.1 h]
  rfl

end Document

end Tnetacle.Config
