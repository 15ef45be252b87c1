import Tnetacle.Config.Lists

/-! # What an entry changes

The entry of a key should change the option of its name, and give it the value written. Two
documents that differ in one entry are compared, where an option is taken together with the
address lists that are built from it.
-/

namespace Tnetacle.Config

open ByteOrder CString
open Meta (Sockaddr)

variable {E : Evutil}

def Key.erase : Key → Options → Options
  | .compression, o => { o with compression := true }
  | .encryption, o => { o with encryption := true }
  | .debug, o => { o with debug := false }
  | .tunnelIndex, o => { o with tunnelIndex := -1 }
  | .port, o => { o with ports := [], listenAddrs := [] }
  | .clientPort, o => { o with cports := [], clientAddrs := [] }
  | .address, o => { o with addr := none }
  | .addressFamily, o => { o with addrFamily := .unspec, listenAddrs := [], clientAddrs := [] }
  | .mode, o => { o with mode := 0 }
  | .tunnel, o => { o with tunnel := 0 }
  | .privateKey, o => { o with keyPath := none }
  | .certFile, o => { o with certPath := none }
  | .peerAddress, o => { o with peerAddrs := [] }
  | .listenAddress, o => { o with listenAddrs := [], clientAddrs := [] }

/--
The option of the key has the values written: the last one, or all of them for a list. The lists of
addresses are part of the options they are built from. The listen addresses are of all ports for
`Port`, and of the family of the document for `AddressFamily`; for `ListenAddress` they are both,
where the default port is used if no port is written. The client addresses are of the
client ports that are written, once for each listen address.
-/
def Key.Holds : Key → List (Setting E) → Options → Prop
  | .compression, ss, o => ∀ v ∈ (valuesAt .compression ss).getLast?, o.compression = v
  | .encryption, ss, o => ∀ v ∈ (valuesAt .encryption ss).getLast?, o.encryption = v
  | .debug, ss, o => ∀ v ∈ (valuesAt .debug ss).getLast?, o.debug = v
  | .tunnelIndex, ss, o => ∀ v ∈ (valuesAt .tunnelIndex ss).getLast?, o.tunnelIndex = v.val
  | .port, ss, o =>
    (portsOf ss ≠ [] → o.ports = portsOf ss) ∧
      o.listenAddrs = (places [] ss).flatMap fun x => listed o.ports (familyOf x.1) x.2
  | .clientPort, ss, o =>
    (clientPortsOf ss ≠ [] → o.cports = clientPortsOf ss) ∧
      o.clientAddrs = (places [] ss).flatMap
        fun x => (clientPortsOf ss).flatMap (wildcards E (familyOf x.1))
  | .address, ss, o => ∀ s ∈ (valuesAt .address ss).getLast?, o.addr = some s
  | .addressFamily, ss, o =>
    (∀ f ∈ (valuesAt .addressFamily ss).getLast?, o.addrFamily = f.meant) ∧
      o.listenAddrs = (places [] ss).flatMap (fun x => listed (portsOf x.1) o.addrFamily x.2) ∧
      o.clientAddrs = (places [] ss).flatMap
        fun x => (clientPortsOf x.1).flatMap (wildcards E o.addrFamily)
  | .mode, ss, o => ∀ m ∈ (valuesAt .mode ss).getLast?, o.mode = m.code
  | .tunnel, ss, o => ∀ t ∈ (valuesAt .tunnel ss).getLast?, o.tunnel = t.code
  | .privateKey, ss, o => ∀ s ∈ (valuesAt .privateKey ss).getLast?, o.keyPath = some s
  | .certFile, ss, o => ∀ s ∈ (valuesAt .certFile ss).getLast?, o.certPath = some s
  | .peerAddress, ss, o => o.peerAddrs = (valuesAt .peerAddress ss).map AddressText.sockaddr
  | .listenAddress, ss, o =>
    o.listenAddrs = (places [] ss).flatMap (fun x => listed o.ports o.addrFamily x.2) ∧
      o.clientAddrs = (places [] ss).flatMap
        fun _ => (clientPortsOf ss).flatMap (wildcards E o.addrFamily)

/-- The numbers that a setting stores in the field that mode and tunnel share. -/
def Setting.tunnelCodes : Setting E → List ℕ
  | ⟨.mode, shape⟩ => shape.values.map ModeName.code
  | ⟨.tunnel, shape⟩ => shape.values.map TunnelName.code
  | _ => []

def tunnelCode (ss : List (Setting E)) : ℕ := (ss.flatMap Setting.tunnelCodes).getLast?.getD 0

/--
The document `ms` with the settings `ss` has the values written for the key, and the other
options are those of `ms'`.
-/
structure Isolated (k : Key) (ss : List (Setting E)) (ms ms' : List (Str × Json)) : Prop where
  alive : (tntParseBuf E (Json.object ms).events).fault = false
  alive' : (tntParseBuf E (Json.object ms').events).fault = false
  others : k.erase (tntParseBuf E (Json.object ms).events).servOpts =
    k.erase (tntParseBuf E (Json.object ms').events).servOpts
  value : k.Holds ss (tntParseBuf E (Json.object ms).events).servOpts

/--
What the parser does to the values of a key is right for these. For `Port`, every `any` comes after
all ports, of which there is one; for `ClientPort`, every listen address comes after all client
ports; for `AddressFamily`, one that has found a port comes after the family. `ListenAddress`
needs all of this.
-/
def Key.Stored : Key → List (Setting E) → Prop
  | .address, ss => ∀ s ∈ (valuesAt .address ss).getLast?, (0 : Byte) ∉ s
  | .privateKey, ss => ∀ s ∈ (valuesAt .privateKey ss).getLast?, (0 : Byte) ∉ s
  | .certFile, ss => ∀ s ∈ (valuesAt .certFile ss).getLast?, (0 : Byte) ∉ s
  | .port, ss => ∀ x ∈ places [] ss, x.2 = none → portsOf x.1 = portsOf ss ∧ portsOf ss ≠ []
  | .clientPort, ss => ∀ x ∈ places [] ss, clientPortsOf x.1 = clientPortsOf ss
  | .addressFamily, ss =>
    (∀ f ∈ (valuesAt .addressFamily ss).getLast?, f ≠ .inet6) ∧
      (∀ x ∈ places [] ss, x.2 = none → portsOf x.1 = [] ∨ familyOf x.1 = familyOf ss) ∧
      ∀ x ∈ places [] ss, clientPortsOf x.1 = [] ∨ familyOf x.1 = familyOf ss
  | .listenAddress, ss =>
    (∀ x ∈ places [] ss, x.2 = none →
      (portsOf x.1 = portsOf ss ∧ portsOf ss ≠ []) ∧ familyOf x.1 = familyOf ss) ∧
      ∀ x ∈ places [] ss, clientPortsOf x.1 = clientPortsOf ss ∧
        (clientPortsOf x.1 = [] ∨ familyOf x.1 = familyOf ss)
  | .mode, ss => ∀ m ∈ (valuesAt .mode ss).getLast?, m = .router
  | .tunnel, ss => ∀ t ∈ (valuesAt .tunnel ss).getLast?, tunnelCode ss = t.code
  | _, _ => True

/--
The tunnel is as it would be without the mode: a mode or a tunnel follows, or the mode has a value,
and without it there is 0, or it has none, and the other one, if any, has what is there.
-/
def TunnelKept (pre : List (Setting E)) (s : Setting E) (alt : Option (Setting E))
    (post : List (Setting E)) : Prop :=
  (∃ t ∈ post, t.tunnelCodes ≠ []) ∨
    if s.tunnelCodes ≠ [] then tunnelCode (pre ++ alt.toList) = 0
    else ∀ c ∈ (alt.toList.flatMap Setting.tunnelCodes).getLast?, c = tunnelCode pre

/--
Nothing overflows, the values are stored right, and a mode leaves the tunnel as it would be
without it.
-/
structure Harmless (pre : List (Setting E)) (s : Setting E) (alt : Option (Setting E))
    (post : List (Setting E)) : Prop where
  fits : Fits (pre ++ s :: post)
  fits' : Fits (pre ++ (alt.toList ++ post))
  stored : s.key.Stored (pre ++ s :: post)
  mode : s.key = .mode → TunnelKept pre s alt post

/-! ## The other options -/

theorem Key.erase_set (k k' : Key) (v : k'.Val E) (o : Options) :
    k.erase (k'.set v o) = k.erase (k'.set v (k.erase o)) := by
  cases k <;> cases k' <;> rfl

theorem Key.erase_set_self {k : Key} (hk : k ≠ .mode) (v : k.Val E) (o : Options) :
    k.erase (k.set v o) = k.erase o := by
  cases k <;> first | rfl | exact absurd rfl hk

theorem Key.erase_defaults (k : Key) (o : Options) :
    k.erase (defaults o) = k.erase (defaults (k.erase o)) := by
  cases k <;> rfl

theorem Setting.erase_set (k : Key) (s : Setting E) {o o' : Options}
    (h : k.erase o = k.erase o') : k.erase (s.set o) = k.erase (s.set o') := by
  rw [Setting.set, Setting.set]
  generalize s.values = vs
  induction vs generalizing o o' with
  | nil => exact h
  | cons v vs ih =>
    apply ih
    rw [Key.erase_set, h, ← Key.erase_set]

theorem erase_foldl_set (k : Key) (ss : List (Setting E)) {o o' : Options}
    (h : k.erase o = k.erase o') :
    k.erase (ss.foldl (fun o s => s.set o) o) = k.erase (ss.foldl (fun o s => s.set o) o') := by
  induction ss generalizing o o' with
  | nil => exact h
  | cons s ss ih => exact ih (s.erase_set k h)

theorem erase_optionsOf {e : Key} {pre mid mid' post : List (Setting E)}
    (h : ∀ s ∈ mid, ∀ (v : s.key.Val E) o, e.erase (s.key.set v o) = e.erase o)
    (h' : ∀ s ∈ mid', ∀ (v : s.key.Val E) o, e.erase (s.key.set v o) = e.erase o) :
    e.erase (defaults (optionsOf (pre ++ (mid ++ post)))) =
      e.erase (defaults (optionsOf (pre ++ (mid' ++ post)))) := by
  rw [Key.erase_defaults, Key.erase_defaults e (optionsOf (pre ++ (mid' ++ post)))]
  congr 2
  simp only [optionsOf, List.foldl_append]
  exact erase_foldl_set e post ((foldl_set_frame h _).trans (foldl_set_frame h' _).symm)

/-! ## The option of the key -/

theorem Setting.tunnel_set (s : Setting E) (o : Options) :
    (s.set o).tunnel = s.tunnelCodes.getLast?.getD o.tunnel := by
  obtain ⟨k, shape⟩ := s
  cases k with
  | mode =>
    have hset : (⟨.mode, shape⟩ : Setting E).set o = _ := foldl_tunnel ModeName.code shape.values o
    rw [hset, Setting.tunnelCodes, List.getLast?_map]
    cases shape.values.getLast? <;> rfl
  | tunnel =>
    have hset : (⟨.tunnel, shape⟩ : Setting E).set o = _ :=
      foldl_tunnel TunnelName.code shape.values o
    rw [hset, Setting.tunnelCodes, List.getLast?_map]
    cases shape.values.getLast? <;> rfl
  | _ => exact Setting.frame (f := Options.tunnel) _ (fun _ _ => rfl) o

theorem tunnel_foldl_set (ss : List (Setting E)) (o : Options) :
    (ss.foldl (fun o s => s.set o) o).tunnel =
      (ss.flatMap Setting.tunnelCodes).getLast?.getD o.tunnel := by
  induction ss generalizing o with
  | nil => rfl
  | cons s ss ih =>
    rw [List.foldl_cons, ih, s.tunnel_set, List.flatMap_cons, List.getLast?_append]
    cases (ss.flatMap Setting.tunnelCodes).getLast? <;> rfl

theorem tunnel_optionsOf (ss : List (Setting E)) : (optionsOf ss).tunnel = tunnelCode ss :=
  tunnel_foldl_set ss {}

theorem mode_foldl_set (ss : List (Setting E)) (o : Options) :
    (ss.foldl (fun o s => s.set o) o).mode = o.mode :=
  foldl_set_frame (fun s _ v o => (s.key.frame_set v o).mode) o

/-- A string is stored up to its first NUL. -/
theorem string_optionsOf_iff {k : Key} {f : Options → Option Str} {g : k.Val E → Str}
    (hset : ∀ v o, f (k.set v o) = some (ofMemory (g v)))
    (hother : ∀ k', k' ≠ k → ∀ (v : k'.Val E) o, f (k'.set v o) = f o) (ss : List (Setting E)) :
    (∀ v ∈ (valuesAt k ss).getLast?, f (optionsOf ss) = some (g v)) ↔
      ∀ v ∈ (valuesAt k ss).getLast?, (0 : Byte) ∉ g v := by
  refine forall₂_congr fun v hv => ?_
  rw [field_optionsOf hset hother hv, Option.some.injEq, ofMemory_eq_self_iff]

theorem FamilyName.stored_eq_meant_iff (f : FamilyName) : f.stored = f.meant ↔ f ≠ .inet6 := by
  cases f <;> decide

theorem ModeName.zero_eq_code_iff (m : ModeName) : 0 = m.code ↔ m = .router := by
  cases m <;> decide

/-- The ports that are left, if they are those written before an address. -/
theorem eq_ports_defaults_iff {ss : List (Setting E)} {ports : List ℕ}
    (h : ports <+: portsOf ss) :
    ports = (defaults (optionsOf ss)).ports ↔ ports = portsOf ss ∧ portsOf ss ≠ [] := by
  rw [defaults, ports_optionsOf]
  by_cases hnil : portsOf ss = []
  · rw [hnil, List.prefix_nil] at h
    simp [hnil, h]
  · simp [hnil]

theorem prefix_ports_defaults {ss : List (Setting E)} {ports : List ℕ}
    (h : ports <+: portsOf ss) : ports <+: (defaults (optionsOf ss)).ports := by
  rw [defaults, ports_optionsOf]
  by_cases hnil : portsOf ss = []
  · rw [hnil, List.prefix_nil] at h
    rw [h]
    exact List.nil_prefix
  · simpa only [if_neg hnil] using h

section Lists

variable (ss : List (Setting E))

theorem holds_port_iff :
    Key.Holds .port ss (defaults (optionsOf ss)) ↔ Key.Stored .port ss := by
  have hports : portsOf ss ≠ [] → (defaults (optionsOf ss)).ports = portsOf ss := by
    intro hne
    rw [defaults, ports_optionsOf, if_neg hne]
  rw [Key.Holds, Key.Stored, and_iff_right hports]
  apply (listenAddrs_eq_iff (fun x hx => prefix_ports_defaults (prefix_portsOf hx))
    (.inl rfl)).trans
  refine forall₂_congr fun x hx => imp_congr_right fun _ => ?_
  rw [eq_ports_defaults_iff (prefix_portsOf hx), and_iff_left (.inr rfl)]

theorem holds_clientPort_iff :
    Key.Holds .clientPort ss (defaults (optionsOf ss)) ↔ Key.Stored .clientPort ss := by
  have hports : clientPortsOf ss ≠ [] → (defaults (optionsOf ss)).cports = clientPortsOf ss := by
    intro hne
    rw [defaults, cports_optionsOf, if_neg hne]
  rw [Key.Holds, Key.Stored, and_iff_right hports]
  apply (clientAddrs_eq_iff (fun x hx => prefix_clientPortsOf hx) (.inl rfl)).trans
  exact forall₂_congr fun x hx => and_iff_left (.inr rfl)

theorem holds_addressFamily_iff :
    Key.Holds .addressFamily ss (defaults (optionsOf ss)) ↔ Key.Stored .addressFamily ss := by
  have hfamily : (defaults (optionsOf ss)).addrFamily = familyOf ss := addrFamily_optionsOf ss
  rw [Key.Holds, Key.Stored, hfamily]
  refine and_congr ?_ (and_congr ?_ ?_)
  · refine forall₂_congr fun f hf => ?_
    rw [familyOf, Option.mem_def.mp hf]
    exact FamilyName.stored_eq_meant_iff f
  · apply (listenAddrs_eq_iff (fun x _ => List.prefix_rfl) (.inr rfl)).trans
    exact forall₂_congr fun x _ => imp_congr_right fun _ => and_iff_right rfl
  · apply (clientAddrs_eq_iff (fun x _ => List.prefix_rfl) (.inr rfl)).trans
    exact forall₂_congr fun x _ => and_iff_right rfl

theorem holds_listenAddress_iff :
    Key.Holds .listenAddress ss (defaults (optionsOf ss)) ↔ Key.Stored .listenAddress ss := by
  have hfamily : (defaults (optionsOf ss)).addrFamily = familyOf ss := addrFamily_optionsOf ss
  rw [Key.Holds, Key.Stored, hfamily]
  refine and_congr ?_ ?_
  · apply (listenAddrs_eq_iff (fun x hx => prefix_ports_defaults (prefix_portsOf hx))
      (.inr rfl)).trans
    refine forall₂_congr fun x hx => imp_congr_right fun _ => ?_
    rw [eq_ports_defaults_iff (prefix_portsOf hx)]
    refine and_congr_right fun hall => or_iff_right ?_
    rw [hall.1]
    exact hall.2
  · exact clientAddrs_eq_iff (fun x hx => prefix_clientPortsOf hx) (.inr rfl)

end Lists

theorem holds_iff_stored (k : Key) (ss : List (Setting E)) :
    k.Holds ss (defaults (optionsOf ss)) ↔ k.Stored ss := by
  cases k with
  | compression =>
    refine ⟨fun _ => trivial, fun _ v hv => ?_⟩
    exact field_optionsOf (f := Options.compression) (g := id) (fun _ _ => rfl)
      (fun _ hk v o => (Key.frame_set _ v o).compression hk) hv
  | encryption =>
    refine ⟨fun _ => trivial, fun _ v hv => ?_⟩
    exact field_optionsOf (f := Options.encryption) (g := id) (fun _ _ => rfl)
      (fun _ hk v o => (Key.frame_set _ v o).encryption hk) hv
  | debug =>
    refine ⟨fun _ => trivial, fun _ v hv => ?_⟩
    exact field_optionsOf (f := Options.debug) (g := id) (fun _ _ => rfl)
      (fun _ hk v o => (Key.frame_set _ v o).debug hk) hv
  | tunnelIndex =>
    refine ⟨fun _ => trivial, fun _ v hv => ?_⟩
    exact field_optionsOf (f := Options.tunnelIndex) (g := fun v => (Fin.val v : ℕ))
      (fun _ _ => rfl) (fun _ hk v o => (Key.frame_set _ v o).tunnelIndex hk) hv
  | port => exact holds_port_iff ss
  | clientPort => exact holds_clientPort_iff ss
  | address =>
    exact string_optionsOf_iff (f := Options.addr) (g := id) (fun _ _ => rfl)
      (fun _ hk v o => (Key.frame_set _ v o).addr hk) ss
  | privateKey =>
    exact string_optionsOf_iff (f := Options.keyPath) (g := id) (fun _ _ => rfl)
      (fun _ hk v o => (Key.frame_set _ v o).keyPath hk) ss
  | certFile =>
    exact string_optionsOf_iff (f := Options.certPath) (g := id) (fun _ _ => rfl)
      (fun _ hk v o => (Key.frame_set _ v o).certPath hk) ss
  | addressFamily => exact holds_addressFamily_iff ss
  | mode =>
    refine forall₂_congr fun v hv => ?_
    have hsame : (defaults (optionsOf ss)).mode = 0 := mode_foldl_set ss {}
    rw [hsame]
    exact ModeName.zero_eq_code_iff v
  | tunnel =>
    refine forall₂_congr fun v hv => ?_
    have hsame : (defaults (optionsOf ss)).tunnel = (optionsOf ss).tunnel := rfl
    rw [hsame, tunnel_optionsOf]
  | peerAddress =>
    refine ⟨fun _ => trivial, fun _ => ?_⟩
    exact list_foldl_set (f := Options.peerAddrs) (g := AddressText.sockaddr) (fun _ _ => rfl)
      (fun _ hk v o => (Key.frame_set _ v o).peerAddrs hk) ss {}
  | listenAddress => exact holds_listenAddress_iff ss

/-! ## The tunnel that a mode leaves -/

section Tunnel

variable {pre post : List (Setting E)} {s : Setting E} {alt : Option (Setting E)}

theorem tunnelCodes_of_mode (hs : s.key = .mode) :
    s.tunnelCodes = (valuesAt .mode [s]).map ModeName.code := by
  obtain ⟨k, shape⟩ := s
  subst hs
  rw [valuesAt_single]
  rfl

theorem valuesAt_mode_eq_nil {ss : List (Setting E)} (h : ss.flatMap Setting.tunnelCodes = []) :
    valuesAt .mode ss = [] := by
  rw [valuesAt, List.flatMap_eq_nil_iff]
  intro s hs
  by_cases hk : s.key = .mode
  · have hnil := List.flatMap_eq_nil_iff.mp h s hs
    rw [tunnelCodes_of_mode hk, List.map_eq_nil_iff] at hnil
    simpa [valuesAt] using hnil
  · rw [dif_neg hk]

theorem getLast?_tunnelCodes (hs : s.key = .mode)
    (hstored : Key.Stored .mode (pre ++ s :: post))
    (hpost : post.flatMap Setting.tunnelCodes = []) (hne : s.tunnelCodes ≠ []) :
    s.tunnelCodes.getLast? = some 0 := by
  rw [tunnelCodes_of_mode hs] at hne ⊢
  have hvalues : (valuesAt .mode (pre ++ s :: post)).getLast? = (valuesAt .mode [s]).getLast? := by
    rw [valuesAt_append, valuesAt_cons, valuesAt_mode_eq_nil hpost, List.append_nil,
      List.getLast?_append_of_ne_nil _ (by simpa using hne)]
  rw [Key.Stored, hvalues] at hstored
  have hlast := List.getLast?_eq_some_getLast (by simpa using hne : valuesAt .mode [s] ≠ [])
  rw [List.getLast?_map, hlast, hstored _ hlast]
  rfl

/-- If the last mode is the router, then its entry leaves the tunnel alone under a condition on the
entries around it. -/
theorem tunnelCode_eq_iff (hs : s.key = .mode)
    (hstored : Key.Stored .mode (pre ++ s :: post)) :
    tunnelCode (pre ++ s :: post) = tunnelCode (pre ++ (alt.toList ++ post)) ↔
      TunnelKept pre s alt post := by
  simp only [tunnelCode, TunnelKept, List.flatMap_append, List.flatMap_cons]
  by_cases hpost : post.flatMap Setting.tunnelCodes = []
  · have hnone : ¬ ∃ t ∈ post, t.tunnelCodes ≠ [] := by
      rintro ⟨t, ht, hne⟩
      exact hne (List.flatMap_eq_nil_iff.mp hpost t ht)
    rw [or_iff_right hnone, hpost, List.append_nil, List.append_nil]
    by_cases hne : s.tunnelCodes ≠ []
    · rw [if_pos hne, List.getLast?_append, getLast?_tunnelCodes hs hstored hpost hne]
      exact eq_comm
    · rw [if_neg hne, not_not.mp hne, List.append_nil, List.getLast?_append]
      cases (alt.toList.flatMap Setting.tunnelCodes).getLast? with
      | none => simp
      | some c => simp [eq_comm]
  · have hsome : ∃ t ∈ post, t.tunnelCodes ≠ [] := by
      by_contra hnone
      apply hpost
      rw [List.flatMap_eq_nil_iff]
      exact fun t ht => by_contra fun hne => hnone ⟨t, ht, hne⟩
    refine iff_of_true ?_ (.inl hsome)
    rw [← List.append_assoc, ← List.append_assoc, List.getLast?_append_of_ne_nil _ hpost,
      List.getLast?_append_of_ne_nil _ hpost]

end Tunnel

/-! ## Documents that differ in one entry -/

section Documents

variable {ms ms' : List (Str × Json)} {pre post : List (Setting E)} {s : Setting E}
  {alt : Option (Setting E)}

theorem tntParseBuf_object {ss : List (Setting E)} (h : Describes ms ss) (hfits : Fits ss) :
    (tntParseBuf E (Json.object ms).events).servOpts = defaults (optionsOf ss) := by
  rw [tntParseBuf, foldl_step_object_of_fits h hfits]
  rfl

theorem fault_tntParseBuf_object_iff {ss : List (Setting E)} (h : Describes ms ss) :
    (tntParseBuf E (Json.object ms).events).fault = false ↔ Fits ss := by
  rw [← fault_object_iff h, tntParseBuf]
  split <;> rfl

/-- Options that agree but for the tunnel. -/
theorem erase_mode_eq_iff {o o' : Options} (h : Key.erase .tunnel o = Key.erase .tunnel o') :
    Key.erase .mode o = Key.erase .mode o' ↔ o.tunnel = o'.tunnel := by
  constructor
  · intro heq
    have htunnel : (Key.erase .mode o).tunnel = (Key.erase .mode o').tunnel := by rw [heq]
    exact htunnel
  · intro htunnel
    have hback : ∀ o : Options, o = { Key.erase .tunnel o with tunnel := o.tunnel } := fun _ => rfl
    rw [hback o, hback o', h, htunnel]

/-- The other options differ only by what a mode stores in the field of the tunnel. -/
theorem erase_eq_iff (halt : ∀ s' ∈ alt, s'.key = s.key) :
    s.key.erase (defaults (optionsOf (pre ++ s :: post))) =
        s.key.erase (defaults (optionsOf (pre ++ (alt.toList ++ post)))) ↔
      (s.key = .mode →
        tunnelCode (pre ++ s :: post) = tunnelCode (pre ++ (alt.toList ++ post))) := by
  rw [← List.singleton_append (l := post)]
  by_cases hk : s.key = .mode
  · have hmode : ∀ s' : Setting E, s'.key = .mode → ∀ (v : s'.key.Val E) o,
        Key.erase .tunnel (s'.key.set v o) = Key.erase .tunnel o := by
      rintro ⟨k, shape⟩ rfl v o
      rfl
    have herase : Key.erase .tunnel (defaults (optionsOf (pre ++ ([s] ++ post)))) =
        Key.erase .tunnel (defaults (optionsOf (pre ++ (alt.toList ++ post)))) := by
      apply erase_optionsOf
      · exact List.forall_mem_singleton.mpr (hmode s hk)
      · intro s' hs'
        exact hmode s' ((halt s' (Option.mem_toList.mp hs')).trans hk)
    rw [hk, erase_mode_eq_iff herase, ← tunnel_optionsOf, ← tunnel_optionsOf]
    exact ⟨fun h _ => h, fun h => h rfl⟩
  · refine ⟨fun _ h => absurd h hk, fun _ => ?_⟩
    apply erase_optionsOf
    · exact List.forall_mem_singleton.mpr fun v o => Key.erase_set_self hk v o
    · intro s' hs' v o
      have hkey := halt s' (Option.mem_toList.mp hs')
      rw [← hkey]
      exact Key.erase_set_self (hkey ▸ hk) v o

/--
In two documents that differ only by the presence or the value of one entry, the entry changes
only the option that its key names and gives it the value written, if and only if nothing
overflows, the value is stored right, and a mode leaves the tunnel as it would be
without it.
-/
theorem entry_isolated_iff (hms : Describes ms (pre ++ s :: post))
    (hms' : Describes ms' (pre ++ (alt.toList ++ post))) (halt : ∀ s' ∈ alt, s'.key = s.key) :
    Isolated s.key (pre ++ s :: post) ms ms' ↔
      Harmless pre s alt post := by
  constructor
  · rintro ⟨halive, halive', hothers, hvalue⟩
    have hfits := (fault_tntParseBuf_object_iff hms).mp halive
    have hfits' := (fault_tntParseBuf_object_iff hms').mp halive'
    rw [tntParseBuf_object hms hfits] at hothers hvalue
    rw [tntParseBuf_object hms' hfits'] at hothers
    have hstored := (holds_iff_stored _ _).mp hvalue
    refine ⟨hfits, hfits', hstored, fun hmode => ?_⟩
    exact (tunnelCode_eq_iff hmode (hmode ▸ hstored)).mp ((erase_eq_iff halt).mp hothers hmode)
  · rintro ⟨hfits, hfits', hstored, hmode⟩
    refine ⟨(fault_tntParseBuf_object_iff hms).mpr hfits,
      (fault_tntParseBuf_object_iff hms').mpr hfits', ?_, ?_⟩
    · rw [tntParseBuf_object hms hfits, tntParseBuf_object hms' hfits']
      rw [erase_eq_iff halt]
      exact fun h => (tunnelCode_eq_iff h (h ▸ hstored)).mpr (hmode h)
    · rw [tntParseBuf_object hms hfits]
      exact (holds_iff_stored _ _).mpr hstored

end Documents

/-- `ListenAddress` is there, behind the port, or not. -/
theorem listen_isolated :
    let port : Setting bareEvutil := ⟨.port, .scalar 5000⟩
    let listen : Setting bareEvutil := ⟨.listenAddress, .scalar none⟩
    Isolated .listenAddress [port, listen]
      [(ascii "Port", .number ⟨false, 5000, none, none⟩),
        (ascii "ListenAddress", .string (ascii "any"))]
      [(ascii "Port", .number ⟨false, 5000, none, none⟩)] := by
  intro port listen
  have hms : Describes [(ascii "Port", .number ⟨false, 5000, none, none⟩),
      (ascii "ListenAddress", .string (ascii "any"))] ([port] ++ listen :: []) :=
    .cons ⟨rfl, _, rfl, rfl⟩ (.cons ⟨rfl, rfl⟩ .nil)
  have hms' : Describes [(ascii "Port", .number ⟨false, 5000, none, none⟩)]
      ([port] ++ ((none : Option (Setting bareEvutil)).toList ++ [])) :=
    .cons ⟨rfl, _, rfl, rfl⟩ .nil
  refine (entry_isolated_iff hms hms' nofun).mpr ⟨?_, ?_, ?_, nofun⟩
  · exact ⟨by decide, by decide, nofun, List.forall_mem_singleton.mpr (by decide)⟩
  · exact ⟨by decide, by decide, nofun, nofun⟩
  · constructor
    · exact List.forall_mem_singleton.mpr fun _ => ⟨⟨rfl, by decide⟩, rfl⟩
    · exact List.forall_mem_singleton.mpr ⟨rfl, .inl rfl⟩

/-- `Mode` sets the tunnel and not the mode, `inet6` selects the other family, and `any` before
the port gives no address. -/
theorem mode_not_isolated :
    let mode : Setting bareEvutil := ⟨.mode, .scalar .switch⟩
    let family : Setting bareEvutil := ⟨.addressFamily, .scalar .inet6⟩
    let listen : Setting bareEvutil := ⟨.listenAddress, .scalar none⟩
    let port : Setting bareEvutil := ⟨.port, .scalar 5000⟩
    let ms : List (Str × Json) := [(ascii "Mode", .string (ascii "switch"))]
    let ms' : List (Str × Json) := [(ascii "AddressFamily", .string (ascii "inet6"))]
    let rest : List (Str × Json) := [(ascii "Port", .number ⟨false, 5000, none, none⟩)]
    let ms'' := (ascii "ListenAddress", Json.string (ascii "any")) :: rest
    (tntParseBuf bareEvutil (Json.object ms).events).servOpts.tunnel = 1 ∧
      (tntParseBuf bareEvutil (Json.object []).events).servOpts.tunnel = 0 ∧
      (tntParseBuf bareEvutil (Json.object ms).events).servOpts.mode = 0 ∧
      (tntParseBuf bareEvutil (Json.object ms').events).servOpts.addrFamily = .inet ∧
      (tntParseBuf bareEvutil (Json.object ms'').events).servOpts.listenAddrs = [] ∧
      ¬ Isolated .mode [mode] ms [] ∧ ¬ Isolated .addressFamily [family] ms' [] ∧
      ¬ Isolated .listenAddress [listen, port] ms'' rest := by
  intro mode family listen port ms ms' rest ms''
  have hmode : (tntParseBuf bareEvutil (Json.object ms).events).servOpts.mode = 0 := by
    simp only [ms, Json.events, memberEvents]
    decide
  have hfamily :
      (tntParseBuf bareEvutil (Json.object ms').events).servOpts.addrFamily = .inet := by
    simp only [ms', Json.events, memberEvents]
    decide
  have hlisten : (tntParseBuf bareEvutil (Json.object ms'').events).servOpts.listenAddrs = [] := by
    simp only [ms'', rest, Json.events, memberEvents]
    decide
  have hports : (tntParseBuf bareEvutil (Json.object ms'').events).servOpts.ports = [5000] := by
    simp only [ms'', rest, Json.events, memberEvents]
    decide
  refine ⟨?_, ?_, hmode, hfamily, hlisten, fun h => ?_, fun h => ?_, fun h => ?_⟩
  · simp only [ms, Json.events, memberEvents]
    decide
  · simp only [Json.events, memberEvents]
    decide
  · have hvalue := h.value .switch rfl
    rw [hmode] at hvalue
    cases hvalue
  · have hvalue := h.value.1 .inet6 rfl
    rw [hfamily] at hvalue
    cases hvalue
  · have hvalue := congrArg List.length h.value.1
    rw [hlisten, hports] at hvalue
    have hplaces : places [] [listen, port] = [([], none)] := rfl
    rw [hplaces, List.flatMap_singleton, listed, List.flatMap_singleton, wildcards] at hvalue
    revert hvalue
    cases (tntParseBuf bareEvutil (Json.object ms'').events).servOpts.addrFamily <;> decide

end Tnetacle.Config
