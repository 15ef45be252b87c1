import Mathlib.Algebra.Order.BigOperators.Group.List
import Mathlib.Algebra.Order.Group.Nat
import Mathlib.Data.List.Nodup
import Tnetacle.Config.Document

/-! # The order of the keys

What the options of a document should be, whatever the order of its keys, and the documents
for which they are. The parser expands `any` with the ports and the family that it has seen so
far, adds the client addresses at each listen address, and keeps the mode and the
tunnel in one field.
-/

namespace Tnetacle.Config

open Meta (Sockaddr)

variable {E : Evutil}

def valuesAt (k : Key) (ss : List (Setting E)) : List (k.Val E) :=
  ss.flatMap fun s => if h : s.key = k then h ▸ s.values else []

/-- The same options, the addresses as multisets. -/
structure Options.Agree (o o' : Options) : Prop where
  scalars : { o with listenAddrs := [], clientAddrs := [], peerAddrs := [] } =
    { o' with listenAddrs := [], clientAddrs := [], peerAddrs := [] }
  listenAddrs : o.listenAddrs.Perm o'.listenAddrs
  clientAddrs : o.clientAddrs.Perm o'.clientAddrs
  peerAddrs : o.peerAddrs.Perm o'.peerAddrs

def FamilyName.meant : FamilyName → AddrFamily
  | .inet6 => .inet6
  | .inet => .inet
  | .any => .unspec

namespace Document

variable (d : Document E)

def values (k : Key) : List (k.Val E) := valuesAt k d.settings

def portList : List ℕ :=
  if d.values .port = [] then [tnetacleDefaultPort] else (d.values .port).map Fin.val

def family : AddrFamily :=
  match (d.values .addressFamily).getLast? with
  | none => .unspec
  | some name => name.meant

def listenList : List Sockaddr :=
  (d.values .listenAddress).flatMap fun
    | none => d.portList.flatMap (wildcards E d.family)
    | some a => [a.sockaddr]

/--
Every order of the keys is read without a fault, gives the same options, and listens on the
addresses that are asked for.
-/
def OrderFree : Prop :=
  ∀ d' : Document E, d'.settings.Perm d.settings →
    (tntParseBuf E d'.events).fault = false ∧
      (tntParseBuf E d'.events).servOpts.Agree (tntParseBuf E d.events).servOpts ∧
      (tntParseBuf E d'.events).servOpts.listenAddrs.Perm d.listenList

/--
Nothing overflows, the mode and the tunnel of the document are stored as the same number, no
listen address is `any`, and there are not both listen addresses and client ports.
-/
structure Independent : Prop where
  fits : ∀ s ∈ d.settings, s.fits = true
  tunnel : ∀ m ∈ (d.values .mode).getLast?, ∀ t ∈ (d.values .tunnel).getLast?, m.code = t.code
  noAny : none ∉ d.values .listenAddress
  client : d.values .listenAddress = [] ∨ d.values .clientPort = []

end Document

/-! ## Values -/

theorem valuesAt_eq_nil {k : Key} {ss : List (Setting E)} (h : ∀ s ∈ ss, s.key ≠ k) :
    valuesAt k ss = [] := by
  rw [valuesAt, List.flatMap_eq_nil_iff]
  intro s hs
  rw [dif_neg (h s hs)]

theorem valuesAt_of_mem {s : Setting E} {ss : List (Setting E)}
    (hnodup : (ss.map Setting.key).Nodup) (hs : s ∈ ss) : valuesAt s.key ss = s.values := by
  induction ss with
  | nil => cases hs
  | cons t ss ih =>
    obtain ⟨hnot, hnodup⟩ := List.nodup_cons.mp hnodup
    have hother : ∀ u ∈ ss, u.key ≠ t.key := fun u hu heq =>
      hnot (List.mem_map.mpr ⟨u, hu, heq⟩)
    rw [valuesAt, List.flatMap_cons]
    rcases List.mem_cons.mp hs with rfl | hs
    · have hnil := valuesAt_eq_nil hother
      rw [valuesAt] at hnil
      rw [hnil, dif_pos rfl, List.append_nil]
    · rw [dif_neg (fun heq => hother s hs heq.symm), List.nil_append]
      exact ih hnodup hs

theorem Document.values_of_mem (d : Document E) {s : Setting E} (hs : s ∈ d.settings) :
    d.values s.key = s.values := valuesAt_of_mem d.nodup hs

theorem Document.exists_setting (d : Document E) {k : Key} (h : d.values k ≠ []) :
    ∃ shape, (⟨k, shape⟩ : Setting E) ∈ d.settings ∧ d.values k = shape.values := by
  by_contra hno
  apply h
  apply valuesAt_eq_nil
  rintro ⟨k', shape⟩ hs rfl
  exact hno ⟨shape, hs, d.values_of_mem hs⟩

/-! ## Settings that do not disturb each other -/

theorem foldl_tunnel {α : Type} (code : α → ℕ) (vs : List α) (o : Options) :
    vs.foldl (fun o v => { o with tunnel := code v }) o = match vs.getLast? with
      | none => o
      | some v => { o with tunnel := code v } := by
  induction vs generalizing o with
  | nil => rfl
  | cons v vs ih =>
    rw [List.foldl_cons, ih, List.getLast?_cons]
    cases vs.getLast? <;> rfl

/-- The keys other than `ListenAddress` store their values independently, except for the field
that two of them share. -/
theorem Key.set_comm {k k' : Key} (hne : k ≠ k') (hk : k ≠ .listenAddress)
    (hk' : k' ≠ .listenAddress) (ht : ¬ (k = .mode ∧ k' = .tunnel))
    (ht' : ¬ (k = .tunnel ∧ k' = .mode)) (v : k.Val E) (v' : k'.Val E) (o : Options) :
    k.set v (k'.set v' o) = k'.set v' (k.set v o) := by
  cases k <;> cases k' <;>
    first | rfl | exact absurd rfl hne | exact absurd rfl hk | exact absurd rfl hk' |
      exact absurd ⟨rfl, rfl⟩ ht | exact absurd ⟨rfl, rfl⟩ ht'

def Options.listen (addrs : List Sockaddr) (o : Options) : Options :=
  { o with listenAddrs := o.listenAddrs ++ addrs }

theorem Key.set_listen {k : Key} (hk : k ≠ .listenAddress) (addrs : List Sockaddr) (v : k.Val E)
    (o : Options) : k.set v (o.listen addrs) = (k.set v o).listen addrs := by
  cases k <;> first | rfl | exact absurd rfl hk

theorem set_listenAddress (shape : Shape (Option (AddressText E))) (o : Options) :
    (⟨.listenAddress, shape⟩ : Setting E).set o = { o with
      listenAddrs := o.listenAddrs ++ shape.values.flatMap (listenAddrs o)
      clientAddrs := o.clientAddrs ++
        shape.values.flatMap fun _ => o.cports.flatMap (wildcards E o.addrFamily) } := by
  rw [Setting.set]
  show shape.values.foldl (fun o v => Key.set .listenAddress v o) o = _
  generalize shape.values = vs
  induction vs generalizing o with
  | nil => simp
  | cons v vs ih =>
    rw [List.foldl_cons, ih]
    simp only [Key.set, List.flatMap_cons, List.append_assoc]
    rfl

/-- Without `any`, listen addresses stand for themselves. -/
theorem flatMap_of_noAny {vs : List (Option (AddressText E))} (h : none ∉ vs)
    {f : Option (AddressText E) → List Sockaddr} (hf : ∀ a, f (some a) = [a.sockaddr]) :
    vs.flatMap f = vs.filterMap fun a => a.map (·.sockaddr) := by
  induction vs with
  | nil => rfl
  | cons v vs ih =>
    rw [List.mem_cons, not_or] at h
    cases v with
    | none => exact absurd rfl h.1
    | some a =>
      rw [List.flatMap_cons, hf, ih h.2]
      rfl

theorem set_clientPort (shape : Shape (Fin 65536)) (o : Options) :
    (⟨.clientPort, shape⟩ : Setting E).set o =
      { o with cports := o.cports ++ shape.values.map Fin.val } := by
  rw [Setting.set]
  show shape.values.foldl (fun o n => Key.set (E := E) .clientPort n o) o = _
  generalize shape.values = ns
  induction ns generalizing o with
  | nil => simp
  | cons n ns ih =>
    rw [List.foldl_cons, ih]
    simp [Key.set]

def Setting.sockaddrs : Setting E → List Sockaddr
  | ⟨.listenAddress, shape⟩ => shape.values.filterMap fun a => a.map (·.sockaddr)
  | _ => []

/-- What a setting does in a document whose settings do not disturb each other. -/
def Setting.plain : Setting E → Options → Options
  | ⟨.listenAddress, shape⟩, o => o.listen (Setting.sockaddrs ⟨.listenAddress, shape⟩)
  | s, o => s.set o

namespace Setting

variable {s t : Setting E}

theorem plain_of_ne (h : s.key ≠ .listenAddress) (o : Options) : s.plain o = s.set o := by
  obtain ⟨k, shape⟩ := s
  cases k <;> first | rfl | exact absurd rfl h

theorem plain_listenAddress (h : s.key = .listenAddress) (o : Options) :
    s.plain o = o.listen s.sockaddrs := by
  obtain ⟨k, shape⟩ := s
  subst h
  rfl

theorem sockaddrs_of_ne (h : s.key ≠ .listenAddress) : s.sockaddrs = [] := by
  obtain ⟨k, shape⟩ := s
  cases k <;> first | rfl | exact absurd rfl h

theorem set_listen (h : s.key ≠ .listenAddress) (addrs : List Sockaddr) (o : Options) :
    s.set (o.listen addrs) = (s.set o).listen addrs :=
  List.foldl_hom (Options.listen addrs) fun o v => Key.set_listen h addrs v o

theorem set_comm (hne : s.key ≠ t.key) (hs : s.key ≠ .listenAddress) (ht : t.key ≠ .listenAddress)
    (hst : ¬ (s.key = .mode ∧ t.key = .tunnel)) (hts : ¬ (s.key = .tunnel ∧ t.key = .mode))
    (o : Options) : s.set (t.set o) = t.set (s.set o) := by
  have hone : ∀ (v : s.key.Val E) o, s.key.set v (t.set o) = t.set (s.key.set v o) := by
    intro v o
    exact (List.foldl_hom (s.key.set v) fun o w =>
      (Key.set_comm hne hs ht hst hts v w o).symm).symm
  exact List.foldl_hom t.set fun o v => hone v o

theorem set_mode_tunnel {shape : Shape ModeName} {shape' : Shape TunnelName}
    (h : ∀ m ∈ shape.values.getLast?, ∀ t ∈ shape'.values.getLast?, m.code = t.code)
    (o : Options) :
    (⟨.mode, shape⟩ : Setting E).set ((⟨.tunnel, shape'⟩ : Setting E).set o) =
      (⟨.tunnel, shape'⟩ : Setting E).set ((⟨.mode, shape⟩ : Setting E).set o) := by
  have hmode : ∀ o, (⟨.mode, shape⟩ : Setting E).set o = _ :=
    foldl_tunnel ModeName.code shape.values
  have htunnel : ∀ o, (⟨.tunnel, shape'⟩ : Setting E).set o = _ :=
    foldl_tunnel TunnelName.code shape'.values
  simp only [hmode, htunnel]
  cases hm : shape.values.getLast? with
  | none => rfl
  | some m =>
    cases ht : shape'.values.getLast? with
    | none => rfl
    | some t => simp only [h m hm t ht]

theorem codes_eq {d : Document E} (h : d.Independent) {shape : Shape ModeName}
    {shape' : Shape TunnelName} (hs : ⟨.mode, shape⟩ ∈ d.settings)
    (ht : ⟨.tunnel, shape'⟩ ∈ d.settings) :
    ∀ m ∈ shape.values.getLast?, ∀ t ∈ shape'.values.getLast?, m.code = t.code := by
  have hmode : d.values .mode = shape.values := d.values_of_mem hs
  have htunnel : d.values .tunnel = shape'.values := d.values_of_mem ht
  rw [← hmode, ← htunnel]
  exact h.tunnel

theorem plain_comm {d : Document E} (h : d.Independent) (hs : s ∈ d.settings)
    (ht : t ∈ d.settings) (hne : s.key ≠ t.key) (o : Options) :
    s.plain (t.plain o) = t.plain (s.plain o) := by
  by_cases hsl : s.key = .listenAddress
  · have htl : t.key ≠ .listenAddress := fun htl => hne (hsl.trans htl.symm)
    rw [plain_listenAddress hsl, plain_listenAddress hsl, plain_of_ne htl, plain_of_ne htl,
      set_listen htl]
  · by_cases htl : t.key = .listenAddress
    · rw [plain_listenAddress htl, plain_listenAddress htl, plain_of_ne hsl, plain_of_ne hsl,
        set_listen hsl]
    · rw [plain_of_ne hsl, plain_of_ne hsl, plain_of_ne htl, plain_of_ne htl]
      obtain ⟨k, shape⟩ := s
      obtain ⟨k', shape'⟩ := t
      by_cases hst : k = .mode ∧ k' = .tunnel
      · obtain ⟨rfl, rfl⟩ := hst
        exact set_mode_tunnel (codes_eq h hs ht) o
      · by_cases hts : k = .tunnel ∧ k' = .mode
        · obtain ⟨rfl, rfl⟩ := hts
          exact (set_mode_tunnel (codes_eq h ht hs) o).symm
        · exact set_comm hne hsl htl hst hts o

theorem set_eq_plain {d : Document E} (h : d.Independent) (hs : s ∈ d.settings) {o : Options}
    (hc : d.values .clientPort = [] → o.cports = []) : s.set o = s.plain o := by
  by_cases hl : s.key = .listenAddress
  · obtain ⟨k, shape⟩ := s
    subst hl
    have hvalues : d.values .listenAddress = shape.values := d.values_of_mem hs
    have hany : none ∉ shape.values := hvalues ▸ h.noAny
    have haddrs : shape.values.flatMap (listenAddrs o) = sockaddrs ⟨.listenAddress, shape⟩ :=
      flatMap_of_noAny hany fun _ => rfl
    have hclient : (shape.values.flatMap fun _ => o.cports.flatMap (wildcards E o.addrFamily)) =
        [] := by
      rcases h.client with hnil | hnil
      · rw [← hvalues, hnil, List.flatMap_nil]
      · simp [hc hnil]
    rw [set_listenAddress, haddrs, hclient, List.append_nil]
    rfl
  · rw [plain_of_ne hl]

theorem cports_plain {d : Document E} (hs : s ∈ d.settings) (hnil : d.values .clientPort = [])
    {o : Options} (ho : o.cports = []) : (s.plain o).cports = [] := by
  by_cases hl : s.key = .listenAddress
  · rw [plain_listenAddress hl]
    exact ho
  · rw [plain_of_ne hl]
    by_cases hk : s.key = .clientPort
    · have hvalues : s.values = [] := by
        obtain ⟨k, shape⟩ := s
        subst hk
        exact (d.values_of_mem hs).symm.trans hnil
      rw [set, hvalues]
      exact ho
    · rw [s.frame (f := Options.cports) (fun v o => (Key.frame_set _ v o).cports hk), ho]

end Setting

namespace Document

variable {d : Document E}

theorem foldl_set_eq_plain (h : d.Independent) {ss : List (Setting E)}
    (hss : ∀ s ∈ ss, s ∈ d.settings) {o : Options}
    (hc : d.values .clientPort = [] → o.cports = []) :
    ss.foldl (fun o s => s.set o) o = ss.foldl (fun o s => s.plain o) o := by
  induction ss generalizing o with
  | nil => rfl
  | cons s ss ih =>
    have hs := hss s List.mem_cons_self
    rw [List.foldl_cons, List.foldl_cons, Setting.set_eq_plain h hs hc]
    apply ih
    · exact fun t ht => hss t (List.mem_cons_of_mem s ht)
    · exact fun hnil => Setting.cports_plain hs hnil (hc hnil)

theorem optionsOf_perm (h : d.Independent) {ss : List (Setting E)} (hp : ss.Perm d.settings) :
    optionsOf ss = optionsOf d.settings := by
  rw [optionsOf, optionsOf, foldl_set_eq_plain h (fun s hs => hp.mem_iff.mp hs) (fun _ => rfl),
    foldl_set_eq_plain h (fun s hs => hs) (fun _ => rfl)]
  apply hp.foldl_eq'
  intro s hs t ht o
  by_cases hkey : s.key = t.key
  · rw [List.inj_on_of_nodup_map d.nodup (hp.mem_iff.mp hs) (hp.mem_iff.mp ht) hkey]
  · exact (Setting.plain_comm h (hp.mem_iff.mp hs) (hp.mem_iff.mp ht) hkey o).symm

theorem listenAddrs_foldl_plain (ss : List (Setting E)) (o : Options) :
    (ss.foldl (fun o s => s.plain o) o).listenAddrs =
      o.listenAddrs ++ ss.flatMap Setting.sockaddrs := by
  induction ss generalizing o with
  | nil => simp
  | cons s ss ih =>
    have hs : (s.plain o).listenAddrs = o.listenAddrs ++ s.sockaddrs := by
      by_cases hl : s.key = .listenAddress
      · rw [Setting.plain_listenAddress hl]
        rfl
      · rw [Setting.plain_of_ne hl, Setting.sockaddrs_of_ne hl, List.append_nil,
          s.frame (f := Options.listenAddrs) (fun v o => (Key.frame_set _ v o).listenAddrs hl)]
    rw [List.foldl_cons, ih, hs, List.flatMap_cons, List.append_assoc]

theorem listenList_eq (h : none ∉ d.values .listenAddress) :
    d.listenList = d.settings.flatMap Setting.sockaddrs := by
  rw [listenList, flatMap_of_noAny h fun _ => rfl, values, valuesAt, List.filterMap_flatMap]
  congr 1
  funext s
  by_cases hl : s.key = .listenAddress
  · obtain ⟨k, shape⟩ := s
    subst hl
    rfl
  · rw [dif_neg hl, Setting.sockaddrs_of_ne hl]
    rfl

theorem Independent.orderFree (h : d.Independent) : d.OrderFree := by
  intro d' hp
  have hfits : ∀ s ∈ d'.settings, s.fits = true := fun s hs => h.fits s (hp.mem_iff.mp hs)
  have hopts : optionsOf d'.settings = optionsOf d.settings := optionsOf_perm h hp
  refine ⟨d'.fault_tntParseBuf_iff.mpr hfits, ?_, ?_⟩
  · rw [d'.servOpts_tntParseBuf hfits, d.servOpts_tntParseBuf h.fits, hopts]
    exact ⟨rfl, .refl _, .refl _, .refl _⟩
  · rw [d'.servOpts_tntParseBuf hfits, hopts, listenList_eq h.noAny]
    have haddrs : (optionsOf d.settings).listenAddrs = d.settings.flatMap Setting.sockaddrs := by
      rw [optionsOf, foldl_set_eq_plain h (fun s hs => hs) (fun _ => rfl), listenAddrs_foldl_plain]
      rfl
    exact haddrs ▸ .refl _

/-! ## Settings that disturb each other -/

theorem OrderFree.options (h : d.OrderFree) {ss : List (Setting E)} (hp : ss.Perm d.settings) :
    (defaults (optionsOf ss)).Agree (defaults (optionsOf d.settings)) ∧
      (optionsOf ss).listenAddrs.Perm d.listenList := by
  have hfits := d.fault_tntParseBuf_iff.mp (h d (.refl _)).1
  have hnodup : (ss.map Setting.key).Nodup := (hp.map Setting.key).nodup_iff.mpr d.nodup
  obtain ⟨-, hagree, hlisten⟩ := h ⟨ss, hnodup⟩ hp
  rw [servOpts_tntParseBuf _ fun s hs => hfits s (hp.mem_iff.mp hs)] at hagree hlisten
  rw [d.servOpts_tntParseBuf hfits] at hagree
  exact ⟨hagree, hlisten⟩

theorem exists_perm_cons {α : Type*} {a : α} {l : List α} (h : a ∈ l) : ∃ r, (a :: r).Perm l := by
  obtain ⟨l₁, l₂, rfl⟩ := List.append_of_mem h
  exact ⟨l₁ ++ l₂, List.perm_middle.symm⟩

theorem exists_perm_cons_cons {α : Type*} {a b : α} {l : List α} (ha : a ∈ l) (hb : b ∈ l)
    (hne : b ≠ a) : ∃ r, (a :: b :: r).Perm l := by
  obtain ⟨r, hr⟩ := exists_perm_cons ha
  have hmem : b ∈ r := (List.mem_cons.mp (hr.mem_iff.mpr hb)).resolve_left hne
  obtain ⟨r', hr'⟩ := exists_perm_cons hmem
  exact ⟨r', (hr'.cons a).trans hr⟩

theorem addrs_foldl_set {ss : List (Setting E)} (h : ∀ s ∈ ss, s.key ≠ .listenAddress)
    (o : Options) :
    (ss.foldl (fun o s => s.set o) o).listenAddrs = o.listenAddrs ∧
      (ss.foldl (fun o s => s.set o) o).clientAddrs = o.clientAddrs := by
  constructor
  · exact foldl_set_frame (fun s hs v o => (Key.frame_set _ v o).listenAddrs (h s hs)) o
  · exact foldl_set_frame (fun s hs v o => (Key.frame_set _ v o).clientAddrs (h s hs)) o

theorem key_ne_of_perm {s : Setting E} {r : List (Setting E)} (hp : (s :: r).Perm d.settings) :
    ∀ t ∈ r, t.key ≠ s.key := by
  intro t ht heq
  have hnodup : ((s :: r).map Setting.key).Nodup := (hp.map Setting.key).nodup_iff.mpr d.nodup
  exact (List.nodup_cons.mp hnodup).1 (List.mem_map.mpr ⟨t, ht, heq⟩)

/-- The mode and the tunnel are both in the field `tunnel`, which keeps the last. -/
theorem OrderFree.tunnel (h : d.OrderFree) :
    ∀ m ∈ (d.values .mode).getLast?, ∀ t ∈ (d.values .tunnel).getLast?, m.code = t.code := by
  intro m hm t ht
  have hmode : d.values .mode ≠ [] := by
    intro hnil
    rw [hnil] at hm
    cases hm
  have htunnel : d.values .tunnel ≠ [] := by
    intro hnil
    rw [hnil] at ht
    cases ht
  obtain ⟨shape, hs, hvalues⟩ := d.exists_setting hmode
  obtain ⟨shape', hs', hvalues'⟩ := d.exists_setting htunnel
  obtain ⟨r, hr⟩ := exists_perm_cons_cons hs hs' (by simp)
  rw [hvalues] at hm
  rw [hvalues'] at ht
  have hset : ∀ o, ((⟨.mode, shape⟩ : Setting E).set o).tunnel = m.code := by
    intro o
    have hfold := foldl_tunnel ModeName.code shape.values o
    rw [Option.mem_def.mp hm] at hfold
    exact congrArg Options.tunnel hfold
  have hset' : ∀ o, ((⟨.tunnel, shape'⟩ : Setting E).set o).tunnel = t.code := by
    intro o
    have hfold := foldl_tunnel TunnelName.code shape'.values o
    rw [Option.mem_def.mp ht] at hfold
    exact congrArg Options.tunnel hfold
  have hfirst := (h.options (List.perm_append_comm.trans hr : (r ++ [_, _]).Perm _)).1
  have hsecond := (h.options
    ((List.perm_append_comm.trans (.swap _ _ r)).trans hr : (r ++ [_, _]).Perm _)).1
  have heq := congrArg Options.tunnel (hfirst.scalars.trans hsecond.scalars.symm)
  simp only [optionsOf, List.foldl_append, List.foldl_cons, List.foldl_nil, defaults] at heq
  rw [hset', hset] at heq
  exact heq.symm

theorem flatMap_wildcards_ne_nil {family : AddrFamily} {ports : List ℕ} (h : ports ≠ []) :
    ports.flatMap (wildcards E family) ≠ [] := by
  obtain ⟨port, rest, rfl⟩ := List.exists_cons_of_ne_nil h
  rw [List.flatMap_cons]
  apply List.append_ne_nil_of_left_ne_nil
  cases family <;> simp [wildcards]

theorem portList_ne_nil : d.portList ≠ [] := by
  unfold portList
  split
  · simp
  · rename_i h
    simpa using h

theorem OrderFree.noAny (h : d.OrderFree) : none ∉ d.values .listenAddress := by
  intro hany
  obtain ⟨shape, hs, hvalues⟩ := d.exists_setting (List.ne_nil_of_mem hany)
  obtain ⟨r, hr⟩ := exists_perm_cons hs
  have haddrs : (optionsOf (⟨.listenAddress, shape⟩ :: r)).listenAddrs =
      shape.values.flatMap (listenAddrs {}) := by
    rw [optionsOf, List.foldl_cons, (addrs_foldl_set (key_ne_of_perm hr) _).1, set_listenAddress]
    rfl
  have hlen := (h.options hr).2.length_eq
  rw [haddrs, listenList, hvalues, List.length_flatMap, List.length_flatMap] at hlen
  apply Nat.ne_of_lt _ hlen
  apply List.sum_lt_sum
  · rintro (_ | a) -
    · exact Nat.zero_le _
    · exact Nat.le_refl _
  · exact ⟨none, hvalues ▸ hany,
      List.length_pos_iff.mpr (flatMap_wildcards_ne_nil portList_ne_nil)⟩

theorem OrderFree.client (h : d.OrderFree) :
    d.values .listenAddress = [] ∨ d.values .clientPort = [] := by
  by_contra hboth
  obtain ⟨hlisten, hclient⟩ := not_or.mp hboth
  obtain ⟨shape, hs, hvalues⟩ := d.exists_setting hlisten
  obtain ⟨shape', hs', hvalues'⟩ := d.exists_setting hclient
  obtain ⟨r, hr⟩ := exists_perm_cons_cons hs hs' (by simp)
  have hne := key_ne_of_perm hr
  have hrest : ∀ t ∈ r, t.key ≠ .listenAddress := fun t ht => hne t (List.mem_cons_of_mem _ ht)
  have hfirst : (optionsOf (⟨.listenAddress, shape⟩ :: ⟨.clientPort, shape'⟩ :: r)).clientAddrs =
      [] := by
    rw [optionsOf, List.foldl_cons, (addrs_foldl_set hne _).2, set_listenAddress]
    simp
  have hsecond : (optionsOf (⟨.clientPort, shape'⟩ :: ⟨.listenAddress, shape⟩ :: r)).clientAddrs ≠
      [] := by
    rw [optionsOf, List.foldl_cons, List.foldl_cons, (addrs_foldl_set hrest _).2,
      set_listenAddress, set_clientPort]
    obtain ⟨v, vs, hcons⟩ := List.exists_cons_of_ne_nil (hvalues ▸ hlisten)
    apply List.append_ne_nil_of_right_ne_nil
    rw [hcons, List.flatMap_cons]
    apply List.append_ne_nil_of_left_ne_nil
    apply flatMap_wildcards_ne_nil
    simpa [hvalues'] using hclient
  have hperm := (h.options hr).1.clientAddrs.trans
    (h.options ((List.Perm.swap _ _ r).trans hr)).1.clientAddrs.symm
  simp only [defaults] at hperm
  rw [hfirst] at hperm
  exact hsecond (List.nil_perm.mp hperm)

/--
Every order of the keys of a document is read alike, and listens on the addresses asked for,
exactly when nothing overflows, its mode and its tunnel are stored as the same number, no
listen address is `any`, and it has no client ports besides listen addresses.
-/
theorem order_free_iff_independent (d : Document E) : d.OrderFree ↔ d.Independent := by
  constructor
  · intro h
    exact ⟨d.fault_tntParseBuf_iff.mp (h d (.refl _)).1, h.tunnel, h.noAny, h.client⟩
  · intro h
    exact h.orderFree

end Document

def bareEvutil : Evutil := ⟨.big, fun _ => none, fun _ _ => rfl⟩

def anyThenPort : Document bareEvutil where
  settings := [⟨.listenAddress, .array [none]⟩, ⟨.port, .scalar 5000⟩]
  nodup := by decide

def portThenAny : Document bareEvutil where
  settings := [⟨.port, .scalar 5000⟩, ⟨.listenAddress, .array [none]⟩]
  nodup := by decide

/-- The same two keys listen on no address in one order, and on two addresses in the other. -/
theorem options_depend_on_order :
    anyThenPort.settings.Perm portThenAny.settings ∧
      (tntParseBuf bareEvutil anyThenPort.events).servOpts.listenAddrs = [] ∧
      (tntParseBuf bareEvutil portThenAny.events).servOpts.listenAddrs =
        [.inet 0 5000, .inet6 0 5000 0 0] := by
  refine ⟨List.Perm.swap _ _ _, ?_, ?_⟩
  · rw [anyThenPort.servOpts_tntParseBuf (by decide)]
    decide
  · rw [portThenAny.servOpts_tntParseBuf (by decide)]
    decide

end Tnetacle.Config
