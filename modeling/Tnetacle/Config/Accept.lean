import Tnetacle.Config.Json

/-! # Which documents are accepted

yajl cancels the parse when a callback returns 0. The callbacks report an error by `-1`, so that
no document is refused for what it says: every JSON object is accepted, unless it
overflows a table or a buffer.
-/

namespace Tnetacle.Config

open CString

/-! ## What the callbacks return -/

def yajlBooleanReturn (map : Str) : Int :=
  if named "Compression" map then 1
  else if named "Encryption" map then 1
  else if named "Debug" map then 1
  else -1

def yajlNumberReturn (num map : Str) : Int :=
  if 20 < num.length then -1
  else if strtolEnd num ≠ [] ∨ strtol num < 0 ∨ 65535 < strtol num then -1
  else if named "TunnelIndex" map then 1
  else if named "Port" map then 1
  else if named "ClientPort" map then 1
  else -1

/-- The result of `add_sockaddr` is not looked at. -/
def yajlStringReturn (str map : Str) : Int :=
  if named "Address" map then 1
  else if named "AddressFamily" map then
    if named "inet6" str then 1
    else if named "inet" str then 1
    else if named "any" str then 1
    else -1
  else if named "Mode" map then
    if named "router" str then 1
    else if named "switch" str then 1
    else if named "hub" str then 1
    else -1
  else if named "Tunnel" map then
    if named "point-to-point" str then 1
    else if named "ethernet" str then 1
    else -1
  else if named "PrivateKey" map then 1
  else if named "CertFile" map then 1
  else if named "PeerAddress" map then 1
  else if named "ListenAddress" map then 1
  else -1

/-- What the callback of an event returns; a value without a key is an error. -/
def callbackReturn (p : Parser) : Event → Int
  | .null => -1
  | .boolean _ => match p.map with
    | none => -1
    | some map => yajlBooleanReturn map
  | .number num => match p.map with
    | none => -1
    | some map => yajlNumberReturn num map
  | .string str => match p.map with
    | none => -1
    | some map => yajlStringReturn str map
  | .startMap => -1
  | .mapKey _ => 1
  | .endMap => -1
  | .startArray => -1
  | .endArray => -1

inductive YajlStatus | ok | clientCanceled
  deriving DecidableEq, Repr

section Yajl

variable (E : Evutil)

/-- yajl on a text that is grammatical: a callback that returns 0 cancels the parse. -/
def yajlParse : List Event → Parser → YajlStatus × Parser
  | [], p => (.ok, p)
  | e :: es, p =>
    if callbackReturn p e = 0 then (.clientCanceled, step E p e) else yajlParse es (step E p e)

/-- What `tnt_parse_buf` returns, unless memory was overrun. -/
def tntParseBufReturn (events : List Event) : Option Int :=
  match yajlParse E events {} with
  | (status, p) =>
    if p.fault then none
    else if status ≠ .ok then some (-1)
    else some 0

end Yajl

variable {E : Evutil}

theorem ite_ne_zero {c : Prop} [Decidable c] {a b : Int} (ha : a ≠ 0) (hb : b ≠ 0) :
    (if c then a else b) ≠ 0 := by
  split <;> assumption

theorem yajlBooleanReturn_ne_zero (map : Str) : yajlBooleanReturn map ≠ 0 := by
  unfold yajlBooleanReturn
  repeat' apply ite_ne_zero
  all_goals decide

theorem yajlNumberReturn_ne_zero (num map : Str) : yajlNumberReturn num map ≠ 0 := by
  unfold yajlNumberReturn
  repeat' apply ite_ne_zero
  all_goals decide

theorem yajlStringReturn_ne_zero (str map : Str) : yajlStringReturn str map ≠ 0 := by
  unfold yajlStringReturn
  repeat' apply ite_ne_zero
  all_goals decide

theorem callbackReturn_ne_zero (p : Parser) (e : Event) : callbackReturn p e ≠ 0 := by
  have herror : (-1 : Int) ≠ 0 := by decide
  cases e with
  | boolean val =>
    rw [callbackReturn]
    cases p.map with
    | none => exact herror
    | some map => exact yajlBooleanReturn_ne_zero map
  | number num =>
    rw [callbackReturn]
    cases p.map with
    | none => exact herror
    | some map => exact yajlNumberReturn_ne_zero num map
  | string str =>
    rw [callbackReturn]
    cases p.map with
    | none => exact herror
    | some map => exact yajlStringReturn_ne_zero str map
  | mapKey key => exact Int.one_ne_zero
  | _ => exact herror

theorem yajlParse_eq (es : List Event) (p : Parser) :
    yajlParse E es p = (.ok, es.foldl (step E) p) := by
  induction es generalizing p with
  | nil => rfl
  | cons e es ih =>
    rw [yajlParse, if_neg (callbackReturn_ne_zero p e), ih]
    rfl

/-- `tnt_parse_buf` never fails for what it was told. -/
theorem tntParseBufReturn_eq (events : List Event) :
    tntParseBufReturn E events = if (events.foldl (step E) {}).fault then none else some 0 := by
  rw [tntParseBufReturn, yajlParse_eq]
  rfl

/-! ## Settings that fit -/

/-- The ports of all settings fit in the tables, and the addresses in the buffer. -/
structure Fits (ss : List (Setting E)) : Prop where
  ports : (valuesAt .port ss).length ≤ tnetacleMaxPorts
  cports : (valuesAt .clientPort ss).length ≤ tnetacleMaxPorts
  peerAddrs : ∀ a ∈ valuesAt .peerAddress ss, a.text.length < inet6Addrstrlen
  listenAddrs : ∀ a ∈ valuesAt .listenAddress ss, (listenText a).length < inet6Addrstrlen

structure FitsFrom (o : Options) (ss : List (Setting E)) : Prop where
  ports : (valuesAt .port ss).length = 0 ∨
    o.ports.length + (valuesAt .port ss).length ≤ tnetacleMaxPorts
  cports : (valuesAt .clientPort ss).length = 0 ∨
    o.cports.length + (valuesAt .clientPort ss).length ≤ tnetacleMaxPorts
  peerAddrs : ∀ a ∈ valuesAt .peerAddress ss, a.text.length < inet6Addrstrlen
  listenAddrs : ∀ a ∈ valuesAt .listenAddress ss, (listenText a).length < inet6Addrstrlen

theorem fits_iff {ss : List (Setting E)} : Fits ss ↔ FitsFrom {} ss := by
  constructor
  · intro h
    exact ⟨.inr (by simpa using h.ports), .inr (by simpa using h.cports), h.peerAddrs,
      h.listenAddrs⟩
  · intro h
    have hports := h.ports
    have hcports := h.cports
    simp only [List.length_nil, Nat.zero_add] at hports hcports
    exact ⟨by omega, by omega, h.peerAddrs, h.listenAddrs⟩

theorem valuesAt_cons (k : Key) (s : Setting E) (ss : List (Setting E)) :
    valuesAt k (s :: ss) = valuesAt k [s] ++ valuesAt k ss := by
  simp [valuesAt]

theorem valuesAt_single (k : Key) (shape : Shape (k.Val E)) :
    valuesAt k [⟨k, shape⟩] = shape.values := by
  simp [valuesAt, Setting.values]

theorem valuesAt_single_of_ne {k k' : Key} (hk : k' ≠ k) (shape : Shape (k'.Val E)) :
    valuesAt k [⟨k', shape⟩] = [] :=
  valuesAt_eq_nil (by simpa using hk)

/-- What one setting needs. -/
theorem roomAll_iff (s : Setting E) (o : Options) :
    s.key.roomAll s.values o = true ↔ FitsFrom o [s] := by
  obtain ⟨k, shape⟩ := s
  cases k with
  | port =>
    have hroom : Key.roomAll .port shape.values o = true ↔
        (valuesAt .port [⟨.port, shape⟩]).length = 0 ∨
          o.ports.length + (valuesAt .port [⟨.port, shape⟩]).length ≤ tnetacleMaxPorts := by
      rw [valuesAt_single, List.length_eq_zero_iff]
      exact roomAll_of_table (E := E) (k := .port) Options.ports (fun _ _ => rfl)
        (fun _ _ => List.length_append) shape.values o
    exact ⟨fun h => ⟨hroom.mp h, .inl rfl, nofun, nofun⟩, fun h => hroom.mpr h.ports⟩
  | clientPort =>
    have hroom : Key.roomAll .clientPort shape.values o = true ↔
        (valuesAt .clientPort [⟨.clientPort, shape⟩]).length = 0 ∨
          o.cports.length + (valuesAt .clientPort [⟨.clientPort, shape⟩]).length ≤
            tnetacleMaxPorts := by
      rw [valuesAt_single, List.length_eq_zero_iff]
      exact roomAll_of_table (E := E) (k := .clientPort) Options.cports (fun _ _ => rfl)
        (fun _ _ => List.length_append) shape.values o
    exact ⟨fun h => ⟨.inl rfl, hroom.mp h, nofun, nofun⟩, fun h => hroom.mpr h.cports⟩
  | peerAddress =>
    have hroom : Key.roomAll .peerAddress shape.values o = true ↔
        ∀ a ∈ valuesAt .peerAddress [⟨.peerAddress, shape⟩], a.text.length < inet6Addrstrlen := by
      have hall : Key.roomAll .peerAddress shape.values o =
          shape.values.all fun a => decide (a.text.length < inet6Addrstrlen) :=
        roomAll_of_const (fun _ _ => rfl) _ o
      rw [valuesAt_single, hall, List.all_eq_true]
      simp only [decide_eq_true_eq]
    exact ⟨fun h => ⟨.inl rfl, .inl rfl, hroom.mp h, nofun⟩, fun h => hroom.mpr h.peerAddrs⟩
  | listenAddress =>
    have hroom : Key.roomAll .listenAddress shape.values o = true ↔
        ∀ a ∈ valuesAt .listenAddress [⟨.listenAddress, shape⟩],
          (listenText a).length < inet6Addrstrlen := by
      have hall : Key.roomAll .listenAddress shape.values o =
          shape.values.all fun a => decide ((listenText a).length < inet6Addrstrlen) :=
        roomAll_of_const (fun _ _ => rfl) _ o
      rw [valuesAt_single, hall, List.all_eq_true]
      simp only [decide_eq_true_eq]
    exact ⟨fun h => ⟨.inl rfl, .inl rfl, nofun, hroom.mp h⟩, fun h => hroom.mpr h.listenAddrs⟩
  | _ =>
    refine ⟨fun _ => ⟨.inl rfl, .inl rfl, nofun, nofun⟩, fun _ => ?_⟩
    exact (roomAll_of_const (fun _ _ => rfl) _ o).trans (by simp)

theorem foldl_set_field {β : Type} {k : Key} {f : Options → β} {h : β → k.Val E → β}
    (hset : ∀ v o, f (k.set v o) = h (f o) v)
    (hother : ∀ k', k' ≠ k → ∀ (v : k'.Val E) o, f (k'.set v o) = f o) (ss : List (Setting E))
    (o : Options) : f (ss.foldl (fun o s => s.set o) o) = (valuesAt k ss).foldl h (f o) := by
  have hvalues : ∀ (vs : List (k.Val E)) o,
      f (vs.foldl (fun o v => k.set v o) o) = vs.foldl h (f o) := by
    intro vs
    induction vs with
    | nil => exact fun _ => rfl
    | cons v vs ih =>
      intro o
      rw [List.foldl_cons, ih, hset, List.foldl_cons]
  induction ss generalizing o with
  | nil => rfl
  | cons s ss ih =>
    obtain ⟨k', shape⟩ := s
    rw [List.foldl_cons, ih, valuesAt_cons, List.foldl_append]
    congr 1
    by_cases hk : k' = k
    · subst hk
      rw [Setting.set, valuesAt_single]
      exact hvalues _ o
    · rw [Setting.frame ⟨k', shape⟩ (fun v o => hother k' hk v o), valuesAt_single_of_ne hk,
        List.foldl_nil]

theorem list_foldl_set {β : Type} {k : Key} {f : Options → List β} {g : k.Val E → β}
    (hset : ∀ v o, f (k.set v o) = f o ++ [g v])
    (hother : ∀ k', k' ≠ k → ∀ (v : k'.Val E) o, f (k'.set v o) = f o) (ss : List (Setting E))
    (o : Options) :
    f (ss.foldl (fun o s => s.set o) o) = f o ++ (valuesAt k ss).map g := by
  have hvalues := foldl_set_field (h := fun l v => l ++ [g v]) hset hother ss o
  rw [hvalues, List.foldl_append_eq_append, ← List.flatMap_def, ← List.map_eq_flatMap]

theorem ports_foldl_set (ss : List (Setting E)) (o : Options) :
    (ss.foldl (fun o s => s.set o) o).ports = o.ports ++ (valuesAt .port ss).map Fin.val :=
  list_foldl_set (k := .port) (f := Options.ports) (fun _ _ => rfl)
    (fun _ hk v o => (Key.frame_set _ v o).ports hk) ss o

theorem cports_foldl_set (ss : List (Setting E)) (o : Options) :
    (ss.foldl (fun o s => s.set o) o).cports = o.cports ++ (valuesAt .clientPort ss).map Fin.val :=
  list_foldl_set (k := .clientPort) (f := Options.cports) (fun _ _ => rfl)
    (fun _ hk v o => (Key.frame_set _ v o).cports hk) ss o

theorem fitsFrom_cons_iff (s : Setting E) (ss : List (Setting E)) (o : Options) :
    FitsFrom o (s :: ss) ↔ FitsFrom o [s] ∧ FitsFrom (s.set o) ss := by
  have hports := congrArg List.length (ports_foldl_set [s] o)
  have hcports := congrArg List.length (cports_foldl_set [s] o)
  rw [List.foldl_cons, List.foldl_nil, List.length_append, List.length_map] at hports hcports
  constructor
  · rintro ⟨h₁, h₂, h₃, h₄⟩
    rw [valuesAt_cons, List.length_append] at h₁ h₂
    rw [valuesAt_cons, List.forall_mem_append] at h₃ h₄
    exact ⟨⟨by omega, by omega, h₃.1, h₄.1⟩, ⟨by omega, by omega, h₃.2, h₄.2⟩⟩
  · rintro ⟨⟨h₁, h₂, h₃, h₄⟩, ⟨h₁', h₂', h₃', h₄'⟩⟩
    constructor
    · rw [valuesAt_cons, List.length_append]
      omega
    · rw [valuesAt_cons, List.length_append]
      omega
    · rw [valuesAt_cons, List.forall_mem_append]
      exact ⟨h₃, h₃'⟩
    · rw [valuesAt_cons, List.forall_mem_append]
      exact ⟨h₄, h₄'⟩

theorem foldl_step_fits {p : Parser} (hfault : p.fault = false) (ss : List (Setting E)) :
    (FitsFrom p.servOpts ss → ∃ map, (ss.flatMap Setting.events).foldl (step E) p =
      { p with map := map, servOpts := ss.foldl (fun o s => s.set o) p.servOpts }) ∧
    (¬ FitsFrom p.servOpts ss → ((ss.flatMap Setting.events).foldl (step E) p).fault = true) := by
  induction ss generalizing p with
  | nil => exact ⟨fun _ => ⟨p.map, rfl⟩, fun h => absurd ⟨.inl rfl, .inl rfl, nofun, nofun⟩ h⟩
  | cons s ss ih =>
    obtain ⟨hroom, hfull⟩ := foldl_step_room hfault s
    rw [List.flatMap_cons, List.foldl_append, fitsFrom_cons_iff, ← roomAll_iff]
    cases hs : s.key.roomAll s.values p.servOpts with
    | false => exact ⟨fun h => (nomatch h.1), fun _ => fault_foldl_step (hfull hs) _⟩
    | true =>
      obtain ⟨map, hmap⟩ := hroom hs
      obtain ⟨hall, hsome⟩ := @ih { p with map := map, servOpts := s.set p.servOpts } hfault
      rw [hmap]
      exact ⟨fun h => hall h.2, fun h => hsome fun hfits => h ⟨rfl, hfits⟩⟩

/-! ## Whole documents -/

section Object

variable (E)

/-- Every key of the object is a known one for its value's type, and every value is valid. -/
def ValidObject (ms : List (Str × Json)) : Prop := ∃ ss : List (Setting E), Describes ms ss

structure ReturnsRight (ms : List (Str × Json)) : Prop where
  accepts : ValidObject E ms → tntParseBufReturn E (Json.object ms).events = some 0
  refuses : ¬ ValidObject E ms → tntParseBufReturn E (Json.object ms).events = some (-1)

end Object

variable {ms : List (Str × Json)} {ss : List (Setting E)}

theorem foldl_step_object (h : Describes ms ss) :
    (Json.object ms).events.foldl (step E) {} =
      step E ((ss.flatMap Setting.events).foldl (step E) {}) .endMap := by
  rw [Json.events, List.cons_append, List.foldl_cons, List.foldl_append]
  have hstart : step E {} .startMap = {} := rfl
  rw [hstart, foldl_step_describes h]
  rfl

theorem foldl_step_object_of_fits (h : Describes ms ss) (hfits : Fits ss) :
    (Json.object ms).events.foldl (step E) {} = { servOpts := optionsOf ss } := by
  obtain ⟨map, hmap⟩ := (foldl_step_fits (p := {}) rfl ss).1 (fits_iff.mp hfits)
  rw [foldl_step_object h, hmap]
  rfl

/-- A valid object is read without a fault exactly when it fits. -/
theorem fault_object_iff (h : Describes ms ss) :
    ((Json.object ms).events.foldl (step E) {}).fault = false ↔ Fits ss := by
  constructor
  · intro hfault
    by_contra hfits
    have hfull := (foldl_step_fits (p := {}) rfl ss).2 (fun h => hfits (fits_iff.mpr h))
    rw [foldl_step_object h, fault_step E hfull] at hfault
    cases hfault
  · intro hfits
    rw [foldl_step_object_of_fits h hfits]

/--
`tnt_parse_buf` returns 0 for the valid objects and `-1` for the others, on an object, if and only
if the object is valid, its ports fit in the tables and its addresses in the buffer.
-/
theorem returns_right_iff (ms : List (Str × Json)) :
    ReturnsRight E ms ↔ ∃ ss : List (Setting E), Describes ms ss ∧ Fits ss := by
  have hreturn := tntParseBufReturn_eq (E := E) (Json.object ms).events
  constructor
  · intro h
    by_cases hvalid : ValidObject E ms
    · obtain ⟨ss, hss⟩ := hvalid
      refine ⟨ss, hss, (fault_object_iff hss).mp ?_⟩
      have haccepts := h.accepts ⟨ss, hss⟩
      rw [hreturn] at haccepts
      split at haccepts
      · cases haccepts
      · exact Bool.eq_false_iff.mpr ‹_›
    · have hrefuses := h.refuses hvalid
      rw [hreturn] at hrefuses
      split at hrefuses <;> cases hrefuses
  · rintro ⟨ss, hss, hfits⟩
    refine ⟨fun _ => ?_, fun hno => absurd ⟨ss, hss⟩ hno⟩
    rw [hreturn, (fault_object_iff hss).mpr hfits]
    rfl

theorem eq_mode_of_name {k : Key} (h : ascii "Mode" = ascii k.name) : k = .mode := by
  revert h
  cases k <;> decide

/-- A mode that does not exist is accepted. -/
theorem unknown_mode_accepted :
    let ms : List (Str × Json) := [(ascii "Mode", .string (ascii "bridge"))]
    tntParseBufReturn bareEvutil (Json.object ms).events = some 0 ∧
      ¬ ValidObject bareEvutil ms ∧ ¬ ReturnsRight bareEvutil ms := by
  intro ms
  have hreturn : tntParseBufReturn bareEvutil (Json.object ms).events = some 0 := by
    rw [tntParseBufReturn_eq]
    simp only [ms, Json.events, memberEvents]
    decide
  have hinvalid : ¬ ValidObject bareEvutil ms := by
    rintro ⟨ss, hss⟩
    obtain ⟨s, ss, ⟨hkey, hvalue⟩, -, rfl⟩ := List.forall₂_cons_right_iff.mp hss
    obtain ⟨k, shape⟩ := s
    obtain rfl := eq_mode_of_name hkey
    cases shape with
    | scalar m =>
      have htext : ascii "bridge" = m.text := Json.string.inj hvalue
      cases m <;> revert htext <;> decide
    | array vs =>
      obtain ⟨js, hjs, -⟩ := hvalue
      cases hjs
  refine ⟨hreturn, hinvalid, fun h => ?_⟩
  have hrefused := h.refuses hinvalid
  rw [hreturn] at hrefused
  cases hrefused

end Tnetacle.Config
