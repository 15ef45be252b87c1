import Tnetacle.Privileged.Dispatch

/-! # The address of the device, from the configuration to the library

The unprivileged process answers `IMSG_CREATE_DEV` with the configured address, the
privileged one copies it and `tnt_ttc_set_ip` parts it at its first slash. What stands behind
the slash is converted by a function that reports no error, and is cut to a `short`.
-/

namespace Tnetacle.Privileged

open ByteOrder CString Framing
open Config (Options)

/-! ## The unprivileged process -/

/-- The unprivileged process: the messages it has queued, and whether it has read through a
null pointer. -/
structure Unprivileged where
  outbox : List Imsg := []
  fault : Bool := false
  deriving DecidableEq

/-- `imsg_compose` without a descriptor, where `bufPid` is `ibuf->pid`; `datalen` has sixteen
bits, also after the size of the header has been added to it. -/
def imsgCompose (malloc : Bool) (bufPid type peerid pid : Long) (data : List Byte)
    (datalen : ℕ) : Option Imsg :=
  let n := datalen % 2 ^ 16
  if h : malloc = true ∧ (n + imsgHeaderSize) % 2 ^ 16 ≤ maxImsgsize ∧
      imsgHeaderSize + n ≤ maxImsgsize then
    some
      { type := type
        flags := 0
        peerid := peerid
        pid := if pid = 0 then bufPid else pid
        data := data.take n
        le_max := Nat.le_trans (List.length_take_le _ _) (Nat.le_sub_of_add_le' h.2.2) }
  else none

section Unprivileged

variable (servOpts : Options) (malloc : Bool) (bufPid : Long) (host : Endian)

/-- The `switch` of `tnt_dispatch_imsg`. Without an address, `strlen` is given a null pointer. -/
def Unprivileged.dispatch (u : Unprivileged) (imsg : Imsg) : Unprivileged :=
  if u.fault then u
  else if imsg.type = imsgCreateDev then
    match servOpts.addr with
    | none => { u with fault := true }
    | some addr =>
      let strlen := (ofMemory addr).length
      { u with outbox :=
          u.outbox ++ (imsgCompose malloc bufPid imsgSetIp 0 0 addr strlen).toList }
  else u

/-- A failed read also drops the messages that are queued. -/
def tntDispatchImsg (s : Feed Unprivileged Byte) (read : ImsgRead × (List Byte → Bool)) :
    Feed Unprivileged Byte :=
  let emit := Unprivileged.dispatch servOpts malloc bufPid
  match read.1 with
  | .failed bytes =>
    { s with buffer := s.buffer ++ bytes, sink := { s.sink with outbox := [] } }
  | .closed => s
  | .again => feed (imsgNext host read.2) emit s []
  | .got bytes => feed (imsgNext host read.2) emit s bytes

end Unprivileged

/-! ## The library -/

/-- `tnt_ttc_set_ip`: what it returns, and the call of the device library that it makes. The
results of `strdup` and of the library are given. -/
def tntTtcSetIp (strdup : Bool) (library : Str → Int → Int) (addr : List Byte) :
    Int × Option (Str × Int) :=
  if strdup then
    let ip := ofMemory addr
    match strchr ip 47 with
    | none => (-1, none)
    | some i =>
      let netbits := (BitVec.ofInt 16 (strtol (ip.drop (i + 1)))).toInt
      (library (ip.take i) netbits, some (ip.take i, netbits))
  else (-1, none)

def libraryCalls (strdup : Bool) (library : Str → Int → Int) (ops : List DeviceOp) :
    List (Str × Int) :=
  ops.filterMap fun op =>
    match op with
    | .setIp _ buf _ => (tntTtcSetIp strdup library buf).2
    | _ => none

/-! ## What a configured address means -/

/-- The address is `ip`, a slash and the prefix length `n` in decimal. -/
def Means (addr : Option Str) (ip : Str) (n : ℕ) : Prop :=
  ∃ digits, addr = some (ip ++ 47 :: digits) ∧ 47 ∉ ip ∧ digits ≠ [] ∧
    (∀ b ∈ digits, isDigit b = true) ∧ leadingDigits digits = n ∧ n ≤ 128

def WellFormed (addr : Option Str) : Prop := ∃ ip n, Means addr ip n

/-- The library is called with what the address means, once, and not if it means nothing. -/
structure CalledRight (addr : Option Str) (calls : List (Str × Int)) : Prop where
  once : calls.length ≤ 1
  exact : ∀ ip netbits, (ip, netbits) ∈ calls ↔ ∃ n : ℕ, netbits = n ∧ Means addr ip n

def SlashMeant (strdup : Bool) (addr : Option Str) : Prop :=
  (WellFormed addr → strdup = true) ∧
    (¬ WellFormed addr → ∀ s, addr = some s → 47 ∉ s ∨ strdup = false)

section Parting

variable {strdup : Bool} {library : Str → Int → Int} {s : Str}

theorem Means.eq {ip : Str} {n i : ℕ} (h : Means (some s) ip n) (hi : strchr s 47 = some i) :
    ip = s.take i ∧ (∀ b ∈ s.drop (i + 1), isDigit b = true) ∧ strtol (s.drop (i + 1)) = n ∧
      n ≤ 128 := by
  obtain ⟨digits, hs, hip, hne, hdigits, hn, hle⟩ := h
  obtain rfl := Option.some.inj hs
  rw [strchr_append_cons hip] at hi
  obtain rfl := Option.some.inj hi
  have hdrop : (ip ++ 47 :: digits).drop (ip.length + 1) = digits := by
    rw [← List.drop_drop, List.drop_left]
    rfl
  rw [hdrop]
  refine ⟨List.take_left.symm, hdigits, ?_, hle⟩
  rw [(strtol_of_digits hne hdigits (by omega)).1, hn]

theorem Means.slash_mem {ip : Str} {n : ℕ} (h : Means (some s) ip n) : 47 ∈ s := by
  obtain ⟨digits, hs, -⟩ := h
  rw [Option.some.inj hs]
  exact List.mem_append_right _ List.mem_cons_self

theorem calledRight_nil_iff {addr : Option Str} : CalledRight addr [] ↔ ¬ WellFormed addr := by
  constructor
  · rintro h ⟨ip, n, hmeans⟩
    exact List.not_mem_nil ((h.exact ip n).mpr ⟨n, rfl, hmeans⟩)
  · intro h
    refine ⟨Nat.zero_le _, ?_⟩
    intro ip netbits
    constructor
    · intro hmem
      cases hmem
    · rintro ⟨n, -, hmeans⟩
      exact absurd ⟨ip, n, hmeans⟩ h

/-- A call is right if the address has a meaning: the conversion then gives its length. -/
theorem calledRight_singleton_iff {i : ℕ} (hi : strchr s 47 = some i) :
    CalledRight (some s) [(s.take i, (BitVec.ofInt 16 (strtol (s.drop (i + 1)))).toInt)] ↔
      WellFormed (some s) := by
  constructor
  · intro h
    obtain ⟨n, -, hmeans⟩ := (h.exact _ _).mp (List.mem_singleton_self _)
    exact ⟨_, n, hmeans⟩
  · rintro ⟨ip, n, hmeans⟩
    obtain ⟨rfl, -, hn, hle⟩ := hmeans.eq hi
    have hshort : (BitVec.ofInt 16 (n : Int)).toInt = n := by
      rw [BitVec.ofInt_natCast, BitVec.toInt_ofNat', Int.bmod_def]
      omega
    rw [hn, hshort]
    refine ⟨Nat.le_refl _, ?_⟩
    intro ip netbits
    rw [List.mem_singleton, Prod.mk.injEq]
    constructor
    · rintro ⟨rfl, rfl⟩
      exact ⟨n, rfl, hmeans⟩
    · rintro ⟨m, rfl, hmeans'⟩
      obtain ⟨rfl, -, hm, -⟩ := hmeans'.eq hi
      exact ⟨rfl, hm.symm.trans hn⟩

theorem slashMeant_iff_of_not_called (h : strdup = false ∨ 47 ∉ s) :
    SlashMeant strdup (some s) ↔ ¬ WellFormed (some s) := by
  constructor
  · rintro ⟨hcopied, -⟩ hwell
    obtain ⟨ip, n, hmeans⟩ := hwell
    rcases h with hdup | hslash
    · rw [hcopied ⟨ip, n, hmeans⟩] at hdup
      cases hdup
    · exact hslash hmeans.slash_mem
  · intro hwell
    refine ⟨fun hwell' => absurd hwell' hwell, ?_⟩
    rintro - s' hs
    obtain rfl := Option.some.inj hs
    exact h.symm

theorem slashMeant_iff_of_called (hslash : 47 ∈ s) :
    SlashMeant true (some s) ↔ WellFormed (some s) := by
  constructor
  · intro h
    by_contra hwell
    rcases h.2 hwell s rfl with hno | hfalse
    · exact hno hslash
    · cases hfalse
  · intro hwell
    exact ⟨fun _ => rfl, fun h => absurd hwell h⟩

/-- What `tnt_ttc_set_ip` makes of an address. -/
theorem calledRight_tntTtcSetIp_iff {addr : List Byte} :
    CalledRight (some (ofMemory addr)) (tntTtcSetIp strdup library addr).2.toList ↔
      SlashMeant strdup (some (ofMemory addr)) := by
  unfold tntTtcSetIp
  cases strdup with
  | false => exact calledRight_nil_iff.trans (slashMeant_iff_of_not_called (.inl rfl)).symm
  | true =>
    simp only [if_true]
    cases hi : strchr (ofMemory addr) 47 with
    | none =>
      have hslash : 47 ∉ ofMemory addr := strchr_eq_none_iff.mp hi
      exact calledRight_nil_iff.trans (slashMeant_iff_of_not_called (.inr hslash)).symm
    | some i =>
      have hslash : 47 ∈ ofMemory addr := by
        by_contra hno
        rw [strchr_eq_none_iff.mpr hno] at hi
        cases hi
      exact (calledRight_singleton_iff hi).trans (slashMeant_iff_of_called hslash).symm

theorem tntTtcSetIp_congr {addr addr' : List Byte} (h : ofMemory addr = ofMemory addr') :
    tntTtcSetIp strdup library addr = tntTtcSetIp strdup library addr' := by
  rw [tntTtcSetIp, h, tntTtcSetIp]

end Parting

/-! ## From end to end -/

section Exchange

variable (servOpts : Options) (opens : ℕ → Bool) (bufPid : Long) (host : Endian)

def sent (chunks : List (List Byte)) : List Imsg :=
  ((chunks.map fun bytes => (ImsgRead.got bytes, fun _ => true)).foldl
    (tntDispatchImsg servOpts true bufPid host) { sink := {} }).sink.outbox

def handled (s : State) (chunks : List (List Byte)) : State :=
  ((chunks.map fun bytes => (ImsgRead.got bytes, fun _ => true)).foldl
    (dispatchImsg servOpts opens host) { sink := s }).sink

variable {servOpts opens bufPid host}

def textImsg (type peerid pid : Long) (addr : List Byte) (h : (ofMemory addr).length < bufSize) :
    Imsg :=
  ⟨type, 0, peerid, pid, ofMemory addr, Nat.le_trans h.le (by decide)⟩

theorem imsgCompose_of_lt (bufPid type peerid pid : Long) {addr : List Byte}
    (h : (ofMemory addr).length < bufSize) :
    imsgCompose true bufPid type peerid pid addr (ofMemory addr).length =
      some (textImsg type peerid (if pid = 0 then bufPid else pid) addr h) := by
  have hmod : (ofMemory addr).length % 2 ^ 16 = (ofMemory addr).length :=
    Nat.mod_eq_of_lt (Nat.lt_trans h (by decide))
  have hfits : true = true ∧
      ((ofMemory addr).length % 2 ^ 16 + imsgHeaderSize) % 2 ^ 16 ≤ maxImsgsize ∧
      imsgHeaderSize + (ofMemory addr).length % 2 ^ 16 ≤ maxImsgsize := by
    rw [bufSize] at h
    rw [imsgHeaderSize, maxImsgsize]
    exact ⟨rfl, by omega, by omega⟩
  rw [imsgCompose, dif_pos hfits]
  simp only [textImsg, hmod, take_length_ofMemory]

theorem sent_eq {reply : Imsg} {chunks : List (List Byte)} (htype : reply.type = imsgCreateDev)
    (hchunks : chunks.flatten = reply.encode host) :
    sent servOpts bufPid host chunks =
      match servOpts.addr with
      | none => []
      | some addr =>
        (imsgCompose true bufPid imsgSetIp 0 0 addr (ofMemory addr).length).toList := by
  have hstream : chunks.flatten = stream (Imsg.encode host) [reply] := by
    rw [hchunks, stream, List.flatMap_singleton]
  have hsent : sent servOpts bufPid host chunks =
      (Unprivileged.dispatch servOpts true bufPid {} reply).outbox := by
    rw [sent, List.foldl_map]
    exact congrArg Unprivileged.outbox
      (sink_foldl_feed host (Unprivileged.dispatch servOpts true bufPid) hstream {})
  rw [hsent, Unprivileged.dispatch, if_neg (by simp), if_pos htype]
  cases servOpts.addr <;> rfl

section Calls

variable {strdup : Bool} {library : Str → Int → Int} {reply : Imsg} {s : State} {dev : ℕ}
  {chunks chunks' : List (List Byte)} (hin : s.Inside) (hdev : s.dev = some dev)
  (htype : reply.type = imsgCreateDev) (hreply : chunks.flatten = reply.encode host)
  (hsent : chunks'.flatten = stream (Imsg.encode host) (sent servOpts bufPid host chunks))
include htype hreply hsent

theorem libraryCalls_of_none (hnone : servOpts.addr = none) :
    libraryCalls strdup library ((handled servOpts opens host s chunks').ops.drop s.ops.length) =
      [] := by
  rw [sent_eq htype hreply, hnone] at hsent
  have hnothing : chunks'.flatten = stream (Imsg.encode host) [] := hsent
  have hstate : handled servOpts opens host s chunks' = s := sink_dispatchImsg hnothing s
  rw [hstate, List.drop_length]
  rfl

include hin hdev

theorem libraryCalls_of_some {addr : List Byte} (haddr : servOpts.addr = some addr)
    (hlen : (ofMemory addr).length < bufSize) :
    libraryCalls strdup library ((handled servOpts opens host s chunks').ops.drop s.ops.length) =
      (tntTtcSetIp strdup library addr).2.toList := by
  obtain ⟨imsg, himsg, hset, hdata⟩ : ∃ imsg : Imsg,
      imsgCompose true bufPid imsgSetIp 0 0 addr (ofMemory addr).length = some imsg ∧
        imsg.type = imsgSetIp ∧ imsg.data = ofMemory addr :=
    ⟨_, imsgCompose_of_lt bufPid imsgSetIp 0 0 hlen, rfl, rfl⟩
  have hone : sent servOpts bufPid host chunks = [imsg] := by
    rw [sent_eq htype hreply, haddr]
    simp only [himsg]
    rfl
  rw [hone] at hsent
  have hlen' : imsg.data.length < bufSize := by rwa [hdata]
  have hstep : s.dispatch servOpts opens imsg = s.setIp imsg := by
    have h : step servOpts opens s imsg = some (s.setIp imsg) := step_of_setIp hin hset
    rw [step, if_pos hin] at h
    exact Option.some.inj h
  have hstate : handled servOpts opens host s chunks' = s.setIp imsg :=
    (sink_dispatchImsg hsent s).trans hstep
  have hbuf : ofMemory (bufContents imsg.data) = ofMemory addr := by
    rw [(address_bufContents hlen').2.2, hdata, ofMemory_eq_self (zero_not_mem_ofMemory addr)]
  rw [hstate, setIp_of_lt hdev hin hlen', List.drop_left, ← tntTtcSetIp_congr hbuf]
  cases hcall : (tntTtcSetIp strdup library (bufContents imsg.data)).2 with
  | none => simp [libraryCalls, hcall]
  | some call => simp [libraryCalls, hcall]

end Calls

end Exchange

/--
For a configured address of less than 128 bytes, once it has been sent and handled, the device
library has been called with what the address means, and only if it means something, exactly
if every address with a slash is well formed: any other one with a slash is set as well.
-/
theorem address_set_iff (servOpts : Options) (opens : ℕ → Bool) (bufPid : Long) (host : Endian)
    (strdup : Bool) (library : Str → Int → Int) (s : State) (dev : ℕ) (reply : Imsg)
    (chunks chunks' : List (List Byte))
    (hlen : ∀ addr, servOpts.addr = some addr → (ofMemory addr).length < 128)
    (hin : s.Inside) (hdev : s.dev = some dev) (htype : reply.type = imsgCreateDev)
    (hreply : chunks.flatten = reply.encode host)
    (hsent : chunks'.flatten =
      stream (Imsg.encode host) (sent servOpts bufPid host chunks)) :
    CalledRight (servOpts.addr.map ofMemory) (libraryCalls strdup library
        ((handled servOpts opens host s chunks').ops.drop s.ops.length)) ↔
      SlashMeant strdup (servOpts.addr.map ofMemory) := by
  cases haddr : servOpts.addr with
  | none =>
    have hmeans : ¬ WellFormed ((none : Option Str).map ofMemory) := by
      rintro ⟨ip, n, digits, hsome, -⟩
      cases hsome
    rw [libraryCalls_of_none htype hreply hsent haddr]
    refine calledRight_nil_iff.trans ⟨fun _ => ⟨fun h => absurd h hmeans, ?_⟩, fun _ => hmeans⟩
    rintro - text htext
    cases htext
  | some addr =>
    rw [libraryCalls_of_some hin hdev htype hreply hsent haddr (hlen addr haddr)]
    exact calledRight_tntTtcSetIp_iff

def createDevMessage : Imsg := ⟨imsgCreateDev, 0, 0, 0, [], Nat.zero_le _⟩

def withDevice : State := { dev := some 0, tries := 1, ops := [.open 0 0, .getFd 0, .compose 0] }

def callsFor (text : String) : List (Str × Int) :=
  let servOpts : Options := { addr := some (ascii text) }
  let imsgs := sent servOpts 7 .little [createDevMessage.encode .little]
  libraryCalls true (fun _ _ => 0)
    ((handled servOpts (fun _ => true) .little withDevice
      (imsgs.map (Imsg.encode .little))).ops.drop withDevice.ops.length)

theorem address_set_well_formed :
    (ofMemory (ascii "10.0.0.1/24")).length < 128 ∧ withDevice.Inside ∧
      CalledRight (some (ascii "10.0.0.1/24")) (callsFor "10.0.0.1/24") := by
  have hlen : ∀ addr, some (ascii "10.0.0.1/24") = some addr → (ofMemory addr).length < 128 := by
    intro addr haddr
    obtain rfl := Option.some.inj haddr
    decide
  have hmeans : WellFormed (some (ascii "10.0.0.1/24")) :=
    ⟨ascii "10.0.0.1", 24, ascii "24", by decide, by decide, by decide, by decide, by decide,
      by decide⟩
  have hiff := address_set_iff { addr := some (ascii "10.0.0.1/24") } (fun _ => true) 7 .little
    true (fun _ _ => 0) withDevice 0 createDevMessage [createDevMessage.encode .little] _ hlen nofun
    rfl rfl (List.append_nil _) rfl
  exact ⟨by decide, nofun, hiff.mpr ⟨fun _ => rfl, fun h => absurd hmeans h⟩⟩

theorem callsFor_eq {text : String} (h : (ofMemory (ascii text)).length < bufSize) :
    callsFor text = (tntTtcSetIp true (fun _ _ => 0) (ascii text)).2.toList := by
  have hin : withDevice.Inside := nofun
  have hcreate : [createDevMessage.encode .little].flatten = createDevMessage.encode .little :=
    List.append_nil _
  exact libraryCalls_of_some hin rfl rfl hcreate rfl rfl h

/-- A suffix that is no number sets the prefix length 0, and one that is too large is cut. -/
theorem malformed_address_set :
    (callsFor "10.0.0.1/abc" = [(ascii "10.0.0.1", 0)] ∧
      ¬ CalledRight (some (ascii "10.0.0.1/abc")) (callsFor "10.0.0.1/abc")) ∧
    callsFor "10.0.0.1/65560" = [(ascii "10.0.0.1", 24)] ∧
      ¬ CalledRight (some (ascii "10.0.0.1/65560")) (callsFor "10.0.0.1/65560") := by
  have hword : callsFor "10.0.0.1/abc" = [(ascii "10.0.0.1", 0)] :=
    (callsFor_eq (by decide)).trans (by decide)
  have hlarge : callsFor "10.0.0.1/65560" = [(ascii "10.0.0.1", 24)] :=
    (callsFor_eq (by decide)).trans (by decide)
  refine ⟨⟨hword, ?_⟩, hlarge, ?_⟩
  · rw [hword]
    intro h
    obtain ⟨n, -, hmeans⟩ := (h.exact _ _).mp (List.mem_singleton_self _)
    have hdigits := (hmeans.eq (i := 8) (by decide)).2.1
    exact absurd hdigits (by decide)
  · rw [hlarge]
    intro h
    obtain ⟨n, -, hmeans⟩ := (h.exact _ _).mp (List.mem_singleton_self _)
    obtain ⟨-, -, hvalue, hle⟩ := hmeans.eq (i := 8) (by decide)
    rw [show strtol _ = 65560 by decide] at hvalue
    omega

end Tnetacle.Privileged
