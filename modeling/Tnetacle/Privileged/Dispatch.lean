import Tnetacle.Library.Run
import Tnetacle.Config.Parser
import Tnetacle.Privileged.Imsg

/-! # What the privileged process does for the other one

`dispatch_imsg` opens the tunnel device and sets its address on request, and the process that
asks is not trusted. An address goes through a buffer of the stack, whose size nothing compares with
the length of the message.
-/

namespace Tnetacle.Privileged

open ByteOrder CString Framing Memory Runs
open Config (Options)

def bufSize : ℕ := 128

/-- The calls that are made for a device; `setIp` is given `buf`, for the message `imsg`. -/
inductive DeviceOp
  | open (tunnel dev : ℕ)
  | getFd (dev : ℕ)
  | compose (dev : ℕ)
  | setIp (dev : ℕ) (buf : List Byte) (imsg : Imsg)
  | up (dev : ℕ)
  deriving DecidableEq

def DeviceOp.uses : DeviceOp → Option ℕ
  | .open _ _ => none
  | .getFd dev | .compose dev | .setIp dev _ _ | .up dev => some dev

/--
The privileged process: the device of the static variable, the number of calls of `tnt_ttc_open`,
the calls for devices and the indexes of `buf` that were written.
-/
structure State where
  dev : Option ℕ := none
  tries : ℕ := 0
  ops : List DeviceOp := []
  indexes : List ℕ := []
  deriving DecidableEq

abbrev State.Inside (s : State) : Prop := ∀ i ∈ s.indexes, i < bufSize

/-- The indexes that `memset`, `memcpy` and the terminator write. -/
def bufWrites (datalen : ℕ) : List ℕ := List.range bufSize ++ List.range datalen ++ [datalen]

def bufContents (data : List Byte) : List Byte :=
  overwrite (overwrite (List.replicate bufSize 0) 0 data) data.length [0]

section Dispatch

variable (servOpts : Options) (opens : ℕ → Bool)

/-- `IMSG_CREATE_DEV`; `opens` says which calls of `tnt_ttc_open` succeed. -/
def State.createDev (s : State) : State :=
  if opens s.tries then
    { s with
      dev := some s.tries
      tries := s.tries + 1
      ops := s.ops ++ [.open servOpts.tunnel s.tries, .getFd s.tries, .compose s.tries] }
  else { s with dev := none, tries := s.tries + 1 }

/-- `IMSG_SET_IP`. After a write outside `buf` nothing more is said of the process. -/
def State.setIp (s : State) (imsg : Imsg) : State :=
  match s.dev with
  | none => s
  | some dev =>
    let s := { s with indexes := s.indexes ++ bufWrites imsg.data.length }
    if s.Inside then
      { s with ops := s.ops ++ [.setIp dev (bufContents imsg.data) imsg, .up dev] }
    else s

/-- The `switch` of `dispatch_imsg`. -/
def State.dispatch (s : State) (imsg : Imsg) : State :=
  if ¬ s.Inside then s
  else if imsg.type = imsgCreateDev then s.createDev servOpts opens
  else if imsg.type = imsgSetIp then s.setIp imsg
  else s

def step (s : State) (imsg : Imsg) : Option State :=
  if s.Inside then some (s.dispatch servOpts opens imsg) else none

/-- What `imsg_read` can do: fail, perhaps after it has stored bytes, or report the end, or
have nothing, or store bytes. -/
inductive ImsgRead
  | failed (bytes : List Byte)
  | closed
  | again
  | got (bytes : List Byte)

variable (host : Endian)

/-- `dispatch_imsg`; `malloc` says whether the data of the message that a buffer starts with
can be allocated. -/
def dispatchImsg (s : Feed State Byte) (read : ImsgRead × (List Byte → Bool)) :
    Feed State Byte :=
  match read.1 with
  | .failed bytes => { s with buffer := s.buffer ++ bytes }
  | .closed => s
  | .again => feed (imsgNext host read.2) (State.dispatch servOpts opens) s []
  | .got bytes => feed (imsgNext host read.2) (State.dispatch servOpts opens) s bytes

end Dispatch

/-- Every device that a call uses was opened by an earlier one. -/
def OpenedFirst (ops : List DeviceOp) : Prop :=
  ∀ pre op post dev, ops = pre ++ op :: post → op.uses = some dev →
    ∃ tunnel, .open tunnel dev ∈ pre

/-- The process has kept to its buffer, to its messages and to the devices that it has opened. -/
structure State.Safe (s : State) : Prop where
  inside : s.Inside
  address : ∀ dev buf imsg, .setIp dev buf imsg ∈ s.ops →
    buf.length = bufSize ∧ 0 ∈ buf ∧ ofMemory buf = ofMemory imsg.data
  opened : OpenedFirst s.ops

def State.Short (s : State) (imsg : Imsg) : Prop :=
  imsg.type = imsgSetIp → s.dev ≠ none → imsg.data.length < bufSize

variable {servOpts : Options} {opens : ℕ → Bool} {host : Endian} {s t : State} {imsg : Imsg}

/-! ## The buffer -/

theorem inside_bufWrites_iff {n : ℕ} : (∀ i ∈ bufWrites n, i < bufSize) ↔ n < bufSize := by
  constructor
  · intro h
    exact h n (by simp [bufWrites])
  · intro h i hi
    simp only [bufWrites, List.mem_append, List.mem_range, List.mem_singleton] at hi
    omega

theorem bufContents_eq (data : List Byte) :
    bufContents data = data ++ 0 :: List.replicate (bufSize - (data.length + 1)) 0 := by
  have hnone : data.drop (data.length + 1) = [] := List.drop_eq_nil_of_le (by omega)
  rw [bufContents, overwrite_zero, overwrite]
  simp [List.drop_append, hnone, Nat.sub_sub]

/-- What `tnt_ttc_set_ip` is given. -/
theorem address_bufContents {data : List Byte} (h : data.length < bufSize) :
    (bufContents data).length = bufSize ∧ 0 ∈ bufContents data ∧
      ofMemory (bufContents data) = ofMemory data := by
  rw [bufContents_eq]
  refine ⟨?_, by simp, ofMemory_append_cons_zero _ _⟩
  rw [List.length_append, List.length_cons, List.length_replicate]
  omega

/-! ## The devices -/

theorem openedFirst_nil : OpenedFirst [] := by
  intro pre op post dev h
  simp at h

theorem OpenedFirst.snoc {ops : List DeviceOp} {op : DeviceOp} (h : OpenedFirst ops)
    (hop : ∀ dev, op.uses = some dev → ∃ tunnel, .open tunnel dev ∈ ops) :
    OpenedFirst (ops ++ [op]) := by
  intro pre op' post dev heq huses
  rcases List.eq_nil_or_concat post with rfl | ⟨post, last, rfl⟩
  · obtain ⟨rfl, hlast⟩ := List.append_inj' heq rfl
    obtain rfl := List.singleton_inj.mp hlast
    exact hop dev huses
  · rw [List.concat_eq_append, ← List.cons_append, ← List.append_assoc] at heq
    exact h pre op' post dev (List.append_inj' heq rfl).1 huses

theorem OpenedFirst.append {ops more : List DeviceOp} {dev tunnel : ℕ} (h : OpenedFirst ops)
    (hdev : .open tunnel dev ∈ ops) (hmore : ∀ op ∈ more, op.uses = some dev) :
    OpenedFirst (ops ++ more) := by
  induction more generalizing ops with
  | nil => rwa [List.append_nil]
  | cons op more ih =>
    rw [List.forall_mem_cons] at hmore
    rw [List.append_cons]
    refine ih (h.snoc fun dev' huses => ?_) (List.mem_append_left _ hdev) hmore.2
    obtain rfl := Option.some.inj (hmore.1.symm.trans huses)
    exact ⟨tunnel, hdev⟩

def State.Opened (s : State) : Prop := ∀ dev, s.dev = some dev → ∃ tunnel, .open tunnel dev ∈ s.ops

theorem opened_createDev (s : State) : (s.createDev servOpts opens).Opened := by
  intro dev hdev
  unfold State.createDev at hdev ⊢
  split at hdev
  · obtain rfl := Option.some.inj hdev
    rename_i hopen
    rw [if_pos hopen]
    exact ⟨servOpts.tunnel, by simp⟩
  · cases hdev

theorem safe_createDev (h : s.Safe) : (s.createDev servOpts opens).Safe := by
  unfold State.createDev
  split
  · refine ⟨h.inside, fun dev buf imsg hmem => ?_, ?_⟩
    · simp only [List.mem_append, List.mem_cons, List.not_mem_nil, reduceCtorEq, or_false] at hmem
      exact h.address dev buf imsg hmem
    · have hopen : OpenedFirst (s.ops ++ [.open servOpts.tunnel s.tries]) :=
        h.opened.snoc (fun dev huses => by cases huses)
      have hmore : OpenedFirst (s.ops ++ [.open servOpts.tunnel s.tries] ++
          [.getFd s.tries, .compose s.tries]) :=
        hopen.append (List.mem_append_right _ (List.mem_singleton_self _)) (by simp [DeviceOp.uses])
      rwa [List.append_assoc] at hmore
  · exact ⟨h.inside, h.address, h.opened⟩

theorem setIp_of_lt {dev : ℕ} (hdev : s.dev = some dev) (h : s.Inside)
    (hlen : imsg.data.length < bufSize) :
    s.setIp imsg =
      { s with
        indexes := s.indexes ++ bufWrites imsg.data.length
        ops := s.ops ++ [.setIp dev (bufContents imsg.data) imsg, .up dev] } := by
  have hin : ∀ i ∈ s.indexes ++ bufWrites imsg.data.length, i < bufSize :=
    List.forall_mem_append.mpr ⟨h, inside_bufWrites_iff.mpr hlen⟩
  unfold State.setIp
  rw [hdev]
  exact if_pos hin

theorem indexes_setIp {dev : ℕ} (hdev : s.dev = some dev) :
    (s.setIp imsg).indexes = s.indexes ++ bufWrites imsg.data.length := by
  unfold State.setIp
  rw [hdev]
  dsimp only
  split <;> rfl

theorem opened_setIp (h : s.Opened) : (s.setIp imsg).Opened := by
  unfold State.setIp
  split
  · exact h
  · dsimp only
    split
    · intro dev hdev
      obtain ⟨tunnel, hopen⟩ := h dev hdev
      exact ⟨tunnel, List.mem_append_left _ hopen⟩
    · exact h

/-- A message with an address is harmless if no device is open, or if the address is short. -/
theorem safe_setIp_iff (hopened : s.Opened) (h : s.Safe) :
    (s.setIp imsg).Safe ↔ (s.dev ≠ none → imsg.data.length < bufSize) := by
  cases hdev : s.dev with
  | none =>
    have hsame : s.setIp imsg = s := by rw [State.setIp, hdev]
    rw [hsame]
    exact ⟨fun _ hne => absurd rfl hne, fun _ => h⟩
  | some dev =>
    obtain ⟨tunnel, hopen⟩ := hopened dev hdev
    constructor
    · intro hsafe _
      have hin := hsafe.inside
      rw [State.Inside, indexes_setIp hdev, List.forall_mem_append] at hin
      exact inside_bufWrites_iff.mp hin.2
    · intro hlen
      have hlen := hlen (Option.some_ne_none dev)
      rw [setIp_of_lt hdev h.inside hlen]
      refine ⟨List.forall_mem_append.mpr ⟨h.inside, inside_bufWrites_iff.mpr hlen⟩, ?_, ?_⟩
      · intro dev' buf imsg' hmem
        rcases List.mem_append.mp hmem with hmem | hmem
        · exact h.address dev' buf imsg' hmem
        · simp only [List.mem_cons, List.not_mem_nil, reduceCtorEq, or_false] at hmem
          cases hmem
          exact address_bufContents hlen
      · exact h.opened.append hopen (by simp [DeviceOp.uses])

/-! ## Runs -/

theorem step_of_setIp (h : s.Inside) (htype : imsg.type = imsgSetIp) :
    step servOpts opens s imsg = some (s.setIp imsg) := by
  have hne : imsg.type ≠ imsgCreateDev := by rw [htype]; decide
  rw [step, if_pos h, State.dispatch, if_neg (not_not_intro h), if_neg hne, if_pos htype]

theorem step_eq_some (h : step servOpts opens s imsg = some t) :
    s.Inside ∧
      ((imsg.type = imsgCreateDev ∧ t = s.createDev servOpts opens) ∨
        (imsg.type = imsgSetIp ∧ t = s.setIp imsg) ∨
        (imsg.type ≠ imsgSetIp ∧ t = s)) := by
  unfold step at h
  split at h
  · rename_i hin
    obtain rfl := Option.some.inj h
    refine ⟨hin, ?_⟩
    rw [State.dispatch, if_neg (not_not_intro hin)]
    by_cases hcreate : imsg.type = imsgCreateDev
    · exact .inl ⟨hcreate, if_pos hcreate⟩
    · rw [if_neg hcreate]
      by_cases hset : imsg.type = imsgSetIp
      · exact .inr (.inl ⟨hset, if_pos hset⟩)
      · exact .inr (.inr ⟨hset, if_neg hset⟩)
  · cases h

theorem opened_step (h : s.Opened) (hstep : step servOpts opens s imsg = some t) : t.Opened := by
  obtain ⟨-, ⟨-, rfl⟩ | ⟨-, rfl⟩ | ⟨-, rfl⟩⟩ := step_eq_some hstep
  · exact opened_createDev s
  · exact opened_setIp h
  · exact h

/-- A message keeps the process safe exactly when it is short. -/
theorem safe_step_iff (hopened : s.Opened) (h : s.Safe)
    (hstep : step servOpts opens s imsg = some t) : t.Safe ↔ s.Short imsg := by
  obtain ⟨-, ⟨htype, rfl⟩ | ⟨htype, rfl⟩ | ⟨htype, rfl⟩⟩ := step_eq_some hstep
  · have hne : imsg.type ≠ imsgSetIp := by rw [htype]; decide
    exact ⟨fun _ heq => absurd heq hne, fun _ => safe_createDev h⟩
  · rw [safe_setIp_iff hopened h]
    exact ⟨fun hlen _ => hlen, fun hlen => hlen htype⟩
  · exact ⟨fun _ heq => absurd heq htype, fun _ => h⟩

/--
Whatever messages the other process sends, the privileged one writes inside its buffer, sets the
addresses that it was given and uses only devices that it has opened, if and only if no address
that comes while a device is open has 128 bytes or more.
-/
theorem dispatch_safe_iff (servOpts : Options) (opens : ℕ → Bool) (imsgs : List Imsg) :
    Throughout (step servOpts opens) State.Safe {} imsgs ↔
      Along (step servOpts opens) State.Short {} imsgs :=
  throughout_iff_along (fun _ _ _ => opened_step) (fun _ _ _ => safe_step_iff) (fun _ => nofun)
    ⟨nofun, nofun, openedFirst_nil⟩

/-- An address of 128 bytes: the terminator is written after the end of the buffer. -/
theorem dispatch_not_safe :
    let create : Imsg := ⟨imsgCreateDev, 0, 0, 0, [], Nat.zero_le _⟩
    let setIp : Imsg := ⟨imsgSetIp, 0, 0, 0, List.replicate 128 65,
      Nat.le_trans (Nat.le_of_eq List.length_replicate) (by decide)⟩
    ∃ t, Run (step {} fun _ => true) {} [create, setIp] t ∧ 128 ∈ t.indexes ∧ ¬ t.Safe := by
  intro create setIp
  let s : State := { dev := some 0, tries := 1, ops := [.open 0 0, .getFd 0, .compose 0] }
  have hcreate : step {} (fun _ => true) {} create = some s := rfl
  have hsetIp : step {} (fun _ => true) s setIp = some (s.setIp setIp) :=
    step_of_setIp nofun rfl
  have hmem : 128 ∈ (s.setIp setIp).indexes := by
    rw [indexes_setIp rfl, List.length_replicate]
    simp [bufWrites]
  refine ⟨_, .cons hcreate (.cons hsetIp (.nil _)), hmem, fun h => ?_⟩
  exact absurd (h.inside 128 hmem) (by decide)

/-! ## The bytes -/

theorem reachable_foldl_dispatch (imsgs : List Imsg) (s : State) :
    Reachable (step servOpts opens) s (imsgs.foldl (State.dispatch servOpts opens) s) := by
  induction imsgs generalizing s with
  | nil => exact ⟨[], .nil s⟩
  | cons imsg imsgs ih =>
    obtain ⟨as, hrun⟩ := ih (s.dispatch servOpts opens imsg)
    by_cases hin : s.Inside
    · exact ⟨imsg :: as, .cons (if_pos hin) hrun⟩
    · have hsame : s.dispatch servOpts opens imsg = s := if_pos hin
      rw [hsame] at hrun
      rw [List.foldl_cons, hsame]
      exact ⟨as, hrun⟩

theorem foldl_dispatch_of_run {imsgs : List Imsg} (h : Run (step servOpts opens) s imsgs t) :
    imsgs.foldl (State.dispatch servOpts opens) s = t := by
  induction h with
  | nil => rfl
  | cons hstep _ ih =>
    unfold step at hstep
    split at hstep
    · rw [List.foldl_cons, Option.some.inj hstep, ih]
    · cases hstep

theorem exists_sink_dispatchImsg (reads : List (ImsgRead × (List Byte → Bool)))
    (s : Feed State Byte) :
    ∃ imsgs : List Imsg, (reads.foldl (dispatchImsg servOpts opens host) s).sink =
      imsgs.foldl (State.dispatch servOpts opens) s.sink := by
  induction reads generalizing s with
  | nil => exact ⟨[], rfl⟩
  | cons read reads ih =>
    obtain ⟨imsgs, hrest⟩ := ih (dispatchImsg servOpts opens host s read)
    have hone : ∃ imsgs : List Imsg, (dispatchImsg servOpts opens host s read).sink =
        imsgs.foldl (State.dispatch servOpts opens) s.sink := by
      obtain ⟨read, malloc⟩ := read
      cases read with
      | failed bytes => exact ⟨[], rfl⟩
      | closed => exact ⟨[], rfl⟩
      | again => exact exists_sink_feed s []
      | got bytes => exact exists_sink_feed s bytes
    obtain ⟨first, hfirst⟩ := hone
    exact ⟨first ++ imsgs, by rw [List.foldl_cons, hrest, hfirst, List.foldl_append]⟩

theorem sink_dispatchImsg {chunks : List (List Byte)} {imsgs : List Imsg}
    (h : chunks.flatten = stream (Imsg.encode host) imsgs) (s : State) :
    ((chunks.map fun bytes => (ImsgRead.got bytes, fun _ => true)).foldl
      (dispatchImsg servOpts opens host) { sink := s }).sink =
      imsgs.foldl (State.dispatch servOpts opens) s := by
  rw [List.foldl_map]
  exact sink_foldl_feed host (State.dispatch servOpts opens) h s

/--
The states that the process reaches, whatever bytes arrive in whatever pieces, are those that it
reaches by one message after the other.
-/
theorem reachable_dispatchImsg_iff : (∃ reads : List (ImsgRead × (List Byte → Bool)),
      (reads.foldl (dispatchImsg servOpts opens host) { sink := {} }).sink = t) ↔
    Reachable (step servOpts opens) {} t := by
  constructor
  · rintro ⟨reads, rfl⟩
    obtain ⟨imsgs, heq⟩ := exists_sink_dispatchImsg reads { sink := {} }
    rw [heq]
    exact reachable_foldl_dispatch imsgs {}
  · rintro ⟨imsgs, hrun⟩
    have hflat : (imsgs.map (Imsg.encode host)).flatten = stream (Imsg.encode host) imsgs := rfl
    exact ⟨_, (sink_dispatchImsg hflat {}).trans (foldl_dispatch_of_run hrun)⟩

end Tnetacle.Privileged
