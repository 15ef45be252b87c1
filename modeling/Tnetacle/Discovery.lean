import Mathlib.Data.List.Infix
import Tnetacle.Library.CString
import Tnetacle.Library.Memory
import Tnetacle.Library.Run

/-! # Discovery on the local network

A broadcaster announces the endpoint of its daemon, and asks its daemon to add every endpoint that
it hears of. Every datagram is received into the same buffer, which is never cleared, and what is
taken for the endpoint is the text up to the first NUL in the buffer.
-/

namespace Tnetacle.Discovery

open ByteOrder CString Overlays Runs

/-- The daemon that a broadcaster works for: its address as `to_string` prints it, and the
announcement, which is its endpoint as an output stream prints it. -/
structure Daemon where
  address : Str
  announcement : Str
  within : address <:+: announcement
  noNul : (0 : Byte) ∉ announcement

/-- The size that `buffer` is made with; its bytes are zero at first. -/
def bufferSize : ℕ := 150

/-- The requests are the values of `AddContact.Ip` that have been sent to the daemon. -/
structure Broadcaster where
  buffer : List Byte := List.replicate bufferSize 0
  requests : List Str := []
  overread : Bool := false
  deriving DecidableEq

/-- `async_receive_from`: what does not fit in the buffer is cut off. -/
def Broadcaster.receive (b : Broadcaster) (datagram : List Byte) : Broadcaster :=
  { b with buffer := overlay b.buffer (datagram.take bufferSize) }

/-- `handl_recv`. The text is read behind the end of a buffer without a NUL. -/
def Broadcaster.handlRecv (d : Daemon) (b : Broadcaster) (tnetacle err : Bool) : Broadcaster :=
  if tnetacle && !err then
    if b.buffer.contains 0 then
      let data := ofMemory b.buffer
      if d.address <:+: data then b else { b with requests := b.requests ++ [data] }
    else { b with overread := true }
  else b

/-- A reception ends, with a datagram or an error; `tnetacle` says whether the stream to the
daemon is good. -/
inductive Label
  | received (datagram : List Byte) (tnetacle : Bool)
  | failed (tnetacle : Bool)
  deriving DecidableEq

def step (d : Daemon) (b : Broadcaster) (l : Label) : Option Broadcaster :=
  if b.overread then none
  else match l with
    | .received datagram tnetacle => some ((b.receive datagram).handlRecv d tnetacle false)
    | .failed tnetacle => some (b.handlRecv d tnetacle true)

def texts (ls : List Label) : List (List Byte) :=
  ls.flatMap fun
    | .received datagram _ => [datagram.take bufferSize]
    | .failed _ => []

/-- The datagram, if there is one, is a text. -/
def Label.Plain : Label → Prop
  | .received datagram _ => (0 : Byte) ∉ datagram
  | .failed _ => True

def filled (text : List Byte) : List Byte := text ++ List.replicate (bufferSize - text.length) 0

variable {d : Daemon} {b b' : Broadcaster} {l : Label} {ls : List Label} {datagram : List Byte}
  {tnetacle : Bool}

/-! ## The buffer -/

theorem handlRecv_buffer (d : Daemon) (b : Broadcaster) (tnetacle err : Bool) :
    (b.handlRecv d tnetacle err).buffer = b.buffer := by
  unfold Broadcaster.handlRecv
  split
  · split
    · dsimp only
      split <;> rfl
    · rfl
  · rfl

theorem received_eq_some (h : step d b (.received datagram tnetacle) = some b') :
    b.overread = false ∧ b' = (b.receive datagram).handlRecv d tnetacle false := by
  cases hover : b.overread with
  | true => simp [step, hover] at h
  | false => exact ⟨rfl, by simpa [step, hover] using h.symm⟩

theorem texts_concat (ls : List Label) (datagram : List Byte) (tnetacle : Bool) :
    texts (ls ++ [.received datagram tnetacle]) = texts ls ++ [datagram.take bufferSize] := by
  simp [texts]

theorem length_le_of_mem_texts {text : List Byte} (h : text ∈ texts ls) :
    text.length ≤ bufferSize := by
  obtain ⟨l, -, hl⟩ := List.mem_flatMap.mp h
  cases l with
  | received datagram tnetacle =>
    rw [List.mem_singleton.mp hl]
    exact List.length_take_le _ _
  | failed tnetacle => cases hl

theorem length_overlays_texts_le (ls : List Label) :
    (overlays (texts ls)).length ≤ bufferSize :=
  length_overlays_le_iff.mpr fun _ h => length_le_of_mem_texts h

/-- After every run the buffer holds the texts written over one another. -/
theorem buffer_of_run (h : Run (step d) {} ls b) : b.buffer = filled (overlays (texts ls)) := by
  refine h.history (I := fun ls b => b.buffer = filled (overlays (texts ls))) rfl ?_
  intro ls b l b' _ hb hstep
  cases l with
  | received datagram tnetacle =>
    obtain ⟨-, rfl⟩ := received_eq_some hstep
    rw [handlRecv_buffer, Broadcaster.receive, texts_concat, overlays_concat, hb]
    exact overlay_append_replicate 0 (length_overlays_texts_le ls) (List.length_take_le _ _)
  | failed tnetacle =>
    have hsame : b.handlRecv d tnetacle true = b := by simp [Broadcaster.handlRecv]
    have heq : b' = b := by
      unfold step at hstep
      split at hstep
      · cases hstep
      · exact (Option.some.inj hstep).symm.trans hsame
    have htexts : texts (ls ++ [.failed tnetacle]) = texts ls := by simp [texts]
    rw [heq, htexts, hb]

theorem zero_not_mem_overlays (h : ∀ l ∈ ls, l.Plain) : (0 : Byte) ∉ overlays (texts ls) := by
  intro hmem
  obtain ⟨text, htext, h0⟩ := mem_overlays hmem
  obtain ⟨l, hl, hin⟩ := List.mem_flatMap.mp htext
  cases l with
  | received datagram tnetacle =>
    rw [List.mem_singleton.mp hin] at h0
    exact h _ hl (List.mem_of_mem_take h0)
  | failed tnetacle => cases hin

theorem ofMemory_filled {text : List Byte} (h : (0 : Byte) ∉ text) :
    ofMemory (filled text) = text := by
  unfold filled
  cases hrest : bufferSize - text.length with
  | zero => rw [List.replicate_zero, List.append_nil, ofMemory_eq_self h]
  | succ n => rw [List.replicate_succ, ofMemory_append_cons_zero, ofMemory_eq_self h]

theorem zero_mem_filled_iff {text : List Byte} (h : (0 : Byte) ∉ text) :
    (0 : Byte) ∈ filled text ↔ text.length < bufferSize := by
  rw [filled, List.mem_append, List.mem_replicate]
  simp only [h, false_or, and_true, ne_eq]
  omega

theorem plain_concat (hplain : ∀ l ∈ ls, l.Plain) (h0 : (0 : Byte) ∉ datagram)
    (tnetacle : Bool) : ∀ l ∈ ls ++ [.received datagram tnetacle], l.Plain := by
  rw [List.forall_mem_append, List.forall_mem_singleton]
  exact ⟨hplain, h0⟩

/-! ## What is forwarded -/

theorem buffer_receive (h : Run (step d) {} ls b) (datagram : List Byte) (tnetacle : Bool) :
    (b.receive datagram).buffer =
      filled (overlays (texts (ls ++ [.received datagram tnetacle]))) := by
  rw [texts_concat, overlays_concat, Broadcaster.receive, buffer_of_run h]
  exact overlay_append_replicate 0 (length_overlays_texts_le ls) (List.length_take_le _ _)

/-- What a datagram does while the stream is good, by the text that is in the buffer then. -/
theorem received_cases {text : List Byte} (hbuf : (b.receive datagram).buffer = filled text)
    (h0 : (0 : Byte) ∉ text) (hstep : step d b (.received datagram true) = some b') :
    if text.length < bufferSize then
      b'.overread = false ∧
        b'.requests = b.requests ++ if d.address <:+: text then [] else [text]
    else b'.overread = true ∧ b'.requests = b.requests := by
  obtain ⟨hover, rfl⟩ := received_eq_some hstep
  simp only [Broadcaster.handlRecv, hbuf, List.contains_iff_mem, zero_mem_filled_iff h0,
    ofMemory_filled h0, Bool.not_false, Bool.and_true, if_true]
  split
  · split
    · exact ⟨hover, (List.append_nil _).symm⟩
    · exact ⟨hover, rfl⟩
  · exact ⟨rfl, rfl⟩

/--
After any run on texts, a text that is received is forwarded as it is if and only if it is
shorter than the buffer, none received before it was longer than it, and the address of the own
daemon is not part of it.
-/
theorem forwarded_iff (hr : Run (step d) {} ls b) (hplain : ∀ l ∈ ls, l.Plain)
    (h0 : (0 : Byte) ∉ datagram) (hstep : step d b (.received datagram true) = some b') :
    b'.requests = b.requests ++ [datagram] ↔
      datagram.length < bufferSize ∧ (∀ text ∈ texts ls, text.length ≤ datagram.length) ∧
        ¬ d.address <:+: datagram := by
  have hcases := received_cases (buffer_receive hr datagram true)
    (zero_not_mem_overlays (plain_concat hplain h0 true)) hstep
  rw [texts_concat] at hcases
  constructor
  · intro hreq
    split at hcases
    · rename_i hshort
      rw [hcases.2, List.append_cancel_left_eq] at hreq
      split at hreq
      · cases hreq
      · rename_i haddr
        have heq := (List.cons.inj hreq).1
        rw [heq] at hshort haddr
        rw [List.take_of_length_le hshort.le] at heq
        exact ⟨hshort, overlays_concat_eq_iff.mp heq, haddr⟩
    · have hno := hcases.2.symm.trans hreq
      simp at hno
  · rintro ⟨hshort, hall, haddr⟩
    rw [List.take_of_length_le hshort.le, overlays_concat_eq_iff.mpr hall, if_pos hshort,
      if_neg haddr] at hcases
    exact hcases.2

def host : Daemon where
  address := ascii "10.0.0.1"
  announcement := ascii "10.0.0.1:4242"
  within := by decide
  noNul := by decide

/-- After a longer announcement, a shorter one is forwarded with the end of the longer one. -/
theorem forwarded_iff_shorter : ∃ b b',
    Run (step host) {} [.received (ascii "10.0.0.20:4242") true] b ∧
      step host b (.received (ascii "10.0.0.3:4242") true) = some b' ∧
      b'.requests ≠ b.requests ++ [ascii "10.0.0.3:4242"] := by
  have hrun : Run (step host) {} [.received (ascii "10.0.0.20:4242") true] _ :=
    .cons rfl (.nil _)
  refine ⟨_, _, hrun, rfl, fun hreq => ?_⟩
  have hplain : ∀ l ∈ [Label.received (ascii "10.0.0.20:4242") true], l.Plain := by
    rw [List.forall_mem_singleton]
    exact (by decide : (0 : Byte) ∉ ascii "10.0.0.20:4242")
  have hall := ((forwarded_iff hrun hplain (by decide) rfl).mp hreq).2.1
  exact absurd (hall (ascii "10.0.0.20:4242") (by decide)) (by decide)

/--
After any run on texts, the handler reads behind the end of its buffer if and only if the datagram
or one before it fills the buffer.
-/
theorem overread_iff (hr : Run (step d) {} ls b) (hplain : ∀ l ∈ ls, l.Plain)
    (h0 : (0 : Byte) ∉ datagram) (hstep : step d b (.received datagram true) = some b') :
    b'.overread = true ↔
      bufferSize ≤ datagram.length ∨ ∃ text ∈ texts ls, bufferSize ≤ text.length := by
  have hcases := received_cases (buffer_receive hr datagram true)
    (zero_not_mem_overlays (plain_concat hplain h0 true)) hstep
  rw [texts_concat] at hcases
  have hshort : (overlays (texts ls ++ [datagram.take bufferSize])).length < bufferSize ↔
      ¬ (bufferSize ≤ datagram.length ∨ ∃ text ∈ texts ls, bufferSize ≤ text.length) := by
    have hpos : 0 < bufferSize := by decide
    rw [← Nat.le_sub_one_iff_lt hpos, length_overlays_le_iff, List.forall_mem_append,
      List.forall_mem_singleton, List.length_take]
    constructor
    · rintro ⟨hall, hlast⟩ (hlong | ⟨text, htext, hlong⟩)
      · omega
      · have hle := hall text htext
        omega
    · intro hno
      rw [not_or, not_exists] at hno
      refine ⟨fun text htext => ?_, by omega⟩
      have hlt : ¬ bufferSize ≤ text.length := fun h => hno.2 text ⟨htext, h⟩
      omega
  split at hcases
  · rename_i hlt
    rw [hcases.1]
    exact iff_of_false Bool.false_ne_true (hshort.mp hlt)
  · rename_i hge
    exact iff_of_true hcases.1 (not_not.mp (mt hshort.mpr hge))

/-- A datagram of 150 bytes leaves no room for a NUL behind the next one. -/
theorem overread_iff_filled : ∃ b b',
    Run (step host) {} [.received (List.replicate 150 65) false] b ∧
      step host b (.received (ascii "10.0.0.3:4242") true) = some b' ∧ b'.overread = true := by
  have hrun : Run (step host) {} [.received (List.replicate 150 65) false] _ :=
    .cons rfl (.nil _)
  refine ⟨_, _, hrun, rfl, (overread_iff hrun ?_ (by decide) rfl).mpr (.inr ?_)⟩
  · rw [List.forall_mem_singleton]
    intro h0
    exact absurd (List.eq_of_mem_replicate h0) (by decide)
  · exact ⟨List.replicate 150 65, List.mem_singleton.mpr rfl, Nat.le_refl 150⟩

/-- A broadcaster never asks for its own daemon, whatever it has received before. -/
theorem own_announcement_ignored (hr : Run (step d) {} ls b)
    (hstep : step d b (.received d.announcement tnetacle) = some b') :
    b'.requests = b.requests := by
  obtain ⟨-, rfl⟩ := received_eq_some hstep
  have hfull : (b.buffer.drop bufferSize) = [] := by
    have hlen := length_overlays_texts_le ls
    rw [buffer_of_run hr, List.drop_eq_nil_iff, filled, List.length_append,
      List.length_replicate]
    omega
  unfold Broadcaster.handlRecv
  split
  · split
    · rename_i hnul
      have hin : d.address <:+: ofMemory (b.receive d.announcement).buffer := by
        rcases Nat.le_total d.announcement.length bufferSize with hle | hge
        · rw [Broadcaster.receive, List.take_of_length_le hle, overlay]
          exact d.within.trans (prefix_ofMemory_append d.noNul _).isInfix
        · -- the announcement fills the buffer: there is no NUL in it
          rw [List.contains_iff_mem, Broadcaster.receive, overlay, List.length_take,
            Nat.min_eq_left hge, hfull, List.append_nil] at hnul
          exact absurd (List.mem_of_mem_take hnul) d.noNul
      dsimp only
      rw [if_pos hin]
      rfl
    · rfl
  · rfl

theorem own_announcement_ignored_behind : ∃ b b',
    Run (step host) {} [.received (ascii "10.0.0.20:4242") true] b ∧
      step host b (.received host.announcement true) = some b' ∧
      b'.requests = [ascii "10.0.0.20:4242"] := by
  have hrun : Run (step host) {} [.received (ascii "10.0.0.20:4242") true] _ :=
    .cons rfl (.nil _)
  exact ⟨_, _, hrun, rfl, own_announcement_ignored hrun rfl⟩

end Tnetacle.Discovery
