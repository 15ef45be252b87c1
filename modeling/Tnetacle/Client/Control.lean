import Tnetacle.Library.CString
import Tnetacle.Library.Cuts

/-! # The control channel of the client

`client_mc_read_cb` hands whatever has come, at most 4095 bytes at a time, to
`tclt_dispatch_command`. Of that function only this is known: it runs the callbacks of a
complete command, and nothing for an incomplete one.
-/

namespace Tnetacle.Client

open ByteOrder CString Cuts

/-- A call of one of the two functions that `client_init_callback` registers. -/
inductive Callback
  | addPeer (ip : Str)
  | deletePeer (name : Str)
  deriving DecidableEq

/--
The parser of commands: the command that a buffer is, if it is a complete one and callbacks run for
it, and these callbacks. A command that can be written in several ways is named by one of its
texts.
-/
structure Tclt where
  parse : Str → Option Str
  run : Str → List Callback

/-- `tclt_dispatch_command`. -/
def Tclt.dispatchCommand (T : Tclt) (buff : Str) : List Callback :=
  match T.parse buff with
  | none => []
  | some command => T.run command

structure Command where
  text : Str
  ne_nil : text ≠ []
  noNul : (0 : Byte) ∉ text

/-- The bytes of the connection that have not been read, and the callbacks run so far. -/
structure Channel where
  input : List Byte := []
  ran : List Callback := []
  deriving DecidableEq

/-- The most that is read at once; `buff` has one byte more, for the terminator. -/
def readSize : ℕ := 4095

section

variable (T : Tclt)

def clientMcReadCb (c : Channel) : Channel :=
  if c.input = [] then c
  else
    let buff := c.input.take readSize ++ [0]
    clientMcReadCb
      { input := c.input.drop readSize, ran := c.ran ++ T.dispatchCommand (ofMemory buff) }
termination_by c.input.length
decreasing_by
  rename_i h
  have hpos := List.length_pos_iff.mpr h
  simp only [List.length_drop, readSize]
  omega

def receive (c : Channel) (segment : List Byte) : Channel :=
  clientMcReadCb T { c with input := c.input ++ segment }

def callbacks (segments : List (List Byte)) : List Callback :=
  (segments.foldl (receive T) {}).ran

end

/-- The buffers that `tclt_dispatch_command` is given. -/
def buffers (segments : List (List Byte)) : List Str :=
  (segments.flatMap (blocks readSize)).map ofMemory

def understood (parse : Str → Option Str) (segments : List (List Byte)) : List Str :=
  (buffers segments).filterMap parse

variable {T : Tclt}

theorem clientMcReadCb_eq (c : Channel) :
    clientMcReadCb T c = ⟨[], c.ran ++
      (blocks readSize c.input).flatMap fun buff => T.dispatchCommand (ofMemory buff)⟩ := by
  fun_induction clientMcReadCb T c with
  | case1 c h =>
    rw [h, blocks_nil, List.flatMap_nil, List.append_nil, ← h]
  | case2 c h buff ih =>
    rw [ih, blocks_of_ne_nil (by decide) h, List.flatMap_cons, ofMemory_append_zero,
      List.append_assoc]

theorem foldl_receive (ran : List Callback) (segments : List (List Byte)) :
    segments.foldl (receive T) ⟨[], ran⟩ = ⟨[], ran ++
      (segments.flatMap (blocks readSize)).flatMap
        fun buff => T.dispatchCommand (ofMemory buff)⟩ := by
  induction segments generalizing ran with
  | nil => simp
  | cons segment segments ih =>
    rw [List.foldl_cons, receive, clientMcReadCb_eq, List.nil_append, ih, List.flatMap_cons,
      List.flatMap_append, List.append_assoc]

theorem flatMap_dispatchCommand (buffs : List Str) :
    buffs.flatMap T.dispatchCommand = (buffs.filterMap T.parse).flatMap T.run := by
  induction buffs with
  | nil => rfl
  | cons buff buffs ih =>
    rw [List.flatMap_cons, ih, List.filterMap_cons, Tclt.dispatchCommand]
    cases T.parse buff <;> rfl

theorem callbacks_eq (segments : List (List Byte)) :
    callbacks T segments = (understood T.parse segments).flatMap T.run := by
  rw [callbacks, foldl_receive, List.nil_append, understood, ← flatMap_dispatchCommand, buffers,
    List.flatMap_map]

section Cut

variable {parse : Str → Option Str} {commands : List Command} {segments : List (List Byte)}

theorem notMem_flatten_text : (0 : Byte) ∉ (commands.map Command.text).flatten := by
  intro h
  obtain ⟨text, htext, hmem⟩ := List.mem_flatten.mp h
  obtain ⟨command, -, rfl⟩ := List.mem_map.mp htext
  exact command.noNul hmem

theorem buffers_eq (h : (0 : Byte) ∉ segments.flatten) :
    buffers segments = segments.flatMap (blocks readSize) := by
  rw [buffers, List.map_congr_left, List.map_id]
  intro buff hbuff
  apply ofMemory_eq_self
  intro h0
  apply h
  rw [← flatten_flatMap_blocks (by decide : 0 < readSize) segments]
  exact List.mem_flatten_of_mem hbuff h0

/-- Aligned segments give the parser the commands that fit in one buffer, if it takes no part of a
command for one. -/
theorem understood_of_aligned (heq : segments.flatten = (commands.map Command.text).flatten)
    (hpart : ∀ command ∈ commands, ∀ buff, buff <:+: command.text → buff ≠ command.text →
      parse buff = none) (h : Aligned readSize segments (commands.map Command.text)) :
    understood parse segments =
      ((commands.map Command.text).filter fun text => decide (text.length ≤ readSize)).filterMap
        parse := by
  rw [understood, buffers_eq (by rw [heq]; exact notMem_flatten_text),
    List.filterMap_eq_flatMap_toList, List.filterMap_eq_flatMap_toList]
  apply h.flatMap_blocks (by decide) heq
  · intro text htext
    obtain ⟨command, -, rfl⟩ := List.mem_map.mp htext
    exact command.ne_nil
  · intro text htext
    obtain ⟨command, hmem, rfl⟩ := List.mem_map.mp htext
    intro buff hbuff hne
    rw [hpart command hmem buff hbuff hne]
    rfl

theorem callbacks_of_aligned (heq : segments.flatten = (commands.map Command.text).flatten)
    (hpart : ∀ command ∈ commands, ∀ buff, buff <:+: command.text → buff ≠ command.text →
      parse buff = none) (h : Aligned readSize segments (commands.map Command.text))
    (run : Str → List Callback) :
    callbacks ⟨parse, run⟩ segments = callbacks ⟨parse, run⟩ (commands.map Command.text) := by
  rw [callbacks_eq, callbacks_eq, understood_of_aligned heq hpart h,
    understood_of_aligned rfl hpart (Aligned.refl _ _)]

end Cut

def addText : Str := ascii "\x7b\"add\":\"1.2.3.4\"\x7d"

def exampleTclt : Tclt where
  parse s := if s = addText then some addText else none
  run _ := [.addPeer (ascii "1.2.3.4")]

end Tnetacle.Client
