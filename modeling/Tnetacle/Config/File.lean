import Tnetacle.Library.Cuts
import Tnetacle.Config.Accept

/-! # Configuration files

On Unix the file is mapped and parsed at once. On Windows it is read in pieces, and each piece
is parsed as a document of its own: every piece resets the options, so that only
one of them is heard.
-/

namespace Tnetacle.Config

open ByteOrder CString Cuts

/--
yajl: what `yajl_parse` reports while it reads a text, and what `yajl_complete_parse` does at its
end, which may report a number that the end of the text ends, and tells whether the text is
a complete document. The events of a text do not depend on what follows it.
-/
structure Yajl where
  parse : Str → List Event
  finish : Str → List Event × Bool
  parse_append : ∀ text rest, parse text <+: parse (text ++ rest)
  parse_nil : parse [] = []
  finish_nil : finish [] = ([], false)

def Yajl.events (Y : Yajl) (text : Str) : List Event := Y.parse text ++ (Y.finish text).1

def Yajl.complete (Y : Yajl) (text : Str) : Bool := (Y.finish text).2

section

variable (Y : Yajl) (E : Evutil)

/-- `tnt_parse_buf` on a text: what it returns and the options it leaves, or a fault. The options
of earlier calls are overwritten. -/
def tntParseBufText (text : Str) : Option (Int × Options) :=
  match yajlParse E (Y.events text) {} with
  | (status, p) =>
    if p.fault then none
    else if status ≠ .ok ∨ Y.complete text = false then some (-1, p.servOpts)
    else some (0, defaults p.servOpts)

def Refuses (text : Str) : Prop := ∃ o, tntParseBufText Y E text = some (-1, o)

/-! ## Unix -/

/-- What becomes of a file until it is mapped; `failed` stands for `open`, `stat` and `mmap`. -/
inductive UnixFile
  | missing
  | failed
  | mapped (content : Str)

def Unix.tntParseFile (servOpts : Options) : UnixFile → Option (Int × Options)
  | .missing => some (0, servOpts)
  | .failed => some (-1, servOpts)
  | .mapped content =>
    match tntParseBufText Y E content with
    | none => none
    | some (ret, o) => if ret = -1 then some (-1, o) else some (0, o)

/-! ## Windows -/

def bufSize : ℕ := 65000

/-- The loop over `ReadFile`; `content` is what has not been read. -/
def Wnt.readLoop (servOpts : Options) (content : Str) : Option (Int × Options) :=
  if content = [] then some (0, servOpts)
  else
    match tntParseBufText Y E (content.take bufSize) with
    | none => none
    | some (ret, o) => if ret = -1 then some (0, o) else Wnt.readLoop o (content.drop bufSize)
termination_by content.length
decreasing_by
  rename_i h
  have hpos := List.length_pos_iff.mpr h
  simp only [List.length_drop, bufSize]
  omega

/-- A file that can not be opened is not read, and not reported. -/
def Wnt.tntParseFile (servOpts : Options) : Option Str → Option (Int × Options)
  | none => some (0, servOpts)
  | some content => Wnt.readLoop Y E servOpts content

def parsed (text : Str) : Parser := (Y.events text).foldl (step E) {}

def accepted (text : Str) : Bool := !(parsed Y E text).fault && Y.complete text

def heard : List Str → Str
  | [] => []
  | [buf] => buf
  | buf :: buf' :: bufs => if accepted Y E buf then heard (buf' :: bufs) else buf

def Yajl.behind (first content : Str) : List Event :=
  (Y.events content).drop (Y.parse first).length

end

variable {Y : Yajl} {E : Evutil} {servOpts : Options} {content text : Str}

theorem tntParseBufText_eq (text : Str) :
    tntParseBufText Y E text =
      if (parsed Y E text).fault then none
      else if Y.complete text = false then some (-1, (parsed Y E text).servOpts)
      else some (0, defaults (parsed Y E text).servOpts) := by
  rw [tntParseBufText, yajlParse_eq, parsed]
  cases Y.complete text <;> simp

theorem tntParseBufText_of_complete (h : Y.complete text = true) :
    tntParseBufText Y E text =
      (tntParseBufReturn E (Y.events text)).map
        fun ret => (ret, (tntParseBuf E (Y.events text)).servOpts) := by
  rw [tntParseBufText_eq, tntParseBufReturn_eq, tntParseBuf, parsed]
  cases hfault : ((Y.events text).foldl (step E) {}).fault <;> simp [h]

section Results

variable (hfault : (parsed Y E text).fault = false)
include hfault

end Results

theorem return_cases {ret : Int} {o : Options} (h : tntParseBufText Y E text = some (ret, o)) :
    ret = -1 ∨ ret = 0 := by
  rw [tntParseBufText_eq] at h
  split at h
  · cases h
  · split at h
    · cases h
      exact .inl rfl
    · cases h
      exact .inr rfl

theorem Unix.tntParseFile_mapped (servOpts : Options) (content : Str) :
    Unix.tntParseFile Y E servOpts (.mapped content) = tntParseBufText Y E content := by
  rw [Unix.tntParseFile]
  cases h : tntParseBufText Y E content with
  | none => rfl
  | some r =>
    obtain ⟨ret, o⟩ := r
    rcases return_cases h with rfl | rfl <;> rfl

/-! ## The piece that is heard -/

/-- What a piece leaves when it is heard: a refusal is not reported. -/
def outcome (Y : Yajl) (E : Evutil) (piece : Str) : Option (Int × Options) :=
  (tntParseBufText Y E piece).map fun result => (0, result.2)

section First

section Callbacks

variable (map : Str) (o : Options)

end Callbacks

end First

end Tnetacle.Config
