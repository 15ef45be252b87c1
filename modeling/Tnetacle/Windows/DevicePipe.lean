import Tnetacle.Library.Chains
import Tnetacle.Windows.Pipe

/-! # From the device to the network

`pipe_read_cb` takes the frames of the device from the input buffer of a bufferevent. It reads the
size of a frame through a pointer into the buffer, once more behind the drain of the size: if
the size was the end of a chain, the memory is no longer there.
-/

namespace Tnetacle.Windows

open ByteOrder Memory Framing Chains Tunnel

/-- The input buffer, the queue for the network, and whether memory has been read that is not
part of the buffer. -/
structure PipeReader where
  input : List (Cell Byte) := []
  framesToSend : List Frame := []
  fault : Bool := false
  deriving DecidableEq

section Model

variable (host : Endian) (malloc : ℕ → ∀ n, Block n)

/-- `frame_alloc`, `memcpy` and `v_frame_push`; `malloc` gives the contents of new blocks. -/
def pushFrame (framesToSend : List Frame) (bytes : List Byte) : List Frame :=
  let block := malloc framesToSend.length (bytes.length + sizeofPacketHdr)
  let tmp := (frameAlloc ⟨0, []⟩ (some block.1) bytes.length).2
  framesToSend ++ [{ tmp with
    size := BitVec.ofNat 16 bytes.length
    rawPacket := overwrite tmp.rawPacket sizeofPacketHdr bytes }]

/--
The loop of `pipe_read_cb`. `evbuffer_pullup` returns a null pointer when it is asked for more than
there is. The size is compared with all that the buffer holds, its own two bytes included. The
pullup of the frame leaves no trace, since all that it moves is drained.
-/
def pipeReadCbLoop : ℕ → PipeReader → PipeReader
  | 0, s => s
  | n + 1, s =>
    match pullup 2 s.input with
    | [] => s
    | [_] => { s with fault := true }
    | b₀ :: b₁ :: rest =>
      let frameSize := load host b₀.value b₁.value
      if exceeds frameSize (rest.length + 2) then { s with input := b₀ :: b₁ :: rest }
      -- `*size_ptr` is read behind `evbuffer_drain`, before the frame
      else if firstChain (b₀ :: b₁ :: rest) ≤ 2 then { s with fault := true }
      else if rest.length < frameSize.toNat then { s with fault := true }
      else
        pipeReadCbLoop n { s with
          input := rest.drop frameSize.toNat
          framesToSend := pushFrame malloc s.framesToSend (values (rest.take frameSize.toNat)) }

/-- A chunk is added to the input buffer and `pipe_read_cb` is run. -/
def pipeReadCb (s : PipeReader) (chunk : List (Cell Byte)) : PipeReader :=
  if s.fault then s
  else pipeReadCbLoop host malloc (s.input ++ chunk).length { s with input := s.input ++ chunk }

def pipeReadCbs (framesToSend : List Frame) (chunks : List (List (Cell Byte))) : PipeReader :=
  chunks.foldl (pipeReadCb host malloc) { framesToSend := framesToSend }

end Model

/-! ## Where the stream is cut and where its chains begin -/

section Layout

variable (chunks : List (List (Cell Byte)))

/-- A chunk ends after `c` bytes of the stream. -/
def CutAt (c : ℕ) : Prop := ∃ cs, cs <+: chunks ∧ cs.flatten.length = c

/-- A chain begins with the byte `c` of the stream. -/
def StartsAt (c : ℕ) : Prop := ∃ cell, chunks.flatten[c]? = some cell ∧ cell.starts = true

/-- The beginnings of a frame for which `pipe_read_cb` waits. -/
def waitsFor (frame : DeviceFrame) (n : ℕ) : Bool := 2 ≤ n && n < frame.bytes.length

/--
The size of the frame, whose first byte is the byte `p` of the stream, is not the end of a chain
when it is drained. If a chunk ends with the size, then the pullup for its sake has joined its
bytes.
-/
structure SizeKept (frame : DeviceFrame) (p : ℕ) : Prop where
  notLast : frame.bytes = [] → ¬ CutAt chunks (p + 2)
  notEnd : ¬ StartsAt chunks (p + 2)
  whole : StartsAt chunks (p + 1) → CutAt chunks (p + 2)

/-- The sizes of the frames, the first of which begins with the byte `p`. -/
def SizesKept : ℕ → List DeviceFrame → Prop
  | _, [] => True
  | p, frame :: frames =>
    SizeKept chunks frame p ∧ SizesKept (p + (frame.bytes.length + 2)) frames

/--
Every cut of the stream leaves nothing of the next frame, or its size and fewer bytes altogether
than this size; and no size is the end of a chain when it is drained.
-/
structure Readable (host : Endian) (frames : List DeviceFrame) : Prop where
  cuts : ∀ c, CutAt chunks c →
    goodCut (handleFrames host) (fun _ => true) waitsFor frames c = true
  sizes : SizesKept chunks 0 frames

instance (c : ℕ) : Decidable (CutAt chunks c) :=
  decidable_of_iff (∃ cs ∈ chunks.inits, cs.flatten.length = c) (by simp [CutAt])

instance (c : ℕ) : Decidable (StartsAt chunks c) :=
  decidable_of_iff (∃ cell ∈ chunks.flatten[c]?, cell.starts = true) Iff.rfl

instance (frame : DeviceFrame) (p : ℕ) : Decidable (SizeKept chunks frame p) :=
  decidable_of_iff ((frame.bytes = [] → ¬ CutAt chunks (p + 2)) ∧ ¬ StartsAt chunks (p + 2) ∧
    (StartsAt chunks (p + 1) → CutAt chunks (p + 2)))
    ⟨fun h => ⟨h.1, h.2.1, h.2.2⟩, fun h => ⟨h.notLast, h.notEnd, h.whole⟩⟩

instance decidableSizesKept : ∀ p frames, Decidable (SizesKept chunks p frames)
  | _, [] => .isTrue trivial
  | p, frame :: frames =>
    have := decidableSizesKept (p + (frame.bytes.length + 2)) frames
    inferInstanceAs (Decidable (SizeKept chunks frame p ∧
      SizesKept chunks (p + (frame.bytes.length + 2)) frames))

instance (host : Endian) (frames : List DeviceFrame) : Decidable (Readable chunks host frames) :=
  decidable_of_iff ((∀ cs ∈ chunks.inits, goodCut (handleFrames host) (fun _ => true) waitsFor
      frames cs.flatten.length = true) ∧ SizesKept chunks 0 frames) (by
    constructor
    · rintro ⟨hcuts, hsizes⟩
      refine ⟨?_, hsizes⟩
      rintro _ ⟨cs, hcs, rfl⟩
      exact hcuts cs ((List.mem_inits cs chunks).mpr hcs)
    · rintro ⟨hcuts, hsizes⟩
      exact ⟨fun cs hcs => hcuts _ ⟨cs, (List.mem_inits cs chunks).mp hcs, rfl⟩, hsizes⟩)

end Layout

section Cuts

variable {chunks chunks' : List (List (Cell Byte))} {b k : List (Cell Byte)} {c d p : ℕ}
  {frames : List DeviceFrame}

theorem cutAt_zero : CutAt chunks 0 := ⟨[], List.nil_prefix, rfl⟩

theorem cutAt_cons_iff (hc : 0 < c) :
    CutAt (b :: chunks) c ↔ b.length ≤ c ∧ CutAt chunks (c - b.length) := by
  constructor
  · rintro ⟨cs, hcs, hlen⟩
    rcases List.prefix_cons_iff.mp hcs with rfl | ⟨cs', rfl, hcs'⟩
    · exact absurd hlen hc.ne
    · rw [List.flatten_cons, List.length_append] at hlen
      exact ⟨by omega, cs', hcs', by omega⟩
  · rintro ⟨hle, cs, hcs, hlen⟩
    refine ⟨b :: cs, List.cons_prefix_cons.mpr ⟨rfl, hcs⟩, ?_⟩
    rw [List.flatten_cons, List.length_append]
    omega

theorem sizeKept_congr (frame : DeviceFrame)
    (hcut : ∀ c, p + 2 ≤ c → (CutAt chunks (c + d) ↔ CutAt chunks' c))
    (hstart : ∀ c, p + 1 ≤ c → (StartsAt chunks (c + d) ↔ StartsAt chunks' c)) :
    SizeKept chunks frame (p + d) ↔ SizeKept chunks' frame p := by
  have hcut₂ := hcut (p + 2) le_rfl
  have hstart₁ := hstart (p + 1) le_rfl
  have hstart₂ := hstart (p + 2) (by omega)
  rw [show p + 2 + d = p + d + 2 by omega] at hcut₂ hstart₂
  rw [show p + 1 + d = p + d + 1 by omega] at hstart₁
  constructor
  · rintro ⟨hlast, hend, hwhole⟩
    exact ⟨by rwa [← hcut₂], by rwa [← hstart₂], by rwa [← hstart₁, ← hcut₂]⟩
  · rintro ⟨hlast, hend, hwhole⟩
    exact ⟨by rwa [hcut₂], by rwa [hstart₂], by rwa [hstart₁, hcut₂]⟩

theorem sizesKept_congr (hcut : ∀ c, p + 2 ≤ c → (CutAt chunks (c + d) ↔ CutAt chunks' c))
    (hstart : ∀ c, p + 1 ≤ c → (StartsAt chunks (c + d) ↔ StartsAt chunks' c)) :
    SizesKept chunks (p + d) frames ↔ SizesKept chunks' p frames := by
  induction frames generalizing p with
  | nil => exact Iff.rfl
  | cons frame frames ih =>
    rw [SizesKept, SizesKept, sizeKept_congr frame hcut hstart,
      show p + d + (frame.bytes.length + 2) = p + (frame.bytes.length + 2) + d by omega,
      ih (fun c hc => hcut c (by omega)) (fun c hc => hstart c (by omega))]

end Cuts

section Readable

variable {host : Endian} {frame : DeviceFrame} {frames : List DeviceFrame}
  {b k : List (Cell Byte)} {ks : List (List (Cell Byte))} {a₀ a₁ : Cell Byte}
  {rest : List (Cell Byte)} {c : ℕ}

theorem length_pullup (n : ℕ) (b : List (Cell Byte)) : (pullup n b).length = b.length := by
  rw [← length_values, values_pullup, length_values]

theorem length_handleFrames (host : Endian) (frame : DeviceFrame) :
    (handleFrames host frame).length = frame.bytes.length + 2 := by
  obtain ⟨b₀, b₁, heq, -⟩ := handleFrames_eq host frame
  rw [heq]
  rfl

theorem goodCut_zero (frames : List DeviceFrame) :
    goodCut (handleFrames host) (fun _ => true) waitsFor frames 0 = true := by
  cases frames with
  | nil => rfl
  | cons frame frames =>
    rw [goodCut_of_lt rfl (by rw [length_handleFrames]; omega)]
    rfl

theorem readable_nil_cons : Readable ([] :: ks) host frames ↔ Readable ks host frames := by
  have hcut : ∀ c, CutAt ([] :: ks) c ↔ CutAt ks c := by
    intro c
    rcases Nat.eq_zero_or_pos c with rfl | hc
    · exact iff_of_true cutAt_zero cutAt_zero
    · simp [cutAt_cons_iff hc]
  have hsizes : SizesKept ([] :: ks) (0 + 0) frames ↔ SizesKept ks 0 frames :=
    sizesKept_congr (fun c _ => hcut c) (fun c _ => Iff.rfl)
  constructor
  · rintro ⟨hcuts, hkept⟩
    exact ⟨fun c hc => hcuts c ((hcut c).mpr hc), hsizes.mp hkept⟩
  · rintro ⟨hcuts, hkept⟩
    exact ⟨fun c hc => hcuts c ((hcut c).mp hc), hsizes.mpr hkept⟩

theorem cutAt_two_iff : CutAt ((a₀ :: a₁ :: rest) :: ks) 2 ↔ rest = [] := by
  rw [cutAt_cons_iff (by omega), List.length_cons, List.length_cons]
  constructor
  · rintro ⟨hle, -⟩
    exact List.length_eq_zero_iff.mp (by omega)
  · rintro rfl
    exact ⟨le_rfl, cutAt_zero⟩

theorem startsAt_one (a₀ a₁ : Cell Byte) (rest : List (Cell Byte)) (ks : List (List (Cell Byte))) :
    StartsAt ((a₀ :: a₁ :: rest) :: ks) 1 ↔ a₁.starts = true := by
  simp [StartsAt]

theorem startsAt_two (h : rest ≠ []) :
    StartsAt ((a₀ :: a₁ :: rest) :: ks) 2 ↔ ∀ c ∈ rest.head?, c.starts = true := by
  obtain ⟨c, rest, rfl⟩ := List.exists_cons_of_ne_nil h
  simp [StartsAt]

theorem two_lt_firstChain_iff (h : rest ≠ []) (ks : List (List (Cell Byte))) :
    2 < firstChain (pullup 2 (a₀ :: a₁ :: rest)) ↔
      ¬ StartsAt ((a₀ :: a₁ :: rest) :: ks) 1 ∧ ¬ StartsAt ((a₀ :: a₁ :: rest) :: ks) 2 := by
  rw [startsAt_one, startsAt_two h, pullup_two]
  obtain ⟨c, rest, rfl⟩ := List.exists_cons_of_ne_nil h
  cases h₁ : a₁.starts with
  | true => simp [firstChain, startHead]
  | false =>
    rw [if_neg (by simp), ← Nat.not_le, firstChain_le_two_iff h₁]
    simp

/-- The size of a frame that is in the first chunk. -/
theorem sizeKept_zero_iff (h : rest = [] → frame.bytes = []) :
    SizeKept ((a₀ :: a₁ :: rest) :: ks) frame 0 ↔
      2 < firstChain (pullup 2 (a₀ :: a₁ :: rest)) := by
  have hcut : CutAt ((a₀ :: a₁ :: rest) :: ks) (0 + 2) ↔ rest = [] := cutAt_two_iff
  by_cases hrest : rest = []
  · refine iff_of_false (fun hkept => hkept.notLast (h hrest) (hcut.mpr hrest)) ?_
    subst hrest
    rw [pullup_two]
    cases h₁ : a₁.starts <;> simp [firstChain, startHead, h₁]
  · rw [two_lt_firstChain_iff hrest ks]
    constructor
    · rintro ⟨-, hend, hwhole⟩
      exact ⟨fun hstart => hrest (hcut.mp (hwhole hstart)), hend⟩
    · rintro ⟨hwhole, hend⟩
      exact ⟨fun _ hlast => hrest (hcut.mp hlast), hend, fun hstart => absurd hstart hwhole⟩

theorem cutAt_take_iff {n : ℕ} (hn : n ≤ rest.length) (hc : 0 < c) :
    CutAt ((a₀ :: a₁ :: rest) :: ks) (c + (n + 2)) ↔ CutAt (rest.drop n :: ks) c := by
  rw [cutAt_cons_iff (by omega), cutAt_cons_iff hc, List.length_drop, List.length_cons,
    List.length_cons]
  by_cases hle : rest.length + 1 + 1 ≤ c + (n + 2)
  · rw [show c + (n + 2) - (rest.length + 1 + 1) = c - (rest.length - n) by omega]
    exact and_congr_left fun _ => by omega
  · exact iff_of_false (fun h => hle h.1) (fun h => hle (by omega))

theorem startsAt_take_iff {n : ℕ} (hn : n ≤ rest.length) :
    StartsAt ((a₀ :: a₁ :: rest) :: ks) (c + (n + 2)) ↔ StartsAt (rest.drop n :: ks) c := by
  have hget : ((a₀ :: a₁ :: rest) :: ks).flatten[c + (n + 2)]? =
      (rest.drop n :: ks).flatten[c]? := by
    rw [List.flatten_cons, List.flatten_cons, ← List.drop_append_of_le_length hn,
      List.getElem?_drop, Nat.add_comm c, Nat.add_right_comm]
    rfl
  rw [StartsAt, StartsAt, hget]

theorem goodCut_take_iff (hlen : frame.bytes.length ≤ rest.length) :
    (∀ c, CutAt ((a₀ :: a₁ :: rest) :: ks) c →
        goodCut (handleFrames host) (fun _ => true) waitsFor (frame :: frames) c = true) ↔
      ∀ c, CutAt (rest.drop frame.bytes.length :: ks) c →
        goodCut (handleFrames host) (fun _ => true) waitsFor frames c = true := by
  have hgood (c : ℕ) : goodCut (handleFrames host) (fun _ => true) waitsFor (frame :: frames)
      (c + (frame.bytes.length + 2)) =
        goodCut (handleFrames host) (fun _ => true) waitsFor frames c := by
    have hsize := length_handleFrames host frame
    rw [goodCut_of_le rfl (by rw [hsize]; omega), hsize, Nat.add_sub_cancel]
  constructor
  · intro hcuts c hc
    rcases Nat.eq_zero_or_pos c with rfl | hpos
    · exact goodCut_zero frames
    · rw [← hgood]
      exact hcuts _ ((cutAt_take_iff hlen hpos).mpr hc)
  · intro hcuts c hc
    rcases Nat.eq_zero_or_pos c with rfl | hpos
    · exact goodCut_zero _
    · have hle := ((cutAt_cons_iff hpos).mp hc).1
      rw [List.length_cons, List.length_cons] at hle
      obtain ⟨d, rfl⟩ : ∃ d, c = d + (frame.bytes.length + 2) :=
        ⟨c - (frame.bytes.length + 2), by omega⟩
      rw [hgood]
      rcases Nat.eq_zero_or_pos d with rfl | hd
      · exact goodCut_zero frames
      · exact hcuts d ((cutAt_take_iff hlen hd).mp hc)

theorem readable_iff {chunks : List (List (Cell Byte))} :
    Readable chunks host frames ↔ (∀ c, CutAt chunks c →
      goodCut (handleFrames host) (fun _ => true) waitsFor frames c = true) ∧
        SizesKept chunks 0 frames :=
  ⟨fun h => ⟨h.cuts, h.sizes⟩, fun h => ⟨h.1, h.2⟩⟩

theorem readable_take (hlen : frame.bytes.length ≤ rest.length) :
    Readable ((a₀ :: a₁ :: rest) :: ks) host (frame :: frames) ↔
      2 < firstChain (pullup 2 (a₀ :: a₁ :: rest)) ∧
        Readable (rest.drop frame.bytes.length :: ks) host frames := by
  have hsizes : SizesKept ((a₀ :: a₁ :: rest) :: ks) (0 + (frame.bytes.length + 2)) frames ↔
      SizesKept (rest.drop frame.bytes.length :: ks) 0 frames :=
    sizesKept_congr (fun c hc => cutAt_take_iff hlen (by omega)) (fun c _ => startsAt_take_iff hlen)
  have hnil : rest = [] → frame.bytes = [] := by
    rintro rfl
    exact List.length_eq_zero_iff.mp (Nat.le_zero.mp hlen)
  rw [readable_iff, readable_iff, goodCut_take_iff hlen, SizesKept, hsizes, sizeKept_zero_iff hnil]
  exact and_left_comm

theorem getElem?_startHead {l m : List (Cell Byte)} (hc : 1 ≤ c) :
    (startHead l ++ m)[c]? = (l ++ m)[c]? := by
  obtain ⟨c, rfl⟩ : ∃ d, c = d + 1 := ⟨c - 1, by omega⟩
  cases l <;> rfl

theorem getElem?_pullup {m : List (Cell Byte)} (hc : 3 ≤ c) :
    (pullup 2 (a₀ :: a₁ :: rest) ++ m)[c]? = (a₀ :: a₁ :: rest ++ m)[c]? := by
  obtain ⟨c, rfl⟩ : ∃ d, c = d + 2 := ⟨c - 2, by omega⟩
  rw [pullup_two]
  split
  · exact getElem?_startHead (by omega)
  · rfl

theorem sizeKept_wait (hrest : frame.bytes ≠ []) (a₀ a₁ : Cell Byte) (rest k : List (Cell Byte))
    (ks : List (List (Cell Byte))) :
    SizeKept ((a₀ :: a₁ :: rest) :: k :: ks) frame 0 ↔
      SizeKept ((pullup 2 (a₀ :: a₁ :: rest) ++ k) :: ks) frame 0 := by
  have hcut : CutAt ((a₀ :: a₁ :: rest) :: k :: ks) (0 + 2) ↔ rest = [] := cutAt_two_iff
  have hflat : (pullup 2 (a₀ :: a₁ :: rest) ++ k) ++ ks.flatten =
      pullup 2 (a₀ :: a₁ :: rest) ++ (k ++ ks.flatten) := List.append_assoc ..
  have hold : SizeKept ((a₀ :: a₁ :: rest) :: k :: ks) frame 0 ↔
      ¬ StartsAt ((a₀ :: a₁ :: rest) :: k :: ks) 2 ∧ (a₁.starts = true → rest = []) := by
    rw [← startsAt_one a₀ a₁ rest (k :: ks), ← hcut]
    constructor
    · rintro ⟨-, hend, hwhole⟩
      exact ⟨hend, hwhole⟩
    · rintro ⟨hend, hwhole⟩
      exact ⟨fun hnil => absurd hnil hrest, hend, hwhole⟩
  have hnew : SizeKept ((pullup 2 (a₀ :: a₁ :: rest) ++ k) :: ks) frame 0 ↔
      ¬ StartsAt ((pullup 2 (a₀ :: a₁ :: rest) ++ k) :: ks) 2 := by
    constructor
    · rintro ⟨-, hend, -⟩
      exact hend
    · intro hend
      refine ⟨fun hnil => absurd hnil hrest, hend, ?_⟩
      rintro ⟨cell, hcell, hstarts⟩
      rw [List.flatten_cons, pullup_two] at hcell
      split at hcell
      · obtain rfl := Option.some.inj hcell
        cases hstarts
      · next hfalse =>
        obtain rfl := Option.some.inj hcell
        exact absurd hstarts hfalse
  rw [hold, hnew, StartsAt, StartsAt, List.flatten_cons, List.flatten_cons, List.flatten_cons,
    hflat, pullup_two]
  cases h₁ : a₁.starts with
  | false => simp
  | true => cases rest <;> simp [startHead]

theorem cutAt_join_iff (hc : 0 < c) (hne : c ≠ b.length) :
    CutAt (b :: k :: ks) c ↔ CutAt ((pullup 2 b ++ k) :: ks) c := by
  rw [cutAt_cons_iff hc, cutAt_cons_iff hc, List.length_append, length_pullup]
  by_cases hle : b.length ≤ c
  · rw [cutAt_cons_iff (by omega), Nat.sub_sub, ← and_assoc]
    exact and_congr_left fun _ => by omega
  · exact iff_of_false (fun h => hle h.1) (fun h => hle (by omega))

theorem startsAt_join_iff (hc : 3 ≤ c) :
    StartsAt ((a₀ :: a₁ :: rest) :: k :: ks) c ↔
      StartsAt ((pullup 2 (a₀ :: a₁ :: rest) ++ k) :: ks) c := by
  rw [StartsAt, StartsAt, List.flatten_cons, List.flatten_cons, List.flatten_cons,
    List.append_assoc, getElem?_pullup hc]

theorem goodCut_join_iff (hgood : goodCut (handleFrames host) (fun _ => true) waitsFor frames
      b.length = true) :
    (∀ c, CutAt (b :: k :: ks) c →
        goodCut (handleFrames host) (fun _ => true) waitsFor frames c = true) ↔
      ∀ c, CutAt ((pullup 2 b ++ k) :: ks) c →
        goodCut (handleFrames host) (fun _ => true) waitsFor frames c = true := by
  apply forall_congr'
  intro c
  rcases Nat.eq_zero_or_pos c with rfl | hpos
  · exact iff_of_true (fun _ => goodCut_zero frames) (fun _ => goodCut_zero frames)
  · by_cases hne : c = b.length
    · rw [hne, hgood]
      exact iff_of_true (fun _ => rfl) (fun _ => rfl)
    · rw [cutAt_join_iff hpos hne]

theorem readable_wait (hwait : rest.length + 2 < frame.bytes.length) :
    Readable ((a₀ :: a₁ :: rest) :: k :: ks) host (frame :: frames) ↔
      Readable ((pullup 2 (a₀ :: a₁ :: rest) ++ k) :: ks) host (frame :: frames) := by
  have hnil : frame.bytes ≠ [] := List.ne_nil_of_length_pos (by omega)
  have hsizes : SizesKept ((a₀ :: a₁ :: rest) :: k :: ks) (0 + (frame.bytes.length + 2) + 0)
      frames ↔ SizesKept ((pullup 2 (a₀ :: a₁ :: rest) ++ k) :: ks)
        (0 + (frame.bytes.length + 2)) frames :=
    sizesKept_congr (fun c hc => cutAt_join_iff (by omega) (by simp only [List.length_cons]; omega))
      (fun c hc => startsAt_join_iff (by omega))
  have hgood : goodCut (handleFrames host) (fun _ => true) waitsFor (frame :: frames)
      (a₀ :: a₁ :: rest).length = true := by
    rw [goodCut_of_lt rfl (by rw [length_handleFrames]; simp only [List.length_cons]; omega)]
    simpa [waitsFor] using hwait
  rw [readable_iff, readable_iff, goodCut_join_iff hgood, SizesKept, SizesKept,
    sizeKept_wait hnil, ← hsizes]
  rfl

end Readable

/-! ## The reader -/

section Reader

variable {host : Endian} {malloc : ℕ → ∀ n, Block n} {framesToSend : List Frame}
  {b k : List (Cell Byte)} {ks : List (List (Cell Byte))} {a₀ a₁ : Cell Byte}
  {rest : List (Cell Byte)}

theorem pipeReadCbLoop_fuel {m n : ℕ} {s : PipeReader} (hm : s.input.length ≤ m)
    (hn : s.input.length ≤ n) :
    pipeReadCbLoop host malloc m s = pipeReadCbLoop host malloc n s := by
  induction m generalizing n s with
  | zero =>
    have hnil : s.input = [] := List.length_eq_zero_iff.mp (Nat.le_zero.mp hm)
    cases n with
    | zero => rfl
    | succ n => simp [pipeReadCbLoop, hnil, pullup]
  | succ m ih =>
    cases n with
    | zero =>
      have hnil : s.input = [] := List.length_eq_zero_iff.mp (Nat.le_zero.mp hn)
      simp [pipeReadCbLoop, hnil, pullup]
    | succ n =>
      rw [pipeReadCbLoop, pipeReadCbLoop]
      have hlen := length_pullup 2 s.input
      split
      · rfl
      · rfl
      · next b₀ b₁ rest hcells =>
        rw [hcells, List.length_cons, List.length_cons] at hlen
        simp only
        split
        · rfl
        · split
          · rfl
          · split
            · rfl
            · apply ih
              · simp only [List.length_drop]
                omega
              · simp only [List.length_drop]
                omega

theorem foldl_of_fault {s : PipeReader} (h : s.fault = true) :
    (ks.foldl (pipeReadCb host malloc) s).fault = true := by
  induction ks with
  | nil => exact h
  | cons k ks ih => rwa [List.foldl_cons, pipeReadCb, if_pos h]

theorem pipeReadCbs_of_fault
    (h : (pipeReadCb host malloc { framesToSend := framesToSend } b).fault = true) :
    (pipeReadCbs host malloc framesToSend (b :: ks)).fault = true := by
  rw [pipeReadCbs, List.foldl_cons]
  exact foldl_of_fault h

theorem pipeReadCbs_nil_cons :
    pipeReadCbs host malloc framesToSend ([] :: ks) = pipeReadCbs host malloc framesToSend ks := rfl

theorem pipeReadCbs_singleton (a : Cell Byte) :
    (pipeReadCbs host malloc framesToSend ([a] :: ks)).fault = true := by
  apply pipeReadCbs_of_fault
  simp [pipeReadCb, pipeReadCbLoop, pullup, firstChain]

theorem pipeReadCb_cells (h : pullup 2 b = a₀ :: a₁ :: rest) :
    pipeReadCb host malloc { framesToSend := framesToSend } b =
      if exceeds (load host a₀.value a₁.value) (rest.length + 2) then
        { input := a₀ :: a₁ :: rest, framesToSend := framesToSend }
      else if firstChain (a₀ :: a₁ :: rest) ≤ 2 then
        { input := b, framesToSend := framesToSend, fault := true }
      else if rest.length < (load host a₀.value a₁.value).toNat then
        { input := b, framesToSend := framesToSend, fault := true }
      else pipeReadCb host malloc
        { framesToSend := pushFrame malloc framesToSend
            (values (rest.take (load host a₀.value a₁.value).toNat)) }
        (rest.drop (load host a₀.value a₁.value).toNat) := by
  have hlen := length_pullup 2 b
  rw [h, List.length_cons, List.length_cons] at hlen
  rw [pipeReadCb, if_neg (by simp), List.nil_append, ← hlen, pipeReadCbLoop, h]
  simp only [pipeReadCb, List.nil_append]
  congr 3
  apply pipeReadCbLoop_fuel
  · simp only [List.length_drop]
    omega
  · exact le_rfl

theorem pipeReadCbs_wait (h : pullup 2 b = a₀ :: a₁ :: rest)
    (hexceeds : exceeds (load host a₀.value a₁.value) (rest.length + 2) = true) :
    pipeReadCbs host malloc framesToSend (b :: k :: ks) =
      pipeReadCbs host malloc framesToSend ((pullup 2 b ++ k) :: ks) := by
  rw [pipeReadCbs, List.foldl_cons, pipeReadCb_cells h, if_pos hexceeds, ← h]
  rfl

variable {frame : DeviceFrame} {frames : List DeviceFrame} {c : ℕ}

theorem not_readable_of_short (hb : b ≠ []) (hlt : b.length < frame.bytes.length + 2)
    (hwait : waitsFor frame b.length = false) :
    ¬ Readable (b :: ks) host (frame :: frames) := by
  intro h
  have hpos := List.length_pos_of_ne_nil hb
  have hcut : CutAt (b :: ks) b.length :=
    (cutAt_cons_iff hpos).mpr ⟨le_rfl, by rw [Nat.sub_self]; exact cutAt_zero⟩
  have hgood := h.cuts _ hcut
  rw [goodCut_of_lt rfl (by rwa [length_handleFrames]), hwait] at hgood
  simp [hpos.ne'] at hgood

theorem exists_cells {more : List Byte} (h : values (a₀ :: a₁ :: rest) ++ more =
      handleFrames host frame ++ frames.flatMap (handleFrames host)) :
    (load host a₀.value a₁.value).toNat = frame.bytes.length ∧
      (∀ len, exceeds (load host a₀.value a₁.value) len = true ↔ len < frame.bytes.length) ∧
      values rest ++ more = frame.bytes ++ frames.flatMap (handleFrames host) := by
  obtain ⟨b₀, b₁, heq, hsize, hexceeds⟩ := handleFrames_eq host frame
  rw [heq, values_cons, values_cons] at h
  obtain ⟨rfl, htail⟩ := List.cons.inj h
  obtain ⟨rfl, hrest⟩ := List.cons.inj htail
  exact ⟨hsize, hexceeds, hrest⟩

theorem exists_pullup_two (a₀ a₁ : Cell Byte) (rest : List (Cell Byte)) :
    ∃ c₀ c₁ tail, pullup 2 (a₀ :: a₁ :: rest) = c₀ :: c₁ :: tail ∧ c₀.value = a₀.value ∧
      c₁.value = a₁.value ∧ tail.length = rest.length := by
  rw [pullup_two]
  split
  · refine ⟨_, _, _, rfl, rfl, rfl, ?_⟩
    cases rest <;> rfl
  · exact ⟨_, _, _, rfl, rfl, rfl, rfl⟩

theorem pipeReadCbs_take (malloc : ℕ → ∀ n, Block n) (framesToSend : List Frame)
    (ks : List (List (Cell Byte)))
    (hsize : (load host a₀.value a₁.value).toNat = frame.bytes.length)
    (hexceeds : exceeds (load host a₀.value a₁.value) (rest.length + 2) = false)
    (hlen : frame.bytes.length ≤ rest.length)
    (hbytes : values (rest.take frame.bytes.length) = frame.bytes) :
    (2 < firstChain (pullup 2 (a₀ :: a₁ :: rest)) →
      pipeReadCbs host malloc framesToSend ((a₀ :: a₁ :: rest) :: ks) =
        pipeReadCbs host malloc (pushFrame malloc framesToSend frame.bytes)
          (rest.drop frame.bytes.length :: ks)) ∧
    (¬ 2 < firstChain (pullup 2 (a₀ :: a₁ :: rest)) →
      (pipeReadCbs host malloc framesToSend ((a₀ :: a₁ :: rest) :: ks)).fault = true) := by
  constructor
  · intro hchain
    have hsame : pullup 2 (a₀ :: a₁ :: rest) = a₀ :: a₁ :: rest := by
      rw [pullup_two] at hchain ⊢
      split at hchain
      · cases rest <;> simp [firstChain, startHead] at hchain
      · next hfalse => exact if_neg hfalse
    rw [hsame] at hchain
    rw [pipeReadCbs, List.foldl_cons, pipeReadCb_cells hsame, hexceeds, hsize, hbytes,
      if_neg (by simp), if_neg (by omega), if_neg (by omega)]
    rfl
  · intro hchain
    obtain ⟨c₀, c₁, tail, hpull, h₀, h₁, htail⟩ := exists_pullup_two a₀ a₁ rest
    apply pipeReadCbs_of_fault
    rw [hpull] at hchain
    rw [pipeReadCb_cells hpull, h₀, h₁, htail, hexceeds, if_neg (by simp), if_pos (by omega)]

theorem pipeReadCbs_part (malloc : ℕ → ∀ n, Block n) (framesToSend : List Frame)
    (k : List (Cell Byte)) (ks : List (List (Cell Byte)))
    (hsize : (load host a₀.value a₁.value).toNat = frame.bytes.length)
    (hexceeds : ∀ len, exceeds (load host a₀.value a₁.value) len = true ↔
      len < frame.bytes.length) (hlen : rest.length < frame.bytes.length) :
    (rest.length + 2 < frame.bytes.length →
      pipeReadCbs host malloc framesToSend ((a₀ :: a₁ :: rest) :: k :: ks) =
        pipeReadCbs host malloc framesToSend ((pullup 2 (a₀ :: a₁ :: rest) ++ k) :: ks)) ∧
    (¬ rest.length + 2 < frame.bytes.length →
      (pipeReadCbs host malloc framesToSend ((a₀ :: a₁ :: rest) :: ks)).fault = true) := by
  obtain ⟨c₀, c₁, tail, hpull, h₀, h₁, htail⟩ := exists_pullup_two a₀ a₁ rest
  constructor
  · intro hwait
    apply pipeReadCbs_wait hpull
    rw [h₀, h₁, htail]
    exact (hexceeds _).mpr hwait
  · intro hshort
    apply pipeReadCbs_of_fault
    rw [pipeReadCb_cells hpull, h₀, h₁, htail, if_neg (fun h => hshort ((hexceeds _).mp h)), hsize,
      if_pos hlen, ite_self]

/--
The reader never reads what is not in its buffer exactly if the stream is readable, and has then
taken all frames.
-/
structure ReadsAll (host : Endian) (malloc : ℕ → ∀ n, Block n) (framesToSend : List Frame)
    (chunks : List (List (Cell Byte))) (frames : List DeviceFrame) : Prop where
  fault_iff : (pipeReadCbs host malloc framesToSend chunks).fault = false ↔
    Readable chunks host frames
  taken : Readable chunks host frames →
    (pipeReadCbs host malloc framesToSend chunks).framesToSend =
      (frames.map DeviceFrame.bytes).foldl (pushFrame malloc) framesToSend

theorem readsAll_of_fault {chunks : List (List (Cell Byte))}
    (hfault : (pipeReadCbs host malloc framesToSend chunks).fault = true)
    (hnot : ¬ Readable chunks host frames) : ReadsAll host malloc framesToSend chunks frames := by
  refine ⟨iff_of_false ?_ hnot, fun hread => absurd hread hnot⟩
  rw [hfault]
  exact Bool.noConfusion

section Frame

variable (hsize : (load host a₀.value a₁.value).toNat = frame.bytes.length)
  (hexceeds : ∀ len, exceeds (load host a₀.value a₁.value) len = true ↔ len < frame.bytes.length)

include hsize hexceeds

theorem readsAll_take (hlen : frame.bytes.length ≤ rest.length)
    (hbytes : values (rest.take frame.bytes.length) = frame.bytes)
    (hnext : ReadsAll host malloc (pushFrame malloc framesToSend frame.bytes)
      (rest.drop frame.bytes.length :: ks) frames) :
    ReadsAll host malloc framesToSend ((a₀ :: a₁ :: rest) :: ks) (frame :: frames) := by
  have hnot : exceeds (load host a₀.value a₁.value) (rest.length + 2) = false := by
    rw [Bool.eq_false_iff, Ne, hexceeds]
    omega
  obtain ⟨hgo, hstop⟩ := pipeReadCbs_take malloc framesToSend ks hsize hnot hlen hbytes
  by_cases hchain : 2 < firstChain (pullup 2 (a₀ :: a₁ :: rest))
  · constructor
    · rw [hgo hchain, readable_take hlen, hnext.fault_iff, and_iff_right hchain]
    · rw [hgo hchain, readable_take hlen]
      exact fun hread => hnext.taken hread.2
  · apply readsAll_of_fault (hstop hchain)
    rw [readable_take hlen]
    exact fun hread => hchain hread.1

theorem readsAll_wait (hwait : rest.length + 2 < frame.bytes.length)
    (hnext : ReadsAll host malloc framesToSend ((pullup 2 (a₀ :: a₁ :: rest) ++ k) :: ks)
      (frame :: frames)) :
    ReadsAll host malloc framesToSend ((a₀ :: a₁ :: rest) :: k :: ks) (frame :: frames) := by
  obtain ⟨hgo, -⟩ := pipeReadCbs_part malloc framesToSend k ks hsize hexceeds
    (by omega : rest.length < frame.bytes.length)
  constructor
  · rw [hgo hwait, readable_wait hwait, hnext.fault_iff]
  · rw [hgo hwait, readable_wait hwait]
    exact hnext.taken

theorem readsAll_short (hshort : rest.length < frame.bytes.length)
    (hwait : ¬ rest.length + 2 < frame.bytes.length) :
    ReadsAll host malloc framesToSend ((a₀ :: a₁ :: rest) :: ks) (frame :: frames) := by
  obtain ⟨-, hstop⟩ := pipeReadCbs_part malloc framesToSend [] ks hsize hexceeds hshort
  apply readsAll_of_fault (hstop hwait)
  apply not_readable_of_short (by simp)
  · simpa using hshort
  · simpa [waitsFor] using hwait

end Frame

theorem readsAll_pipeReadCbs (malloc : ℕ → ∀ n, Block n) (frames : List DeviceFrame)
    (chunks : List (List (Cell Byte))) (framesToSend : List Frame)
    (h : values chunks.flatten = frames.flatMap (handleFrames host)) :
    ReadsAll host malloc framesToSend chunks frames := by
  -- a chunk is joined to the buffer, or a frame is taken from it
  induction hn : chunks.flatten.length + chunks.length using Nat.strong_induction_on
    generalizing chunks frames framesToSend with
  | _ n ih =>
  match chunks, frames with
  | [], [] => exact ⟨iff_of_true rfl ⟨fun _ _ => rfl, trivial⟩, fun _ => rfl⟩
  | [], frame :: frames =>
    have hlen := congrArg List.length h
    rw [List.flatMap_cons, List.length_append, length_handleFrames, List.flatten_nil, values_nil,
      List.length_nil] at hlen
    omega
  | [] :: ks, frames =>
    obtain ⟨hiff, hall⟩ := ih _ (by rw [← hn]; simp) frames ks framesToSend h rfl
    exact ⟨hiff.trans readable_nil_cons.symm, fun hread => hall (readable_nil_cons.mp hread)⟩
  | (a :: b) :: ks, [] => cases h
  | [a] :: ks, frame :: frames =>
    exact readsAll_of_fault (pipeReadCbs_singleton a)
      (not_readable_of_short (by simp) (by simp) (by simp [waitsFor]))
  | (a₀ :: a₁ :: rest) :: ks, frame :: frames =>
    rw [List.flatten_cons, values_append] at h
    obtain ⟨hsize, hexceeds, hbytes⟩ := exists_cells h
    by_cases hlen : frame.bytes.length ≤ rest.length
    · apply readsAll_take hsize hexceeds hlen
      · have htaken := congrArg (List.take frame.bytes.length) hbytes
        rwa [List.take_left, List.take_append_of_le_length (by rwa [length_values]),
          ← values_take] at htaken
      · apply ih _ _ frames _ _ _ rfl
        · rw [← hn]
          simp only [List.flatten_cons, List.length_append, List.length_drop, List.length_cons]
          omega
        · have hdropped := congrArg (List.drop frame.bytes.length) hbytes
          rwa [List.drop_left, List.drop_append_of_le_length (by rwa [length_values]),
            ← values_drop, ← values_append] at hdropped
    · by_cases hwait : rest.length + 2 < frame.bytes.length
      · match ks with
        | [] =>
          have hfull := congrArg List.length hbytes
          simp only [List.flatten_nil, values_nil, List.append_nil, length_values,
            List.length_append] at hfull
          omega
        | k :: ks =>
          apply readsAll_wait hsize hexceeds hwait
          apply ih _ _ (frame :: frames) _ framesToSend _ rfl
          · rw [← hn]
            simp only [List.flatten_cons, List.length_append, List.length_cons, length_pullup]
            omega
          · rw [List.flatten_cons, values_append, values_append, values_pullup]
            rw [List.flatten_cons, values_append, ← List.append_assoc] at h
            exact h
      · exact readsAll_short hsize hexceeds (Nat.lt_of_not_le hlen) hwait

/-- The size and the bytes of a frame of `frames_to_send`. -/
def contents (f : Frame) : ℕ × List Byte := (f.size.toNat, f.frame)

theorem contents_pushFrame (framesToSend : List Frame) (frame : DeviceFrame) :
    (pushFrame malloc framesToSend frame.bytes).map contents =
      framesToSend.map contents ++ [(frame.bytes.length, frame.bytes)] := by
  have hlen := (malloc framesToSend.length (frame.bytes.length + sizeofPacketHdr)).2
  rw [pushFrame, List.map_append, List.map_singleton, contents, Frame.frame]
  simp only [frameAlloc]
  rw [toNat_length, drop_overwrite _ _ (by omega), List.drop_eq_nil_of_le (by omega),
    List.append_nil]

theorem contents_foldl_pushFrame (framesToSend : List Frame) (frames : List DeviceFrame) :
    ((frames.map DeviceFrame.bytes).foldl (pushFrame malloc) framesToSend).map contents =
      framesToSend.map contents ++ frames.map fun frame => (frame.bytes.length, frame.bytes) := by
  induction frames generalizing framesToSend with
  | nil => simp
  | cons frame frames ih =>
    rw [List.map_cons, List.foldl_cons, ih, contents_pushFrame, List.map_cons, List.append_assoc]
    rfl

/--
However the stream of the frames is cut and wherever the chains of the input buffer begin: the
frames reach `frames_to_send`, and nothing is read that is not in the buffer, exactly when
every cut leaves nothing of the next frame, or its size and fewer bytes altogether than this
size, and when no size is the end of a chain by the time it is drained.
-/
theorem pipe_read_cb_exact_iff (frames : List DeviceFrame) (chunks : List (List (Cell Byte)))
    (hchunks : values chunks.flatten = frames.flatMap (handleFrames host)) :
    ((pipeReadCbs host malloc [] chunks).fault = false ∧
      (pipeReadCbs host malloc [] chunks).framesToSend.map contents =
        frames.map fun frame => (frame.bytes.length, frame.bytes)) ↔
    Readable chunks host frames := by
  obtain ⟨hiff, hall⟩ := readsAll_pipeReadCbs malloc frames chunks [] hchunks
  rw [hiff]
  constructor
  · rintro ⟨hread, -⟩
    exact hread
  · intro hread
    refine ⟨hread, ?_⟩
    rw [hall hread]
    exact contents_foldl_pushFrame [] frames

/-- Three frames, the second of them empty, a cut after the size and one byte of the first, and
a chain that begins inside the first. -/
theorem pipe_read_cb_exact_three :
    let frames : List DeviceFrame := [⟨[1, 2, 3, 4], by decide⟩, ⟨[], by decide⟩, ⟨[5], by decide⟩]
    let chunks : List (List (Cell Byte)) := [[⟨4, true⟩, ⟨0, false⟩, ⟨1, false⟩],
      [⟨2, true⟩, ⟨3, false⟩, ⟨4, false⟩, ⟨0, false⟩, ⟨0, false⟩, ⟨1, false⟩, ⟨0, false⟩,
        ⟨5, false⟩]]
    let malloc : ℕ → ∀ n, Block n := fun _ n => ⟨List.replicate n 0, List.length_replicate⟩
    (pipeReadCbs .little malloc [] chunks).fault = false ∧
      (pipeReadCbs .little malloc [] chunks).framesToSend.map contents =
        frames.map fun frame => (frame.bytes.length, frame.bytes) :=
  (pipe_read_cb_exact_iff _ _ (by decide)).mpr (by decide)

/-- A cut inside a size, one that leaves one byte of a frame missing, and an empty frame at the end
of a chunk. -/
theorem pipe_read_cb_not_exact :
    let malloc : ℕ → ∀ n, Block n := fun _ n => ⟨List.replicate n 0, List.length_replicate⟩
    let inSize : List (List (Cell Byte)) :=
      [[⟨3, true⟩], [⟨0, false⟩, ⟨7, false⟩, ⟨8, false⟩, ⟨9, false⟩]]
    let oneMissing : List (List (Cell Byte)) :=
      [[⟨3, true⟩, ⟨0, false⟩, ⟨7, false⟩, ⟨8, false⟩], [⟨9, false⟩]]
    let empty : List (List (Cell Byte)) := [[⟨0, true⟩, ⟨0, false⟩]]
    values inSize.flatten = [⟨[7, 8, 9], by decide⟩].flatMap (handleFrames .little) ∧
      values oneMissing.flatten = [⟨[7, 8, 9], by decide⟩].flatMap (handleFrames .little) ∧
      values empty.flatten = [⟨[], by decide⟩].flatMap (handleFrames .little) ∧
      (pipeReadCbs .little malloc [] inSize).fault = true ∧
      (pipeReadCbs .little malloc [] oneMissing).fault = true ∧
      (pipeReadCbs .little malloc [] empty).fault = true := by
  decide

end Reader

end Tnetacle.Windows
