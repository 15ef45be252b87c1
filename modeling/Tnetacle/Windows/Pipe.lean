import Tnetacle.Library.Framing
import Tnetacle.Tunnel.Frame

/-! # The pipes of the Windows device thread

On Windows a thread of its own reads and writes the tap device. Frames go through pipes in
both directions, as their size in the byte order of the host and their bytes, and
arrive in whatever pieces the pipe makes of them. An input buffer holds fewer bytes than
any negative number converted to `size_t`.
-/

namespace Tnetacle.Windows

open ByteOrder Memory Framing Tunnel

/-- `size > len`, where the `short` is converted to the type of the length. -/
def exceeds (size : Word) (len : ℕ) : Bool := size.toInt < 0 || len < size.toNat

section FromDevice

variable (host : Endian)

structure DeviceFrame where
  bytes : List Byte
  le : bytes.length ≤ 2048
  deriving DecidableEq

/-- `handle_frames`: the packet that it sends to the other thread. -/
def handleFrames (frame : DeviceFrame) : List Byte :=
  let frameSize : Word := BitVec.ofNat 16 frame.bytes.length
  store host frameSize ++ frame.bytes.take frameSize.toNat

end FromDevice

section ToDevice

variable (host : Endian)

/-- A frame whose block holds as many bytes as its size says. -/
structure WholeFrame where
  frame : Frame
  le : frame.size.toNat ≤ frame.frame.length

def WholeFrame.bytes (f : WholeFrame) : List Byte := f.frame.frame.take f.frame.size.toNat

def sendBufferToDeviceThread (f : WholeFrame) : List Byte := store host f.frame.size ++ f.bytes

/-- The body of the loop of `pipe_read`. -/
def pipeReadNext (evb : List Byte) : Next (List Byte) Byte :=
  match evb with
  | b₀ :: b₁ :: rest =>
    let frameSize := load host b₀ b₁
    if exceeds frameSize rest.length then .wait
    else .take (rest.take frameSize.toNat) (rest.drop frameSize.toNat)
  | _ => .wait

/-- A chunk is appended to the buffer and `pipe_read` is run; the sink is the calls of
`WriteFile`. -/
def pipeRead : Feed (List (List Byte)) Byte → List Byte → Feed (List (List Byte)) Byte :=
  feed (pipeReadNext host) fun writes bytes => writes ++ [bytes]

end ToDevice

/-! ## Device to network -/

section FromDevice

variable {host : Endian}

theorem toNat_length (frame : DeviceFrame) :
    (BitVec.ofNat 16 frame.bytes.length : Word).toNat = frame.bytes.length := by
  have hle := frame.le
  rw [BitVec.toNat_ofNat, Nat.mod_eq_of_lt (by omega)]

theorem handleFrames_eq (host : Endian) (frame : DeviceFrame) :
    ∃ b₀ b₁, handleFrames host frame = b₀ :: b₁ :: frame.bytes ∧
      (load host b₀ b₁).toNat = frame.bytes.length ∧
        ∀ len, exceeds (load host b₀ b₁) len = true ↔ len < frame.bytes.length := by
  have hle := frame.le
  obtain ⟨b₀, b₁, hstore, hload⟩ := exists_store_eq host (BitVec.ofNat 16 frame.bytes.length)
  refine ⟨b₀, b₁, ?_, ?_, ?_⟩
  · rw [handleFrames, hstore, toNat_length, List.take_length]
    rfl
  · rw [hload, toNat_length]
  · intro len
    have hnot : ¬ (BitVec.ofNat 16 frame.bytes.length : Word).toInt < 0 := by
      rw [toInt_neg_iff, toNat_length]
      omega
    rw [hload, exceeds, toNat_length]
    simp [hnot]

end FromDevice

/-! ## Network to device -/

section ToDevice

variable {host : Endian}

theorem exceeds_eq_true_iff (size : Word) (len : ℕ) :
    exceeds size len = true ↔ 32768 ≤ size.toNat ∨ len < size.toNat := by
  rw [exceeds, Bool.or_eq_true, decide_eq_true_iff, decide_eq_true_iff, toInt_neg_iff]

theorem WholeFrame.length_bytes (f : WholeFrame) : f.bytes.length = f.frame.size.toNat := by
  rw [bytes, List.length_take, Nat.min_eq_left f.le]

theorem sendBufferToDeviceThread_eq (host : Endian) (f : WholeFrame) :
    ∃ b₀ b₁, sendBufferToDeviceThread host f = b₀ :: b₁ :: f.bytes ∧
      load host b₀ b₁ = f.frame.size := by
  obtain ⟨b₀, b₁, hstore, hload⟩ := exists_store_eq host f.frame.size
  exact ⟨b₀, b₁, by rw [sendBufferToDeviceThread, hstore]; rfl, hload⟩

def WholeFrame.fits (f : WholeFrame) : Bool := f.frame.size.toNat ≤ 32767

/-- `pipe_read` waits for ever for a frame whose size it reads as a negative number. -/
theorem pipeReadNext_wait {f : WholeFrame} {b₀ b₁ : Byte} (hload : load host b₀ b₁ = f.frame.size)
    {rest : List Byte} (h : 32768 ≤ f.frame.size.toNat ∨ rest.length < f.frame.size.toNat) :
    pipeReadNext host (b₀ :: b₁ :: rest) = .wait := by
  rw [pipeReadNext, hload, if_pos ((exceeds_eq_true_iff _ _).mpr h)]

theorem reads_pipeRead : Reads (pipeReadNext host) (sendBufferToDeviceThread host)
    WholeFrame.bytes WholeFrame.fits (fun _ _ => true) := by
  constructor
  · intro f
    obtain ⟨b₀, b₁, heq, -⟩ := sendBufferToDeviceThread_eq host f
    simp [heq]
  · intro f rest hfits
    obtain ⟨b₀, b₁, heq, hload⟩ := sendBufferToDeviceThread_eq host f
    have hle : f.frame.size.toNat ≤ 32767 := of_decide_eq_true hfits
    have hlen := f.length_bytes
    have hnot : ¬ exceeds f.frame.size (f.bytes ++ rest).length = true := by
      rw [exceeds_eq_true_iff, List.length_append]
      omega
    rw [heq, List.cons_append, List.cons_append, pipeReadNext, hload, if_neg hnot, ← hlen,
      List.take_left, List.drop_left]
  · intro f n _ hn hlt
    obtain ⟨b₀, b₁, heq, hload⟩ := sendBufferToDeviceThread_eq host f
    have hlen := f.length_bytes
    rw [heq] at hlt ⊢
    match n with
    | 1 => rfl
    | m + 2 =>
      apply pipeReadNext_wait hload
      right
      simp only [List.length_cons] at hlt
      rw [List.length_take]
      omega
  · intro f rest n hfits hn
    obtain ⟨b₀, b₁, heq, hload⟩ := sendBufferToDeviceThread_eq host f
    have hlt : ¬ f.frame.size.toNat ≤ 32767 := of_decide_eq_false hfits
    rw [heq, List.cons_append, List.cons_append]
    match n with
    | 1 => rfl
    | m + 2 =>
      apply pipeReadNext_wait hload
      left
      omega

/-- However the stream is cut, the frames before the first one of a negative size are written,
and the rest stays in the buffer. -/
theorem pipeRead_eq {frames : List WholeFrame} {chunks : List (List Byte)}
    (hchunks : chunks.flatten = frames.flatMap (sendBufferToDeviceThread host)) :
    chunks.foldl (pipeRead host) { sink := [] } =
      ⟨(frames.dropWhile WholeFrame.fits).flatMap (sendBufferToDeviceThread host),
        (frames.takeWhile WholeFrame.fits).map WholeFrame.bytes, false⟩ := by
  obtain ⟨hiff, hdone⟩ := foldl_feed reads_pipeRead
    (fun writes bytes => writes ++ [bytes]) hchunks []
  have hgood : ∀ as c, goodCut (sendBufferToDeviceThread host) WholeFrame.fits (fun _ _ => true)
      as c = true := by
    intro as c
    rw [goodCut]
    split <;> simp
  rw [pipeRead, hdone (hiff.mpr fun cs _ => hgood frames _), List.foldl_append_eq_append,
    List.nil_append, ← List.flatMap_def, List.flatMap_singleton']
  rfl

/--
However the stream of the frames is cut, `WriteFile` is called once for each frame, in order
and with its bytes, and the buffer is empty after the last chunk, exactly when no frame is
longer than the greatest `short`.
-/
theorem pipe_read_exact_iff (frames : List WholeFrame) (chunks : List (List Byte))
    (hchunks : chunks.flatten = frames.flatMap (sendBufferToDeviceThread host)) :
    ((chunks.foldl (pipeRead host) { sink := [] }).sink = frames.map WholeFrame.bytes ∧
      (chunks.foldl (pipeRead host) { sink := [] }).buffer = []) ↔
    ∀ f ∈ frames, f.frame.size.toNat ≤ 32767 := by
  rw [pipeRead_eq hchunks]
  have hfits : (∀ f ∈ frames, f.frame.size.toNat ≤ 32767) ↔ ∀ f ∈ frames, f.fits = true := by
    simp only [WholeFrame.fits, decide_eq_true_iff]
  rw [hfits]
  constructor
  · rintro ⟨-, hbuffer⟩
    have hnil : frames.dropWhile WholeFrame.fits = [] := by
      rw [List.eq_nil_iff_forall_not_mem]
      intro f hf
      obtain ⟨b₀, b₁, heq, -⟩ := sendBufferToDeviceThread_eq host f
      exact absurd (heq.symm.trans (List.flatMap_eq_nil_iff.mp hbuffer f hf)) (by simp)
    exact List.dropWhile_eq_nil_iff.mp hnil
  · intro hall
    simp only [List.dropWhile_eq_nil_iff.mpr hall, List.takeWhile_eq_self_iff.mpr hall]
    exact ⟨trivial, List.flatMap_nil⟩

/-- A frame with its bytes and an empty one, cut inside the sizes and between the frames. -/
theorem pipe_read_exact_two :
    let frames : List WholeFrame := [⟨⟨2, [0, 0, 8, 9]⟩, by decide⟩, ⟨⟨0, [0, 0]⟩, by decide⟩]
    let chunks : List (List Byte) := [[0], [2, 8], [9, 0], [0]]
    (chunks.foldl (pipeRead .big) { sink := [] }).sink = frames.map WholeFrame.bytes ∧
      (chunks.foldl (pipeRead .big) { sink := [] }).buffer = [] :=
  (pipe_read_exact_iff [⟨⟨2, [0, 0, 8, 9]⟩, by decide⟩, ⟨⟨0, [0, 0]⟩, by decide⟩]
    [[0], [2, 8], [9, 0], [0]] (by decide)).mpr (by decide)

/-- A frame of 32768 bytes is never written, and the parser stops for good: neither is the short
frame after it, although all of both has come. -/
theorem pipe_read_not_exact :
    ∃ long short : WholeFrame, long.frame.size.toNat = 32768 ∧ short.frame.size.toNat = 1 ∧
      ∀ chunks : List (List Byte),
        chunks.flatten = [long, short].flatMap (sendBufferToDeviceThread .little) →
          (chunks.foldl (pipeRead .little) { sink := [] }).sink = [] := by
  refine ⟨⟨⟨32768, List.replicate 32770 0⟩, ?_⟩, ⟨⟨1, [0, 0, 7]⟩, by decide⟩, rfl, rfl, ?_⟩
  · rw [Frame.frame, List.drop_replicate, List.length_replicate]
    decide
  · intro chunks hchunks
    rw [pipeRead_eq hchunks]
    rfl

end ToDevice

end Tnetacle.Windows
