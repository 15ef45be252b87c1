import Tnetacle.Library.ByteOrder

/-! # Compressed data with its size

`tnt_compress` gives zlib one window after the other for one stream, and `tnt_compress_sized` puts
the length of the data behind it. A window that is half as long as the data has no room for
data of one byte.
-/

namespace Tnetacle.Tunnel

open ByteOrder

/-- zlib: the stream for some data, and what `inflate` makes of a stream with some room. -/
structure Zlib where
  stream : List Byte → List Byte
  inflate : List Byte → ℕ → Option (List Byte)
  inflate_stream : ∀ x room, x.length ≤ room → inflate (stream x) room = some x

def zMinSpace : ℕ := 6

inductive ZStatus | ok | streamEnd | bufError
  deriving DecidableEq, Repr

/-- `deflate` with `Z_FINISH`: the status, what it emits and what is left of the stream. -/
def deflate (availOut : ℕ) (rest : List Byte) : ZStatus × List Byte × List Byte :=
  if availOut = 0 then (.bufError, [], rest)
  else if rest.length ≤ availOut then (.streamEnd, rest, [])
  else (.ok, rest.take availOut, rest.drop availOut)

/-- The room for one call of `deflate`, and the size of the block it is in. -/
structure Window where
  nextOut : ℕ
  availOut : ℕ
  block : ℕ
  deriving DecidableEq, Repr

def Window.Inside (w : Window) : Prop := w.nextOut + w.availOut ≤ w.block

def firstWindow (inSize : ℕ) : Window :=
  ⟨0, if inSize < zMinSpace then zMinSpace else inSize,
    if inSize < zMinSpace then zMinSpace else inSize⟩

/-- The window behind `totalOut` bytes, in the block after `realloc`. -/
def nextWindow (inSize totalOut : ℕ) : Window :=
  ⟨totalOut, if inSize / 2 < zMinSpace then inSize / 2 else zMinSpace,
    totalOut + if inSize / 2 < zMinSpace then zMinSpace else inSize / 2⟩

theorem deflate_ok {availOut : ℕ} {rest piece rest' : List Byte}
    (h : deflate availOut rest = (.ok, piece, rest')) : rest'.length < rest.length := by
  unfold deflate at h
  split at h
  · cases h
  · split at h
    · cases h
    · cases h
      rw [List.length_drop]
      omega

/-- The loop of `tnt_compress`: the windows, and the stream if it was emitted to its end. -/
def compressLoop (inSize : ℕ) (w : Window) (out rest : List Byte) :
    List Window × Option (List Byte) :=
  match _h : deflate w.availOut rest with
  | (.ok, piece, rest') =>
    let out' := out ++ piece
    let r := compressLoop inSize (nextWindow inSize out'.length) out' rest'
    (w :: r.1, r.2)
  | (.streamEnd, piece, _) => ([w], some (out ++ piece))
  | (.bufError, _, _) => ([w], none)
termination_by rest.length
decreasing_by exact deflate_ok _h

section Functions

variable (Z : Zlib) (host : Endian)

def tntCompress (x : List Byte) : List Window × Option (List Byte) :=
  compressLoop x.length (firstWindow x.length) [] (Z.stream x)

def tntUncompress (data : List Byte) (originalLen : ℕ) : Option (List Byte) :=
  Z.inflate data originalLen

/-- The length goes behind the stream, in network order. -/
def tntCompressSized (x : List Byte) : Option (List Byte) :=
  (tntCompress Z x).2.map fun out => out ++ storeLong host (htonl host (BitVec.ofNat 32 x.length))

/-- The data and its length; nothing if the length can not be read, or if zlib fails. -/
def tntUncompressSized (data : List Byte) : Option (List Byte × Int) :=
  let index := (BitVec.ofInt 32 (data.length - 4)).toInt
  if index < 0 then none
  else match data.drop index.toNat with
    | b₀ :: b₁ :: b₂ :: b₃ :: _ =>
      let hostSize := (ntohl host (loadLong host b₀ b₁ b₂ b₃)).toInt
      if hostSize < 0 then none
      else (tntUncompress Z (data.take index.toNat) hostSize.toNat).map fun out => (out, hostSize)
    | _ => none

def RoundTrips (x : List Byte) : Prop :=
  ∃ data, tntCompressSized Z host x = some data ∧
    tntUncompressSized Z host data = some (x, (x.length : Int))

end Functions

variable {Z : Zlib} {host : Endian} {x out rest : List Byte} {inSize : ℕ} {w : Window}

/-! ## The loop -/

theorem inside_firstWindow (inSize : ℕ) : (firstWindow inSize).Inside := by
  simp [Window.Inside, firstWindow]

theorem inside_nextWindow (inSize totalOut : ℕ) : (nextWindow inSize totalOut).Inside := by
  unfold Window.Inside nextWindow
  dsimp only
  split <;> omega

theorem compressLoop_of_zero (h : w.availOut = 0) :
    compressLoop inSize w out rest = ([w], none) := by
  have hcall : deflate w.availOut rest = (.bufError, [], rest) := if_pos h
  rw [compressLoop]
  split <;> simp_all

theorem compressLoop_of_le (h : 0 < w.availOut) (hfit : rest.length ≤ w.availOut) :
    compressLoop inSize w out rest = ([w], some (out ++ rest)) := by
  have hcall : deflate w.availOut rest = (.streamEnd, rest, []) := by
    rw [deflate, if_neg (by omega), if_pos hfit]
  rw [compressLoop]
  split <;> simp_all

theorem compressLoop_of_lt (inSize : ℕ) (out : List Byte) (h : 0 < w.availOut)
    (hfull : w.availOut < rest.length) :
    ∃ piece rest', rest = piece ++ rest' ∧ rest'.length < rest.length ∧
      compressLoop inSize w out rest =
        let r := compressLoop inSize (nextWindow inSize (out ++ piece).length) (out ++ piece) rest'
        (w :: r.1, r.2) := by
  have hcall : deflate w.availOut rest = (.ok, rest.take w.availOut, rest.drop w.availOut) := by
    rw [deflate, if_neg (by omega), if_neg (by omega)]
  refine ⟨rest.take w.availOut, rest.drop w.availOut, ?_, deflate_ok hcall, ?_⟩
  · rw [List.take_append_drop]
  · conv_lhs => rw [compressLoop]
    split <;> simp_all

theorem inside_compressLoop (h : w.Inside) :
    ∀ w' ∈ (compressLoop inSize w out rest).1, w'.Inside := by
  fun_induction compressLoop inSize w out rest with
  | case1 w out rest piece rest' _ out' r ih =>
    intro w' hw'
    rcases List.mem_cons.mp hw' with rfl | hlater
    · exact h
    · exact ih (inside_nextWindow _ _) w' hlater
  | case2 w out rest piece rest' _ =>
    rintro w' (_ | ⟨_, hnone⟩)
    · exact h
    · cases hnone
  | case3 w out rest piece rest' _ =>
    rintro w' (_ | ⟨_, hnone⟩)
    · exact h
    · cases hnone

theorem availOut_nextWindow_pos_iff (inSize totalOut : ℕ) :
    0 < (nextWindow inSize totalOut).availOut ↔ 2 ≤ inSize := by
  unfold nextWindow zMinSpace
  dsimp only
  split <;> omega

theorem compressLoop_of_two_le (hin : 2 ≤ inSize) (h : 0 < w.availOut) :
    (compressLoop inSize w out rest).2 = some (out ++ rest) := by
  induction hlen : rest.length using Nat.strongRecOn generalizing w out rest with
  | _ n ih =>
    by_cases hfit : rest.length ≤ w.availOut
    · rw [compressLoop_of_le h hfit]
    · obtain ⟨piece, rest', rfl, hlt, heq⟩ := compressLoop_of_lt inSize out h (Nat.not_le.mp hfit)
      have hnext := (availOut_nextWindow_pos_iff inSize (out ++ piece).length).mpr hin
      have hrec : (compressLoop inSize _ (out ++ piece) rest').2 = _ :=
        ih rest'.length (hlen ▸ hlt) hnext rfl
      rw [heq, hrec, List.append_assoc]

theorem compressLoop_of_lt_two (hin : inSize < 2) (h : 0 < w.availOut)
    (hfull : w.availOut < rest.length) : (compressLoop inSize w out rest).2 = none := by
  obtain ⟨piece, rest', -, -, heq⟩ := compressLoop_of_lt inSize out h hfull
  have hzero : (nextWindow inSize (out ++ piece).length).availOut = 0 := by
    have hpos := availOut_nextWindow_pos_iff inSize (out ++ piece).length
    omega
  rw [heq, compressLoop_of_zero hzero]

/-! ## The functions -/

/-- What `tnt_compress` needs to come to the end of its stream. -/
def HasRoom (Z : Zlib) (x : List Byte) : Prop :=
  2 ≤ x.length ∨ (Z.stream x).length ≤ zMinSpace

theorem zMinSpace_le_firstWindow (inSize : ℕ) : zMinSpace ≤ (firstWindow inSize).availOut := by
  unfold firstWindow
  dsimp only
  split <;> omega

theorem firstWindow_pos (inSize : ℕ) : 0 < (firstWindow inSize).availOut :=
  Nat.lt_of_lt_of_le (by decide) (zMinSpace_le_firstWindow inSize)

theorem tntCompress_of_hasRoom (h : HasRoom Z x) : (tntCompress Z x).2 = some (Z.stream x) := by
  rcases h with hlen | hshort
  · exact compressLoop_of_two_le hlen (firstWindow_pos _)
  · have hfit := Nat.le_trans hshort (zMinSpace_le_firstWindow x.length)
    rw [tntCompress, compressLoop_of_le (firstWindow_pos _) hfit, List.nil_append]

theorem tntCompress_of_not_hasRoom (h : ¬ HasRoom Z x) : (tntCompress Z x).2 = none := by
  obtain ⟨hlen, hlong⟩ := not_or.mp h
  have hfirst : (firstWindow x.length).availOut = zMinSpace :=
    if_pos (Nat.lt_trans (Nat.not_le.mp hlen) (by decide))
  refine compressLoop_of_lt_two (Nat.not_le.mp hlen) (firstWindow_pos _) ?_
  rw [hfirst]
  exact Nat.not_le.mp hlong

theorem tntUncompressSized_append {stream : List Byte} {size : ℕ} (hstream : stream.length < 2 ^ 31)
    (hsize : size < 2 ^ 31) :
    tntUncompressSized Z host (stream ++ storeLong host (htonl host (BitVec.ofNat 32 size))) =
      (tntUncompress Z stream size).map fun out => (out, (size : Int)) := by
  obtain ⟨b₀, b₁, b₂, b₃, hstore, hload⟩ :=
    exists_storeLong_eq host (htonl host (BitVec.ofNat 32 size))
  have hindex :
      (BitVec.ofInt 32 ((stream ++ [b₀, b₁, b₂, b₃]).length - 4)).toInt = stream.length := by
    have hlen : ((stream ++ [b₀, b₁, b₂, b₃]).length : Int) - 4 = stream.length := by simp
    rw [hlen, BitVec.ofInt_natCast, toInt_ofNat_of_lt hstream]
  have hhost : (ntohl host (loadLong host b₀ b₁ b₂ b₃)).toInt = size := by
    rw [hload, ntohl_htonl, toInt_ofNat_of_lt hsize]
  simp only [hstore, tntUncompressSized, hindex, Int.toNat_natCast, List.drop_left,
    List.take_left, hhost, Int.not_ofNat_neg, if_false]

theorem tntUncompressSized_of_long {stream : List Byte} (hlong : 2 ^ 31 ≤ stream.length)
    (hstream : stream.length < 2 ^ 32) (size : Long) :
    tntUncompressSized Z host (stream ++ storeLong host size) = none := by
  have hlen : ((stream ++ storeLong host size).length : Int) - 4 = stream.length := by
    obtain ⟨b₀, b₁, b₂, b₃, hstore, -⟩ := exists_storeLong_eq host size
    simp [hstore]
  have hindex : (BitVec.ofNat 32 stream.length).toInt < 0 := by
    rw [BitVec.toInt_ofNat', Int.bmod_def]
    omega
  rw [tntUncompressSized, hlen, BitVec.ofInt_natCast]
  exact if_pos hindex

/-- Every window lies in its block. The round trip needs room for the stream: data of two bytes,
or a stream that fits into the first window. It also needs a stream that an `int` can index. -/
theorem compress_round_trip_iff (Z : Zlib) (host : Endian) (x : List Byte)
    (hx : x.length < 2 ^ 31) :
    (∀ w ∈ (tntCompress Z x).1, w.Inside) ∧
      ((Z.stream x).length < 2 ^ 32 →
        (RoundTrips Z host x ↔ HasRoom Z x ∧ (Z.stream x).length < 2 ^ 31)) := by
  refine ⟨inside_compressLoop (inside_firstWindow _), fun hstream => ⟨?_, ?_⟩⟩
  · rintro ⟨data, hdata, htrip⟩
    have hroom : HasRoom Z x := by
      by_contra hroom
      rw [tntCompressSized, tntCompress_of_not_hasRoom hroom] at hdata
      cases hdata
    refine ⟨hroom, ?_⟩
    by_contra hlong
    rw [tntCompressSized, tntCompress_of_hasRoom hroom] at hdata
    obtain rfl := Option.some.inj hdata
    rw [tntUncompressSized_of_long (Nat.not_lt.mp hlong) hstream] at htrip
    cases htrip
  · rintro ⟨hroom, hshort⟩
    refine ⟨_, by rw [tntCompressSized, tntCompress_of_hasRoom hroom]; rfl, ?_⟩
    rw [tntUncompressSized_append hshort hx, tntUncompress, Z.inflate_stream x _ (Nat.le_refl _)]
    rfl

/-- A zlib that copies its data behind eight bytes of its own. -/
def copyingZlib : Zlib where
  stream x := List.replicate 8 0 ++ x
  inflate data room := if data.length ≤ 8 + room then some (data.drop 8) else none
  inflate_stream x room h := by
    have hlen : (List.replicate 8 0 ++ x).length ≤ 8 + room := by
      rw [List.length_append, List.length_replicate]
      omega
    rw [if_pos hlen]
    exact congrArg some (List.drop_left' (List.length_replicate ..))

theorem compress_round_trip_two :
    ([104, 105] : List Byte).length < 2 ^ 31 ∧ RoundTrips copyingZlib .little [104, 105] := by
  have hlen : ([104, 105] : List Byte).length < 2 ^ 31 := by decide
  have hstream : (copyingZlib.stream [104, 105]).length < 2 ^ 32 := by decide
  have hroom : HasRoom copyingZlib [104, 105] := .inl (by decide)
  exact ⟨hlen, ((compress_round_trip_iff copyingZlib .little [104, 105] hlen).2 hstream).mpr
    ⟨hroom, by decide⟩⟩

/-- One byte makes a stream of nine: the second window is empty, and nothing is returned. -/
theorem one_byte_not_compressed :
    ([104] : List Byte).length < 2 ^ 31 ∧ tntCompressSized copyingZlib .little [104] = none ∧
      ¬ RoundTrips copyingZlib .little [104] := by
  have hroom : ¬ HasRoom copyingZlib [104] := not_or.mpr ⟨by decide, by decide⟩
  have hnone : tntCompressSized copyingZlib .little [104] = none := by
    rw [tntCompressSized, tntCompress_of_not_hasRoom hroom]
    rfl
  refine ⟨by decide, hnone, ?_⟩
  rintro ⟨data, hdata, -⟩
  rw [hnone] at hdata
  cases hdata

end Tnetacle.Tunnel
