import Mathlib.Algebra.Group.Int.Defs
import Tnetacle.Tunnel.Compress

/-! # Uncompressing data that is not trusted

`tnt_uncompress_sized` takes the size of the data from the last four bytes it is given, for
the block it allocates and for the length it reports. Here every use of that size is kept,
with its conversions from `int` to `size_t` and to the `uInt` of zlib, and a read outside
of the input, a `NULL` and a block are told apart.
-/

namespace Tnetacle.Tunnel.Untrusted

open ByteOrder

/--
A zlib whose `inflate`, called with `Z_FINISH`, comes to the end of the stream if there is
room for all that is in it, and which then has written just that.
-/
structure Inflater extends Zlib where
  content : List Byte → Option (List Byte)
  inflate_eq : ∀ data room, inflate data room = (content data).filter (·.length ≤ room)

/-- Which allocations succeed: none of them gives more than `PTRDIFF_MAX` bytes. -/
structure Heap where
  malloc : ℕ → Bool
  inflateInit : Bool
  malloc_max : ∀ n, 2 ^ 63 ≤ n → malloc n = false

/-- `block written size`: a block that starts with what `inflate` has written, and the value of
`*uncompressed_size`. -/
inductive Outcome
  | outside
  | null
  | block (written : List Byte) (size : ℕ)
  deriving DecidableEq, Repr

/-- Nothing was read outside, and what is reported of a block was written by `inflate`. -/
def Outcome.Safe : Outcome → Prop
  | .outside => False
  | .null => True
  | .block written size => size ≤ written.length

def Outcome.toOption : Outcome → Option (List Byte × Int)
  | .block written size => some (written, (size : Int))
  | _ => none

section Functions

variable (Z : Inflater) (H : Heap) (host : Endian)

/-- `int index = size - sizeof(int)` -/
def sizeIndex (data : List Byte) : Int := (BitVec.ofInt 32 (data.length - 4)).toInt

/-- `host_size`, unless it is read outside of the input. -/
def hostSize (data : List Byte) : Option Int :=
  if sizeIndex data < 0 then none
  else match data.drop (sizeIndex data).toNat with
    | b₀ :: b₁ :: b₂ :: b₃ :: _ => some (ntohl host (loadLong host b₀ b₁ b₂ b₃)).toInt
    | _ => none

/-- The conversion of an `int` to `size_t`. -/
def sizeOfInt (n : Int) : ℕ := (BitVec.ofInt 64 n).toNat

/-- `strm.avail_out` has 32 bits only. -/
def tntUncompress (data : List Byte) (originalLen : ℕ) : Option (List Byte) :=
  if H.malloc originalLen then
    if H.inflateInit then Z.inflate data (originalLen % 2 ^ 32) else none
  else none

def tntUncompressSized (data : List Byte) : Outcome :=
  match hostSize host data with
  | none => .outside
  | some n =>
    match tntUncompress Z H (data.take (sizeIndex data).toNat) (sizeOfInt n) with
    | none => .null
    | some written => .block written (sizeOfInt n)

/-- The size is read inside the input, and a size that can be allocated is not larger than what
the bytes before it are the stream of. -/
structure Honest (data : List Byte) : Prop where
  inside : 4 ≤ data.length ∧ (data.length - 4) % 2 ^ 32 < 2 ^ 31
  size : ∀ (n : ℕ) (content : List Byte), hostSize host data = some (n : Int) →
    H.malloc n = true → H.inflateInit = true →
    Z.content (data.take (sizeIndex data).toNat) = some content → n ≤ content.length

end Functions

variable {Z : Inflater} {H : Heap} {host : Endian} {data : List Byte}

/-- Where the size is read: inside the input, or before it. -/
theorem sizeIndex_cases (data : List Byte) :
    ((4 ≤ data.length ∧ (data.length - 4) % 2 ^ 32 < 2 ^ 31) ∧
      sizeIndex data = ((data.length - 4) % 2 ^ 32 : ℕ)) ∨
    (¬ (4 ≤ data.length ∧ (data.length - 4) % 2 ^ 32 < 2 ^ 31) ∧ sizeIndex data < 0) := by
  rw [sizeIndex, BitVec.toInt_ofInt, Int.bmod_def]
  split <;> omega

theorem exists_hostSize (host : Endian)
    (h : 4 ≤ data.length ∧ (data.length - 4) % 2 ^ 32 < 2 ^ 31) :
    ∃ size : Long, hostSize host data = some size.toInt := by
  rcases sizeIndex_cases data with ⟨-, hindex⟩ | ⟨houtside, -⟩
  · have hlength : 4 ≤ (data.drop (sizeIndex data).toNat).length := by
      rw [List.length_drop, hindex]
      omega
    rcases hdrop : data.drop (sizeIndex data).toNat with
      _ | ⟨b₀, _ | ⟨b₁, _ | ⟨b₂, _ | ⟨b₃, rest⟩⟩⟩⟩
    · simp [hdrop] at hlength
    · simp [hdrop] at hlength
    · simp [hdrop] at hlength
    · simp [hdrop] at hlength
    · refine ⟨ntohl host (loadLong host b₀ b₁ b₂ b₃), ?_⟩
      rw [hostSize, if_neg (by omega), hdrop]
  · exact absurd h houtside

/-- What is taken for the size: nothing, a negative number, or a number of bytes. -/
theorem hostSize_cases (host : Endian) (data : List Byte) :
    (¬ (4 ≤ data.length ∧ (data.length - 4) % 2 ^ 32 < 2 ^ 31) ∧ hostSize host data = none) ∨
    ((4 ≤ data.length ∧ (data.length - 4) % 2 ^ 32 < 2 ^ 31) ∧
      ((∃ n : Int, n < 0 ∧ -2 ^ 31 ≤ n ∧ hostSize host data = some n) ∨
        ∃ n : ℕ, n < 2 ^ 31 ∧ hostSize host data = some (n : Int))) := by
  by_cases hinside : 4 ≤ data.length ∧ (data.length - 4) % 2 ^ 32 < 2 ^ 31
  · right
    obtain ⟨size, hsize⟩ := exists_hostSize host hinside
    have hlow : -2 ^ 31 ≤ size.toInt := BitVec.le_toInt size
    have hhigh : size.toInt < 2 ^ 31 := BitVec.toInt_lt
    refine ⟨hinside, ?_⟩
    rcases Int.lt_or_le size.toInt 0 with hneg | hpos
    · exact .inl ⟨size.toInt, hneg, hlow, hsize⟩
    · obtain ⟨n, hn⟩ := Int.eq_ofNat_of_zero_le hpos
      rw [hn] at hsize hhigh
      exact .inr ⟨n, Int.ofNat_lt.mp hhigh, hsize⟩
  · left
    rcases sizeIndex_cases data with ⟨hinside', -⟩ | ⟨-, hneg⟩
    · exact absurd hinside' hinside
    · exact ⟨hinside, if_pos hneg⟩

theorem sizeOfInt_natCast {n : ℕ} (h : n < 2 ^ 31) : sizeOfInt n = n := by
  rw [sizeOfInt, BitVec.ofInt_natCast, BitVec.toNat_ofNat]
  omega

theorem le_sizeOfInt_of_neg {n : Int} (h : n < 0) (h' : -2 ^ 31 ≤ n) : 2 ^ 63 ≤ sizeOfInt n := by
  rw [sizeOfInt, BitVec.toNat_ofInt]
  omega

theorem tntUncompress_of_neg {body : List Byte} {n : Int} (h : n < 0) (h' : -2 ^ 31 ≤ n) :
    tntUncompress Z H body (sizeOfInt n) = none := by
  rw [tntUncompress, H.malloc_max _ (le_sizeOfInt_of_neg h h')]
  rfl

/-- A block is what all of the body inflates to, and has room for it. -/
theorem tntUncompress_eq_some_iff {body written : List Byte} {n : ℕ} (h : n < 2 ^ 31) :
    tntUncompress Z H body n = some written ↔
      H.malloc n = true ∧ H.inflateInit = true ∧ Z.content body = some written ∧
        written.length ≤ n := by
  have hroom : n % 2 ^ 32 = n := by omega
  simp only [tntUncompress, hroom, Z.inflate_eq, Option.ite_none_right_eq_some,
    Option.filter_eq_some_iff, decide_eq_true_eq]

theorem tntUncompressSized_of_neg {n : Int} (hn : hostSize host data = some n) (h : n < 0)
    (h' : -2 ^ 31 ≤ n) : tntUncompressSized Z H host data = .null := by
  simp only [tntUncompressSized, hn, tntUncompress_of_neg h h']

theorem tntUncompressSized_of_natCast {n : ℕ} (hn : hostSize host data = some (n : Int))
    (h : n < 2 ^ 31) :
    tntUncompressSized Z H host data =
      ((tntUncompress Z H (data.take (sizeIndex data).toNat) n).map (Outcome.block · n)).getD
        .null := by
  simp only [tntUncompressSized, hn, sizeOfInt_natCast h]
  cases tntUncompress Z H (data.take (sizeIndex data).toNat) n <;> rfl

theorem safe_iff_of_natCast {n : ℕ} (hn : hostSize host data = some (n : Int))
    (h : n < 2 ^ 31) :
    (tntUncompressSized Z H host data).Safe ↔
      ∀ content, H.malloc n = true → H.inflateInit = true →
        Z.content (data.take (sizeIndex data).toNat) = some content → n ≤ content.length := by
  rw [tntUncompressSized_of_natCast hn h]
  constructor
  · intro hsafe content hmalloc hinit hcontent
    by_contra hle
    have hblock := (tntUncompress_eq_some_iff h).mpr
      ⟨hmalloc, hinit, hcontent, Nat.le_of_not_le hle⟩
    rw [hblock] at hsafe
    exact hle hsafe
  · intro hsize
    cases hblock : tntUncompress Z H (data.take (sizeIndex data).toNat) n with
    | none => trivial
    | some written =>
      obtain ⟨hmalloc, hinit, hcontent, -⟩ := (tntUncompress_eq_some_iff h).mp hblock
      exact hsize written hmalloc hinit hcontent

/--
The result is safe exactly if the size is read inside the input and does not claim more than
the bytes before it are the stream of; short inputs and large sizes are both possible.
-/
theorem tntUncompressSized_safe_iff (Z : Inflater) (H : Heap) (host : Endian) (data : List Byte) :
    (tntUncompressSized Z H host data).Safe ↔ Honest Z H host data := by
  rcases hostSize_cases host data with
    ⟨houtside, hnone⟩ | ⟨hinside, ⟨n, hneg, hlow, hn⟩ | ⟨n, hlt, hn⟩⟩
  · simp only [tntUncompressSized, hnone]
    exact ⟨False.elim, fun hhonest => houtside hhonest.inside⟩
  · rw [tntUncompressSized_of_neg hn hneg hlow]
    refine iff_of_true trivial ⟨hinside, ?_⟩
    intro m content hm
    obtain rfl := Option.some.inj (hn.symm.trans hm)
    exact absurd hneg (Int.not_lt.mpr (Int.natCast_nonneg m))
  · rw [safe_iff_of_natCast hn hlt]
    constructor
    · intro hsize
      refine ⟨hinside, ?_⟩
      intro m content hm
      obtain rfl : n = m := Int.ofNat.inj (Option.some.inj (hn.symm.trans hm))
      exact hsize content
    · intro hhonest content
      exact hhonest.size n content hn

theorem tntUncompressSized_eq_bind (Z : Zlib) :
    Tunnel.tntUncompressSized Z host data = (hostSize host data).bind fun n =>
      if n < 0 then none
      else (Z.inflate (data.take (sizeIndex data).toNat) n.toNat).map fun out => (out, n) := by
  simp only [Tunnel.tntUncompressSized, Tunnel.tntUncompress, ← sizeIndex.eq_1, hostSize]
  by_cases hneg : sizeIndex data < 0
  · rw [if_pos hneg, if_pos hneg]
    rfl
  · rw [if_neg hneg, if_neg hneg]
    rcases data.drop (sizeIndex data).toNat with
      _ | ⟨b₀, _ | ⟨b₁, _ | ⟨b₂, _ | ⟨b₃, rest⟩⟩⟩⟩ <;> rfl

/-- If nothing fails to be allocated, what a caller gets is what `tnt_compress_sized` is undone
by. -/
theorem toOption_tntUncompressSized (hmalloc : ∀ n < 2 ^ 31, H.malloc n = true)
    (hinit : H.inflateInit = true) :
    (tntUncompressSized Z H host data).toOption =
      Tunnel.tntUncompressSized Z.toZlib host data := by
  rw [tntUncompressSized_eq_bind]
  rcases hostSize_cases host data with
    ⟨-, hnone⟩ | ⟨-, ⟨n, hneg, hlow, hn⟩ | ⟨n, hlt, hn⟩⟩
  · simp only [tntUncompressSized, hnone]
    rfl
  · rw [tntUncompressSized_of_neg hn hneg hlow, hn, Option.bind_some, if_pos hneg]
    rfl
  · have hroom : n % 2 ^ 32 = n := by omega
    have hpos : ¬ (n : Int) < 0 := Int.not_lt.mpr (Int.natCast_nonneg n)
    rw [tntUncompressSized_of_natCast hn hlt, tntUncompress, hmalloc n hlt, hinit, hroom,
      if_pos rfl, if_pos rfl, hn, Option.bind_some, if_neg hpos, Int.toNat_natCast]
    cases Z.inflate (data.take (sizeIndex data).toNat) n <;> rfl

def copyingInflater : Inflater where
  toZlib := copyingZlib
  content data := some (data.drop 8)
  inflate_eq data room := by
    have hroom : data.length ≤ 8 + room ↔ (data.drop 8).length ≤ room := by
      rw [List.length_drop]
      omega
    simp [copyingZlib, Option.filter, hroom]

def roomyHeap : Heap where
  malloc n := n < 2 ^ 63
  inflateInit := true
  malloc_max _ h := decide_eq_false (Nat.not_lt.mpr h)

/-- A size of five behind a stream of two bytes is reported as it stands, and an input of three
bytes is read before its beginning. -/
theorem size_field_believed :
    tntUncompressSized copyingInflater roomyHeap .little
        (List.replicate 8 0 ++ [104, 105] ++ [0, 0, 0, 5]) = .block [104, 105] 5 ∧
      ¬ (tntUncompressSized copyingInflater roomyHeap .little
        (List.replicate 8 0 ++ [104, 105] ++ [0, 0, 0, 5])).Safe ∧
      tntUncompressSized copyingInflater roomyHeap .little [1, 2, 3] = .outside ∧
      ¬ (tntUncompressSized copyingInflater roomyHeap .little [1, 2, 3]).Safe := by
  have hlarge : tntUncompressSized copyingInflater roomyHeap .little
      (List.replicate 8 0 ++ [104, 105] ++ [0, 0, 0, 5]) = .block [104, 105] 5 := by decide
  have hshort : tntUncompressSized copyingInflater roomyHeap .little [1, 2, 3] = .outside := by
    decide
  refine ⟨hlarge, ?_, hshort, ?_⟩
  · rw [hlarge]
    exact (by decide : ¬ 5 ≤ 2)
  · rw [hshort]
    exact id

end Tnetacle.Tunnel.Untrusted
