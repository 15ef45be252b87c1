import Mathlib.Algebra.Group.Nat.Defs
import Mathlib.Tactic.Common

/-! # Host and network byte order

Words of sixteen and of thirty-two bits as a host of either byte order keeps them in memory,
with the conversions to and from network order. Whatever the host, a word that was
converted and stored reads as its high byte followed by its low byte.
-/

namespace ByteOrder

abbrev Byte := BitVec 8
abbrev Word := BitVec 16

inductive Endian | little | big
  deriving DecidableEq, Repr

def Word.high (x : Word) : Byte := x.extractLsb' 8 8
def Word.low (x : Word) : Byte := x.extractLsb' 0 8

def ofBytes (hi lo : Byte) : Word := hi ++ lo

variable (host : Endian)

def store (x : Word) : List Byte :=
  match host with
  | .little => [Word.low x, Word.high x]
  | .big => [Word.high x, Word.low x]

def load (b₀ b₁ : Byte) : Word :=
  match host with
  | .little => ofBytes b₁ b₀
  | .big => ofBytes b₀ b₁

def htons (x : Word) : Word :=
  match host with
  | .little => ofBytes (Word.low x) (Word.high x)
  | .big => x

def ntohs (x : Word) : Word := htons host x

@[simp] theorem high_ofBytes (hi lo : Byte) : Word.high (ofBytes hi lo) = hi := by
  rw [Word.high, ofBytes, BitVec.extractLsb'_append_eq_of_le (by omega)]
  exact BitVec.extractLsb'_eq_self

@[simp] theorem low_ofBytes (hi lo : Byte) : Word.low (ofBytes hi lo) = lo := by
  rw [Word.low, ofBytes, BitVec.extractLsb'_append_eq_of_add_le (by omega)]
  exact BitVec.extractLsb'_eq_self

@[simp] theorem ofBytes_high_low (x : Word) : ofBytes (Word.high x) (Word.low x) = x :=
  BitVec.extractLsb'_append_extractLsb'

@[simp] theorem ntohs_htons (x : Word) : ntohs host (htons host x) = x := by
  cases host <;> simp [ntohs, htons]

theorem htons_ntohs (x : Word) : htons host (ntohs host x) = x := ntohs_htons host x

theorem store_htons (x : Word) : store host (htons host x) = [Word.high x, Word.low x] := by
  cases host <;> simp [store, htons]

theorem ntohs_load (b₀ b₁ : Byte) : ntohs host (load host b₀ b₁) = ofBytes b₀ b₁ := by
  cases host <;> simp [ntohs, htons, load]

theorem exists_store_eq (x : Word) : ∃ b₀ b₁, store host x = [b₀, b₁] ∧ load host b₀ b₁ = x := by
  cases host with
  | little => exact ⟨_, _, rfl, ofBytes_high_low x⟩
  | big => exact ⟨_, _, rfl, ofBytes_high_low x⟩

/-- Read as a signed number, a word of the upper half is negative. -/
theorem toInt_neg_iff (x : Word) : x.toInt < 0 ↔ 32768 ≤ x.toNat := by
  rw [BitVec.toInt_eq_toNat_cond]
  have := x.isLt
  split <;> omega

/-! ## Words of thirty-two bits -/

abbrev Long := BitVec 32

def Long.high (x : Long) : Word := x.extractLsb' 16 16
def Long.low (x : Long) : Word := x.extractLsb' 0 16

def ofWords (hi lo : Word) : Long := hi ++ lo

def storeLong (x : Long) : List Byte :=
  match host with
  | .little => store host (Long.low x) ++ store host (Long.high x)
  | .big => store host (Long.high x) ++ store host (Long.low x)

def loadLong (b₀ b₁ b₂ b₃ : Byte) : Long :=
  match host with
  | .little => ofWords (load host b₂ b₃) (load host b₀ b₁)
  | .big => ofWords (load host b₀ b₁) (load host b₂ b₃)

def htonl (x : Long) : Long :=
  match host with
  | .little => ofWords (htons host (Long.low x)) (htons host (Long.high x))
  | .big => x

def ntohl (x : Long) : Long := htonl host x

@[simp] theorem high_ofWords (hi lo : Word) : Long.high (ofWords hi lo) = hi := by
  rw [Long.high, ofWords, BitVec.extractLsb'_append_eq_of_le (by omega)]
  exact BitVec.extractLsb'_eq_self

@[simp] theorem low_ofWords (hi lo : Word) : Long.low (ofWords hi lo) = lo := by
  rw [Long.low, ofWords, BitVec.extractLsb'_append_eq_of_add_le (by omega)]
  exact BitVec.extractLsb'_eq_self

@[simp] theorem ofWords_high_low (x : Long) : ofWords (Long.high x) (Long.low x) = x :=
  BitVec.extractLsb'_append_extractLsb'

theorem toInt_ofNat_of_lt {n : ℕ} (h : n < 2 ^ 31) : (BitVec.ofNat 32 n).toInt = n := by
  rw [BitVec.toInt_ofNat', Int.bmod_eq_of_le (by omega) (by omega)]

@[simp] theorem ntohl_htonl (x : Long) : ntohl host (htonl host x) = x := by
  have hswap : ∀ y : Word, htons host (htons host y) = y := ntohs_htons host
  cases host <;> simp [ntohl, htonl, hswap]

theorem exists_storeLong_eq (x : Long) : ∃ b₀ b₁ b₂ b₃, storeLong host x = [b₀, b₁, b₂, b₃] ∧
    loadLong host b₀ b₁ b₂ b₃ = x := by
  obtain ⟨h₀, h₁, hhigh, hload⟩ := exists_store_eq host (Long.high x)
  obtain ⟨l₀, l₁, hlow, hload'⟩ := exists_store_eq host (Long.low x)
  cases host with
  | little =>
    refine ⟨l₀, l₁, h₀, h₁, ?_, ?_⟩
    · simp only [storeLong, hhigh, hlow, List.cons_append, List.nil_append]
    · simp only [loadLong, hload, hload', ofWords_high_low]
  | big =>
    refine ⟨h₀, h₁, l₀, l₁, ?_, ?_⟩
    · simp only [storeLong, hhigh, hlow, List.cons_append, List.nil_append]
    · simp only [loadLong, hload, hload', ofWords_high_low]

end ByteOrder
