import Mathlib.Algebra.Group.Nat.Defs
import Tnetacle.Library.CString

/-! # Formatted output of the C library

The conversions of `printf` for hexadecimal numbers and for strings with a width and a
precision, and the functions that write what they give into a block of a fixed size.
-/

namespace Printf

open ByteOrder CString

/-- What `snprintf` leaves of a text in a block of `size` bytes. -/
def snprintf (size : ℕ) (text : Str) : Str := text.take (size - 1)

/-- The string in a block once `strncat(dst, src, n)` has been called. -/
def strncat (dst src : Str) (n : ℕ) : Str := dst ++ src.take n

def hexDigit (upper : Bool) (d : ℕ) : Byte :=
  BitVec.ofNat 8 (if d < 10 then 48 + d else (if upper then 55 else 87) + d)

/-- The last `k` hexadecimal digits of a number. -/
def hexDigits (upper : Bool) : ℕ → ℕ → Str
  | 0, _ => []
  | k + 1, n => hexDigits upper k (n / 16) ++ [hexDigit upper (n % 16)]

def hexWidth (n : ℕ) : ℕ := if n = 0 then 0 else n.log2 / 4 + 1

/-- A number as `%x` or `%X` prints it when at least `least` digits are asked for. -/
def printHex (upper : Bool) (least n : ℕ) : Str := hexDigits upper (max least (hexWidth n)) n

/-- `%w.ps`: at most `precision` bytes, with blanks on the left up to `width`. -/
def padLeft (width precision : ℕ) (s : Str) : Str :=
  List.replicate (width - (s.take precision).length) 32 ++ s.take precision

/-- `%-w.ps`: at most `precision` bytes, with blanks on the right up to `width`. -/
def padRight (width precision : ℕ) (s : Str) : Str :=
  s.take precision ++ List.replicate (width - (s.take precision).length) 32

def isAlnum (b : Byte) : Bool := isDigit b || (65 ≤ b && b ≤ 90) || (97 ≤ b && b ≤ 122)

def hexValue (b : Byte) : Option ℕ :=
  if isDigit b then some (b.toNat - 48)
  else if 65 ≤ b ∧ b ≤ 70 then some (b.toNat - 55)
  else if 97 ≤ b ∧ b ≤ 102 then some (b.toNat - 87)
  else none

def readPairs : Str → Option (List Byte)
  | [] => some []
  | [_] => none
  | a :: b :: s => do
    let high ← hexValue a
    let low ← hexValue b
    let bytes ← readPairs s
    return BitVec.ofNat 8 (16 * high + low) :: bytes

theorem strncat_of_le {dst src : Str} {n : ℕ} (h : src.length ≤ n) :
    strncat dst src n = dst ++ src := by
  rw [strncat, List.take_of_length_le h]

theorem snprintf_of_lt {size : ℕ} {text : Str} (h : text.length < size) :
    snprintf size text = text :=
  List.take_of_length_le (Nat.le_sub_one_of_lt h)

theorem hexValue_hexDigit (upper : Bool) {d : ℕ} (h : d < 16) :
    hexValue (hexDigit upper d) = some d := by
  have hall : ∀ (u : Bool) (d : Fin 16), hexValue (hexDigit u d) = some d.val := by decide
  exact hall upper ⟨d, h⟩

theorem hexDigit_ne_blank (upper : Bool) {d : ℕ} (h : d < 16) : hexDigit upper d ≠ 32 := by
  have hall : ∀ (u : Bool) (d : Fin 16), hexDigit u d ≠ 32 := by decide
  exact hall upper ⟨d, h⟩

theorem length_hexDigits (upper : Bool) (k n : ℕ) : (hexDigits upper k n).length = k := by
  induction k generalizing n with
  | zero => rfl
  | succ k ih => simp [hexDigits, ih]

theorem ne_blank_of_mem_hexDigits {upper : Bool} {k n : ℕ} {b : Byte}
    (h : b ∈ hexDigits upper k n) : b ≠ 32 := by
  induction k generalizing n with
  | zero => cases h
  | succ k ih =>
    rcases List.mem_append.mp h with h | h
    · exact ih h
    · rw [List.mem_singleton.mp h]
      exact hexDigit_ne_blank upper (Nat.mod_lt _ (by decide))

theorem hexDigits_inj {upper : Bool} {k m n : ℕ} (hm : m < 16 ^ k) (hn : n < 16 ^ k)
    (h : hexDigits upper k m = hexDigits upper k n) : m = n := by
  induction k generalizing m n with
  | zero =>
    rw [Nat.pow_zero, Nat.lt_one_iff] at hm hn
    rw [hm, hn]
  | succ k ih =>
    obtain ⟨hhigh, hlow⟩ := List.append_inj' h rfl
    have hvalue := congrArg hexValue (List.head_eq_of_cons_eq hlow)
    rw [hexValue_hexDigit upper (Nat.mod_lt _ (by decide)),
      hexValue_hexDigit upper (Nat.mod_lt _ (by decide)), Option.some.injEq] at hvalue
    have hquot := ih (Nat.div_lt_of_lt_mul (by rwa [← Nat.pow_succ']))
      (Nat.div_lt_of_lt_mul (by rwa [← Nat.pow_succ'])) hhigh
    omega

theorem hexWidth_le {k n : ℕ} (h : n < 16 ^ k) : hexWidth n ≤ k := by
  unfold hexWidth
  split
  · exact Nat.zero_le k
  · rename_i hn
    have hlog : n.log2 < 4 * k := by
      rw [Nat.log2_lt hn, Nat.pow_mul]
      exact h
    omega

theorem printHex_of_lt {upper : Bool} {k n : ℕ} (h : n < 16 ^ k) :
    printHex upper k n = hexDigits upper k n := by
  rw [printHex, Nat.max_eq_left (hexWidth_le h)]

theorem readPairs_hexDigits (upper : Bool) (b : Byte) (s : Str) :
    readPairs (hexDigits upper 2 b.toNat ++ s) = (readPairs s).map (b :: ·) := by
  have hlow : b.toNat % 16 < 16 := Nat.mod_lt _ (by decide)
  have hhigh : b.toNat / 16 % 16 < 16 := Nat.mod_lt _ (by decide)
  have hvalue : BitVec.ofNat 8 (16 * (b.toNat / 16 % 16) + b.toNat % 16) = b := by
    have hb := b.isLt
    apply BitVec.eq_of_toNat_eq
    rw [BitVec.toNat_ofNat]
    omega
  simp only [hexDigits, List.nil_append, List.cons_append, readPairs,
    hexValue_hexDigit upper hlow, hexValue_hexDigit upper hhigh]
  cases readPairs s with
  | none => rfl
  | some bytes => exact congrArg (fun x => some (x :: bytes)) hvalue

theorem readPairs_flatMap (upper : Bool) (bs : List Byte) :
    readPairs (bs.flatMap fun b => hexDigits upper 2 b.toNat) = some bs := by
  induction bs with
  | nil => rfl
  | cons b bs ih =>
    rw [List.flatMap_cons, readPairs_hexDigits, ih]
    rfl

theorem length_padRight {w p : ℕ} (s : Str) (h : p ≤ w) : (padRight w p s).length = w := by
  simp only [padRight, List.length_append, List.length_take, List.length_replicate]
  omega

theorem padLeft_of_le {w : ℕ} {s : Str} (h : w ≤ s.length) : padLeft w w s = s.take w := by
  rw [padLeft, List.length_take, Nat.min_eq_left h, Nat.sub_self]
  rfl

end Printf
