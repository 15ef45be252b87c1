import Mathlib.Algebra.Group.Int.Defs
import Mathlib.Data.List.TakeWhile
import Tnetacle.Library.ByteOrder

/-! # Strings of the C library

A string is the list of the bytes before its terminator, so a pointer into a
string is the suffix it points to. The functions below follow the C standard; a
number that does not fit is cut as by `strtol` and a conversion to `int`.
-/

namespace CString

open ByteOrder

abbrev Str := List Byte

def ascii (s : String) : Str := s.toList.map fun c => BitVec.ofNat 8 c.toNat

def ofMemory (block : List Byte) : Str := block.takeWhile (· ≠ 0)

def strspn (s accept : Str) : ℕ := (s.takeWhile (accept.contains ·)).length

def strpbrk (s accept : Str) : Option ℕ := s.findIdx? (accept.contains ·)

def strchr (s : Str) (c : Byte) : Option ℕ := s.findIdx? (· == c)

def strncmp : Str → Str → ℕ → Int
  | _, _, 0 => 0
  | [], [], _ + 1 => 0
  | [], b :: _, _ + 1 => -b.toNat
  | a :: _, [], _ + 1 => a.toNat
  | a :: as, b :: bs, n + 1 => if a = b then strncmp as bs n else a.toNat - b.toNat

def isSpace (b : Byte) : Bool := b = 32 || (9 ≤ b && b ≤ 13)
def isDigit (b : Byte) : Bool := 48 ≤ b && b ≤ 57

def leadingDigits (s : Str) : ℕ :=
  (s.takeWhile isDigit).foldl (fun n b => 10 * n + (b.toNat - 48)) 0

/-- `strtol(s, NULL, 10)` for a 64-bit `long`. -/
def strtol (s : Str) : Int :=
  let clamp (v : Int) : Int := max (-2 ^ 63) (min v (2 ^ 63 - 1))
  match s.dropWhile isSpace with
  | [] => 0
  | b :: t =>
    if b = 45 then clamp (-leadingDigits t)
    else if b = 43 then clamp (leadingDigits t)
    else clamp (leadingDigits (b :: t))

/-- Where `strtol` stops, which is the beginning of a string without digits. -/
def strtolEnd (s : Str) : Str :=
  let digits := match s.dropWhile isSpace with
    | [] => []
    | b :: t => if b = 45 ∨ b = 43 then t else b :: t
  if digits.takeWhile isDigit = [] then s else digits.dropWhile isDigit

/-- `atoi(s)`: the result of `strtol` converted to `int`. -/
def atoi (s : Str) : Int := (BitVec.ofInt 32 (strtol s)).toInt

/-- What `%d` prints of a number that is not negative. -/
def printDecimal (n : ℕ) : Str := (Nat.toDigits 10 n).map fun c => BitVec.ofNat 8 c.toNat

theorem ofMemory_append_cons_zero (block rest : List Byte) :
    ofMemory (block ++ 0 :: rest) = ofMemory block := by
  induction block with
  | nil => rfl
  | cons b block ih =>
    rw [ofMemory, ofMemory] at ih ⊢
    rw [List.cons_append, List.takeWhile_cons, List.takeWhile_cons, ih]

theorem ofMemory_append_zero (block : List Byte) : ofMemory (block ++ [0]) = ofMemory block :=
  ofMemory_append_cons_zero block []

/-- A string without a NUL is read as it is, and no other. -/
theorem ofMemory_eq_self_iff {s : Str} : ofMemory s = s ↔ (0 : Byte) ∉ s := by
  rw [ofMemory, List.takeWhile_eq_self_iff]
  constructor
  · intro h hmem
    simpa using h 0 hmem
  · intro h b hb
    simpa using fun h0 : b = 0 => h (h0 ▸ hb)

theorem zero_not_mem_ofMemory (block : List Byte) : (0 : Byte) ∉ ofMemory block := by
  intro hmem
  simpa using List.mem_takeWhile_imp hmem

theorem ofMemory_eq_self {s : Str} (h : (0 : Byte) ∉ s) : ofMemory s = s :=
  ofMemory_eq_self_iff.mpr h

theorem prefix_ofMemory_append {s : Str} (h : (0 : Byte) ∉ s) (rest : List Byte) :
    s <+: ofMemory (s ++ rest) := by
  rw [ofMemory, List.takeWhile_append_of_pos]
  · exact List.prefix_append _ _
  · intro byte hbyte
    simpa using fun hzero : byte = 0 => h (hzero ▸ hbyte)

theorem ofMemory_drop {block : List Byte} {k : ℕ} (h : k ≤ (ofMemory block).length) :
    ofMemory (block.drop k) = (ofMemory block).drop k := by
  induction k generalizing block with
  | zero => rfl
  | succ k ih =>
    cases block with
    | nil => rfl
    | cons b block =>
      by_cases hb : b = 0
      · subst hb
        cases h
      · have hcons : ofMemory (b :: block) = b :: ofMemory block :=
          List.takeWhile_cons_of_pos (by simpa using hb)
        rw [hcons] at h ⊢
        exact ih (Nat.le_of_succ_le_succ h)

theorem take_length_ofMemory (block : List Byte) :
    block.take (ofMemory block).length = ofMemory block :=
  (List.prefix_iff_eq_take.mp (List.takeWhile_prefix _)).symm

theorem ofMemory_cut {block rest : List Byte} {i : ℕ} (h : i ≤ (ofMemory block).length) :
    ofMemory (block.take i ++ 0 :: rest) = (ofMemory block).take i := by
  have hno : (0 : Byte) ∉ (ofMemory block).take i :=
    fun hmem => zero_not_mem_ofMemory block (List.mem_of_mem_take hmem)
  have htake : block.take i = (ofMemory block).take i := by
    calc block.take i = (block.take (ofMemory block).length).take i := by
          rw [List.take_take, Nat.min_eq_left h]
      _ = (ofMemory block).take i := by rw [take_length_ofMemory]
  rw [htake, ofMemory_append_cons_zero, ofMemory_eq_self hno]

theorem strncmp_eq_zero_iff {a b : Str} (ha : (0 : Byte) ∉ a) (hb : (0 : Byte) ∉ b) (n : ℕ) :
    strncmp a b n = 0 ↔ a.take n = b.take n := by
  have hne : ∀ x : Byte, x ≠ 0 → x.toNat ≠ 0 := fun x hx h => hx (BitVec.eq_of_toNat_eq h)
  induction n generalizing a b with
  | zero => simp [strncmp]
  | succ n ih =>
    cases a with
    | nil =>
      cases b with
      | nil => simp [strncmp]
      | cons y b =>
        have hy := hne y (fun h => hb (by simp [h]))
        simp [strncmp, hy]
    | cons x a =>
      cases b with
      | nil =>
        have hx := hne x (fun h => ha (by simp [h]))
        simp [strncmp, hx]
      | cons y b =>
        by_cases hxy : x = y
        · subst hxy
          simp only [List.mem_cons, not_or] at ha hb
          simp [strncmp, ih ha.2 hb.2]
        · have hd : (x.toNat : Int) - y.toNat ≠ 0 := fun h =>
            hxy (BitVec.eq_of_toNat_eq (by omega))
          simp [strncmp, hxy, hd]

theorem strchr_eq_none_iff {s : Str} {c : Byte} : strchr s c = none ↔ c ∉ s := by
  rw [strchr, List.findIdx?_eq_none_iff]
  constructor
  · intro h hmem
    simpa using h c hmem
  · intro h b hb
    simpa using fun heq : b = c => h (heq ▸ hb)

/-- The first `c` of a string parts it. -/
theorem strchr_append_cons {s t : Str} {c : Byte} (h : c ∉ s) :
    strchr (s ++ c :: t) c = some s.length := by
  have hnone : s.findIdx? (· == c) = none := strchr_eq_none_iff.mpr h
  have hfirst : (c :: t).findIdx? (· == c) = some 0 := by
    rw [List.findIdx?_cons]
    exact if_pos (beq_self_eq_true c)
  rw [strchr, List.findIdx?_append, hnone, hfirst]
  simp

theorem drop_strspn (s accept : Str) :
    s.drop (strspn s accept) = s.dropWhile (accept.contains ·) := by
  have h : (s.takeWhile (accept.contains ·) ++ s.dropWhile (accept.contains ·)).drop
      (strspn s accept) = s.dropWhile (accept.contains ·) := List.drop_left
  rwa [List.takeWhile_append_dropWhile] at h

section Decimal

variable (n : ℕ)

theorem isDigit_of_char {c : Char} (h : c.isDigit = true) :
    isDigit (BitVec.ofNat 8 c.toNat) = true ∧ (BitVec.ofNat 8 c.toNat).toNat = c.toNat := by
  simp only [Char.isDigit, Bool.and_eq_true, decide_eq_true_eq, UInt32.le_iff_toNat_le] at h
  have h₁ : 48 ≤ c.toNat := h.1
  have h₂ : c.toNat ≤ 57 := h.2
  have ht : (BitVec.ofNat 8 c.toNat).toNat = c.toNat := by
    rw [BitVec.toNat_ofNat]; omega
  refine ⟨?_, ht⟩
  simp [isDigit, BitVec.le_def, ht, h₁, h₂]

theorem isDigit_of_mem_printDecimal {b : Byte} (h : b ∈ printDecimal n) : isDigit b = true := by
  obtain ⟨c, hc, rfl⟩ := List.mem_map.mp h
  exact (isDigit_of_char (Nat.isDigit_of_mem_toDigits (by omega) (by omega) hc)).1

theorem foldl_digits {cs : List Char} (h : ∀ c ∈ cs, c.isDigit = true) (m : ℕ) :
    (cs.map fun c => BitVec.ofNat 8 c.toNat).foldl (fun n (b : Byte) => 10 * n + (b.toNat - 48)) m =
      Nat.ofDigitChars 10 cs m := by
  induction cs generalizing m with
  | nil => rfl
  | cons c cs ih =>
    have hc := (isDigit_of_char (h c (by simp))).2
    rw [List.map_cons, List.foldl_cons, ih fun d hd => h d (by simp [hd]), hc]
    rfl

theorem leadingDigits_printDecimal : leadingDigits (printDecimal n) = n := by
  have hd : ∀ c ∈ Nat.toDigits 10 n, c.isDigit = true := fun c hc =>
    Nat.isDigit_of_mem_toDigits (by omega) (by omega) hc
  rw [leadingDigits, List.takeWhile_eq_self_iff.mpr fun b hb => isDigit_of_mem_printDecimal n hb,
    printDecimal, foldl_digits hd, Nat.ofDigitChars_ten_toDigits]

theorem printDecimal_ne_nil : printDecimal n ≠ [] := by
  simp [printDecimal, Nat.toDigits_ne_nil]

theorem isSpace_of_isDigit {b : Byte} (h : isDigit b = true) :
    isSpace b = false ∧ b ≠ 45 ∧ b ≠ 43 := by
  simp only [isDigit, Bool.and_eq_true, decide_eq_true_eq, BitVec.le_def] at h
  refine ⟨?_, fun hb => ?_, fun hb => ?_⟩
  · simp only [isSpace, Bool.or_eq_false_iff, decide_eq_false_iff_not, Bool.and_eq_false_iff,
      BitVec.le_def]
    refine ⟨fun hb => ?_, Or.inr ?_⟩
    · rw [hb] at h; simp at h
    · simp at h ⊢; omega
  · rw [hb] at h; simp at h
  · rw [hb] at h; simp at h

section Digits

variable {s tail : Str}

theorem takeWhile_digits_append (hd : ∀ b ∈ s, isDigit b = true)
    (htail : tail.takeWhile isDigit = []) :
    (s ++ tail).takeWhile isDigit = s ∧ (s ++ tail).dropWhile isDigit = tail := by
  have hdrop : tail.dropWhile isDigit = tail := by
    have hsplit : tail.takeWhile isDigit ++ tail.dropWhile isDigit = tail :=
      List.takeWhile_append_dropWhile
    rwa [htail, List.nil_append] at hsplit
  rw [List.takeWhile_append_of_pos hd, List.dropWhile_append_of_pos hd, htail, hdrop,
    List.append_nil]
  exact ⟨rfl, rfl⟩

theorem strtol_digits_append (hne : s ≠ []) (hd : ∀ b ∈ s, isDigit b = true)
    (htail : tail.takeWhile isDigit = []) :
    strtol (s ++ tail) = min (leadingDigits s : Int) (2 ^ 63 - 1) ∧
      strtolEnd (s ++ tail) = tail := by
  obtain ⟨htake, hdrop⟩ := takeWhile_digits_append hd htail
  have hself : s.takeWhile isDigit = s := List.takeWhile_eq_self_iff.mpr hd
  have hlead : leadingDigits (s ++ tail) = leadingDigits s := by
    rw [leadingDigits, leadingDigits, htake, hself]
  obtain ⟨b, t, rfl⟩ := List.exists_cons_of_ne_nil hne
  obtain ⟨hspace, h45, h43⟩ := isSpace_of_isDigit (hd b List.mem_cons_self)
  rw [List.cons_append] at htake hdrop hlead ⊢
  constructor
  · rw [strtol, List.dropWhile_cons_of_neg (by simp [hspace])]
    simp only [h45, h43, if_false, hlead]
    omega
  · rw [strtolEnd, List.dropWhile_cons_of_neg (by simp [hspace])]
    simp only [h45, h43, or_self, if_false, htake, hdrop, reduceCtorEq]

theorem strtol_neg_digits_append (hne : s ≠ []) (hd : ∀ b ∈ s, isDigit b = true)
    (htail : tail.takeWhile isDigit = []) :
    strtol (45 :: (s ++ tail)) = max (-2 ^ 63) (-(leadingDigits s : Int)) ∧
      strtolEnd (45 :: (s ++ tail)) = tail := by
  obtain ⟨htake, hdrop⟩ := takeWhile_digits_append hd htail
  have hself : s.takeWhile isDigit = s := List.takeWhile_eq_self_iff.mpr hd
  have hlead : leadingDigits (s ++ tail) = leadingDigits s := by
    rw [leadingDigits, leadingDigits, htake, hself]
  constructor
  · rw [strtol, List.dropWhile_cons_of_neg (by decide)]
    simp only [if_true, hlead]
    omega
  · rw [strtolEnd, List.dropWhile_cons_of_neg (by decide)]
    simp only [true_or, if_true, htake, hdrop, hne, if_false]

theorem strtol_of_digits (hne : s ≠ []) (hd : ∀ b ∈ s, isDigit b = true)
    (h : leadingDigits s < 2 ^ 63) : strtol s = leadingDigits s ∧ strtolEnd s = [] := by
  have hnil : ([] : Str).takeWhile isDigit = [] := rfl
  obtain ⟨hval, hend⟩ := strtol_digits_append hne hd hnil
  rw [List.append_nil] at hval hend
  exact ⟨by omega, hend⟩

end Digits

/-- A string of digits is converted to the number it writes, if that is an `int`. -/
theorem atoi_of_digits {s : Str} (hne : s ≠ []) (hd : ∀ b ∈ s, isDigit b = true)
    (h : leadingDigits s < 2 ^ 31) : atoi s = leadingDigits s := by
  rw [atoi, (strtol_of_digits hne hd (by omega)).1, BitVec.toInt_ofInt]
  exact Int.bmod_eq_of_le (by omega) (by omega)

theorem atoi_printDecimal (h : n < 2 ^ 31) : atoi (printDecimal n) = n := by
  have hv := leadingDigits_printDecimal n
  rw [atoi_of_digits (printDecimal_ne_nil n) (fun _ => isDigit_of_mem_printDecimal n) (by omega),
    hv]

end Decimal

end CString
