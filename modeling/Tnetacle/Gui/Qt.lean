import Mathlib.Data.List.Basic
import Mathlib.Data.List.TakeWhile

/-! # The strings of the graphical client

A `QString` is the list of its UTF-16 code units. What `QString::toInt` makes of a text that
is not plain digits depends on the locale, so the function is given, with what holds of it
in every locale.
-/

namespace Tnetacle.Gui

abbrev QChar := BitVec 16
abbrev QString := List QChar

def qs (s : String) : QString := s.toList.map fun c => BitVec.ofNat 16 c.toNat

def dot : QChar := 46
def colon : QChar := 58
def hyphen : QChar := 45

def isDigit (c : QChar) : Bool := 48 ≤ c && c ≤ 57
def isLetter (c : QChar) : Bool := (65 ≤ c && c ≤ 90) || (97 ≤ c && c ≤ 122)

def decimal (s : QString) : ℕ := s.foldl (fun n c => 10 * n + (c.toNat - 48)) 0

def intMax : ℕ := 2147483647

/-- `QString::toInt(&ok)`, with `none` for a false `ok`. -/
structure Qt where
  toInt : QString → Option Int
  toInt_digits : ∀ s, s ≠ [] → (∀ c ∈ s, isDigit c = true) → decimal s ≤ intMax →
    toInt s = some (decimal s : Int)
  toInt_colon : ∀ s, colon ∈ s → toInt s = none

/-! ## The locale of C -/

def isBlank (c : QChar) : Bool := c = 32 || (9 ≤ c && c ≤ 13)

def trimmed (s : QString) : QString := ((s.dropWhile isBlank).reverse.dropWhile isBlank).reverse

/-- The value of digits behind a sign, if it is an `int`. -/
def signedDecimal (negative : Bool) (digits : QString) : Option Int :=
  if digits ≠ [] ∧ digits.all isDigit = true then
    if decimal digits ≤ if negative then intMax + 1 else intMax then
      some (if negative then -(decimal digits : Int) else decimal digits)
    else none
  else none

/-- Blanks around a number are skipped, and it may have a sign. -/
def toIntC (s : QString) : Option Int :=
  match trimmed s with
  | [] => none
  | c :: rest =>
    if c = 45 then signedDecimal true rest
    else if c = 43 then signedDecimal false rest
    else signedDecimal false (c :: rest)

theorem isBlank_of_isDigit {c : QChar} (h : isDigit c = true) :
    isBlank c = false ∧ c ≠ 45 ∧ c ≠ 43 := by
  simp only [isDigit, Bool.and_eq_true, decide_eq_true_eq] at h
  simp only [isBlank, Bool.or_eq_false_iff, decide_eq_false_iff_not, Bool.and_eq_false_iff]
  bv_omega

theorem trimmed_of_digits {s : QString} (h : ∀ c ∈ s, isDigit c = true) : trimmed s = s := by
  have hkeep : ∀ t : QString, (∀ c ∈ t, isDigit c = true) → t.dropWhile isBlank = t := by
    intro t ht
    cases t with
    | nil => rfl
    | cons c t =>
      rw [List.dropWhile_cons_of_neg]
      simp [(isBlank_of_isDigit (ht c List.mem_cons_self)).1]
  rw [trimmed, hkeep s h, hkeep s.reverse fun c hc => h c (List.mem_reverse.mp hc),
    List.reverse_reverse]

theorem mem_dropWhile_of_not {α : Type*} {p : α → Bool} {l : List α} {a : α} (ha : a ∈ l)
    (hp : p a = false) : a ∈ l.dropWhile p := by
  rw [← List.takeWhile_append_dropWhile (p := p) (l := l), List.mem_append] at ha
  rcases ha with htake | hdrop
  · rw [List.mem_takeWhile_imp htake] at hp
    cases hp
  · exact hdrop

theorem signedDecimal_of_not {negative : Bool} {digits : QString} {c : QChar} (hc : c ∈ digits)
    (hdigit : isDigit c = false) : signedDecimal negative digits = none := by
  rw [signedDecimal, if_neg]
  rintro ⟨-, hall⟩
  rw [List.all_eq_true.mp hall c hc] at hdigit
  cases hdigit

def qtC : Qt where
  toInt := toIntC
  toInt_digits s hne hdigits hle := by
    obtain ⟨c, rest, rfl⟩ := List.exists_cons_of_ne_nil hne
    obtain ⟨-, hminus, hplus⟩ := isBlank_of_isDigit (hdigits c List.mem_cons_self)
    rw [toIntC, trimmed_of_digits hdigits]
    simp only [hminus, hplus, if_false]
    rw [signedDecimal, if_pos ⟨hne, List.all_eq_true.mpr hdigits⟩]
    exact if_pos hle
  toInt_colon s hs := by
    have hmem : colon ∈ trimmed s := by
      rw [trimmed, List.mem_reverse]
      apply mem_dropWhile_of_not _ (by decide)
      rw [List.mem_reverse]
      exact mem_dropWhile_of_not hs (by decide)
    rw [toIntC]
    split
    · rfl
    · rename_i c rest htrimmed
      rw [htrimmed] at hmem
      have hrest : c ≠ colon → colon ∈ rest :=
        fun hne => (List.mem_cons.mp hmem).resolve_left hne.symm
      split
      · rename_i hminus
        exact signedDecimal_of_not (hrest (by rw [hminus]; decide)) (by decide)
      · split
        · rename_i hplus
          exact signedDecimal_of_not (hrest (by rw [hplus]; decide)) (by decide)
        · exact signedDecimal_of_not hmem (by decide)

end Tnetacle.Gui
