import Tnetacle.Gui.Qt
import Tnetacle.Library.Segments

/-! # The addresses that the graphical client accepts

`checkIP` of `controller.cpp` accepts what one of three functions accepts: four numbers
between dots, any six texts between colons, or a regular expression for names. Apart from
them stands what an address is: a dotted quad, a textual IPv6 address, a host name.
-/

namespace Tnetacle.Gui

open Segments

section Controller

variable (Q : Qt)

/-- The body of the loop of `checkIPv4`. -/
def byteNumber (element : QString) : Bool :=
  match Q.toInt element with
  | some nb => !(nb < 0 || nb > 255)
  | none => false

def checkIPv4 (str : QString) : Bool :=
  let elements := str.splitOn dot
  if elements.length ≠ 4 then false else elements.all (byteNumber Q)

/-- The check of the elements is commented out. -/
def checkIPv6 (str : QString) : Bool :=
  let elements := str.splitOn colon
  if elements.length ≠ 6 then false else true

/-- A character of `[a-zA-Z\-\.0-9]`. -/
def isHostNameChar (c : QChar) : Bool := isLetter c || c = hyphen || c = dot || isDigit c

/-- `^[a-zA-Z][a-zA-Z\-\.0-9]*[a-zA-Z]$` -/
def checkHostNameFormat : QString → Bool
  | [] => false
  | c :: rest => isLetter c && rest.getLast?.any isLetter && rest.dropLast.all isHostNameChar

def checkIP (str : QString) : Bool :=
  if checkIPv4 Q str then true
  else if checkIPv6 str then true
  else if checkHostNameFormat str then true
  else false

end Controller

/-! ## What an address is -/

def IsQuad (s : QString) : Prop :=
  (s.splitOn dot).length = 4 ∧ ∀ part ∈ s.splitOn dot,
    part ≠ [] ∧ (∀ c ∈ part, isDigit c = true) ∧ decimal part ≤ 255

def isHexDigit (c : QChar) : Bool := isDigit c || (65 ≤ c && c ≤ 70) || (97 ≤ c && c ≤ 102)

def IsGroup (s : QString) : Prop := s ≠ [] ∧ s.length ≤ 4 ∧ ∀ c ∈ s, isHexDigit c = true

inductive Groups : ℕ → QString → Prop
  | last {s : QString} : IsGroup s → Groups 1 s
  | cons {n : ℕ} {s t : QString} : IsGroup s → Groups n t → Groups (n + 1) (s ++ colon :: t)

/-- Groups with colons between them, the last two of which may be written as a dotted quad. -/
inductive Pieces : ℕ → QString → Prop
  | groups {n : ℕ} {s : QString} : Groups n s → Pieces n s
  | quad {s : QString} : IsQuad s → Pieces 2 s
  | groupsQuad {n : ℕ} {s t : QString} : Groups n s → IsQuad t → Pieces (n + 2) (s ++ colon :: t)

/-- A textual IPv6 address: eight groups, where two colons may stand for one group or more. -/
inductive IsIPv6 : QString → Prop
  | full {s : QString} : Pieces 8 s → IsIPv6 s
  | compressed {m n : ℕ} {s t : QString} : (m = 0 ∧ s = [] ∨ Groups m s) →
      (n = 0 ∧ t = [] ∨ Pieces n t) → m + n ≤ 7 → IsIPv6 (s ++ [colon, colon] ++ t)

/-- Labels of letters, digits and hyphens with dots between them. -/
def IsHost (s : QString) : Prop :=
  ∀ label ∈ s.splitOn dot, label ≠ [] ∧
    ∀ c ∈ label, (isLetter c || isDigit c || c = hyphen) = true

/-- Addresses are accepted, and what is neither an address nor a name is not. -/
structure CheckedRight (Q : Qt) (s : QString) : Prop where
  accepts : IsQuad s ∨ IsIPv6 s → checkIP Q s = true
  rejects : ¬ IsQuad s → ¬ IsIPv6 s → ¬ IsHost s → checkIP Q s = false

/-- Five colons are an IPv6 address, four numbers are written with nothing but the characters of
a name, and no label of a name is empty. -/
structure Plain (Q : Qt) (s : QString) : Prop where
  colons : IsIPv6 s ↔ s.count colon = 5
  numbers : checkIPv4 Q s = true → IsHost s
  labels : checkHostNameFormat s = true → [] ∉ s.splitOn dot

/-! ## The colon tells them apart -/

variable {Q : Qt} {s : QString}

theorem checkIPv6_iff : checkIPv6 s = true ↔ s.count colon = 5 := by
  have hlength : (s.splitOn colon).length = s.count colon + 1 := by
    rw [List.splitOn_eq_splitOnP, length_splitOnP, List.count]
  rw [checkIPv6, hlength]
  simp

theorem colon_mem_of_count (h : s.count colon = 5) : colon ∈ s :=
  List.count_pos_iff.mp (by omega)

theorem colon_not_mem {P : QString → Prop} (h : ∀ part ∈ s.splitOn dot, P part)
    (hP : ∀ part, P part → colon ∉ part) : colon ∉ s := by
  intro hmem
  obtain ⟨part, hpart, hcolon⟩ := exists_mem_splitOnP (· == dot) s hmem (by decide)
  rw [← List.splitOn_eq_splitOnP] at hpart
  exact hP part (h part hpart) hcolon

theorem colon_not_mem_of_checkIPv4 (h : checkIPv4 Q s = true) : colon ∉ s := by
  unfold checkIPv4 at h
  simp only at h
  split at h
  · cases h
  · refine colon_not_mem (List.all_eq_true.mp h) ?_
    intro part hpart hcolon
    rw [byteNumber, Q.toInt_colon part hcolon] at hpart
    cases hpart

theorem colon_not_mem_of_isHost (h : IsHost s) : colon ∉ s :=
  colon_not_mem h fun _ hlabel hcolon => absurd (hlabel.2 colon hcolon) (by decide)

theorem isHostNameChar_of_mem (h : checkHostNameFormat s = true) {c : QChar} (hc : c ∈ s) :
    isHostNameChar c = true := by
  have hletter : ∀ c, isLetter c = true → isHostNameChar c = true := by
    intro c hc
    simp [isHostNameChar, hc]
  cases s with
  | nil => cases hc
  | cons first rest =>
    simp only [checkHostNameFormat, Bool.and_eq_true] at h
    obtain ⟨⟨hfirst, hlast⟩, hmiddle⟩ := h
    rcases List.mem_cons.mp hc with rfl | hc
    · exact hletter c hfirst
    · cases hgl : rest.getLast? with
      | none =>
        rw [hgl] at hlast
        cases hlast
      | some last =>
        rw [hgl] at hlast
        rw [← List.dropLast_append_getLast? last hgl, List.mem_append, List.mem_singleton] at hc
        rcases hc with hc | rfl
        · exact List.all_eq_true.mp hmiddle c hc
        · exact hletter c hlast

theorem colon_not_mem_of_checkHostNameFormat (h : checkHostNameFormat s = true) : colon ∉ s :=
  fun hmem => absurd (isHostNameChar_of_mem h hmem) (by decide)

theorem Groups.colon_mem {n : ℕ} (h : Groups n s) (hn : n ≠ 1) : colon ∈ s := by
  cases h with
  | last => exact absurd rfl hn
  | cons => exact List.mem_append_right _ List.mem_cons_self

theorem colon_mem_of_isIPv6 (h : IsIPv6 s) : colon ∈ s := by
  cases h with
  | full hpieces =>
    cases hpieces with
    | groups hgroups => exact hgroups.colon_mem (by decide)
    | groupsQuad => exact List.mem_append_right _ List.mem_cons_self
  | compressed => simp

/-! ## What is accepted -/

theorem checkIPv4_of_isQuad (h : IsQuad s) : checkIPv4 Q s = true := by
  obtain ⟨hlength, hparts⟩ := h
  rw [checkIPv4]
  simp only [hlength, ne_eq, not_true_eq_false, if_false, List.all_eq_true]
  intro part hpart
  obtain ⟨hne, hdigits, hle⟩ := hparts part hpart
  have hmax : decimal part ≤ intMax := Nat.le_trans hle (by decide)
  rw [byteNumber, Q.toInt_digits part hne hdigits hmax]
  simp only [gt_iff_lt, Bool.not_eq_true', Bool.or_eq_false_iff, decide_eq_false_iff_not]
  omega

theorem isHost_of_isQuad (h : IsQuad s) : IsHost s := by
  intro label hlabel
  obtain ⟨hne, hdigits, -⟩ := h.2 label hlabel
  refine ⟨hne, fun c hc => ?_⟩
  simp [hdigits c hc]

theorem isHost_iff_of_checkHostNameFormat (h : checkHostNameFormat s = true) :
    IsHost s ↔ [] ∉ s.splitOn dot := by
  constructor
  · intro hhost hnil
    exact (hhost [] hnil).1 rfl
  · intro hnil label hlabel
    refine ⟨fun heq => hnil (heq ▸ hlabel), fun c hc => ?_⟩
    rw [List.splitOn_eq_splitOnP] at hlabel
    obtain ⟨hmem, hdot⟩ := of_mem_splitOnP _ s hlabel hc
    have hchar := isHostNameChar_of_mem h hmem
    have hne : c ≠ dot := by simpa using hdot
    simp only [isHostNameChar, hne, decide_false, Bool.or_false, Bool.or_eq_true] at hchar ⊢
    tauto

theorem checkIP_eq_true_iff : checkIP Q s = true ↔
    checkIPv4 Q s = true ∨ checkIPv6 s = true ∨ checkHostNameFormat s = true := by
  unfold checkIP
  split
  · simp_all
  · split
    · simp_all
    · split <;> simp_all

theorem CheckedRight.isHost (h : CheckedRight Q s) (hcheck : checkIP Q s = true)
    (hcolon : colon ∉ s) : IsHost s := by
  by_contra hhost
  have hreject := h.rejects (fun hquad => hhost (isHost_of_isQuad hquad))
    (fun hv6 => hcolon (colon_mem_of_isIPv6 hv6)) hhost
  rw [hcheck] at hreject
  cases hreject

theorem checkIP_of_colon_mem (h : colon ∈ s) : checkIP Q s = true ↔ s.count colon = 5 := by
  rw [checkIP_eq_true_iff, checkIPv6_iff]
  constructor
  · rintro (hv4 | hsix | hname)
    · exact absurd h (colon_not_mem_of_checkIPv4 hv4)
    · exact hsix
    · exact absurd h (colon_not_mem_of_checkHostNameFormat hname)
  · intro hsix
    exact .inr (.inl hsix)

theorem CheckedRight.isIPv6_iff (h : CheckedRight Q s) : IsIPv6 s ↔ s.count colon = 5 := by
  constructor
  · intro hv6
    exact (checkIP_of_colon_mem (colon_mem_of_isIPv6 hv6)).mp (h.accepts (.inr hv6))
  · intro hcount
    have hcolon := colon_mem_of_count hcount
    have hhost : ¬ IsHost s := fun hhost => colon_not_mem_of_isHost hhost hcolon
    by_contra hv6
    have hreject := h.rejects (fun hquad => hhost (isHost_of_isQuad hquad)) hv6 hhost
    rw [(checkIP_of_colon_mem hcolon).mpr hcount] at hreject
    cases hreject

theorem Plain.checkedRight (h : Plain Q s) : CheckedRight Q s := by
  constructor
  · rintro (hquad | hv6)
    · exact checkIP_eq_true_iff.mpr (.inl (checkIPv4_of_isQuad hquad))
    · exact (checkIP_of_colon_mem (colon_mem_of_isIPv6 hv6)).mpr (h.colons.mp hv6)
  · intro _ hv6 hhost
    by_contra hcheck
    rcases checkIP_eq_true_iff.mp (eq_true_of_ne_false hcheck) with hv4 | hsix | hname
    · exact hhost (h.numbers hv4)
    · exact hv6 (h.colons.mpr (checkIPv6_iff.mp hsix))
    · exact hhost ((isHost_iff_of_checkHostNameFormat hname).mpr (h.labels hname))

/--
Addresses and names are told from other texts exactly if the text has five colons just when it
is an IPv6 address, has no number that is written with other characters, and no empty label.
-/
theorem checkIP_right_iff (Q : Qt) (s : QString) : CheckedRight Q s ↔ Plain Q s := by
  constructor
  · intro h
    refine ⟨h.isIPv6_iff, ?_, ?_⟩
    · intro hv4
      exact h.isHost (checkIP_eq_true_iff.mpr (.inl hv4)) (colon_not_mem_of_checkIPv4 hv4)
    · intro hname
      apply (isHost_iff_of_checkHostNameFormat hname).mp
      exact h.isHost (checkIP_eq_true_iff.mpr (.inr (.inr hname)))
        (colon_not_mem_of_checkHostNameFormat hname)
  · exact Plain.checkedRight

/-- The loopback address of IPv6 is rejected; a name with an empty label and a quad with a blank
before it are accepted. -/
theorem checkIP_not_right :
    (IsIPv6 (qs "::1") ∧ checkIP qtC (qs "::1") = false ∧ ¬ CheckedRight qtC (qs "::1")) ∧
    (checkIP qtC (qs "a..b") = true ∧ ¬ CheckedRight qtC (qs "a..b")) ∧
    checkIP qtC (qs " 1.2.3.4") = true ∧ ¬ CheckedRight qtC (qs " 1.2.3.4") := by
  have hv6 : IsIPv6 (qs "::1") := by
    have htext : qs "::1" = [] ++ [colon, colon] ++ [49] := by decide
    have hgroup : IsGroup [49] := ⟨by decide, by decide, List.forall_mem_singleton.mpr rfl⟩
    rw [htext]
    exact .compressed (.inl ⟨rfl, rfl⟩) (.inr (.groups (.last hgroup))) (by decide)
  have hrejected : checkIP qtC (qs "::1") = false := by decide
  have hlabel : checkIP qtC (qs "a..b") = true := by decide
  have hblank : checkIP qtC (qs " 1.2.3.4") = true := by decide
  refine ⟨⟨hv6, hrejected, ?_⟩, ⟨hlabel, ?_⟩, hblank, ?_⟩
  · intro h
    have haccepted := h.accepts (.inr hv6)
    rw [hrejected] at haccepted
    cases haccepted
  · intro h
    have hhost := h.isHost hlabel (by decide)
    exact (hhost [] (by decide)).1 rfl
  · intro h
    have hhost := h.isHost hblank (by decide)
    exact absurd ((hhost (qs " 1") (by decide)).2 32 (by decide)) (by decide)

end Tnetacle.Gui
