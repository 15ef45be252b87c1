import Mathlib.Data.List.Nodup

/-! # Lists searched by a key

A table is a list that is searched for, and purged of, the first entry with a given
property. Where the keys of the entries are distinct, the entry found is the only one.
-/

namespace Keyed

variable {α κ : Type*}

section Search

variable {p : α → Bool} {l : List α} {a : α}

theorem split_of_find? (h : l.find? p = some a) :
    ∃ as bs, l = as ++ a :: bs ∧ l.eraseP p = as ++ bs ∧ l.findIdx p = as.length ∧
      p a = true ∧ ∀ b ∈ as, p b = false := by
  obtain ⟨ha, as, bs, rfl, has⟩ := List.find?_eq_some_iff_append.mp h
  have hno : ∀ b ∈ as, p b = false := fun b hb => by simpa using has b hb
  refine ⟨as, bs, rfl, ?_, ?_, ha, hno⟩
  · rw [List.eraseP_append_right _ (fun b hb => by simp [hno b hb]), List.eraseP_cons_of_pos ha]
  · rw [List.findIdx_append, if_neg (by simpa [List.findIdx_lt_length] using hno)]
    simp [List.findIdx_cons, ha]

theorem perm_cons_eraseP (h : l.find? p = some a) : l.Perm (a :: l.eraseP p) := by
  obtain ⟨as, bs, hl, he, -⟩ := split_of_find? h
  rw [he, hl]
  exact List.perm_middle

/--
Erasing the first entry with `p` clears a list of the entries with `r`, and only of
them, when that first entry is the only one with `r`.
-/
theorem eraseP_clears_iff {r : α → Bool} (hrp : ∀ b ∈ l, r b = true → p b = true) :
    ((∀ b ∈ l.eraseP p, r b = false) ∧
        (l.eraseP p).filter (fun b => !r b) = l.filter (fun b => !r b)) ↔
      ∀ b, l.find? p = some b → l.filter r = [b] := by
  cases hf : l.find? p with
  | none =>
    have hno : ∀ b ∈ l, ¬ p b = true := fun b hb => by simpa using List.find?_eq_none.mp hf b hb
    rw [List.eraseP_of_forall_not hno]
    simpa using fun b hb => by simpa using mt (hrp b hb) (hno b hb)
  | some c =>
    obtain ⟨as, bs, rfl, he, -, -, has⟩ := split_of_find? hf
    have hno : ∀ b ∈ as, r b = false := by
      intro b hb
      by_contra h
      have := hrp b (List.mem_append_left _ hb) (by simpa using h)
      simp [has b hb] at this
    have hnil : as.filter r = [] := List.filter_eq_nil_iff.mpr fun b hb => by simp [hno b hb]
    rw [he]
    cases hc : r c with
    | true =>
      simp only [List.filter_append, List.filter_cons, hc, hnil]
      simpa [List.filter_eq_nil_iff, or_imp, forall_and] using fun _ => hno
    | false =>
      constructor
      · rintro ⟨-, h⟩
        simp [List.filter_append, hc] at h
      · intro h
        have hmem : c ∈ (as ++ c :: bs).filter r := by rw [h c rfl]; simp
        simp [hc] at hmem

end Search

/-- Of distinct keys, erasing `k` leaves the others than `a` exactly when `k` is `a`. -/
theorem erase_perm_iff [DecidableEq κ] {keys rest : List κ} {a k : κ} (h : keys.Perm (a :: rest))
    (hn : keys.Nodup) : (keys.erase k).Perm rest ↔ k = a := by
  constructor
  · intro hp
    by_contra hne
    have ha : a ∈ keys.erase k := (List.mem_erase_of_ne (Ne.symm hne)).mpr (h.mem_iff.mpr (by simp))
    exact (List.nodup_cons.mp (h.nodup_iff.mp hn)).1 (hp.mem_iff.mp ha)
  · rintro rfl
    simpa using h.erase k

section Key

variable [DecidableEq κ] {key : α → κ} {l : List α} {a : α} {k : κ}

theorem find?_eq_some_iff (hl : (l.map key).Nodup) :
    l.find? (fun b => key b = k) = some a ↔ a ∈ l ∧ key a = k := by
  constructor
  · intro h
    exact ⟨List.mem_of_find?_eq_some h, by simpa using List.find?_some h⟩
  · rintro ⟨ha, rfl⟩
    cases hf : l.find? (fun b => key b = key a) with
    | none => simpa using List.find?_eq_none.mp hf a ha
    | some b =>
      have hb : key b = key a := by simpa using List.find?_some hf
      rw [List.inj_on_of_nodup_map hl (List.mem_of_find?_eq_some hf) ha hb]

theorem eraseP_eq_filter (hl : (l.map key).Nodup) :
    l.eraseP (fun b => key b = k) = l.filter (fun b => key b ≠ k) := by
  induction l with
  | nil => rfl
  | cons b l ih =>
    rw [List.map_cons, List.nodup_cons] at hl
    by_cases hb : key b = k
    · rw [List.eraseP_cons_of_pos (by simpa using hb), List.filter_cons_of_neg (by simp [hb]),
        List.filter_eq_self.mpr]
      intro c hc
      have hne : key c ≠ key b := fun h => hl.1 (h ▸ List.mem_map_of_mem hc)
      simpa [hb] using hne
    · rw [List.eraseP_cons_of_neg (by simpa using hb), List.filter_cons_of_pos (by simpa using hb),
        ih hl.2]

end Key

end Keyed
