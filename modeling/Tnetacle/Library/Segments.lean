import Mathlib.Data.List.Basic

/-! # The segments of a list

A list is cut at the elements with a property, its separators. There is one segment more
than there are separators, no segment holds one, and the segments and the separators give
the list back.
-/

namespace Segments

variable {α : Type*} (p : α → Bool) (l : List α)

def interleave (segments : List (List α)) (separators : List α) : List α :=
  (List.zipWith (· ++ ·) segments (separators.map ([·]) ++ [[]])).flatten

theorem length_splitOnP : (l.splitOnP p).length = l.countP p + 1 := by
  induction l with
  | nil => rfl
  | cons a l ih =>
    rw [List.splitOnP_cons_eq_if_modifyHead]
    cases hp : p a with
    | true => simp [hp, ih]
    | false => simp [hp, ih]

theorem of_mem_splitOnP {segment : List α} (hs : segment ∈ l.splitOnP p) {a : α}
    (ha : a ∈ segment) : a ∈ l ∧ p a = false := by
  induction l generalizing segment with
  | nil =>
    rw [List.splitOnP_nil, List.mem_singleton] at hs
    subst hs
    cases ha
  | cons b l ih =>
    rw [List.splitOnP_cons_eq_if_modifyHead] at hs
    have hrest : ∀ segment ∈ l.splitOnP p, a ∈ segment → a ∈ b :: l ∧ p a = false := by
      intro segment hs ha
      obtain ⟨hmem, hnot⟩ := ih hs ha
      exact ⟨List.mem_cons_of_mem _ hmem, hnot⟩
    cases hp : p b with
    | true =>
      simp only [hp, if_true, List.mem_cons] at hs
      rcases hs with rfl | hs
      · cases ha
      · exact hrest segment hs ha
    | false =>
      obtain ⟨first, others, hsplit⟩ := List.exists_cons_of_ne_nil (List.splitOnP_ne_nil p l)
      rw [hsplit] at hrest
      simp only [hp, Bool.false_eq_true, if_false, hsplit, List.modifyHead_cons,
        List.mem_cons] at hs
      rcases hs with rfl | hs
      · rcases List.mem_cons.mp ha with rfl | ha
        · exact ⟨List.mem_cons_self, hp⟩
        · exact hrest first List.mem_cons_self ha
      · exact hrest segment (List.mem_cons_of_mem _ hs) ha

theorem exists_mem_splitOnP {a : α} (ha : a ∈ l) (hp : p a = false) :
    ∃ segment ∈ l.splitOnP p, a ∈ segment := by
  induction l with
  | nil => cases ha
  | cons b l ih =>
    rw [List.splitOnP_cons_eq_if_modifyHead]
    cases hb : p b with
    | true =>
      have hmem : a ∈ l := by
        rcases List.mem_cons.mp ha with rfl | hmem
        · rw [hp] at hb
          cases hb
        · exact hmem
      obtain ⟨segment, hs, has⟩ := ih hmem
      exact ⟨segment, List.mem_cons_of_mem _ hs, has⟩
    | false =>
      obtain ⟨first, rest, hrest⟩ := List.exists_cons_of_ne_nil (List.splitOnP_ne_nil p l)
      rw [hrest] at ih ⊢
      simp only [Bool.false_eq_true, if_false, List.modifyHead_cons]
      rcases List.mem_cons.mp ha with rfl | hmem
      · exact ⟨_, List.mem_cons_self, List.mem_cons_self⟩
      · obtain ⟨segment, hs, has⟩ := ih hmem
        rcases List.mem_cons.mp hs with rfl | hs
        · exact ⟨_, List.mem_cons_self, List.mem_cons_of_mem _ has⟩
        · exact ⟨segment, List.mem_cons_of_mem _ hs, has⟩

end Segments
