import Mathlib.Data.List.Nodup
import Mathlib.Data.List.TakeDrop

/-! # Growable vectors and their iterators

A vector is its elements and the storage that holds them. An iterator is a place in
a storage, so that it dangles once the vector has moved to another one.

A loop walks over a vector between iterators that it took at its start and passes over some
of the elements. While it rests at an element others are pushed or erased. As long as
the storage stays and nothing before the cursor is erased, the elements that are there
from the start to the end are visited once each.
-/

namespace Growable

variable {α : Type*}

structure Vec (α : Type*) where
  base : ℕ := 0
  data : List α := []
  deriving DecidableEq, Repr

structure Iter where
  base : ℕ
  idx : ℕ
  deriving DecidableEq, Repr

def Iter.next (it : Iter) : Iter := { it with idx := it.idx + 1 }

namespace Vec

variable (v : Vec α)

def first : Iter := ⟨v.base, 0⟩
def last : Iter := ⟨v.base, v.data.length⟩

def deref (it : Iter) : Option α := if it.base = v.base then v.data[it.idx]? else none

/-- A push appends, and may have to move the elements to a new storage. -/
def push (a : α) (moved : Bool) : Vec α := ⟨if moved then v.base + 1 else v.base, v.data ++ [a]⟩

def clean : Vec α := { v with data := [] }

@[simp] theorem data_push (a : α) (moved : Bool) : (v.push a moved).data = v.data ++ [a] := rfl

@[simp] theorem data_clean : v.clean.data = [] := rfl

theorem deref_eq_some_iff {it : Iter} {a : α} :
    v.deref it = some a ↔ it.base = v.base ∧ v.data[it.idx]? = some a := by
  unfold deref
  split <;> simp_all

variable {v}

theorem mem_of_deref {it : Iter} {a : α} (h : v.deref it = some a) : a ∈ v.data :=
  List.mem_of_getElem? ((deref_eq_some_iff v).mp h).2

end Vec

/-! ## Traversals of a vector that changes -/

/-- Where a loop comes to rest, with the number of elements that it has still before it. -/
inductive Stop
  | done
  | rest (it : Iter) (left : ℕ)
  | dangling
  deriving DecidableEq, Repr

/-- The loop goes on from `it`, with `n` calls of `next` between it and the end it knows. -/
def Vec.scan (skip : α → Bool) (v : Vec α) (it : Iter) : ℕ → Stop
  | 0 => .done
  | n + 1 =>
    match v.deref it with
    | none => .dangling
    | some a => if skip a then v.scan skip it.next n else .rest it n

/-- An erasure moves the following elements down by one. -/
def Vec.erase (v : Vec α) (i : ℕ) : Vec α := { v with data := v.data.eraseIdx i }

variable {skip : α → Bool} {v : Vec α} {it : Iter} {n : ℕ}

def Covered (skip : α → Bool) (l : List α) (c n : ℕ) : Prop :=
  c + n ≤ l.length ∨ ∃ k a, c ≤ k ∧ l[k]? = some a ∧ skip a = false

theorem covered_succ_iff {l : List α} {c : ℕ} {a : α} (ha : l[c]? = some a) (hskip : skip a) :
    Covered skip l c (n + 1) ↔ Covered skip l (c + 1) n := by
  have hc : c < l.length := (List.getElem?_eq_some_iff.mp ha).1
  refine or_congr (by omega) ⟨?_, ?_⟩
  · rintro ⟨k, b, hk, hb, hnot⟩
    refine ⟨k, b, ?_, hb, hnot⟩
    rcases Nat.lt_or_ge c k with hlt | hge
    · exact hlt
    · obtain rfl : k = c := by omega
      rw [ha, Option.some.injEq] at hb
      rw [hb, hnot] at hskip
      cases hskip
  · rintro ⟨k, b, hk, hb, hnot⟩
    exact ⟨k, b, by omega, hb, hnot⟩

/-- The loop reads past the end exactly when the elements before it are too few. -/
theorem scan_ne_dangling_iff (hbase : it.base = v.base) (hle : it.idx ≤ v.data.length) :
    v.scan skip it n ≠ .dangling ↔ Covered skip v.data it.idx n := by
  induction n generalizing it with
  | zero => simp [Vec.scan, Covered, hle]
  | succ n ih =>
    rw [Vec.scan]
    cases ha : v.data[it.idx]? with
    | none =>
      have hderef : v.deref it = none := by simp [Vec.deref, hbase, ha]
      have hlen := List.getElem?_eq_none_iff.mp ha
      simp only [hderef, ne_eq, not_true, false_iff, Covered, not_or, not_exists, not_and]
      refine ⟨by omega, fun k b hk hb => ?_⟩
      have := (List.getElem?_eq_some_iff.mp hb).1
      omega
    | some a =>
      have hderef : v.deref it = some a := by simp [Vec.deref, hbase, ha]
      have hlen := (List.getElem?_eq_some_iff.mp ha).1
      simp only [hderef]
      cases hskip : skip a with
      | true =>
        rw [if_pos rfl, covered_succ_iff ha hskip]
        exact @ih it.next hbase hlen
      | false =>
        simp only [Bool.false_eq_true, if_false, ne_eq, reduceCtorEq, not_false_eq_true, true_iff]
        exact .inr ⟨it.idx, a, Nat.le_refl _, ha, hskip⟩

theorem scan_rest_lt {it' : Iter} {m : ℕ} (h : v.scan skip it n = .rest it' m) : m < n := by
  induction n generalizing it with
  | zero => cases h
  | succ n ih =>
    rw [Vec.scan] at h
    split at h
    · cases h
    · split at h
      · exact Nat.lt_succ_of_lt (ih h)
      · cases h
        exact Nat.lt_succ_self _

theorem mem_take_eraseIdx {l : List α} {a : α} {i m : ℕ} (hnodup : l.Nodup)
    (hmem : a ∈ l.eraseIdx i) (htake : a ∈ l.take m) : a ∈ (l.eraseIdx i).take m := by
  obtain ⟨j, hj, rfl⟩ := List.mem_take_iff_getElem.mp htake
  obtain ⟨k, hk, hki, heq⟩ := List.mem_eraseIdx_iff_getElem.mp hmem
  obtain rfl := (hnodup.getElem_inj_iff).mp heq
  have hlen : (l.eraseIdx i).length = if i < l.length then l.length - 1 else l.length :=
    List.length_eraseIdx
  rw [List.mem_take_iff_getElem]
  rcases Nat.lt_or_gt_of_ne hki with hlt | hgt
  · refine ⟨k, ?_, List.getElem_eraseIdx_of_lt _ hlt⟩
    split at hlen <;> omega
  · refine ⟨k - 1, ?_, ?_⟩
    · split at hlen <;> omega
    · rw [List.getElem_eraseIdx_of_ge _ (by omega)]
      congr 1
      omega

variable [DecidableEq α] {old visited : List α} {c : ℕ}

/--
Of the elements `old`, those still there are behind the cursor `c` and visited, or among
the next `n` and not yet visited.
-/
structure Progress (skip : α → Bool) (old l visited : List α) (c n : ℕ) : Prop where
  nodup : l.Nodup
  le : c ≤ l.length
  behind : ∀ a ∈ old, a ∈ l.take c → skip a = false → visited.count a = 1
  ahead : ∀ a ∈ old, a ∈ l.drop c → visited.count a = 0 ∧ a ∈ (l.drop c).take n

namespace Progress

variable {l : List α}

theorem start (hnodup : l.Nodup) : Progress skip l l [] 0 l.length := by
  refine ⟨hnodup, Nat.zero_le _, ?_, ?_⟩
  · intro a _ ha
    simp at ha
  · intro a ha _
    simpa using ha

theorem push (h : Progress skip old l visited c n) {b : α} (hb : b ∉ l) (hold : b ∉ old) :
    Progress skip old (l ++ [b]) visited c n := by
  have hdrop : (l ++ [b]).drop c = l.drop c ++ [b] := List.drop_append_of_le_length h.le
  refine ⟨?_, ?_, ?_, ?_⟩
  · rw [← List.concat_eq_append]
    exact h.nodup.concat hb
  · have hle := h.le
    simp only [List.length_append, List.length_singleton]
    omega
  · intro a ha hmem
    rw [List.take_append_of_le_length h.le] at hmem
    exact h.behind a ha hmem
  · intro a ha hmem
    have hne : a ≠ b := fun heq => hold (heq ▸ ha)
    rw [hdrop] at hmem ⊢
    have hmem' : a ∈ l.drop c := by simpa [hne] using hmem
    obtain ⟨hcount, htake⟩ := h.ahead a ha hmem'
    refine ⟨hcount, ?_⟩
    rw [List.take_append]
    exact List.mem_append_left _ htake

theorem erase (h : Progress skip old l visited c n) {i : ℕ} (hi : c ≤ i) :
    Progress skip old (l.eraseIdx i) visited c n := by
  have hlen : (l.take c).length = c := List.length_take_of_le h.le
  have hsplit : l.eraseIdx i = l.take c ++ (l.drop c).eraseIdx (i - c) := by
    have hat := List.eraseIdx_append_of_length_le (hlen.symm ▸ hi) (l.drop c)
    rwa [List.take_append_drop, hlen] at hat
  have htake : (l.eraseIdx i).take c = l.take c := by
    rw [hsplit, List.take_left' hlen]
  have hdrop : (l.eraseIdx i).drop c = (l.drop c).eraseIdx (i - c) := by
    rw [hsplit, List.drop_left' hlen]
  refine ⟨h.nodup.sublist (List.eraseIdx_sublist l i), ?_, ?_, ?_⟩
  · have hle := h.le
    rw [List.length_eraseIdx]
    split <;> omega
  · intro a ha hmem
    rw [htake] at hmem
    exact h.behind a ha hmem
  · intro a ha hmem
    rw [hdrop] at hmem ⊢
    obtain ⟨hcount, htake⟩ := h.ahead a ha (List.mem_of_mem_eraseIdx hmem)
    exact ⟨hcount, mem_take_eraseIdx (h.nodup.sublist (List.drop_sublist c l)) hmem htake⟩

theorem advance (h : Progress skip old l visited c (n + 1)) {b : α} (hb : l[c]? = some b) :
    l.take (c + 1) = l.take c ++ [b] ∧
      ∀ a ∈ old, a ∈ l.drop (c + 1) → a ≠ b ∧ a ∈ l.drop c ∧ a ∈ (l.drop (c + 1)).take n := by
  obtain ⟨hc, hget⟩ := List.getElem?_eq_some_iff.mp hb
  have hdrop : l.drop c = b :: l.drop (c + 1) := hget ▸ List.drop_eq_getElem_cons hc
  refine ⟨by rw [List.take_add_one, hb, Option.toList_some], ?_⟩
  intro a ha hmem
  have hnodup : (b :: l.drop (c + 1)).Nodup := hdrop ▸ h.nodup.sublist (List.drop_sublist c l)
  have hne : a ≠ b := fun heq => (List.nodup_cons.mp hnodup).1 (heq ▸ hmem)
  have hbefore : a ∈ l.drop c := hdrop ▸ List.mem_cons_of_mem b hmem
  have htake := (h.ahead a ha hbefore).2
  rw [hdrop, List.take_succ_cons, List.mem_cons] at htake
  exact ⟨hne, hbefore, htake.resolve_left hne⟩

theorem skipped (h : Progress skip old l visited c (n + 1)) {b : α} (hb : l[c]? = some b)
    (hskip : skip b = true) : Progress skip old l visited (c + 1) n := by
  obtain ⟨htake, hdrop⟩ := h.advance hb
  refine ⟨h.nodup, (List.getElem?_eq_some_iff.mp hb).1, ?_, ?_⟩
  · intro a ha hmem hnot
    rw [htake, List.mem_append, List.mem_singleton] at hmem
    rcases hmem with hmem | rfl
    · exact h.behind a ha hmem hnot
    · rw [hskip] at hnot
      cases hnot
  · intro a ha hmem
    obtain ⟨-, hbefore, hnext⟩ := hdrop a ha hmem
    exact ⟨(h.ahead a ha hbefore).1, hnext⟩

theorem visit (h : Progress skip old l visited c (n + 1)) {b : α} (hb : l[c]? = some b) :
    Progress skip old l (visited ++ [b]) (c + 1) n := by
  obtain ⟨htake, hdrop⟩ := h.advance hb
  have hc := (List.getElem?_eq_some_iff.mp hb).1
  have hahead : b ∈ l.drop c :=
    List.mem_of_getElem? (i := 0) (by rw [List.getElem?_drop, Nat.add_zero, hb])
  have hdisjoint := List.disjoint_take_drop h.nodup (Nat.le_refl c)
  refine ⟨h.nodup, hc, ?_, ?_⟩
  · intro a ha hmem hnot
    rw [htake, List.mem_append, List.mem_singleton] at hmem
    rcases hmem with hmem | rfl
    · have hne : b ≠ a := fun heq => hdisjoint hmem (heq ▸ hahead)
      rw [List.count_append, List.count_singleton, h.behind a ha hmem hnot]
      simp [hne]
    · rw [List.count_append, (h.ahead a ha hahead).1]
      simp
  · intro a ha hmem
    obtain ⟨hne, hbefore, hnext⟩ := hdrop a ha hmem
    refine ⟨?_, hnext⟩
    rw [List.count_append, (h.ahead a ha hbefore).1]
    simp [hne.symm]

theorem finish (h : Progress skip old l visited c 0) {a : α} (ha : a ∈ old) (hl : a ∈ l)
    (hskip : skip a = false) : visited.count a = 1 := by
  rcases List.mem_append.mp ((List.take_append_drop c l).symm ▸ hl) with hbehind | hahead
  · exact h.behind a ha hbehind hskip
  · have := (h.ahead a ha hahead).2
    simp at this

theorem of_scan_done (h : Progress skip old v.data visited it.idx n)
    (hdone : v.scan skip it n = .done) {a : α} (ha : a ∈ old) (hv : a ∈ v.data)
    (hskip : skip a = false) : visited.count a = 1 := by
  induction n generalizing it with
  | zero => exact h.finish ha hv hskip
  | succ n ih =>
    rw [Vec.scan] at hdone
    split at hdone
    · cases hdone
    · rename_i b hb
      have hget := ((v.deref_eq_some_iff).mp hb).2
      split at hdone
      · rename_i hpass
        exact @ih it.next (h.skipped hget hpass) hdone
      · cases hdone

theorem of_scan_rest (h : Progress skip old v.data visited it.idx n) {it' : Iter} {m : ℕ}
    (hrest : v.scan skip it n = .rest it' m) :
    Progress skip old v.data visited it'.idx (m + 1) ∧ it'.base = v.base := by
  induction n generalizing it with
  | zero => cases hrest
  | succ n ih =>
    rw [Vec.scan] at hrest
    split at hrest
    · cases hrest
    · rename_i b hb
      obtain ⟨hbase, hget⟩ := (v.deref_eq_some_iff).mp hb
      split at hrest
      · rename_i hpass
        exact @ih it.next (h.skipped hget hpass) hrest
      · cases hrest
        exact ⟨h, hbase⟩

end Progress

end Growable
