import Mathlib.Data.List.Induction
import Tnetacle.Library.ByteOrder

/-! # Blocks of memory

A block is a list of known length, and copying into it replaces a range. A text that is written over
the beginning of another one leaves the rest of the longer text behind it, so that a place which is
never cleared holds the last text alone only while that is the longest one so far. A table is filled
from the left: its free entries hold a mark, and the search for the first one ends behind a table
that is full.
-/

namespace Memory

open ByteOrder

abbrev Block (n : ℕ) := { bytes : List Byte // bytes.length = n }

/-- `memcpy` of `bytes` to the offset `off`. -/
def overwrite (mem : List Byte) (off : ℕ) (bytes : List Byte) : List Byte :=
  mem.take off ++ bytes ++ mem.drop (off + bytes.length)

variable (mem bytes : List Byte)

theorem overwrite_zero : overwrite mem 0 bytes = bytes ++ mem.drop bytes.length := by
  simp [overwrite]

theorem drop_overwrite {off : ℕ} (h : off ≤ mem.length) :
    (overwrite mem off bytes).drop off = bytes ++ mem.drop (off + bytes.length) := by
  rw [overwrite, List.append_assoc, List.drop_append_of_le_length (by simp [h])]
  simp

end Memory

/-! ## Texts written over one another -/

namespace Overlays

variable {α : Type*} {old new : List α} {texts : List (List α)}

/-- What is there after `new` has been written over the beginning of `old`. -/
def overlay (old new : List α) : List α := new ++ old.drop new.length

def overlays (texts : List (List α)) : List α := texts.foldl overlay []

theorem length_overlay (old new : List α) :
    (overlay old new).length = max old.length new.length := by
  rw [overlay, List.length_append, List.length_drop]
  omega

/-- The new text is read back alone if and only if nothing sticks out behind it. -/
theorem overlay_eq_iff : overlay old new = new ↔ old.length ≤ new.length := by
  rw [overlay, List.append_right_eq_self, List.drop_eq_nil_iff]

theorem mem_overlay {a : α} (h : a ∈ overlay old new) : a ∈ old ∨ a ∈ new := by
  rcases List.mem_append.mp h with h | h
  · exact .inr h
  · exact .inl (List.mem_of_mem_drop h)

theorem overlays_concat (texts : List (List α)) (new : List α) :
    overlays (texts ++ [new]) = overlay (overlays texts) new := by
  rw [overlays, List.foldl_append]
  rfl

theorem length_overlays_le_iff {n : ℕ} :
    (overlays texts).length ≤ n ↔ ∀ text ∈ texts, text.length ≤ n := by
  induction texts using List.reverseRecOn with
  | nil => simp [overlays]
  | append_singleton texts new ih =>
    rw [overlays_concat, length_overlay, Nat.max_le, ih, List.forall_mem_append,
      List.forall_mem_singleton]

theorem mem_overlays {a : α} (h : a ∈ overlays texts) : ∃ text ∈ texts, a ∈ text := by
  induction texts using List.reverseRecOn with
  | nil => cases h
  | append_singleton texts new ih =>
    rw [overlays_concat] at h
    rcases mem_overlay h with h | h
    · obtain ⟨text, htext, ha⟩ := ih h
      exact ⟨text, List.mem_append_left _ htext, ha⟩
    · exact ⟨new, List.mem_append_right _ (List.mem_singleton.mpr rfl), h⟩

/-- The last text is alone if and only if no earlier one is longer. -/
theorem overlays_concat_eq_iff :
    overlays (texts ++ [new]) = new ↔ ∀ text ∈ texts, text.length ≤ new.length := by
  rw [overlays_concat, overlay_eq_iff, length_overlays_le_iff]

theorem overlay_append_replicate (blank : α) {size : ℕ} (hold : old.length ≤ size)
    (hnew : new.length ≤ size) :
    overlay (old ++ List.replicate (size - old.length) blank) new =
      overlay old new ++ List.replicate (size - (overlay old new).length) blank := by
  rw [length_overlay, overlay, overlay, List.drop_append, List.drop_replicate, List.append_assoc]
  congr 3
  omega

end Overlays

/-! ## Tables that are filled from the left -/

namespace Tables

variable {α : Type*}

def filled (n : ℕ) (mark : α) (values : List α) : List α :=
  values ++ List.replicate (n - values.length) mark

def search [DecidableEq α] (mark : α) (table : List α) : ℕ := table.findIdx (· = mark)

variable {n : ℕ} {mark : α} {values : List α}

theorem search_filled [DecidableEq α] (h : mark ∉ values) :
    search mark (filled n mark values) = values.length := by
  rw [filled]
  generalize n - values.length = k
  rw [search]
  induction values with
  | nil => cases k <;> simp [List.replicate_succ, List.findIdx_cons]
  | cons v vs ih =>
    rw [List.mem_cons, not_or] at h
    have hne : decide (v = mark) = false := decide_eq_false (Ne.symm h.1)
    rw [List.cons_append, List.findIdx_cons, hne, ih h.2]
    rfl

theorem set_filled (h : values.length < n) (v : α) :
    (filled n mark values).set values.length v = filled n mark (values ++ [v]) := by
  have hleft : n - values.length = n - (values.length + 1) + 1 := by omega
  rw [filled, filled, List.set_append_right _ _ (Nat.le_refl _), Nat.sub_self, hleft,
    List.replicate_succ, List.set_cons_zero, List.length_append, List.append_assoc]
  rfl

end Tables
