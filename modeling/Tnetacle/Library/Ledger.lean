import Mathlib.Data.List.Nodup
import Mathlib.Data.List.Perm.Lattice
import Mathlib.Data.List.Perm.Subperm

/-! # Ledgers of what is handed out

A ledger knows what has been handed out and not been given back. It is balanced against a list of
holdings when every item that is out is held exactly once, so that a loss and a second
holder both show.
-/

namespace Ledgers

/-- What is out, and the next name to be given. -/
structure Ledger where
  live : List ℕ := []
  next : ℕ := 0
  deriving DecidableEq, Repr

namespace Ledger

variable (l : Ledger)

def alloc : Ledger := ⟨l.live ++ [l.next], l.next + 1⟩

def free (n : ℕ) : Option Ledger :=
  if n ∈ l.live then some { l with live := l.live.erase n } else none

def freeAll (ns : List ℕ) : Option Ledger := ns.foldlM free l

variable {l}

/-- All items of a list are given back if and only if each one is out, as often as it is listed. -/
theorem freeAll_eq_none_iff {ns : List ℕ} : l.freeAll ns = none ↔ ¬ ns.Subperm l.live := by
  induction ns generalizing l with
  | nil => simp [freeAll]
  | cons n ns ih =>
    rw [freeAll, List.foldlM_cons, free]
    split
    · rename_i hn
      have hperm := List.perm_cons_erase hn
      rw [hperm.subperm_left, List.subperm_cons]
      exact ih
    · rename_i hn
      exact iff_of_true rfl fun hsub => hn (hsub.subset List.mem_cons_self)

end Ledger

/-- Every item that is out is held exactly once, and names are never used again. -/
structure Balanced (l : Ledger) (held : List ℕ) : Prop where
  perm : l.live.Perm held
  nodup : l.live.Nodup
  lt : ∀ n ∈ l.live, n < l.next

namespace Balanced

variable {l l' : Ledger} {held held' : List ℕ} {n : ℕ}

theorem empty : Balanced {} [] := ⟨.nil, .nil, by simp⟩

theorem congr (h : Balanced l held) (hp : held.Perm held') : Balanced l held' :=
  ⟨h.perm.trans hp, h.nodup, h.lt⟩

theorem alloc (h : Balanced l held) : Balanced l.alloc (l.next :: held) where
  perm := (List.perm_append_singleton _ _).trans (h.perm.cons _)
  nodup := by
    refine h.nodup.append (List.nodup_singleton _) (List.disjoint_singleton.mpr fun hn => ?_)
    exact Nat.lt_irrefl _ (h.lt _ hn)
  lt n hn := by
    rcases List.mem_append.mp hn with hn | hn
    · exact Nat.lt_succ_of_lt (h.lt n hn)
    · exact (List.mem_singleton.mp hn) ▸ Nat.lt_succ_self l.next

theorem alloc_append (h : Balanced l held) : Balanced l.alloc (held ++ [l.next]) :=
  h.alloc.congr (List.perm_append_singleton _ _).symm

theorem mem (h : Balanced l (n :: held)) : n ∈ l.live := h.perm.mem_iff.mpr List.mem_cons_self

theorem free (h : Balanced l (n :: held)) : ∃ l', l.free n = some l' ∧ Balanced l' held := by
  refine ⟨_, if_pos h.mem, ?_, h.nodup.erase n, fun m hm => h.lt m (List.mem_of_mem_erase hm)⟩
  simpa using h.perm.erase n

theorem freeAll {ns : List ℕ} (h : Balanced l (ns ++ held)) :
    ∃ l', l.freeAll ns = some l' ∧ Balanced l' held := by
  induction ns generalizing l with
  | nil => exact ⟨l, rfl, h⟩
  | cons n ns ih =>
    have hfirst : Balanced l (n :: (ns ++ held)) := h
    obtain ⟨m, hm, hbal⟩ := hfirst.free
    obtain ⟨l', hl', hend⟩ := ih hbal
    exact ⟨l', by rw [Ledger.freeAll, List.foldlM_cons, hm]; exact hl', hend⟩

theorem live_eq_nil_iff (h : Balanced l held) : l.live = [] ↔ held = [] := by
  rw [← List.length_eq_zero_iff, h.perm.length_eq, List.length_eq_zero_iff]

theorem not_of_lost (h : Balanced l (n :: held)) : ¬ Balanced l held := by
  intro h'
  have hlen := (h.perm.symm.trans h'.perm).length_eq
  simp at hlen

end Balanced

end Ledgers
