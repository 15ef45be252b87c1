import Tnetacle.Library.CString

/-! # Splitting a line into tokens

`next_token` and `split` of `server.c`. A token is the string from its pointer to
the terminator that `next_token` writes over the delimiter, and the saved pointer
is the string behind it, which no later call changes before it is returned.
-/

namespace Tnetacle.Meta

open CString

/-- The delimiters of `split`. -/
def delimiters : Str := ascii " :"

/-- The end of `next_token`: the token at `ptr` and the new saved pointer. -/
def cutToken (ptr delimit : Str) : Option Str × Option Str :=
  match strpbrk ptr delimit with
  | some i => (some (ptr.take i), some (ptr.drop (i + 1)))
  | none => (some ptr, none)

def nextToken (ptr saveit : Option Str) (delimit : Str) : Option Str × Option Str :=
  match ptr with
  | none =>
    match saveit with
    | none => (none, none)
    | some p => cutToken p delimit
  | some p => cutToken (p.drop (strspn p delimit)) delimit

theorem length_cutToken {p q tok delimit : Str} (h : cutToken p delimit = (some tok, some q)) :
    q.length < p.length := by
  unfold cutToken at h
  split at h
  · rename_i i hi
    simp only [Prod.mk.injEq, Option.some.injEq] at h
    obtain ⟨hlt, -⟩ := List.findIdx?_eq_some_iff_getElem.mp hi
    rw [← h.2, List.length_drop]
    omega
  · simp at h

/-- The loop of `split`, entered with the result of a call of `next_token`. -/
def splitLoop : Option Str × Option Str → List Str
  | (none, _) => []
  | (some tok, none) => tok :: splitLoop (nextToken none none delimiters)
  | (some tok, some p) => tok :: splitLoop (nextToken none (some p) delimiters)
termination_by r => match r with
  | (none, _) => 0
  | (some _, none) => 1
  | (some _, some p) => p.length + 2
decreasing_by
  · simp [nextToken]
  · simp only [nextToken]
    split
    · omega
    · omega
    · rename_i h
      have := length_cutToken h
      omega

def split (line : Str) : List Str := splitLoop (nextToken (some line) none delimiters)

theorem splitLoop_cutToken (p : Str) :
    splitLoop (cutToken p delimiters) = p.splitOnP (delimiters.contains ·) := by
  induction hn : p.length using Nat.strong_induction_on generalizing p with
  | _ n ih =>
    cases hi : strpbrk p delimiters with
    | none =>
      have hno : ∀ x ∈ p, delimiters.contains x = false := List.findIdx?_eq_none_iff.mp hi
      rw [List.splitOnP_eq_singleton hno]
      simp [cutToken, hi, splitLoop, nextToken]
    | some i =>
      obtain ⟨hlt, hpi, hbefore⟩ := List.findIdx?_eq_some_iff_getElem.mp hi
      have hno : ∀ x ∈ p.take i, delimiters.contains x = false := by
        intro x hx
        obtain ⟨j, hj, rfl⟩ := List.getElem_of_mem hx
        rw [List.length_take] at hj
        simpa using hbefore j (by omega)
      have hp : p = p.take i ++ p[i] :: p.drop (i + 1) := by simp
      have hrec := ih (p.drop (i + 1)).length (by simp; omega) (p.drop (i + 1)) rfl
      conv_rhs => rw [hp]
      rw [List.splitOnP_append_cons_of_forall_mem hno p[i] hpi, ← hrec]
      simp [cutToken, hi, splitLoop, nextToken]

theorem split_eq_splitOnP (line : Str) :
    split line =
      (line.drop (strspn line delimiters)).splitOnP (delimiters.contains ·) :=
  splitLoop_cutToken _

end Tnetacle.Meta
