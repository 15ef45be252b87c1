import Tnetacle.Library.Segments
import Tnetacle.Meta.Tokens

/-! # Splitting a line where it stands

`next_token` and `split` of `server.c` on the block of memory that holds the line: the
pointers are offsets into the block, and a terminator is written over every delimiter that
ends a token. The strings at the pointers that `split` returns, read once it has returned,
are the tokens that are computed from the line alone.
-/

namespace Tnetacle.Meta.InPlace

open CString ByteOrder Segments

def strAt (mem : List Byte) (p : ℕ) : Str := ofMemory (mem.drop p)

/-- The end of `next_token`: the pointer returned, the saved pointer and the block. -/
def cutToken (mem : List Byte) (ptr : ℕ) (delimit : Str) : Option ℕ × Option ℕ × List Byte :=
  match strpbrk (strAt mem ptr) delimit with
  | some i => (some ptr, some (ptr + i + 1), mem.set (ptr + i) 0)
  | none => (some ptr, none, mem)

def nextToken (mem : List Byte) (ptr saveit : Option ℕ) (delimit : Str) :
    Option ℕ × Option ℕ × List Byte :=
  match ptr with
  | none =>
    match saveit with
    | none => (none, none, mem)
    | some p => cutToken mem p delimit
  | some p => cutToken mem (p + strspn (strAt mem p) delimit) delimit

/-- How often the loop of `split` can still be entered, at most. -/
def togo (mem : List Byte) : Option ℕ → Option ℕ → ℕ
  | none, _ => 0
  | some _, none => 1
  | some _, some q => mem.length - q + 2

theorem lt_of_strpbrk {mem : List Byte} {p i : ℕ} {delimit : Str}
    (h : strpbrk (strAt mem p) delimit = some i) :
    i < (strAt mem p).length ∧ p + i < mem.length := by
  obtain ⟨hlt, -⟩ := List.findIdx?_eq_some_iff_getElem.mp h
  have hle : (strAt mem p).length ≤ (mem.drop p).length := (List.takeWhile_sublist _).length_le
  rw [List.length_drop] at hle
  exact ⟨hlt, by omega⟩

theorem togo_nextToken (mem : List Byte) (ptr : ℕ) (saveit : Option ℕ) :
    togo (nextToken mem none saveit delimiters).2.2 (nextToken mem none saveit delimiters).1
      (nextToken mem none saveit delimiters).2.1 < togo mem (some ptr) saveit := by
  cases saveit with
  | none => exact Nat.one_pos
  | some q =>
    simp only [nextToken, cutToken]
    split
    · rename_i i hi
      have hlt := (lt_of_strpbrk hi).2
      simp only [togo, List.length_set]
      omega
    · simp only [togo]
      omega

/-- The loop of `split`, entered with what a call of `next_token` has left. -/
def splitLoop (mem : List Byte) (ptr saveit : Option ℕ) : List ℕ × List Byte :=
  match ptr with
  | none => ([], mem)
  | some p =>
    let r := nextToken mem none saveit delimiters
    let rest := splitLoop r.2.2 r.1 r.2.1
    (p :: rest.1, rest.2)
termination_by togo mem ptr saveit
decreasing_by exact togo_nextToken mem p saveit

/-- The pointers that `split(line)` returns and the block it leaves. -/
def split (mem : List Byte) (line : ℕ) : List ℕ × List Byte :=
  let r := nextToken mem (some line) none delimiters
  splitLoop r.2.2 r.1 r.2.1

/-- The strings at the pointers that `split(line)` has returned. -/
def tokensAt (mem : List Byte) (line : ℕ) : List Str :=
  (split mem line).1.map (strAt (split mem line).2)

theorem strAt_of_cut {mem mem' : List Byte} {q i : ℕ} (hlt : i < (strAt mem q).length)
    (hmem : q + i < mem.length)
    (h : mem'.take (q + i + 1) = (mem.set (q + i) 0).take (q + i + 1)) :
    strAt mem' q = (strAt mem q).take i := by
  have hset : (mem.set (q + i) 0).take (q + i + 1) = mem.take (q + i) ++ [0] := by
    rw [List.take_succ_eq_append_getElem (by simpa using hmem), List.take_set_of_le (Nat.le_refl _)]
    simp
  have hsplit : mem' = mem.take (q + i) ++ 0 :: mem'.drop (q + i + 1) := by
    conv_lhs => rw [← List.take_append_drop (q + i + 1) mem', h, hset]
    simp
  rw [strAt, hsplit, List.drop_append_of_le_length (by simp; omega), List.drop_take,
    Nat.add_sub_cancel_left]
  exact ofMemory_cut (Nat.le_of_lt hlt)

theorem splitLoop_none (mem : List Byte) (q : ℕ) :
    splitLoop mem (some q) none = ([q], mem) := by
  rw [splitLoop]
  simp [nextToken, splitLoop]

/-- The loop from a pointer on leaves what is before the pointer, and the strings at the
pointers that it returns are the tokens of the string at the pointer. -/
theorem splitLoop_spec (mem : List Byte) (q : ℕ) :
    ∃ ptrs mem', splitLoop (cutToken mem q delimiters).2.2 (cutToken mem q delimiters).1
        (cutToken mem q delimiters).2.1 = (ptrs, mem') ∧
      mem'.take q = mem.take q ∧
      ptrs.map (strAt mem') = Meta.splitLoop (Meta.cutToken (strAt mem q) delimiters) := by
  induction hn : mem.length - q using Nat.strongRecOn generalizing mem q with
  | ind n ih =>
    subst hn
    cases hi : strpbrk (strAt mem q) delimiters with
    | none =>
      refine ⟨[q], mem, ?_, rfl, ?_⟩
      · simp only [cutToken, hi]
        exact splitLoop_none mem q
      · simp [Meta.cutToken, hi, Meta.splitLoop, Meta.nextToken]
    | some i =>
      obtain ⟨hlt, hmem⟩ := lt_of_strpbrk hi
      -- what is behind the delimiter is not changed by the terminator that is written over it
      have hbehind : strAt (mem.set (q + i) 0) (q + i + 1) = (strAt mem q).drop (i + 1) := by
        rw [strAt, List.drop_set_of_lt (show q + i < q + i + 1 by omega), strAt,
          Nat.add_assoc q i 1, ← List.drop_drop, ofMemory_drop hlt]
      obtain ⟨ptrs, mem', hloop, hbefore, htokens⟩ :=
        ih ((mem.set (q + i) 0).length - (q + i + 1)) (by simp; omega) (mem.set (q + i) 0)
          (q + i + 1) rfl
      refine ⟨q :: ptrs, mem', ?_, ?_, ?_⟩
      · simp only [cutToken, hi]
        rw [splitLoop]
        simp only [nextToken, hloop]
      · calc mem'.take q = (mem'.take (q + i + 1)).take q := by
              rw [List.take_take, Nat.min_eq_left (by omega)]
          _ = ((mem.set (q + i) 0).take (q + i + 1)).take q := by rw [hbefore]
          _ = mem.take q := by
              rw [List.take_take, Nat.min_eq_left (by omega), List.take_set_of_le (by omega)]
      · -- the token ends at the terminator, which no later turn of the loop touches
        have htoken : strAt mem' q = (strAt mem q).take i := strAt_of_cut hlt hmem hbefore
        rw [List.map_cons, htoken, htokens, hbehind]
        simp [Meta.cutToken, hi, Meta.splitLoop, Meta.nextToken]

theorem tokensAt_eq_split (mem : List Byte) (line : ℕ) :
    tokensAt mem line = Meta.split (strAt mem line) := by
  have hle : strspn (strAt mem line) delimiters ≤ (strAt mem line).length :=
    (List.takeWhile_sublist _).length_le
  have hstart : strAt mem (line + strspn (strAt mem line) delimiters) =
      (strAt mem line).drop (strspn (strAt mem line) delimiters) := by
    rw [strAt, ← List.drop_drop]
    exact ofMemory_drop hle
  obtain ⟨ptrs, mem', hloop, -, htokens⟩ :=
    splitLoop_spec mem (line + strspn (strAt mem line) delimiters)
  have hsplit : split mem line = (ptrs, mem') := hloop
  rw [tokensAt, hsplit, htokens, hstart]
  rfl

/--
The tokens of a line, wherever it stands in memory: with `r` the line without the delimiters
it starts with, they are the segments of `r` between its delimiters, the empty ones included.
-/
theorem tokensAt_segments (before text rest : List Byte) :
    let isDelimiter : Byte → Bool := (delimiters.contains ·)
    let r := (ofMemory text).dropWhile isDelimiter
    let tokens := tokensAt (before ++ (text ++ 0 :: rest)) before.length
    tokens = r.splitOnP isDelimiter ∧
      tokens.length = 1 + r.countP isDelimiter ∧
      (∀ token ∈ tokens, ∀ b ∈ token, isDelimiter b = false) ∧
      interleave tokens (r.filter isDelimiter) = r := by
  intro isDelimiter r tokens
  have htokens : tokens = r.splitOnP isDelimiter := by
    have hline : strAt (before ++ (text ++ 0 :: rest)) before.length = ofMemory text := by
      rw [strAt, List.drop_left, ofMemory_append_cons_zero]
    rw [show tokens = _ from tokensAt_eq_split _ _, hline, split_eq_splitOnP, drop_strspn]
  refine ⟨htokens, ?_, ?_, ?_⟩
  · rw [htokens, length_splitOnP, Nat.add_comm]
  · intro token htoken b hb
    rw [htokens] at htoken
    exact (of_mem_splitOnP isDelimiter r htoken hb).2
  · rw [htokens]
    exact List.splitOnP_spec r

end Tnetacle.Meta.InPlace
