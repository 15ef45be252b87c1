import Mathlib.Data.List.TakeWhile

/-! # Buffers in chains

A buffer whose contents lie in a list of memory chunks, its chains. Where a chain begins is up
to whoever adds the contents. A pointer into the first chain is good until all of the chain is
drained, when its memory is freed.
-/

namespace Chains

variable {β : Type*}

structure Cell (β : Type*) where
  value : β
  starts : Bool := false
  deriving DecidableEq

def values (buf : List (Cell β)) : List β := buf.map Cell.value

def firstChain : List (Cell β) → ℕ
  | [] => 0
  | _ :: rest => (rest.takeWhile fun c => !c.starts).length + 1

def startHead : List (Cell β) → List (Cell β)
  | [] => []
  | c :: rest => { c with starts := true } :: rest

/-- The first `n` cells are moved into one chain, unless they are in one. The chain is then
theirs alone. -/
def pullup (n : ℕ) (buf : List (Cell β)) : List (Cell β) :=
  if (buf.take n).length ≤ firstChain buf then buf
  else (buf.take n).map (fun c => { c with starts := false }) ++ startHead (buf.drop n)

@[simp] theorem values_nil : values ([] : List (Cell β)) = [] := rfl

@[simp] theorem values_cons (c : Cell β) (buf : List (Cell β)) :
    values (c :: buf) = c.value :: values buf := rfl

@[simp] theorem values_append (buf more : List (Cell β)) :
    values (buf ++ more) = values buf ++ values more := List.map_append

@[simp] theorem values_take (n : ℕ) (buf : List (Cell β)) :
    values (buf.take n) = (values buf).take n := List.map_take

@[simp] theorem values_drop (n : ℕ) (buf : List (Cell β)) :
    values (buf.drop n) = (values buf).drop n := List.map_drop

@[simp] theorem length_values (buf : List (Cell β)) : (values buf).length = buf.length :=
  List.length_map _

theorem values_startHead (buf : List (Cell β)) : values (startHead buf) = values buf := by
  cases buf <;> rfl

@[simp] theorem values_pullup (n : ℕ) (buf : List (Cell β)) :
    values (pullup n buf) = values buf := by
  rw [pullup]
  split
  · rfl
  · have hmap : values ((buf.take n).map fun c => { c with starts := false }) =
        values (buf.take n) := by
      rw [values, List.map_map]
      rfl
    rw [values_append, hmap, values_startHead, ← values_append, List.take_append_drop]

theorem pullup_two (a b : Cell β) (rest : List (Cell β)) :
    pullup 2 (a :: b :: rest) =
      if b.starts then { a with starts := false } :: { b with starts := false } :: startHead rest
      else a :: b :: rest := by
  cases hb : b.starts <;> simp [pullup, firstChain, hb]

theorem firstChain_le_two_iff {a b : Cell β} {rest : List (Cell β)} (hb : b.starts = false) :
    firstChain (a :: b :: rest) ≤ 2 ↔ ∀ c ∈ rest.head?, c.starts = true := by
  cases rest with
  | nil => simp [firstChain, hb]
  | cons c rest => cases hc : c.starts <;> simp [firstChain, hb, hc]

end Chains
