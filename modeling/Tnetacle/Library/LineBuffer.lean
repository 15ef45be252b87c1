import Mathlib.Data.List.Basic
import Tnetacle.Library.ByteOrder

/-! # Lines of a byte stream

A line ends at a line feed, optionally preceded by a carriage return. Draining a
buffer takes its complete lines and keeps the bytes after the last line feed, and
the lines drained from a stream do not depend on how the stream is cut.
-/

namespace LineBuffer

open ByteOrder

def lineFeed : Byte := 10
def carriageReturn : Byte := 13

def cut : List Byte → Option (List Byte × List Byte)
  | [] => none
  | b :: bs => if b = lineFeed then some ([], bs) else (cut bs).map fun p => (b :: p.1, p.2)

def stripReturn (l : List Byte) : List Byte :=
  if l.getLast? = some carriageReturn then l.dropLast else l

def readln (buf : List Byte) : Option (List Byte × List Byte) :=
  (cut buf).map fun p => (stripReturn p.1, p.2)

/-- Scan `bs` when `cur` are the bytes seen since the last line feed. -/
def drainFrom (cur : List Byte) : List Byte → List (List Byte) × List Byte
  | [] => ([], cur)
  | b :: bs =>
    if b = lineFeed then
      (stripReturn cur :: (drainFrom [] bs).1, (drainFrom [] bs).2)
    else drainFrom (cur ++ [b]) bs

def drain (buf : List Byte) : List (List Byte) × List Byte := drainFrom [] buf

theorem drainFrom_eq (cur bs : List Byte) :
    drainFrom cur bs = match cut bs with
      | none => ([], cur ++ bs)
      | some (l, rest) => (stripReturn (cur ++ l) :: (drain rest).1, (drain rest).2) := by
  induction bs generalizing cur with
  | nil => simp [drainFrom, cut]
  | cons b bs ih =>
    by_cases hb : b = lineFeed
    · simp [drainFrom, cut, hb, drain]
    · rw [drainFrom, if_neg hb, ih, cut, if_neg hb]
      cases cut bs <;> simp

theorem drain_eq_readln (buf : List Byte) :
    drain buf = match readln buf with
      | none => ([], buf)
      | some (l, rest) => (l :: (drain rest).1, (drain rest).2) := by
  rw [drain, drainFrom_eq, readln]
  cases cut buf <;> simp

theorem drainFrom_append (cur bs cs : List Byte) :
    drainFrom cur (bs ++ cs) =
      ((drainFrom cur bs).1 ++ (drainFrom (drainFrom cur bs).2 cs).1,
        (drainFrom (drainFrom cur bs).2 cs).2) := by
  induction bs generalizing cur with
  | nil => simp [drainFrom]
  | cons b bs ih =>
    by_cases hb : b = lineFeed
    · simp [drainFrom, hb, ih]
    · simp [drainFrom, hb, ih]

theorem lineFeed_notMem_drainFrom {cur : List Byte} (h : lineFeed ∉ cur) (bs : List Byte) :
    lineFeed ∉ (drainFrom cur bs).2 := by
  induction bs generalizing cur with
  | nil => exact h
  | cons b bs ih =>
    by_cases hb : b = lineFeed
    · simpa [drainFrom, hb] using ih List.not_mem_nil
    · rw [drainFrom, if_neg hb]
      exact ih (by simp [h, Ne.symm hb])

theorem drainFrom_of_notMem (cur pre bs : List Byte) (h : lineFeed ∉ pre) :
    drainFrom (cur ++ pre) bs = drainFrom cur (pre ++ bs) := by
  induction pre generalizing cur with
  | nil => simp
  | cons b pre ih =>
    rw [List.mem_cons, not_or] at h
    rw [List.cons_append, drainFrom, if_neg (Ne.symm h.1), ← ih (cur ++ [b]) h.2]
    simp

theorem drain_append (bs cs : List Byte) :
    drain (bs ++ cs) =
      ((drain bs).1 ++ (drain ((drain bs).2 ++ cs)).1, (drain ((drain bs).2 ++ cs)).2) := by
  have hrem : lineFeed ∉ (drainFrom [] bs).2 := lineFeed_notMem_drainFrom List.not_mem_nil bs
  have hgo := drainFrom_of_notMem [] (drainFrom [] bs).2 cs hrem
  rw [drain, drainFrom_append, drain, drain, ← hgo, List.nil_append]

theorem drain_drain (bs : List Byte) : drain (drain bs).2 = ([], (drain bs).2) := by
  have hrem : lineFeed ∉ (drain bs).2 := lineFeed_notMem_drainFrom List.not_mem_nil bs
  have hgo := drainFrom_of_notMem [] (drain bs).2 [] hrem
  rw [List.append_nil] at hgo
  exact hgo.symm

theorem drainFrom_ne_nil (cur : List Byte) {bs : List Byte} (h : lineFeed ∈ bs) :
    (drainFrom cur bs).1 ≠ [] := by
  induction bs generalizing cur with
  | nil => cases h
  | cons b bs ih =>
    by_cases hb : b = lineFeed
    · simp [drainFrom, hb]
    · rw [drainFrom, if_neg hb]
      exact ih _ ((List.mem_cons.mp h).resolve_left (Ne.symm hb))

theorem drain_ne_nil {bs : List Byte} (h : lineFeed ∈ bs) : (drain bs).1 ≠ [] :=
  drainFrom_ne_nil [] h

theorem drain_resume {stream buf : List Byte} {lines : List (List Byte)}
    (h : drain stream = (lines ++ (drain buf).1, (drain buf).2)) (bs : List Byte) :
    drain (stream ++ bs) = (lines ++ (drain (buf ++ bs)).1, (drain (buf ++ bs)).2) := by
  rw [drain_append stream, drain_append buf, h, List.append_assoc]

theorem cut_append {l : List Byte} (h : lineFeed ∉ l) (rest : List Byte) :
    cut (l ++ lineFeed :: rest) = some (l, rest) := by
  induction l with
  | nil => simp [cut]
  | cons b l ih =>
    rw [List.mem_cons, not_or] at h
    rw [List.cons_append, cut, if_neg (Ne.symm h.1), ih h.2]
    rfl

/-- A line written with `\r\n` behind it is read back whole. -/
theorem drain_line {l : List Byte} (h : lineFeed ∉ l) (rest : List Byte) :
    drain (l ++ carriageReturn :: lineFeed :: rest) = (l :: (drain rest).1, (drain rest).2) := by
  have hcut : cut (l ++ carriageReturn :: lineFeed :: rest) =
      some (l ++ [carriageReturn], rest) := by
    have hl : lineFeed ∉ l ++ [carriageReturn] := by
      simpa [h] using (by decide : lineFeed ≠ carriageReturn)
    simpa using cut_append hl rest
  rw [drain_eq_readln, readln, hcut]
  simp [stripReturn]

end LineBuffer
