import Mathlib.Data.List.Forall2
import Tnetacle.Config.Order

/-! # JSON documents

The values that a configuration text can hold, as yajl reports them, and the documents among them
that write settings: every key is a known one, and every value is valid for its key.
-/

namespace Tnetacle.Config

open ByteOrder CString

/-! ## Numbers -/

abbrev Digits := { ds : Str // ds ≠ [] ∧ ∀ b ∈ ds, isDigit b = true }

structure Exponent where
  upper : Bool
  negative : Option Bool
  digits : Digits

/-- The number tokens of JSON, whose integer part has no leading zeros. -/
structure Number where
  negative : Bool := false
  int : ℕ
  frac : Option Digits := none
  exp : Option Exponent := none

namespace Number

def fracText : Option Digits → Str
  | none => []
  | some ds => 46 :: ds.1

def expText : Option Exponent → Str
  | none => []
  | some e => (if e.upper then 69 else 101) ::
      ((match e.negative with
        | none => []
        | some true => [45]
        | some false => [43]) ++ e.digits.1)

def tail (n : Number) : Str := fracText n.frac ++ expText n.exp

def text (n : Number) : Str :=
  (if n.negative then [45] else []) ++ (printDecimal n.int ++ n.tail)

def integer (n : Number) : Option Int :=
  if n.frac.isNone && n.exp.isNone then some (if n.negative then -n.int else n.int) else none

def port (n : Number) : Option (Fin 65536) :=
  match n.integer with
  | none => none
  | some i => if h : 0 ≤ i ∧ i ≤ 65535 then some ⟨i.toNat, by omega⟩ else none

variable (n : Number)

theorem takeWhile_tail : n.tail.takeWhile isDigit = [] := by
  rw [tail]
  cases n.frac with
  | some ds => rfl
  | none =>
    cases n.exp with
    | none => rfl
    | some e => cases hu : e.upper <;> simp [fracText, expText, hu, isDigit]

theorem tail_eq_nil_iff : n.tail = [] ↔ n.integer ≠ none := by
  rw [tail, integer]
  cases n.frac <;> cases n.exp <;> simp [fracText, expText]

/-- Where `strtol` stops in a token, and what it returns. -/
theorem strtolEnd_text : strtolEnd n.text = n.tail := by
  have hd : ∀ b ∈ printDecimal n.int, isDigit b = true := fun _ => isDigit_of_mem_printDecimal _
  rw [text]
  cases n.negative with
  | true => exact (strtol_neg_digits_append (printDecimal_ne_nil _) hd n.takeWhile_tail).2
  | false => exact (strtol_digits_append (printDecimal_ne_nil _) hd n.takeWhile_tail).2

theorem strtol_text : strtol n.text =
    if n.negative then max (-2 ^ 63) (-(n.int : Int)) else min (n.int : Int) (2 ^ 63 - 1) := by
  have hd : ∀ b ∈ printDecimal n.int, isDigit b = true := fun _ => isDigit_of_mem_printDecimal _
  have hlead := leadingDigits_printDecimal n.int
  rw [text]
  cases n.negative with
  | true =>
    have h := (strtol_neg_digits_append (printDecimal_ne_nil _) hd n.takeWhile_tail).1
    rwa [hlead] at h
  | false =>
    have h := (strtol_digits_append (printDecimal_ne_nil _) hd n.takeWhile_tail).1
    rwa [hlead] at h

variable {n}

/-- An integer has no tail, and `strtol` clamps its value. -/
theorem of_integer {i : Int} (h : n.integer = some i) :
    n.tail = [] ∧ n.int = i.natAbs ∧ strtol n.text = max (-2 ^ 63) (min i (2 ^ 63 - 1)) := by
  refine ⟨n.tail_eq_nil_iff.mpr (by simp [h]), ?_⟩
  rw [strtol_text]
  unfold integer at h
  split at h
  · obtain rfl := Option.some.inj h
    split <;> omega
  · cases h

/-- The tokens with a port are the decimal integers from 0 to 65535. -/
theorem port_eq_some_iff {v : Fin 65536} : n.port = some v ↔ n.integer = some (v.val : Int) := by
  have hv := v.isLt
  rw [port]
  cases n.integer with
  | none => simp
  | some i =>
    simp only [Option.some.injEq]
    constructor
    · intro h
      split at h
      · obtain rfl := Option.some.inj h
        simp only
        omega
      · cases h
    · rintro rfl
      rw [dif_pos (by omega)]
      simp

theorem strtol_of_port {v : Fin 65536} (h : n.port = some v) : strtol n.text = v.val := by
  obtain ⟨-, -, hval⟩ := of_integer (port_eq_some_iff.mp h)
  have hv := v.isLt
  omega

theorem length_text_of_port {v : Fin 65536} (h : n.port = some v) : n.text.length ≤ 6 := by
  obtain ⟨htail, hint, -⟩ := of_integer (port_eq_some_iff.mp h)
  have hv := v.isLt
  have hlen : (printDecimal n.int).length ≤ 5 := by
    rw [printDecimal, List.length_map, Nat.length_toDigits_le_iff (by omega) (by omega)]
    omega
  rw [text, htail, List.append_nil, List.length_append]
  have hsign : (if n.negative then [45] else [] : Str).length ≤ 1 := by
    split <;> simp
  omega

/-- `yajl_number` rejects exactly the tokens without a port, if it can read them. -/
theorem port_eq_none_iff : n.port = none ↔
    strtolEnd n.text ≠ [] ∨ strtol n.text < 0 ∨ 65535 < strtol n.text := by
  rw [strtolEnd_text]
  cases hi : n.integer with
  | none =>
    have htail : n.tail ≠ [] := fun h => n.tail_eq_nil_iff.mp h hi
    simp [port, hi, htail]
  | some i =>
    obtain ⟨htail, -, hval⟩ := of_integer hi
    rw [port, hi, hval]
    simp only [htail, ne_eq, not_true_eq_false, false_or, dite_eq_right_iff, reduceCtorEq,
      imp_false]
    omega

end Number

/-! ## Values -/

inductive Json
  | null
  | bool (b : Bool)
  | number (n : Number)
  | string (s : Str)
  | array (js : List Json)
  | object (ms : List (Str × Json))

mutual

def Json.events : Json → List Event
  | .null => [.null]
  | .bool b => [.boolean b]
  | .number n => [.number n.text]
  | .string s => [.string s]
  | .array js => .startArray :: elementEvents js ++ [.endArray]
  | .object ms => .startMap :: memberEvents ms ++ [.endMap]

def elementEvents : List Json → List Event
  | [] => []
  | j :: js => j.events ++ elementEvents js

def memberEvents : List (Str × Json) → List Event
  | [] => []
  | (key, j) :: ms => .mapKey key :: j.events ++ memberEvents ms

end

/-! ## Documents that write settings -/

variable {E : Evutil}

/-- The value `j` is how a document gives `v` to the key. -/
def Key.Writes : (k : Key) → k.Val E → Json → Prop
  | .compression, v, j | .encryption, v, j | .debug, v, j => j = .bool v
  | .tunnelIndex, v, j | .port, v, j | .clientPort, v, j => ∃ n, j = .number n ∧ n.port = some v
  | .address, s, j | .privateKey, s, j | .certFile, s, j => j = .string s
  | .addressFamily, f, j => j = .string (FamilyName.text f)
  | .mode, m, j => j = .string (ModeName.text m)
  | .tunnel, t, j => j = .string (TunnelName.text t)
  | .peerAddress, a, j => j = .string (AddressText.text a)
  | .listenAddress, a, j => j = .string (listenText a)

def Setting.Writes (s : Setting E) (m : Str × Json) : Prop :=
  m.1 = ascii s.key.name ∧ match s.shape with
    | .scalar v => s.key.Writes v m.2
    | .array vs => ∃ js, m.2 = .array js ∧ List.Forall₂ s.key.Writes vs js

def Describes (ms : List (Str × Json)) (ss : List (Setting E)) : Prop :=
  List.Forall₂ Setting.Writes ss ms

theorem yajlNumber_of_port {n : Number} {v : Fin 65536} (h : n.port = some v) :
    yajlNumber n.text = yajlNumber (printDecimal v) := by
  funext map o
  have hlen := Number.length_text_of_port h
  have hval := Number.strtol_of_port h
  have hin : ¬ (strtolEnd n.text ≠ [] ∨ strtol n.text < 0 ∨ 65535 < strtol n.text) := by
    rw [← Number.port_eq_none_iff, h]
    exact Option.some_ne_none v
  rw [hval] at hin
  rw [yajlNumber_printDecimal v.isLt, yajlNumber, if_neg (by omega), if_neg (by omega)]
  simp only [hval, Int.toNat_natCast]
  rw [if_neg hin]

theorem foldl_step_writes {k : Key} {v : k.Val E} {j : Json} (h : k.Writes v j) (p : Parser) :
    j.events.foldl (step E) p = step E p (k.event v) := by
  cases k with
  | tunnelIndex | port | clientPort =>
    obtain ⟨n, rfl, hn⟩ := h
    simp only [Json.events, List.foldl_cons, List.foldl_nil, step, yajlNumber_of_port hn, Key.event]
  | _ =>
    obtain rfl := h
    simp only [Json.events, List.foldl_cons, List.foldl_nil, Key.event]

theorem foldl_step_elements {k : Key} {vs : List (k.Val E)} {js : List Json}
    (h : List.Forall₂ k.Writes vs js) (p : Parser) :
    (elementEvents js).foldl (step E) p = (vs.map k.event).foldl (step E) p := by
  induction h generalizing p with
  | nil => simp only [elementEvents, List.map_nil]
  | cons hv _ ih =>
    simp only [elementEvents, List.foldl_append, List.map_cons, List.foldl_cons,
      foldl_step_writes hv, ih]

theorem foldl_step_member {s : Setting E} {m : Str × Json} (h : s.Writes m) (p : Parser) :
    (Event.mapKey m.1 :: m.2.events).foldl (step E) p = s.events.foldl (step E) p := by
  obtain ⟨k, shape⟩ := s
  obtain ⟨hkey, hvalue⟩ := h
  cases shape with
  | scalar v =>
    simp only [Setting.events, List.foldl_cons, hkey]
    exact foldl_step_writes hvalue _
  | array vs =>
    obtain ⟨js, hjs, hall⟩ := hvalue
    simp only [Setting.events, List.foldl_cons, hkey, hjs, Json.events, List.cons_append,
      List.foldl_append, foldl_step_elements hall]

theorem foldl_step_describes {ms : List (Str × Json)} {ss : List (Setting E)}
    (h : Describes ms ss) (p : Parser) :
    (memberEvents ms).foldl (step E) p = (ss.flatMap Setting.events).foldl (step E) p := by
  induction h generalizing p with
  | nil => simp only [memberEvents, List.flatMap_nil]
  | cons hs _ ih =>
    rw [memberEvents, List.foldl_append, foldl_step_member hs, ih, List.flatMap_cons,
      List.foldl_append]

end Tnetacle.Config
