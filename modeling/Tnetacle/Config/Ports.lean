import Tnetacle.Library.Run
import Tnetacle.Library.Memory
import Tnetacle.Config.Json

/-! # The port tables

`ports` and `cports` as they lie in `struct options`, one after the other and before the family.
`yajl_number` copies a token to a buffer of twenty bytes, looks for the first entry that
is free and stores there, without a test that there is one.
-/

namespace Tnetacle.Config

open ByteOrder CString Runs Tables

inductive PortKey | port | clientPort
  deriving DecidableEq, Repr

def PortKey.key : PortKey → Key
  | .port => .port
  | .clientPort => .clientPort

def PortKey.base : PortKey → ℕ
  | .port => 0
  | .clientPort => tnetacleMaxPorts

structure PortToken where
  key : PortKey
  number : Number
  accepted : Bool

/--
The two tables and the family behind them, the indexes of the tables that were written, the
numbers so far, and whether one of them left the buffer without a terminator.
-/
structure PortTables where
  words : List Int := List.replicate (2 * tnetacleMaxPorts) (-1) ++ [0]
  indexes : List ℕ := []
  tokens : List PortToken := []
  unterminated : Bool := false

namespace PortTables

def table (s : PortTables) (k : PortKey) : List Int :=
  (s.words.drop k.base).take tnetacleMaxPorts

def reject (s : PortTables) (k : PortKey) (num : Number) : PortTables :=
  { s with tokens := s.tokens ++ [⟨k, num, false⟩] }

def store (s : PortTables) (k : PortKey) (num : Number) (ret : Int) : PortTables :=
  let i := search (-1) (s.table k)
  { s with
    words := s.words.set (k.base + i) ret
    indexes := s.indexes ++ [i]
    tokens := s.tokens ++ [⟨k, num, true⟩] }

/-- `yajl_number` under one of the two keys. -/
def yajlNumber (s : PortTables) (k : PortKey) (num : Number) : PortTables :=
  if 20 < num.text.length then s.reject k num
  else if num.text.length = 20 then { s with unterminated := true }
  else
    let ret := strtol num.text
    if strtolEnd num.text ≠ [] ∨ ret < 0 ∨ 65535 < ret then s.reject k num
    else s.store k num ret

def step (s : PortTables) (l : PortKey × Number) : Option PortTables :=
  if s.unterminated then none else some (s.yajlNumber l.1 l.2)

def wanted (s : PortTables) (k : PortKey) : List (Fin 65536) :=
  s.tokens.filterMap fun t => if t.key = k then t.number.port else none

/--
The buffer was always terminated and the tables never left, each table holds the ports of its own
key in order and is free behind them, and the numbers that were taken are the decimal
integers from 0 to 65535.
-/
structure Sound (s : PortTables) : Prop where
  terminated : s.unterminated = false
  indexes : ∀ i ∈ s.indexes, i < tnetacleMaxPorts
  room : ∀ k, (s.wanted k).length ≤ tnetacleMaxPorts
  table : ∀ k, s.table k = filled tnetacleMaxPorts (-1) ((s.wanted k).map fun v => (v.val : Int))
  accepted : ∀ t ∈ s.tokens, t.accepted = true ↔ t.number.port ≠ none

/-- The token leaves room for the terminator, and a port finds a free entry. -/
def Careful (s : PortTables) (l : PortKey × Number) : Prop :=
  l.2.text.length ≠ 20 ∧ (l.2.port ≠ none → (s.wanted l.1).length < tnetacleMaxPorts)

variable {s t : PortTables} {k k' : PortKey} {num : Number} {v : Fin 65536}

/-! ## What a number does -/

theorem wanted_append (s : PortTables) (k k' : PortKey) (num : Number) (b : Bool) :
    wanted { s with tokens := s.tokens ++ [⟨k, num, b⟩] } k' =
      s.wanted k' ++ if k = k' then num.port.toList else [] := by
  simp only [wanted, List.filterMap_append]
  congr 1
  split
  · rename_i h
    cases hp : num.port <;> simp [h, hp]
  · rename_i h
    simp [h]

theorem wanted_reject (h : num.port = none) (k' : PortKey) :
    (s.reject k num).wanted k' = s.wanted k' := by
  rw [reject, wanted_append, h]
  simp

theorem wanted_store (h : num.port = some v) (ret : Int) (k' : PortKey) :
    (s.store k num ret).wanted k' = s.wanted k' ++ if k = k' then [v] else [] := by
  have happ := wanted_append s k k' num true
  rw [h] at happ
  exact happ

theorem yajlNumber_of_eq (hlen : num.text.length = 20) :
    s.yajlNumber k num = { s with unterminated := true } := by
  rw [yajlNumber, if_neg (by omega), if_pos hlen]

theorem yajlNumber_of_none (hlen : num.text.length ≠ 20) (h : num.port = none) :
    s.yajlNumber k num = s.reject k num := by
  rw [yajlNumber]
  split
  · rfl
  · exact if_pos (Number.port_eq_none_iff.mp h)

theorem yajlNumber_of_some (h : num.port = some v) :
    s.yajlNumber k num = s.store k num v.val := by
  have hlen := Number.length_text_of_port h
  have hin : ¬ (strtolEnd num.text ≠ [] ∨ strtol num.text < 0 ∨ 65535 < strtol num.text) := by
    rw [← Number.port_eq_none_iff, h]
    exact Option.some_ne_none v
  rw [yajlNumber, if_neg (by omega), if_neg (by omega)]
  dsimp only
  rw [if_neg hin, Number.strtol_of_port h]

theorem table_set_self (words : List Int) (k : PortKey) (i : ℕ) (x : Int) :
    ((words.set (k.base + i) x).drop k.base).take tnetacleMaxPorts =
      ((words.drop k.base).take tnetacleMaxPorts).set i x := by
  rw [List.drop_set, if_neg (by omega), Nat.add_sub_cancel_left, List.take_set]

theorem table_set_ne (words : List Int) (hne : k ≠ k') {i : ℕ} (hi : i < tnetacleMaxPorts)
    (x : Int) :
    ((words.set (k.base + i) x).drop k'.base).take tnetacleMaxPorts =
      (words.drop k'.base).take tnetacleMaxPorts := by
  cases k <;> cases k'
  · exact absurd rfl hne
  · rw [List.drop_set, if_pos (by simp only [PortKey.base]; omega)]
  · rw [PortKey.base, PortKey.base, List.drop_zero, List.drop_zero, List.take_set,
      List.set_eq_of_length_le]
    rw [List.length_take]
    omega
  · exact absurd rfl hne

theorem search_table (h : s.Sound) (k : PortKey) :
    search (-1) (s.table k) = (s.wanted k).length := by
  rw [h.table, search_filled, List.length_map]
  intro hmem
  obtain ⟨v, -, hv⟩ := List.mem_map.mp hmem
  omega

/-! ## What a step keeps -/

theorem sound_reject (h : s.Sound) (hport : num.port = none) : (s.reject k num).Sound := by
  refine ⟨h.terminated, h.indexes, fun k' => ?_, fun k' => ?_, ?_⟩
  · rw [wanted_reject hport]
    exact h.room k'
  · rw [wanted_reject hport]
    exact h.table k'
  · rw [reject, List.forall_mem_append]
    exact ⟨h.accepted, by simp [hport]⟩

theorem sound_store_iff (h : s.Sound) (hport : num.port = some v) :
    (s.store k num v.val).Sound ↔ (s.wanted k).length < tnetacleMaxPorts := by
  have hsearch := search_table h k
  constructor
  · intro hsound
    have hi := hsound.indexes _ (List.mem_append_right _ (List.mem_singleton_self _))
    rwa [hsearch] at hi
  · intro hroom
    refine ⟨h.terminated, ?_, fun k' => ?_, fun k' => ?_, ?_⟩
    · rw [store, List.forall_mem_append, List.forall_mem_singleton, hsearch]
      exact ⟨h.indexes, hroom⟩
    · rw [wanted_store hport]
      split
      · rename_i hk
        subst hk
        rw [List.length_append, List.length_singleton]
        exact hroom
      · rw [List.append_nil]
        exact h.room k'
    · rw [wanted_store hport, store, table]
      dsimp only
      rw [hsearch]
      by_cases hk : k = k'
      · subst hk
        have htable := h.table k
        rw [table] at htable
        have hlen : (s.wanted k).length = ((s.wanted k).map fun v => (v.val : Int)).length := by
          rw [List.length_map]
        rw [table_set_self, htable, if_pos rfl, hlen, set_filled (by rwa [← hlen]), List.map_append]
        rfl
      · rw [table_set_ne _ hk hroom, if_neg hk, List.append_nil]
        exact h.table k'
    · rw [store, List.forall_mem_append]
      exact ⟨h.accepted, by simp [hport]⟩

/-- A number keeps the tables sound exactly when it is careful. -/
theorem sound_step_iff {l : PortKey × Number} (h : s.Sound) (hstep : step s l = some t) :
    t.Sound ↔ s.Careful l := by
  obtain ⟨k, num⟩ := l
  rw [step, h.terminated] at hstep
  obtain rfl := Option.some.inj hstep
  by_cases hlen : num.text.length = 20
  · constructor
    · intro hsound
      have hterm := hsound.terminated
      rw [yajlNumber_of_eq hlen] at hterm
      cases hterm
    · intro hcareful
      exact absurd hlen hcareful.1
  · cases hport : num.port with
    | none =>
      rw [yajlNumber_of_none hlen hport]
      exact ⟨fun _ => ⟨hlen, fun hne => absurd hport hne⟩, fun _ => sound_reject h hport⟩
    | some v =>
      rw [yajlNumber_of_some hport, sound_store_iff h hport]
      exact ⟨fun hroom => ⟨hlen, fun _ => hroom⟩,
        fun hcareful => hcareful.2 (hport ▸ Option.some_ne_none v)⟩

theorem table_init (k : PortKey) : table {} k = List.replicate tnetacleMaxPorts (-1) := by
  have hsplit : words {} = List.replicate tnetacleMaxPorts (-1) ++
      (List.replicate tnetacleMaxPorts (-1) ++ [0]) := by
    rw [← List.append_assoc, List.replicate_append_replicate, ← Nat.two_mul]
  have hlen : (List.replicate tnetacleMaxPorts (-1 : Int)).length = tnetacleMaxPorts :=
    List.length_replicate
  cases k with
  | port => rw [table, hsplit, PortKey.base, List.drop_zero, List.take_left' hlen]
  | clientPort => rw [table, hsplit, PortKey.base, List.drop_left' hlen, List.take_left' hlen]

theorem sound_init : Sound {} where
  terminated := rfl
  indexes := nofun
  room _ := Nat.zero_le _
  table := table_init
  accepted := nofun

/--
Along any sequence of numbers under the two keys, the buffer is terminated, the tables are never
left and hold the ports of their own keys in order, and exactly the decimal integers from 0
to 65535 are taken, if and only if no token has twenty bytes and no port comes when the
table of its key is full.
-/
theorem port_tables_sound_iff (ls : List (PortKey × Number)) :
    Throughout step Sound {} ls ↔ Along step Careful {} ls :=
  throughout_iff_along (I := fun _ => True) (fun _ _ _ _ _ => trivial)
    (fun _ _ _ _ h hstep => sound_step_iff h hstep) trivial sound_init

theorem step_of_port (h : s.Sound) (hport : num.port = some v) (k : PortKey) :
    step s (k, num) = some (s.store k num v.val) := by
  rw [step, h.terminated, yajlNumber_of_some hport]
  rfl

theorem exists_run_ports (hport : num.port = some v) {n : ℕ} (hn : n ≤ tnetacleMaxPorts) :
    ∃ s, Run step {} (List.replicate n (.port, num)) s ∧ s.Sound ∧ (s.wanted .port).length = n ∧
      s.wanted .clientPort = [] := by
  induction n with
  | zero => exact ⟨{}, .nil _, sound_init, rfl, rfl⟩
  | succ n ih =>
    obtain ⟨s, hrun, hs, hlen, hnone⟩ := ih (by omega)
    refine ⟨s.store .port num v.val, ?_, (sound_store_iff hs hport).mpr (by omega), ?_, ?_⟩
    · rw [List.replicate_succ']
      exact run_append_iff.mpr ⟨s, hrun, .cons (step_of_port hs hport _) (.nil _)⟩
    · simp [wanted_store hport, hlen]
    · simp [wanted_store hport, hnone]

/--
The port 1 is given once more than there is room for: it is stored in the table of the client ports.
A token of twenty digits: the buffer has no terminator.
-/
theorem port_table_overrun :
    (∃ s t, Run step {} (List.replicate tnetacleMaxPorts (.port, ⟨false, 1, none, none⟩)) s ∧
      step s (.port, ⟨false, 1, none, none⟩) = some t ∧ tnetacleMaxPorts ∈ t.indexes ∧
      (s.table .clientPort).head? = some (-1) ∧ (t.table .clientPort).head? = some 1 ∧
      ¬ t.Sound) ∧
    ∃ t, step {} (.port, ⟨false, 10 ^ 19, none, none⟩) = some t ∧ ¬ t.Sound := by
  have hport : Number.port ⟨false, 1, none, none⟩ = some 1 := rfl
  constructor
  · obtain ⟨s, hrun, hs, hlen, hnone⟩ := exists_run_ports hport (Nat.le_refl _)
    have hi : search (-1) (s.table .port) = tnetacleMaxPorts := (search_table hs _).trans hlen
    have htable : s.table .clientPort = List.replicate tnetacleMaxPorts (-1) := by
      rw [hs.table, hnone]
      rfl
    refine ⟨s, _, hrun, step_of_port hs hport _, ?_, ?_, ?_, ?_⟩
    · rw [store, hi]
      simp
    · rw [htable]
      rfl
    · have hset := table_set_self s.words .clientPort 0 1
      have hself : (s.words.drop (PortKey.base .clientPort)).take tnetacleMaxPorts = _ := htable
      rw [hself] at hset
      rw [store, hi, table]
      exact congrArg List.head? hset
    · rw [sound_store_iff hs hport]
      omega
  · have hlen : (Number.text ⟨false, 10 ^ 19, none, none⟩).length = 20 := by decide
    refine ⟨{ unterminated := true }, ?_, fun h => nomatch h.terminated⟩
    rw [step, yajlNumber_of_eq hlen]
    rfl

/-! ## The lists of the other model -/

structure Represents (s : PortTables) (o : Options) : Prop where
  ports : o.ports = (s.wanted .port).map Fin.val
  cports : o.cports = (s.wanted .clientPort).map Fin.val

theorem yajlNumber_text_of_none {map : Str} {o : Options} (hlen : num.text.length ≠ 20)
    (h : num.port = none) : Config.yajlNumber num.text map o = some o := by
  rw [Config.yajlNumber]
  split
  · rfl
  · exact if_pos (Number.port_eq_none_iff.mp h)

theorem yajlNumber_text_of_some {o : Options} (h : num.port = some v) (k : PortKey) :
    Config.yajlNumber num.text (ascii k.key.name) o = match k with
      | .port => (pushPort o.ports v).map fun ports => { o with ports := ports }
      | .clientPort => (pushPort o.cports v).map fun cports => { o with cports := cports } := by
  rw [yajlNumber_of_port h]
  cases k with
  | port => exact yajlNumber_printDecimal v.isLt _ o
  | clientPort => exact yajlNumber_printDecimal v.isLt _ o

theorem represents_step {o : Options} (h : s.Sound) (ho : s.Represents o)
    (hstep : step s (k, num) = some t) :
    (t.Sound → ∃ o', Config.yajlNumber num.text (ascii k.key.name) o = some o' ∧ t.Represents o') ∧
      (¬ t.Sound → Config.yajlNumber num.text (ascii k.key.name) o = none) := by
  rw [sound_step_iff h hstep]
  rw [step, h.terminated] at hstep
  obtain rfl := Option.some.inj hstep
  by_cases hlen : num.text.length = 20
  · refine ⟨fun hcareful => absurd hlen hcareful.1, fun _ => ?_⟩
    rw [Config.yajlNumber, if_neg (by omega), if_pos hlen]
  · cases hport : num.port with
    | none =>
      refine ⟨fun _ => ⟨o, yajlNumber_text_of_none hlen hport, ?_⟩, fun hno => ?_⟩
      · rw [yajlNumber_of_none hlen hport]
        exact ⟨by rw [wanted_reject hport]; exact ho.ports,
          by rw [wanted_reject hport]; exact ho.cports⟩
      · exact absurd ⟨hlen, fun hne => absurd hport hne⟩ hno
    | some v =>
      have hcareful : s.Careful (k, num) ↔ (s.wanted k).length < tnetacleMaxPorts :=
        ⟨fun h => h.2 (hport ▸ Option.some_ne_none v), fun h => ⟨hlen, fun _ => h⟩⟩
      rw [hcareful, yajlNumber_of_some hport, yajlNumber_text_of_some hport]
      have hports := ho.ports
      have hcports := ho.cports
      cases k with
      | port =>
        dsimp only
        rw [pushPort, hports, List.length_map]
        constructor
        · intro hroom
          rw [if_pos hroom]
          exact ⟨_, rfl, by simp [wanted_store hport], by simp [wanted_store hport, hcports]⟩
        · intro hfull
          rw [if_neg hfull]
          rfl
      | clientPort =>
        dsimp only
        rw [pushPort, hcports, List.length_map]
        constructor
        · intro hroom
          rw [if_pos hroom]
          exact ⟨_, rfl, by simp [wanted_store hport, hports], by simp [wanted_store hport]⟩
        · intro hfull
          rw [if_neg hfull]
          rfl

/-- A whole sequence of numbers on the tables and on the lists. -/
theorem represents_run {ls : List (PortKey × Number)} {o : Options} (hrun : Run step s ls t)
    (h : Throughout step Sound s ls) (ho : s.Represents o) :
    ∃ o', (ls.foldlM (fun o l => Config.yajlNumber l.2.text (ascii l.1.key.name) o) o) = some o' ∧
      t.Represents o' := by
  induction hrun generalizing o with
  | nil => exact ⟨o, rfl, ho⟩
  | @cons s t _ l ls hstep _ ih =>
    obtain ⟨o', heq, ho'⟩ := (represents_step h.head ho hstep).1 (h.2 t hstep).head
    obtain ⟨o'', hrest, ho''⟩ := ih (h.2 t hstep) ho'
    exact ⟨o'', by rw [List.foldlM_cons, heq]; exact hrest, ho''⟩

end PortTables

end Tnetacle.Config
