import Mathlib.Combinatorics.SimpleGraph.Acyclic
import Mathlib.Algebra.Order.BigOperators.Group.Finset
import Tnetacle.Library.Run

/-! # Flooding a graph

A node that gets a message passes it to all its neighbours but the one it came from.
One message is sent by a node to all its neighbours, and messages are delivered in any
order. Every other node gets it exactly once and the node it came from never does, from
whichever node it is sent, exactly when the graph has no cycle.
-/

namespace Flooding

open Runs SimpleGraph

/-! ## The way to a node of a tree -/

section Tree

variable {V : Type*} {G : SimpleGraph V} {a b v : V}

/-- A message from `a` to `b` comes nearer to `v`. -/
def Nearer (G : SimpleGraph V) (v a b : V) : Prop := G.dist a v = G.dist b v + 1

/-- From every other node of a tree, one edge leads towards `v`. -/
theorem existsUnique_nearer (hG : G.IsTree) (hne : v ≠ b) : ∃! c, G.Adj b c ∧ Nearer G v b c := by
  obtain ⟨p, hp⟩ := hG.connected.exists_walk_length_eq_dist b v
  cases p with
  | nil => exact absurd rfl hne
  | @cons _ c _ hbc q =>
    refine ⟨c, ⟨hbc, ?_⟩, ?_⟩
    · have hle := hG.connected.dist_triangle (u := b) (v := c) (w := v)
      have hq := dist_le q
      rw [dist_eq_one_iff_adj.mpr hbc] at hle
      rw [Walk.length_cons] at hp
      rw [Nearer]
      omega
    · rintro c' ⟨hbc', hc'⟩
      obtain ⟨q', hq'⟩ := hG.connected.exists_walk_length_eq_dist c' v
      have hpath := Walk.isPath_of_length_eq_dist _ hp
      have hpath' : (Walk.cons hbc' q').IsPath := by
        apply Walk.isPath_of_length_eq_dist
        rw [Walk.length_cons, hq', hc']
      have heq := (hG.isAcyclic.subsingleton_path b v).elim ⟨_, hpath⟩ ⟨_, hpath'⟩
      simp only [Subtype.mk.injEq, Walk.cons.injEq] at heq
      exact heq.1.symm

/-- Of the two directions of an edge, one comes nearer. -/
theorem nearer_swap_iff (hG : G.IsTree) (hab : G.Adj a b) :
    Nearer G v b a ↔ ¬ Nearer G v a b := by
  have h := hG.dist_eq_dist_add_one_of_adj v hab
  simp only [Nearer, dist_comm (v := v)]
  omega

theorem not_nearer_self : ¬ Nearer G a a b := by
  rw [Nearer, dist_self]
  omega

/-- The lists name every neighbour once. -/
structure Lists (G : SimpleGraph V) (nbr : V → List V) : Prop where
  nodup : ∀ v, (nbr v).Nodup
  mem_iff : ∀ v w, w ∈ nbr v ↔ G.Adj v w

open Classical in
/-- Of the messages that a node sends to its neighbours, one comes nearer to `v`. -/
theorem countP_nbr [DecidableEq V] {nbr : V → List V} (hG : G.IsTree) (hL : Lists G nbr) (b v : V) :
    (nbr b).countP (fun c => Nearer G v b c) = if v = b then 0 else 1 := by
  split
  · rename_i heq
    subst heq
    rw [List.countP_eq_zero]
    intro c _
    simpa using not_nearer_self
  · rename_i hne
    obtain ⟨c, ⟨hbc, hc⟩, huniq⟩ := existsUnique_nearer hG hne
    rw [← List.count_eq_one_of_mem (hL.nodup b) ((hL.mem_iff b c).mpr hbc), List.count]
    apply List.countP_congr
    intro x hx
    rw [decide_eq_true_eq, beq_iff_eq]
    constructor
    · intro h
      exact huniq x ⟨(hL.mem_iff b x).mp hx, h⟩
    · rintro rfl
      exact hc

end Tree

/-! ## The messages -/

variable {V : Type*} [DecidableEq V]

structure State (V : Type*) where
  inFlight : List (V × V)
  received : V → ℕ

def relay (nbr : V → List V) (a b : V) : List (V × V) :=
  ((nbr b).filter fun c => c ≠ a).map fun c => (b, c)

def step (nbr : V → List V) (s : State V) (i : ℕ) : Option (State V) :=
  match s.inFlight[i]? with
  | none => none
  | some (a, b) => some {
      inFlight := s.inFlight.eraseIdx i ++ relay nbr a b
      received := Function.update s.received b (s.received b + 1) }

def inject (nbr : V → List V) (r : V) : State V := ⟨(nbr r).map fun c => (r, c), fun _ => 0⟩

/-- Every other node has got the message once, and `r` has not. -/
def Once (r : V) (s : State V) : Prop := ∀ v, s.received v = if v = r then 0 else 1

variable {nbr : V → List V} {G : SimpleGraph V} {s t : State V} {i : ℕ} {a b r : V}

theorem step_inv (h : step nbr s i = some t) :
    ∃ a b, s.inFlight[i]? = some (a, b) ∧ t = {
      inFlight := s.inFlight.eraseIdx i ++ relay nbr a b
      received := Function.update s.received b (s.received b + 1) } := by
  unfold step at h
  split at h
  · cases h
  · rename_i a b hm
    exact ⟨a, b, hm, (Option.some.inj h).symm⟩

theorem final_iff : Final (step nbr) s ↔ s.inFlight = [] := by
  constructor
  · intro h
    have h₀ := h 0
    cases hs : s.inFlight with
    | nil => rfl
    | cons m rest => simp [step, hs] at h₀
  · intro h i
    simp [step, h]

theorem mem_relay_iff {m : V × V} : m ∈ relay nbr a b ↔ m.1 = b ∧ m.2 ∈ nbr b ∧ m.2 ≠ a := by
  rcases m with ⟨x, y⟩
  simp only [relay, List.mem_map, List.mem_filter, Prod.mk.injEq, decide_eq_true_eq]
  constructor
  · rintro ⟨c, hc, rfl, rfl⟩
    exact ⟨rfl, hc⟩
  · rintro ⟨rfl, hy⟩
    exact ⟨y, hy, rfl, rfl⟩

theorem received_le_of_run {is : List ℕ} (h : Run (step nbr) s is t) (v : V) :
    s.received v ≤ t.received v := by
  induction h with
  | nil => exact Nat.le_refl _
  | cons hs _ ih =>
    obtain ⟨a, b, -, rfl⟩ := step_inv hs
    apply Nat.le_trans _ ih
    by_cases hv : v = b
    · subst hv
      simp
    · simp [Function.update_of_ne hv]

/-! ## Without cycles -/

section Acyclic

open Classical

/-- How often `v` has got the message, and the messages on their way that come nearer to it. -/
noncomputable def tokens (G : SimpleGraph V) (s : State V) (v : V) : ℕ :=
  s.received v + s.inFlight.countP fun m => Nearer G v m.1 m.2

/-- Every node but `r` is still to get the message from one side, or has it. -/
structure Pending (G : SimpleGraph V) (r : V) (s : State V) : Prop where
  adj : ∀ m ∈ s.inFlight, G.Adj m.1 m.2
  tokens_eq : ∀ v, tokens G s v = if v = r then 0 else 1

theorem countP_relay (hG : G.IsTree) (hL : Lists G nbr) (hab : G.Adj a b) (v : V) :
    (relay nbr a b).countP (fun m => Nearer G v m.1 m.2) + (if v = b then 1 else 0) =
      if Nearer G v a b then 1 else 0 := by
  have hba : a ∈ nbr b := (hL.mem_iff b a).mpr hab.symm
  have hrest : (relay nbr a b).countP (fun m => Nearer G v m.1 m.2) =
      (if v = b then 0 else 1) - if Nearer G v a b then 0 else 1 := by
    have herase : (nbr b).filter (fun c => c ≠ a) = (nbr b).erase a := by
      rw [(hL.nodup b).erase_eq_filter]
      apply List.filter_congr
      intro c _
      simp [bne, Bool.beq_eq_decide_eq]
    rw [relay, herase, List.countP_map, ← countP_nbr hG hL b v]
    simp [Function.comp_def, List.countP_erase, hba, nearer_swap_iff hG hab]
  rw [hrest]
  by_cases hv : v = b
  · subst hv
    have hnear : Nearer G v a v := by
      rw [Nearer, dist_self, dist_eq_one_iff_adj.mpr hab]
    simp [hnear]
  · by_cases hnear : Nearer G v a b <;> simp [hv, hnear]

theorem pending_inject (hG : G.IsTree) (hL : Lists G nbr) (r : V) :
    Pending G r (inject nbr r) := by
  constructor
  · intro m hm
    obtain ⟨c, hc, rfl⟩ := List.mem_map.mp hm
    exact (hL.mem_iff r c).mp hc
  · intro v
    simp only [tokens, inject, List.countP_map, Nat.zero_add]
    exact countP_nbr hG hL r v

theorem pending_step (hG : G.IsTree) (hL : Lists G nbr) (hs : Pending G r s)
    (h : step nbr s i = some t) : Pending G r t := by
  obtain ⟨a, b, hm, rfl⟩ := step_inv h
  obtain ⟨hi, hget⟩ := List.getElem?_eq_some_iff.mp hm
  have hab : G.Adj a b := hs.adj (a, b) (hget ▸ List.getElem_mem hi)
  constructor
  · intro m hmem
    rcases List.mem_append.mp hmem with hold | hnew
    · exact hs.adj m (List.mem_of_mem_eraseIdx hold)
    · obtain ⟨hb, hc, -⟩ := mem_relay_iff.mp hnew
      exact hb ▸ (hL.mem_iff b m.2).mp hc
  · intro v
    have hsplit := (List.getElem_cons_eraseIdx_perm hi).countP_eq
      (fun m : V × V => decide (Nearer G v m.1 m.2))
    have hrelay := countP_relay hG hL hab v
    have hold := hs.tokens_eq v
    rw [hget, List.countP_cons] at hsplit
    simp only [tokens, List.countP_append, decide_eq_true_eq] at hsplit hold ⊢
    rw [← hold, ← hsplit]
    by_cases hv : v = b
    · subst hv
      rw [if_pos rfl] at hrelay
      rw [Function.update_self]
      omega
    · rw [if_neg hv] at hrelay
      rw [Function.update_of_ne hv]
      omega

variable [Fintype V]

theorem sum_received_le (hs : Pending G r s) : ∑ v, s.received v ≤ Fintype.card V := by
  rw [Fintype.card_eq_sum_ones]
  apply Finset.sum_le_sum
  intro v _
  have hv := hs.tokens_eq v
  rw [tokens] at hv
  split at hv <;> omega

theorem sum_received_step (h : step nbr s i = some t) :
    ∑ v, t.received v = ∑ v, s.received v + 1 := by
  obtain ⟨a, b, -, rfl⟩ := step_inv h
  have hup := Finset.sum_update_of_mem (Finset.mem_univ b) s.received (s.received b + 1)
  have hsum := Finset.add_sum_erase Finset.univ s.received (Finset.mem_univ b)
  rw [hup, ← hsum, Finset.sdiff_singleton_eq_erase]
  omega

theorem ends_of_isTree (hG : G.IsTree) (hL : Lists G nbr) (r : V) :
    Ends (step nbr) (Once r) (inject nbr r) := by
  have hkeep : ∀ (s : State V) i t, Pending G r s → step nbr s i = some t → Pending G r t :=
    fun s i t hs h => pending_step hG hL hs h
  constructor
  · apply terminates_of_measure (I := Pending G r)
      (fun s => Fintype.card V - ∑ v, s.received v) hkeep _ (pending_inject hG hL r)
    intro s i t hs h
    have hle := sum_received_le (hkeep s i t hs h)
    rw [sum_received_step h] at hle ⊢
    omega
  · intro is t hrun hfinal v
    have ht := (hrun.invariant hkeep (pending_inject hG hL r)).tokens_eq v
    rw [tokens, final_iff.mp hfinal] at ht
    exact ht

end Acyclic

/-! ## Round a cycle -/

theorem exists_step_of_mem (nbr : V → List V) {x y : V} (hm : (x, y) ∈ s.inFlight) :
    ∃ i t, step nbr s i = some t ∧ (∀ m ∈ relay nbr x y, m ∈ t.inFlight) ∧ 0 < t.received y := by
  obtain ⟨i, hi⟩ := List.mem_iff_getElem?.mp hm
  refine ⟨i, _, by simp only [step, hi]; rfl, ?_, ?_⟩
  · intro m hm
    exact List.mem_append_right _ hm
  · simp

theorem exists_run_received (hL : Lists G nbr) {x y : V} (p : G.Walk y r) (hp : p.IsPath)
    (hxy : s(x, y) ∉ p.edges) (hm : (x, y) ∈ s.inFlight) :
    ∃ is t, Run (step nbr) s is t ∧ 0 < t.received r := by
  induction p generalizing s x with
  | nil =>
    obtain ⟨i, t, ht, -, hreceived⟩ := exists_step_of_mem nbr hm
    exact ⟨[i], t, .cons ht (.nil t), hreceived⟩
  | @cons y z r hyz q ih =>
    obtain ⟨i, t, ht, hrelay, -⟩ := exists_step_of_mem nbr hm
    obtain ⟨hq, hy⟩ := (Walk.cons_isPath_iff hyz q).mp hp
    have hzx : z ≠ x := by
      rintro rfl
      rw [Walk.edges_cons, Sym2.eq_swap] at hxy
      exact hxy List.mem_cons_self
    have hyz' : s(y, z) ∉ q.edges := fun h => hy (Walk.fst_mem_support_of_mem_edges q h)
    have hnew := hrelay (y, z) (mem_relay_iff.mpr ⟨rfl, (hL.mem_iff y z).mpr hyz, hzx⟩)
    obtain ⟨is, u, hrun, hu⟩ := ih hq hyz' hnew
    exact ⟨i :: is, u, .cons ht hrun, hu⟩

theorem not_ends_of_isCycle (hL : Lists G nbr) {c : G.Walk r r} (hc : c.IsCycle) :
    ¬ Ends (step nbr) (Once r) (inject nbr r) := by
  intro hends
  cases c with
  | nil => exact hc.ne_nil rfl
  | @cons _ y _ hry p =>
    obtain ⟨hp, hedge⟩ := (Walk.cons_isCycle_iff p hry).mp hc
    have hsent : (r, y) ∈ (inject nbr r).inFlight :=
      List.mem_map.mpr ⟨y, (hL.mem_iff r y).mpr hry, rfl⟩
    obtain ⟨is, s, hrun, hs⟩ := exists_run_received hL p hp hedge hsent
    obtain ⟨js, t, hrun', ht⟩ := hends.exists_run hrun
    have hle := received_le_of_run hrun' r
    rw [ht r, if_pos rfl] at hle
    omega

theorem forall_ends_iff_isAcyclic [Finite V] (hG : G.Connected) (hL : Lists G nbr) :
    (∀ r, Ends (step nbr) (Once r) (inject nbr r)) ↔ G.IsAcyclic := by
  constructor
  · intro h r c hc
    exact not_ends_of_isCycle hL hc (h r)
  · intro hacyclic r
    have := Fintype.ofFinite V
    exact ends_of_isTree ⟨hG, hacyclic⟩ hL r

end Flooding
