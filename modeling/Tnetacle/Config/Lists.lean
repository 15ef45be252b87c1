import Tnetacle.Config.Accept

/-! # The address lists of a document

A listen address is expanded when it is met, with the ports and the family that have been written
before it. The lists can be compared with what they should be, address by address: the addresses
of version 4 tell the ports that were known, those of version 6 the family.
-/

namespace Tnetacle.Config

open Meta (Sockaddr)

variable {E : Evutil} {ss before : List (Setting E)}

def portsOf (ss : List (Setting E)) : List ℕ := (valuesAt .port ss).map Fin.val

def clientPortsOf (ss : List (Setting E)) : List ℕ := (valuesAt .clientPort ss).map Fin.val

def familyOf (ss : List (Setting E)) : AddrFamily :=
  ((valuesAt .addressFamily ss).getLast?.map FamilyName.stored).getD .unspec

def places (before : List (Setting E)) :
    List (Setting E) → List (List (Setting E) × Option (AddressText E))
  | [] => []
  | s :: ss => (valuesAt .listenAddress [s]).map (before, ·) ++ places (before ++ [s]) ss

def listed (ports : List ℕ) (family : AddrFamily) : Option (AddressText E) → List Sockaddr
  | none => ports.flatMap (wildcards E family)
  | some a => [a.sockaddr]

/-! ## Fields that one key sets -/

section Field

variable {β : Type} {k : Key}

theorem field_foldl_set {f : Options → β} {g : k.Val E → β} (hset : ∀ v o, f (k.set v o) = g v)
    (hother : ∀ k', k' ≠ k → ∀ (v : k'.Val E) o, f (k'.set v o) = f o) (ss : List (Setting E))
    (o : Options) :
    f (ss.foldl (fun o s => s.set o) o) = ((valuesAt k ss).getLast?.map g).getD (f o) := by
  rw [foldl_set_field (h := fun _ v => g v) hset hother]
  generalize f o = b
  induction valuesAt k ss generalizing b with
  | nil => rfl
  | cons v vs ih =>
    rw [List.foldl_cons, ih, List.getLast?_cons]
    cases vs.getLast? <;> rfl

theorem field_optionsOf {f : Options → β} {g : k.Val E → β} (hset : ∀ v o, f (k.set v o) = g v)
    (hother : ∀ k', k' ≠ k → ∀ (v : k'.Val E) o, f (k'.set v o) = f o) {ss : List (Setting E)}
    {v : k.Val E} (hv : v ∈ (valuesAt k ss).getLast?) : f (optionsOf ss) = g v := by
  rw [optionsOf, field_foldl_set hset hother, Option.mem_def.mp hv]
  rfl

end Field

/-! ## The settings before an address -/

theorem valuesAt_append (k : Key) (ss ss' : List (Setting E)) :
    valuesAt k (ss ++ ss') = valuesAt k ss ++ valuesAt k ss' := List.flatMap_append

theorem prefix_of_mem_places {x : List (Setting E) × Option (AddressText E)}
    (hx : x ∈ places before ss) : x.1 <+: before ++ ss := by
  induction ss generalizing before with
  | nil => cases hx
  | cons s ss ih =>
    rcases List.mem_append.mp hx with hx | hx
    · obtain ⟨a, -, rfl⟩ := List.mem_map.mp hx
      exact List.prefix_append _ _
    · rw [← List.singleton_append, ← List.append_assoc]
      exact ih hx

theorem prefix_valuesAt {ss' : List (Setting E)} (k : Key) (h : ss' <+: ss) :
    valuesAt k ss' <+: valuesAt k ss := by
  obtain ⟨rest, rfl⟩ := h
  rw [valuesAt_append]
  exact List.prefix_append _ _

theorem prefix_portsOf {x : List (Setting E) × Option (AddressText E)} (hx : x ∈ places [] ss) :
    portsOf x.1 <+: portsOf ss :=
  (prefix_valuesAt .port (prefix_of_mem_places hx)).map Fin.val

theorem prefix_clientPortsOf {x : List (Setting E) × Option (AddressText E)}
    (hx : x ∈ places [] ss) : clientPortsOf x.1 <+: clientPortsOf ss :=
  (prefix_valuesAt .clientPort (prefix_of_mem_places hx)).map Fin.val

theorem familyOf_ne_inet6 (ss : List (Setting E)) : familyOf ss ≠ .inet6 := by
  rw [familyOf]
  cases (valuesAt .addressFamily ss).getLast? with
  | none => exact nofun
  | some name => cases name <;> exact nofun

/-! ## The lists of the parser -/

theorem ports_optionsOf (ss : List (Setting E)) : (optionsOf ss).ports = portsOf ss :=
  ports_foldl_set ss {}

theorem cports_optionsOf (ss : List (Setting E)) : (optionsOf ss).cports = clientPortsOf ss :=
  cports_foldl_set ss {}

theorem addrFamily_optionsOf (ss : List (Setting E)) : (optionsOf ss).addrFamily = familyOf ss := by
  rw [optionsOf, field_foldl_set (f := Options.addrFamily) (g := FamilyName.stored)
    (fun _ _ => rfl) (fun _ hk v o => (Key.frame_set _ v o).addrFamily hk)]
  rfl

theorem addrs_set (s : Setting E) (o : Options) :
    (s.set o).listenAddrs =
        o.listenAddrs ++ (valuesAt .listenAddress [s]).flatMap (listed o.ports o.addrFamily) ∧
      (s.set o).clientAddrs = o.clientAddrs ++
        (valuesAt .listenAddress [s]).flatMap
          fun _ => o.cports.flatMap (wildcards E o.addrFamily) := by
  obtain ⟨k, shape⟩ := s
  by_cases hk : k = .listenAddress
  · subst hk
    have hlisted : @listed E o.ports o.addrFamily = listenAddrs o := by
      funext a
      cases a <;> rfl
    rw [set_listenAddress, valuesAt_single, hlisted]
    exact ⟨rfl, rfl⟩
  · rw [valuesAt_single_of_ne hk, List.flatMap_nil, List.flatMap_nil, List.append_nil,
      List.append_nil]
    constructor
    · exact Setting.frame (f := Options.listenAddrs) ⟨k, shape⟩
        (fun v o => (Key.frame_set _ v o).listenAddrs hk) o
    · exact Setting.frame (f := Options.clientAddrs) ⟨k, shape⟩
        (fun v o => (Key.frame_set _ v o).clientAddrs hk) o

theorem addrs_foldl_places (ss before : List (Setting E)) :
    (ss.foldl (fun o s => s.set o) (optionsOf before)).listenAddrs =
        (optionsOf before).listenAddrs ++
          (places before ss).flatMap (fun x => listed (portsOf x.1) (familyOf x.1) x.2) ∧
      (ss.foldl (fun o s => s.set o) (optionsOf before)).clientAddrs =
        (optionsOf before).clientAddrs ++
          (places before ss).flatMap
            fun x => (clientPortsOf x.1).flatMap (wildcards E (familyOf x.1)) := by
  induction ss generalizing before with
  | nil => simp [places]
  | cons s ss ih =>
    have hset : s.set (optionsOf before) = optionsOf (before ++ [s]) := by
      simp [optionsOf]
    obtain ⟨hlisten, hclient⟩ := addrs_set s (optionsOf before)
    rw [List.foldl_cons, hset, (ih (before ++ [s])).1, (ih (before ++ [s])).2, ← hset, hlisten,
      hclient, ports_optionsOf, cports_optionsOf, addrFamily_optionsOf]
    simp [places, List.flatMap_append, List.flatMap_map]

theorem listenAddrs_optionsOf (ss : List (Setting E)) :
    (optionsOf ss).listenAddrs =
      (places [] ss).flatMap fun x => listed (portsOf x.1) (familyOf x.1) x.2 :=
  (addrs_foldl_places ss []).1

theorem clientAddrs_optionsOf (ss : List (Setting E)) :
    (optionsOf ss).clientAddrs = (places [] ss).flatMap
      fun x => listed (clientPortsOf x.1) (familyOf x.1) (none : Option (AddressText E)) :=
  (addrs_foldl_places ss []).2

/-! ## Lists that agree -/

section Agree

variable {α β : Type*} {xs : List α}

theorem countP_eq_of_flatMap_eq {f g : α → List β} (p : β → Bool)
    (h : xs.flatMap f = xs.flatMap g)
    (hle : ∀ x ∈ xs, (f x).countP p ≤ (g x).countP p) :
    ∀ x ∈ xs, (f x).countP p = (g x).countP p := by
  intro x hx
  by_contra hne
  have hlt := List.sum_lt_sum (l := xs) (fun x => (f x).countP p) (fun x => (g x).countP p) hle
    ⟨x, hx, Nat.lt_of_le_of_ne (hle x hx) hne⟩
  have hcount := congrArg (List.countP p) h
  rw [List.countP_flatMap, List.countP_flatMap] at hcount
  exact Nat.ne_of_lt hlt hcount

def isInet : Sockaddr → Bool
  | .inet .. => true
  | .inet6 .. => false

theorem countP_flatMap_wildcards {p : Sockaddr → Bool} {family : AddrFamily} {n : ℕ}
    (h : ∀ port, (wildcards E family port).countP p = n) (ports : List ℕ) :
    (ports.flatMap (wildcards E family)).countP p = ports.length * n := by
  induction ports with
  | nil => simp
  | cons port ports ih =>
    rw [List.flatMap_cons, List.countP_append, h, ih, List.length_cons, Nat.succ_mul, Nat.add_comm]

theorem countP_isInet {family : AddrFamily} (hf : family ≠ .inet6) (ports : List ℕ) :
    (ports.flatMap (wildcards E family)).countP isInet = ports.length := by
  have h : ∀ port, (wildcards E family port).countP isInet = 1 := by
    intro port
    cases family with
    | inet6 => exact absurd rfl hf
    | _ => rfl
  rw [countP_flatMap_wildcards h, Nat.mul_one]

theorem countP_not_isInet {family : AddrFamily} (hf : family ≠ .inet6) (ports : List ℕ) :
    (ports.flatMap (wildcards E family)).countP (fun a => !isInet a) =
      ports.length * if family = .unspec then 1 else 0 := by
  apply countP_flatMap_wildcards
  intro port
  cases family with
  | inet6 => exact absurd rfl hf
  | _ => rfl

section Expansions

variable {P P' : α → List ℕ} {F F' : α → AddrFamily} {a : α → Option (AddressText E)}

theorem ports_eq_of_listed_eq (hP : ∀ x ∈ xs, P x <+: P' x)
    (hF : ∀ x ∈ xs, F x ≠ .inet6 ∧ F' x ≠ .inet6)
    (h : (xs.flatMap fun x => listed (P x) (F x) (a x)) =
      xs.flatMap fun x => listed (P' x) (F' x) (a x)) :
    ∀ x ∈ xs, a x = none → P x = P' x := by
  intro x hx ha
  have hcount := countP_eq_of_flatMap_eq isInet h (fun x hx => by
    cases a x with
    | none =>
      rw [listed, listed, countP_isInet (hF x hx).1, countP_isInet (hF x hx).2]
      exact (hP x hx).length_le
    | some addr => exact Nat.le_refl _) x hx
  rw [ha, listed, listed, countP_isInet (hF x hx).1, countP_isInet (hF x hx).2] at hcount
  exact (hP x hx).eq_of_length hcount

theorem family_eq_of_listed_eq {f : AddrFamily} (hf : f ≠ .inet6) (hF : ∀ x ∈ xs, F x ≠ .inet6)
    (hports : ∀ x ∈ xs, a x = none → P x = P' x)
    (h : (xs.flatMap fun x => listed (P x) (F x) (a x)) =
      xs.flatMap fun x => listed (P' x) f (a x)) :
    ∀ x ∈ xs, a x = none → P x = [] ∨ F x = f := by
  have hpiece : ∀ x ∈ xs, a x = none →
      ((listed (P x) (F x) (a x)).countP fun a => !isInet a) =
        (P x).length * (if F x = .unspec then 1 else 0) ∧
      ((listed (P' x) f (a x)).countP fun a => !isInet a) =
        (P x).length * if f = .unspec then 1 else 0 := by
    intro x hx ha
    rw [ha, listed, listed, countP_not_isInet (hF x hx), countP_not_isInet hf, hports x hx ha]
    exact ⟨rfl, rfl⟩
  have hcount : ∀ x ∈ xs, ((listed (P x) (F x) (a x)).countP fun a => !isInet a) =
      (listed (P' x) f (a x)).countP fun a => !isInet a := by
    -- which of the two can have more addresses depends on the family alone
    by_cases hunspec : f = .unspec
    · apply countP_eq_of_flatMap_eq _ h
      intro x hx
      cases ha : a x with
      | some addr => exact Nat.le_refl _
      | none =>
        rw [← ha, (hpiece x hx ha).1, (hpiece x hx ha).2, if_pos hunspec]
        split <;> omega
    · have hback := countP_eq_of_flatMap_eq (fun a => !isInet a) h.symm fun x hx => by
        cases ha : a x with
        | some addr => exact Nat.le_refl _
        | none =>
          rw [← ha, (hpiece x hx ha).1, (hpiece x hx ha).2, if_neg hunspec]
          omega
      exact fun x hx => (hback x hx).symm
  intro x hx ha
  have hx' := hcount x hx
  rw [(hpiece x hx ha).1, (hpiece x hx ha).2] at hx'
  by_cases hnil : P x = []
  · exact .inl hnil
  · right
    have hone := Nat.eq_of_mul_eq_mul_left (List.length_pos_iff.mpr hnil) hx'
    have hne := hF x hx
    cases hfx : F x <;> cases f <;> simp_all

/--
Two expansions of listen addresses, one of which knows the ports of the other and perhaps more, are
the same exactly if every `any` has been given the same ports and, if there are any, the same
family. The families of the second do not depend on the place, or are those of the first.
-/
theorem flatMap_listed_iff (hP : ∀ x ∈ xs, P x <+: P' x)
    (hF : ∀ x ∈ xs, F x ≠ .inet6 ∧ F' x ≠ .inet6) (hsame : F' = F ∨ ∃ f, F' = fun _ => f) :
    (xs.flatMap fun x => listed (P x) (F x) (a x)) =
        (xs.flatMap fun x => listed (P' x) (F' x) (a x)) ↔
      ∀ x ∈ xs, a x = none → P x = P' x ∧ (P x = [] ∨ F x = F' x) := by
  constructor
  · intro h x hx ha
    have hports := ports_eq_of_listed_eq hP hF h
    refine ⟨hports x hx ha, ?_⟩
    rcases hsame with rfl | ⟨f, rfl⟩
    · exact .inr rfl
    · exact family_eq_of_listed_eq (hF x hx).2 (fun x hx => (hF x hx).1) hports h x hx ha
  · intro h
    apply List.flatMap_congr
    intro x hx
    cases ha : a x with
    | some addr => rfl
    | none =>
      obtain ⟨hports, hnil | hfamily⟩ := h x hx ha
      · rw [← hports, hnil]
        rfl
      · rw [← hports, hfamily]

end Expansions

end Agree

section Places

variable {P : List (Setting E) × Option (AddressText E) → List ℕ}
  {F : List (Setting E) × Option (AddressText E) → AddrFamily}

theorem families_ne_inet6 (hF : F = (fun x => familyOf x.1) ∨ F = fun _ => familyOf ss) :
    ∀ x ∈ places [] ss, familyOf x.1 ≠ .inet6 ∧ F x ≠ .inet6 := by
  intro x _
  refine ⟨familyOf_ne_inet6 _, ?_⟩
  rcases hF with rfl | rfl <;> exact familyOf_ne_inet6 _

/-- The listen addresses are those of some other ports and families exactly if every `any` is
written behind them. -/
theorem listenAddrs_eq_iff (hP : ∀ x ∈ places [] ss, portsOf x.1 <+: P x)
    (hF : F = (fun x => familyOf x.1) ∨ F = fun _ => familyOf ss) :
    (optionsOf ss).listenAddrs = ((places [] ss).flatMap fun x => listed (P x) (F x) x.2) ↔
      ∀ x ∈ places [] ss, x.2 = none →
        portsOf x.1 = P x ∧ (portsOf x.1 = [] ∨ familyOf x.1 = F x) := by
  rw [listenAddrs_optionsOf]
  exact flatMap_listed_iff hP (families_ne_inet6 hF) (hF.imp_right fun h => ⟨_, h⟩)

/-- The client addresses are so exactly if every listen address is. -/
theorem clientAddrs_eq_iff (hP : ∀ x ∈ places [] ss, clientPortsOf x.1 <+: P x)
    (hF : F = (fun x => familyOf x.1) ∨ F = fun _ => familyOf ss) :
    (optionsOf ss).clientAddrs =
        ((places [] ss).flatMap fun x => (P x).flatMap (wildcards E (F x))) ↔
      ∀ x ∈ places [] ss, clientPortsOf x.1 = P x ∧
        (clientPortsOf x.1 = [] ∨ familyOf x.1 = F x) := by
  rw [clientAddrs_optionsOf]
  have hiff := flatMap_listed_iff hP (families_ne_inet6 hF) (hF.imp_right fun h => ⟨_, h⟩)
    (a := fun _ => (none : Option (AddressText E)))
  exact hiff.trans (forall₂_congr fun x _ => forall_prop_of_true rfl)

end Places

end Tnetacle.Config
