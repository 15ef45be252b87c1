import Tnetacle.Meta.Buffers

/-! # A mesh of daemons

Any number of daemons open, accept, approve and close connections in any order. A connection
between two of them carries what one end writes to the other end, in pieces of any size and at any
time; on every other connection a stranger says what it likes. What a daemon knows
about another one is what that one's greeting says.
-/

namespace Tnetacle.Meta

open ByteOrder CString LineBuffer Runs Keyed

abbrev Socket (N : Type*) := N × ℕ

/--
The daemons, and for each end of a connection between two of them the other end. What an
end has received so far is kept to speak about it: no step depends on it but the one that joins two
ends, which happens before anything is exchanged.
-/
structure Mesh (N : Type*) where
  node : N → Server
  other : Socket N → Option (Socket N) := fun _ => none
  received : Socket N → List Byte := fun _ => []

inductive MeshLabel (N : Type*)
  | act (i : N) (l : Label)
  | stranger (x : Socket N) (bytes : List Byte)
  | join (x y : Socket N)
  | deliver (x : Socket N) (n : ℕ)

section Model

variable {N : Type*} [DecidableEq N] (P : N → Platform)

namespace Mesh

def set (m : Mesh N) (i : N) (s : Server) : Mesh N := { m with node := Function.update m.node i s }

def Unused (m : Mesh N) (x : Socket N) : Prop :=
  x.2 ∈ (m.node x.1).bevs ∧ m.other x = none ∧ m.received x = []
  deriving Decidable

def got (m : Mesh N) (x : Socket N) (bytes : List Byte) (s : Server) : Mesh N where
  node := (m.set x.1 s).node
  other := m.other
  received := Function.update m.received x (m.received x ++ bytes)

def read (m : Mesh N) (x : Socket N) (bytes : List Byte) : Option (Mesh N) :=
  (step (P x.1) (m.node x.1) (.read x.2 bytes)).map (m.got x bytes)

def flush (m : Mesh N) (y : Socket N) (n : ℕ) : Mesh N := m.set y.1 ((m.node y.1).flush y.2 n)

def output (m : Mesh N) (x : Socket N) : List Byte := (m.node x.1).output x.2

def joined (m : Mesh N) (x y : Socket N) : Mesh N :=
  { m with other := Function.update (Function.update m.other x (some y)) y (some x) }

def step (m : Mesh N) : MeshLabel N → Option (Mesh N)
  | .act i l => if l.isRead then none else (serve (P i) (m.node i) l).map (m.set i)
  | .stranger x bytes => if m.other x = none then m.read P x bytes else none
  | .join x y => if x ≠ y ∧ m.Unused x ∧ m.Unused y then some (m.joined x y) else none
  | .deliver x n =>
    match m.other x with
    | none => none
    | some y => (m.flush y n).read P x ((m.output y).take n)

def start (ctx : N → Bool) (e : N → Endpoint) : Mesh N := { node := fun i => init (ctx i) (e i) }

/-- What the daemon of `x` has sent to the other end, received or not. -/
def said (m : Mesh N) (x : Socket N) : List Byte :=
  (m.other x).elim [] m.received ++ m.output x

def input (m : Mesh N) (x : Socket N) : List Byte := (m.node x.1).input x.2

end Mesh

end Model

/-! ## What every run keeps -/

/-- The lines that a daemon has taken from a connection, and what they have registered. -/
structure Mesh.Heard {N : Type*} (P : N → Platform) (e : N → Endpoint) (m : Mesh N) : Prop where
  identified : ∀ i, (m.node i).Identified
  attributed : ∀ i, (m.node i).Attributed
  endpoint : ∀ i, (m.node i).udp.udpEndpoint = e i
  lines : ∀ x, ∃ lines,
    drain (m.received x) = (lines ++ (drain (m.input x)).1, (drain (m.input x)).2) ∧
      (m.node x.1).udp.udpPeers.countP (·.onBehalf = x.2) ≤ portLines lines
  registered : ∀ x y, m.other x = some y → ∀ u ∈ (m.node x.1).udp.udpPeers, u.onBehalf = x.2 →
    endpointPort (P x.1) u.peerAddr = endpointPort (P y.1) (e y.1)

/-- A daemon says nothing to a connection until it approves it, and then its greeting. -/
structure Mesh.Greets {N : Type*} (P : N → Platform) (e : N → Endpoint) (m : Mesh N) : Prop where
  symm : ∀ x y, m.other x = some y → m.other y = some x
  opened : ∀ x : Socket N, (m.node x.1).next ≤ x.2 → m.other x = none ∧ m.output x = []
  said : ∀ x, m.said x = [] ∨ m.said x = greeting (endpointPort (P x.1) (e x.1))
  pending : ∀ i, ∀ mc ∈ (m.node i).pendingPeers, m.said (i, mc.bev.ptr) = []
  peers : ∀ i, ∀ mc ∈ (m.node i).peers,
    m.said (i, mc.bev.ptr) = greeting (endpointPort (P i) (e i))

section Facts

variable {N : Type*} {P : N → Platform} {e : N → Endpoint} {m m' : Mesh N} {x y : Socket N}

namespace Mesh

theorem Heard.linesOf_subset (hm : m.Heard P e) (x : Socket N) (bytes : List Byte) :
    (m.node x.1).linesOf x.2 bytes ⊆ (drain (m.received x ++ bytes)).1 := by
  obtain ⟨before, hbefore, -⟩ := hm.lines x
  rw [drain_resume hbefore bytes]
  exact List.subset_append_right _ _

theorem Heard.none_of_unheard (hm : m.Heard P e) (hx : m.received x = []) :
    ∀ u ∈ (m.node x.1).udp.udpPeers, u.onBehalf ≠ x.2 := by
  obtain ⟨lines, hlines, hle⟩ := hm.lines x
  have hdrain : (drain (m.received x)).1 = [] := by rw [hx]; rfl
  rw [hlines] at hdrain
  have hnil : lines = [] := (List.append_eq_nil_iff.mp hdrain).1
  rw [hnil] at hle
  intro u hu hon
  exact absurd (by simpa using hon) (List.countP_eq_zero.mp (Nat.le_zero.mp hle) u hu)

theorem said_of_output (ho : m'.other = m.other) (hr : m'.received = m.received)
    (hout : m'.output = m.output) : m'.said = m.said := by
  funext z
  rw [Mesh.said, Mesh.said, ho, hr, hout]

theorem Greets.said_fresh (hg : m.Greets P e) (hx : (m.node x.1).next ≤ x.2) : m.said x = [] := by
  obtain ⟨hother, hout⟩ := hg.opened x hx
  rw [Mesh.said, hother, hout]
  rfl

theorem Greets.said_unapproved (hg : m.Greets P e) {i : N} {mc : Mc}
    (hmc : mc ∈ (m.node i).pendingPeers ∨ mc.bev.ptr = (m.node i).next) :
    m.said (i, mc.bev.ptr) = [] := by
  rcases hmc with hold | hnew
  · exact hg.pending i mc hold
  · exact hg.said_fresh hnew.ge

theorem Greets.moved (hg : m.Greets P e) (hsymm : ∀ x y, m'.other x = some y → m'.other y = some x)
    (hopened : ∀ x : Socket N, (m.node x.1).next ≤ x.2 → m'.other x = none ∧ m'.output x = [])
    (hsaid : m'.said = m.said) (hlists : ∀ i, SameLists (m.node i) (m'.node i)) :
    m'.Greets P e where
  symm := hsymm
  opened x hx := hopened x ((hlists x.1).next ▸ hx)
  said x := by
    rw [hsaid]
    exact hg.said x
  pending i mc hmc := by
    rw [hsaid]
    exact hg.pending i mc ((hlists i).pendingPeers ▸ hmc)
  peers i mc hmc := by
    rw [hsaid]
    exact hg.peers i mc ((hlists i).peers ▸ hmc)

theorem Greets.heard (hg : m.Greets P e) (hxy : m.other x = some y) (n : ℕ) :
    (drain (m.received x ++ (m.output y).take n)).1 <+:
      [helloLine, tunnelLine (endpointPort (P y.1) (e y.1)).toNat] := by
  have hsaid := hg.said y
  have hsplit : m.said y = m.received x ++ (m.output y).take n ++ (m.output y).drop n := by
    rw [Mesh.said, hg.symm x y hxy, Option.elim_some, List.append_assoc, List.take_append_drop]
  rw [hsplit] at hsaid
  rcases hsaid with hnil | hgreet
  · rw [(List.append_eq_nil_iff.mp hnil).1]
    exact List.nil_prefix
  · have hall := congrArg Prod.fst (drain_greeting (endpointPort (P y.1) (e y.1)))
    rw [← hgreet, drain_append] at hall
    exact ⟨_, hall⟩

theorem sound_start (ctx : N → Bool) :
    (start ctx e).Heard P e ∧ (start ctx e).Greets P e := by
  constructor
  · refine ⟨fun i => identified_init _ _, fun i => ?_, fun i => rfl, fun x => ⟨[], rfl, ?_⟩, ?_⟩
    · constructor <;> simp [start, init]
    · exact Nat.le_refl 0
    · intro x y hxy
      cases hxy
  · refine ⟨?_, fun x _ => ⟨rfl, rfl⟩, fun x => .inl rfl, ?_, ?_⟩
    · intro x y hxy
      cases hxy
    · intro i mc hmc
      cases hmc
    · intro i mc hmc
      cases hmc

end Mesh

end Facts

section Steps

variable {N : Type*} [DecidableEq N] {P : N → Platform} {e : N → Endpoint} {m m' : Mesh N}
  {x y : Socket N} {i : N} {l : Label} {n : ℕ} {bytes : List Byte}

namespace Mesh

@[simp] theorem node_set_self (m : Mesh N) (i : N) (s : Server) : (m.set i s).node i = s :=
  Function.update_self _ _ _

theorem node_set_of_ne {j : N} (h : j ≠ i) (s : Server) : (m.set i s).node j = m.node j :=
  Function.update_of_ne h _ _

theorem forall_node_set {p : N → Server → Prop} (hm : ∀ j, p j (m.node j)) {s : Server}
    (hs : p i s) : ∀ j, p j ((m.set i s).node j) := by
  intro j
  rcases eq_or_ne j i with rfl | hj
  · rwa [node_set_self]
  · rw [node_set_of_ne hj]
    exact hm j

theorem got_node_self (m : Mesh N) (x : Socket N) (bytes : List Byte) (s : Server) :
    (m.got x bytes s).node x.1 = s :=
  node_set_self _ _ _

theorem got_node_of_ne {j : N} (h : j ≠ x.1) (s : Server) :
    (m.got x bytes s).node j = m.node j :=
  node_set_of_ne h s

theorem got_received_self (m : Mesh N) (x : Socket N) (bytes : List Byte) (s : Server) :
    (m.got x bytes s).received x = m.received x ++ bytes :=
  Function.update_self _ _ _

theorem got_received_of_ne (h : y ≠ x) (s : Server) :
    (m.got x bytes s).received y = m.received y :=
  Function.update_of_ne h _ _

theorem got_input_self (m : Mesh N) (x : Socket N) (bytes : List Byte) (s : Server) :
    (m.got x bytes s).input x = s.input x.2 := by
  rw [Mesh.input, got_node_self]

theorem read_eq_some (h : m.read P x bytes = some m') :
    ∃ t, Meta.step (P x.1) (m.node x.1) (.read x.2 bytes) = some t ∧ m' = m.got x bytes t := by
  obtain ⟨t, ht, rfl⟩ := Option.map_eq_some_iff.mp h
  exact ⟨t, ht, rfl⟩

theorem node_flush_eq (m : Mesh N) (y : Socket N) (n : ℕ) (i : N) :
    ∃ out, (m.flush y n).node i = { m.node i with output := out } := by
  by_cases hi : i = y.1
  · subst hi
    exact ⟨_, node_set_self _ _ _⟩
  · exact ⟨_, node_set_of_ne hi _⟩

theorem output_flush (m : Mesh N) (y : Socket N) (n : ℕ) :
    (m.flush y n).output = Function.update m.output y ((m.output y).drop n) := by
  funext z
  by_cases hz : z = y
  · subst hz
    simp [Mesh.output, Mesh.flush, Server.flush]
  · rw [Function.update_of_ne hz]
    by_cases hi : z.1 = y.1
    · have hne : z.2 ≠ y.2 := fun h => hz (Prod.ext hi h)
      simp [Mesh.output, Mesh.flush, Server.flush, hi, hne]
    · simp [Mesh.output, Mesh.flush, node_set_of_ne hi]

theorem Heard.flush (hm : m.Heard P e) (y : Socket N) (n : ℕ) : (m.flush y n).Heard P e := by
  have hnode := m.node_flush_eq y n
  constructor
  · intro i
    obtain ⟨out, h⟩ := hnode i
    rw [h]
    exact (hm.identified i).withOutput out
  · intro i
    obtain ⟨out, h⟩ := hnode i
    rw [h]
    exact (hm.attributed i).withOutput out
  · intro i
    obtain ⟨out, h⟩ := hnode i
    rw [h]
    exact hm.endpoint i
  · intro x
    obtain ⟨out, h⟩ := hnode x.1
    rw [Mesh.input, h]
    exact hm.lines x
  · intro x y' hxy
    obtain ⟨out, h⟩ := hnode x.1
    rw [h]
    exact hm.registered x y' hxy

theorem Heard.read (hm : m.Heard P e) (h : m.read P x bytes = some m')
    (hfrom : ∀ y, m.other x = some y → (drain (m.received x ++ bytes)).1 ⊆
      [helloLine, tunnelLine (endpointPort (P y.1) (e y.1)).toNat]) : m'.Heard P e := by
  obtain ⟨t, ht, rfl⟩ := read_eq_some h
  have hread := readBy_of_step ht
  obtain ⟨before, hbefore, hcount⟩ := hm.lines x
  constructor
  · exact forall_node_set (p := fun _ s => s.Identified) hm.identified
      (identified_step (hm.identified x.1) ht)
  · exact forall_node_set (p := fun _ s => s.Attributed) hm.attributed
      (attributed_step (hm.identified x.1) (hm.attributed x.1) ht)
  · exact forall_node_set (p := fun j s => s.udp.udpEndpoint = e j) hm.endpoint
      (hread.endpoint.trans (hm.endpoint x.1))
  · intro z
    rcases eq_or_ne z x with rfl | hz
    · rw [got_received_self, got_input_self, got_node_self]
      exact hread.resume hbefore hcount
    · rw [got_received_of_ne hz]
      rcases eq_or_ne z.1 x.1 with hi | hi
      · have hne : z.2 ≠ x.2 := fun h => hz (Prod.ext hi h)
        rw [Mesh.input, hi, got_node_self, hread.others z.2 hne, hread.countP_of_ne hne, ← hi]
        exact hm.lines z
      · rw [Mesh.input, got_node_of_ne hi]
        exact hm.lines z
  · intro z y hzy u hu hon
    rcases eq_or_ne z.1 x.1 with hi | hi
    · rw [hi, got_node_self] at hu
      rcases hread.mem_udpPeers hu with hold | ⟨hbev, mc, hreg⟩
      · exact hm.registered z y hzy u (hi ▸ hold) hon
      · obtain rfl : z = x := Prod.ext hi (hon.symm.trans hbev)
        exact port_of_registered (fun line h => hfrom y hzy (hm.linesOf_subset z bytes h)) hreg
    · rw [got_node_of_ne hi] at hu
      exact hm.registered z y hzy u hu hon

theorem Heard.act (hm : m.Heard P e) (hl : l.isRead = false) {t : Server}
    (ht : serve (P i) (m.node i) l = some t) : (m.set i t).Heard P e := by
  have hsame := (spoken_of_serve (hm.identified i) hl ht).1
  constructor
  · exact forall_node_set (p := fun _ s => s.Identified) hm.identified
      (identified_serve (hm.identified i) ht)
  · exact forall_node_set (p := fun _ s => s.Attributed) hm.attributed
      (attributed_serve (hm.identified i) (hm.attributed i) ht)
  · exact forall_node_set (p := fun j s => s.udp.udpEndpoint = e j) hm.endpoint
      (hsame.endpoint.trans (hm.endpoint i))
  · intro z
    obtain ⟨lines, hlines, hle⟩ := hm.lines z
    rcases eq_or_ne z.1 i with rfl | hi
    · rw [Mesh.input, node_set_self, hsame.input]
      exact ⟨lines, hlines, hsame.udpPeers.countP_le.trans hle⟩
    · rw [Mesh.input, node_set_of_ne hi]
      exact ⟨lines, hlines, hle⟩
  · intro z y hzy u hu hon
    rcases eq_or_ne z.1 i with rfl | hi
    · rw [node_set_self] at hu
      exact hm.registered z y hzy u (hsame.udpPeers.subset hu) hon
    · rw [node_set_of_ne hi] at hu
      exact hm.registered z y hzy u hu hon

theorem other_joined {z w : Socket N} (h : (m.joined x y).other z = some w) :
    z = y ∧ w = x ∨ z = x ∧ w = y ∨ m.other z = some w ∧ z ≠ x ∧ z ≠ y := by
  change Function.update (Function.update m.other x (some y)) y (some x) z = some w at h
  rcases eq_or_ne z y with rfl | hy
  · rw [Function.update_self] at h
    exact .inl ⟨rfl, (Option.some.inj h).symm⟩
  · rw [Function.update_of_ne hy] at h
    rcases eq_or_ne z x with rfl | hx
    · rw [Function.update_self] at h
      exact .inr (.inl ⟨rfl, (Option.some.inj h).symm⟩)
    · rw [Function.update_of_ne hx] at h
      exact .inr (.inr ⟨h, hx, hy⟩)

theorem Heard.joined (hm : m.Heard P e) (hx : m.received x = []) (hy : m.received y = []) :
    (m.joined x y).Heard P e := by
  refine ⟨hm.identified, hm.attributed, hm.endpoint, hm.lines, ?_⟩
  intro z w hzw u hu hon
  rcases other_joined hzw with ⟨rfl, -⟩ | ⟨rfl, -⟩ | ⟨hold, -⟩
  · exact absurd hon (hm.none_of_unheard hy u hu)
  · exact absurd hon (hm.none_of_unheard hx u hu)
  · exact hm.registered z w hold u hu hon

/-! What the daemons have said is changed by an approval only. -/

theorem output_set (m : Mesh N) (i : N) (t : Server) (h : t.output = (m.node i).output) :
    (m.set i t).output = m.output := by
  funext z
  rcases eq_or_ne z.1 i with rfl | hi
  · rw [Mesh.output, node_set_self, h, Mesh.output]
  · rw [Mesh.output, node_set_of_ne hi, Mesh.output]

theorem output_set_update (m : Mesh N) (i : N) {t : Server} {b : ℕ}
    (h : t.output = Function.update (m.node i).output b ((m.node i).output b ++ bytes)) :
    (m.set i t).output = Function.update m.output (i, b) (m.output (i, b) ++ bytes) := by
  funext z
  rcases eq_or_ne z (i, b) with rfl | hz
  · simp [Mesh.output, h]
  · rw [Function.update_of_ne hz]
    rcases eq_or_ne z.1 i with hi | hi
    · have hne : z.2 ≠ b := fun hb => hz (Prod.ext hi hb)
      rw [Mesh.output, hi, node_set_self, h, Function.update_of_ne hne, ← hi, Mesh.output]
    · rw [Mesh.output, node_set_of_ne hi, Mesh.output]

theorem said_of_write (ho : m'.other = m.other) (hr : m'.received = m.received)
    (hout : m'.output = Function.update m.output x (m.output x ++ bytes)) :
    m'.said = Function.update m.said x (m.said x ++ bytes) := by
  funext z
  rcases eq_or_ne z x with rfl | hz
  · rw [Function.update_self, Mesh.said, Mesh.said, ho, hr, hout, Function.update_self,
      List.append_assoc]
  · rw [Function.update_of_ne hz, Mesh.said, Mesh.said, ho, hr, hout, Function.update_of_ne hz]

theorem le_next_set {t : Server} (h : (m.node i).next ≤ t.next) (j : N) :
    (m.node j).next ≤ ((m.set i t).node j).next :=
  forall_node_set (p := fun j s => (m.node j).next ≤ s.next) (fun _ => le_rfl) h j

theorem Greets.quiet (hg : m.Greets P e) {t : Server} (hnext : (m.node i).next ≤ t.next)
    (hout : t.output = (m.node i).output)
    (hpend : ∀ mc ∈ t.pendingPeers, mc ∈ (m.node i).pendingPeers ∨ mc.bev.ptr = (m.node i).next)
    (hpeers : t.peers ⊆ (m.node i).peers) : (m.set i t).Greets P e := by
  have houtput := output_set m i t hout
  have hsaid : (m.set i t).said = m.said := said_of_output rfl rfl houtput
  refine ⟨hg.symm, fun z hz => ?_, ?_, ?_, ?_⟩
  · rw [houtput]
    exact hg.opened z ((le_next_set hnext z.1).trans hz)
  · rw [hsaid]
    exact hg.said
  · rw [hsaid]
    exact forall_node_set (p := fun j s => ∀ mc ∈ s.pendingPeers, m.said (j, mc.bev.ptr) = [])
      hg.pending fun mc hmc => hg.said_unapproved (hpend mc hmc)
  · rw [hsaid]
    exact forall_node_set (p := fun j s => ∀ mc ∈ s.peers,
      m.said (j, mc.bev.ptr) = greeting (endpointPort (P j) (e j))) hg.peers
        fun mc hmc => hg.peers i mc (hpeers hmc)

theorem Greets.greeted (hh : m.Heard P e) (hg : m.Greets P e) {t : Server}
    (hnext : (m.node i).next ≤ t.next) {mc : Mc}
    (hmc : mc ∈ (m.node i).pendingPeers ∨ mc.bev.ptr = (m.node i).next) (hlt : mc.bev.ptr < t.next)
    (hout : t.output = Function.update (m.node i).output mc.bev.ptr
      ((m.node i).output mc.bev.ptr ++ greeting (udpGetPort (P i) (m.node i).udp)))
    (hpend : ∀ mc' ∈ t.pendingPeers, mc' ∈ (m.node i).pendingPeers ∧ mc'.bev.ptr ≠ mc.bev.ptr)
    (hpeers : ∀ mc' ∈ t.peers, mc' ∈ (m.node i).peers ∨ mc' = mc) : (m.set i t).Greets P e := by
  have houtput := output_set_update m i hout
  have hsaid : (m.set i t).said = Function.update m.said (i, mc.bev.ptr)
      (m.said (i, mc.bev.ptr) ++ greeting (udpGetPort (P i) (m.node i).udp)) :=
    said_of_write rfl rfl houtput
  -- nothing had been said to the connection, and it is the only one that is told anything
  rw [hg.said_unapproved hmc, List.nil_append, udpGetPort, hh.endpoint] at hsaid
  have hself : (m.set i t).said (i, mc.bev.ptr) = greeting (endpointPort (P i) (e i)) := by
    rw [hsaid, Function.update_self]
  have hold : ∀ z, z ≠ (i, mc.bev.ptr) → (m.set i t).said z = m.said z := by
    intro z hz
    rw [hsaid, Function.update_of_ne hz]
  have hpeer : ∀ mc' ∈ (m.node i).peers, mc'.bev.ptr ≠ mc.bev.ptr := by
    intro mc' hmc'
    rcases hmc with hold | hnew
    · exact ((hh.identified i).pending_ne_peers hold hmc').symm
    · rw [hnew]
      exact (hh.identified i).held_ne_next (List.mem_append_right _ hmc')
  refine ⟨hg.symm, fun z hz => ?_, fun z => ?_, fun j => ?_, fun j => ?_⟩
  · have hne : z ≠ (i, mc.bev.ptr) := by
      rintro rfl
      rw [node_set_self] at hz
      exact absurd hlt hz.not_gt
    rw [houtput, Function.update_of_ne hne]
    exact hg.opened z ((le_next_set hnext z.1).trans hz)
  · rcases eq_or_ne z (i, mc.bev.ptr) with rfl | hz
    · exact .inr hself
    · rw [hold z hz]
      exact hg.said z
  · rcases eq_or_ne j i with rfl | hj
    · rw [node_set_self]
      intro mc' hmc'
      obtain ⟨hin, hne⟩ := hpend mc' hmc'
      rw [hold _ (by simpa using hne)]
      exact hg.pending j mc' hin
    · rw [node_set_of_ne hj]
      intro mc' hmc'
      rw [hold _ (by simp [hj])]
      exact hg.pending j mc' hmc'
  · rcases eq_or_ne j i with rfl | hj
    · rw [node_set_self]
      intro mc' hmc'
      rcases hpeers mc' hmc' with hin | rfl
      · rw [hold _ (by simpa using hpeer mc' hin)]
        exact hg.peers j mc' hin
      · exact hself
    · rw [node_set_of_ne hj]
      intro mc' hmc'
      rw [hold _ (by simp [hj])]
      exact hg.peers j mc' hmc'

theorem Greets.act (hh : m.Heard P e) (hg : m.Greets P e) (hl : l.isRead = false) {t : Server}
    (ht : serve (P i) (m.node i) l = some t) : (m.set i t).Greets P e := by
  obtain ⟨hsame, hspoken⟩ := spoken_of_serve (hh.identified i) hl ht
  cases hspoken with
  | quiet hout hpend hpeers => exact hg.quiet hsame.next hout hpend hpeers
  | greeted mc hmc hlt hout hpend hpeers =>
    exact hg.greeted hh hsame.next hmc hlt hout hpend hpeers

theorem Greets.joined (hh : m.Heard P e) (hg : m.Greets P e) (hne : x ≠ y) (hx : m.Unused x)
    (hy : m.Unused y) : (m.joined x y).Greets P e := by
  obtain ⟨hxlive, hxother, hxrec⟩ := hx
  obtain ⟨hylive, hyother, hyrec⟩ := hy
  have hself : (m.joined x y).other y = some x := Function.update_self _ _ _
  have hother : (m.joined x y).other x = some y := by
    change Function.update (Function.update m.other x (some y)) y (some x) x = some y
    rw [Function.update_of_ne hne, Function.update_self]
  have hrest : ∀ z, z ≠ x → z ≠ y → (m.joined x y).other z = m.other z := by
    intro z hzx hzy
    change Function.update (Function.update m.other x (some y)) y (some x) z = _
    rw [Function.update_of_ne hzy, Function.update_of_ne hzx]
  refine hg.moved ?_ ?_ ?_ fun _ => ⟨rfl, rfl, rfl⟩
  · intro z w hzw
    rcases other_joined hzw with ⟨rfl, rfl⟩ | ⟨rfl, rfl⟩ | ⟨hold, hzx, hzy⟩
    · exact hother
    · exact hself
    · have hback := hg.symm z w hold
      rw [hrest w, hback]
      · rintro rfl
        rw [hxother] at hback
        cases hback
      · rintro rfl
        rw [hyother] at hback
        cases hback
  · intro z hz
    have hlive : ∀ b ∈ (m.node z.1).bevs, z.2 ≠ b := fun b hb h =>
      absurd ((hh.identified z.1).bevs_lt b hb) (h ▸ hz).not_gt
    obtain ⟨hnone, hout⟩ := hg.opened z hz
    rw [hrest z, hnone]
    · exact ⟨rfl, hout⟩
    · rintro rfl
      exact hlive _ hxlive rfl
    · rintro rfl
      exact hlive _ hylive rfl
  · funext z
    change ((m.joined x y).other z).elim [] m.received ++ m.output z = m.said z
    rcases eq_or_ne z y with rfl | hzy
    · rw [hself, Mesh.said, hyother, Option.elim_some, hxrec, Option.elim_none]
    · rcases eq_or_ne z x with rfl | hzx
      · rw [hother, Mesh.said, hxother, Option.elim_some, hyrec, Option.elim_none]
      · rw [hrest z hzx hzy, Mesh.said]

theorem output_got (m : Mesh N) {t : Server} (h : t.output = (m.node x.1).output) :
    (m.got x bytes t).output = m.output :=
  output_set m x.1 t h

theorem said_stranger (hg : m.Greets P e) (hx : m.other x = none) {t : Server}
    (ht : t.output = (m.node x.1).output) : (m.got x bytes t).said = m.said := by
  funext z
  rw [Mesh.said, Mesh.said, output_got m ht]
  change (m.other z).elim [] (m.got x bytes t).received ++ _ = _
  cases hz : m.other z with
  | none => rfl
  | some w =>
    have hne : w ≠ x := by
      rintro rfl
      rw [hg.symm z w hz] at hx
      cases hx
    rw [Option.elim_some, got_received_of_ne hne, Option.elim_some]

theorem said_deliver (hg : m.Greets P e) (hxy : m.other x = some y) {t : Server}
    (ht : t.output = ((m.flush y n).node x.1).output) :
    ((m.flush y n).got x ((m.output y).take n) t).said = m.said := by
  funext z
  have hout : ((m.flush y n).got x ((m.output y).take n) t).output =
      Function.update m.output y ((m.output y).drop n) := by
    rw [output_got _ ht, output_flush]
  rw [Mesh.said, Mesh.said, hout]
  change (m.other z).elim [] ((m.flush y n).got x _ t).received ++ _ = _
  rcases eq_or_ne z y with rfl | hz
  · rw [hg.symm x z hxy, Option.elim_some, Option.elim_some, got_received_self,
      Function.update_self, List.append_assoc, List.take_append_drop]
    rfl
  · rw [Function.update_of_ne hz]
    cases hw : m.other z with
    | none => rfl
    | some w =>
      have hne : w ≠ x := by
        rintro rfl
        exact hz (Option.some.inj ((hg.symm z w hw).symm.trans hxy))
      rw [Option.elim_some, got_received_of_ne hne, Option.elim_some]
      rfl

theorem Greets.stranger (hg : m.Greets P e) (hx : m.other x = none)
    (h : m.read P x bytes = some m') : m'.Greets P e := by
  obtain ⟨t, ht, rfl⟩ := read_eq_some h
  have hread := readBy_of_step ht
  refine hg.moved hg.symm ?_ (said_stranger hg hx hread.output) ?_
  · intro z hz
    rw [output_got m hread.output]
    exact hg.opened z hz
  · exact forall_node_set (p := fun i s => SameLists (m.node i) s) (fun _ => ⟨rfl, rfl, rfl⟩)
      hread.lists

theorem Greets.deliver (hg : m.Greets P e) (hxy : m.other x = some y)
    (h : (m.flush y n).read P x ((m.output y).take n) = some m') : m'.Greets P e := by
  obtain ⟨t, ht, rfl⟩ := read_eq_some h
  have hread := readBy_of_step ht
  have hflush : ∀ i, SameLists (m.node i) ((m.flush y n).node i) := by
    intro i
    obtain ⟨out, hout⟩ := m.node_flush_eq y n i
    rw [hout]
    exact ⟨rfl, rfl, rfl⟩
  refine hg.moved hg.symm ?_ (said_deliver hg hxy hread.output) ?_
  · intro z hz
    obtain ⟨hnone, hout⟩ := hg.opened z hz
    refine ⟨hnone, ?_⟩
    rw [output_got _ hread.output, output_flush, Function.update_of_ne, hout]
    rintro rfl
    rw [hg.symm x z hxy] at hnone
    cases hnone
  · exact forall_node_set (p := fun i s => SameLists (m.node i) s) hflush
      ((hflush x.1).trans hread.lists)

theorem exists_deliver (hxy : m.other x = some y) (hlive : x.2 ∈ (m.node x.1).bevs)
    (hf : (m.node x.1).fault = none) (n : ℕ) :
    ∃ t, Meta.step (P x.1) ((m.flush y n).node x.1) (.read x.2 ((m.output y).take n)) = some t ∧
      m.step P (.deliver x n) = some ((m.flush y n).got x ((m.output y).take n) t) := by
  obtain ⟨out, hout⟩ := m.node_flush_eq y n x.1
  obtain ⟨t, ht⟩ : ∃ t, Meta.step (P x.1) ((m.flush y n).node x.1)
      (.read x.2 ((m.output y).take n)) = some t := by
    rw [hout]
    simp [Meta.step, hf, hlive]
  exact ⟨t, ht, by simp [Mesh.step, hxy, Mesh.read, ht]⟩

theorem sound_step (hh : m.Heard P e) (hg : m.Greets P e) {l : MeshLabel N}
    (h : m.step P l = some m') : m'.Heard P e ∧ m'.Greets P e := by
  cases l with
  | act i l =>
    rw [Mesh.step] at h
    split at h
    · cases h
    · rename_i hl
      obtain ⟨t, ht, rfl⟩ := Option.map_eq_some_iff.mp h
      have hquiet : l.isRead = false := by simpa using hl
      exact ⟨hh.act hquiet ht, hg.act hh hquiet ht⟩
  | stranger x bytes =>
    rw [Mesh.step] at h
    split at h
    · rename_i hx
      refine ⟨hh.read h fun y hy => ?_, hg.stranger hx h⟩
      rw [hx] at hy
      cases hy
    · cases h
  | join x y =>
    rw [Mesh.step] at h
    split at h
    · rename_i hxy
      obtain ⟨hne, hx, hy⟩ := hxy
      cases h
      exact ⟨hh.joined hx.2.2 hy.2.2, hg.joined hh hne hx hy⟩
    · cases h
  | deliver x n =>
    rw [Mesh.step] at h
    split at h
    · cases h
    · rename_i y hxy
      refine ⟨(hh.flush y n).read h fun w hw => ?_, hg.deliver hxy h⟩
      obtain rfl : y = w := Option.some.inj (hxy.symm.trans hw)
      exact (hg.heard hxy n).subset

theorem sound_of_run {ctx : N → Bool} {ls : List (MeshLabel N)}
    (h : Run (Mesh.step P) (start ctx e) ls m) : m.Heard P e ∧ m.Greets P e :=
  h.invariant (P := fun m => m.Heard P e ∧ m.Greets P e)
    (fun _ _ _ hm hstep => sound_step hm.1 hm.2 hstep) (sound_start ctx)

theorem registers_of_sound (hh : m.Heard P e) (hg : m.Greets P e) (hxy : m.other x = some y)
    (hlive : x.2 ∈ (m.node x.1).bevs) (hf : (m.node x.1).fault = none)
    (hx : ∃ mc ∈ (m.node x.1).peers, mc.bev.ptr = x.2)
    (hy : ∃ mc ∈ (m.node y.1).peers, mc.bev.ptr = y.2) (hrest : m.output y ≠ []) :
    ∃ m', m.step P (.deliver x (m.output y).length) = some m' ∧ m'.other = m.other ∧
      (m'.node x.1).udp.udpPeers.countP (·.onBehalf = x.2) = 1 := by
  obtain ⟨t, ht, hstep⟩ := exists_deliver (P := P) hxy hlive hf (m.output y).length
  obtain ⟨mc, hmc, hptr⟩ := hx
  obtain ⟨mc', hmc', hptr'⟩ := hy
  have hstream : m.received x ++ m.output y = greeting (endpointPort (P y.1) (e y.1)) := by
    have hsaid := hg.peers y.1 mc' hmc'
    have hend : (y.1, mc'.bev.ptr) = y := Prod.ext rfl hptr'
    rw [hend, Mesh.said, hg.symm x y hxy, Option.elim_some] at hsaid
    exact hsaid
  refine ⟨_, hstep, rfl, ?_⟩
  rw [got_node_self]
  rw [List.take_length] at ht
  obtain ⟨before, hbefore, hcount⟩ := hh.lines x
  obtain ⟨out, hout⟩ := m.node_flush_eq y (m.output y).length x.1
  rw [hout] at ht
  have hgo := drain_resume hbefore (m.output y)
  rw [hstream, drain_greeting, Prod.mk.injEq] at hgo
  have hlast : (drain (m.input x ++ m.output y)).1 ≠ [] :=
    drain_ne_nil (List.mem_append_right _ (lineFeed_mem_of_greeting hrest hstream))
  rcases (readBy_of_step ht).lines with ⟨hnone, -⟩ | ⟨mc₂, hmc₂, -, hudp, -⟩
  · exact absurd hptr (not_mem_of_find?_eq_none hnone mc hmc)
  · obtain ⟨hzero, hreg⟩ := registrations_last (P x.1) mc₂ hlast hgo.1.symm
    have hlines : Server.linesOf { m.node x.1 with output := out } x.2 (m.output y) =
        (drain (m.input x ++ m.output y)).1 := rfl
    have hold : (m.node x.1).udp.udpPeers.countP (·.onBehalf = x.2) = 0 :=
      Nat.le_zero.mp (hzero ▸ hcount)
    rw [hudp, hlines, hreg, List.countP_append, hold, List.countP_singleton]
    simp [linePeer, ptr_eq_of_find? hmc₂]

end Mesh

def boundTo : End → Endpoint
  | .a => endpointInit (.inet 0x0a000001 0x5000)
  | .b => endpointInit (.inet 0x0a000002 0x6100)

/-- One of them dials the other, both approve the connection, and nothing is delivered yet. The
one that accepts needs no event for it. -/
def dialled : List (MeshLabel End) :=
  [.act .a (.connect (.inet 0x0a000002 0x1704) ⟨true, true⟩ false),
    .act .b (.accept (.inet 0x0a000001 0x3930) 7 ⟨true, true⟩), .join (.a, 0) (.b, 0),
    .act .a (.event 0 bevEventConnected false .blank)]

theorem run_dialled : ∃ m, Run (Mesh.step fun _ => .reference)
      (Mesh.start (fun _ => false) boundTo) dialled m ∧ m.other (.a, 0) = some (.b, 0) ∧
    0 ∈ (m.node .a).bevs ∧ (m.node .a).fault = none ∧
    (∃ mc ∈ (m.node .a).peers, mc.bev.ptr = 0) ∧ (∃ mc ∈ (m.node .b).peers, mc.bev.ptr = 0) ∧
    m.output (.b, 0) ≠ [] := by
  refine ⟨_, .cons rfl (.cons rfl (.cons rfl (.cons rfl (.nil _)))), rfl, ?_, rfl, ?_, ?_, ?_⟩
  · exact List.mem_singleton.mpr rfl
  · exact ⟨_, List.mem_singleton.mpr rfl, rfl⟩
  · exact ⟨_, List.mem_singleton.mpr rfl, rfl⟩
  · exact List.cons_ne_nil _ _

/--
Whatever the daemons and the strangers of a mesh do, an end of a connection between two daemons has
registered at most one UDP peer, with the port that the daemon at the other end is bound to
and the address of the connection.
-/
theorem registered_port_of_other {ctx : N → Bool} {ls : List (MeshLabel N)}
    (hr : Run (Mesh.step P) (Mesh.start ctx e) ls m) (hxy : m.other x = some y) :
    (m.node x.1).udp.udpPeers.countP (·.onBehalf = x.2) ≤ 1 ∧
    ∀ u ∈ (m.node x.1).udp.udpPeers, u.onBehalf = x.2 →
      endpointPort (P x.1) u.peerAddr = endpointPort (P y.1) (e y.1) ∧
      ∀ mc ∈ (m.node x.1).peers, mc.bev.ptr = x.2 →
        u.peerAddr.addr.ip = mc.address.sa.ip := by
  obtain ⟨hh, hg⟩ := Mesh.sound_of_run hr
  obtain ⟨lines, hlines, hle⟩ := hh.lines x
  have hheard := hg.heard hxy 0
  rw [List.take_zero, List.append_nil, hlines] at hheard
  refine ⟨hle.trans (portLines_greeting ((List.prefix_append _ _).trans hheard)), ?_⟩
  intro u hu hon
  refine ⟨hh.registered x y hxy u hu hon, fun mc hmc hptr => ?_⟩
  exact (hh.attributed x.1).address u hu mc hmc (hptr.trans hon.symm)

/-- Once the greeting has been delivered, the other daemon is registered with its port. -/
theorem registered_port_of_other_greeted :
    ∃ ls m, Run (Mesh.step fun _ => .reference) (Mesh.start (fun _ => false) boundTo)
        (dialled ++ ls) m ∧
      ∃ u ∈ (m.node .a).udp.udpPeers, u.onBehalf = 0 ∧
        endpointPort .reference u.peerAddr = endpointPort .reference (boundTo .b) := by
  obtain ⟨m, hr, hother, hlive, hfault, hx, hy, hrest⟩ := run_dialled
  obtain ⟨hh, hg⟩ := Mesh.sound_of_run hr
  obtain ⟨m', hstep, hsame, hcount⟩ :=
    Mesh.registers_of_sound hh hg hother hlive hfault hx hy hrest
  have hrun : Run (Mesh.step fun _ => .reference) (Mesh.start (fun _ => false) boundTo)
      (dialled ++ [.deliver (.a, 0) (m.output (.b, 0)).length]) m' :=
    run_append_iff.mpr ⟨m, hr, .cons hstep (.nil _)⟩
  have hother' : m'.other (.a, 0) = some (.b, 0) := by rw [hsame, hother]
  have hpos : 0 < (m'.node .a).udp.udpPeers.countP (·.onBehalf = 0) := by rw [hcount]; decide
  obtain ⟨u, hu, hon⟩ := List.countP_pos_iff.mp hpos
  have hbehalf : u.onBehalf = 0 := by simpa using hon
  exact ⟨_, m', hrun, u, hu, hbehalf,
    ((registered_port_of_other hrun hother').2 u hu hbehalf).1⟩

/--
A daemon says nothing to a connection that it has not approved, and to one that it has approved
exactly its greeting, once, whatever it is told meanwhile.
-/
theorem said_iff_approved {ctx : N → Bool} {ls : List (MeshLabel N)}
    (hr : Run (Mesh.step P) (Mesh.start ctx e) ls m) {mc : Mc} (hmc : mc ∈ (m.node i).held) :
    (mc ∈ (m.node i).peers ↔ m.said (i, mc.bev.ptr) = greeting (endpointPort (P i) (e i))) ∧
    (mc ∈ (m.node i).pendingPeers ↔ m.said (i, mc.bev.ptr) = []) := by
  obtain ⟨-, hg⟩ := Mesh.sound_of_run hr
  have hne : greeting (endpointPort (P i) (e i)) ≠ [] := by
    intro hnil
    have hdrain := drain_greeting (endpointPort (P i) (e i))
    rw [hnil] at hdrain
    cases hdrain
  rcases List.mem_append.mp hmc with hpend | hpeer
  · have hsaid := hg.pending i mc hpend
    refine ⟨⟨hg.peers i mc, fun h => ?_⟩, ⟨fun _ => hsaid, fun _ => hpend⟩⟩
    rw [hsaid] at h
    exact absurd h.symm hne
  · have hsaid := hg.peers i mc hpeer
    refine ⟨⟨fun _ => hsaid, fun _ => hpeer⟩, ⟨hg.pending i mc, fun h => ?_⟩⟩
    rw [hsaid] at h
    exact absurd h hne

theorem said_iff_approved_dialled :
    ∃ m, Run (Mesh.step fun _ => .reference) (Mesh.start (fun _ => false) boundTo) dialled m ∧
      m.said (.a, 0) = greeting (endpointPort .reference (boundTo .a)) := by
  obtain ⟨m, hr, -, -, -, ⟨mc, hmc, hptr⟩, -⟩ := run_dialled
  have hsaid := ((said_iff_approved hr (List.mem_append_right _ hmc)).1).mp hmc
  rw [hptr] at hsaid
  exact ⟨m, hr, hsaid⟩

/-- What one daemon sends never stops another one, however it is cut. -/
theorem deliver_never_faults {ctx : N → Bool} {ls : List (MeshLabel N)}
    (hr : Run (Mesh.step P) (Mesh.start ctx e) ls m) (hxy : m.other x = some y)
    (hlive : x.2 ∈ (m.node x.1).bevs) (hf : (m.node x.1).fault = none) (n : ℕ) :
    ∃ m', m.step P (.deliver x n) = some m' ∧ ∀ i, (m'.node i).fault = (m.node i).fault := by
  obtain ⟨hh, hg⟩ := Mesh.sound_of_run hr
  obtain ⟨t, ht, hstep⟩ := Mesh.exists_deliver (P := P) hxy hlive hf n
  refine ⟨_, hstep, ?_⟩
  refine Mesh.forall_node_set (p := fun i s => s.fault = (m.node i).fault) ?_ ?_
  · intro i
    obtain ⟨out, hout⟩ := m.node_flush_eq y n i
    rw [hout]
  · rcases (readBy_of_step ht).lines with ⟨-, -, -, hnone⟩ | ⟨mc, -, -, -, hlines⟩
    · exact hnone.trans hf.symm
    · have hmissing : (((m.flush y n).node x.1).linesOf x.2 ((m.output y).take n)).any
          missingArg = false := by
        rw [List.any_eq_false]
        intro line hline
        have hmem := (hg.heard hxy n).subset ((hh.flush y n).linesOf_subset x _ hline)
        simp [missingArg_of_mem_greeting hmem]
      rw [hlines, hmissing, hf]
      rfl

theorem deliver_never_faults_dialled :
    ∃ m m', Run (Mesh.step fun _ => .reference) (Mesh.start (fun _ => false) boundTo) dialled m ∧
      m.step (fun _ => .reference) (.deliver (.a, 0) 12) = some m' ∧
      ∀ i, (m'.node i).fault = (m.node i).fault := by
  obtain ⟨m, hr, hother, hlive, hfault, -⟩ := run_dialled
  obtain ⟨m', hstep, hsame⟩ := deliver_never_faults hr hother hlive hfault 12
  exact ⟨m, m', hr, hstep, hsame⟩

/--
Between two approved ends, the delivery of what is left registers the other end: exactly one UDP
peer is registered on behalf of the connection.
-/
theorem deliver_registers {ctx : N → Bool} {ls : List (MeshLabel N)}
    (hr : Run (Mesh.step P) (Mesh.start ctx e) ls m) (hxy : m.other x = some y)
    (hlive : x.2 ∈ (m.node x.1).bevs) (hf : (m.node x.1).fault = none)
    (hx : ∃ mc ∈ (m.node x.1).peers, mc.bev.ptr = x.2)
    (hy : ∃ mc ∈ (m.node y.1).peers, mc.bev.ptr = y.2) (hrest : m.output y ≠ []) :
    ∃ m', m.step P (.deliver x (m.output y).length) = some m' ∧
      (m'.node x.1).udp.udpPeers.countP (·.onBehalf = x.2) = 1 := by
  obtain ⟨hh, hg⟩ := Mesh.sound_of_run hr
  obtain ⟨m', hstep, -, hcount⟩ := Mesh.registers_of_sound hh hg hxy hlive hf hx hy hrest
  exact ⟨m', hstep, hcount⟩

theorem deliver_registers_dialled :
    ∃ m m', Run (Mesh.step fun _ => .reference) (Mesh.start (fun _ => false) boundTo) dialled m ∧
      m.step (fun _ => .reference) (.deliver (.a, 0) (m.output (.b, 0)).length) = some m' ∧
      (m'.node .a).udp.udpPeers.countP (·.onBehalf = 0) = 1 := by
  obtain ⟨m, hr, hother, hlive, hfault, hx, hy, hrest⟩ := run_dialled
  obtain ⟨m', hstep, hcount⟩ := deliver_registers hr hother hlive hfault hx hy hrest
  exact ⟨m, m', hr, hstep, hcount⟩

end Steps

end Tnetacle.Meta
