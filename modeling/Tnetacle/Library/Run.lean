import Mathlib.Data.List.Induction

/-! # Runs of partial step functions

A system is a function `step : σ → α → Option σ`; a label carries everything
the environment decides, and `none` says that the label is not enabled. A run
is a list of labels. Invariants, conditions on the steps of a run, and the
equivalence of a property of all visited states with a condition on all steps
are derived here once for every system.
-/

namespace Runs

variable {σ α : Type*}

/-- The labels `as` are enabled one after the other from `s` and lead to `t`. -/
inductive Run (step : σ → α → Option σ) : σ → List α → σ → Prop where
  | nil (s : σ) : Run step s [] s
  | cons {s t u : σ} {a : α} {as : List α} :
      step s a = some t → Run step t as u → Run step s (a :: as) u

/-- Some run leads from `s` to `t`. -/
def Reachable (step : σ → α → Option σ) (s t : σ) : Prop := ∃ as, Run step s as t

/-- Every enabled step on the way is taken in a state where `C` allows it. -/
def Along (step : σ → α → Option σ) (C : σ → α → Prop) : σ → List α → Prop
  | _, [] => True
  | s, a :: as => ∀ t, step s a = some t → C s a ∧ Along step C t as

/-- Every state on the way satisfies `P`, the first and the last included. -/
def Throughout (step : σ → α → Option σ) (P : σ → Prop) : σ → List α → Prop
  | s, [] => P s
  | s, a :: as => P s ∧ ∀ t, step s a = some t → Throughout step P t as

variable {step : σ → α → Option σ} {s t u : σ} {a : α} {as bs : List α}

theorem run_nil_iff : Run step s [] t ↔ s = t := by
  constructor
  · intro h; cases h; rfl
  · rintro rfl; exact .nil s

theorem run_cons_iff : Run step s (a :: as) u ↔ ∃ t, step s a = some t ∧ Run step t as u := by
  constructor
  · intro h; cases h with | cons hs hr => exact ⟨_, hs, hr⟩
  · rintro ⟨t, hs, hr⟩; exact .cons hs hr

theorem run_append_iff :
    Run step s (as ++ bs) u ↔ ∃ t, Run step s as t ∧ Run step t bs u := by
  induction as generalizing s with
  | nil => simp [run_nil_iff]
  | cons a as ih =>
    simp only [List.cons_append, run_cons_iff, ih]
    constructor
    · rintro ⟨r, hr, t, hs, ht⟩
      exact ⟨t, ⟨r, hr, hs⟩, ht⟩
    · rintro ⟨t, ⟨r, hr, hs⟩, ht⟩
      exact ⟨r, hr, t, hs, ht⟩

theorem run_iff_foldlM : Run step s as t ↔ as.foldlM step s = some t := by
  induction as generalizing s with
  | nil => simp [run_nil_iff]
  | cons a as ih => simp [run_cons_iff, Option.bind_eq_some_iff, ih]

theorem Run.invariant {P : σ → Prop} (hstep : ∀ s a t, P s → step s a = some t → P t)
    (h : Run step s as t) (hs : P s) : P t := by
  induction h with
  | nil => exact hs
  | cons h _ ih => exact ih (hstep _ _ _ hs h)

/-- Where only labels of some kind are taken, only these have to keep the invariant. -/
theorem Run.invariant_of_forall {P : σ → Prop} {L : α → Prop}
    (hstep : ∀ s a t, P s → L a → step s a = some t → P t) (h : Run step s as t)
    (has : ∀ a ∈ as, L a) (hs : P s) : P t := by
  induction h with
  | nil => exact hs
  | cons h _ ih =>
    rw [List.forall_mem_cons] at has
    exact ih has.2 (hstep _ _ _ hs has.1 h)

theorem Reachable.invariant {P : σ → Prop}
    (hstep : ∀ s a t, P s → step s a = some t → P t) (h : Reachable step s t) (hs : P s) : P t := by
  obtain ⟨as, h⟩ := h
  exact h.invariant hstep hs

theorem Run.history {I : List α → σ → Prop} (h₀ : I [] s)
    (hstep : ∀ bs t a u, Run step s bs t → I bs t → step t a = some u → I (bs ++ [a]) u)
    (h : Run step s as t) : I as t := by
  induction as using List.reverseRecOn generalizing t with
  | nil => obtain rfl := run_nil_iff.mp h; exact h₀
  | append_singleton bs a ih =>
    obtain ⟨r, hr, hlast⟩ := run_append_iff.mp h
    obtain ⟨u, hu, hnil⟩ := run_cons_iff.mp hlast
    obtain rfl := run_nil_iff.mp hnil
    exact hstep bs r a u hr (ih hr) hu

theorem Run.det (h : Run step s as t) (h' : Run step s as u) : t = u := by
  induction h with
  | nil => exact run_nil_iff.mp h'
  | cons hs _ ih =>
    obtain ⟨r, hr, hrest⟩ := run_cons_iff.mp h'
    obtain rfl := Option.some.inj (hs.symm.trans hr)
    exact ih hrest

/-- Some step taken on the way from `s` has the property `Q`. -/
def Earlier (step : σ → α → Option σ) (Q : σ → α → Prop) (s : σ) (as : List α) : Prop :=
  ∃ bs b cs t, as = bs ++ b :: cs ∧ Run step s bs t ∧ Q t b

theorem not_earlier_nil {Q : σ → α → Prop} : ¬ Earlier step Q s [] := by
  rintro ⟨bs, b, cs, t, h, -⟩
  simp at h

/-- A step with `Q` has been taken if one had been before, or if the last one is one. -/
theorem earlier_snoc_iff {Q : σ → α → Prop} (h : Run step s as t) :
    Earlier step Q s (as ++ [a]) ↔ Earlier step Q s as ∨ Q t a := by
  constructor
  · rintro ⟨bs, b, cs, r, heq, hr, hQ⟩
    rcases List.eq_nil_or_concat cs with rfl | ⟨cs, c, rfl⟩
    · obtain ⟨rfl, hab⟩ := List.append_inj' heq rfl
      obtain rfl := List.head_eq_of_cons_eq hab
      exact .inr (h.det hr ▸ hQ)
    · rw [List.concat_eq_append, ← List.cons_append, ← List.append_assoc] at heq
      exact .inl ⟨bs, b, cs, r, (List.append_inj' heq rfl).1, hr, hQ⟩
  · rintro (⟨bs, b, cs, r, rfl, hr, hQ⟩ | hQ)
    · exact ⟨bs, b, cs ++ [a], r, by simp, hr, hQ⟩
    · exact ⟨as, a, [], t, rfl, h, hQ⟩

theorem Earlier.mono {Q R : σ → α → Prop} (hQR : ∀ s a, Q s a → R s a)
    (h : Earlier step Q s as) : Earlier step R s as := by
  obtain ⟨bs, b, cs, t, heq, hr, hQ⟩ := h
  exact ⟨bs, b, cs, t, heq, hr, hQR t b hQ⟩

theorem Throughout.head {P : σ → Prop} (h : Throughout step P s as) : P s := by
  cases as with
  | nil => exact h
  | cons a as => exact h.1

theorem Throughout.last {P : σ → Prop} (h : Throughout step P s as) (hr : Run step s as t) :
    P t := by
  induction hr with
  | nil => exact h
  | cons hs _ ih => exact ih (h.2 _ hs)

theorem Throughout.mono {P Q : σ → Prop} (hPQ : ∀ s, P s → Q s) (h : Throughout step P s as) :
    Throughout step Q s as := by
  induction as generalizing s with
  | nil => exact hPQ s h
  | cons a as ih => exact ⟨hPQ s h.1, fun t ht => ih (h.2 t ht)⟩

theorem along_cons_iff {C : σ → α → Prop} (h : step s a = some t) :
    Along step C s (a :: as) ↔ C s a ∧ Along step C t as := by
  simp [Along, h]

theorem along_true (s : σ) (as : List α) : Along step (fun _ _ => True) s as := by
  induction as generalizing s with
  | nil => trivial
  | cons a as ih => exact fun t _ => ⟨trivial, ih t⟩

theorem Along.mono {C D : σ → α → Prop} (hCD : ∀ s a, C s a → D s a) (h : Along step C s as) :
    Along step D s as := by
  induction as generalizing s with
  | nil => trivial
  | cons a as ih => exact fun t ht => ⟨hCD s a (h t ht).1, ih (h t ht).2⟩

theorem Along.and_forall {C : σ → α → Prop} {D : α → Prop} (h : Along step C s as)
    (hD : ∀ a ∈ as, D a) : Along step (fun s a => C s a ∧ D a) s as := by
  induction as generalizing s with
  | nil => trivial
  | cons a as ih =>
    rw [List.forall_mem_cons] at hD
    exact fun t ht => ⟨⟨(h t ht).1, hD.1⟩, ih (h t ht).2 hD.2⟩

theorem throughout_of_along {P : σ → Prop} {C : σ → α → Prop}
    (hstep : ∀ s a t, P s → C s a → step s a = some t → P t)
    (hs : P s) (h : Along step C s as) : Throughout step P s as := by
  induction as generalizing s with
  | nil => exact hs
  | cons a as ih =>
    refine ⟨hs, fun t ht => ?_⟩
    obtain ⟨hc, hrest⟩ := h t ht
    exact ih (hstep s a t hs hc ht) hrest

/-- A condition that every allowed step meets in a state with `P`. -/
theorem along_of_throughout {C D : σ → α → Prop} {P : σ → Prop}
    (hD : ∀ s a t, P s → C s a → step s a = some t → D s a)
    (hP : Throughout step P s as) (h : Along step C s as) : Along step D s as := by
  induction as generalizing s with
  | nil => trivial
  | cons a as ih =>
    intro t ht
    obtain ⟨ha, hrest⟩ := h t ht
    exact ⟨hD s a t hP.1 ha ht, ih (hP.2 t ht) hrest⟩

/-- If every step that `C` forbids starts something that lasts, a run that ends without it is
allowed. -/
theorem along_of_run {I L : σ → Prop} {C : σ → α → Prop}
    (hI : ∀ s a t, I s → step s a = some t → I t)
    (hstart : ∀ s a t, I s → step s a = some t → ¬ C s a → L t)
    (hlast : ∀ s a t, I s → L s → step s a = some t → L t)
    (h₀ : I s) (h : Run step s as t) (hend : ¬ L t) : Along step C s as := by
  induction h with
  | nil => trivial
  | cons hs hr ih =>
    refine (along_cons_iff hs).mpr ⟨?_, ih (hI _ _ _ h₀ hs) hend⟩
    by_contra hc
    have hkeep := hr.invariant (P := fun s => I s ∧ L s)
      (fun s a t h hst => ⟨hI s a t h.1 hst, hlast s a t h.1 h.2 hst⟩)
    exact hend (hkeep ⟨hI _ _ _ h₀ hs, hstart _ _ _ h₀ hs hc⟩).2

/--
If, under an invariant `I`, a step keeps `P` exactly when `C` allows it, then `P`
holds throughout a run exactly when `C` allows every step of the run.
-/
theorem throughout_iff_along {I P : σ → Prop} {C : σ → α → Prop}
    (hI : ∀ s a t, I s → step s a = some t → I t)
    (hstep : ∀ s a t, I s → P s → step s a = some t → (P t ↔ C s a))
    (h₀ : I s) (hs : P s) : Throughout step P s as ↔ Along step C s as := by
  induction as generalizing s with
  | nil => exact ⟨fun _ => trivial, fun _ => hs⟩
  | cons a as ih =>
    constructor
    · rintro ⟨_, h⟩ t ht
      have hc := (hstep s a t h₀ hs ht).mp (h t ht).head
      exact ⟨hc, (ih (hI s a t h₀ ht) ((hstep s a t h₀ hs ht).mpr hc)).mp (h t ht)⟩
    · intro h
      refine ⟨hs, fun t ht => ?_⟩
      obtain ⟨hc, hrest⟩ := h t ht
      exact (ih (hI s a t h₀ ht) ((hstep s a t h₀ hs ht).mpr hc)).mpr hrest

/-! ## Endings -/

def Final (step : σ → α → Option σ) (s : σ) : Prop := ∀ a, step s a = none

/-- No run from `s` goes on for ever. -/
def Terminates (step : σ → α → Option σ) (s : σ) : Prop :=
  Acc (fun t s => ∃ a, step s a = some t) s

/-- Every run from `s` is finite, and `P` holds where one can go no further. -/
def Ends (step : σ → α → Option σ) (P : σ → Prop) (s : σ) : Prop :=
  Terminates step s ∧ ∀ as t, Run step s as t → Final step t → P t

theorem terminates_of_measure {I : σ → Prop} (μ : σ → ℕ)
    (hI : ∀ s a t, I s → step s a = some t → I t)
    (hμ : ∀ s a t, I s → step s a = some t → μ t < μ s) (hs : I s) : Terminates step s := by
  induction hn : μ s using Nat.strongRecOn generalizing s with
  | ind n ih =>
    subst hn
    constructor
    rintro t ⟨a, ht⟩
    exact ih (μ t) (hμ s a t hs ht) (hI s a t hs ht) rfl

theorem Terminates.exists_final (h : Terminates step s) :
    ∃ as t, Run step s as t ∧ Final step t := by
  induction h with
  | intro s _ ih =>
    by_cases hfinal : Final step s
    · exact ⟨[], s, .nil s, hfinal⟩
    · simp only [Final, not_forall] at hfinal
      obtain ⟨a, ha⟩ := hfinal
      obtain ⟨t, ht⟩ := Option.ne_none_iff_exists'.mp ha
      obtain ⟨as, u, hrun, hu⟩ := ih t ⟨a, ht⟩
      exact ⟨a :: as, u, .cons ht hrun, hu⟩

/-- From every state on the way, `P` is reached. -/
theorem Ends.exists_run {P : σ → Prop} (h : Ends step P s) (hr : Run step s as t) :
    ∃ bs u, Run step t bs u ∧ P u := by
  have hterm : Terminates step t :=
    hr.invariant (fun _ a _ hs ht => hs.inv ⟨a, ht⟩) h.1
  obtain ⟨bs, u, hrun, hu⟩ := hterm.exists_final
  exact ⟨bs, u, hrun, h.2 (as ++ bs) u (run_append_iff.mpr ⟨t, hr, hrun⟩) hu⟩

/-- From related states the two systems can do the same, step by step. -/
structure Bisim {τ β : Type*} (R : σ → τ → Prop) (step : σ → α → Option σ)
    (step' : τ → β → Option τ) : Prop where
  forth : ∀ s t a s', R s t → step s a = some s' → ∃ b t', step' t b = some t' ∧ R s' t'
  back : ∀ s t b t', R s t → step' t b = some t' → ∃ a s', step s a = some s' ∧ R s' t'

namespace Bisim

variable {τ β : Type*} {R : σ → τ → Prop} {step' : τ → β → Option τ} {t' : τ}

theorem symm (h : Bisim R step step') : Bisim (fun t s => R s t) step' step :=
  ⟨fun t s b t' hR hb => h.back s t b t' hR hb, fun t s a s' hR ha => h.forth s t a s' hR ha⟩

theorem run (h : Bisim R step step') (hr : Run step s as u) (hR : R s t') :
    ∃ bs u', Run step' t' bs u' ∧ R u u' := by
  induction hr generalizing t' with
  | nil s => exact ⟨[], t', .nil t', hR⟩
  | cons hs _ ih =>
    obtain ⟨b, r', hb, hR'⟩ := h.forth _ _ _ _ hR hs
    obtain ⟨bs, u', hrun, hu⟩ := ih hR'
    exact ⟨b :: bs, u', .cons hb hrun, hu⟩

theorem final (h : Bisim R step step') (hR : R s t') (hs : Final step s) : Final step' t' := by
  intro b
  by_contra hb
  obtain ⟨u', hu⟩ := Option.ne_none_iff_exists'.mp hb
  obtain ⟨a, r, ha, -⟩ := h.back _ _ _ _ hR hu
  rw [hs a] at ha
  cases ha

theorem terminates (h : Bisim R step step') (hR : R s t') (ht : Terminates step' t') :
    Terminates step s := by
  induction ht generalizing s with
  | intro t' _ ih =>
    constructor
    rintro r ⟨a, hr⟩
    obtain ⟨b, r', hb, hR'⟩ := h.forth _ _ _ _ hR hr
    exact ih r' ⟨b, hb⟩ hR'

theorem ends {P : σ → Prop} {Q : τ → Prop} (h : Bisim R step step')
    (hQP : ∀ s t, R s t → Q t → P s) (hR : R s t') (ht : Ends step' Q t') : Ends step P s := by
  refine ⟨h.terminates hR ht.1, fun as u hrun hu => ?_⟩
  obtain ⟨bs, u', hrun', hR'⟩ := h.run hrun hR
  exact hQP u u' hR' (ht.2 bs u' hrun' (h.final hR' hu))

/-- Related states end alike. -/
theorem ends_iff {P : σ → Prop} {Q : τ → Prop} (h : Bisim R step step')
    (hPQ : ∀ s t, R s t → (P s ↔ Q t)) (hR : R s t') : Ends step P s ↔ Ends step' Q t' :=
  ⟨h.symm.ends (fun t s hR => (hPQ s t hR).mp) hR, h.ends (fun s t hR => (hPQ s t hR).mpr) hR⟩

end Bisim

end Runs
