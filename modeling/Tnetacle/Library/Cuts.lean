import Mathlib.Data.List.Basic
import Mathlib.Data.List.Flatten
import Mathlib.Data.List.Infix

/-! # Cuts of a list

The same list is cut into pieces in two ways, and a reader takes at most `n` elements of a
piece at a time. If the two cuts are aligned, the reader meets every short piece of the second
cut as a whole, and nothing but parts of its long ones besides. If the second has no long
pieces, this is the only way in which the reader meets its pieces and nothing else.
-/

namespace Cuts

variable {α γ : Type*}

/-- The place `p` is between two pieces, or at an end. -/
def Boundary (pieces : List (List α)) (p : ℕ) : Prop :=
  ∃ ps, ps <+: pieces ∧ ps.flatten.length = p

/-- The blocks of `n` elements of a list, the last of which may be shorter. -/
def blocks (n : ℕ) (l : List α) : List (List α) :=
  if l = [] ∨ n = 0 then [] else l.take n :: blocks n (l.drop n)
termination_by l.length
decreasing_by
  rename_i h
  have hpos := List.length_pos_iff.mpr (not_or.mp h).1
  have hn := (not_or.mp h).2
  rw [List.length_drop]
  omega

/--
Every piece of `texts` that begins inside a piece of `segments` begins at a multiple of `n`
elements from its beginning, and no boundary of `segments` is inside a short piece of `texts`.
-/
structure Aligned (n : ℕ) (segments texts : List (List α)) : Prop where
  begins : ∀ ss s p, ss ++ [s] <+: segments → Boundary texts p → ss.flatten.length ≤ p →
    p < ss.flatten.length + s.length → (p - ss.flatten.length) % n = 0
  whole : ∀ ts t p, ts ++ [t] <+: texts → t.length ≤ n → Boundary segments p →
    p ≤ ts.flatten.length ∨ ts.flatten.length + t.length ≤ p

variable {n p : ℕ} {l t : List α} {pieces segments texts : List (List α)}

/-! ## Boundaries -/

theorem boundary_zero : Boundary pieces 0 := ⟨[], List.nil_prefix, rfl⟩

theorem boundary_nil_iff : Boundary ([] : List (List α)) p ↔ p = 0 := by
  constructor
  · rintro ⟨ps, hps, rfl⟩
    rw [List.prefix_nil.mp hps]
    rfl
  · rintro rfl
    exact boundary_zero

theorem boundary_cons_iff :
    Boundary (t :: pieces) p ↔ p = 0 ∨ ∃ q, Boundary pieces q ∧ p = t.length + q := by
  constructor
  · rintro ⟨ps, hps, rfl⟩
    rcases List.prefix_cons_iff.mp hps with rfl | ⟨qs, rfl, hqs⟩
    · exact .inl rfl
    · exact .inr ⟨_, ⟨qs, hqs, rfl⟩, by simp⟩
  · rintro (rfl | ⟨q, ⟨qs, hqs, rfl⟩, rfl⟩)
    · exact boundary_zero
    · exact ⟨t :: qs, (List.prefix_cons_inj t).mpr hqs, by simp⟩

theorem boundary_append_iff (xs ys : List (List α)) :
    Boundary (xs ++ ys) p ↔ Boundary xs p ∨ ∃ q, Boundary ys q ∧ p = xs.flatten.length + q := by
  induction xs generalizing p with
  | nil =>
    simp only [List.nil_append, boundary_nil_iff, List.flatten_nil, List.length_nil, Nat.zero_add,
      exists_eq_right']
    constructor
    · exact .inr
    · rintro (rfl | h)
      · exact boundary_zero
      · exact h
  | cons x xs ih =>
    simp only [List.cons_append, boundary_cons_iff, ih, List.flatten_cons, List.length_append]
    constructor
    · rintro (rfl | ⟨q, hq | ⟨r, hr, rfl⟩, rfl⟩)
      · exact .inl (.inl rfl)
      · exact .inl (.inr ⟨q, hq, rfl⟩)
      · exact .inr ⟨r, hr, by omega⟩
    · rintro ((rfl | ⟨q, hq, rfl⟩) | ⟨r, hr, rfl⟩)
      · exact .inl rfl
      · exact .inr ⟨q, .inl hq, rfl⟩
      · exact .inr ⟨_, .inr ⟨r, hr, rfl⟩, by omega⟩

theorem boundary_or_inside (hp : p ≤ pieces.flatten.length) :
    Boundary pieces p ∨ ∃ ps t, ps ++ [t] <+: pieces ∧ ps.flatten.length < p ∧
      p < ps.flatten.length + t.length := by
  induction pieces generalizing p with
  | nil => exact .inl (boundary_nil_iff.mpr (by simpa using hp))
  | cons t pieces ih =>
    rw [List.flatten_cons, List.length_append] at hp
    rcases Nat.eq_zero_or_pos p with rfl | hpos
    · exact .inl boundary_zero
    · by_cases hlt : p < t.length
      · exact .inr ⟨[], t, ⟨pieces, rfl⟩, hpos, by simpa using hlt⟩
      · have hsub : p = t.length + (p - t.length) := by omega
        rcases @ih (p - t.length) (by omega) with hb | ⟨ps, u, hps, hlo, hhi⟩
        · exact .inl (boundary_cons_iff.mpr (.inr ⟨_, hb, hsub⟩))
        · refine .inr ⟨t :: ps, u, (List.prefix_cons_inj t).mpr hps, ?_, ?_⟩ <;>
            simp only [List.flatten_cons, List.length_append] <;> omega

namespace Aligned

theorem cons (t : List α) (h : Aligned n segments texts) :
    Aligned n (t :: segments) (t :: texts) := by
  constructor
  · intro ss s p hss hp hle hlt
    rcases boundary_cons_iff.mp hp with rfl | ⟨q, hq, rfl⟩
    · rw [Nat.zero_sub, Nat.zero_mod]
    · cases ss with
      | nil =>
        obtain ⟨rfl, -⟩ := List.cons_prefix_cons.mp hss
        simp only [List.flatten_nil, List.length_nil] at hlt
        omega
      | cons x ss =>
        obtain ⟨rfl, hrest⟩ := List.cons_prefix_cons.mp hss
        simp only [List.flatten_cons, List.length_append] at hle hlt ⊢
        rw [Nat.add_sub_add_left]
        exact h.begins ss s q hrest hq (by omega) (by omega)
  · intro ts u p hts hu hp
    rcases boundary_cons_iff.mp hp with rfl | ⟨q, hq, rfl⟩
    · exact .inl (Nat.zero_le _)
    · cases ts with
      | nil =>
        obtain ⟨rfl, -⟩ := List.cons_prefix_cons.mp hts
        exact .inr (by simp)
      | cons x ts =>
        obtain ⟨rfl, hrest⟩ := List.cons_prefix_cons.mp hts
        have hout := h.whole ts u q hrest hu hq
        simp only [List.flatten_cons, List.length_append]
        omega

theorem refl (n : ℕ) (texts : List (List α)) : Aligned n texts texts := by
  induction texts with
  | nil => exact ⟨fun ss s p hss => by simp at hss, fun ts t p hts => by simp at hts⟩
  | cons t texts ih => exact ih.cons t

end Aligned

/-! ## Blocks -/

theorem blocks_nil : blocks n ([] : List α) = [] := by
  rw [blocks, if_pos (.inl rfl)]

theorem blocks_of_ne_nil (hn : 0 < n) (hl : l ≠ []) :
    blocks n l = l.take n :: blocks n (l.drop n) := by
  rw [blocks, if_neg (by simp [hl, hn.ne'])]

theorem blocks_of_length_le (hl : l ≠ []) (hle : l.length ≤ n) : blocks n l = [l] := by
  have hpos := List.length_pos_iff.mpr hl
  rw [blocks_of_ne_nil (by omega) hl, List.take_of_length_le hle, List.drop_eq_nil_of_le hle,
    blocks_nil]

theorem flatten_blocks (hn : 0 < n) (l : List α) : (blocks n l).flatten = l := by
  fun_induction blocks n l with
  | case1 l h =>
    rcases h with rfl | rfl
    · rfl
    · omega
  | case2 l h ih => rw [List.flatten_cons, ih, List.take_append_drop]

theorem flatten_flatMap_blocks (hn : 0 < n) (segments : List (List α)) :
    (segments.flatMap (blocks n)).flatten = segments.flatten := by
  rw [List.flatMap_def, List.flatten_flatten, List.map_map]
  have hid : List.flatten ∘ blocks n = (id : List α → List α) := funext (flatten_blocks hn)
  rw [hid, List.map_id]

theorem mem_blocks {b : List α} (hb : b ∈ blocks n l) : b ≠ [] ∧ b.length ≤ n := by
  fun_induction blocks n l with
  | case1 l h => cases hb
  | case2 l h ih =>
    rcases List.mem_cons.mp hb with rfl | hb
    · obtain ⟨hl, hn⟩ := not_or.mp h
      refine ⟨?_, List.length_take_le n l⟩
      simp [List.take_eq_nil_iff, hl, hn]
    · exact ih hb

/-- The boundaries of the blocks are the multiples of `n`, and the end. -/
theorem boundary_blocks_iff (hn : 0 < n) (l : List α) :
    Boundary (blocks n l) p ↔ p = l.length ∨ p < l.length ∧ p % n = 0 := by
  fun_induction blocks n l generalizing p with
  | case1 l h =>
    rcases h with rfl | rfl
    · simp [boundary_nil_iff]
    · omega
  | case2 l h ih =>
    have hpos := List.length_pos_iff.mpr (not_or.mp h).1
    rw [boundary_cons_iff]
    simp only [ih, List.length_take, List.length_drop]
    constructor
    · rintro (rfl | ⟨q, hq | ⟨hq, hmod⟩, rfl⟩)
      · exact .inr ⟨hpos, Nat.zero_mod n⟩
      · left
        omega
      · right
        have hmin : min n l.length = n := by omega
        rw [hmin, Nat.add_mod_left]
        exact ⟨by omega, hmod⟩
    · intro hp
      by_cases hle : l.length ≤ n
      · rcases hp with rfl | ⟨hlt, hmod⟩
        · exact .inr ⟨0, .inl (by omega), by omega⟩
        · rw [Nat.mod_eq_of_lt (by omega)] at hmod
          exact .inl hmod
      · rcases hp with rfl | ⟨hlt, hmod⟩
        · exact .inr ⟨l.length - n, .inl rfl, by omega⟩
        · rcases Nat.eq_zero_or_pos p with rfl | hp
          · exact .inl rfl
          · have hge := Nat.le_of_dvd hp (Nat.dvd_of_mod_eq_zero hmod)
            refine .inr ⟨p - n, .inr ⟨by omega, ?_⟩, by omega⟩
            rw [← Nat.mod_eq_sub_mod hge]
            exact hmod

theorem exists_piece_cons_iff {P : ℕ → List α → Prop} :
    (∃ ps u, ps ++ [u] <+: t :: pieces ∧ P ps.flatten.length u) ↔
      P 0 t ∨ ∃ ps u, ps ++ [u] <+: pieces ∧ P (t.length + ps.flatten.length) u := by
  constructor
  · rintro ⟨ps, u, hps, h⟩
    cases ps with
    | nil =>
      obtain ⟨rfl, -⟩ := List.cons_prefix_cons.mp hps
      exact .inl h
    | cons x ps =>
      obtain ⟨rfl, hrest⟩ := List.cons_prefix_cons.mp hps
      exact .inr ⟨ps, u, hrest, by simpa using h⟩
  · rintro (h | ⟨ps, u, hps, h⟩)
    · exact ⟨[], t, ⟨pieces, rfl⟩, h⟩
    · exact ⟨t :: ps, u, (List.prefix_cons_inj t).mpr hps, by simpa using h⟩

/-- The boundaries of the blocks of all pieces. -/
theorem boundary_flatMap_blocks_iff (hn : 0 < n) (segments : List (List α)) :
    Boundary (segments.flatMap (blocks n)) p ↔ Boundary segments p ∨
      ∃ ss s, ss ++ [s] <+: segments ∧ ss.flatten.length < p ∧
        p < ss.flatten.length + s.length ∧ (p - ss.flatten.length) % n = 0 := by
  induction segments generalizing p with
  | nil => simp [boundary_nil_iff]
  | cons s segments ih =>
    rw [List.flatMap_cons, boundary_append_iff, flatten_blocks hn, boundary_blocks_iff hn,
      boundary_cons_iff, exists_piece_cons_iff
        (P := fun b u => b < p ∧ p < b + u.length ∧ (p - b) % n = 0)]
    simp only [ih]
    constructor
    · rintro ((rfl | ⟨hlt, hmod⟩) | ⟨q, hq | ⟨ss, u, hss, hlo, hhi, hmod⟩, rfl⟩)
      · exact .inl (.inr ⟨0, boundary_zero, rfl⟩)
      · rcases Nat.eq_zero_or_pos p with rfl | hp
        · exact .inl (.inl rfl)
        · exact .inr (.inl ⟨hp, by omega, hmod⟩)
      · exact .inl (.inr ⟨q, hq, rfl⟩)
      · refine .inr (.inr ⟨ss, u, hss, by omega, by omega, ?_⟩)
        rwa [Nat.add_sub_add_left]
    · rintro ((rfl | ⟨q, hq, rfl⟩) | ⟨hlo, hhi, hmod⟩ | ⟨ss, u, hss, hlo, hhi, hmod⟩)
      · rcases Nat.eq_zero_or_pos s.length with hs | hs
        · exact .inl (.inl hs.symm)
        · exact .inl (.inr ⟨hs, Nat.zero_mod n⟩)
      · exact .inr ⟨q, .inl hq, rfl⟩
      · exact .inl (.inr ⟨by omega, hmod⟩)
      · refine .inr ⟨p - s.length, .inr ⟨ss, u, hss, by omega, by omega, ?_⟩, by omega⟩
        rwa [Nat.sub_sub]

namespace Aligned

theorem boundary_blocks (h : Aligned n segments texts) (hn : 0 < n)
    (heq : segments.flatten = texts.flatten) (hp : Boundary texts p) :
    Boundary (segments.flatMap (blocks n)) p := by
  have hle : p ≤ segments.flatten.length := by
    obtain ⟨ps, ⟨rest, rfl⟩, rfl⟩ := hp
    simp [heq]
  rw [boundary_flatMap_blocks_iff hn]
  rcases boundary_or_inside hle with hb | ⟨ss, s, hss, hlo, hhi⟩
  · exact .inl hb
  · exact .inr ⟨ss, s, hss, hlo, hhi, h.begins ss s p hss hp hlo.le hhi⟩

theorem blocks_outside (h : Aligned n segments texts) (hn : 0 < n) {ts : List (List α)}
    (hts : ts ++ [t] <+: texts) (ht : t.length ≤ n)
    (hp : Boundary (segments.flatMap (blocks n)) p) :
    p ≤ ts.flatten.length ∨ ts.flatten.length + t.length ≤ p := by
  rcases (boundary_flatMap_blocks_iff hn segments).mp hp with hb | ⟨ss, s, hss, hlo, hhi, hmod⟩
  · exact h.whole ts t p hts ht hb
  · rcases h.whole ts t _ hts ht ⟨ss, (List.prefix_append ss [s]).trans hss, rfl⟩ with hle | hle
    · by_contra hin
      rw [not_or] at hin
      have htext := h.begins ss s _ hss ⟨ts, (List.prefix_append ts [t]).trans hts, rfl⟩ hle
        (by omega)
      have hdvd := Nat.dvd_sub (Nat.dvd_of_mod_eq_zero hmod) (Nat.dvd_of_mod_eq_zero htext)
      have hge := Nat.le_of_dvd (by omega) hdvd
      omega
    · exact .inr (by omega)

end Aligned

/-! ## Reading -/

theorem exists_append_of_boundary {xs : List (List α)} (heq : xs.flatten = t ++ l)
    (h : Boundary xs t.length) : ∃ ys zs, xs = ys ++ zs ∧ ys.flatten = t ∧ zs.flatten = l := by
  obtain ⟨ys, ⟨zs, rfl⟩, hlen⟩ := h
  rw [List.flatten_append] at heq
  obtain ⟨hys, hzs⟩ := List.append_inj heq hlen
  exact ⟨ys, zs, rfl, hys, hzs⟩

theorem boundary_of_append {xs ys : List (List α)}
    (h : Boundary (xs ++ ys) (xs.flatten.length + p)) : Boundary ys p := by
  rcases (boundary_append_iff xs ys).mp h with ⟨ps, ⟨rest, rfl⟩, hlen⟩ | ⟨q, hq, hlen⟩
  · have hzero : p = 0 := by
      rw [List.flatten_append, List.length_append] at hlen
      omega
    rw [hzero]
    exact boundary_zero
  · have heq : p = q := by omega
    rwa [heq]

theorem eq_singleton_of_boundary {ys : List (List α)} (hne : ys.flatten ≠ [])
    (hys : ∀ y ∈ ys, y ≠ []) (h : ∀ p, Boundary ys p → p = 0 ∨ ys.flatten.length ≤ p) :
    ∃ y, ys = [y] := by
  cases ys with
  | nil => exact absurd rfl hne
  | cons y ys =>
    have hpos := List.length_pos_iff.mpr (hys y List.mem_cons_self)
    have hlen : ys.flatten = [] := by
      have hout := h y.length (boundary_cons_iff.mpr (.inr ⟨0, boundary_zero, rfl⟩))
      rw [List.flatten_cons, List.length_append] at hout
      exact List.eq_nil_of_length_eq_zero (by omega)
    refine ⟨y, ?_⟩
    rw [List.cons_eq_cons]
    refine ⟨rfl, List.eq_nil_iff_forall_not_mem.mpr fun x hx => ?_⟩
    exact hys x (List.mem_cons_of_mem y hx) (List.flatten_eq_nil_iff.mp hlen x hx)

/--
A reader that makes nothing of a part of a text, and finds every text cut into blocks of its
own of which a short one is the only, makes of them what it makes of the short texts.
-/
theorem flatMap_eq_of_boundaries {f : List α → List γ} {xs : List (List α)}
    (heq : xs.flatten = texts.flatten) (hxs : ∀ x ∈ xs, x ≠ [] ∧ x.length ≤ n)
    (hne : ∀ t ∈ texts, t ≠ []) (hf : ∀ t ∈ texts, ∀ x, x <:+: t → x ≠ t → f x = [])
    (hends : ∀ p, Boundary texts p → Boundary xs p)
    (hwhole : ∀ ts t p, ts ++ [t] <+: texts → t.length ≤ n → Boundary xs p →
      p ≤ ts.flatten.length ∨ ts.flatten.length + t.length ≤ p) :
    xs.flatMap f = (texts.filter fun t => decide (t.length ≤ n)).flatMap f := by
  induction texts generalizing xs with
  | nil =>
    have hnil : xs = [] := by
      rw [List.eq_nil_iff_forall_not_mem]
      intro x hx
      exact (hxs x hx).1 (List.flatten_eq_nil_iff.mp heq x hx)
    rw [hnil]
    rfl
  | cons t texts ih =>
    have hend : Boundary xs t.length :=
      hends _ (boundary_cons_iff.mpr (.inr ⟨0, boundary_zero, rfl⟩))
    obtain ⟨ys, zs, rfl, rfl, hzs⟩ := exists_append_of_boundary heq hend
    have hrest : zs.flatMap f = (texts.filter fun t => decide (t.length ≤ n)).flatMap f := by
      apply ih hzs
      · exact fun x hx => hxs x (List.mem_append_right ys hx)
      · exact fun t ht => hne t (List.mem_cons_of_mem _ ht)
      · exact fun t ht => hf t (List.mem_cons_of_mem _ ht)
      · intro p hp
        exact boundary_of_append (hends _ (boundary_cons_iff.mpr (.inr ⟨p, hp, rfl⟩)))
      · intro ts u p hts hu hp
        have hout := hwhole (ys.flatten :: ts) u _ ((List.prefix_cons_inj _).mpr hts) hu
          ((boundary_append_iff ys zs).mpr (.inr ⟨p, hp, rfl⟩))
        simp only [List.flatten_cons, List.length_append] at hout
        omega
    rw [List.flatMap_append, hrest, List.filter_cons]
    have hy : ∀ y ∈ ys, y ≠ [] ∧ y.length ≤ n := fun y hy => hxs y (List.mem_append_left zs hy)
    by_cases hshort : ys.flatten.length ≤ n
    · have hfirst : ∀ p, Boundary ys p → p = 0 ∨ ys.flatten.length ≤ p := by
        intro p hp
        have hout := hwhole [] ys.flatten p (List.prefix_append _ _) hshort
          ((boundary_append_iff ys zs).mpr (.inl hp))
        simpa using hout
      obtain ⟨y, rfl⟩ := eq_singleton_of_boundary (hne _ List.mem_cons_self)
        (fun y hmem => (hy y hmem).1) hfirst
      rw [if_pos (by simpa using hshort), List.flatMap_cons, List.flatten_singleton]
      simp
    · have hnone : ys.flatMap f = [] := by
        rw [List.flatMap_eq_nil_iff]
        intro y hmem
        apply hf _ List.mem_cons_self y (List.infix_of_mem_flatten hmem)
        rintro rfl
        exact hshort (hy _ hmem).2
      rw [if_neg (by simpa using hshort), hnone, List.nil_append]

theorem Aligned.flatMap_blocks (h : Aligned n segments texts) (hn : 0 < n)
    (heq : segments.flatten = texts.flatten) (hne : ∀ t ∈ texts, t ≠ []) {f : List α → List γ}
    (hf : ∀ t ∈ texts, ∀ x, x <:+: t → x ≠ t → f x = []) :
    (segments.flatMap (blocks n)).flatMap f =
      (texts.filter fun t => decide (t.length ≤ n)).flatMap f := by
  apply flatMap_eq_of_boundaries _ _ hne hf
  · exact fun p hp => h.boundary_blocks hn heq hp
  · exact fun ts t p hts ht hp => h.blocks_outside hn hts ht hp
  · rw [← heq, flatten_flatMap_blocks hn]
  · intro x hx
    obtain ⟨s, -, hxs⟩ := List.mem_flatMap.mp hx
    exact mem_blocks hxs

end Cuts
