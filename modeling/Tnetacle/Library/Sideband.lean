import Mathlib.Data.List.Basic

/-! # Streams with out-of-band items

Some frames of a stream come with an item that does not travel among its elements. On its way an
item may overtake elements, but neither another item nor the end of its own frame. A reader that
keeps the items in a queue then finds the item of a frame at the head of it when the
frame is complete.
-/

namespace Sideband

variable {α β : Type*}

inductive Token (α β : Type*)
  | mark (x : α)
  | data (b : β)
  deriving DecidableEq

open Token

def marks : List (Token α β) → List α
  | [] => []
  | mark x :: t => x :: marks t
  | data _ :: t => marks t

def elems : List (Token α β) → List β
  | [] => []
  | mark _ :: t => elems t
  | data b :: t => b :: elems t

def frame (x : Option α) (es : List β) : List (Token α β) := x.toList.map mark ++ es.map data

def apart (xs : List α) (es : List β) : List (Token α β) := xs.map mark ++ es.map data

/-- The first `k` elements with the items before them, and what is left. -/
def split : List (Token α β) → ℕ → List (Token α β) × List (Token α β)
  | [], _ => ([], [])
  | t, 0 => ([], t)
  | mark x :: t, k + 1 => (mark x :: (split t (k + 1)).1, (split t (k + 1)).2)
  | data b :: t, k + 1 => (data b :: (split t k).1, (split t k).2)

/-- The first list is the second one, with some of the items moved towards the front. -/
inductive Early : List (Token α β) → List (Token α β) → Prop
  | nil : Early [] []
  | keep (b : β) {t c : List (Token α β)} : Early t c → Early (data b :: t) (data b :: c)
  | move (x : α) (es : List β) {t c c' : List (Token α β)} : Early t (es.map data ++ c) →
      c' = es.map data ++ mark x :: c → Early (mark x :: t) c'

variable {x : α} {xs : List α} {es : List β} {t u c d : List (Token α β)}

/-! ## Items and elements -/

@[simp] theorem marks_append (t u : List (Token α β)) : marks (t ++ u) = marks t ++ marks u := by
  induction t with
  | nil => rfl
  | cons a t ih => cases a <;> simp [marks, ih]

@[simp] theorem elems_append (t u : List (Token α β)) : elems (t ++ u) = elems t ++ elems u := by
  induction t with
  | nil => rfl
  | cons a t ih => cases a <;> simp [elems, ih]

@[simp] theorem marks_map_mark (xs : List α) : marks (xs.map mark : List (Token α β)) = xs := by
  induction xs with
  | nil => rfl
  | cons x xs ih => simp [marks, ih]

@[simp] theorem marks_map_data (es : List β) : marks (es.map data : List (Token α β)) = [] := by
  induction es with
  | nil => rfl
  | cons b es ih => simp [marks, ih]

@[simp] theorem elems_map_mark (xs : List α) : elems (xs.map mark : List (Token α β)) = [] := by
  induction xs with
  | nil => rfl
  | cons x xs ih => simp [elems, ih]

@[simp] theorem elems_map_data (es : List β) : elems (es.map data : List (Token α β)) = es := by
  induction es with
  | nil => rfl
  | cons b es ih => simp [elems, ih]

theorem elems_frame (x : Option α) (es : List β) : elems (frame x es) = es := by
  simp [frame]

theorem marks_frame (x : Option α) (es : List β) : marks (frame x es) = x.toList := by
  simp [frame]

theorem split_append (t : List (Token α β)) (k : ℕ) : (split t k).1 ++ (split t k).2 = t := by
  induction t generalizing k with
  | nil => rfl
  | cons a t ih =>
    cases k with
    | zero => cases a <;> rfl
    | succ k => cases a <;> simp [split, ih]

theorem elems_split_snd (t : List (Token α β)) (k : ℕ) :
    elems (split t k).2 = (elems t).drop k := by
  induction t generalizing k with
  | nil => exact (List.drop_nil).symm
  | cons a t ih =>
    cases k with
    | zero => cases a <;> rfl
    | succ k =>
      cases a with
      | mark x => exact ih (k + 1)
      | data b => exact ih k

/-! ## Items that come early -/

theorem early_refl (t : List (Token α β)) : Early t t := by
  induction t with
  | nil => exact .nil
  | cons a t ih =>
    cases a with
    | mark x => exact .move x [] ih rfl
    | data b => exact .keep b ih

theorem Early.append (h : Early t c) (h' : Early u d) : Early (t ++ u) (c ++ d) := by
  induction h with
  | nil => exact h'
  | keep b _ ih => exact .keep b ih
  | move x es _ hc ih =>
    rw [List.append_assoc] at ih
    apply Early.move x es ih
    rw [hc, List.append_assoc]
    rfl

theorem Early.elems_eq (h : Early t c) : elems t = elems c := by
  induction h with
  | nil => rfl
  | keep b _ ih => rw [elems, ih, elems]
  | move x es _ hc ih =>
    rw [hc, elems, ih]
    simp [elems]

theorem Early.marks_eq (h : Early t c) : marks t = marks c := by
  induction h with
  | nil => rfl
  | keep b _ ih => rw [marks, ih, marks]
  | move x es _ hc ih =>
    rw [hc, marks, ih]
    simp [marks]

theorem Early.eq_nil (h : Early t []) : t = [] := by
  cases h with
  | nil => rfl
  | move x es _ hc => simp at hc

theorem Early.first (h : Early (es.map data ++ mark x :: t) c) :
    ∃ (es' : List β) (c' : List (Token α β)), c = es'.map data ++ mark x :: c' ∧
      Early (es.map data ++ t) (es'.map data ++ c') := by
  induction es generalizing c with
  | nil =>
    cases h with
    | move _ es' h hc => exact ⟨es', _, hc, h⟩
  | cons b es ih =>
    cases h with
    | keep _ h =>
      obtain ⟨es', c', rfl, h'⟩ := ih h
      exact ⟨b :: es', c', rfl, .keep b h'⟩

theorem Early.trans (h : Early t u) (h' : Early u c) : Early t c := by
  induction h generalizing c with
  | nil => exact h'
  | keep b _ ih =>
    cases h' with
    | keep _ h' => exact .keep b (ih h')
  | move x es _ hc ih =>
    subst hc
    obtain ⟨es', c', rfl, hrest⟩ := h'.first
    exact .move x es' (ih hrest) rfl

theorem Early.behind_elem (h : Early (xs.map mark ++ t) c) (b : β) :
    Early (xs.map mark ++ data b :: t) (data b :: c) := by
  induction xs generalizing c with
  | nil => exact .keep b h
  | cons x xs ih =>
    cases h with
    | move _ es h hc =>
      subst hc
      exact .move x (b :: es) (ih h) rfl

theorem Early.behind (h : Early (xs.map mark ++ t) c) (es : List β) :
    Early (xs.map mark ++ (es.map data ++ t)) (es.map data ++ c) := by
  induction es with
  | nil => exact h
  | cons b es ih => exact ih.behind_elem b

theorem early_apart (t : List (Token α β)) : Early (apart (marks t) (elems t)) t := by
  induction t with
  | nil => exact .nil
  | cons a t ih =>
    cases a with
    | mark x => exact .move x [] ih rfl
    | data b => exact ih.behind_elem b

theorem early_apart_append (xs : List α) (es : List β) (t u : List (Token α β)) :
    Early (apart (xs ++ marks t) (es ++ elems t) ++ u) (apart xs es ++ (t ++ u)) := by
  have h := early_apart (apart xs es ++ t)
  simp only [apart, marks_append, elems_append, marks_map_mark, marks_map_data, elems_map_mark,
    elems_map_data, List.append_nil, List.nil_append] at h
  simpa [apart] using h.append (early_refl u)

theorem Early.drop_elem {b : β} (h : Early (xs.map mark ++ data b :: t) (data b :: c)) :
    Early (xs.map mark ++ t) c := by
  induction xs generalizing c with
  | nil =>
    cases h with
    | keep _ h => exact h
  | cons x xs ih =>
    cases h with
    | move _ es h hc =>
      cases es with
      | nil => cases hc
      | cons b' es =>
        obtain ⟨hb, rfl⟩ := List.cons_eq_cons.mp hc
        cases hb
        exact .move x es (ih h) rfl

theorem Early.drop (h : Early (xs.map mark ++ (es.map data ++ t)) (es.map data ++ c)) :
    Early (xs.map mark ++ t) c := by
  induction es with
  | nil => exact h
  | cons b es ih => exact ih h.drop_elem

/--
When all elements of the first frame have arrived, its item is the first one of those that have,
and nothing else is taken from them.
-/
theorem Early.of_frame {y : Option α} {es' : List β} (hes : es ≠ [])
    (h : Early (apart xs (es ++ es') ++ t) (frame y es ++ c)) :
    ∃ xs', xs = y.toList ++ xs' ∧ Early (apart xs' es' ++ t) c := by
  have hassoc (xs : List α) (t : List (Token α β)) :
      apart xs (es ++ es') ++ t = xs.map mark ++ (es.map data ++ (es'.map data ++ t)) := by
    simp [apart]
  rw [hassoc] at h
  cases y with
  | none =>
    refine ⟨xs, rfl, ?_⟩
    simpa [apart] using Early.drop h
  | some y =>
    cases xs with
    | nil =>
      -- an element cannot be before the item of its own frame
      obtain ⟨b, es, rfl⟩ := List.exists_cons_of_ne_nil hes
      cases h
    | cons x xs =>
      cases h with
      | move _ bs h hc =>
        cases bs with
        | cons b bs => cases hc
        | nil =>
          obtain ⟨hx, rfl⟩ := List.cons_eq_cons.mp hc
          cases hx
          refine ⟨xs, rfl, ?_⟩
          simpa [apart] using Early.drop h

end Sideband
