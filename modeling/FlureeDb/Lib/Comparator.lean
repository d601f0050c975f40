import Mathlib.Order.Lattice

/-!
Comparators that are lawful on a part of their type. A comparator written by
hand over many kinds of values may be a total preorder on the values met in
practice and not on the whole type; the part is a set, and the comparator
restricted to the subtype has the laws of the core order classes.
-/

namespace FlureeDb.Lib

variable {α K : Type*}

/-- The comparator is reflexive, reversed by an exchange of the sides, and
transitive among the members of the set. -/
structure TotalPreorderOn (cmp : α → α → Ordering) (S : Set α) : Prop where
  self : ∀ a ∈ S, cmp a a = .eq
  reverse : ∀ a ∈ S, ∀ b ∈ S, cmp b a = (cmp a b).swap
  trans : ∀ a ∈ S, ∀ b ∈ S, ∀ c ∈ S,
    (cmp a b).isLE → (cmp b c).isLE → (cmp a c).isLE

variable {cmp : α → α → Ordering} {S : Set α}

/-- A comparator that compares lawful keys is lawful. -/
theorem TotalPreorderOn.of_key (key : α → K) (keyCmp : K → K → Ordering) [Std.TransCmp keyCmp]
    (h : ∀ a ∈ S, ∀ b ∈ S, cmp a b = keyCmp (key a) (key b)) : TotalPreorderOn cmp S where
  self a ha := by
    rw [h a ha a ha]
    exact Std.ReflCmp.compare_self
  reverse a ha b hb := by
    rw [h a ha b hb, h b hb a ha]
    exact Std.OrientedCmp.eq_swap
  trans a ha b hb c hc hab hbc := by
    rw [h a ha b hb] at hab
    rw [h b hb c hc] at hbc
    rw [h a ha c hc]
    exact Std.TransCmp.isLE_trans hab hbc

theorem TotalPreorderOn.mono {T : Set α} (h : TotalPreorderOn cmp T) (hST : ∀ a ∈ S, a ∈ T) :
    TotalPreorderOn cmp S where
  self a ha := h.self a (hST a ha)
  reverse a ha b hb := h.reverse a (hST a ha) b (hST b hb)
  trans a ha b hb c hc := h.trans a (hST a ha) b (hST b hb) c (hST c hc)

theorem transCmp_comap {β : Type*} (f : α → β) (cmp : β → β → Ordering) [Std.TransCmp cmp] :
    Std.TransCmp fun a b => cmp (f a) (f b) where
  eq_swap := Std.OrientedCmp.eq_swap
  isLE_trans hab hbc := Std.TransCmp.isLE_trans hab hbc

/-- A strictly monotone function keeps the answer of a comparison. -/
theorem compare_map {β γ : Type*} [LinearOrder β] [LinearOrder γ] {f : β → γ}
    (hf : StrictMono f) (a b : β) : compare (f a) (f b) = compare a b := by
  rw [← cmp_eq_compare, ← cmp_eq_compare, hf.cmp_map_eq]

/-- Comparing two lists by images of their elements. -/
theorem compareLex_map [Ord K] (f : α → K) (a b : List α) :
    List.compareLex (fun x y => compare (f x) (f y)) a b = compare (a.map f) (b.map f) := by
  rw [List.compare_eq_compareLex]
  induction a generalizing b with
  | nil =>
    cases b with
    | nil => rfl
    | cons y => rfl
  | cons x a ih =>
    cases b with
    | nil => rfl
    | cons y =>
      rw [List.compareLex_cons_cons, ih, List.map_cons, List.map_cons,
        List.compareLex_cons_cons]

end FlureeDb.Lib
