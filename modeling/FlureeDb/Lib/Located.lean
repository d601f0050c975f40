import Mathlib.Data.List.Sigma
import Mathlib.Data.List.Enum

/-!
Elements of a growing list, found by their position. An index keeps, for each key, the
positions of the elements that have it; reading the positions back gives the elements.
-/

namespace FlureeDb.Lib

open List

variable {α : Type*} {p q : α → Bool} {l : List α}

/-- The elements with a property, each with its position. -/
def located (p : α → Bool) (l : List α) : List (α × ℕ) := l.zipIdx.filter fun e => p e.1

theorem located_concat (a : α) :
    located p (l ++ [a]) = located p l ++ if p a then [(a, l.length)] else [] := by
  simp [located, zipIdx_append, filter_singleton]

theorem getElem?_of_mem_located {e : α × ℕ} (h : e ∈ located p l) : l[e.2]? = some e.1 :=
  mem_zipIdx_iff_getElem?.mp (mem_filter.mp h).1

theorem mem_map_snd_located {i : ℕ} :
    i ∈ (located p l).map Prod.snd ↔ ∃ a, l[i]? = some a ∧ p a = true := by
  simp [located, mem_zipIdx_iff_getElem?]

theorem nodup_map_snd_located : ((located p l).map Prod.snd).Nodup :=
  (nodup_zipIdx_map_snd l).sublist (filter_sublist.map _)

theorem map_fst_located : (located p l).map Prod.fst = l.filter p := by
  rw [located, ← Function.comp_def p, ← filter_map, zipIdx_map_fst]

/-- Two properties that no element has at once part the elements that have one. -/
theorem filter_append_filter_perm (h : ∀ a, ¬ (p a = true ∧ q a = true)) :
    l.filter p ++ l.filter q ~ l.filter fun a => p a || q a := by
  have hsplit := filter_append_perm p (l.filter fun a => p a || q a)
  rw [filter_filter, filter_filter] at hsplit
  have hq : ∀ a, (!p a && (p a || q a)) = q a := by
    intro a
    cases hp : p a with
    | true => exact (Bool.not_eq_true _ ▸ fun hq => h a ⟨hp, hq⟩ : q a = false).symm
    | false => rfl
  have hp : ∀ a, (p a && (p a || q a)) = p a := fun a => by cases p a <;> rfl
  simpa only [hp, hq] using hsplit

/-- The first element of a kind is in front, or what is in front may come before it. -/
theorem exists_first_cons {P S : α → Prop} {a : α} :
    (∃ before x after, a :: l = before ++ x :: after ∧ P x ∧ ∀ y ∈ before, S y) ↔
      P a ∨ S a ∧ ∃ before x after, l = before ++ x :: after ∧ P x ∧ ∀ y ∈ before, S y := by
  constructor
  · rintro ⟨_ | ⟨b, before⟩, x, after, heq, hx, hbefore⟩
    · exact .inl ((cons.inj heq).1 ▸ hx)
    · obtain ⟨rfl, rfl⟩ := cons.inj heq
      obtain ⟨hb, hbefore⟩ := forall_mem_cons.mp hbefore
      exact .inr ⟨hb, before, x, after, rfl, hx, hbefore⟩
  · rintro (ha | ⟨ha, before, x, after, rfl, hx, hbefore⟩)
    · exact ⟨[], a, l, rfl, ha, fun _ h => absurd h not_mem_nil⟩
    · exact ⟨a :: before, x, after, rfl, hx, forall_mem_cons.mpr ⟨ha, hbefore⟩⟩

end FlureeDb.Lib
