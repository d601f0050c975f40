import Mathlib.Data.List.Induction
import Mathlib.Data.List.Pairwise

/-!
Buckets: a map from keys, told apart by an equivalence, to what was collected of the
elements of each class. An element goes to the bucket of its class, or starts one.
-/

namespace FlureeDb.Lib.Buckets

open List

variable {α β : Type} (same : α → α → Bool) (push : β → α → β) (empty : β)

def add (map : List (α × β)) (a : α) : List (α × β) :=
  if map.any fun e => same e.1 a then
    map.map fun e => if same e.1 a then (e.1, push e.2 a) else e
  else map ++ [(a, push empty a)]

def collected (added : List α) (key : α) : β := (added.filter (same key)).foldl push empty

structure Collects (added : List α) (map : List (α × β)) : Prop where
  apart : map.Pairwise fun e e' => same e.1 e'.1 = false
  contents : ∀ e ∈ map, e.2 = collected same push empty added e.1
  keys : ∀ e ∈ map, e.1 ∈ added
  found : ∀ a ∈ added, ∃ e ∈ map, same e.1 a = true

variable {same push empty} (hsame : Equivalence fun a b => same a b = true) {added : List α}
  {map : List (α × β)}

theorem collected_append (key a : α) : collected same push empty (added ++ [a]) key =
    if same key a then push (collected same push empty added key) a
    else collected same push empty added key := by
  unfold collected
  rw [filter_append, foldl_append]
  by_cases h : same key a = true
  · rw [if_pos h, filter_cons_of_pos h]
    rfl
  · rw [if_neg h, filter_cons_of_neg h]
    rfl

include hsame

theorem Collects.add (h : Collects same push empty added map) (a : α) :
    Collects same push empty (added ++ [a]) (add same push empty map a) := by
  unfold Buckets.add
  split
  next hany =>
    have hkey : ∀ e : α × β, (if same e.1 a then (e.1, push e.2 a) else e).1 = e.1 := by
      intro e
      split
      · rfl
      · rfl
    refine ⟨?_, ?_, ?_, fun a' ha' => ?_⟩
    · rw [pairwise_map]
      simpa only [hkey] using h.apart
    · refine forall_mem_map.mpr fun e he => ?_
      rw [hkey, collected_append, ← h.contents e he]
      split
      · rfl
      · rfl
    · refine forall_mem_map.mpr fun e he => ?_
      rw [hkey]
      exact mem_append_left _ (h.keys e he)
    · obtain ⟨e, he, hin⟩ : ∃ e ∈ map, same e.1 a' = true := by
        obtain ha' | ha' := mem_append.mp ha'
        · exact h.found a' ha'
        · rw [mem_singleton.mp ha']
          exact any_eq_true.mp hany
      exact ⟨_, mem_map_of_mem he, (hkey e).symm ▸ hin⟩
  next hnone =>
    have hnew : ∀ e ∈ map, same e.1 a = false := by simpa using hnone
    have hfirst : added.filter (same a) = [] := by
      refine filter_eq_nil_iff.mpr fun a' ha' hin => ?_
      obtain ⟨e, he, hin'⟩ := h.found a' ha'
      exact Bool.eq_false_iff.mp (hnew e he) (hsame.trans hin' (hsame.symm hin))
    refine ⟨?_, ?_, ?_, fun a' ha' => ?_⟩
    · refine pairwise_append.mpr ⟨h.apart, pairwise_singleton _ _, fun e he e' he' => ?_⟩
      rw [mem_singleton.mp he']
      exact hnew e he
    · refine forall_mem_append.mpr ⟨fun e he => ?_, forall_mem_singleton.mpr ?_⟩
      · rw [collected_append, hnew e he]
        exact h.contents e he
      · rw [collected_append, if_pos (hsame.refl a), collected, hfirst]
        rfl
    · refine forall_mem_append.mpr ⟨fun e he => ?_, forall_mem_singleton.mpr ?_⟩
      · exact mem_append_left _ (h.keys e he)
      · exact mem_append_right _ (mem_singleton_self a)
    · obtain ha' | ha' := mem_append.mp ha'
      · obtain ⟨e, he, hin⟩ := h.found a' ha'
        exact ⟨e, mem_append_left _ he, hin⟩
      · rw [mem_singleton.mp ha']
        exact ⟨_, mem_append_right _ (mem_singleton_self _), hsame.refl a⟩

theorem collects_foldl (added : List α) :
    Collects same push empty added (added.foldl (Buckets.add same push empty) []) := by
  induction added using reverseRecOn with
  | nil => exact ⟨.nil, fun _ h => (nomatch h), fun _ h => (nomatch h), fun _ h => (nomatch h)⟩
  | append_singleton added a ih =>
    rw [foldl_append]
    exact ih.add hsame a

/-- A bucket of the class has what the class got, if that is more than nothing. -/
theorem Collects.exists_iff (h : Collects same push empty added map) {p : β → Prop}
    (hempty : ¬ p empty) (a : α) :
    (∃ e ∈ map, same e.1 a = true ∧ p e.2) ↔ p (collected same push empty added a) := by
  have hclass : ∀ {key}, same key a = true →
      collected same push empty added key = collected same push empty added a := by
    intro key hin
    have hfilter : ∀ a' ∈ added, same key a' = same a a' := fun a' _ => Bool.eq_iff_iff.mpr
      ⟨fun h => hsame.trans (hsame.symm hin) h, fun h => hsame.trans hin h⟩
    unfold collected
    rw [filter_congr hfilter]
  constructor
  · rintro ⟨e, he, hin, hp⟩
    rwa [h.contents e he, hclass hin] at hp
  · intro hp
    obtain ⟨a', ha'⟩ : ∃ a', a' ∈ added.filter (same a) := by
      refine exists_mem_of_ne_nil _ fun hnil => hempty ?_
      rwa [collected, hnil] at hp
    obtain ⟨hin, hsame'⟩ := mem_filter.mp ha'
    obtain ⟨e, he, hkey⟩ := h.found a' hin
    have hea := hsame.trans hkey (hsame.symm hsame')
    exact ⟨e, he, hea, (h.contents e he).symm ▸ (hclass hea).symm ▸ hp⟩

end FlureeDb.Lib.Buckets
