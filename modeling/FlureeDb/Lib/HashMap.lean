import Mathlib.Data.Finmap
import Mathlib.Algebra.Order.BigOperators.Group.Multiset
import Mathlib.Algebra.Order.Group.Nat

/-!
Finite maps as a program sees a hash map: lookup, insertion and removal are
functions of the contents alone, and two maps with the same contents are
equal. Only iteration looks at an order, and no order is promised. The maps
are Mathlib's `Finmap`; what is added here is the lookup calculus in the
if-then-else form that case splits want, the update and retain operations,
sums over the entries, and iteration orders.
-/

namespace FlureeDb.Lib

open List Option Finmap

/-- A hash map from `K` to `V`, up to its iteration order. -/
abbrev HashMap (K V : Type*) := Finmap (fun _ : K => V)

namespace HashMap

variable {K V : Type*} [DecidableEq K]

@[simp] theorem lookup_insert_eq (m : HashMap K V) (k a : K) (v : V) :
    (m.insert k v).lookup a = if a = k then some v else m.lookup a := by
  split
  · subst a
    exact lookup_insert m
  · exact lookup_insert_of_ne m ‹_›

@[simp] theorem lookup_erase_eq (m : HashMap K V) (k a : K) :
    (m.erase k).lookup a = if a = k then none else m.lookup a := by
  split
  · subst a
    exact lookup_erase k m
  · exact lookup_erase_ne ‹_›

@[simp] theorem lookup_singleton (k a : K) (v : V) :
    (singleton k v : HashMap K V).lookup a = if a = k then some v else none := by
  split
  next h =>
    subst a
    exact lookup_singleton_eq
  next h => exact lookup_eq_none.mpr fun hmem => h ((mem_singleton a k v).mp hmem)

variable {m : HashMap K V} {k : K} {v : V}

theorem insert_of_lookup (h : m.lookup k = some v) : m.insert k v = m := by
  apply ext_lookup
  intro a
  rw [lookup_insert_eq]
  split
  · subst a
    exact h.symm
  · rfl

theorem erase_of_lookup_none (h : m.lookup k = none) : m.erase k = m := by
  apply ext_lookup
  intro a
  rw [lookup_erase_eq]
  split
  · subst a
    exact h.symm
  · rfl

@[simp] theorem erase_insert (m : HashMap K V) (k : K) (v : V) :
    (m.insert k v).erase k = m.erase k := by
  apply ext_lookup
  intro a
  simp only [lookup_erase_eq, lookup_insert_eq]
  split <;> rfl

/-- A map made entry by entry, from entries with different keys. -/
theorem lookup_foldl_insert {E : Type*} {key : E → K} {value : E → V} {entries : List E}
    (hnodup : (entries.map key).Nodup) (m : HashMap K V) (k : K) (v : V) :
    (entries.foldl (fun m e => m.insert (key e) (value e)) m).lookup k = some v ↔
      (∃ e ∈ entries, key e = k ∧ value e = v) ∨
        (m.lookup k = some v ∧ ∀ e ∈ entries, key e ≠ k) := by
  induction entries generalizing m with
  | nil => simp
  | cons e entries ih =>
    obtain ⟨hfresh, hnodup⟩ := nodup_cons.mp hnodup
    rw [foldl_cons, ih hnodup, lookup_insert_eq]
    by_cases hk : key e = k
    · subst hk
      have hnone : ∀ e' ∈ entries, key e' ≠ key e := fun e' he' heq =>
        hfresh (heq ▸ mem_map_of_mem he')
      rw [if_pos rfl, or_iff_right fun ⟨e', he', heq, _⟩ => hnone e' he' heq]
      constructor
      · rintro ⟨hvalue, -⟩
        exact .inl ⟨e, mem_cons_self, rfl, some.inj hvalue⟩
      · rintro (⟨e', he', heq, hvalue⟩ | ⟨-, hother⟩)
        · rcases mem_cons.mp he' with rfl | he'
          · exact ⟨congrArg some hvalue, hnone⟩
          · exact absurd heq (hnone e' he')
        · exact absurd rfl (hother e mem_cons_self)
    · rw [if_neg (Ne.symm hk)]
      simp [hk]

theorem lookup_foldl_union {E : Type*} (part : E → HashMap K V) {l : List E}
    (h : (l.foldl (fun m e => m ∪ part e) m).lookup k = some v) :
    m.lookup k = some v ∨ ∃ e ∈ l, (part e).lookup k = some v := by
  induction l generalizing m with
  | nil => exact .inl h
  | cons e l ih =>
    obtain h | ⟨e', he', h⟩ := ih h
    · obtain h | ⟨-, h⟩ := mem_lookup_union.mp h
      · exact .inl h
      · exact .inr ⟨e, mem_cons_self, h⟩
    · exact .inr ⟨e', mem_cons_of_mem _ he', h⟩

theorem foldl_union_empty {E : Type*} (part : E → HashMap K V) {l : List E}
    (h : ∀ e ∈ l, part e = ∅) : l.foldl (fun m e => m ∪ part e) ∅ = ∅ := by
  refine ext_lookup fun k => ?_
  cases hlookup : (l.foldl (fun m e => m ∪ part e) ∅).lookup k with
  | none => rfl
  | some v =>
    obtain hlookup | ⟨e, he, hlookup⟩ := lookup_foldl_union part hlookup
    · exact hlookup.symm
    · rw [h e he] at hlookup
      exact hlookup.symm

/-! ### Updating a value in place -/

/-- Replace the value at `k`, if there is one, by its image under `f`. -/
def modify (m : HashMap K V) (k : K) (f : V → V) : HashMap K V :=
  match m.lookup k with
  | some v => m.insert k (f v)
  | none => m

theorem modify_of_some (h : m.lookup k = some v) (f : V → V) : modify m k f = m.insert k (f v) := by
  simp [modify, h]

theorem modify_of_none (h : m.lookup k = none) (f : V → V) : modify m k f = m := by
  simp [modify, h]

variable (m)

@[simp] theorem lookup_modify (k a : K) (f : V → V) :
    (modify m k f).lookup a = if a = k then (m.lookup k).map f else m.lookup a := by
  cases h : m.lookup k with
  | none =>
    rw [modify_of_none h]
    split
    · subst a
      simpa using h
    · rfl
  | some v => simp [modify_of_some h]

/-- Keep the entries that satisfy `p`. -/
def retain (p : K → V → Bool) : HashMap K V where
  entries := m.entries.filter fun e => p e.1 e.2
  nodupKeys := by
    apply Multiset.nodup_keys.mp
    exact Multiset.nodup_of_le (Multiset.map_le_map (Multiset.filter_le _ _))
      m.nodupKeys.nodup_keys

@[simp] theorem lookup_retain (p : K → V → Bool) (a : K) :
    (retain m p).lookup a = (m.lookup a).filter (p a) := by
  have hmem (v : V) : (retain m p).lookup a = some v ↔ m.lookup a = some v ∧ p a v := by
    rw [Finmap.lookup_eq_some_iff, Finmap.lookup_eq_some_iff]
    exact Multiset.mem_filter
  apply Option.ext
  intro v
  simpa using hmem v

def eraseAll (keys : List K) : HashMap K V :=
  keys.foldl (fun m k => m.erase k) m

@[simp] theorem lookup_eraseAll (keys : List K) (a : K) :
    (eraseAll m keys).lookup a = if a ∈ keys then none else m.lookup a := by
  induction keys generalizing m with
  | nil => rfl
  | cons k keys ih =>
    change (eraseAll (m.erase k) keys).lookup a = _
    rw [ih]
    by_cases hk : a ∈ keys
    · simp [hk]
    · simp [hk]

variable {m}

section

variable {M : Type*} [AddCommMonoid M] (f : K → V → M)

def sumBy (m : HashMap K V) : M :=
  (m.entries.map fun e => f e.1 e.2).sum

omit [DecidableEq K] in
@[simp] theorem sumBy_empty : sumBy f (∅ : HashMap K V) = 0 := by
  change ((0 : Multiset (Sigma fun _ : K => V)).map fun e => f e.1 e.2).sum = 0
  simp

theorem entries_eq_cons_erase (h : m.lookup k = some v) :
    m.entries = ⟨k, v⟩ ::ₘ (m.erase k).entries := by
  have hm : m = (m.erase k).insert k v := by
    apply ext_lookup
    intro a
    by_cases ha : a = k
    · subst a
      simpa using h
    · simp [ha]
  calc m.entries = ((m.erase k).insert k v).entries := congrArg entries hm
    _ = ⟨k, v⟩ ::ₘ (m.erase k).entries :=
      entries_insert_of_notMem notMem_erase_self

theorem sumBy_of_lookup (h : m.lookup k = some v) : sumBy f m = f k v + sumBy f (m.erase k) := by
  simp [sumBy, entries_eq_cons_erase h]

theorem sumBy_insert (m : HashMap K V) (k : K) (v : V) :
    sumBy f (m.insert k v) = f k v + sumBy f (m.erase k) := by
  rw [sumBy_of_lookup f (lookup_insert m), erase_insert]

theorem sumBy_insert_of_none (h : m.lookup k = none) (v : V) :
    sumBy f (m.insert k v) = f k v + sumBy f m := by
  rw [sumBy_insert, erase_of_lookup_none h]

theorem sumBy_eq_zero_iff (f : K → V → ℕ) (m : HashMap K V) :
    sumBy f m = 0 ↔ ∀ k v, m.lookup k = some v → f k v = 0 := by
  rw [sumBy, Multiset.sum_eq_zero_iff]
  constructor
  · intro h k v hlookup
    exact h _ (Multiset.mem_map.mpr ⟨⟨k, v⟩, lookup_eq_some_iff.mp hlookup, rfl⟩)
  · intro h x hx
    obtain ⟨e, he, rfl⟩ := Multiset.mem_map.mp hx
    exact h e.1 e.2 (lookup_eq_some_iff.mpr he)

/-- Counting the entries that satisfy `p`, when their keys have distinct images
among the members of a list: there are no more of them than members. -/
theorem sumBy_le_length {L : Type*} (p : K → V → Prop) [∀ k v, Decidable (p k v)]
    (m : HashMap K V) (g : K → L) (list : List L)
    (hmem : ∀ k v, m.lookup k = some v → p k v → g k ∈ list)
    (hinj : ∀ k v k' v', p k v → p k' v' → g k = g k' → k = k') :
    sumBy (fun k v => if p k v then 1 else 0) m ≤ list.length := by
  have hcard : sumBy (fun k v => if p k v then 1 else 0) m =
      ((m.entries.filter fun e => p e.1 e.2).map fun e => g e.1).card := by
    rw [sumBy]
    induction m.entries using Multiset.induction_on with
    | empty => simp
    | cons e entries ih =>
      by_cases hp : p e.1 e.2
      · simp [hp, ih, add_comm]
      · simp [hp, ih]
  have hnodup : ((m.entries.filter fun e => p e.1 e.2).map fun e => g e.1).Nodup := by
    apply Multiset.Nodup.map_on
    · intro e he e' he' hg
      obtain ⟨hentry, hp⟩ := Multiset.mem_filter.mp he
      obtain ⟨hentry', hp'⟩ := Multiset.mem_filter.mp he'
      have hkey := hinj e.1 e.2 e'.1 e'.2 hp hp' hg
      obtain ⟨k, v⟩ := e
      subst hkey
      rw [← Finmap.lookup_eq_some_iff] at hentry hentry'
      simp only [hentry, some.injEq] at hentry'
      rw [hentry']
    · exact Multiset.Nodup.filter _ m.nodup_entries
  rw [hcard, ← Multiset.coe_card]
  apply Multiset.card_le_card
  rw [Multiset.le_iff_subset hnodup]
  intro x hx
  obtain ⟨e, he, rfl⟩ := Multiset.mem_map.mp hx
  obtain ⟨hentry, hp⟩ := Multiset.mem_filter.mp he
  exact hmem e.1 e.2 (lookup_eq_some_iff.mpr hentry) hp

end

/-! ### Iteration orders -/

/-- An iteration order: every map is listed entry by entry, each entry once,
in an order of which nothing else is known. -/
structure IterOrder (K V : Type*) where
  iter : HashMap K V → List (K × V)
  iter_perm : ∀ m : HashMap K V,
    (iter m : Multiset (K × V)) = m.entries.map fun e => (e.1, e.2)

section

variable (order : IterOrder K V)

omit [DecidableEq K] in
theorem IterOrder.nodup_keys (m : HashMap K V) : ((order.iter m).map Prod.fst).Nodup := by
  have hperm := congrArg (Multiset.map Prod.fst) (order.iter_perm m)
  rw [Multiset.map_map] at hperm
  rw [← Multiset.coe_nodup, ← Multiset.map_coe, hperm]
  exact m.nodupKeys.nodup_keys

theorem IterOrder.mem_iter : (k, v) ∈ order.iter m ↔ m.lookup k = some v := by
  rw [← Multiset.mem_coe, order.iter_perm, Finmap.lookup_eq_some_iff, Multiset.mem_map]
  constructor
  · rintro ⟨⟨a, b⟩, hmem, heq⟩
    cases heq
    exact hmem
  · intro hmem
    exact ⟨⟨k, v⟩, hmem, rfl⟩

omit [DecidableEq K] in
@[simp] theorem IterOrder.iter_empty : order.iter ∅ = [] :=
  (Multiset.coe_eq_zero _).mp (order.iter_perm ∅)

omit [DecidableEq K] in
@[simp] theorem IterOrder.iter_singleton (k : K) (v : V) : order.iter (singleton k v) = [(k, v)] :=
  Multiset.coe_eq_singleton.mp (order.iter_perm (singleton k v))

end

/-- Some iteration order exists: the one that lists a representative. -/
noncomputable def IterOrder.listed (K V : Type*) : IterOrder K V where
  iter m := (m.entries.map fun e => (e.1, e.2)).toList
  iter_perm _ := Multiset.coe_toList _

/-- Any list of the entries of a map may be how it is visited. -/
theorem IterOrder.exists_iter [DecidableEq V] {entries : List (K × V)}
    (hperm : (entries : Multiset (K × V)) = m.entries.map fun e => (e.1, e.2)) :
    ∃ order : IterOrder K V, order.iter m = entries := by
  refine ⟨⟨fun m' => if m' = m then entries else (listed K V).iter m', fun m' => ?_⟩, if_pos rfl⟩
  split
  next h => rw [h, hperm]
  next => exact (listed K V).iter_perm m'

end HashMap

end FlureeDb.Lib
