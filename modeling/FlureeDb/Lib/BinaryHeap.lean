import Mathlib.Data.List.Perm.Basic
import Mathlib.Order.Nat
import Mathlib.Order.Lattice

/-!
Binary heaps in a list: the children of position `i` stand at `2 * i + 1` and `2 * i + 2`, and no
child is less than its parent. A heap is kept by sifting one element down, which ends where no
child is less, and built by sifting from the last parent to the root.

The test of the heap is a boolean function; it is assumed to compare keys in a linear order.
-/

namespace FlureeDb.Lib

open List Option Nat

namespace BinaryHeap

variable {α : Type*} {heap : List α}

def swap (heap : List α) (i j : ℕ) : List α :=
  match heap[i]?, heap[j]? with
  | some a, some b => (heap.set i b).set j a
  | _, _ => heap

section

variable (less : α → α → Bool)

def lessAt (heap : List α) (i j : ℕ) : Bool :=
  match heap[i]?, heap[j]? with
  | some a, some b => less a b
  | _, _ => false

/-- The lesser child of a position that has a left one. -/
def smallestChild (heap : List α) (pos : ℕ) : ℕ :=
  if 2 * pos + 2 < heap.length && lessAt less heap (2 * pos + 2) (2 * pos + 1) then 2 * pos + 2
  else 2 * pos + 1

/-- Sifts down, for so many steps. -/
def siftSteps : ℕ → List α → ℕ → List α
  | 0, heap, _ => heap
  | fuel + 1, heap, pos =>
    if heap.length ≤ 2 * pos + 1 then heap
    else if lessAt less heap pos (smallestChild less heap pos) then heap
    else siftSteps fuel (swap heap pos (smallestChild less heap pos)) (smallestChild less heap pos)

/-- Each step goes down a level, so there are fewer of them than positions. -/
def siftDown (heap : List α) (pos : ℕ) : List α := siftSteps less heap.length heap pos

/-- Sifts at each parent, from the last one to the root. -/
def build (heap : List α) : List α :=
  (List.range (heap.length / 2)).reverse.foldl (siftDown less) heap

end

theorem getElem?_swap {i j : ℕ} (hi : i < heap.length) (hj : j < heap.length)
    (k : ℕ) : (swap heap i j)[k]? =
      if k = j then heap[i]? else if k = i then heap[j]? else heap[k]? := by
  have hswap : swap heap i j = (heap.set i heap[j]).set j heap[i] := by
    simp [swap, getElem?_eq_getElem hi, getElem?_eq_getElem hj]
  rw [hswap]
  by_cases hkj : k = j
  · subst hkj
    simp [hj]
  · by_cases hki : k = i
    · subst hki
      simp [hi, hkj, Ne.symm hkj]
    · simp [hkj, hki, Ne.symm hkj, Ne.symm hki]

theorem swap_perm (heap : List α) (i j : ℕ) : (swap heap i j).Perm heap := by
  unfold swap
  split
  next a b ha hb =>
    obtain ⟨hi, rfl⟩ := List.getElem?_eq_some_iff.mp ha
    obtain ⟨hj, rfl⟩ := List.getElem?_eq_some_iff.mp hb
    exact set_set_perm hi hj
  · exact Perm.refl _

theorem length_swap (heap : List α) (i j : ℕ) : (swap heap i j).length = heap.length :=
  (swap_perm heap i j).length_eq

section

variable {less : α → α → Bool}

theorem smallestChild_eq (heap : List α) (pos : ℕ) :
    smallestChild less heap pos = 2 * pos + 1 ∨ smallestChild less heap pos = 2 * pos + 2 := by
  unfold smallestChild
  split
  · exact .inr rfl
  · exact .inl rfl

theorem smallestChild_lt {pos : ℕ} (h : 2 * pos + 1 < heap.length) :
    smallestChild less heap pos < heap.length := by
  unfold smallestChild
  split
  next hright =>
    rw [Bool.and_eq_true, decide_eq_true_eq] at hright
    exact hright.1
  · exact h

theorem siftSteps_perm (fuel : ℕ) (heap : List α) (pos : ℕ) :
    (siftSteps less fuel heap pos).Perm heap := by
  induction fuel generalizing heap pos with
  | zero => exact Perm.refl _
  | succ fuel ih =>
    unfold siftSteps
    split
    · exact Perm.refl _
    · split
      · exact Perm.refl _
      · exact (ih _ _).trans (swap_perm heap _ _)

theorem siftDown_perm (heap : List α) (pos : ℕ) : (siftDown less heap pos).Perm heap :=
  siftSteps_perm heap.length heap pos

theorem foldl_siftDown_perm (positions : List ℕ) (heap : List α) :
    (positions.foldl (siftDown less) heap).Perm heap := by
  induction positions generalizing heap with
  | nil => exact Perm.refl _
  | cons pos positions ih => exact (ih _).trans (siftDown_perm heap pos)

theorem build_perm (heap : List α) : (build less heap).Perm heap := foldl_siftDown_perm _ heap

/-! ### The order of a heap -/

variable {κ : Type*} [LinearOrder κ] {key : α → κ}

variable (key) in
/-- What stands at one position is at most what stands at another. -/
def LeAt (heap : List α) (i j : ℕ) : Prop := ∀ a ∈ heap[i]?, ∀ b ∈ heap[j]?, key a ≤ key b

variable (key) in
/-- From a position on, no child is less than its parent. -/
def HeapFrom (n : ℕ) (heap : List α) : Prop :=
  ∀ i, n ≤ i → LeAt key heap i (2 * i + 1) ∧ LeAt key heap i (2 * i + 2)

variable (key) in
/-- The order while an element is sifted down: its own children may be less, but they are at
most what stands above it. -/
structure HeapExcept (n pos : ℕ) (heap : List α) : Prop where
  off : ∀ i, n ≤ i → i ≠ pos → LeAt key heap i (2 * i + 1) ∧ LeAt key heap i (2 * i + 2)
  above : ∀ i, n ≤ i → 2 * i + 1 = pos ∨ 2 * i + 2 = pos →
    LeAt key heap i (2 * pos + 1) ∧ LeAt key heap i (2 * pos + 2)

theorem leAt_of_length_le {i j : ℕ} (h : heap.length ≤ j) : LeAt key heap i j := by
  intro a _ b hb
  rw [getElem?_eq_none h] at hb
  cases hb

theorem LeAt.trans {i j k : ℕ} (hj : j < heap.length) (hij : LeAt key heap i j)
    (hjk : LeAt key heap j k) : LeAt key heap i k := by
  intro a ha b hb
  have hmid : heap[j] ∈ heap[j]? := getElem?_eq_getElem hj
  exact le_trans (hij a ha _ hmid) (hjk _ hmid b hb)

theorem HeapFrom.except {n : ℕ} (h : HeapFrom key (n + 1) heap) :
    HeapExcept key n n heap where
  off i hi hne := h i (by omega)
  above i := by omega

theorem heapFrom_of_half (heap : List α) : HeapFrom key (heap.length / 2) heap := by
  intro i hi
  exact ⟨leAt_of_length_le (by omega), leAt_of_length_le (by omega)⟩

theorem HeapFrom.root_le (h : HeapFrom key 0 heap) (i : ℕ) : LeAt key heap 0 i := by
  induction i using Nat.strongRecOn with
  | ind i ih =>
    rcases Nat.eq_zero_or_pos i with rfl | hpos
    · intro a ha b hb
      rw [mem_unique ha hb]
    · by_cases hi : i < heap.length
      · obtain ⟨hleft, hright⟩ := h ((i - 1) / 2) (zero_le _)
        have hparent : LeAt key heap ((i - 1) / 2) i := by
          rcases (by omega : i = 2 * ((i - 1) / 2) + 1 ∨ i = 2 * ((i - 1) / 2) + 2) with heq | heq
          · rw [← heq] at hleft
            exact hleft
          · rw [← heq] at hright
            exact hright
        exact LeAt.trans (by omega) (ih ((i - 1) / 2) (by omega)) hparent
      · exact leAt_of_length_le (by omega)

variable (hless : ∀ a b, less a b = true ↔ key a < key b)

include hless

theorem leAt_of_lessAt {i j : ℕ} (h : lessAt less heap i j = true) : LeAt key heap i j := by
  intro a ha b hb
  rw [lessAt, mem_def.mp ha, mem_def.mp hb] at h
  exact le_of_lt ((hless a b).mp h)

theorem leAt_of_not_lessAt {i j : ℕ} (h : lessAt less heap i j = false) : LeAt key heap j i := by
  intro b hb a ha
  rw [lessAt, mem_def.mp ha, mem_def.mp hb] at h
  apply not_lt.mp
  intro hlt
  exact Bool.false_ne_true (h.symm.trans ((hless a b).mpr hlt))

theorem smallestChild_le (heap : List α) (pos : ℕ) :
    LeAt key heap (smallestChild less heap pos) (2 * pos + 1) ∧
      LeAt key heap (smallestChild less heap pos) (2 * pos + 2) := by
  have hself : ∀ i, LeAt key heap i i := fun i a ha b hb => (mem_unique ha hb) ▸ le_rfl
  unfold smallestChild
  split
  next hright =>
    rw [Bool.and_eq_true] at hright
    exact ⟨leAt_of_lessAt hless hright.2, hself _⟩
  next hright =>
    refine ⟨hself _, ?_⟩
    by_cases hlt : 2 * pos + 2 < heap.length
    · exact leAt_of_not_lessAt hless (by simpa [hlt] using hright)
    · exact leAt_of_length_le (by omega)

/-- One step: the element goes down to its lesser child. -/
theorem HeapExcept.step {n pos : ℕ} (h : HeapExcept key n pos heap) (hn : n ≤ pos)
    (hchild : 2 * pos + 1 < heap.length)
    (hnot : lessAt less heap pos (smallestChild less heap pos) = false) :
    HeapExcept key n (smallestChild less heap pos)
      (swap heap pos (smallestChild less heap pos)) := by
  have hlt := @smallestChild_lt α heap less pos hchild
  have hcase := @smallestChild_eq α less heap pos
  obtain ⟨hleft, hright⟩ := smallestChild_le hless heap pos
  have hback : LeAt key heap (smallestChild less heap pos) pos := leAt_of_not_lessAt hless hnot
  generalize smallestChild less heap pos = c at *
  have hpos : pos < heap.length := by omega
  -- a pair of positions after the exchange is the pair of positions they came from
  have hmove : ∀ i j, LeAt key (swap heap pos c) i j ↔
      LeAt key heap (if i = c then pos else if i = pos then c else i)
        (if j = c then pos else if j = pos then c else j) := by
    intro i j
    have hat : ∀ k, (swap heap pos c)[k]? =
        heap[if k = c then pos else if k = pos then c else k]? := by
      intro k
      rw [getElem?_swap hpos hlt]
      split
      · rfl
      · split <;> rfl
    simp only [LeAt, hat]
  constructor
  · intro i hi hne
    rw [hmove, hmove, if_neg hne]
    by_cases hip : i = pos
    · subst hip
      rw [if_pos rfl]
      rcases hcase with rfl | rfl
      · rw [if_pos rfl, if_neg (by omega), if_neg (by omega)]
        exact ⟨hback, hright⟩
      · rw [if_neg (by omega), if_neg (by omega), if_pos rfl]
        exact ⟨hleft, hback⟩
    · rw [if_neg hip]
      obtain ⟨hl, hr⟩ := h.off i hi hip
      have habove : ∀ j, (j = 2 * i + 1 ∨ j = 2 * i + 2) → LeAt key heap i j →
          LeAt key heap i (if j = c then pos else if j = pos then c else j) := by
        intro j hj hle
        rw [if_neg (by omega)]
        split
        next hjp =>
          obtain ⟨ha, hb⟩ := h.above i hi (by omega)
          rcases hcase with rfl | rfl
          · exact ha
          · exact hb
        · exact hle
      exact ⟨habove _ (.inl rfl) hl, habove _ (.inr rfl) hr⟩
  · intro i hi hparent
    obtain rfl : i = pos := by omega
    rw [hmove, hmove, if_neg (by omega), if_pos rfl, if_neg (by omega), if_neg (by omega),
      if_neg (by omega), if_neg (by omega)]
    exact h.off c (by omega) (by omega)

theorem siftSteps_heap {fuel n pos : ℕ} (h : HeapExcept key n pos heap)
    (hn : n ≤ pos) (hfuel : heap.length ≤ fuel + pos) :
    HeapFrom key n (siftSteps less fuel heap pos) := by
  have hdone : ∀ {pos : ℕ} {heap : List α}, HeapExcept key n pos heap →
      LeAt key heap pos (2 * pos + 1) → LeAt key heap pos (2 * pos + 2) → HeapFrom key n heap := by
    intro pos heap h hl hr i hi
    by_cases hip : i = pos
    · subst hip
      exact ⟨hl, hr⟩
    · exact h.off i hi hip
  induction fuel generalizing heap pos with
  | zero =>
    have hl : heap.length ≤ 2 * pos + 1 := by omega
    exact hdone h (leAt_of_length_le hl) (leAt_of_length_le (le_succ_of_le hl))
  | succ fuel ih =>
    unfold siftSteps
    split
    next hleaf => exact hdone h (leAt_of_length_le hleaf) (leAt_of_length_le (by omega))
    next hchild =>
      have hcase := @smallestChild_eq α less heap pos
      split
      next hstop =>
        obtain ⟨hl, hr⟩ := smallestChild_le hless heap pos
        have hlt := @smallestChild_lt α heap less pos (by omega)
        have hle := leAt_of_lessAt hless hstop
        exact hdone h (hle.trans hlt hl) (hle.trans hlt hr)
      next hgo =>
        refine ih (h.step hless hn (by omega) (by simpa using hgo)) (by omega) ?_
        rw [length_swap]
        omega

theorem siftDown_heap {n : ℕ} (h : HeapFrom key (n + 1) heap) :
    HeapFrom key n (siftDown less heap n) :=
  siftSteps_heap hless h.except (le_refl n) (by omega)

theorem build_heap (heap : List α) : HeapFrom key 0 (build less heap) := by
  have hdown : ∀ n (heap : List α), HeapFrom key n heap →
      HeapFrom key 0 ((range n).reverse.foldl (siftDown less) heap) := by
    intro n
    induction n with
    | zero => exact fun heap h => h
    | succ n ih =>
      intro heap h
      rw [range_succ, reverse_append, reverse_singleton, singleton_append]
      exact ih _ (siftDown_heap hless h)
  exact hdown _ heap (heapFrom_of_half heap)

/-- With another element at the root, sifting gives a heap again. -/
theorem siftDown_root (h : HeapFrom key 0 heap) (a : α) :
    HeapFrom key 0 (siftDown less (heap.set 0 a) 0) := by
  refine siftDown_heap hless fun i hi => ?_
  have hat : ∀ j, 0 < j → (heap.set 0 a)[j]? = heap[j]? :=
    fun j hj => getElem?_set_ne (by omega)
  simp only [LeAt, hat i (by omega), hat (2 * i + 1) (by omega), hat (2 * i + 2) (by omega)]
  exact h i (zero_le _)

/-- Without its root, and the last element in its place, sifting gives a heap again. -/
theorem siftDown_pop (h : HeapFrom key 0 heap) :
    HeapFrom key 0 (siftDown less (swap heap 0 (heap.length - 1)).dropLast 0) := by
  refine siftDown_heap hless fun i hi => ?_
  have hat : ∀ j, 0 < j → ∀ a ∈ (swap heap 0 (heap.length - 1)).dropLast[j]?, a ∈ heap[j]? := by
    intro j hj a ha
    rw [getElem?_dropLast, length_swap] at ha
    split at ha
    next hlt =>
      rw [getElem?_swap (by omega) (by omega), if_neg (by omega), if_neg (by omega)] at ha
      exact ha
    · cases ha
  obtain ⟨hl, hr⟩ := h i (zero_le _)
  exact ⟨fun a ha b hb => hl a (hat _ (by omega) a ha) b (hat _ (by omega) b hb),
    fun a ha b hb => hr a (hat _ (by omega) a ha) b (hat _ (by omega) b hb)⟩

end

theorem dropLast_swap_perm (top : α) (rest : List α) :
    ((swap (top :: rest) 0 rest.length).dropLast).Perm rest := by
  rcases eq_nil_or_concat rest with rfl | ⟨front, last, rfl⟩
  · rfl
  · have hswap : swap (top :: (front ++ [last])) 0 (front ++ [last]).length =
        (last :: front) ++ [top] := by
      simp [swap]
    rw [concat_eq_append, hswap, dropLast_concat]
    exact (perm_append_singleton last front).symm

end BinaryHeap

end FlureeDb.Lib
