import Mathlib.Data.List.Sort
import Mathlib.Data.List.Rotate
import Mathlib.Data.List.SplitBy
import Mathlib.Data.List.TakeWhile
import Mathlib.Order.Antisymmetrization

/-!
Lists sorted by a comparator: sorting where ties may end in any order, binary
search, slices between two bounds, and the merge of several sorted streams by
repeatedly taking the least head. A comparator may call different elements equal,
so the results are stated up to the order of such elements: a permutation, and
sorted.
-/

namespace FlureeDb.Lib

open List Option Std.TransCmp

/-- Every element is at most every later one. -/
def SortedBy {α : Type*} (cmp : α → α → Ordering) (l : List α) : Prop :=
  l.Pairwise fun a b => (cmp a b).isLE

/-- A sort that may leave equal elements in any order. -/
structure UnstableSort where
  sort : {α : Type} → (α → α → Ordering) → List α → List α
  perm : ∀ {α : Type} (cmp : α → α → Ordering) (l : List α), (sort cmp l).Perm l
  sorted : ∀ {α : Type} (cmp : α → α → Ordering) [Std.TransCmp cmp] (l : List α),
    SortedBy cmp (sort cmp l)

section

variable {α : Type*} {cmp : α → α → Ordering}

theorem isLE_total [Std.OrientedCmp cmp] (a b : α) : (cmp a b).isLE ∨ (cmp b a).isLE := by
  have hswap : cmp b a = (cmp a b).swap := Std.OrientedCmp.eq_swap
  rw [hswap]
  cases cmp a b with
  | lt => exact .inl rfl
  | eq => exact .inl rfl
  | gt => exact .inr rfl

/-- A total preorder compares keys in a linear order. -/
theorem exists_rank {α : Type} (cmp : α → α → Ordering) [Std.TransCmp cmp] :
    ∃ (κ : Type) (_ : LinearOrder κ) (rank : α → κ), ∀ a b, (cmp a b).Compares (rank a) (rank b) := by
  classical
  let _ : Preorder α :=
    { le := fun a b => (cmp a b).isLE = true
      le_refl := fun a => Std.ReflCmp.isLE_rfl
      le_trans := fun a b c => isLE_trans }
  have _ : @Std.Total α (· ≤ ·) := ⟨isLE_total⟩
  refine ⟨Antisymmetrization α (· ≤ ·), inferInstance, toAntisymmetrization (· ≤ ·), fun a b => ?_⟩
  have hle : a ≤ b ↔ (cmp a b).isLE = true := Iff.rfl
  have hge : b ≤ a ↔ (cmp a b).swap.isLE = true := by rw [← Std.OrientedCmp.eq_swap]; rfl
  cases h : cmp a b with
  | lt | gt =>
    refine toAntisymmetrization_lt_toAntisymmetrization_iff.mpr (lt_iff_le_not_ge.mpr ?_)
    simp [hle, hge, h]
  | eq => exact Quotient.sound' ⟨by simp [hle, h], by simp [hge, h]⟩

theorem SortedBy.sublist {l l' : List α} (h : SortedBy cmp l) (hsub : l'.Sublist l) :
    SortedBy cmp l' :=
  Pairwise.sublist hsub h

section

variable [Std.TransCmp cmp] {l l' : List α}

/-- The head of a sorted list is at most an element whose class has as many members in
another list. -/
theorem head_isLE {a b : α} (ha : ∀ x ∈ l, (cmp a x).isLE)
    (hcount : (a :: l).countP (fun x => cmp b x == .eq) =
      (b :: l').countP fun x => cmp b x == .eq) : (cmp a b).isLE := by
  have hpos : 0 < (b :: l').countP (fun x => cmp b x == .eq) :=
    countP_pos_iff.mpr ⟨b, mem_cons_self, by simp [Std.ReflCmp.compare_self]⟩
  rw [← hcount, countP_pos_iff] at hpos
  obtain ⟨x, hx, hbx⟩ := hpos
  rw [congr_right (beq_iff_eq.mp hbx)]
  rcases mem_cons.mp hx with rfl | hx
  · exact Std.ReflCmp.isLE_rfl
  · exact ha x hx

/-- Two sorted lists with as many elements of each class of equal elements are equal
element by element. -/
theorem SortedBy.forall₂_of_countP (hl : SortedBy cmp l) (hl' : SortedBy cmp l')
    (hcount : ∀ p : α → Bool, (∀ x y, cmp x y = .eq → p x = p y) → l.countP p = l'.countP p) :
    List.Forall₂ (fun a b => cmp a b = .eq) l l' := by
  have hlength : l.length = l'.length := by
    simpa using hcount (fun _ => true) (fun _ _ _ => rfl)
  induction l generalizing l' with
  | nil =>
    cases l' with
    | nil => exact Forall₂.nil
    | cons => cases hlength
  | cons a l ih =>
    cases l' with
    | nil => cases hlength
    | cons b =>
      obtain ⟨ha, hl⟩ := pairwise_cons.mp hl
      obtain ⟨hb, hl'⟩ := pairwise_cons.mp hl'
      have hclass : ∀ c x y, cmp x y = .eq → (cmp c x == .eq) = (cmp c y == .eq) := by
        intro c x y hxy
        rw [congr_right hxy]
      have heq : cmp a b = .eq := Std.OrientedCmp.isLE_antisymm
        (head_isLE ha (hcount _ (hclass b))) (head_isLE hb (hcount _ (hclass a)).symm)
      refine Forall₂.cons heq (ih hl hl' ?_ (by simpa using hlength))
      intro p hp
      have h := hcount p hp
      rw [countP_cons, countP_cons, hp a b heq] at h
      exact Nat.add_right_cancel h

/-- Two sorted permutations of each other are equal element by element. -/
theorem SortedBy.forall₂_of_perm (hl : SortedBy cmp l) (hl' : SortedBy cmp l') (hperm : l.Perm l') :
    List.Forall₂ (fun a b => cmp a b = .eq) l l' :=
  hl.forall₂_of_countP hl' fun p _ => hperm.countP_eq p

end

/-! Ties may end in any order: some sort puts an element last that nothing is above. -/

theorem getLast?_orderedInsert (r : α → α → Prop) [DecidableRel r] {a x : α} (hax : r a x)
    {l : List α} (hlast : l.getLast? = some x) : (l.orderedInsert r a).getLast? = some x := by
  induction l with
  | nil => cases hlast
  | cons b l ih =>
    rw [orderedInsert_cons]
    split
    · exact hlast
    · next hnot =>
      cases l with
      | nil =>
        obtain rfl : b = x := some.inj hlast
        exact absurd hax hnot
      | cons =>
        rw [getLast?_cons, ih hlast]
        rfl

theorem getLast?_insertionSort (r : α → α → Prop) [DecidableRel r] {x : α} {l : List α}
    (hle : ∀ a ∈ l, r a x) : ((l ++ [x]).insertionSort r).getLast? = some x := by
  induction l with
  | nil => rfl
  | cons a l ih =>
    exact getLast?_orderedInsert r (hle a mem_cons_self)
      (ih fun b hb => hle b (mem_cons_of_mem a hb))

end

/-- Insertion of each element where it belongs, as a sort. -/
def UnstableSort.insertionSort : UnstableSort where
  sort cmp l := l.insertionSort fun a b => (cmp a b).isLE
  perm cmp l := perm_insertionSort _ l
  sorted {α} cmp _ l := by
    have htotal : Std.Total fun a b : α => (cmp a b).isLE = true := ⟨isLE_total⟩
    have htrans : IsTrans α fun a b => (cmp a b).isLE = true :=
      ⟨fun _ _ _ => isLE_trans⟩
    exact pairwise_insertionSort _ l

/-- Insertion of each element where it belongs, after some went from the front to the back. -/
def UnstableSort.rotated (n : ℕ) : UnstableSort where
  sort cmp l := (l.rotate n).insertionSort fun a b => (cmp a b).isLE
  perm cmp l := (perm_insertionSort _ _).trans (rotate_perm l n)
  sorted {α} cmp _ l := by
    have htotal : Std.Total fun a b : α => (cmp a b).isLE = true := ⟨isLE_total⟩
    have htrans : IsTrans α fun a b => (cmp a b).isLE = true :=
      ⟨fun _ _ _ => isLE_trans⟩
    exact pairwise_insertionSort _ _

theorem exists_sort_getLast {α : Type} {cmp : α → α → Ordering} {l : List α} {x : α} (hx : x ∈ l)
    (hle : ∀ a ∈ l, (cmp a x).isLE) :
    ∃ sort : UnstableSort, (sort.sort cmp l).getLast? = some x := by
  obtain ⟨front, back, rfl⟩ := append_of_mem hx
  refine ⟨.rotated (front ++ [x]).length, ?_⟩
  have hrotate : (front ++ x :: back).rotate (front ++ [x]).length = back ++ front ++ [x] := by
    rw [append_cons front x, rotate_append_length_eq, append_assoc]
  change (((front ++ x :: back).rotate (front ++ [x]).length).insertionSort _).getLast? = some x
  rw [hrotate]
  refine getLast?_insertionSort _ fun a ha => hle a ?_
  rcases mem_append.mp ha with hback | hfront
  · exact mem_append_right front (mem_cons_of_mem x hback)
  · exact mem_append_left _ hfront

theorem mapM_eq_some {α β : Type} {f : α → Option β} {l : List α} {l' : List β}
    (h : l.map f = l'.map some) : l.mapM f = some l' := by
  calc l.mapM f = (l.map f).mapM id := (mapM_map (g := id)).symm
    _ = l'.mapM some := by rw [h]; exact mapM_map
    _ = some l' := mapM_pure.trans (congrArg some (map_id l'))

section

variable {α : Type*} {cmp : α → α → Ordering}

/-- How many elements at the front meet the predicate: the index that a binary search
finds in a list partitioned by it. -/
def partitionPoint (p : α → Bool) (l : List α) : ℕ := (l.takeWhile p).length

theorem partitionPoint_mono {p q : α → Bool} (h : ∀ a, p a = true → q a = true) (l : List α) :
    partitionPoint p l ≤ partitionPoint q l := by
  unfold partitionPoint
  induction l with
  | nil => rfl
  | cons a l ih =>
    cases hp : p a with
    | false => simp [hp]
    | true => simpa [hp, h a] using ih

/-- The predicate goes down along the comparator. -/
def Downward (cmp : α → α → Ordering) (p : α → Bool) : Prop :=
  ∀ a b, (cmp a b).isLE → p b = true → p a = true

theorem downward_ne_gt (cmp : α → α → Ordering) [Std.TransCmp cmp] (bound : α) :
    Downward cmp fun x => cmp x bound != .gt := by
  intro a b hab hb
  have hb : (cmp b bound).isLE := by
    cases h : cmp b bound <;> simp_all
  have ha : (cmp a bound).isLE := isLE_trans hab hb
  cases h : cmp a bound <;> simp_all

theorem Downward.pairwise {p : α → Bool} (hp : Downward cmp p) {l : List α} (hl : SortedBy cmp l) :
    l.Pairwise fun a b => p b = true → p a = true :=
  hl.imp fun hab => hp _ _ hab

section

variable {p : α → Bool} {l : List α} (h : l.Pairwise fun a b => p b = true → p a = true)

include h

theorem takeWhile_eq_filter : l.takeWhile p = l.filter p := by
  induction l with
  | nil => rfl
  | cons a l ih =>
    obtain ⟨ha, hl⟩ := pairwise_cons.mp h
    cases hpa : p a with
    | true => rw [takeWhile_cons_of_pos hpa, filter_cons_of_pos hpa, ih hl]
    | false =>
      have hnone : l.filter p = [] :=
        filter_eq_nil_iff.mpr fun b hb hpb => by simp [ha b hb hpb] at hpa
      rw [takeWhile_cons_of_neg (by simp [hpa]), filter_cons_of_neg (by simp [hpa]), hnone]

theorem dropWhile_eq_filter : l.dropWhile p = l.filter fun a => !p a := by
  induction l with
  | nil => rfl
  | cons a l ih =>
    obtain ⟨ha, hl⟩ := pairwise_cons.mp h
    cases hpa : p a with
    | true => rw [dropWhile_cons_of_pos hpa, filter_cons_of_neg (by simp [hpa]), ih hl]
    | false =>
      have hall : (l.filter fun a => !p a) = l :=
        filter_eq_self.mpr fun b hb => by
          rw [Bool.not_eq_true', ← Bool.not_eq_true]
          exact fun hpb => by simp [ha b hb hpb] at hpa
      rw [dropWhile_cons_of_neg (by simp [hpa]), filter_cons_of_pos (by simp [hpa]), hall]

end

theorem take_partitionPoint (p : α → Bool) (l : List α) :
    l.take (partitionPoint p l) = l.takeWhile p :=
  (prefix_iff_eq_take.mp ( takeWhile_prefix p)).symm

theorem drop_takeWhile_length (p : α → Bool) (l : List α) :
    l.drop (partitionPoint p l) = l.dropWhile p := by
  calc l.drop (l.takeWhile p).length
      = (l.takeWhile p ++ l.dropWhile p).drop (l.takeWhile p).length := by
        rw [takeWhile_append_dropWhile]
    _ = l.dropWhile p := drop_left

/-- The elements at the front, without those that meet the predicate. -/
theorem drop_partitionPoint {p : α → Bool} {l : List α}
    (h : l.Pairwise fun a b => p b = true → p a = true) (n : ℕ) :
    (l.take n).drop (partitionPoint p l) = (l.take n).filter fun a => !p a := by
  rw [← dropWhile_eq_filter (h.sublist (take_sublist n l)), ← drop_takeWhile_length, partitionPoint,
    partitionPoint, ← take_takeWhile, drop_eq_drop_iff, length_take, length_take]
  omega

/-- The first longest run of elements with one key, and the others. -/
theorem splitBy_key_cons {α β : Type*} [DecidableEq β] (key : α → β) (a : α) (l : List α) :
    (a :: l).splitBy (fun a b => key a = key b) = (a :: l.takeWhile (key · = key a)) ::
      (l.dropWhile (key · = key a)).splitBy fun a b => key a = key b := by
  have hsame : ∀ b ∈ a :: l.takeWhile (key · = key a), key b = key a := by
    refine forall_mem_cons.mpr ⟨rfl, fun b hb => ?_⟩
    simpa using mem_takeWhile_imp hb
  have hrun : (a :: l.takeWhile (key · = key a)).IsChain fun a b => decide (key a = key b) = true := by
    refine (pairwise_of_forall_mem_list fun b hb c hc => ?_).isChain
    simp [hsame b hb, hsame c hc]
  have hcut : a :: l = (a :: l.takeWhile (key · = key a)) ++ l.dropWhile (key · = key a) := by simp
  rw [hcut, splitBy_append, splitBy_of_isChain (cons_ne_nil _ _) hrun]
  · rfl
  · intro b hb c hc
    have hother := head?_dropWhile_not (fun b => decide (key b = key a)) l
    rw [mem_def.mp hc] at hother
    simpa [hsame b (mem_of_mem_getLast? hb), eq_comm] using hother

end

/-! ### Merging streams -/

variable {α : Type*} (cmp : α → α → Ordering)

/-- The least head of the streams, an earlier stream's on a tie, and the streams
without it. -/
def popLeast : List (List α) → Option (α × List (List α))
  | [] => none
  | [] :: streams => popLeast streams
  | (a :: stream) :: streams =>
    match popLeast streams with
    | none => some (a, [stream])
    | some (b, rest) =>
      if (cmp a b).isLE then some (a, stream :: streams)
      else some (b, (a :: stream) :: rest)

/-- Takes the least head so many times. -/
def mergeStreams : ℕ → List (List α) → List α
  | 0, _ => []
  | n + 1, streams =>
    match popLeast cmp streams with
    | none => []
    | some (a, rest) => a :: mergeStreams n rest

variable {cmp} {streams : List (List α)}

theorem flatten_eq_nil_of_popLeast (h : popLeast cmp streams = none) : streams.flatten = [] := by
  fun_induction popLeast cmp streams with
  | case1 => rfl
  | case2 streams ih => exact ih h
  | case3 | case4 | case5 => cases h

section

variable {rest : List (List α)} {a : α}

theorem perm_of_popLeast (h : popLeast cmp streams = some (a, rest)) :
    streams.flatten.Perm (a :: rest.flatten) := by
  fun_induction popLeast cmp streams generalizing a rest with
  | case1 => cases h
  | case2 streams ih => exact ih h
  | case3 c stream streams hnone =>
    cases h
    rw [flatten_cons, flatten_eq_nil_of_popLeast hnone, flatten_singleton, append_nil]
  | case4 => cases h; rfl
  | case5 c stream streams b rest' hsome _ ih =>
    cases h
    exact ((ih hsome).append_left _).trans perm_middle

/-- The popped head is at most everything that is left, and the streams stay
sorted. -/
theorem sorted_of_popLeast [Std.TransCmp cmp] (hsorted : ∀ stream ∈ streams, SortedBy cmp stream)
    (h : popLeast cmp streams = some (a, rest)) :
    (∀ stream ∈ rest, SortedBy cmp stream) ∧ ∀ x ∈ rest.flatten, (cmp a x).isLE := by
  fun_induction popLeast cmp streams generalizing a rest with
  | case1 => cases h
  | case2 streams ih => exact ih (forall_mem_cons.mp hsorted).2 h
  | case3 c =>
    obtain ⟨hc, hstream⟩ := pairwise_cons.mp (hsorted _ mem_cons_self)
    cases h
    simpa using ⟨hstream, hc⟩
  | case4 c stream streams b rest' hsome hle ih =>
    obtain ⟨hstream, htail⟩ := forall_mem_cons.mp hsorted
    obtain ⟨hc, hstream⟩ := pairwise_cons.mp hstream
    obtain ⟨-, hb⟩ := ih htail hsome
    cases h
    refine ⟨forall_mem_cons.mpr ⟨hstream, htail⟩, fun x hx => ?_⟩
    rcases mem_append.mp hx with hx | hx
    · exact hc x hx
    · rcases mem_cons.mp ((perm_of_popLeast hsome).mem_iff.mp hx) with rfl | hx
      · exact hle
      · exact isLE_trans hle (hb x hx)
  | case5 c stream streams b rest' hsome hnle ih =>
    obtain ⟨hstream, htail⟩ := forall_mem_cons.mp hsorted
    obtain ⟨hrest, hb⟩ := ih htail hsome
    have hbc : (cmp b c).isLE := (isLE_total c b).resolve_left hnle
    cases h
    refine ⟨forall_mem_cons.mpr ⟨hstream, hrest⟩, fun x hx => ?_⟩
    rcases mem_append.mp hx with hx | hx
    · rcases mem_cons.mp hx with rfl | hx
      · exact hbc
      · exact isLE_trans hbc ((pairwise_cons.mp hstream).1 x hx)
    · exact hb x hx

theorem length_of_popLeast {n : ℕ} (h : popLeast cmp streams = some (a, rest))
    (hn : streams.flatten.length ≤ n + 1) : rest.flatten.length ≤ n := by
  have hlength := (perm_of_popLeast h).length_eq
  rw [length_cons] at hlength
  omega

end

theorem mergeStreams_perm {n : ℕ} (hn : streams.flatten.length ≤ n) :
    (mergeStreams cmp n streams).Perm streams.flatten := by
  fun_induction mergeStreams cmp n streams with
  | case1 => rw [length_eq_zero_iff.mp (Nat.le_zero.mp hn)]
  | case2 n streams hnone => rw [flatten_eq_nil_of_popLeast hnone]
  | case3 n streams a rest hsome ih =>
    exact ((ih (length_of_popLeast hsome hn)).cons a).trans (perm_of_popLeast hsome).symm

theorem mergeStreams_sorted [Std.TransCmp cmp] {n : ℕ}
    (hsorted : ∀ stream ∈ streams, SortedBy cmp stream) (hn : streams.flatten.length ≤ n) :
    SortedBy cmp (mergeStreams cmp n streams) := by
  fun_induction mergeStreams cmp n streams with
  | case1 | case2 => exact Pairwise.nil
  | case3 n streams a rest hsome ih =>
    obtain ⟨hrest, hleast⟩ := sorted_of_popLeast hsorted hsome
    have hlength := length_of_popLeast hsome hn
    refine pairwise_cons.mpr ⟨fun x hx => ?_, ih hrest hlength⟩
    exact hleast x ((mergeStreams_perm hlength).mem_iff.mp hx)

end FlureeDb.Lib
