import Mathlib.Data.List.TakeWhile
import FlureeDb.Core.Comparator
import FlureeDb.Lib.SortedList

/-!
Segments: immutable batches of flakes of one graph. A segment holds its flakes and,
for each index, their order. The code keeps an order as local indices into the
flakes; here every local index stands beside the flake it points to. The invariants
of a segment are part of it, so every segment there is was built from its flakes.

The sorts are a parameter. The code uses one of two unstable sorts, and which one is
told by a flag; of each it is known that it sorts and keeps the elements.
-/

namespace FlureeDb.Novelty

open FlureeDb.Core Lib List Bool Nat

/-- A graph, a segment and a place in it, packed into 16, 24 and 24 bits. -/
structure FlakeId where
  raw : ℕ
  deriving DecidableEq

namespace FlakeId

def localBits : ℕ := 24

def segBits : ℕ := 24

/-- Packs without a check: in a release build a part that is too wide runs into the
next one. -/
def pack (g seg loc : ℕ) : FlakeId :=
  ⟨(g <<< (segBits + localBits) ||| seg <<< localBits ||| loc) % 2 ^ 64⟩

def graph (id : FlakeId) : ℕ := id.raw >>> (segBits + localBits)

def localMask : ℕ := 2 ^ localBits - 1

def segMask : ℕ := 2 ^ segBits - 1

def seg (id : FlakeId) : ℕ := id.raw >>> localBits &&& segMask

def loc (id : FlakeId) : ℕ := id.raw &&& localMask

theorem unpack_pack {g seg loc : ℕ} (hg : g < 2 ^ 16) (hseg : seg < 2 ^ 24) (hloc : loc < 2 ^ 24) :
    (pack g seg loc).graph = g ∧ (pack g seg loc).seg = seg ∧ (pack g seg loc).loc = loc := by
  have hlow : seg <<< 24 ||| loc = seg * 2 ^ 24 + loc := by
    rw [← shiftLeft_add_eq_or_of_lt hloc, shiftLeft_eq]
  have hraw : (pack g seg loc).raw = g * 2 ^ 48 + (seg * 2 ^ 24 + loc) := by
    change (g <<< 48 ||| seg <<< 24 ||| loc) % 2 ^ 64 = _
    rw [Nat.or_assoc, ← shiftLeft_add_eq_or_of_lt (by omega)]
    omega
  refine ⟨?_, ?_, ?_⟩
  · change (pack g seg loc).raw >>> 48 = g
    omega
  · change (pack g seg loc).raw >>> 24 &&& 2 ^ 24 - 1 = seg
    rw [and_two_pow_sub_one_eq_mod]
    omega
  · change (pack g seg loc).raw &&& 2 ^ 24 - 1 = loc
    rw [and_two_pow_sub_one_eq_mod]
    omega

end FlakeId

def maxSegmentFlakes : ℕ := FlakeId.localMask + 1

def maxSegments : ℕ := FlakeId.segMask + 1

section

variable (V : Type) [ObjectValue V]

structure Segment where
  flakes : List (Flake V)
  order : IndexType → List (Flake V × ℕ)
  minT : ℤ
  maxT : ℤ
  size : ℕ
  order_perm : ∀ index, (order index).Perm flakes.zipIdx
  order_sorted : ∀ index, SortedBy (fun a b => index.compare a.1 b.1) (order index)
  minT_le : ∀ f ∈ flakes, minT ≤ f.t
  le_maxT : ∀ f ∈ flakes, f.t ≤ maxT
  size_eq : size = (flakes.map Flake.sizeBytes).sum

end

def i64Max : ℤ := 2 ^ 63 - 1

def i64Min : ℤ := -2 ^ 63

namespace Segment

variable {V : Type} [ObjectValue V]

theorem le_foldl_max {α γ : Type} [LinearOrder γ] (key : α → γ) (l : List α) (acc : γ) :
    acc ≤ l.foldl (fun acc a => max acc (key a)) acc ∧
      ∀ a ∈ l, key a ≤ l.foldl (fun acc a => max acc (key a)) acc := by
  induction l generalizing acc with
  | nil => exact ⟨le_refl acc, by simp⟩
  | cons a l ih =>
    obtain ⟨hacc, hall⟩ := ih (max acc (key a))
    exact ⟨(le_max_left _ _).trans hacc,
      forall_mem_cons.mpr ⟨(le_max_right _ _).trans hacc, hall⟩⟩

theorem foldl_min_le {α γ : Type} [LinearOrder γ] (key : α → γ) (l : List α) (acc : γ) :
    l.foldl (fun acc a => min acc (key a)) acc ≤ acc ∧
      ∀ a ∈ l, l.foldl (fun acc a => min acc (key a)) acc ≤ key a :=
  @le_foldl_max α γᵒᵈ _ key l acc

instance (index : IndexType) :
    Std.TransCmp fun a b : Flake V × ℕ => index.compare a.1 b.1 :=
  transCmp_comap Prod.fst index.compare

/-- Sorts the local indices once for each index, and sums up the times and the
sizes. -/
def build (sort : Bool → UnstableSort) (flakes : List (Flake V)) (parallel : Bool) :
    Segment V where
  flakes := flakes
  order index := (sort parallel).sort (fun a b => index.compare a.1 b.1) flakes.zipIdx
  minT := flakes.foldl (fun acc f => min acc f.t) i64Max
  maxT := flakes.foldl (fun acc f => max acc f.t) i64Min
  size := (flakes.map Flake.sizeBytes).sum
  order_perm _ := (sort parallel).perm _ _
  order_sorted _ := (sort parallel).sorted _ _
  minT_le := (foldl_min_le Flake.t flakes i64Max).2
  le_maxT := (le_foldl_max Flake.t flakes i64Min).2
  size_eq := rfl

@[simp] theorem build_flakes (sort : Bool → UnstableSort) (flakes : List (Flake V))
    (parallel : Bool) : (build sort flakes parallel).flakes = flakes := rfl

/-! ### Reading a range -/

variable (index : IndexType) (first rhs : Option (Flake V)) (leftmost : Bool)

def upTo (bound : Flake V) (entry : Flake V × ℕ) : Bool := index.compare entry.1 bound != .gt

variable (seg : Segment V)

/-- The part of an order above `first`, unless the read is leftmost, and up to
`rhs`. -/
def range : List (Flake V × ℕ) :=
  let ids := seg.order index
  if ids.isEmpty then []
  else
    let start :=
      if leftmost then 0
      else
        match first with
        | some f => partitionPoint (upTo index f) ids
        | none => 0
    let stop :=
      match rhs with
      | some r => partitionPoint (upTo index r) ids
      | none => ids.length
    if stop ≤ start then [] else (ids.take stop).drop start

/-- Whether the first and the last flake of an order leave room for the range. -/
def mayOverlap : Bool :=
  match (seg.order index).head?, (seg.order index).getLast? with
  | some lo, some hi =>
    if rhs.any fun r => index.compare lo.1 r == .gt then false
    else !(!leftmost && first.any fun f => index.compare hi.1 f != .gt)
  | _, _ => false

/-- A flake lies strictly above `first`, unless the read is leftmost or has none, and
at or below `rhs`. -/
def inRange (f : Flake V) : Bool :=
  (leftmost || first.all fun lo => index.compare f lo == .gt) &&
    rhs.all fun hi => index.compare f hi != .gt

variable (entry : Flake V × ℕ)

def belowFirst : Bool := !leftmost && first.any (upTo index · entry)

def withinRhs : Bool := rhs.all (upTo index · entry)

theorem inRange_eq :
    inRange index first rhs leftmost entry.1 =
      (withinRhs index rhs entry && !belowFirst index first leftmost entry) := by
  unfold inRange withinRhs belowFirst upTo
  rw [Bool.and_comm, Bool.not_and, Bool.not_not]
  cases first with
  | none => rfl
  | some f => simp [bne]

theorem downward_upTo (bound : Flake V) :
    Downward (fun a b : Flake V × ℕ => index.compare a.1 b.1) (upTo index bound) := by
  intro a b hab hb
  exact downward_ne_gt index.compare bound a.1 b.1 hab hb

theorem downward_belowFirst :
    Downward (fun a b : Flake V × ℕ => index.compare a.1 b.1)
      (belowFirst index first leftmost) := by
  intro a b hab hb
  unfold belowFirst at hb ⊢
  cases first with
  | none => exact hb
  | some f =>
    rw [and_eq_true] at hb ⊢
    exact ⟨hb.1, downward_upTo index f a b hab hb.2⟩

theorem downward_withinRhs :
    Downward (fun a b : Flake V × ℕ => index.compare a.1 b.1) (withinRhs index rhs) := by
  intro a b hab hb
  cases rhs with
  | none => rfl
  | some r => exact downward_upTo index r a b hab hb

theorem partitionPoint_belowFirst (ids : List (Flake V × ℕ)) :
    partitionPoint (belowFirst index first leftmost) ids =
      if leftmost then 0
      else
        match first with
        | some f => partitionPoint (upTo index f) ids
        | none => 0 := by
  cases leftmost with
  | true => cases ids <;> rfl
  | false =>
    cases first with
    | none => cases ids <;> rfl
    | some f => rfl

theorem partitionPoint_withinRhs (ids : List (Flake V × ℕ)) :
    partitionPoint (withinRhs index rhs) ids =
      match rhs with
      | some r => partitionPoint (upTo index r) ids
      | none => ids.length := by
  cases rhs with
  | none =>
    have hall : ids.takeWhile (withinRhs index none) = ids :=
      takeWhile_eq_self_iff.mpr fun _ _ => rfl
    exact congrArg length hall
  | some r => rfl

/-- The two empty cases of a slice need no case of their own. -/
theorem slice_eq {α : Type} (ids : List α) (start stop : ℕ) :
    (if ids.isEmpty then [] else if stop ≤ start then [] else (ids.take stop).drop start) =
      (ids.take stop).drop start := by
  split
  next hempty => rw [isEmpty_iff.mp hempty, take_nil, drop_nil]
  next =>
    split
    next hle => exact (drop_eq_nil_of_le ((length_take_le _ _).trans hle)).symm
    next => rfl

theorem range_eq_filter :
    seg.range index first rhs leftmost =
      (seg.order index).filter fun entry => inRange index first rhs leftmost entry.1 := by
  have hslice : seg.range index first rhs leftmost =
      ((seg.order index).take (partitionPoint (withinRhs index rhs) (seg.order index))).drop
        (partitionPoint (belowFirst index first leftmost) (seg.order index)) := by
    rw [partitionPoint_withinRhs, partitionPoint_belowFirst]
    exact slice_eq (seg.order index) _ _
  have hsorted := seg.order_sorted index
  rw [hslice, drop_partitionPoint ((downward_belowFirst index first leftmost).pairwise hsorted),
    take_partitionPoint, takeWhile_eq_filter ((downward_withinRhs index rhs).pairwise hsorted),
    filter_filter]
  refine filter_congr fun entry _ => ?_
  rw [inRange_eq, Bool.and_comm]

theorem range_eq_nil_of_mayOverlap (h : seg.mayOverlap index first rhs leftmost = false) :
    seg.range index first rhs leftmost = [] := by
  rw [range_eq_filter, filter_eq_nil_iff]
  intro entry hentry hin
  rw [inRange_eq, and_eq_true] at hin
  obtain ⟨hwithin, hbelow⟩ := hin
  have hsorted := seg.order_sorted index
  unfold mayOverlap at h
  split at h
  next lo hi hlo hhi =>
    have hle : (index.compare lo.1 entry.1).isLE := by
      obtain ⟨rest, hrest⟩ := head?_eq_some_iff.mp hlo
      rw [hrest] at hsorted hentry
      rcases mem_cons.mp hentry with rfl | hentry
      · exact Std.ReflCmp.isLE_rfl
      · exact (pairwise_cons.mp hsorted).1 entry hentry
    have hge : (index.compare entry.1 hi.1).isLE := by
      obtain ⟨rest, hrest⟩ := getLast?_eq_some_iff.mp hhi
      rw [hrest] at hsorted hentry
      rcases mem_append.mp hentry with hentry | hentry
      · exact (pairwise_append.mp hsorted).2.2 entry hentry hi (mem_singleton_self _)
      · rw [mem_singleton.mp hentry]
        exact Std.ReflCmp.isLE_rfl
    split at h
    next habove =>
      -- the whole segment lies above the upper bound
      have hlo := downward_withinRhs index rhs lo entry hle hwithin
      unfold withinRhs upTo at hlo
      cases rhs with
      | none => cases habove
      | some r =>
        simp only [Option.any_some, Option.all_some, beq_iff_eq, bne_iff_ne] at habove hlo
        exact hlo habove
    next =>
      -- the whole segment lies at or below the lower bound
      rw [not_eq_false'] at h
      have hentry := downward_belowFirst index first leftmost entry hi hge h
      rw [hentry] at hbelow
      cases hbelow
  next hnone =>
    cases horder : seg.order index with
    | nil =>
      rw [horder] at hentry
      cases hentry
    | cons a l =>
      rw [horder] at hnone
      exact hnone _ _ rfl (getLast?_eq_some_getLast (cons_ne_nil a l))

end Segment

end FlureeDb.Novelty
