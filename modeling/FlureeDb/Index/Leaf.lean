import FlureeDb.Index.Record
import Mathlib.Data.List.SplitBy
import Mathlib.Data.List.Nodup

/-!
Leaflets, leaves and branches. A leaflet holds rows in order, the range of keys it is
responsible for and a history segment. A leaf is a row of leaflets, a branch a row of
leaves. A leaflet that lost its last row stays with its range, so that its history is
still found.
-/

namespace FlureeDb.Index

open List

/-- A leaflet: its entry in the directory of the leaf, its rows and its history segment,
newest entry first. -/
structure Leaflet where
  firstKey : FactKeyV3
  lastKey : FactKeyV3
  pConst : Option U32
  oTypeConst : Option U16
  rows : List Row
  history : List HistEntryV2
deriving DecidableEq, Repr

/-- A leaf: its routing keys in the branch, and its leaflets. -/
structure Leaf where
  firstKey : FactKeyV3
  lastKey : FactKeyV3
  leaflets : List Leaflet
deriving DecidableEq, Repr

def Leaf.rows (leaf : Leaf) : List Row := leaf.leaflets.flatMap Leaflet.rows

def branchRows (leaves : List Leaf) : List Row := leaves.flatMap Leaf.rows

section

variable (order : RunSortOrder)

/-- Rows in order, one for each fact. -/
def RowsSorted (rows : List Row) : Prop :=
  rows.Pairwise fun a b => a.key.sortKey order < b.key.sortKey order

/-- A leaflet's rows are in order and in its range, and have its constants. -/
structure Leaflet.Ok (leaflet : Leaflet) : Prop where
  sorted : RowsSorted order leaflet.rows
  range : leaflet.firstKey.sortKey order ≤ leaflet.lastKey.sortKey order
  first_le : ∀ row ∈ leaflet.rows, leaflet.firstKey.sortKey order ≤ row.key.sortKey order
  le_last : ∀ row ∈ leaflet.rows, row.key.sortKey order ≤ leaflet.lastKey.sortKey order
  pConst : ∀ p ∈ leaflet.pConst, ∀ row ∈ leaflet.rows, row.key.pId = p
  oTypeConst : ∀ o ∈ leaflet.oTypeConst, ∀ row ∈ leaflet.rows, row.key.oType = o

/-- A leaf has leaflets, one behind the other, within its routing keys. -/
structure Leaf.Ok (leaf : Leaf) : Prop where
  nonempty : leaf.leaflets ≠ []
  leaflets : ∀ leaflet ∈ leaf.leaflets, leaflet.Ok order
  apart : leaf.leaflets.Pairwise fun a b => a.lastKey.sortKey order < b.firstKey.sortKey order
  first_le : ∀ leaflet ∈ leaf.leaflets, leaf.firstKey.sortKey order ≤ leaflet.firstKey.sortKey order
  le_last : ∀ leaflet ∈ leaf.leaflets, leaflet.lastKey.sortKey order ≤ leaf.lastKey.sortKey order

/-- A branch: leaves one behind the other. -/
structure Branch where
  leaves : List Leaf
  ok : ∀ leaf ∈ leaves, leaf.Ok order
  apart : leaves.Pairwise fun a b => a.lastKey.sortKey order < b.firstKey.sortKey order

end

variable {order : RunSortOrder}

theorem nodup_of_sortKey_lt {α : Type*} {f : α → FactKeyV3} {l : List α}
    (h : l.Pairwise fun a b => (f a).sortKey order < (f b).sortKey order) : (l.map f).Nodup :=
  pairwise_map.mpr (h.imp fun hlt heq => hlt.ne (congrArg (FactKeyV3.sortKey order) heq))

variable {rows : List Row} {leaf : Leaf}

theorem RowsSorted.keys_nodup (h : RowsSorted order rows) : (rows.map Row.key).Nodup :=
  nodup_of_sortKey_lt h

theorem RowsSorted.eq_of_key (h : RowsSorted order rows) {a b : Row} (ha : a ∈ rows) (hb : b ∈ rows)
    (hkey : a.key = b.key) : a = b :=
  inj_on_of_nodup_map h.keys_nodup ha hb hkey

theorem Leaf.Ok.first_le_row (h : leaf.Ok order) {row : Row} (hrow : row ∈ leaf.rows) :
    leaf.firstKey.sortKey order ≤ row.key.sortKey order := by
  obtain ⟨leaflet, hleaflet, hrow⟩ := mem_flatMap.mp hrow
  exact (h.first_le leaflet hleaflet).trans ((h.leaflets leaflet hleaflet).first_le row hrow)

theorem Leaf.Ok.row_le_last (h : leaf.Ok order) {row : Row} (hrow : row ∈ leaf.rows) :
    row.key.sortKey order ≤ leaf.lastKey.sortKey order := by
  obtain ⟨leaflet, hleaflet, hrow⟩ := mem_flatMap.mp hrow
  exact ((h.leaflets leaflet hleaflet).le_last row hrow).trans (h.le_last leaflet hleaflet)

theorem Leaf.Ok.range (h : leaf.Ok order) :
    leaf.firstKey.sortKey order ≤ leaf.lastKey.sortKey order := by
  obtain ⟨leaflet, hleaflet⟩ := exists_mem_of_ne_nil _ h.nonempty
  exact (h.first_le leaflet hleaflet).trans
    ((h.leaflets leaflet hleaflet).range.trans (h.le_last leaflet hleaflet))

theorem rowsSorted_flatMap {α : Type*} {parts : List α} {rows : α → List Row}
    {first last : α → List ℕ} (hsorted : ∀ p ∈ parts, RowsSorted order (rows p))
    (hfirst : ∀ p ∈ parts, ∀ row ∈ rows p, first p ≤ row.key.sortKey order)
    (hlast : ∀ p ∈ parts, ∀ row ∈ rows p, row.key.sortKey order ≤ last p)
    (hapart : parts.Pairwise fun p q => last p < first q) :
    RowsSorted order (parts.flatMap rows) := by
  refine pairwise_flatMap.mpr ⟨hsorted, hapart.imp_of_mem ?_⟩
  intro p q hp hq hpq a ha b hb
  exact lt_of_le_of_lt (hlast p hp a ha) (lt_of_lt_of_le hpq (hfirst q hq b hb))

theorem Leaf.Ok.sorted (h : leaf.Ok order) : RowsSorted order leaf.rows :=
  rowsSorted_flatMap (fun l hl => (h.leaflets l hl).sorted) (fun l hl => (h.leaflets l hl).first_le)
    (fun l hl => (h.leaflets l hl).le_last) h.apart

theorem Branch.sorted (branch : Branch order) : RowsSorted order (branchRows branch.leaves) :=
  rowsSorted_flatMap (fun l hl => (branch.ok l hl).sorted)
    (fun l hl _ hrow => (branch.ok l hl).first_le_row hrow)
    (fun l hl _ hrow => (branch.ok l hl).row_le_last hrow) branch.apart

/-! ### Writing leaflets -/

/-- Rows of one leaflet share the predicate, or in OPST the type. -/
def sameSegment (order : RunSortOrder) (a b : Row) : Bool :=
  match order with
  | .post | .psot => a.key.pId == b.key.pId
  | .opst => a.key.oType == b.key.oType
  | .spot => true

/-- `encode_leaflet`. There is no leaflet without rows. -/
def encodeLeaflet (order : RunSortOrder) (history : List HistEntryV2) (rows : List Row) :
    Option Leaflet :=
  match rows with
  | [] => none
  | first :: rest => some
      { firstKey := first.key
        lastKey := ((first :: rest).getLast (cons_ne_nil first rest)).key
        pConst := match order with
          | .post | .psot => some first.key.pId
          | _ => none
        oTypeConst := match order with
          | .opst => some first.key.oType
          | .post | .psot =>
            if (first :: rest).all fun r => r.key.oType == first.key.oType then
              some first.key.oType else none
          | .spot => none
        rows := first :: rest
        history := history }

theorem encodeLeaflet_eq_some {history : List HistEntryV2} (h : rows ≠ []) :
    ∃ leaflet, encodeLeaflet order history rows = some leaflet ∧ leaflet.rows = rows := by
  cases rows with
  | nil => exact absurd rfl h
  | cons first => exact ⟨_, rfl, rfl⟩

/-- `split_by_segmentation_and_size`: the longest runs of one segment, each cut into pieces of
the target size. -/
def splitBySegmentationAndSize (order : RunSortOrder) (rows : List Row) (targetRows : ℕ) :
    List (List Row) :=
  (rows.splitBy (sameSegment order)).flatMap (List.toChunks targetRows)

theorem toChunks_go {α : Type*} (n : ℕ) (xs : List α) (acc₁ : Array α) (acc₂ : Array (List α)) :
    (List.toChunks.go n xs acc₁ acc₂).flatten = acc₂.toList.flatten ++ acc₁.toList ++ xs ∧
      (acc₁.toList ≠ [] → [] ∉ acc₂.toList → [] ∉ List.toChunks.go n xs acc₁ acc₂) := by
  induction xs generalizing acc₁ acc₂ with
  | nil =>
    constructor
    · simp [toChunks.go]
    · intro h₁ h₂
      simp only [toChunks.go, Array.toList_push, mem_append, mem_singleton]
      exact fun h => h.elim h₂ (fun h => h₁ h.symm)
  | cons x xs ih =>
    simp only [toChunks.go]
    split
    · refine ⟨by rw [(ih _ _).1]; simp, fun h₁ h₂ => (ih _ _).2 (by simp) ?_⟩
      simp only [Array.toList_push, mem_append, mem_singleton]
      exact fun h => h.elim h₂ (fun h => h₁ h.symm)
    · exact ⟨by rw [(ih _ _).1]; simp, fun _ h₂ => (ih _ _).2 (by simp) h₂⟩

theorem toChunks_spec {α : Type*} (n : ℕ) (xs : List α) :
    (xs.toChunks n).flatten = xs ∧ [] ∉ xs.toChunks n := by
  cases xs with
  | nil => simp [toChunks]
  | cons x =>
    cases n with
    | zero => simp [toChunks]
    | succ n =>
      simp only [toChunks]
      exact ⟨by rw [(toChunks_go _ _ _ _).1]; simp,
        (toChunks_go _ _ _ _).2 (by simp) (by simp)⟩

/-- Splitting loses nothing and makes no empty piece. -/
theorem split_spec (order : RunSortOrder) (rows : List Row) (targetRows : ℕ) :
    (splitBySegmentationAndSize order rows targetRows).flatten = rows ∧
      [] ∉ splitBySegmentationAndSize order rows targetRows := by
  constructor
  · have hflat : ∀ segments : List (List Row),
        (segments.flatMap (toChunks targetRows)).flatten = segments.flatten := by
      intro segments
      induction segments with
      | nil => rfl
      | cons s segments ih =>
        rw [flatMap_cons, flatten_append, ih, (toChunks_spec targetRows s).1,
          flatten_cons]
    rw [splitBySegmentationAndSize, hflat, flatten_splitBy]
  · intro h
    obtain ⟨s, -, hs⟩ := mem_flatMap.mp h
    exact (toChunks_spec targetRows s).2 hs

end FlureeDb.Index
