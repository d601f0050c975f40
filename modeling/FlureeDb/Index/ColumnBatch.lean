import FlureeDb.Index.Scan
import FlureeDb.Index.NoveltyMerge

/-!
The search in the columns of a leaflet. A column is stored, or constant, or missing with a
default. The columns that lead the order are searched one after the other, each within the
range that the one before has left. A column that is not bound or is missing ends the search.
Whatever the columns are, the rows that match come out as from a scan of all rows.
-/

namespace FlureeDb.Index

open Lib List
open BinaryFilter (SortedOn)

inductive ColumnData (α : Type)
  | block (arr : List α)
  | const (v : α)
  | absentDefault

namespace ColumnData

variable {α : Type}

/-- `get_or`, and `get` where there is no default. Without a value the read panics. -/
def get (default : Option α) (i : ℕ) : ColumnData α → Option α
  | block arr => arr[i]?
  | const v => some v
  | absentDefault => default

def map {β : Type} (f : α → β) : ColumnData α → ColumnData β
  | block arr => block (arr.map f)
  | const v => const (f v)
  | absentDefault => absentDefault

/-- `gather_column`. -/
def gather (indices : List ℕ) : ColumnData α → Option (ColumnData α)
  | block arr => (indices.mapM fun i => arr[i]?).map block
  | const v => some (const v)
  | absentDefault => some absentDefault

theorem get_map {β : Type} (col : ColumnData α) (f : α → β) (d : Option α) (i : ℕ) :
    (col.map f).get (d.map f) i = (col.get d i).map f := by
  cases col with
  | block => exact getElem?_map
  | const | absentDefault => rfl

/-- Gathered values stand where the rows stand that they are of. -/
theorem gather_spec {β : Type} {At : ℕ → β → Prop} {indices : List ℕ} {rows : List β}
    (h : List.Forall₂ At indices rows) {col : ColumnData α} {d : Option α} {val : β → α}
    (hval : ∀ i row, At i row → col.get d i = some (val row)) :
    ∃ col', col.gather indices = some col' ∧
      ∀ j row, rows[j]? = some row → col'.get d j = some (val row) := by
  have hvals : indices.map (col.get d) = (rows.map val).map some := by
    rw [← forall₂_eq_eq_eq, forall₂_map_left_iff, forall₂_map_right_iff, forall₂_map_right_iff]
    exact h.imp hval
  cases col with
  | block arr =>
    refine ⟨block (rows.map val), congrArg (Option.map block) (mapM_eq_some hvals), fun j row hj => ?_⟩
    rw [get, getElem?_map, hj, Option.map_some]
  | const | absentDefault =>
    refine ⟨_, rfl, fun j row hj => ?_⟩
    have hmem := mem_map_of_mem (f := some) (mem_map_of_mem (f := val) (mem_of_getElem? hj))
    rw [← hvals] at hmem
    obtain ⟨i, -, hi⟩ := mem_map.mp hmem
    exact hi

end ColumnData

structure ColumnBatch where
  rowCount : ℕ
  sId : ColumnData U64
  oKey : ColumnData U64
  pId : ColumnData U32
  oType : ColumnData U16
  oI : ColumnData U32
  t : ColumnData U32

inductive Cascade
  | narrowed (range : ℕ × ℕ)
  | stop (range : ℕ × ℕ)

/-- The slice panics unless the range is one of the block. -/
def cascade (range : ℕ × ℕ) (col : ColumnData ℕ) (bound : Option ℕ) : Option Cascade :=
  match bound, col with
  | none, _ => some (.stop range)
  | some v, .block arr =>
    if range.1 ≤ range.2 ∧ range.2 ≤ arr.length then
      let window := (arr.take range.2).drop range.1
      some (.narrowed (range.1 + partitionPoint (· < v) window,
        range.1 + partitionPoint (· ≤ v) window))
    else none
  | some v, .const c => some (.narrowed (if c = v then range else (range.1, range.1)))
  | some _, .absentDefault => some (.stop range)

namespace ColumnBatch

variable (batch : ColumnBatch)

def column : Column → ColumnData ℕ
  | .sId => batch.sId.map Fin.val
  | .pId => batch.pId.map Fin.val
  | .oType => batch.oType.map Fin.val
  | .oKey => batch.oKey.map Fin.val
  | .oI => batch.oI.map Fin.val

def leadingBoundRange (filter : BinaryFilter) (batch : ColumnBatch) :
    List Column → ℕ × ℕ → Option (ℕ × ℕ)
  | [], range => some range
  | c :: cs, range =>
    match cascade range (batch.column c) (filter.boundValue c) with
    | none => none
    | some (.narrowed range) => leadingBoundRange filter batch cs range
    | some (.stop range) => some range

def key (i : ℕ) : Option FactKeyV3 := do
  let sId ← batch.sId.get none i
  let oKey ← batch.oKey.get none i
  let pId ← batch.pId.get (some 0) i
  let oType ← batch.oType.get (some 0) i
  let oI ← batch.oI.get (some listIndexNone) i
  some ⟨sId, pId, oType, oKey, oI⟩

def gatherBatch (src : ColumnBatch) (indices : List ℕ) : Option ColumnBatch := do
  let sId ← src.sId.gather indices
  let oKey ← src.oKey.gather indices
  let pId ← src.pId.gather indices
  let oType ← src.oType.gather indices
  let oI ← src.oI.gather indices
  let t ← src.t.gather indices
  some { rowCount := indices.length, sId, oKey, pId, oType, oI, t }

def filterBatch (filter : BinaryFilter) (order : RunSortOrder) (batch : ColumnBatch) :
    Option ColumnBatch := do
  let (start, stop) ← batch.leadingBoundRange filter (BinaryFilter.seekColumns order)
    (0, batch.rowCount)
  let found ← (range' start (stop - start)).mapM fun i =>
    (batch.key i).map fun key => if filter.matchesKey key then some i else none
  let matching := found.filterMap id
  if matching.length = batch.rowCount then some batch else batch.gatherBatch matching

/-! ### The rows of a batch -/

/-- The row that readers find at an index. -/
structure RowAt (batch : ColumnBatch) (i : ℕ) (row : Row) : Prop where
  sId : batch.sId.get none i = some row.key.sId
  oKey : batch.oKey.get none i = some row.key.oKey
  pId : batch.pId.get (some 0) i = some row.key.pId
  oType : batch.oType.get (some 0) i = some row.key.oType
  oI : batch.oI.get (some listIndexNone) i = some row.key.oI
  t : batch.t.get (some 0) i = some row.t

def Holds (rows : List Row) : Prop :=
  batch.rowCount = rows.length ∧ ∀ i row, rows[i]? = some row → batch.RowAt i row

variable {batch} {rows : List Row}

theorem RowAt.key_eq {i : ℕ} {row : Row} (h : batch.RowAt i row) : batch.key i = some row.key := by
  simp only [key, h.sId, h.oKey, h.pId, h.oType, h.oI]
  rfl

theorem RowAt.column {i : ℕ} {row : Row} (h : batch.RowAt i row) (c : Column) :
    ∃ d, (batch.column c).get d i = some (row.key.column c) := by
  cases c with
  | sId => exact ⟨_, by rw [ColumnBatch.column, ColumnData.get_map, h.sId]; rfl⟩
  | oKey => exact ⟨_, by rw [ColumnBatch.column, ColumnData.get_map, h.oKey]; rfl⟩
  | pId => exact ⟨_, by rw [ColumnBatch.column, ColumnData.get_map, h.pId]; rfl⟩
  | oType => exact ⟨_, by rw [ColumnBatch.column, ColumnData.get_map, h.oType]; rfl⟩
  | oI => exact ⟨_, by rw [ColumnBatch.column, ColumnData.get_map, h.oI]; rfl⟩

theorem gatherBatch_holds {indices : List ℕ} (h : List.Forall₂ batch.RowAt indices rows) :
    ∃ out, batch.gatherBatch indices = some out ∧ out.Holds rows := by
  obtain ⟨sId, hs, hs'⟩ := ColumnData.gather_spec h fun _ _ => RowAt.sId
  obtain ⟨oKey, hk, hk'⟩ := ColumnData.gather_spec h fun _ _ => RowAt.oKey
  obtain ⟨pId, hp, hp'⟩ := ColumnData.gather_spec h fun _ _ => RowAt.pId
  obtain ⟨oType, ho, ho'⟩ := ColumnData.gather_spec h fun _ _ => RowAt.oType
  obtain ⟨oI, hi, hi'⟩ := ColumnData.gather_spec h fun _ _ => RowAt.oI
  obtain ⟨t, ht, ht'⟩ := ColumnData.gather_spec h fun _ _ => RowAt.t
  refine ⟨_, by simp only [gatherBatch, hs, hk, hp, ho, hi, ht]; rfl, h.length_eq, ?_⟩
  intro j row hj
  exact ⟨hs' j row hj, hk' j row hj, hp' j row hj, ho' j row hj, hi' j row hj, ht' j row hj⟩

/-- A column that is searched leaves the rows with the bound value. -/
theorem cascade_spec (h : batch.Holds rows) {lo hi : ℕ} (hlo : lo ≤ hi) (hhi : hi ≤ rows.length)
    {c : Column} {cols : List Column}
    (hsorted : SortedOn Row.key (c :: cols) ((rows.take hi).drop lo)) (v : ℕ) :
    cascade (lo, hi) (batch.column c) (some v) = some (.stop (lo, hi)) ∨
      ∃ lo' hi', cascade (lo, hi) (batch.column c) (some v) = some (.narrowed (lo', hi')) ∧
        lo' ≤ hi' ∧ hi' ≤ rows.length ∧ (rows.take hi').drop lo' =
          ((rows.take hi).drop lo).filter fun row => row.key.column c = v := by
  have hget : ∀ i row, rows[i]? = some row →
      ∃ d, (batch.column c).get d i = some (row.key.column c) :=
    fun i row hi => (h.2 i row hi).column c
  cases hcol : batch.column c with
  | absentDefault => exact .inl rfl
  | const w =>
    simp only [hcol, ColumnData.get, Option.some.injEq, exists_const] at hget
    have hall : ∀ row ∈ (rows.take hi).drop lo, w = row.key.column c := by
      intro row hrow
      obtain ⟨i, hi⟩ := getElem?_of_mem (mem_of_mem_take (mem_of_mem_drop hrow))
      exact hget i row hi
    refine .inr ?_
    by_cases hv : w = v
    · refine ⟨lo, hi, by simp [cascade, hv], hlo, hhi, (filter_eq_self.mpr ?_).symm⟩
      intro row hrow
      rw [← hall row hrow, decide_eq_true hv]
    · refine ⟨lo, lo, by simp [cascade, hv], le_rfl, hlo.trans hhi, ?_⟩
      rw [drop_of_length_le (length_take_le lo rows), eq_comm, filter_eq_nil_iff]
      intro row hrow
      rw [← hall row hrow, decide_eq_false hv]
      exact Bool.false_ne_true
  | block arr =>
    simp only [hcol, ColumnData.get, exists_const] at hget
    have harr : arr.take rows.length = rows.map fun row => row.key.column c := by
      refine ext_getElem? fun i => ?_
      rw [getElem?_take, getElem?_map]
      cases hi : rows[i]? with
      | none => exact if_neg (by simpa using hi)
      | some row => rw [if_pos (List.getElem?_eq_some_iff.mp hi).1, hget i row hi, Option.map_some]
    have hlength : hi ≤ arr.length := by
      have hle := congrArg length harr
      rw [length_take, length_map] at hle
      omega
    have hwindow : (arr.take hi).drop lo =
        ((rows.take hi).drop lo).map fun row => row.key.column c := by
      rw [map_drop, map_take, ← harr, take_take, min_eq_left hhi]
    have hpoint : ∀ p : ℕ → Bool, partitionPoint p ((arr.take hi).drop lo) =
        partitionPoint (fun row => p (row.key.column c)) ((rows.take hi).drop lo) := by
      intro p
      rw [hwindow, partitionPoint, takeWhile_map, length_map]
      rfl
    have hnarrow := hsorted.narrow v
    have hle : partitionPoint (fun row => row.key.column c ≤ v) ((rows.take hi).drop lo) ≤ _ :=
      (takeWhile_sublist _).length_le
    rw [length_drop, length_take] at hle
    refine .inr ⟨_, _, by simp [cascade, hlo, hlength, hpoint]; exact ⟨rfl, rfl⟩, ?_, ?_, ?_⟩
    · exact Nat.add_le_add_left (partitionPoint_mono (by simp; omega) _) lo
    · omega
    · rw [← hnarrow, take_drop, take_take, drop_drop, min_eq_left (by omega)]

theorem leadingBoundRange_spec (h : batch.Holds rows) (filter : BinaryFilter)
    {cols rest : List Column} {lo hi : ℕ} (hlo : lo ≤ hi) (hhi : hi ≤ rows.length)
    (hsorted : SortedOn Row.key (cols ++ rest) ((rows.take hi).drop lo)) :
    ∃ lo' hi', batch.leadingBoundRange filter cols (lo, hi) = some (lo', hi') ∧
      lo' ≤ hi' ∧ hi' ≤ rows.length ∧
      ((rows.take hi').drop lo').filter (fun row => filter.matchesKey row.key) =
        ((rows.take hi).drop lo).filter fun row => filter.matchesKey row.key := by
  induction cols generalizing lo hi with
  | nil => exact ⟨lo, hi, rfl, hlo, hhi, rfl⟩
  | cons c cols ih =>
    unfold leadingBoundRange
    cases hbound : filter.boundValue c with
    | none => exact ⟨lo, hi, rfl, hlo, hhi, rfl⟩
    | some v =>
      rcases cascade_spec h hlo hhi hsorted v with hstop | ⟨lo₁, hi₁, hnarrow, hlo₁, hhi₁, hrows⟩
      · rw [hstop]
        exact ⟨lo, hi, rfl, hlo, hhi, rfl⟩
      · rw [hnarrow]
        obtain ⟨lo', hi', hrange, hlo', hhi', hkept⟩ :=
          ih hlo₁ hhi₁ (by rw [hrows]; exact hsorted.behind v)
        refine ⟨lo', hi', hrange, hlo', hhi', ?_⟩
        rw [hkept, hrows, filter.filter_column hbound]

/-- The loop over the range finds the indices of the rows that match. -/
theorem matching_spec {filter : BinaryFilter} {indices : List ℕ}
    (h : List.Forall₂ batch.RowAt indices rows) :
    ∃ found, (indices.mapM fun i => (batch.key i).map fun key =>
        if filter.matchesKey key then some i else none) = some found ∧
      List.Forall₂ batch.RowAt (found.filterMap id)
        (rows.filter fun row => filter.matchesKey row.key) := by
  induction h with
  | nil => exact ⟨[], rfl, .nil⟩
  | @cons i row indices rows hrow _ ih =>
    obtain ⟨found, hfound, hall⟩ := ih
    refine ⟨(if filter.matchesKey row.key then some i else none) :: found, ?_, ?_⟩
    · rw [mapM_cons, hrow.key_eq, hfound]
      rfl
    · cases hmatch : filter.matchesKey row.key with
      | false => simpa [hmatch] using hall
      | true => simpa [hmatch] using ⟨hrow, hall⟩

theorem Holds.filterBatch_holds (h : batch.Holds rows) (filter : BinaryFilter) {order : RunSortOrder}
    (hsorted : SortedOn Row.key order.columns rows) :
    ∃ out, batch.filterBatch filter order = some out ∧
      out.Holds (rows.filter fun row => filter.matchesKey row.key) := by
  obtain ⟨rest, hrest⟩ := BinaryFilter.exists_seekColumns order
  obtain ⟨lo, hi, hrange, hlo, hhi, hkept⟩ := @leadingBoundRange_spec _ _ h filter
    (BinaryFilter.seekColumns order) rest 0 rows.length (Nat.zero_le _) le_rfl
    (by rw [take_length, ← hrest]; exact hsorted)
  rw [take_length, drop_zero] at hkept
  have hwindow : Forall₂ batch.RowAt (range' lo (hi - lo)) ((rows.take hi).drop lo) := by
    refine forall₂_iff_get.mpr ⟨by simp [hhi], fun i hi₁ hi₂ => h.2 _ _ ?_⟩
    simp
  obtain ⟨found, hfound, hall⟩ := @matching_spec _ _ filter _ hwindow
  rw [hkept] at hall
  have hfilter : batch.filterBatch filter order =
      if (found.filterMap id).length = batch.rowCount then some batch
      else batch.gatherBatch (found.filterMap id) := by
    simp only [filterBatch, h.1, hrange, hfound, Option.bind_eq_bind, Option.bind_some]
  rw [hfilter, hall.length_eq, h.1]
  split
  next hfull =>
    rw [filter_sublist.eq_of_length hfull]
    exact ⟨batch, rfl, h⟩
  · exact gatherBatch_holds hall

end ColumnBatch

/-- Neither the search in a leaflet nor passing over it loses a row that matches, and no other
row comes out. -/
theorem leaflet_search_exact (order : RunSortOrder) (filter : BinaryFilter) :
    (∀ (batch : ColumnBatch) (rows : List Row), batch.Holds rows →
      rows.Pairwise (fun a b => a.key.sortKey order ≤ b.key.sortKey order) →
        ∃ out, batch.filterBatch filter order = some out ∧
          out.Holds (rows.filter fun row => filter.matchesKey row.key)) ∧
      ∀ (rows : List Row) (firstKey lastKey : FactKeyV3) (pConst : Option U32)
        (oTypeConst : Option U16),
        (∀ row ∈ rows, firstKey.sortKey order ≤ row.key.sortKey order ∧
          row.key.sortKey order ≤ lastKey.sortKey order) →
        (∀ p ∈ pConst, ∀ row ∈ rows, row.key.pId = p) →
        (∀ o ∈ oTypeConst, ∀ row ∈ rows, row.key.oType = o) →
        filter.skipLeaflet pConst oTypeConst = true ∨
          filter.leafletOutOfRange order firstKey lastKey = true →
        ∀ row ∈ rows, filter.matchesKey row.key = false := by
  refine ⟨fun batch rows h hsorted => h.filterBatch_holds filter hsorted, ?_⟩
  intro rows firstKey lastKey pConst oTypeConst hbetween hp ho hpass row hrow
  rcases hpass with hskip | hout
  · have hnone := filter_eq_nil_iff.mp (filter.filter_eq_nil_of_skip hp ho hskip) row hrow
    exact Bool.eq_false_iff.mpr hnone
  · rw [BinaryFilter.leafletOutOfRange, Bool.and_eq_true] at hout
    exact filter.not_matches_of_outOfRange (hbetween row hrow).1 (hbetween row hrow).2 hout.2

namespace Sample

def columns : ColumnBatch where
  rowCount := 2
  sId := .const 7
  oKey := .block [0, 0]
  pId := .block [1, 2]
  oType := .const 1
  oI := .absentDefault
  t := .block [1, 3]

theorem columns_hold : columns.Holds [⟨key 7 1, 1⟩, ⟨key 7 2, 3⟩] := by
  refine ⟨rfl, fun i row h => ?_⟩
  match i, h with
  | 0, rfl | 1, rfl => exact ⟨rfl, rfl, rfl, rfl, rfl, rfl⟩

end Sample

theorem searched_by_predicate :
    (∃ out, Sample.columns.filterBatch ⟨some 7, some 2, none, none, none⟩ .spot = some out ∧
      out.Holds [⟨Sample.key 7 2, 3⟩]) ∧
      BinaryFilter.matchesKey ⟨none, some 1, none, none, none⟩ (Sample.key 7 2) = false :=
  ⟨(leaflet_search_exact .spot ⟨some 7, some 2, none, none, none⟩).1 _ _ Sample.columns_hold
      (by decide),
    (leaflet_search_exact .spot ⟨none, some 1, none, none, none⟩).2 [⟨Sample.key 7 2, 3⟩]
      (Sample.key 7 2) (Sample.key 7 2) (some 2) none (by simp) (by simp [Sample.key]) (by simp)
      (by decide) _ mem_cons_self⟩

end FlureeDb.Index
