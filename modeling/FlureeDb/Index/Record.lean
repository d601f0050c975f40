import FlureeDb.Lib.LexKey

/-!
Facts and operations of the binary index in integer ids, and the four orders an index is
kept in. An order compares all five columns of a fact's identity; `t` is data and is not
compared. So two records are equal in an order exactly if they are of one fact.
-/

namespace FlureeDb.Index

open Lib

abbrev U16 := Fin (2 ^ 16)
abbrev U32 := Fin (2 ^ 32)
abbrev U64 := Fin (2 ^ 64)

/-- `o_i` of a value that is in no list. -/
def listIndexNone : U32 := 4294967295

structure FactKeyV3 where
  sId : U64
  pId : U32
  oType : U16
  oKey : U64
  oI : U32
deriving DecidableEq, Repr

/-- A row of a leaflet: what a `ColumnBatch` holds at one index. -/
@[ext]
structure Row where
  key : FactKeyV3
  t : U32
deriving DecidableEq, Repr

/-- `RunRecordV2`: a row with its graph. The graph is not written to leaves. -/
structure RunRecordV2 extends Row where
  gId : U16
deriving DecidableEq, Repr

/-- `HistEntryV2`: an entry of a leaflet's history segment. The operation is an assert or a
retract. -/
structure HistEntryV2 where
  key : FactKeyV3
  t : U32
  op : Bool
deriving DecidableEq, Repr

/-- `OverlayOp`: an operation from novelty that is laid over the index when it is read. -/
structure OverlayOp where
  key : FactKeyV3
  t : ℤ
  op : Bool
deriving DecidableEq, Repr

inductive RunSortOrder
  | spot
  | psot
  | post
  | opst
deriving DecidableEq, Repr

inductive Column
  | sId
  | pId
  | oType
  | oKey
  | oI
deriving DecidableEq, Repr

namespace Column

/-- Bytes of the column in a routing key. -/
def width : Column → ℕ
  | sId => 8
  | pId => 4
  | oType => 2
  | oKey => 8
  | oI => 4

end Column

namespace FactKeyV3

def column (key : FactKeyV3) : Column → ℕ
  | .sId => key.sId
  | .pId => key.pId
  | .oType => key.oType
  | .oKey => key.oKey
  | .oI => key.oI

theorem column_lt (key : FactKeyV3) (c : Column) : key.column c < 256 ^ c.width := by
  cases c with
  | sId => exact key.sId.isLt
  | pId => exact key.pId.isLt
  | oType => exact key.oType.isLt
  | oKey => exact key.oKey.isLt
  | oI => exact key.oI.isLt

end FactKeyV3

namespace RunSortOrder

/-- The columns in the order they are compared. -/
def columns : RunSortOrder → List Column
  | spot => [.sId, .pId, .oType, .oKey, .oI]
  | psot => [.pId, .sId, .oType, .oKey, .oI]
  | post => [.pId, .oType, .oKey, .oI, .sId]
  | opst => [.oType, .oKey, .oI, .pId, .sId]

theorem mem_columns (order : RunSortOrder) (c : Column) : c ∈ order.columns := by
  cases order <;> cases c <;> decide

end RunSortOrder

/-- A fact's place in an order. -/
def FactKeyV3.sortKey (order : RunSortOrder) (key : FactKeyV3) : List ℕ :=
  order.columns.map key.column

variable {order : RunSortOrder} {a b : FactKeyV3}

theorem FactKeyV3.sortKey_inj : a.sortKey order = b.sortKey order ↔ a = b := by
  refine ⟨fun h => ?_, fun h => h ▸ rfl⟩
  have hcolumn : ∀ c, a.column c = b.column c :=
    fun c => List.map_inj_left.mp h c (order.mem_columns c)
  cases a
  cases b
  simp only [mk.injEq]
  exact ⟨Fin.ext (hcolumn .sId), Fin.ext (hcolumn .pId), Fin.ext (hcolumn .oType),
    Fin.ext (hcolumn .oKey), Fin.ext (hcolumn .oI)⟩

/-- `cmp_v2_for_order`. The comparators of rows with records, of rows with overlay
operations and of overlay operations with records are this one on their keys. -/
def cmpV2ForOrder (order : RunSortOrder) (a b : FactKeyV3) : Ordering :=
  cmpColumns (a.sortKey order) (b.sortKey order)

theorem cmpV2_compares (order : RunSortOrder) (a b : FactKeyV3) :
    (cmpV2ForOrder order a b).Compares (a.sortKey order) (b.sortKey order) :=
  cmpColumns_compares _ _

theorem cmpV2_lt : cmpV2ForOrder order a b = .lt ↔ a.sortKey order < b.sortKey order :=
  (cmpV2_compares order a b).eq_lt

theorem cmpV2_gt : cmpV2ForOrder order a b = .gt ↔ b.sortKey order < a.sortKey order :=
  (cmpV2_compares order a b).eq_gt

theorem cmpV2_ne_gt : cmpV2ForOrder order a b ≠ .gt ↔ a.sortKey order ≤ b.sortKey order :=
  (cmpV2_compares order a b).ne_gt

theorem cmpV2_isLE : (cmpV2ForOrder order a b).isLE = true ↔ a.sortKey order ≤ b.sortKey order :=
  isLE_iff_le (cmpV2_compares order a b)

/-- `write_ordered_key_v2`: the columns big-endian, in the order they are compared. -/
def writeOrderedKeyV2 (order : RunSortOrder) (key : FactKeyV3) : List ℕ :=
  order.columns.flatMap fun c => beBytes c.width (key.column c)

def cmpOrderedKeyV2 (a b : List ℕ) : Ordering := cmpColumns a b

theorem cmpOrderedKeyV2_write (order : RunSortOrder) (a b : FactKeyV3) :
    cmpOrderedKeyV2 (writeOrderedKeyV2 order a) (writeOrderedKeyV2 order b) =
      cmpV2ForOrder order a b :=
  cmpColumns_flatMap_beBytes Column.width a.column b.column
    (fun c _ => a.column_lt c) (fun c _ => b.column_lt c)

end FlureeDb.Index
