import FlureeDb.Index.Replay

/-!
The cursor that reads a range of a branch, leaflet by leaflet, with an overlay of operations
laid over the rows. Leaflets and rows that cannot match the filter are passed over. The
overlay is an array with a window; the cursor takes from the window what belongs to a leaf
and from that what belongs to a leaflet. What is left of the window when all leaves are read
comes last.
-/

namespace FlureeDb.Index

open Lib

structure BinaryFilter where
  sId : Option U64
  pId : Option U32
  oType : Option U16
  oKey : Option U64
  oI : Option U32
deriving DecidableEq, Repr

namespace BinaryFilter

variable (filter : BinaryFilter)

def isEmpty : Bool :=
  filter.sId.isNone && filter.pId.isNone && filter.oType.isNone && filter.oKey.isNone &&
    filter.oI.isNone

def matchesKey (key : FactKeyV3) : Bool :=
  (filter.sId.all fun f => key.sId = f) && (filter.pId.all fun f => key.pId = f) &&
    (filter.oType.all fun f => key.oType = f) && (filter.oKey.all fun f => key.oKey = f) &&
      filter.oI.all fun f => key.oI = f

/-- The leaflet's constants tell that no row matches. -/
def skipLeaflet (pConst : Option U32) (oTypeConst : Option U16) : Bool :=
  (filter.pId.any fun p => pConst.any fun p' => p ≠ p') ||
    filter.oType.any fun o => oTypeConst.any fun o' => o ≠ o'

def boundValue : Column → Option ℕ
  | .sId => filter.sId.map Fin.val
  | .pId => filter.pId.map Fin.val
  | .oType => filter.oType.map Fin.val
  | .oKey => filter.oKey.map Fin.val
  | .oI => filter.oI.map Fin.val

/-- The loop of `leaflet_out_of_range` over the columns. -/
def outOfRange (filter : BinaryFilter) (first last : FactKeyV3) : List Column → Bool
  | [] => false
  | c :: cs =>
    match filter.boundValue c with
    | none =>
      if first.column c ≠ last.column c then false else filter.outOfRange first last cs
    | some v =>
      if v < first.column c ∨ last.column c < v then true
      else if first.column c ≠ last.column c then false
      else filter.outOfRange first last cs

def leafletOutOfRange (order : RunSortOrder) (first last : FactKeyV3) : Bool :=
  (order.columns.head?.any fun c => (filter.boundValue c).isSome) &&
    filter.outOfRange first last order.columns

/-- The columns that a leaflet is searched by. -/
def seekColumns : RunSortOrder → List Column
  | .spot => [.sId, .pId, .oType, .oKey]
  | .psot => [.pId, .sId, .oType, .oKey]
  | .post => [.pId, .oType, .oKey]
  | .opst => [.oType, .oKey]

/-- `leading_bound_range`: the rows are narrowed by a binary search for each leading column
that is bound. -/
def leadingBoundRange (filter : BinaryFilter) : List Column → List Row → List Row
  | [], rows => rows
  | c :: cs, rows =>
    match filter.boundValue c with
    | none => rows
    | some v =>
      filter.leadingBoundRange cs
        ((rows.take (partitionPoint (fun row => row.key.column c ≤ v) rows)).drop
          (partitionPoint (fun row => row.key.column c < v) rows))

def filterBatch (order : RunSortOrder) (rows : List Row) : List Row :=
  (filter.leadingBoundRange (seekColumns order) rows).filter fun row => filter.matchesKey row.key

end BinaryFilter

/-! ### The cursor -/

/-- `push_overlay_row`: the row of an operation. A `t` that does not fit is clamped. -/
def OverlayOp.row (o : OverlayOp) : Row :=
  ⟨o.key, ⟨min (max o.t 0).toNat (2 ^ 32 - 1), by omega⟩⟩

/-- The cursor. Of the branch it has the leaves that are not opened yet, of the open leaf the
leaflets that are not read yet. Of the overlay array it has what it has not consumed: what
belongs to the open leaf, the rest of the window, and what lies behind the window. -/
structure BinaryCursor where
  order : RunSortOrder
  filter : BinaryFilter
  rangeMin : Option FactKeyV3
  rangeMax : Option FactKeyV3
  /-- the `t` of the index -/
  maxT : ℤ
  toT : ℤ
  /-- the leaves of the branch from `current_leaf_idx` on -/
  ahead : List Leaf
  /-- how many of them are in the range -/
  toOpen : ℕ
  /-- no leaf was opened yet -/
  atFirst : Bool
  currentLeaf : Option (List Leaflet)
  exhausted : Bool
  /-- from `overlay_pos` to `leaf_overlay_end` -/
  leafOps : List OverlayOp
  /-- from `leaf_overlay_end` to `overlay_end` -/
  laterOps : List OverlayOp
  /-- from `overlay_end` on -/
  beyondOps : List OverlayOp

def findLeavesInRange (order : RunSortOrder) (leaves : List Leaf) (minKey maxKey : FactKeyV3) :
    ℕ × ℕ :=
  (partitionPoint (fun leaf => cmpV2ForOrder order leaf.lastKey minKey == .lt) leaves,
    partitionPoint (fun leaf => cmpV2ForOrder order leaf.firstKey maxKey != .gt) leaves)

/-- `compute_overlay_window`: what belongs to a leaf. What lies before the first leaf belongs
to it. -/
def computeOverlayWindow (order : RunSortOrder) (ops : List OverlayOp) (leafFirstKey : FactKeyV3)
    (nextLeafFirstKey : Option FactKeyV3) (isFirstLeaf : Bool) : ℕ × ℕ :=
  if ops.isEmpty then (0, 0)
  else
    (if isFirstLeaf then 0
      else partitionPoint (fun o => cmpV2ForOrder order o.key leafFirstKey == .lt) ops,
     match nextLeafFirstKey with
      | some nextKey => partitionPoint (fun o => cmpV2ForOrder order o.key nextKey == .lt) ops
      | none => ops.length)

namespace BinaryCursor

def new (order : RunSortOrder) (leaves : List Leaf) (minKey maxKey : FactKeyV3)
    (filter : BinaryFilter) (maxT : ℤ) : BinaryCursor :=
  let leafRange := findLeavesInRange order leaves minKey maxKey
  { order, filter, maxT
    rangeMin := some minKey
    rangeMax := some maxKey
    toT := 2 ^ 63 - 1
    ahead := leaves.drop leafRange.1
    toOpen := leafRange.2 - leafRange.1
    atFirst := true
    currentLeaf := none
    exhausted := false
    leafOps := []
    laterOps := []
    beyondOps := [] }

def scanAll (order : RunSortOrder) (leaves : List Leaf) (filter : BinaryFilter) (maxT : ℤ) :
    BinaryCursor where
  order := order
  filter := filter
  rangeMin := none
  rangeMax := none
  maxT := maxT
  toT := 2 ^ 63 - 1
  ahead := leaves
  toOpen := leaves.length
  atFirst := true
  currentLeaf := none
  exhausted := false
  leafOps := []
  laterOps := []
  beyondOps := []

variable (c : BinaryCursor)

def setOverlayOpsWindow (ops : List OverlayOp) (start stop : ℕ) : BinaryCursor :=
  { c with leafOps := (ops.take stop).drop start, laterOps := [], beyondOps := ops.drop stop }

def setToT (toT : ℤ) : BinaryCursor := { c with toT }

def needReplay : Bool := c.toT < c.maxT

/-- `to_t` as the history has it. A `t` that does not fit counts as the greatest. -/
def toTU32 : ℕ :=
  if 0 ≤ c.toT ∧ c.toT < 2 ^ 32 then c.toT.toNat else 2 ^ 32 - 1

def sliceOverlayForLeaf (leaf : Leaf) (next : Option Leaf) : BinaryCursor :=
  let ops := c.leafOps ++ c.laterOps
  let window := computeOverlayWindow c.order ops leaf.firstKey (next.map Leaf.firstKey) c.atFirst
  { c with leafOps := (ops.drop window.1).take (window.2 - window.1), laterOps := ops.drop window.2 }

/-- An operation puts out a row if it is an assert up to `to_t` that matches the filter. -/
def emits (o : OverlayOp) : Bool :=
  o.op && o.t ≤ c.toT && c.filter.matchesKey o.key

def pushMerged : Joined Row OverlayOp → List Row
  | .left row => [row]
  | .right o => if c.emits o then [o.row] else []
  | .both _ o => if c.emits o then [o.row] else []

/-- `merge_overlay_into_batch`: the merged rows and the operations that are left. Equal in the
order is the same fact, so that a tie of two facts does not occur. -/
def mergeOverlayIntoBatch (rows : List Row) (ops : List OverlayOp)
    (leafletLastKey : FactKeyV3) : List Row × List OverlayOp :=
  let walk := mergeJoin (fun row o => cmpV2ForOrder c.order row.key o.key)
    (fun o => cmpV2ForOrder c.order o.key leafletLastKey != .gt) rows ops
  (walk.1.flatMap c.pushMerged, walk.2)

def emitOverlayOnly : List Row :=
  ((c.leafOps ++ c.laterOps ++ c.beyondOps).filter c.emits).map OverlayOp.row

end BinaryCursor

def Leaflet.historyMaxT (leaflet : Leaflet) : ℕ := (leaflet.history.map fun e => e.t.val).foldr max 0

namespace BinaryCursor

variable (sort : UnstableSort)

variable (c : BinaryCursor)

def replayBatch (leaflet : Leaflet) : List Row :=
  if c.toTU32 < leaflet.historyMaxT || leaflet.rows.any fun row => c.toTU32 < row.t then
    replayed leaflet.rows leaflet.history sort c.order c.toT
  else leaflet.rows

/-- What `next_batch` does with a leaflet: the rows of the batch and the operations that are
left. There is no batch if the leaflet ends the leaf, and no row if it is passed over. -/
def visitLeaflet (leaflet : Leaflet) (ops : List OverlayOp) : Option (List Row × List OverlayOp) :=
  let hasOv := ops.head?.any fun o => cmpV2ForOrder c.order o.key leaflet.lastKey != .gt
  let needsHistoryReplay :=
    c.needReplay && !leaflet.history.isEmpty && decide (c.toTU32 < leaflet.historyMaxT)
  if !hasOv && !c.needReplay &&
      c.rangeMax.any fun maxKey => cmpV2ForOrder c.order leaflet.firstKey maxKey == .gt then none
  else if !hasOv && c.filter.skipLeaflet leaflet.pConst leaflet.oTypeConst then some ([], ops)
  else if leaflet.rows.isEmpty && !hasOv && !needsHistoryReplay then some ([], ops)
  else if !hasOv && !needsHistoryReplay &&
      c.filter.leafletOutOfRange c.order leaflet.firstKey leaflet.lastKey then some ([], ops)
  else
    let batch := if c.needReplay then c.replayBatch sort leaflet else leaflet.rows
    let batch := if c.filter.isEmpty || batch.isEmpty then batch
      else c.filter.filterBatch c.order batch
    if hasOv then some (c.mergeOverlayIntoBatch batch ops leaflet.lastKey) else some (batch, ops)

/-- The next batch of the open leaf, if there is one, with the leaflets and the operations that
are left. -/
def nextInLeaf (c : BinaryCursor) :
    List Leaflet → List OverlayOp → Option (List Row) × List Leaflet × List OverlayOp
  | [], ops => (none, [], ops)
  | leaflet :: leaflets, ops =>
    match c.visitLeaflet sort leaflet ops with
    | none => (none, [], ops)
    | some ([], ops) => c.nextInLeaf leaflets ops
    | some (row :: rows, ops) => (some (row :: rows), leaflets, ops)

/-- The leaflets of a leaf from the first that may be in the range on. -/
def seekLeaflets (leaf : Leaf) : List Leaflet :=
  if c.needReplay then leaf.leaflets
  else match c.rangeMin with
    | none => leaf.leaflets
    | some minKey => leaf.leaflets.drop
        (partitionPoint (fun e => cmpV2ForOrder c.order e.lastKey minKey == .lt) leaf.leaflets)

/-- The end of a scan: what is left of the overlay. -/
def finish : Option (List Row) × BinaryCursor :=
  if (c.leafOps ++ c.laterOps).isEmpty then (none, { c with exhausted := true })
  else
    (if c.emitOverlayOnly.isEmpty then none else some c.emitOverlayOnly,
      { c with exhausted := true, leafOps := [], laterOps := [], beyondOps := [] })

def openLeaf (leaf : Leaf) (rest : List Leaf) (toOpen : ℕ) : BinaryCursor :=
  let c := c.sliceOverlayForLeaf leaf rest.head?
  { c with ahead := rest, toOpen, atFirst := false, currentLeaf := some (c.seekLeaflets leaf) }

/-- The rest of `next_batch` when no leaf is open: leaves are opened until one has a batch. -/
def openLeaves : ℕ → BinaryCursor → Option (List Row) × BinaryCursor
  | 0, c => c.finish
  | n + 1, c =>
    match c.ahead with
    | [] => (none, c)
    | leaf :: rest =>
      let c := c.openLeaf leaf rest n
      match c.nextInLeaf sort (c.currentLeaf.getD []) c.leafOps with
      | (some batch, leaflets, ops) =>
        (some batch, { c with currentLeaf := some leaflets, leafOps := ops })
      | (none, _, ops) => openLeaves n { c with currentLeaf := none, leafOps := ops }

def nextBatch (c : BinaryCursor) : Option (List Row) × BinaryCursor :=
  if c.exhausted then (none, c)
  else match c.currentLeaf with
    | none => openLeaves sort c.toOpen c
    | some leaflets =>
      match c.nextInLeaf sort leaflets c.leafOps with
      | (some batch, leaflets, ops) =>
        (some batch, { c with currentLeaf := some leaflets, leafOps := ops })
      | (none, _, ops) => openLeaves sort c.toOpen { c with currentLeaf := none, leafOps := ops }

/-- Calling `next_batch` until there is no more gives these batches. -/
inductive Drains : BinaryCursor → List (List Row) → Prop
  | done {c : BinaryCursor} (h : (c.nextBatch sort).1 = none) : Drains c []
  | batch {c c' : BinaryCursor} {rows : List Row} {batches : List (List Row)}
      (h : c.nextBatch sort = (some rows, c')) (hrest : Drains c' batches) :
      Drains c (rows :: batches)

end BinaryCursor

end FlureeDb.Index
