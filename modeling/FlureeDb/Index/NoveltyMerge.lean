import FlureeDb.Index.Leaf
import FlureeDb.Lib.MergeJoin

/-!
The merge of sorted novelty into one leaflet: the rows of the new latest state, and the
history segment with what the novelty did put in front.
-/

namespace FlureeDb.Index

open Lib List

/-- A novelty record with its operation: an assert or a retract. The source keeps the two in
parallel arrays. -/
structure NoveltyOp extends RunRecordV2 where
  op : Bool
deriving DecidableEq, Repr

namespace NoveltyOp

def histEntry (n : NoveltyOp) : HistEntryV2 := ⟨n.key, n.t, n.op⟩

end NoveltyOp

def cmpBatchRowVsRecord (order : RunSortOrder) (row : Row) (n : NoveltyOp) : Ordering :=
  cmpV2ForOrder order row.key n.key

def mergeWalk (order : RunSortOrder) (rows : List Row) (novelty : List NoveltyOp) :
    List (Joined Row NoveltyOp) :=
  (mergeJoin (cmpBatchRowVsRecord order) (fun _ => true) rows novelty).1

/-- What a meeting puts out. An operation stands for its fact, whether there was a row or not. -/
def mergedRows : Joined Row NoveltyOp → List Row
  | .left row => [row]
  | .right n => if n.op then [n.toRow] else []
  | .both _ n => if n.op then [n.toRow] else []

/-- What a meeting notes in the history. An assert over a row is noted as a retract and an
assert at its own `t`; the row's `t` is not noted. -/
def mergedHistory : Joined Row NoveltyOp → List HistEntryV2
  | .left _ => []
  | .right n => [n.histEntry]
  | .both row n =>
    if n.op then [⟨row.key, n.t, false⟩, n.histEntry] else [n.histEntry]

def duplicateAsserts (a b : HistEntryV2) : Bool := a.key == b.key && a.op && b.op

/-- The rest of `dedup_adjacent_asserts` behind an entry that is kept. -/
def dedupBehind (kept : HistEntryV2) : List HistEntryV2 → List HistEntryV2
  | [] => []
  | e :: es => if duplicateAsserts kept e then dedupBehind kept es else e :: dedupBehind e es

def dedupAdjacentAsserts : List HistEntryV2 → List HistEntryV2
  | [] => []
  | e :: es => e :: dedupBehind e es

/-- Newest first, retracts before asserts. -/
def cmpHistory (a b : HistEntryV2) : Ordering := (compare b.t a.t).then (compare a.op b.op)

def assembleHistory (sort : UnstableSort) (newHistory existing : List HistEntryV2) :
    List HistEntryV2 :=
  let newHistory := dedupAdjacentAsserts (sort.sort cmpHistory newHistory)
  match newHistory.getLast?, existing with
  | some lastNew, firstOld :: rest =>
    if duplicateAsserts lastNew firstOld then
      if firstOld.t ≤ lastNew.t then newHistory ++ rest
      else newHistory.dropLast ++ firstOld :: rest
    else newHistory ++ firstOld :: rest
  | _, existing => newHistory ++ existing

structure MergeOutput where
  records : List Row
  history : List HistEntryV2

def mergeNovelty (sort : UnstableSort) (order : RunSortOrder) (rows : List Row)
    (existingHistory : List HistEntryV2) (novelty : List NoveltyOp) : MergeOutput where
  records := (mergeWalk order rows novelty).flatMap mergedRows
  history := assembleHistory sort ((mergeWalk order rows novelty).flatMap mergedHistory)
    existingHistory

section

variable {order : RunSortOrder} {rows : List Row} {novelty : List NoveltyOp}

/-- Novelty as it is handed to the merge: in order, several operations of one fact in any
order. -/
def NoveltySorted (order : RunSortOrder) (novelty : List NoveltyOp) : Prop :=
  novelty.Pairwise fun a b => a.key.sortKey order ≤ b.key.sortKey order

theorem cmpBatchRow_compares (row : Row) (n : NoveltyOp) :
    (cmpBatchRowVsRecord order row n).Compares (row.key.sortKey order) (n.key.sortKey order) :=
  cmpV2_compares order row.key n.key

/-- A row stays if no operation is of its fact; beside those, there is a row for every
assert. -/
theorem mem_mergedRows (hrows : RowsSorted order rows) (hnovelty : NoveltySorted order novelty)
    (row : Row) :
    row ∈ (mergeWalk order rows novelty).flatMap mergedRows ↔
      (row ∈ rows ∧ ∀ n ∈ novelty, n.key ≠ row.key) ∨
        ∃ n ∈ novelty, n.op = true ∧ n.toRow = row := by
  have hcmp := @cmpBatchRow_compares order
  have hops : (mergeWalk order rows novelty).flatMap Joined.ops = novelty :=
    mergeJoin_ops_all hcmp _ hnovelty
  have hleft : .left row ∈ mergeWalk order rows novelty ↔
      row ∈ rows ∧ ∀ n ∈ novelty, n.key ≠ row.key := by
    rw [mergeWalk, left_mem_mergeJoin _ hcmp hnovelty hrows]
    simp only [ne_eq, FactKeyV3.sortKey_inj]
  rw [← hleft, mem_flatMap]
  constructor
  · rintro ⟨e, he, hrow⟩
    cases e with
    | left =>
      rw [mem_singleton.mp hrow]
      exact .inl he
    | right n | both row' n =>
      refine .inr ⟨n, ?_, ?_⟩
      · rw [← hops]
        exact mem_flatMap.mpr ⟨_, he, mem_singleton_self n⟩
      · cases hop : n.op with
        | true => simpa [mergedRows, hop, eq_comm] using hrow
        | false => simp [mergedRows, hop] at hrow
  · rintro (he | ⟨n, hn, hop, rfl⟩)
    · exact ⟨_, he, mem_singleton_self row⟩
    · rw [← hops] at hn
      obtain ⟨e, he, hne⟩ := mem_flatMap.mp hn
      refine ⟨e, he, ?_⟩
      cases e with
      | left => cases hne
      | right | both =>
        obtain rfl := mem_singleton.mp hne
        simp [mergedRows, hop]

theorem mergedRows_sorted (hrows : RowsSorted order rows) (hnovelty : NoveltySorted order novelty)
    (hone : novelty.Pairwise fun a b => ¬(a.key = b.key ∧ a.op = true ∧ b.op = true)) :
    RowsSorted order ((mergeWalk order rows novelty).flatMap mergedRows) := by
  have hwalk := @mergeJoin_pairwise Row NoveltyOp (List ℕ) _ (cmpBatchRowVsRecord order)
    (fun _ => true) _ _ (@cmpBatchRow_compares order)
    (fun a b => a.key.sortKey order ≤ b.key.sortKey order ∧
      ¬(a.key = b.key ∧ a.op = true ∧ b.op = true)) (fun h => h.1) rows novelty hrows
    (hnovelty.and hone)
  have hkey : ∀ {e : Joined Row NoveltyOp} {row : Row}, row ∈ mergedRows e →
      row.key.sortKey order =
        e.key (fun row => row.key.sortKey order) (fun n => n.key.sortKey order) := by
    intro e row hrow
    cases e with
    | left => rw [mem_singleton.mp hrow]; rfl
    | right n | both row' n => cases hop : n.op <;> simp_all [mergedRows, Joined.key]
  have hasserted : ∀ {e : Joined Row NoveltyOp} {row : Row} {n : NoveltyOp}, row ∈ mergedRows e →
      n ∈ e.ops → n.op = true ∧ row = n.toRow := by
    intro e row n hrow hn
    cases e with
    | left => cases hn
    | right | both =>
      obtain rfl := mem_singleton.mp hn
      cases hop : n.op <;> simp_all [mergedRows]
  refine pairwise_flatMap.mpr ⟨fun e _ => ?_, hwalk.imp ?_⟩
  · cases e with
    | left => exact pairwise_singleton _ _
    | right n | both row n => cases hop : n.op <;> simp [mergedRows, hop]
  · intro e e' hee' a ha b hb
    rcases hee' with hlt | ⟨n, hn, n', hn', hle, hnot⟩
    · rw [hkey ha, hkey hb]
      exact hlt
    · obtain ⟨hop, rfl⟩ := hasserted ha hn
      obtain ⟨hop', rfl⟩ := hasserted hb hn'
      refine lt_of_le_of_ne hle fun heq => hnot ⟨?_, hop, hop'⟩
      exact FactKeyV3.sortKey_inj.mp heq

theorem mergedRows_nil (order : RunSortOrder) (rows : List Row) :
    (mergeWalk order rows []).flatMap mergedRows = rows := by
  induction rows with
  | nil => rfl
  | cons row rows ih =>
    change row :: (mergeWalk order rows []).flatMap mergedRows = row :: rows
    rw [ih]

end

namespace Sample

def key (sId : U64) (pId : U32) : FactKeyV3 := ⟨sId, pId, 1, 0, listIndexNone⟩

def novel (gId : U16) (sId : U64) (pId : U32) (t : U32) (op : Bool) : NoveltyOp :=
  ⟨⟨⟨key sId pId, t⟩, gId⟩, op⟩

end Sample

end FlureeDb.Index
