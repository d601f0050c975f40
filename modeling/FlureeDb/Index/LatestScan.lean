import FlureeDb.Index.OverlayScan
import FlureeDb.Index.NoveltyMerge

/-!
Scans of the latest state as a reader asks for them: a branch, a key range or all of it, a
filter, and a window of an overlay. The rows in the range are those of the branch with the
window merged in, as long as no assert falls between two leaves that are opened, and nothing
from behind the window comes with them, as long as no operation outlives the leaves.
-/

namespace FlureeDb.Index

open Lib List BinaryCursor

namespace BinaryCursor

variable (sort : UnstableSort) {c : BinaryCursor} (hreplay : c.needReplay = false)

theorem scanOpened_append (first : Bool) (leaves leaves' : List Leaf) (ops : List OverlayOp) :
    (c.scanOpened sort first (leaves ++ leaves') ops).2 =
      (c.scanOpened sort (first && leaves.isEmpty) leaves'
        (c.scanOpened sort first leaves ops).2).2 := by
  induction leaves generalizing first ops with
  | nil => simp [scanOpened]
  | cons leaf leaves ih =>
    simp only [cons_append, scanOpened, ih, Bool.false_and, isEmpty_cons, Bool.and_false]

include hreplay

/-- The leaves take no operation from behind them. -/
theorem scanOpened_pending {leaves : List Leaf} (hok : ∀ leaf ∈ leaves, leaf.Ok c.order) {next : Leaf}
    (hnext : ∀ leaf ∈ leaves, leaf.lastKey.sortKey c.order < next.firstKey.sortKey c.order)
    {ops : List OverlayOp} (hops : OpsSorted c.order ops) (first : Bool) :
    pendingAt c false next (c.scanOpened sort first leaves ops).2 = pendingAt c false next ops := by
  induction leaves generalizing first ops with
  | nil => rfl
  | cons leaf leaves ih =>
    have hleaf := hok leaf mem_cons_self
    have hlast := hnext leaf mem_cons_self
    have hpending := hops.sublist (pendingAt_sublist (c := c) first leaf ops)
    obtain ⟨visited, taken, left, hscan, -, hout⟩ := scanLeaf_spec sort hreplay
      (fun l hl => hleaf.leaflets l ((seekLeaflets_sublist leaf).subset hl))
      (hleaf.apart.sublist (seekLeaflets_sublist leaf)) hpending
    rw [scanOpened_cons sort first leaf leaves hops, hout]
    rw [ih (fun l hl => hok l (mem_cons_of_mem leaf hl))
      (fun l hl => hnext l (mem_cons_of_mem leaf hl)) (hpending.sublist hscan.left_sublist)]
    have htaken : pendingAt c false next taken = [] := by
      refine filter_eq_nil_iff.mpr fun o ho => ?_
      obtain ⟨l, hl, hle⟩ := hscan.taken_le o ho
      have hlt := (hle.trans (hleaf.le_last l (hscan.mem_leaf l hl))).trans_lt hlast
      simp [cmpV2_lt.mpr hlt]
    have hleft : pendingAt c false next (pendingAt c first leaf ops) = pendingAt c false next left := by
      rw [hscan.split]
      exact (filter_append _ _).trans (congrArg (· ++ _) htaken)
    rw [← hleft, pendingAt.eq_def c first]
    split
    · rfl
    · refine filter_filter.trans (filter_congr fun o _ => ?_)
      rw [Bool.eq_iff_iff]
      simp only [Bool.and_eq_true, bne_iff_ne, ne_eq, cmpV2_lt, not_lt, and_iff_left_iff_imp]
      exact fun hle => hleaf.range.trans (hlast.le.trans hle)

/-- The operation is still pending when the leaves are read: it sorts behind the leaflets of
the last leaf, or behind one of them that the scan stops at. -/
def Outlives (c : BinaryCursor) (opened : List Leaf) (ops : List OverlayOp) (o : OverlayOp) : Prop :=
  ∀ before leaf, opened = before ++ [leaf] →
    o ∈ pendingAt c before.isEmpty leaf ops ∧
      ((∀ l ∈ c.seekLeaflets leaf, l.lastKey.sortKey c.order < o.key.sortKey c.order) ∨
        ∃ l ∈ c.seekLeaflets leaf,
          StopsAt c (c.seekLeaflets leaf) (pendingAt c before.isEmpty leaf ops) l ∧
            l.lastKey.sortKey c.order < o.key.sortKey c.order)

theorem scanOpened_left {opened : List Leaf} (hok : ∀ leaf ∈ opened, leaf.Ok c.order)
    (hapart : opened.Pairwise fun a b => a.lastKey.sortKey c.order < b.firstKey.sortKey c.order)
    (hmax : ∀ leaf ∈ opened, ∀ maxKey ∈ c.rangeMax,
      leaf.firstKey.sortKey c.order ≤ maxKey.sortKey c.order)
    {ops : List OverlayOp} (hops : OpsSorted c.order ops) :
    (c.scanOpened sort true opened ops).2 ≠ [] ↔ ∃ o ∈ ops, Outlives c opened ops o := by
  rcases eq_nil_or_concat opened with rfl | ⟨before, leaf, rfl⟩
  · simp [scanOpened, Outlives, ← ne_nil_iff_exists_mem]
  · rw [concat_eq_append] at hok hapart hmax ⊢
    have hleaf := hok leaf (mem_append_right _ (mem_singleton_self leaf))
    obtain ⟨hapart', -, hbefore⟩ := pairwise_append.mp hapart
    have hmax' := fun l hl => hmax l (mem_append_left [leaf] hl)
    have hpending : (c.scanOpened sort true (before ++ [leaf]) ops).2 =
        (c.scanLeaf sort (c.seekLeaflets leaf) (pendingAt c before.isEmpty leaf ops)).2 := by
      rw [scanOpened_append]
      cases before with
      | nil => rfl
      | cons first rest =>
        have hkept := @scanOpened_pending sort c hreplay (first :: rest)
          (fun l hl => hok l (mem_append_left _ hl)) leaf
          (fun l hl => hbefore l hl leaf (mem_singleton_self leaf)) ops hops true
        obtain ⟨rows, kept, left, hscan, hout⟩ := scanOpened_spec sort hreplay
          (fun l hl => hok l (mem_append_left _ hl)) hapart' hmax' hops true
        rw [isEmpty_cons, ← hkept, pendingAt, ← dropWhile_before]
        · rfl
        · rw [hout]
          exact hops.sublist ((sublist_append_right kept left).trans hscan.sublist)
    rw [hpending, scanLeaf_left sort hreplay
      (fun l hl => hleaf.leaflets l ((seekLeaflets_sublist leaf).subset hl))
      (hleaf.apart.sublist (seekLeaflets_sublist leaf))
      (hops.sublist (pendingAt_sublist before.isEmpty leaf ops))]
    constructor
    · rintro ⟨o, ho, h⟩
      refine ⟨o, (pendingAt_sublist (c := c) before.isEmpty leaf ops).subset ho, ?_⟩
      intro before' leaf' heq
      obtain ⟨rfl, hleaf'⟩ := append_inj' heq rfl
      obtain rfl : leaf = leaf' := by simpa using hleaf'
      exact ⟨ho, h⟩
    · rintro ⟨o, -, h⟩
      exact ⟨o, h before leaf rfl⟩

end BinaryCursor

/-! ### Scans of the latest state -/

/-- What a reader asks for: a range of keys, or none for all, the values that are bound, and a
window of operations that are in order with one for each fact. The state is the latest. -/
structure LatestScan (order : RunSortOrder) where
  branch : Branch order
  range : Option (FactKeyV3 × FactKeyV3)
  filter : BinaryFilter
  ops : List OverlayOp
  start : ℕ
  stop : ℕ
  /-- the `t` of the index -/
  maxT : ℤ
  toT : ℤ
  sorted : OpsSorted order ops
  start_le : start ≤ stop
  stop_le : stop ≤ ops.length
  latest : maxT ≤ toT
  ops_le : ∀ o ∈ ops, o.t ≤ toT

namespace LatestScan

variable {order : RunSortOrder} (q : LatestScan order)

def window : List OverlayOp := (q.ops.take q.stop).drop q.start

def behind : List OverlayOp := q.ops.drop q.stop

/-- The cursor with a window of some operations. -/
def cursorOver (ops : List OverlayOp) (start stop : ℕ) : BinaryCursor :=
  let c := match q.range with
    | none => scanAll order q.branch.leaves q.filter q.maxT
    | some (minKey, maxKey) =>
      new order q.branch.leaves minKey maxKey q.filter q.maxT
  (c.setOverlayOpsWindow ops start stop).setToT q.toT

def cursor : BinaryCursor := q.cursorOver q.ops q.start q.stop

def opened : List Leaf :=
  match q.range with
  | none => q.branch.leaves
  | some (minKey, maxKey) =>
    let leafRange := findLeavesInRange order q.branch.leaves minKey maxKey
    (q.branch.leaves.drop leafRange.1).take (leafRange.2 - leafRange.1)

def InRange (key : FactKeyV3) : Prop :=
  ∀ r ∈ q.range, r.1.sortKey order ≤ key.sortKey order ∧ key.sortKey order ≤ r.2.sortKey order

instance (key : FactKeyV3) : Decidable (q.InRange key) :=
  inferInstanceAs (Decidable (∀ r ∈ q.range, _))

/-- The base rows that match and have no operation in the window, and the asserts of the window
that match. -/
def MergedRow (row : Row) : Prop :=
  (row ∈ branchRows q.branch.leaves ∧ q.filter.matchesKey row.key = true ∧
      ∀ o ∈ q.window, o.key ≠ row.key) ∨
    ∃ o ∈ q.window, o.op = true ∧ q.filter.matchesKey o.key = true ∧ row = o.row

/-- The batches, restricted to the range, are the merged rows in order, and they are the same
without the operations outside the window. -/
def Exact (sort : UnstableSort) : Prop :=
  ∃ batches, Drains sort q.cursor batches ∧
    RowsSorted order (batches.flatten.filter fun row => q.InRange row.key) ∧
      (∀ row, q.InRange row.key → (row ∈ batches.flatten ↔ q.MergedRow row)) ∧
        ∀ alone, Drains sort (q.cursorOver q.window 0 q.window.length) alone →
          alone.flatten = batches.flatten

section

variable (ops : List OverlayOp) (start stop : ℕ)

theorem cursorOver_order : (q.cursorOver ops start stop).order = order := by
  unfold cursorOver
  cases q.range <;> rfl

theorem cursorOver_filter : (q.cursorOver ops start stop).filter = q.filter := by
  unfold cursorOver
  cases q.range <;> rfl

theorem cursorOver_toT :
    (q.cursorOver ops start stop).toT = q.toT := rfl

theorem cursorOver_readsAs : ReadsAs (q.cursorOver ops start stop) q.cursor := by
  cases q.range <;> exact ⟨rfl, rfl, rfl, rfl, rfl, rfl⟩

end

theorem needReplay_cursor : q.cursor.needReplay = false := by
  have hmaxT : q.cursor.maxT = q.maxT := by
    unfold cursor cursorOver
    cases q.range <;> rfl
  have hlatest := q.latest
  rw [needReplay, hmaxT, cursor]
  exact decide_eq_false (not_lt.mpr hlatest)

theorem inRange_cursor (key : FactKeyV3) : q.cursor.InRange key ↔ q.InRange key := by
  unfold BinaryCursor.InRange InRange cursor cursorOver
  cases q.range with
  | none => simp [scanAll, setOverlayOpsWindow, setToT]
  | some r => simp [new, setOverlayOpsWindow, setToT]

theorem emits_cursor {o : OverlayOp} (ho : o ∈ q.ops) :
    q.cursor.emits o = true ↔ o.op = true ∧ q.filter.matchesKey o.key = true := by
  have ht := q.ops_le o ho
  rw [emits, cursor, cursorOver_toT, cursorOver_filter]
  simp [ht]

theorem opened_sublist : q.opened.Sublist q.branch.leaves := by
  unfold opened
  split
  · exact Sublist.refl _
  · exact (take_sublist _ _).trans (drop_sublist _ _)

theorem opened_of_range {minKey maxKey : FactKeyV3} (h : q.range = some (minKey, maxKey)) :
    q.opened = (q.branch.leaves.takeWhile
        fun leaf => cmpV2ForOrder order leaf.firstKey maxKey != .gt).drop
      (partitionPoint (fun leaf => cmpV2ForOrder order leaf.lastKey minKey == .lt)
        q.branch.leaves) := by
  rw [← take_partitionPoint, drop_take]
  simp only [opened, h]
  rfl

theorem opened_le : ∀ leaf ∈ q.opened, ∀ maxKey ∈ q.cursor.rangeMax,
    leaf.firstKey.sortKey order ≤ maxKey.sortKey order := by
  intro leaf hleaf maxKey hmax
  cases hrange : q.range with
  | none => simp [cursor, cursorOver, hrange, scanAll,
      setOverlayOpsWindow, setToT] at hmax
  | some r =>
    obtain ⟨minKey, maxKey'⟩ := r
    obtain rfl : maxKey' = maxKey := by
      simpa [cursor, cursorOver, hrange, new, setOverlayOpsWindow, setToT] using hmax
    rw [q.opened_of_range hrange] at hleaf
    have hle := mem_takeWhile_imp (p := fun leaf : Leaf =>
      cmpV2ForOrder order leaf.firstKey maxKey' != .gt) (mem_of_mem_drop hleaf)
    exact cmpV2_ne_gt.mp (by simpa using hle)

/-- No row in the range is in a leaf that is not opened. -/
theorem mem_opened {leaf : Leaf} (hleaf : leaf ∈ q.branch.leaves) {row : Row} (hrow : row ∈ leaf.rows)
    (hrow_range : q.InRange row.key) : leaf ∈ q.opened := by
  have hok := q.branch.ok leaf hleaf
  cases hrange : q.range with
  | none => simpa [opened, hrange] using hleaf
  | some r =>
    obtain ⟨minKey, maxKey⟩ := r
    obtain ⟨hmin, hmax⟩ := hrow_range (minKey, maxKey) hrange
    rw [q.opened_of_range hrange]
    have hsorted : q.branch.leaves.Pairwise fun a b =>
        a.firstKey.sortKey order ≤ b.firstKey.sortKey order :=
      q.branch.apart.imp_of_mem fun ha _ hab => (q.branch.ok _ ha).range.trans hab.le
    -- the leaf starts at or before the end of the range
    have hfront : leaf ∈ q.branch.leaves.takeWhile
        fun leaf => cmpV2ForOrder order leaf.firstKey maxKey != .gt := by
      rw [takeWhile_eq_filter, mem_filter]
      · exact ⟨hleaf, bne_iff_ne.mpr (cmpV2_ne_gt.mpr ((hok.first_le_row hrow).trans hmax))⟩
      · refine hsorted.imp fun hab hb => ?_
        rw [bne_iff_ne, cmpV2_ne_gt] at hb ⊢
        exact hab.trans hb
    -- and ends at or behind its start
    rw [← take_append_drop (partitionPoint
      (fun leaf : Leaf => cmpV2ForOrder order leaf.lastKey minKey == .lt) q.branch.leaves)
      (q.branch.leaves.takeWhile _)] at hfront
    refine (mem_append.mp hfront).resolve_left fun hbefore => ?_
    have hbefore := (( takeWhile_prefix _).take _).subset hbefore
    rw [take_partitionPoint] at hbefore
    have hlt := mem_takeWhile_imp (p := fun leaf : Leaf =>
      cmpV2ForOrder order leaf.lastKey minKey == .lt) hbefore
    have hlt : leaf.lastKey.sortKey order < minKey.sortKey order :=
      cmpV2_lt.mp (by simpa using hlt)
    exact absurd (hmin.trans (hok.row_le_last hrow)) (not_le.mpr hlt)

theorem remaining_cursorOver (sort : UnstableSort) {ops : List OverlayOp} {start stop : ℕ}
    (hops : OpsSorted order ((ops.take stop).drop start)) :
    let scan := q.cursor.scanOpened sort true q.opened ((ops.take stop).drop start)
    (q.cursorOver ops start stop).remaining sort = scan.1 ++ if scan.2.isEmpty then []
      else ((scan.2 ++ ops.drop stop).filter q.cursor.emits).map OverlayOp.row := by
  obtain ⟨c, hc⟩ : ∃ c, c = q.cursorOver ops start stop := ⟨_, rfl⟩
  have hreads : ReadsAs c q.cursor := hc ▸ q.cursorOver_readsAs ops start stop
  have horder : c.order = order := hc ▸ q.cursorOver_order ops start stop
  rw [← hc]
  obtain ⟨hexhausted, hleaf, hfirst, hleafOps, hlater, hbeyond⟩ : c.exhausted = false ∧
      c.currentLeaf = none ∧ c.atFirst = true ∧ c.leafOps = (ops.take stop).drop start ∧
        c.laterOps = [] ∧ c.beyondOps = ops.drop stop := by
    rw [hc, cursorOver]
    cases q.range <;> exact ⟨rfl, rfl, rfl, rfl, rfl, rfl⟩
  obtain ⟨hahead, hopened, hlength⟩ : c.ahead.Sublist q.branch.leaves ∧
      c.ahead.take c.toOpen = q.opened ∧ c.toOpen ≤ c.ahead.length := by
    rw [hc, cursorOver, opened]
    cases q.range with
    | none => exact ⟨Sublist.refl _, take_length, le_rfl⟩
    | some r =>
      refine ⟨drop_sublist _ _, rfl, ?_⟩
      have hle : (findLeavesInRange order q.branch.leaves r.1 r.2).2 ≤ q.branch.leaves.length :=
        (takeWhile_sublist _).length_le
      change (findLeavesInRange order q.branch.leaves r.1 r.2).2 - _ ≤ (q.branch.leaves.drop _).length
      rw [length_drop]
      exact Nat.sub_le_sub_right hle _
  have hscan := @scanLeaves_eq sort c.toOpen c (hreads.needReplay_eq.trans q.needReplay_cursor)
    (fun leaf hl => by rw [horder]; exact q.branch.ok leaf (hahead.subset hl))
    (by rw [horder]; exact q.branch.apart.sublist hahead)
    (by rw [horder, hleafOps, hlater, append_nil]; exact hops) hlength
  rw [hfirst, hleafOps, hlater, hbeyond, hopened, append_nil, hreads.scanOpened_eq,
    hreads.emits_eq] at hscan
  rw [remaining, if_neg (by simp [hexhausted]), hleaf]
  exact hscan

theorem not_row_of_lost {o : OverlayOp} (hlost : Lost order q.opened o) {leaf : Leaf}
    (hleaf : leaf ∈ q.opened) {row : Row} (hrow : row ∈ leaf.rows) : row.key ≠ o.key := by
  obtain ⟨before, next, ⟨front, back, hopened⟩, hbehind, hfront⟩ := hlost
  have hok : ∀ l ∈ front ++ [before, next] ++ back, l.Ok order := by
    rw [hopened]
    exact fun l hl => q.branch.ok l (q.opened_sublist.subset hl)
  have hapart : (front ++ [before, next] ++ back).Pairwise fun a b =>
      a.lastKey.sortKey order < b.firstKey.sortKey order := by
    rw [hopened]
    exact q.branch.apart.sublist q.opened_sublist
  rw [← hopened] at hleaf
  obtain ⟨hfrontPart, -, hback⟩ := pairwise_append.mp hapart
  obtain ⟨-, -, hmid⟩ := pairwise_append.mp hfrontPart
  have hbefore : before ∈ front ++ [before, next] ++ back := by simp
  have hnext : next ∈ front ++ [before, next] ++ back := by simp
  obtain ⟨l, hl⟩ := exists_mem_of_ne_nil _ (hok before hbefore).nonempty
  have hlow : before.firstKey.sortKey order < o.key.sortKey order :=
    ((hok before hbefore).first_le l hl).trans_lt
      (((hok before hbefore).leaflets l hl).range.trans_lt (hbehind l hl))
  intro hkey
  rw [← hkey] at hlow hfront
  rcases mem_append.mp hleaf with hleaf' | hleaf'
  · rcases mem_append.mp hleaf' with hleaf' | hleaf'
    · have hlt := hmid leaf hleaf' before mem_cons_self
      have hle := (hok leaf hleaf).row_le_last hrow
      exact absurd (hle.trans_lt (hlt.trans hlow)) (lt_irrefl _)
    · rcases mem_cons.mp hleaf' with rfl | hleaf'
      · obtain ⟨m, hm, hrow⟩ := mem_flatMap.mp hrow
        have hle := ((hok leaf hbefore).leaflets m hm).le_last row hrow
        exact absurd (hle.trans_lt (hkey ▸ hbehind m hm)) (lt_irrefl _)
      · obtain rfl := mem_singleton.mp hleaf'
        exact absurd ((hok leaf hnext).first_le_row hrow) (not_le.mpr hfront)
  · have hlt := hback next (by simp) leaf hleaf'
    have hle := (hok leaf hleaf).first_le_row hrow
    exact absurd (hfront.trans_le ((hok next hnext).range.trans (hlt.le.trans hle))) (lt_irrefl _)

theorem window_sorted : OpsSorted order q.window :=
  q.sorted.sublist ((drop_sublist _ _).trans (take_sublist _ _))

theorem eq_of_key_eq {o o' : OverlayOp} (ho : o ∈ q.window) (ho' : o' ∈ q.window)
    (hkey : o.key = o'.key) : o = o' :=
  inj_on_of_nodup_map (nodup_of_sortKey_lt q.window_sorted) ho ho' hkey

theorem window_subset {o : OverlayOp} (ho : o ∈ q.window) : o ∈ q.ops :=
  mem_of_mem_take (mem_of_mem_drop ho)

theorem cursor_order : q.cursor.order = order := q.cursorOver_order q.ops q.start q.stop

/-- What is put out is one merge of rows with what was kept of the window, and, if something
was left of it, what comes from behind the window. -/
theorem exists_merge (sort : UnstableSort) :
    ∃ rows kept rest, ScansLeaves q.cursor true q.opened q.window rows kept rest ∧
      (rest ≠ [] ↔ ∃ o ∈ q.window, Outlives q.cursor q.opened q.window o) ∧
        q.cursor.remaining sort = q.cursor.mergedOut rows (kept ++ rest) ++
          (if rest.isEmpty then [] else (q.behind.filter q.cursor.emits).map OverlayOp.row) ∧
          (q.cursorOver q.window 0 q.window.length).remaining sort =
            q.cursor.mergedOut rows (kept ++ rest) := by
  obtain ⟨hok, hapart, hmax, hwindow⟩ : (∀ leaf ∈ q.opened, leaf.Ok q.cursor.order) ∧
      (q.opened.Pairwise fun a b =>
        a.lastKey.sortKey q.cursor.order < b.firstKey.sortKey q.cursor.order) ∧
      (∀ leaf ∈ q.opened, ∀ maxKey ∈ q.cursor.rangeMax,
        leaf.firstKey.sortKey q.cursor.order ≤ maxKey.sortKey q.cursor.order) ∧
      OpsSorted q.cursor.order q.window := by
    rw [cursor_order]
    exact ⟨fun leaf hl => q.branch.ok leaf (q.opened_sublist.subset hl),
      q.branch.apart.sublist q.opened_sublist, q.opened_le, q.window_sorted⟩
  obtain ⟨rows, kept, rest, hspec, hout⟩ :=
    scanOpened_spec sort q.needReplay_cursor hok hapart hmax hwindow true
  have hleft := scanOpened_left sort q.needReplay_cursor hok hapart hmax hwindow
  rw [hout] at hleft
  have htail : ∀ behind : List OverlayOp, (q.cursor.mergedOut rows kept ++
      if rest.isEmpty then [] else ((rest ++ behind).filter q.cursor.emits).map OverlayOp.row) =
        q.cursor.mergedOut rows (kept ++ rest) ++
          if rest.isEmpty then [] else (behind.filter q.cursor.emits).map OverlayOp.row := by
    intro behind
    by_cases hrest : rest = []
    · simp [hrest]
    · have happend := @mergedOut_append q.cursor kept rows [] rest hspec.lt_rest (by simp)
      rw [append_nil, mergedOut_nil_left] at happend
      rw [happend, if_neg (by simpa using hrest), if_neg (by simpa using hrest), filter_append,
        map_append, append_assoc]
  refine ⟨rows, kept, rest, hspec, hleft, ?_, ?_⟩
  · have htotal := q.remaining_cursorOver sort q.window_sorted
    rw [← window, hout] at htotal
    exact htotal.trans (htail q.behind)
  · have hall : (q.window.take q.window.length).drop 0 = q.window := by
      rw [take_length, drop_zero]
    have halone := @remaining_cursorOver order q sort q.window 0 q.window.length
      (by rw [hall]; exact q.window_sorted)
    rw [hall, hout, drop_length] at halone
    refine halone.trans ((htail []).trans ?_)
    rw [filter_nil, map_nil, ite_self, append_nil]

/-- In the range, the merge is of all that matches exactly if no matching assert is lost. -/
theorem mem_merged_iff {rows : List Row} {kept rest : List OverlayOp}
    (hspec : ScansLeaves q.cursor true q.opened q.window rows kept rest) :
    (∀ row, q.InRange row.key →
        (row ∈ q.cursor.mergedOut rows (kept ++ rest) ↔ q.MergedRow row)) ↔
      ∀ o ∈ q.window, o.op = true → q.filter.matchesKey o.key = true → q.InRange o.key →
        ¬Lost order q.opened o := by
  have hfilter : q.cursor.filter = q.filter := q.cursorOver_filter _ _ _
  have hsorted : OpsSorted q.cursor.order (kept ++ rest) := by
    rw [cursor_order]
    exact q.window_sorted.sublist hspec.sublist
  have hmem := mem_mergedOut hspec.sorted hsorted
  have hmissing : ∀ o ∈ q.window, q.InRange o.key →
      (o ∉ kept ++ rest ↔ Lost order q.opened o) := by
    intro o ho hrange
    have hmin := ((q.inRange_cursor o.key).mpr hrange).1
    have hiff := hspec.missing_iff o ho hmin
    rw [cursor_order] at hiff
    simpa using hiff
  constructor
  · intro hexact o ho hop hmatch hrange hlost
    have hout := (hexact o.row hrange).mpr (.inr ⟨o, ho, hop, hmatch, rfl⟩)
    rcases (hmem o.row).mp hout with ⟨hrow, -⟩ | ⟨o', ho', -, heq⟩
    · obtain ⟨leaf, hleaf, hrow, -⟩ := hspec.of_leaf _ hrow
      exact q.not_row_of_lost hlost hleaf hrow rfl
    · have hkey : o.key = o'.key := congrArg Row.key heq
      have hsame := q.eq_of_key_eq ho (hspec.sublist.subset ho') hkey
      exact (hmissing o ho hrange).mpr hlost (hsame ▸ ho')
  · intro hkept row hrange
    rw [hmem row]
    constructor
    · rintro (⟨hrow, hnone⟩ | ⟨o, ho, hemits, rfl⟩)
      · obtain ⟨leaf, hleaf, hin, hmatch⟩ := hspec.of_leaf _ hrow
        rw [hfilter] at hmatch
        refine .inl ⟨mem_flatMap.mpr ⟨leaf, q.opened_sublist.subset hleaf, hin⟩, hmatch, ?_⟩
        intro o ho hkey
        have hlost := (hmissing o ho (hkey ▸ hrange)).mp fun hin => hnone o hin hkey
        exact q.not_row_of_lost hlost hleaf hin hkey.symm
      · have ho' := hspec.sublist.subset ho
        obtain ⟨hop, hmatch⟩ := (q.emits_cursor (q.window_subset ho')).mp hemits
        exact .inr ⟨o, ho', hop, hmatch, rfl⟩
    · rintro (⟨hrow, hmatch, hnone⟩ | ⟨o, ho, hop, hmatch, rfl⟩)
      · obtain ⟨leaf, hleaf, hin⟩ := mem_flatMap.mp hrow
        have hopened := q.mem_opened hleaf hin hrange
        refine .inl ⟨hspec.complete leaf hopened row hin (by rw [hfilter]; exact hmatch)
          ((q.inRange_cursor row.key).mpr hrange), fun o ho => hnone o (hspec.sublist.subset ho)⟩
      · have hin : o ∈ kept ++ rest := by
          by_contra hout
          exact hkept o ho hop hmatch hrange ((hmissing o ho hrange).mp hout)
        exact .inr ⟨o, hin, (q.emits_cursor (q.window_subset ho)).mpr ⟨hop, hmatch⟩, rfl⟩

/-- A scan is exact unless a matching assert of the window, in the range, falls between two
leaves that are opened, or an operation of the window outlives the leaves while a matching
assert stands behind the window. -/
theorem scan_merges_overlay_iff (sort : UnstableSort) :
    q.Exact sort ↔
      (∀ o ∈ q.window, o.op = true → q.filter.matchesKey o.key = true → q.InRange o.key →
          ¬Lost order q.opened o) ∧
        ((∃ o ∈ q.window, Outlives q.cursor q.opened q.window o) →
          ∀ o ∈ q.behind, o.op = true → q.filter.matchesKey o.key = false) := by
  obtain ⟨rows, kept, rest, hspec, hleft, htotal, halone⟩ := q.exists_merge sort
  have hextra : (if rest.isEmpty then [] else (q.behind.filter q.cursor.emits).map OverlayOp.row) =
      [] ↔ ((∃ o ∈ q.window, Outlives q.cursor q.opened q.window o) →
        ∀ o ∈ q.behind, o.op = true → q.filter.matchesKey o.key = false) := by
    have hbehind : ∀ o ∈ q.behind, o ∈ q.ops := fun o ho => mem_of_mem_drop ho
    rw [← hleft]
    by_cases hrest : rest = []
    · simp [hrest]
    · rw [if_neg (by simpa using hrest), map_eq_nil_iff, filter_eq_nil_iff]
      simp only [ne_eq, hrest, not_false_eq_true, true_imp_iff]
      refine forall₂_congr fun o ho => ?_
      rw [q.emits_cursor (hbehind o ho), not_and, Bool.not_eq_true]
  have hsorted : OpsSorted q.cursor.order (kept ++ rest) := by
    rw [cursor_order]
    exact q.window_sorted.sublist hspec.sublist
  have horder := mergedOut_sorted hspec.sorted hsorted
  rw [cursor_order] at horder
  rw [← q.mem_merged_iff hspec, ← hextra]
  constructor
  · rintro ⟨batches, hdrains, -, hmem, hwindow⟩
    obtain ⟨alone, hdrains', hflat⟩ := exists_drains sort (q.cursorOver q.window 0 q.window.length)
    have heq := hwindow alone hdrains'
    rw [hflat, halone, hdrains.flatten_eq, htotal, self_eq_append_right] at heq
    rw [hdrains.flatten_eq, htotal, heq, append_nil] at hmem
    exact ⟨hmem, heq⟩
  · rintro ⟨hmem, hnone⟩
    rw [hnone, append_nil] at htotal
    obtain ⟨batches, hdrains, hflat⟩ := exists_drains sort q.cursor
    rw [htotal] at hflat
    refine ⟨batches, hdrains, ?_, ?_, ?_⟩
    · rw [hflat]
      exact horder.sublist filter_sublist
    · rw [hflat]
      exact hmem
    · intro alone halone'
      rw [halone'.flatten_eq, halone, hflat]

end LatestScan

/-! ### Samples -/

namespace Sample

open LatestScan

def leafOf (sId : U64) : Leaf :=
  ⟨key sId 1, key sId 1, [⟨key sId 1, key sId 1, none, none, [⟨key sId 1, 1⟩], []⟩]⟩

theorem leafOf_ok (sId : U64) : (leafOf sId).Ok .spot := by
  refine ⟨by simp [leafOf], ?_, by simp [leafOf], by simp [leafOf], by simp [leafOf]⟩
  intro l hl
  obtain rfl := mem_singleton.mp hl
  exact ⟨by simp [RowsSorted], le_rfl, by simp, by simp, by simp, by simp⟩

/-- The subjects 1 and 3, each in a leaf of its own. -/
def gapBranch : Branch .spot where
  leaves := [leafOf 1, leafOf 3]
  ok := by
    intro leaf hleaf
    rcases mem_pair.mp hleaf with rfl | rfl
    · exact leafOf_ok 1
    · exact leafOf_ok 3
  apart := pairwise_pair.mpr (by decide)

/-- An assert of subject 2, in the window. -/
def gapScan : LatestScan .spot where
  branch := gapBranch
  range := none
  filter := ⟨none, none, none, none, none⟩
  ops := [⟨key 2 1, 2, true⟩]
  start := 0
  stop := 1
  maxT := 1
  toT := 2
  sorted := pairwise_singleton _ _
  start_le := by decide
  stop_le := by decide
  latest := by decide
  ops_le := by decide

/-- A retract of subject 5 in the window and an assert of subject 6 behind it. -/
def behindScan : LatestScan .spot where
  branch := gapBranch
  range := none
  filter := ⟨none, none, none, none, none⟩
  ops := [⟨key 5 1, 2, false⟩, ⟨key 6 1, 2, true⟩]
  start := 0
  stop := 1
  maxT := 1
  toT := 2
  sorted := pairwise_pair.mpr (by decide)
  start_le := by decide
  stop_le := by decide
  latest := by decide
  ops_le := by decide

end Sample

open Sample
open UnstableSort (insertionSort)

/-- The assert between the two leaves is not put out. The assert behind the window is, and
without it there is one row less. -/
theorem scan_loses_gap_and_leaves_window :
    ((∀ batches, Drains insertionSort gapScan.cursor batches →
          batches.flatten = [⟨key 1 1, 1⟩, ⟨key 3 1, 1⟩]) ∧
        gapScan.MergedRow ⟨key 2 1, 2⟩ ∧ ¬gapScan.Exact insertionSort) ∧
      (∀ batches, Drains insertionSort behindScan.cursor batches →
          batches.flatten = [⟨key 1 1, 1⟩, ⟨key 3 1, 1⟩, ⟨key 6 1, 2⟩]) ∧
        ¬behindScan.Exact insertionSort := by
  have hgap : ∀ batches, Drains insertionSort gapScan.cursor batches →
      batches.flatten = [⟨key 1 1, 1⟩, ⟨key 3 1, 1⟩] := by
    intro batches hdrains
    rw [hdrains.flatten_eq]
    decide
  have hbehind : ∀ batches, Drains insertionSort behindScan.cursor batches →
      batches.flatten = [⟨key 1 1, 1⟩, ⟨key 3 1, 1⟩, ⟨key 6 1, 2⟩] := by
    intro batches hdrains
    rw [hdrains.flatten_eq]
    decide
  have hmerged : gapScan.MergedRow ⟨key 2 1, 2⟩ := .inr ⟨⟨key 2 1, 2, true⟩, by decide⟩
  refine ⟨⟨hgap, hmerged, ?_⟩, hbehind, ?_⟩
  · rintro ⟨batches, hdrains, -, hmem, -⟩
    have hin := (hmem ⟨key 2 1, 2⟩ (by decide)).mpr hmerged
    rw [hgap batches hdrains] at hin
    exact absurd hin (by decide)
  · rintro ⟨batches, hdrains, -, -, hwindow⟩
    obtain ⟨alone, halone, hflat⟩ := exists_drains insertionSort
      (behindScan.cursorOver behindScan.window 0 behindScan.window.length)
    have heq := hwindow alone halone
    rw [hflat, hbehind batches hdrains] at heq
    exact absurd heq (by decide)

end FlureeDb.Index
