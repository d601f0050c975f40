import FlureeDb.Index.Scan

/-!
A scan of the latest state with an overlay. Between two leaves the cursor throws pending
operations away: those of a leaf reach up to the next leaf's first key, its leaflets take
them up to their last keys, and opening the next leaf drops what is in front of it. Behind
the last leaf it puts out what is pending, and with that everything behind the window.
Otherwise the scan is one merge of the rows with the operations of the window.
-/

namespace FlureeDb.Index

open Lib List List.Sublist

variable {leaflet : Leaflet}

namespace BinaryCursor

variable (sort : UnstableSort) (c : BinaryCursor)

/-- The rows of a leaflet that match the filter. -/
def matching (leaflet : Leaflet) : List Row :=
  leaflet.rows.filter fun row => c.filter.matchesKey row.key

/-- The next operation sorts into the leaflet or before it. -/
def pendingFor (leaflet : Leaflet) (ops : List OverlayOp) : Bool :=
  ops.head?.any fun o => cmpV2ForOrder c.order o.key leaflet.lastKey != .gt

abbrev upTo (leaflet : Leaflet) (o : OverlayOp) : Bool :=
  cmpV2ForOrder c.order o.key leaflet.lastKey != .gt

/-- The leaflet lies beyond the range and has no operation. -/
def stopsAt (leaflet : Leaflet) (ops : List OverlayOp) : Bool :=
  !c.pendingFor leaflet ops &&
    c.rangeMax.any fun maxKey => cmpV2ForOrder c.order leaflet.firstKey maxKey == .gt

def mergedOut (rows : List Row) (ops : List OverlayOp) : List Row :=
  (mergeJoin (fun row o => cmpV2ForOrder c.order row.key o.key) (fun _ => true) rows ops).1.flatMap
    c.pushMerged

/-- Operations in order, one for each fact. -/
def OpsSorted (order : RunSortOrder) (ops : List OverlayOp) : Prop :=
  ops.Pairwise fun a b => a.key.sortKey order < b.key.sortKey order

variable {ops : List OverlayOp} {row : Row}

section

variable {c}

theorem cmpRowOp_compares (row : Row) (o : OverlayOp) :
    (cmpV2ForOrder c.order row.key o.key).Compares (row.key.sortKey c.order)
      (o.key.sortKey c.order) :=
  cmpV2_compares c.order row.key o.key

theorem pendingFor_eq_false :
    c.pendingFor leaflet ops = false ↔
      ∀ o ∈ ops.head?, leaflet.lastKey.sortKey c.order < o.key.sortKey c.order := by
  cases ops with
  | nil => simp [pendingFor]
  | cons => simp [pendingFor, ← cmpV2_gt]

theorem mergedOut_append {rows rows' : List Row} {ops' : List OverlayOp}
    (hrows : ∀ row ∈ rows, ∀ o ∈ ops', row.key.sortKey c.order < o.key.sortKey c.order)
    (hops : ∀ row ∈ rows', ∀ o ∈ ops, o.key.sortKey c.order < row.key.sortKey c.order) :
    c.mergedOut (rows ++ rows') (ops ++ ops') = c.mergedOut rows ops ++ c.mergedOut rows' ops' := by
  unfold mergedOut
  rw [mergeJoin_append, flatMap_append]
  · exact fun row hrow o ho => cmpV2_lt.mpr (hrows row hrow o ho)
  · exact fun row hrow o ho => cmpV2_gt.mpr (hops row hrow o ho)

theorem mergedOut_nil_right (rows : List Row) : c.mergedOut rows [] = rows := by
  unfold mergedOut
  rw [mergeJoin_of_lt _ _ (by simp) (by simp)]
  induction rows with
  | nil => rfl
  | cons row rows ih => simpa [pushMerged] using ih

theorem mergedOut_nil_left (ops : List OverlayOp) :
    c.mergedOut [] ops = (ops.filter c.emits).map OverlayOp.row := by
  unfold mergedOut
  induction ops with
  | nil => rfl
  | cons o ops ih =>
    have hstep : (mergeJoin (fun (row : Row) (o : OverlayOp) => cmpV2ForOrder c.order row.key o.key)
        (fun _ => true) [] (o :: ops)).1 = .right o ::
          (mergeJoin (fun (row : Row) (o : OverlayOp) => cmpV2ForOrder c.order row.key o.key)
            (fun _ => true) [] ops).1 := by
      simp [mergeJoin]
    rw [hstep, flatMap_cons, ih]
    cases hemits : c.emits o <;> simp [pushMerged, hemits]

theorem mem_pushMerged {x : Joined Row OverlayOp} :
    row ∈ c.pushMerged x ↔ x = .left row ∨ ∃ o ∈ x.ops, c.emits o = true ∧ row = o.row := by
  cases x with
  | left row' => simp [pushMerged, Joined.ops, @eq_comm _ row row']
  | right o | both row' o => cases h : c.emits o <;> simp [pushMerged, Joined.ops]

variable {rows : List Row} (hrows : RowsSorted c.order rows) (hops : OpsSorted c.order ops)

include hrows hops

theorem mem_mergedOut (row : Row) :
    row ∈ c.mergedOut rows ops ↔ (row ∈ rows ∧ ∀ o ∈ ops, o.key ≠ row.key) ∨
      ∃ o ∈ ops, c.emits o = true ∧ row = o.row := by
  have hweak := hops.imp le_of_lt
  have hmet : (mergeJoin (fun row o => cmpV2ForOrder c.order row.key o.key) (fun _ => true) rows
      ops).1.flatMap Joined.ops = ops := mergeJoin_ops_all (@cmpRowOp_compares c) rows hweak
  simp only [mergedOut, mem_flatMap, mem_pushMerged]
  have hleft : .left row ∈ (mergeJoin (fun row o => cmpV2ForOrder c.order row.key o.key)
      (fun _ => true) rows ops).1 ↔ _ := left_mem_mergeJoin _ (@cmpRowOp_compares c) hweak hrows row
  simp only [ne_eq, FactKeyV3.sortKey_inj] at hleft
  rw [← hleft]
  constructor
  · rintro ⟨x, hx, rfl | ⟨o, ho, hemits, rfl⟩⟩
    · exact .inl hx
    · refine .inr ⟨o, ?_, hemits, rfl⟩
      rw [← hmet]
      exact mem_flatMap.mpr ⟨x, hx, ho⟩
  · rintro (hx | ⟨o, ho, hemits, rfl⟩)
    · exact ⟨_, hx, .inl rfl⟩
    · rw [← hmet] at ho
      obtain ⟨x, hx, hox⟩ := mem_flatMap.mp ho
      exact ⟨x, hx, .inr ⟨o, hox, hemits, rfl⟩⟩

theorem mergedOut_sorted : RowsSorted c.order (c.mergedOut rows ops) := by
  have hwalk := @mergeJoin_pairwise Row OverlayOp (List ℕ) _ _ (fun _ => true) _ _
    (@cmpRowOp_compares c) _ le_of_lt rows ops hrows hops
  have hkey : ∀ {x : Joined Row OverlayOp} {row : Row}, row ∈ c.pushMerged x →
      row.key.sortKey c.order =
        x.key (fun row => row.key.sortKey c.order) (fun o => o.key.sortKey c.order) := by
    intro x row hrow
    rcases mem_pushMerged.mp hrow with rfl | ⟨o, ho, -, rfl⟩
    · rfl
    · rw [Joined.key_of_mem_ops ho]
      rfl
  refine pairwise_flatMap.mpr ⟨fun x _ => ?_, hwalk.imp ?_⟩
  · cases x with
    | left => exact pairwise_singleton _ _
    | right o | both row o => cases h : c.emits o <;> simp [pushMerged, h]
  · intro x y hxy a ha b hb
    rw [hkey ha, hkey hb]
    rcases hxy with hlt | ⟨o, ho, o', ho', hlt⟩
    · exact hlt
    · rw [Joined.key_of_mem_ops ho, Joined.key_of_mem_ops ho']
      exact hlt

end

theorem ne_nil_iff_exists_mem {α : Type*} {l : List α} : l ≠ [] ↔ ∃ a, a ∈ l :=
  ⟨exists_mem_of_ne_nil l, fun ⟨_, h⟩ => ne_nil_of_mem h⟩

/-! ### One leaf -/

section

variable {c} (hreplay : c.needReplay = false)

theorem matching_le (hok : leaflet.Ok c.order) (hrow : row ∈ c.matching leaflet) :
    leaflet.firstKey.sortKey c.order ≤ row.key.sortKey c.order ∧
      row.key.sortKey c.order ≤ leaflet.lastKey.sortKey c.order :=
  ⟨hok.first_le row (mem_of_mem_filter hrow), hok.le_last row (mem_of_mem_filter hrow)⟩

/-- The merge with what is pending takes the operations up to the leaflet's last key. -/
theorem mergeOverlayIntoBatch_eq (hok : leaflet.Ok c.order) (ops : List OverlayOp) :
    c.mergeOverlayIntoBatch (c.matching leaflet) ops leaflet.lastKey =
      (c.mergedOut (c.matching leaflet) (ops.takeWhile (c.upTo leaflet)),
        ops.dropWhile (c.upTo leaflet)) := by
  unfold mergeOverlayIntoBatch mergedOut
  rw [mergeJoin_within]
  intro row hrow o hcmp
  have hle : o.key.sortKey c.order ≤ row.key.sortKey c.order := by
    refine not_lt.mp fun hlt => hcmp ?_
    exact cmpV2_lt.mpr hlt
  simp only [bne_iff_ne]
  exact cmpV2_ne_gt.mpr (hle.trans (matching_le hok hrow).2)

include hreplay

/-- A leaflet ends the leaf or is merged with what is pending. -/
theorem visitLeaflet_eq (hok : leaflet.Ok c.order) (ops : List OverlayOp) :
    c.visitLeaflet sort leaflet ops =
      if c.stopsAt leaflet ops then none
      else some (c.mergedOut (c.matching leaflet) (ops.takeWhile (c.upTo leaflet)),
        ops.dropWhile (c.upTo leaflet)) := by
  have hbatch : (if c.filter.isEmpty || leaflet.rows.isEmpty then leaflet.rows
      else c.filter.filterBatch c.order leaflet.rows) = c.matching leaflet := by
    split
    · next h =>
      rcases Bool.or_eq_true _ _ |>.mp h with h | h
      · refine (filter_eq_self.mpr fun row _ => ?_).symm
        exact c.filter.matchesKey_of_isEmpty h row.key
      · rw [matching, isEmpty_iff.mp h]
        rfl
    · exact c.filter.filterBatch_eq hok.sorted
  unfold visitLeaflet
  simp only [hreplay, Bool.false_and]
  cases hpending : c.pendingFor leaflet ops with
  | true =>
    have hhead : ops.head?.any (c.upTo leaflet) = true := hpending
    simp only [stopsAt, hpending, hhead, Bool.not_true, Bool.false_and, Bool.and_false,
      Bool.false_eq_true, if_false, if_true, hbatch, mergeOverlayIntoBatch_eq hok]
  | false =>
    have hhead : ops.head?.any (c.upTo leaflet) = false := hpending
    have htake : ops.takeWhile (c.upTo leaflet) = [] ∧ ops.dropWhile (c.upTo leaflet) = ops := by
      cases ops with
      | nil => exact ⟨rfl, rfl⟩
      | cons o =>
        have hneg : ¬c.upTo leaflet o = true := by simpa using hhead
        exact ⟨takeWhile_cons_of_neg hneg, dropWhile_cons_of_neg hneg⟩
    rw [htake.1, htake.2, mergedOut_nil_right]
    simp only [stopsAt, hpending, hhead, Bool.not_false, Bool.false_eq_true, if_false,
      Bool.and_true, hbatch]
    split
    · rfl
    · split
      · next h =>
        rw [matching, c.filter.filter_eq_nil_of_skip hok.pConst hok.oTypeConst h]
      · split
        · next h => rw [matching, isEmpty_iff.mp h]; rfl
        · split
          · next h => rw [matching, c.filter.filter_eq_nil_of_outOfRange hok h]
          · rfl

/-- One leaflet of a scan: it lies beyond the range and behind it the operations do, and the
scan ends, or it takes the operations up to its last key. -/
theorem scanLeaf_cases (hok : leaflet.Ok c.order) (leaflets : List Leaflet)
    (hops : OpsSorted c.order ops) :
    let beyond := (∃ maxKey ∈ c.rangeMax,
        maxKey.sortKey c.order < leaflet.firstKey.sortKey c.order) ∧
      ∀ o ∈ ops, leaflet.lastKey.sortKey c.order < o.key.sortKey c.order
    (beyond ∧ c.scanLeaf sort (leaflet :: leaflets) ops = ([], ops)) ∨
      ¬beyond ∧ ∃ taken later, ops = taken ++ later ∧
        (∀ o ∈ taken, o.key.sortKey c.order ≤ leaflet.lastKey.sortKey c.order) ∧
        (∀ o ∈ later, leaflet.lastKey.sortKey c.order < o.key.sortKey c.order) ∧
        c.scanLeaf sort (leaflet :: leaflets) ops =
          (c.mergedOut (c.matching leaflet) taken ++ (c.scanLeaf sort leaflets later).1,
            (c.scanLeaf sort leaflets later).2) := by
  intro beyond
  have hpending : c.pendingFor leaflet ops = false ↔
      ∀ o ∈ ops, leaflet.lastKey.sortKey c.order < o.key.sortKey c.order := by
    rw [pendingFor_eq_false]
    cases ops with
    | nil => simp
    | cons o =>
      refine ⟨fun h o' ho' => ?_, fun h o' ho' => h o' (by simp_all)⟩
      have hlt := h o rfl
      rcases mem_cons.mp ho' with rfl | ho'
      · exact hlt
      · exact hlt.trans ((pairwise_cons.mp hops).1 o' ho')
  have hstops : c.stopsAt leaflet ops = true ↔ beyond := by
    simp only [stopsAt, Bool.and_eq_true, Bool.not_eq_true', hpending,
      Option.any_eq_true, beq_iff_eq, cmpV2_gt]
    exact and_comm
  rw [scanLeaf_cons, visitLeaflet_eq sort hreplay hok]
  by_cases hstop : c.stopsAt leaflet ops = true
  · rw [if_pos hstop]
    exact .inl ⟨hstops.mp hstop, rfl⟩
  · rw [if_neg hstop]
    refine .inr ⟨mt hstops.mpr hstop, _, _, takeWhile_append_dropWhile.symm, fun o ho => ?_,
      lt_of_mem_dropWhile (hops.imp le_of_lt), rfl⟩
    have hwithin := mem_takeWhile_imp ho
    exact cmpV2_ne_gt.mp (by simpa using hwithin)

/-- What a scan of leaflets amounts to: those that were visited, what they took of the
operations and what is left. Not all are visited only if one beyond the range has no
operation. -/
structure ScansLeaf (c : BinaryCursor) (leaflets : List Leaflet) (ops : List OverlayOp)
    (visited : List Leaflet) (taken rest : List OverlayOp) : Prop where
  split : ops = taken ++ rest
  taken_le : ∀ o ∈ taken, ∃ l ∈ visited, o.key.sortKey c.order ≤ l.lastKey.sortKey c.order
  lt_rest : ∀ o ∈ rest, ∀ l ∈ visited, l.lastKey.sortKey c.order < o.key.sortKey c.order
  visited_or_beyond : visited = leaflets ∨ ∃ l later, leaflets = visited ++ l :: later ∧
    (∃ maxKey ∈ c.rangeMax, maxKey.sortKey c.order < l.firstKey.sortKey c.order) ∧
      ∀ o ∈ rest, l.lastKey.sortKey c.order < o.key.sortKey c.order

variable {leaflets : List Leaflet}

omit hreplay in
theorem ScansLeaf.subset {visited : List Leaflet} {taken rest : List OverlayOp}
    (h : ScansLeaf c leaflets ops visited taken rest) : ∀ l ∈ visited, l ∈ leaflets := by
  rcases h.visited_or_beyond with rfl | ⟨l, later, rfl, -⟩
  · exact fun l hl => hl
  · exact fun l hl => mem_append_left _ hl

/-- The leaflet is beyond the range and every operation up to it is taken by an earlier one. -/
def StopsAt (c : BinaryCursor) (leaflets : List Leaflet) (ops : List OverlayOp) (l : Leaflet) :
    Prop :=
  (∃ maxKey ∈ c.rangeMax, maxKey.sortKey c.order < l.firstKey.sortKey c.order) ∧
    ∀ o ∈ ops, o.key.sortKey c.order ≤ l.lastKey.sortKey c.order →
      ∃ l' ∈ leaflets, l'.lastKey.sortKey c.order < l.firstKey.sortKey c.order ∧
        o.key.sortKey c.order ≤ l'.lastKey.sortKey c.order

theorem scanLeaf_spec (hok : ∀ l ∈ leaflets, l.Ok c.order)
    (hapart : leaflets.Pairwise fun a b => a.lastKey.sortKey c.order < b.firstKey.sortKey c.order)
    (hops : OpsSorted c.order ops) :
    ∃ visited taken rest, ScansLeaf c leaflets ops visited taken rest ∧
      (∀ l ∈ visited, ¬StopsAt c leaflets ops l) ∧
        c.scanLeaf sort leaflets ops = (c.mergedOut (visited.flatMap c.matching) taken, rest) := by
  induction leaflets generalizing ops with
  | nil => exact ⟨[], [], ops, ⟨rfl, by simp, by simp, .inl rfl⟩, by simp, rfl⟩
  | cons leaflet leaflets ih =>
    obtain ⟨hbehind, hapart⟩ := pairwise_cons.mp hapart
    have hleaflet := hok leaflet mem_cons_self
    rcases scanLeaf_cases sort hreplay hleaflet leaflets hops with
      ⟨⟨hbeyond, hlater⟩, heq⟩ | ⟨hstop, before, later, rfl, htaken, hlater, heq⟩
    · exact ⟨[], [], ops,
        ⟨rfl, by simp, by simp, .inr ⟨leaflet, leaflets, rfl, hbeyond, hlater⟩⟩, by simp, heq⟩
    · obtain ⟨visited, taken, rest, hscan, hstops, hrest⟩ :=
        ih (fun l hl => hok l (mem_cons_of_mem _ hl)) hapart (pairwise_append.mp hops).2.1
      obtain ⟨rfl, htaken', hlt, hvisited⟩ := id hscan
      refine ⟨leaflet :: visited, before ++ taken, rest, ⟨?_, ?_, ?_, ?_⟩,
        forall_mem_cons.mpr ⟨?_, fun l hl => ?_⟩, ?_⟩
      · rw [append_assoc]
      · intro o ho
        rcases mem_append.mp ho with ho | ho
        · exact ⟨leaflet, mem_cons_self, htaken o ho⟩
        · obtain ⟨l, hl, hle⟩ := htaken' o ho
          exact ⟨l, mem_cons_of_mem _ hl, hle⟩
      · intro o ho l hl
        rcases mem_cons.mp hl with rfl | hl
        · exact hlater o (mem_append_right _ ho)
        · exact hlt o ho l hl
      · rcases hvisited with rfl | ⟨l, later, rfl, hbeyond⟩
        · exact .inl rfl
        · exact .inr ⟨l, later, rfl, hbeyond⟩
      · rintro ⟨hmax, hearlier⟩
        refine hstop ⟨hmax, fun o ho => not_le.mp fun hle => ?_⟩
        obtain ⟨l', hl', hfront, -⟩ := hearlier o ho hle
        rcases mem_cons.mp hl' with rfl | hl'
        · exact absurd hfront (not_lt.mpr hleaflet.range)
        · have hrange := (hok l' (mem_cons_of_mem _ hl')).range
          exact absurd (hfront.trans_le (hleaflet.range.trans ((hbehind l' hl').le.trans hrange)))
            (lt_irrefl _)
      · rintro ⟨hmax, hearlier⟩
        refine hstops l hl ⟨hmax, fun o ho hle => ?_⟩
        obtain ⟨l', hl', h⟩ := hearlier o (mem_append_right _ ho) hle
        rcases mem_cons.mp hl' with rfl | hl'
        · exact absurd (hlater o ho) (not_lt.mpr h.2)
        · exact ⟨l', hl', h⟩
      · rw [heq, hrest, flatMap_cons, mergedOut_append]
        · intro row hrow o ho
          exact lt_of_le_of_lt (matching_le hleaflet hrow).2 (hlater o (mem_append_left _ ho))
        · intro row hrow o ho
          obtain ⟨l, hl, hrow⟩ := mem_flatMap.mp hrow
          have hl := hscan.subset l hl
          exact lt_of_le_of_lt (htaken o ho) (lt_of_lt_of_le (hbehind l hl)
            (matching_le (hok l (mem_cons_of_mem _ hl)) hrow).1)

/-- An operation is left behind the leaflets, or behind one that the scan stops at. -/
theorem scanLeaf_left (hok : ∀ l ∈ leaflets, l.Ok c.order)
    (hapart : leaflets.Pairwise fun a b => a.lastKey.sortKey c.order < b.firstKey.sortKey c.order)
    (hops : OpsSorted c.order ops) :
    (c.scanLeaf sort leaflets ops).2 ≠ [] ↔
      ∃ o ∈ ops, (∀ l ∈ leaflets, l.lastKey.sortKey c.order < o.key.sortKey c.order) ∨
        ∃ l ∈ leaflets, StopsAt c leaflets ops l ∧
          l.lastKey.sortKey c.order < o.key.sortKey c.order := by
  obtain ⟨visited, taken, rest, hscan, hstops, heq⟩ :=
    scanLeaf_spec sort hreplay hok hapart hops
  rw [heq, ne_nil_iff_exists_mem]
  constructor
  · rintro ⟨o, ho⟩
    have hin : o ∈ ops := hscan.split ▸ mem_append_right _ ho
    rcases hscan.visited_or_beyond with rfl | ⟨l, later, rfl, hbeyond, hlater⟩
    · exact ⟨o, hin, .inl (hscan.lt_rest o ho)⟩
    · refine ⟨o, hin, .inr ⟨l, by simp, ⟨hbeyond, fun o' ho' hle => ?_⟩, hlater o ho⟩⟩
      -- what is not left was taken by a leaflet in front of this one
      rw [hscan.split] at ho'
      obtain ⟨l', hl', hle'⟩ := hscan.taken_le o' ((mem_append.mp ho').resolve_right fun h =>
        absurd (hlater o' h) (not_lt.mpr hle))
      exact ⟨l', mem_append_left _ hl', (pairwise_append.mp hapart).2.2 l' hl' l mem_cons_self, hle'⟩
  · rintro ⟨o, ho, hcase⟩
    rw [hscan.split] at ho
    refine ⟨o, (mem_append.mp ho).resolve_left fun htaken => ?_⟩
    obtain ⟨l', hl', hle⟩ := hscan.taken_le o htaken
    rcases hcase with hall | ⟨l, hl, hstop, hlast⟩
    · exact absurd (hall l' (hscan.subset l' hl')) (not_lt.mpr hle)
    · -- a leaflet before one that was visited was visited
      refine hstops l ?_ hstop
      rcases hscan.visited_or_beyond with rfl | ⟨l₀, later, rfl, -⟩
      · exact hl
      · refine (mem_append.mp hl).resolve_right fun hbehind => ?_
        have hfront := (pairwise_append.mp hapart).2.2 l' hl' l hbehind
        exact absurd (hle.trans_lt (hfront.trans_le ((hok l hl).range.trans hlast.le))) (lt_irrefl _)

theorem scanLeaf_append {leaflets : List Leaflet} (hok : ∀ l ∈ leaflets, l.Ok c.order)
    {ops later : List OverlayOp}
    (hlater : ∀ o ∈ later, ∀ l ∈ leaflets, l.lastKey.sortKey c.order < o.key.sortKey c.order) :
    c.scanLeaf sort leaflets (ops ++ later) =
      ((c.scanLeaf sort leaflets ops).1, (c.scanLeaf sort leaflets ops).2 ++ later) := by
  induction leaflets generalizing ops with
  | nil => rfl
  | cons leaflet leaflets ih =>
    have hleaflet := hok leaflet mem_cons_self
    have hout : ∀ o ∈ later, c.upTo leaflet o = false := by
      intro o ho
      rw [bne_eq_false_iff_eq, cmpV2_gt]
      exact hlater o ho leaflet mem_cons_self
    have hpending : c.pendingFor leaflet (ops ++ later) = c.pendingFor leaflet ops := by
      cases ops with
      | cons => rfl
      | nil =>
        cases later with
        | nil => rfl
        | cons o => simpa [pendingFor] using hout o
    have hstop : c.stopsAt leaflet (ops ++ later) = c.stopsAt leaflet ops := by
      rw [stopsAt, hpending, stopsAt]
    obtain ⟨htake, hdrop⟩ := takeWhile_append_cut hout ops
    rw [scanLeaf_cons, scanLeaf_cons, visitLeaflet_eq sort hreplay hleaflet,
      visitLeaflet_eq sort hreplay hleaflet, hstop, htake, hdrop]
    by_cases hs : c.stopsAt leaflet ops = true
    · simp only [if_pos hs]
    · have ih := @ih (fun l hl => hok l (mem_cons_of_mem _ hl)) (ops.dropWhile (c.upTo leaflet))
        (fun o ho l hl => hlater o ho l (mem_cons_of_mem _ hl))
      simp only [if_neg hs, ih]

end

/-! ### The leaves -/

/-- The scan of leaves with the operations that are pending. -/
def scanOpened (first : Bool) : List Leaf → List OverlayOp → List Row × List OverlayOp
  | [], ops => ([], ops)
  | leaf :: leaves, ops =>
    let pending := if first then ops
      else ops.dropWhile fun o => cmpV2ForOrder c.order o.key leaf.firstKey == .lt
    let scan := c.scanLeaf sort (c.seekLeaflets leaf) pending
    let later := scanOpened false leaves scan.2
    (scan.1 ++ later.1, later.2)

variable {c} (hreplay : c.needReplay = false)

theorem seekLeaflets_sublist (leaf : Leaf) : (c.seekLeaflets leaf).Sublist leaf.leaflets := by
  unfold seekLeaflets
  split
  · exact refl _
  · split
    · exact refl _
    · exact drop_sublist _ _

/-- The operations of a leaf and the later ones are what is pending from the leaf's first key
on, or from the start for the first leaf. The later ones belong to the next leaf or behind. -/
theorem slice_spec {leaf : Leaf} {next : Option Leaf}
    (hnext : ∀ n ∈ next, leaf.firstKey.sortKey c.order ≤ n.firstKey.sortKey c.order)
    (hops : OpsSorted c.order ops) (first : Bool) :
    let window := computeOverlayWindow c.order ops leaf.firstKey (next.map Leaf.firstKey) first
    (ops.drop window.1).take (window.2 - window.1) ++ ops.drop window.2 =
        (if first then ops
          else ops.dropWhile fun o => cmpV2ForOrder c.order o.key leaf.firstKey == .lt) ∧
      ∀ o ∈ ops.drop window.2, ∃ n ∈ next,
        n.firstKey.sortKey c.order ≤ o.key.sortKey c.order := by
  by_cases hempty : ops = []
  · simp [hempty]
  · set start := if first then 0
      else partitionPoint (fun o => cmpV2ForOrder c.order o.key leaf.firstKey == .lt) ops with hstart
    have hdrop : ops.drop start = if first then ops
        else ops.dropWhile fun o => cmpV2ForOrder c.order o.key leaf.firstKey == .lt := by
      cases first with
      | true => rfl
      | false => exact drop_takeWhile_length _ ops
    rw [← hdrop]
    cases next with
    | none =>
      have hwindow : computeOverlayWindow c.order ops leaf.firstKey
          ((none : Option Leaf).map Leaf.firstKey) first = (start, ops.length) := by
        simp [computeOverlayWindow, hempty, hstart]
      rw [hwindow]
      simp only [drop_length, append_nil, not_mem_nil, false_imp_iff, implies_true,
        and_true]
      exact take_of_length_le (by simp)
    | some n =>
      set stop := partitionPoint (fun o => cmpV2ForOrder c.order o.key n.firstKey == .lt) ops
        with hstop
      have hwindow : computeOverlayWindow c.order ops leaf.firstKey
          ((some n).map Leaf.firstKey) first = (start, stop) := by
        simp [computeOverlayWindow, hempty, hstart, hstop]
      have hle : start ≤ stop := by
        rw [hstart]
        split
        · exact Nat.zero_le _
        · refine partitionPoint_mono (fun o ho => ?_) ops
          rw [beq_iff_eq, cmpV2_lt] at ho ⊢
          exact ho.trans_le (hnext n rfl)
      rw [hwindow]
      refine ⟨?_, fun o ho => ⟨n, rfl, ?_⟩⟩
      · have hrest : ops.drop stop = (ops.drop start).drop (stop - start) := by
          rw [drop_drop]
          congr 1
          omega
        rw [hrest, take_append_drop]
      · rw [drop_takeWhile_length] at ho
        exact @not_lt_of_mem_dropWhile OverlayOp (List ℕ) _ (fun o => o.key.sortKey c.order) _ _
          (fun o => by rw [beq_iff_eq, cmpV2_lt]) _ (hops.imp le_of_lt) o ho

theorem ReadsAs.scanOpened_eq {c d : BinaryCursor} (h : ReadsAs c d) (first : Bool)
    (leaves : List Leaf) (ops : List OverlayOp) :
    c.scanOpened sort first leaves ops = d.scanOpened sort first leaves ops := by
  induction leaves generalizing first ops with
  | nil => rfl
  | cons leaf leaves ih =>
    simp only [scanOpened, h.order, h.seekLeaflets_eq, h.scanLeaf_eq, ih]

/-- What a cursor over these leaves puts out: the scan of the leaves, and what comes behind the
last one. -/
theorem scanLeaves_eq {n : ℕ} {c : BinaryCursor} (hreplay : c.needReplay = false)
    (hok : ∀ leaf ∈ c.ahead, leaf.Ok c.order)
    (hapart : c.ahead.Pairwise fun a b => a.lastKey.sortKey c.order < b.firstKey.sortKey c.order)
    (hops : OpsSorted c.order (c.leafOps ++ c.laterOps)) (hn : n ≤ c.ahead.length) :
    let scan := c.scanOpened sort c.atFirst (c.ahead.take n) (c.leafOps ++ c.laterOps)
    scanLeaves sort n c = scan.1 ++ if scan.2.isEmpty then []
      else ((scan.2 ++ c.beyondOps).filter c.emits).map OverlayOp.row := by
  dsimp only
  induction n generalizing c with
  | zero => rfl
  | succ n ih =>
    cases hahead : c.ahead with
    | nil => simp [hahead] at hn
    | cons leaf rest =>
      rw [hahead] at hok hapart hn
      obtain ⟨hbehind, hapart⟩ := pairwise_cons.mp hapart
      have hleaf := hok leaf mem_cons_self
      have hnext : ∀ next ∈ rest.head?,
          leaf.firstKey.sortKey c.order ≤ next.firstKey.sortKey c.order := fun next hnext =>
        hleaf.range.trans (hbehind next (mem_of_mem_head? hnext)).le
      obtain ⟨hsplit, hlater⟩ := slice_spec hnext hops c.atFirst
      set d := c.openLeaf leaf rest n with hd
      have hpending : d.leafOps ++ d.laterOps = if c.atFirst then c.leafOps ++ c.laterOps
          else (c.leafOps ++ c.laterOps).dropWhile fun o =>
            cmpV2ForOrder c.order o.key leaf.firstKey == .lt := hsplit
      have hsorted : OpsSorted c.order (d.leafOps ++ d.laterOps) := by
        rw [hpending]
        split
        · exact hops
        · exact hops.sublist (dropWhile_sublist _)
      have hleaflets : ∀ l ∈ c.seekLeaflets leaf, l.Ok c.order := fun l hl =>
        hleaf.leaflets l ((seekLeaflets_sublist leaf).subset hl)
      have hlast : ∀ o ∈ d.laterOps, ∀ l ∈ c.seekLeaflets leaf,
          l.lastKey.sortKey c.order < o.key.sortKey c.order := by
        intro o ho l hl
        obtain ⟨next, hmem, hle⟩ := hlater o ho
        have hend := hleaf.le_last l ((seekLeaflets_sublist leaf).subset hl)
        exact (hend.trans_lt (hbehind next (mem_of_mem_head? hmem))).trans_le hle
      set scan := c.scanLeaf sort (c.seekLeaflets leaf) d.leafOps
      have hscan : d.scanLeaf sort (d.currentLeaf.getD []) d.leafOps = scan := by
        have hreads : ReadsAs d c := ⟨rfl, rfl, rfl, rfl, rfl, rfl⟩
        exact hreads.scanLeaf_eq _ _
      have happend := @scanLeaf_append sort c hreplay _ hleaflets d.leafOps _ hlast
      obtain ⟨visited, taken, left, hspec, -, heq⟩ := scanLeaf_spec sort hreplay hleaflets
        (hleaf.apart.sublist (seekLeaflets_sublist leaf)) hsorted
      have hleft : scan.2 ++ d.laterOps = left := by
        rw [happend] at heq
        exact congrArg Prod.snd heq
      have hopened : c.scanOpened sort c.atFirst (leaf :: rest.take n) (c.leafOps ++ c.laterOps) =
          (scan.1 ++ (c.scanOpened sort false (rest.take n) left).1,
            (c.scanOpened sort false (rest.take n) left).2) := by
        rw [scanOpened, ← hpending, happend, hleft]
      have hunfold : scanLeaves sort (n + 1) c =
          scan.1 ++ scanLeaves sort n { d with currentLeaf := none, leafOps := scan.2 } := by
        rw [← hscan, scanLeaves, hahead]
      -- the cursor behind the leaf
      generalize he : ({ d with currentLeaf := none, leafOps := scan.2 } : BinaryCursor) = e
        at hunfold
      have hops' : e.leafOps ++ e.laterOps = left := by rw [← he]; exact hleft
      have hsorted' : OpsSorted c.order left := by
        rw [hspec.split] at hsorted
        exact hsorted.sublist (sublist_append_right _ _)
      have hreads : ReadsAs e c := by
        rw [← he]
        exact ⟨rfl, rfl, rfl, rfl, rfl, rfl⟩
      obtain ⟨hfirst', hahead', hbeyond⟩ : e.atFirst = false ∧ e.ahead = rest ∧
          e.beyondOps = c.beyondOps := by
        rw [← he]
        exact ⟨rfl, rfl, rfl⟩
      have hrest := @ih e (hreads.needReplay_eq.trans hreplay)
      rw [hfirst', hahead', hops', hreads.order, hreads.scanOpened_eq, hreads.emits_eq, hbeyond]
        at hrest
      have hrest := hrest (fun l hl => hok l (mem_cons_of_mem _ hl)) hapart hsorted'
        (Nat.le_of_succ_le_succ hn)
      rw [hunfold, hrest, take_succ_cons, hopened, append_assoc]

/-- Behind one leaf's leaflets and before the next leaf. -/
def Between (order : RunSortOrder) (leaf next : Leaf) (o : OverlayOp) : Prop :=
  (∀ l ∈ leaf.leaflets, l.lastKey.sortKey order < o.key.sortKey order) ∧
    o.key.sortKey order < next.firstKey.sortKey order

/-- Between two leaves that are opened one after the other. -/
def Lost (order : RunSortOrder) (opened : List Leaf) (o : OverlayOp) : Prop :=
  ∃ leaf next, [leaf, next] <:+: opened ∧ Between order leaf next o

theorem lost_cons {order : RunSortOrder} {leaf : Leaf} {leaves : List Leaf} {o : OverlayOp} :
    Lost order (leaf :: leaves) o ↔
      (∃ next ∈ leaves.head?, Between order leaf next o) ∨ Lost order leaves o := by
  unfold Lost
  simp only [infix_cons_iff]
  constructor
  · rintro ⟨l, next, hprefix | hinfix, hbetween⟩
    · obtain ⟨rfl, hnext⟩ := cons_prefix_cons.mp hprefix
      cases leaves with
      | nil => simp at hnext
      | cons =>
        obtain ⟨rfl, -⟩ := cons_prefix_cons.mp hnext
        exact .inl ⟨next, rfl, hbetween⟩
    · exact .inr ⟨l, next, hinfix, hbetween⟩
  · rintro (⟨next, hnext, hbetween⟩ | ⟨l, next, hinfix, hbetween⟩)
    · cases leaves with
      | nil => cases hnext
      | cons next' =>
        obtain rfl : next' = next := Option.some.inj hnext
        refine ⟨leaf, next', .inl ?_, hbetween⟩
        exact cons_prefix_cons.mpr ⟨rfl, cons_prefix_cons.mpr ⟨rfl, nil_prefix⟩⟩
    · exact ⟨l, next, .inr hinfix, hbetween⟩

def InRange (c : BinaryCursor) (key : FactKeyV3) : Prop :=
  (∀ minKey ∈ c.rangeMin, minKey.sortKey c.order ≤ key.sortKey c.order) ∧
    ∀ maxKey ∈ c.rangeMax, key.sortKey c.order ≤ maxKey.sortKey c.order

/-- What a scan of leaves amounts to: the rows that were merged with the operations that were
kept, and the operations that are left. Within the range no row is missing, and an operation
is missing exactly if it is lost between leaves. -/
structure ScansLeaves (c : BinaryCursor) (first : Bool) (leaves : List Leaf) (ops : List OverlayOp)
    (rows : List Row) (kept rest : List OverlayOp) : Prop where
  sorted : RowsSorted c.order rows
  sublist : (kept ++ rest).Sublist ops
  lt_rest : ∀ row ∈ rows, ∀ o ∈ rest, row.key.sortKey c.order < o.key.sortKey c.order
  of_leaf : ∀ row ∈ rows, ∃ leaf ∈ leaves, row ∈ leaf.rows ∧ c.filter.matchesKey row.key = true
  complete : ∀ leaf ∈ leaves, ∀ row ∈ leaf.rows, c.filter.matchesKey row.key = true →
    InRange c row.key → row ∈ rows
  missing_iff : ∀ o ∈ ops, (∀ minKey ∈ c.rangeMin, minKey.sortKey c.order ≤ o.key.sortKey c.order) →
    (o ∉ kept ++ rest ↔
      (first = false ∧ ∃ leaf ∈ leaves.head?, o.key.sortKey c.order < leaf.firstKey.sortKey c.order) ∨
        Lost c.order leaves o)

include hreplay in
/-- A leaflet that is passed over by the seek is in front of the range. -/
theorem mem_seekLeaflets {leaf : Leaf} {l : Leaflet} (hl : l ∈ leaf.leaflets) :
    l ∈ c.seekLeaflets leaf ∨
      ∃ minKey ∈ c.rangeMin, l.lastKey.sortKey c.order < minKey.sortKey c.order := by
  unfold seekLeaflets
  rw [if_neg (by simp [hreplay])]
  cases hmin : c.rangeMin with
  | none => exact .inl hl
  | some minKey =>
    dsimp only
    rw [drop_takeWhile_length]
    rw [← takeWhile_append_dropWhile
      (p := fun e : Leaflet => cmpV2ForOrder c.order e.lastKey minKey == .lt)
      (l := leaf.leaflets)] at hl
    rcases mem_append.mp hl with hl | hl
    · have hlt := mem_takeWhile_imp (p := fun e : Leaflet =>
        cmpV2ForOrder c.order e.lastKey minKey == .lt) hl
      exact .inr ⟨minKey, rfl, cmpV2_lt.mp (by simpa using hlt)⟩
    · exact .inl hl

/-- What is pending for a leaf: all operations for the first, those from its first key on for
another. -/
def pendingAt (c : BinaryCursor) (first : Bool) (leaf : Leaf) (ops : List OverlayOp) :
    List OverlayOp :=
  if first then ops else ops.filter fun o => cmpV2ForOrder c.order o.key leaf.firstKey != .lt

theorem dropWhile_before {leaf : Leaf} (hops : OpsSorted c.order ops) :
    (ops.dropWhile fun o => cmpV2ForOrder c.order o.key leaf.firstKey == .lt) =
      ops.filter fun o => cmpV2ForOrder c.order o.key leaf.firstKey != .lt := by
  refine dropWhile_eq_filter (hops.imp fun hab hb => ?_)
  rw [beq_iff_eq, cmpV2_lt] at hb ⊢
  exact hab.trans hb

theorem pendingAt_sublist (first : Bool) (leaf : Leaf) (ops : List OverlayOp) :
    (pendingAt c first leaf ops).Sublist ops := by
  unfold pendingAt
  split
  · exact refl _
  · exact filter_sublist

theorem not_mem_pendingAt {first : Bool} {leaf : Leaf} {o : OverlayOp} (ho : o ∈ ops) :
    o ∉ pendingAt c first leaf ops ↔
      first = false ∧ o.key.sortKey c.order < leaf.firstKey.sortKey c.order := by
  cases first with
  | true => simp [pendingAt, ho]
  | false => simp [pendingAt, ho, ← cmpV2_lt]

theorem scanOpened_cons (first : Bool) (leaf : Leaf) (leaves : List Leaf)
    (hops : OpsSorted c.order ops) :
    c.scanOpened sort first (leaf :: leaves) ops =
      ((c.scanLeaf sort (c.seekLeaflets leaf) (pendingAt c first leaf ops)).1 ++
          (c.scanOpened sort false leaves
            (c.scanLeaf sort (c.seekLeaflets leaf) (pendingAt c first leaf ops)).2).1,
        (c.scanOpened sort false leaves
          (c.scanLeaf sort (c.seekLeaflets leaf) (pendingAt c first leaf ops)).2).2) := by
  rw [scanOpened, dropWhile_before hops]
  rfl

section

variable {leaf : Leaf} {leaves : List Leaf} (hleaf : leaf.Ok c.order)
  (hok : ∀ l ∈ leaves, l.Ok c.order)
  (hbehind : ∀ l ∈ leaves, leaf.lastKey.sortKey c.order < l.firstKey.sortKey c.order) {first : Bool}
  {visited : List Leaflet} {taken left : List OverlayOp}
  (hscan : ScansLeaf c (c.seekLeaflets leaf) (pendingAt c first leaf ops) visited taken left)
  {rows : List Row} {kept rest : List OverlayOp}
  (hrest : ScansLeaves c false leaves left rows kept rest)

omit hreplay in
theorem mem_leaf_of_beyond {l : Leaflet} {later : List Leaflet}
    (h : c.seekLeaflets leaf = visited ++ l :: later) : l ∈ leaf.leaflets :=
  (seekLeaflets_sublist (c := c) leaf).subset (h ▸ mem_append_right _ mem_cons_self)

include hscan

theorem ScansLeaf.mem_leaf : ∀ l ∈ visited, l ∈ leaf.leaflets := fun l hl =>
  (seekLeaflets_sublist leaf).subset (hscan.subset l hl)

theorem ScansLeaf.left_sublist : left.Sublist (pendingAt c first leaf ops) := by
  rw [hscan.split]
  exact sublist_append_right _ _

include hleaf

theorem visited_row (hrow : row ∈ visited.flatMap c.matching) :
    row ∈ leaf.rows ∧ c.filter.matchesKey row.key = true ∧
      ∃ l ∈ visited, row.key.sortKey c.order ≤ l.lastKey.sortKey c.order := by
  obtain ⟨l, hl, hrow⟩ := mem_flatMap.mp hrow
  have hmem := hscan.mem_leaf l hl
  exact ⟨mem_flatMap.mpr ⟨l, hmem, mem_of_mem_filter hrow⟩,
    (mem_filter.mp hrow).2, l, hl, (matching_le (hleaf.leaflets l hmem) hrow).2⟩

theorem visited_sorted : RowsSorted c.order (visited.flatMap c.matching) := by
  have hsub : visited.Sublist leaf.leaflets := by
    refine Sublist.trans ?_ (seekLeaflets_sublist (c := c) leaf)
    rcases hscan.visited_or_beyond with rfl | ⟨l, later, heq, -⟩
    · exact refl _
    · rw [heq]
      exact sublist_append_left _ _
  refine @rowsSorted_flatMap c.order _ visited c.matching (fun l => l.firstKey.sortKey c.order)
    (fun l => l.lastKey.sortKey c.order) ?_ ?_ ?_ (hleaf.apart.sublist hsub)
  · exact fun l hl => (hleaf.leaflets l (hsub.subset hl)).sorted.sublist filter_sublist
  · exact fun l hl row hrow => (matching_le (hleaf.leaflets l (hsub.subset hl)) hrow).1
  · exact fun l hl row hrow => (matching_le (hleaf.leaflets l (hsub.subset hl)) hrow).2

theorem visited_complete (hreplay : c.needReplay = false) (hrow : row ∈ leaf.rows)
    (hmatch : c.filter.matchesKey row.key = true) (hrange : InRange c row.key) :
    row ∈ visited.flatMap c.matching := by
  obtain ⟨l, hl, hrow⟩ := mem_flatMap.mp hrow
  have hlok := hleaf.leaflets l hl
  refine mem_flatMap.mpr ⟨l, ?_, mem_filter.mpr ⟨hrow, hmatch⟩⟩
  rcases mem_seekLeaflets hreplay hl with hseek | ⟨minKey, hmin, hlt⟩
  · rcases hscan.visited_or_beyond with rfl | ⟨l₀, later, heq, ⟨maxKey, hmax, hgt⟩, -⟩
    · exact hseek
    · rw [heq] at hseek
      refine (mem_append.mp hseek).resolve_right fun hbeyond => ?_
      have hfrom : l₀.firstKey.sortKey c.order ≤ l.firstKey.sortKey c.order := by
        have hapart := hleaf.apart.sublist (seekLeaflets_sublist (c := c) leaf)
        rw [heq] at hapart
        have hlater := (pairwise_append.mp hapart).2.1
        rcases mem_cons.mp hbeyond with rfl | hl'
        · exact le_rfl
        · have hl₀ := mem_leaf_of_beyond heq
          exact (hleaf.leaflets l₀ hl₀).range.trans ((pairwise_cons.mp hlater).1 l hl').le
      have hle := hrange.2 maxKey hmax
      exact absurd (hgt.trans_le (hfrom.trans (hlok.first_le row hrow))) (not_lt.mpr hle)
  · exact absurd ((hlok.le_last row hrow).trans_lt hlt) (not_lt.mpr (hrange.1 minKey hmin))

include hok hbehind hrest in
/-- The scan of one leaf and the scan of the leaves behind it make one. -/
theorem ScansLeaves.cons (hreplay : c.needReplay = false)
    (hmax : ∀ l ∈ leaves, ∀ maxKey ∈ c.rangeMax,
      l.firstKey.sortKey c.order ≤ maxKey.sortKey c.order) :
    ScansLeaves c first (leaf :: leaves) ops (visited.flatMap c.matching ++ rows) (taken ++ kept)
      rest := by
  have hleft : (kept ++ rest).Sublist left := hrest.sublist
  have hlater : ∀ row ∈ rows, leaf.lastKey.sortKey c.order < row.key.sortKey c.order := by
    intro row hrow
    obtain ⟨l, hl, hmem, -⟩ := hrest.of_leaf row hrow
    exact (hbehind l hl).trans_le ((hok l hl).first_le_row hmem)
  refine ⟨?_, ?_, ?_, ?_, ?_, ?_⟩
  · refine pairwise_append.mpr ⟨visited_sorted hleaf hscan, hrest.sorted, fun a ha b hb => ?_⟩
    exact (hleaf.row_le_last (visited_row hleaf hscan ha).1).trans_lt (hlater b hb)
  · rw [append_assoc]
    refine List.Sublist.trans ?_ (pendingAt_sublist (c := c) first leaf ops)
    rw [hscan.split]
    exact List.Sublist.append (List.Sublist.refl taken) hleft
  · refine forall_mem_append.mpr ⟨fun row hrow o ho => ?_, hrest.lt_rest⟩
    obtain ⟨-, -, l, hl, hle⟩ := visited_row hleaf hscan hrow
    exact hle.trans_lt (hscan.lt_rest o (hleft.subset (mem_append_right _ ho)) l hl)
  · refine forall_mem_append.mpr ⟨fun row hrow => ?_, fun row hrow => ?_⟩
    · obtain ⟨hmem, hmatch, -⟩ := visited_row hleaf hscan hrow
      exact ⟨leaf, mem_cons_self, hmem, hmatch⟩
    · obtain ⟨l, hl, h⟩ := hrest.of_leaf row hrow
      exact ⟨l, mem_cons_of_mem _ hl, h⟩
  · refine forall_mem_cons.mpr ⟨fun row hrow hmatch hrange => ?_,
      fun l hl row hrow hmatch hrange => ?_⟩
    · exact mem_append_left _ (visited_complete hleaf hscan hreplay hrow hmatch hrange)
    · exact mem_append_right _ (hrest.complete l hl row hrow hmatch hrange)
  · intro o ho hmin
    -- an operation of a later leaf, or between leaves, is not taken by a leaflet of this one
    have hnot_taken : Lost c.order (leaf :: leaves) o → o ∉ taken := by
      intro hlost htaken
      obtain ⟨l, hl, hle⟩ := hscan.taken_le o htaken
      have hmem := hscan.mem_leaf l hl
      rcases lost_cons.mp hlost with ⟨next, -, hbetween⟩ | ⟨l', next, hinfix, hbetween⟩
      · exact absurd (hbetween.1 l hmem) (not_lt.mpr hle)
      · have hl' : l' ∈ leaves := hinfix.subset mem_cons_self
        obtain ⟨m, hm⟩ := exists_mem_of_ne_nil _ (hok l' hl').nonempty
        have hlt := hbetween.1 m hm
        have hup := (hleaf.le_last l hmem).trans_lt
          ((hbehind l' hl').trans_le (((hok l' hl').first_le m hm).trans
            ((hok l' hl').leaflets m hm).range))
        exact absurd (hle.trans_lt (hup.trans hlt)) (lt_irrefl _)
    have hhead : (first = false ∧ ∃ l ∈ (leaf :: leaves).head?,
        o.key.sortKey c.order < l.firstKey.sortKey c.order) ↔ o ∉ taken ++ left := by
      rw [← hscan.split, not_mem_pendingAt ho]
      simp
    rw [hhead, append_assoc, mem_append, not_or, lost_cons]
    by_cases hpending : o ∈ taken ++ left
    · simp only [hpending, not_true, false_or]
      constructor
      · rintro ⟨htaken, hmissing⟩
        have hin := (mem_append.mp hpending).resolve_left htaken
        rcases (hrest.missing_iff o hin hmin).mp hmissing with ⟨-, next, hnext, hlt⟩ | hlost
        · refine .inl ⟨next, hnext, fun l hl => ?_, hlt⟩
          have hnext' := mem_of_mem_head? hnext
          rcases mem_seekLeaflets hreplay hl with hseek | ⟨minKey, hmk, hfront⟩
          · rcases hscan.visited_or_beyond with rfl | ⟨l₀, later, heq, ⟨maxKey, hmk, hgt⟩, -⟩
            · exact hscan.lt_rest o hin l hseek
            · have hl₀ := mem_leaf_of_beyond heq
              have hup := ((hleaf.leaflets l₀ hl₀).range.trans (hleaf.le_last l₀ hl₀)).trans_lt
                ((hbehind next hnext').trans_le (hmax next hnext' maxKey hmk))
              exact absurd (hgt.trans hup) (lt_irrefl _)
          · exact hfront.trans_le (hmin minKey hmk)
        · exact .inr hlost
      · intro hlost
        refine ⟨hnot_taken (lost_cons.mpr hlost), fun hin => ?_⟩
        refine (hrest.missing_iff o (hleft.subset hin) hmin).mpr ?_ hin
        rcases hlost with ⟨next, hnext, hbetween⟩ | hlost
        · exact .inl ⟨rfl, next, hnext, hbetween.2⟩
        · exact .inr hlost
    · refine iff_of_true ⟨fun h => hpending ?_, fun h => hpending ?_⟩ (.inl hpending)
      · exact mem_append_left _ h
      · exact mem_append_right _ (hleft.subset h)

end

theorem scanOpened_spec (hreplay : c.needReplay = false) {leaves : List Leaf}
    (hok : ∀ leaf ∈ leaves, leaf.Ok c.order)
    (hapart : leaves.Pairwise fun a b => a.lastKey.sortKey c.order < b.firstKey.sortKey c.order)
    (hmax : ∀ leaf ∈ leaves, ∀ maxKey ∈ c.rangeMax,
      leaf.firstKey.sortKey c.order ≤ maxKey.sortKey c.order) (hops : OpsSorted c.order ops)
    (first : Bool) :
    ∃ rows kept rest, ScansLeaves c first leaves ops rows kept rest ∧
      c.scanOpened sort first leaves ops = (c.mergedOut rows kept, rest) := by
  induction leaves generalizing ops first with
  | nil =>
    refine ⟨[], [], ops, ⟨Pairwise.nil, refl _, by simp, by simp, by simp, ?_⟩, rfl⟩
    intro o ho _
    simp [ho, Lost]
  | cons leaf leaves ih =>
    obtain ⟨hbehind, hapart⟩ := pairwise_cons.mp hapart
    have hleaf := hok leaf mem_cons_self
    have hok' := fun l hl => hok l (mem_cons_of_mem leaf hl)
    have hmax' := fun l hl => hmax l (mem_cons_of_mem leaf hl)
    have hpending := hops.sublist (pendingAt_sublist (c := c) first leaf ops)
    obtain ⟨visited, taken, left, hscan, -, hout⟩ := scanLeaf_spec sort hreplay
      (fun l hl => hleaf.leaflets l ((seekLeaflets_sublist leaf).subset hl))
      (hleaf.apart.sublist (seekLeaflets_sublist leaf)) hpending
    obtain ⟨rows, kept, rest, hrest, hlater⟩ :=
      ih hok' hapart hmax' (hpending.sublist hscan.left_sublist) false
    refine ⟨_, _, rest, ScansLeaves.cons hleaf hok' hbehind hscan hrest hreplay hmax', ?_⟩
    rw [scanOpened_cons sort first leaf leaves hops, hout]
    rw [hlater, mergedOut_append]
    · intro row hrow o ho
      obtain ⟨-, -, l, hl, hle⟩ := visited_row hleaf hscan hrow
      refine hle.trans_lt (hscan.lt_rest o (hrest.sublist.subset ?_) l hl)
      exact mem_append_left _ ho
    · intro row hrow o ho
      obtain ⟨l, hl, hle⟩ := hscan.taken_le o ho
      obtain ⟨l', hl', hmem, -⟩ := hrest.of_leaf row hrow
      exact (hle.trans (hleaf.le_last l (hscan.mem_leaf l hl))).trans_lt
        ((hbehind l' hl').trans_le ((hok' l' hl').first_le_row hmem))

end BinaryCursor

end FlureeDb.Index
