import FlureeDb.Index.Rebuild
import FlureeDb.Index.TimeTravel

/-!
Time travel over a rebuilt branch. A replay undoes what came after the target, so it takes a
fact for present if the next thing that happens to it is a retract. That is right if every
operation changes the state of its fact. It does not matter that a fact's history may stand in
another leaflet than its row. What does matter is that no history is lost.
-/

namespace FlureeDb.Index

open Lib LeafWriter List

variable {leaves : List Leaf}

section

variable (sort : UnstableSort) {order : RunSortOrder}

def leafletsOf (leaves : List Leaf) : List Leaflet := leaves.flatMap Leaf.leaflets

/-- Some leaflet has the fact as of a `t`. -/
def PresentAt (order : RunSortOrder) (leaves : List Leaf) (t : ℤ) (key : FactKeyV3) : Prop :=
  ∃ leaflet ∈ leafletsOf leaves,
    ∃ row ∈ replayed leaflet.rows leaflet.history sort order t, row.key = key

/-- A fact whose row is later than its history is replayed by its row or its history. -/
theorem key_mem_replayed_of_later {rows : List Row} {history : List HistEntryV2} {target : ℕ}
    {key : FactKeyV3} (hsorted : RowsSorted order rows) (hnewest : NewestFirst history)
    (hlate : ∀ row ∈ rows, row.key = key → ∀ e ∈ history, e.key = key → e.t < row.t) :
    (∃ row ∈ replayed rows history sort order target, row.key = key) ↔
      (∃ row ∈ rows, row.key = key ∧ row.t ≤ target) ∨ Restored [] history target key := by
  rw [key_mem_replayed sort hsorted hnewest]
  constructor
  · rintro (⟨row, hrow, hkey, huntouched⟩ | ⟨e, he, hkey, ht, hop, hmin, -⟩)
    · refine .inl ⟨row, hrow, hkey, ?_⟩
      by_contra hgt
      exact huntouched (.inr ⟨row, hrow, hkey, by omega⟩)
    · exact .inr ⟨e, he, hkey, ht, hop, hmin, by simp⟩
  · rintro (⟨row, hrow, hkey, ht⟩ | ⟨e, he, hkey, ht, hop, hmin, -⟩)
    · refine .inl ⟨row, hrow, hkey, ?_⟩
      rintro (⟨e, he, hekey, het⟩ | ⟨row', hrow', hkey', ht'⟩)
      · have := Fin.lt_def.mp (hlate row hrow hkey e he hekey)
        omega
      · have hsame := hsorted.eq_of_key hrow' hrow (hkey'.trans hkey.symm)
        rw [hsame] at ht'
        omega
    · exact .inr ⟨e, he, hkey, ht, hop, hmin, fun row hrow hrkey _ =>
        (hlate row hrow hrkey e he hkey).le⟩

/-- Rows are later than the history of their facts, and each fact has its history in one
leaflet. Then only all rows and all entries together matter. -/
theorem presentAt_iff (hsorted : RowsSorted order (branchRows leaves))
    (hnewest : ∀ history ∈ histories leaves, NewestFirst history)
    (hapart : (histories leaves).Pairwise fun a b => ∀ e ∈ a, ∀ e' ∈ b, e.key ≠ e'.key)
    (hlater : ∀ row ∈ branchRows leaves, ∀ e ∈ (histories leaves).flatten, e.key = row.key → e.t <
      row.t) (target : ℕ) (key : FactKeyV3) :
    PresentAt sort order leaves target key ↔
      (∃ row ∈ branchRows leaves, row.key = key ∧ row.t ≤ target) ∨
        Restored [] (histories leaves).flatten target key := by
  have hrows : branchRows leaves = (leafletsOf leaves).flatMap Leaflet.rows := by
    rw [leafletsOf, flatMap_assoc]
    rfl
  have hhist : histories leaves = (leafletsOf leaves).map Leaflet.history := by
    simp [histories, leafletsOf, map_flatMap]
  rw [hrows] at hsorted hlater ⊢
  rw [hhist] at hnewest hapart hlater ⊢
  unfold PresentAt
  generalize leafletsOf leaves = leaflets at *
  have hmemrow : ∀ leaflet ∈ leaflets, ∀ row ∈ leaflet.rows, row ∈ leaflets.flatMap Leaflet.rows :=
    fun leaflet hl row hrow => mem_flatMap.mpr ⟨leaflet, hl, hrow⟩
  have hmemhist : ∀ leaflet ∈ leaflets, ∀ e ∈ leaflet.history,
      e ∈ (leaflets.map Leaflet.history).flatten :=
    fun leaflet hl e he => mem_flatten.mpr ⟨_, mem_map_of_mem hl, he⟩
  have hone : ∀ leaflet ∈ leaflets,
      ((∃ row ∈ replayed leaflet.rows leaflet.history sort order target, row.key = key) ↔
        (∃ row ∈ leaflet.rows, row.key = key ∧ row.t ≤ target) ∨
          Restored [] leaflet.history target key) := by
    intro leaflet hl
    have hrowsorted : RowsSorted order leaflet.rows := hsorted.sublist (by
      exact sublist_flatten_of_mem (mem_map_of_mem hl))
    refine key_mem_replayed_of_later sort hrowsorted (hnewest _ (mem_map_of_mem hl))
      fun row hrow hkey e he hekey => ?_
    exact hlater row (hmemrow leaflet hl row hrow) e (hmemhist leaflet hl e he)
      (hekey.trans hkey.symm)
  constructor
  · rintro ⟨leaflet, hl, hpresent⟩
    rcases (hone leaflet hl).mp hpresent with ⟨row, hrow, hkey, ht⟩ | ⟨e, he, hkey, ht, hop, hmin, -⟩
    · exact .inl ⟨row, hmemrow leaflet hl row hrow, hkey, ht⟩
    · refine .inr ⟨e, hmemhist leaflet hl e he, hkey, ht, hop, fun e' he' hkey' ht' => ?_, by simp⟩
      -- the entry is of the same leaflet
      obtain ⟨history, hhistory, he'⟩ := mem_flatten.mp he'
      by_cases hsame : history = leaflet.history
      · exact hmin e' (hsame ▸ he') hkey' ht'
      · have hsymm : Std.Symm fun a b : List HistEntryV2 => ∀ e ∈ a, ∀ e' ∈ b, e.key ≠ e'.key :=
          ⟨fun a b h e he e' he' heq => h e' he' e he heq.symm⟩
        have hdisjoint := hapart.forall hhistory (mem_map_of_mem hl) hsame
        exact absurd (hkey'.trans hkey.symm) (hdisjoint e' he' e he)
  · rintro (⟨row, hrow, hkey, ht⟩ | ⟨e, he, hkey, ht, hop, hmin, -⟩)
    · obtain ⟨leaflet, hl, hrow⟩ := mem_flatMap.mp hrow
      exact ⟨leaflet, hl, (hone leaflet hl).mpr (.inl ⟨row, hrow, hkey, ht⟩)⟩
    · obtain ⟨history, hhistory, he⟩ := mem_flatten.mp he
      obtain ⟨leaflet, hl, rfl⟩ := mem_map.mp hhistory
      exact ⟨leaflet, hl, (hone leaflet hl).mpr (.inr ⟨e, he, hkey, ht, hop,
        fun e' he' => hmin e' (hmemhist leaflet hl e' he'), by simp⟩)⟩

end

/-! ### What replays make of a log -/

variable {e : HistEntryV2} {row : Row}

section

variable {log : List HistEntryV2}

/-- Rows and entries that are a log together. The row of a fact is its last operation, and an
assert among the entries is not. -/
structure Splits (order : RunSortOrder) (rows : List Row) (history log : List HistEntryV2) : Prop where
  sorted : RowsSorted order rows
  mem : ∀ e, e ∈ log ↔ e ∈ history ∨ ∃ row ∈ rows, e = ⟨row.key, row.t, true⟩
  later : ∀ row ∈ rows, ∀ e ∈ history, e.key = row.key → e.t < row.t
  followed : ∀ e ∈ history, e.op = true → ∃ e' ∈ log, e'.key = e.key ∧ e.t < e'.t

variable {order : RunSortOrder} {rows : List Row} {history : List HistEntryV2}
  (h : Splits order rows history log)

include h

theorem Splits.le_row (hrow : row ∈ rows) (he : e ∈ log) (hkey : e.key = row.key) :
    e.t ≤ row.t := by
  rcases (h.mem e).mp he with he | ⟨row', hrow', rfl⟩
  · exact (h.later row hrow e he hkey).le
  · rw [h.sorted.eq_of_key hrow' hrow hkey]

variable {target : ℕ} {key : FactKeyV3}

/-- The row of a fact is its last operation, so undoing without it is the same. -/
theorem Splits.restored_iff : Restored [] history target key ↔ Restored [] log target key := by
  constructor
  · rintro ⟨e, he, hkey, ht, hop, hmin, -⟩
    refine ⟨e, (h.mem e).mpr (.inl he), hkey, ht, hop, fun e' he' hkey' ht' => ?_, by simp⟩
    rcases (h.mem e').mp he' with he' | ⟨row, hrow, rfl⟩
    · exact hmin e' he' hkey' ht'
    · exact (h.later row hrow e he (hkey.trans hkey'.symm)).le
  · rintro ⟨e, he, hkey, ht, hop, hmin, -⟩
    rcases (h.mem e).mp he with hin | ⟨row, -, rfl⟩
    · exact ⟨e, hin, hkey, ht, hop, fun e' he' => hmin e' ((h.mem e').mpr (.inl he')), by simp⟩
    · cases hop

theorem Splits.mem_rows_iff (hnone : ¬∃ e ∈ log, e.key = key ∧ target < e.t) :
    (∃ row ∈ rows, row.key = key ∧ row.t ≤ target) ↔ ∃ row, LogRow log target row ∧ row.key = key := by
  constructor
  · rintro ⟨row, hrow, hkey, hle⟩
    exact ⟨row, ⟨(h.mem _).mpr (.inr ⟨row, hrow, rfl⟩), by omega,
      fun e he hek _ => h.le_row hrow he hek⟩, hkey⟩
  · rintro ⟨row, ⟨hin, hle, hlast⟩, rfl⟩
    rcases (h.mem _).mp hin with hin | ⟨row', hrow', heq⟩
    · obtain ⟨e, he, hkey, hlt⟩ := h.followed _ hin rfl
      have hle : (e.t : ℤ) ≤ target := by
        by_contra hgt
        exact hnone ⟨e, he, hkey, by omega⟩
      exact absurd hlt (not_lt.mpr (hlast e he hkey hle))
    · obtain ⟨hkey, ht, -⟩ := HistEntryV2.mk.inj heq
      exact ⟨row', hrow', hkey.symm, by rw [← ht]; omega⟩

end

variable {cuts : List (List (NoveltyOp × List NoveltyOp))} {group : NoveltyOp × List NoveltyOp}

section

open KWayMerge

variable (sort : UnstableSort) {order : RunSortOrder} {targets : LeafTargets}
  {streams : List (List NoveltyOp)}

def eventLog (streams : List (List NoveltyOp)) : List HistEntryV2 :=
  streams.flatten.map NoveltyOp.histEntry

/-- Replays of the leaves to any `t` give the facts whose latest operation up to that `t` is an
assert. -/
def TravelsExactly (order : RunSortOrder) (streams : List (List NoveltyOp)) (leaves : List Leaf) :
    Prop :=
  ∀ (t : ℤ) (key : FactKeyV3), PresentAt sort order leaves t key ↔
    ∃ row, LogRow (eventLog streams) t row ∧ row.key = key

/-- Each retract, and each operation with a later one on its fact, is in a segment that a
leaflet references. -/
def HistoryStored (streams : List (List NoveltyOp)) (leaves : List Leaf) : Prop :=
  ∀ n ∈ streams.flatten, (n.op = false ∨ ∃ n' ∈ streams.flatten, n'.key = n.key ∧ n.t < n'.t) →
    n.histEntry ∈ (histories leaves).flatten

/-- One operation of a fact at each `t`. -/
def OncePerTime (streams : List (List NoveltyOp)) : Prop :=
  streams.flatten.Pairwise fun a b => ¬(a.key = b.key ∧ a.t = b.t)

/-- The rows at the end of a log, in the order. -/
def endRows (order : RunSortOrder) (log : List HistEntryV2) : List Row :=
  ((log.map fun e => ⟨e.key, e.t⟩).filter fun row => LogRow log (2 ^ 32 - 1) row).dedup.insertionSort
    fun a b => a.key.sortKey order ≤ b.key.sortKey order

theorem mem_endRows {log : List HistEntryV2} :
    row ∈ endRows order log ↔ LogRow log (2 ^ 32 - 1) row := by
  rw [endRows, mem_insertionSort, mem_dedup, mem_filter, decide_eq_true_eq]
  exact and_iff_right_of_imp fun h => mem_map.mpr ⟨_, h.1, rfl⟩

variable (hsorted : ∀ stream ∈ streams, NoveltySorted order stream) (honce : OncePerTime streams)

include hsorted

theorem mem_group (hgroup : group ∈ merged order streams) (n : NoveltyOp) :
    n ∈ group.1 :: group.2 ↔ n ∈ streams.flatten ∧ n.key = group.1.key := by
  obtain ⟨first, rest, hof, -, hperm⟩ := (merged_spec hsorted).2.1 group hgroup
  rw [hperm.mem_iff, ← hof, ofFact, mem_filter, decide_eq_true_eq]

variable {n : NoveltyOp}

theorem exists_group (hn : n ∈ streams.flatten) :
    ∃ group ∈ merged order streams, n ∈ group.1 :: group.2 := by
  obtain ⟨group, hgroup, hkey⟩ := (merged_spec hsorted).2.2 n hn
  exact ⟨group, hgroup, (mem_group hsorted hgroup n).mpr ⟨hn, hkey.symm⟩⟩

include honce

/-- The winner is later than the rest of its group. -/
theorem lt_winner (hgroup : group ∈ merged order streams) (hn : n ∈ group.2) : n.t < group.1.t := by
  obtain ⟨first, rest, hof, hwinner, hperm⟩ := (merged_spec hsorted).2.1 group hgroup
  have hle : n.t ≤ group.1.t := by
    rw [hwinner]
    exact le_firstLatest (hperm.mem_iff.mp (mem_cons_of_mem _ hn))
  have hdistinct : (group.1 :: group.2).Pairwise fun a b => ¬(a.key = b.key ∧ a.t = b.t) := by
    refine (hperm.pairwise_iff fun {a b} h heq => h ⟨heq.1.symm, heq.2.symm⟩).mpr ?_
    rw [← hof]
    exact honce.sublist filter_sublist
  have hkey := ((mem_group hsorted hgroup n).mp (mem_cons_of_mem _ hn)).2
  refine lt_of_le_of_ne hle fun heq => ?_
  exact (pairwise_cons.mp hdistinct).1 n hn ⟨hkey.symm, heq.symm⟩

theorem le_winner (hgroup : group ∈ merged order streams) (hn : n ∈ group.1 :: group.2) :
    n.t ≤ group.1.t := by
  rcases mem_cons.mp hn with rfl | hn
  · exact le_rfl
  · exact (lt_winner hsorted honce hgroup hn).le

omit honce hsorted in
theorem mem_groupEntries :
    e ∈ groupEntries group ↔
      ∃ n ∈ group.1 :: group.2, n.histEntry = e ∧ (n ∈ group.2 ∨ n.op = false) := by
  unfold groupEntries
  cases hop : group.1.op with
  | true =>
    simp only [if_true, mem_map]
    constructor
    · rintro ⟨n, hn, rfl⟩
      exact ⟨n, mem_cons_of_mem _ hn, rfl, .inl hn⟩
    · rintro ⟨n, hn, rfl, hrest | hretract⟩
      · exact ⟨n, hrest, rfl⟩
      · rcases mem_cons.mp hn with rfl | hn
        · rw [hop] at hretract
          cases hretract
        · exact ⟨n, hn, rfl⟩
  | false =>
    simp only [Bool.false_eq_true, if_false, mem_map, mem_append, mem_singleton]
    constructor
    · rintro ⟨n, hn | rfl, rfl⟩
      · exact ⟨n, mem_cons_of_mem _ hn, rfl, .inl hn⟩
      · exact ⟨_, mem_cons_self, rfl, .inr hop⟩
    · rintro ⟨n, hn, rfl, -⟩
      rcases mem_cons.mp hn with rfl | hn
      · exact ⟨_, .inr rfl, rfl⟩
      · exact ⟨n, .inl hn, rfl⟩

omit honce in
theorem group_of_entry (hgroup : group ∈ merged order streams) (he : e ∈ groupEntries group) :
    e.key = group.1.key := by
  obtain ⟨n, hn, rfl, -⟩ := mem_groupEntries.mp he
  exact ((mem_group hsorted hgroup n).mp hn).2

omit honce in
theorem group_unique {a b : NoveltyOp × List NoveltyOp} (ha : a ∈ merged order streams)
    (hb : b ∈ merged order streams) (hkey : a.1.key = b.1.key) : a = b :=
  inj_on_of_nodup_map (f := fun group => group.1.key)
    (nodup_of_sortKey_lt (merged_spec hsorted).1) ha hb hkey

omit honce in
theorem latestRows_sorted : RowsSorted order (latestRows order streams) := by
  refine pairwise_filterMap.mpr ((merged_spec hsorted).1.imp fun {a b} hlt row hrow row' hrow' => ?_)
  have hkey : ∀ {group : NoveltyOp × List NoveltyOp} {row : Row}, groupRow group = some row →
      row.key = group.1.key := by
    intro group row h
    unfold groupRow at h
    split at h
    · rw [← Option.some.inj h]
    · cases h
  rw [hkey hrow, hkey hrow']
  exact hlt

omit honce hsorted in
theorem mem_latestRows :
    row ∈ latestRows order streams ↔
      ∃ group ∈ merged order streams, group.1.op = true ∧ group.1.toRow = row := by
  simp only [latestRows, mem_filterMap, groupRow]
  refine exists_congr fun group => and_congr_right fun _ => ?_
  split
  next hop => simp [hop]
  next hop => simp [hop]

theorem mem_latestRows_iff_logRow :
    row ∈ latestRows order streams ↔ LogRow (eventLog streams) (2 ^ 32 - 1) row := by
  rw [mem_latestRows]
  have hbound : ∀ n : NoveltyOp, (n.t : ℤ) ≤ 2 ^ 32 - 1 := fun n => by
    have := n.t.isLt
    omega
  constructor
  · rintro ⟨group, hgroup, hop, rfl⟩
    refine ⟨mem_map.mpr ⟨group.1, ((mem_group hsorted hgroup _).mp mem_cons_self).1, ?_⟩,
      hbound group.1, ?_⟩
    · rw [NoveltyOp.histEntry, hop]
    · intro e he hkey _
      obtain ⟨n, hn, rfl⟩ := mem_map.mp he
      exact le_winner hsorted honce hgroup ((mem_group hsorted hgroup n).mpr ⟨hn, hkey⟩)
  · rintro ⟨hin, -, hlast⟩
    obtain ⟨n, hn, heq⟩ := mem_map.mp hin
    obtain ⟨hkey, ht, hop⟩ := HistEntryV2.mk.inj heq
    obtain ⟨group, hgroup, hmem⟩ := exists_group hsorted hn
    -- no operation of the fact is later, so it is the winner
    have hwinner : n = group.1 := by
      refine (mem_cons.mp hmem).resolve_right fun hrest => ?_
      have hlt := lt_winner hsorted honce hgroup hrest
      have hgroupkey := ((mem_group hsorted hgroup n).mp hmem).2
      have hin' := ((mem_group hsorted hgroup group.1).mp mem_cons_self).1
      have hle := hlast _ (mem_map_of_mem hin') (hgroupkey.symm.trans hkey) (hbound group.1)
      rw [← ht] at hle
      exact absurd hlt (not_lt.mpr hle)
    subst hwinner
    exact ⟨group, hgroup, hop, Row.ext hkey ht⟩

theorem latestRows_eq_endRows : latestRows order streams = endRows order (eventLog streams) := by
  have hrows := latestRows_sorted hsorted
  have hmem : ∀ row, row ∈ latestRows order streams ↔ row ∈ endRows order (eventLog streams) :=
    fun row => (mem_latestRows_iff_logRow hsorted honce).trans mem_endRows.symm
  have hperm : latestRows order streams ~ endRows order (eventLog streams) := by
    refine (perm_ext_iff_of_nodup (hrows.imp fun hlt heq => ?_) ?_).mpr hmem
    · exact absurd hlt (heq ▸ lt_irrefl _)
    · exact (perm_insertionSort _ _).nodup_iff.mpr (nodup_dedup _)
  refine hperm.eq_of_pairwise (fun a b ha hb hab hba => ?_) (hrows.imp le_of_lt)
    (pairwise_insertionSort _ _)
  exact hrows.eq_of_key ha ((hmem b).mpr hb) (FactKeyV3.sortKey_inj.mp (le_antisymm hab hba))

variable
  (hparts : List.Forall₂ List.Perm (histories leaves) (cuts.map (List.flatMap groupEntries)))

include hparts

omit honce hsorted in
theorem mem_histories (e : HistEntryV2) :
    e ∈ (histories leaves).flatten ↔ ∃ group ∈ cuts.flatten, e ∈ groupEntries group := by
  rw [(List.Perm.flatten_congr hparts).mem_iff]
  simp only [mem_flatten, mem_map, exists_exists_and_eq_and, mem_flatMap]
  constructor
  · rintro ⟨cut, hcut, group, hgroup, he⟩
    exact ⟨group, ⟨cut, hcut, hgroup⟩, he⟩
  · rintro ⟨group, ⟨cut, hcut, hgroup⟩, he⟩
    exact ⟨cut, hcut, group, hgroup, he⟩

omit honce in
theorem histories_apart (hcuts : cuts.flatten = merged order streams) :
    (histories leaves).Pairwise fun a b => ∀ e ∈ a, ∀ e' ∈ b, e.key ≠ e'.key := by
  have hpairs := (merged_spec hsorted).1
  rw [← hcuts] at hpairs
  have hgroup : ∀ {cut group}, cut ∈ cuts → group ∈ cut → group ∈ merged order streams :=
    fun hcut hgroup => hcuts ▸ mem_flatten.mpr ⟨_, hcut, hgroup⟩
  have hcut : (cuts.map (List.flatMap groupEntries)).Pairwise
      fun a b => ∀ e ∈ a, ∀ e' ∈ b, e.key ≠ e'.key := by
    refine pairwise_map.mpr ((pairwise_flatten.mp hpairs).2.imp_of_mem ?_)
    intro a b ha hb hlt e he e' he' heq
    obtain ⟨x, hx, he⟩ := mem_flatMap.mp he
    obtain ⟨y, hy, he'⟩ := mem_flatMap.mp he'
    have hxy := hlt x hx y hy
    rw [← group_of_entry hsorted (hgroup ha hx) he, heq,
      group_of_entry hsorted (hgroup hb hy) he'] at hxy
    exact lt_irrefl _ hxy
  refine pairwise_iff_getElem.mpr fun i j hi hj hij e he e' he' => ?_
  have hlen := hparts.length_eq
  exact pairwise_iff_getElem.mp hcut i j (hlen ▸ hi) (hlen ▸ hj) hij e
    ((hparts.get hi (hlen ▸ hi)).mem_iff.mp he) e' ((hparts.get hj (hlen ▸ hj)).mem_iff.mp he')

section

variable (hrows : branchRows leaves = latestRows order streams) (hcuts : cuts.flatten = merged order
  streams)

include hrows hcuts

/-- The rows and the histories of the leaves are all operations. -/
theorem splits :
    Splits order (branchRows leaves) (histories leaves).flatten (eventLog streams) := by
  have hmem : ∀ e, e ∈ (histories leaves).flatten ↔
      ∃ group ∈ merged order streams, e ∈ groupEntries group := hcuts ▸ mem_histories hparts
  have hlog : ∀ {n : NoveltyOp}, n ∈ streams.flatten → n.histEntry ∈ eventLog streams :=
    fun hn => mem_map_of_mem hn
  have hin : ∀ {group}, group ∈ merged order streams → ∀ {n}, n ∈ group.1 :: group.2 →
      n ∈ streams.flatten := fun hgroup _ hn => ((mem_group hsorted hgroup _).mp hn).1
  refine ⟨by rw [hrows]; exact latestRows_sorted hsorted, fun e => ?_, fun row hrow e he hkey => ?_,
    fun e he hop => ?_⟩
  · rw [hmem, hrows]
    constructor
    · intro he
      obtain ⟨n, hn, rfl⟩ := mem_map.mp he
      obtain ⟨group, hgroup, hn⟩ := exists_group hsorted hn
      by_cases hstored : n ∈ group.2 ∨ n.op = false
      · exact .inl ⟨group, hgroup, mem_groupEntries.mpr ⟨n, hn, rfl, hstored⟩⟩
      · obtain rfl := (mem_cons.mp hn).resolve_right fun h => hstored (.inl h)
        have hop : group.1.op = true := by simpa using fun h => hstored (.inr h)
        refine .inr ⟨_, mem_latestRows.mpr ⟨group, hgroup, hop, rfl⟩, ?_⟩
        rw [NoveltyOp.histEntry, hop]
    · rintro (⟨group, hgroup, he⟩ | ⟨row, hrow, rfl⟩)
      · obtain ⟨n, hn, rfl, -⟩ := mem_groupEntries.mp he
        exact hlog (hin hgroup hn)
      · obtain ⟨group, hgroup, hop, rfl⟩ := mem_latestRows.mp hrow
        have hentry := hlog (hin hgroup mem_cons_self)
        rwa [NoveltyOp.histEntry, hop] at hentry
  · rw [hrows] at hrow
    obtain ⟨group, hgroup, hop, rfl⟩ := mem_latestRows.mp hrow
    obtain ⟨group', hgroup', he⟩ := (hmem e).mp he
    obtain rfl : group' = group := group_unique hsorted hgroup' hgroup
      ((group_of_entry hsorted hgroup' he).symm.trans hkey)
    obtain ⟨n, hn, rfl, hrest | hretract⟩ := mem_groupEntries.mp he
    · exact lt_winner hsorted honce hgroup hrest
    · rcases mem_cons.mp hn with rfl | hn
      · rw [hop] at hretract
        cases hretract
      · exact lt_winner hsorted honce hgroup hn
  · obtain ⟨group, hgroup, he⟩ := (hmem e).mp he
    obtain ⟨n, hn, rfl, hrest | hretract⟩ := mem_groupEntries.mp he
    · exact ⟨_, hlog (hin hgroup mem_cons_self), ((mem_group hsorted hgroup n).mp hn).2.symm,
        lt_winner hsorted honce hgroup hrest⟩
    · cases hop.symm.trans hretract

/-- If nothing is lost, replays are right at every `t` exactly if each operation changes the
state of its fact. -/
theorem travelsExactly_iff (hnewest : ∀ history ∈ histories leaves, NewestFirst history) :
    TravelsExactly sort order streams leaves ↔ ChangesState (eventLog streams) := by
  have hsplits := splits hsorted honce hparts hrows hcuts
  have hpresent := presentAt_iff sort hsplits.sorted hnewest
    (histories_apart hsorted hparts hcuts) hsplits.later
  have hundone : ∀ (target : ℕ) key, (∃ e ∈ eventLog streams, e.key = key ∧ target < e.t) →
      (PresentAt sort order leaves target key ↔ Restored [] (eventLog streams) target key) := by
    rintro target key ⟨e, he, rfl, ht⟩
    rw [hpresent, hsplits.restored_iff]
    refine or_iff_right fun ⟨row, hin, hkey, hle⟩ => ?_
    have := Fin.le_def.mp (hsplits.le_row hin he hkey.symm)
    omega
  have honce' : (eventLog streams).Pairwise fun a b => ¬(a.key = b.key ∧ a.t = b.t) :=
    pairwise_map.mpr honce
  rw [← restores_iff_changesState honce']
  constructor
  · intro h target key hafter
    rw [← hundone target key hafter]
    exact h target key
  · intro h t key
    rcases lt_or_ge t 0 with hneg | hpos
    · constructor
      · rintro ⟨leaflet, -, row, hin, -⟩
        rw [replayed_of_neg sort hneg] at hin
        cases hin
      · rintro ⟨row, ⟨-, hle, -⟩, -⟩
        omega
    · obtain ⟨target, rfl⟩ := Int.eq_ofNat_of_zero_le hpos
      by_cases hafter : ∃ e ∈ eventLog streams, e.key = key ∧ target < e.t
      · rw [← h target key hafter]
        exact hundone target key hafter
      · rw [hpresent, hsplits.restored_iff, ← hsplits.mem_rows_iff hafter]
        exact or_iff_left fun ⟨e, he, hkey, ht, _⟩ => hafter ⟨e, he, hkey, ht⟩

end

/-- All history is stored exactly if no fact is lost behind the last row. -/
theorem historyStored_iff {lost : List (NoveltyOp × List NoveltyOp)}
    (hcuts : cuts.flatten ++ lost = merged order streams)
    (hretracts : ∀ group ∈ lost, group.1.op = false) :
    HistoryStored streams leaves ↔ lost = [] := by
  constructor
  · intro h
    refine eq_nil_iff_forall_not_mem.mpr fun group hlost => ?_
    have hgroup : group ∈ merged order streams := hcuts ▸ mem_append_right _ hlost
    have hin := ((mem_group hsorted hgroup group.1).mp mem_cons_self).1
    obtain ⟨group', hgroup', hentry⟩ := (mem_histories hparts _).mp
      (h group.1 hin (.inl (hretracts group hlost)))
    have hkey := group_of_entry hsorted (hcuts ▸ mem_append_left _ hgroup') hentry
    have hpairs := (merged_spec hsorted).1
    rw [← hcuts] at hpairs
    have hlt := (pairwise_append.mp hpairs).2.2 group' hgroup' group hlost
    rw [← hkey] at hlt
    exact lt_irrefl _ hlt
  · rintro rfl n hn hstored
    rw [append_nil] at hcuts
    rw [mem_histories hparts, hcuts]
    obtain ⟨group, hgroup, hin⟩ := exists_group hsorted hn
    refine ⟨group, hgroup, mem_groupEntries.mpr ⟨n, hin, rfl, ?_⟩⟩
    rcases hstored with hop | ⟨n', hn', hkey, hlt⟩
    · exact .inr hop
    · refine .inl ((mem_cons.mp hin).resolve_left ?_)
      rintro rfl
      have hle := le_winner hsorted honce hgroup ((mem_group hsorted hgroup n').mpr ⟨hn', hkey⟩)
      exact absurd hlt (not_lt.mpr hle)

omit honce hparts in
theorem trailing_eq_nil_iff : trailing (merged order streams) = [] ↔
    ∀ n ∈ streams.flatten, ∃ row ∈ latestRows order streams,
      n.key.sortKey order ≤ row.key.sortKey order := by
  have hpairs := (merged_spec hsorted).1
  rcases eq_nil_or_concat (merged order streams) with hnil | ⟨before, last, hlast⟩
  · rw [hnil]
    refine iff_of_true rfl fun n hn => ?_
    obtain ⟨group, hgroup, -⟩ := exists_group hsorted hn
    rw [hnil] at hgroup
    cases hgroup
  · rw [concat_eq_append] at hlast
    rw [hlast] at hpairs
    have hlt := (pairwise_append.mp hpairs).2.2
    have hmem : last ∈ merged order streams := by rw [hlast]; simp
    rw [hlast, trailing_concat]
    cases hop : last.1.op with
    | true =>
      refine iff_of_true (by simp) fun n hn => ?_
      refine ⟨last.1.toRow, mem_latestRows.mpr ⟨last, hmem, hop, rfl⟩, ?_⟩
      obtain ⟨group, hgroup, hin⟩ := exists_group hsorted hn
      rw [((mem_group hsorted hgroup n).mp hin).2]
      rw [hlast] at hgroup
      rcases mem_append.mp hgroup with hbefore | hsame
      · exact (hlt group hbefore last (by simp)).le
      · rw [mem_singleton.mp hsame]
    | false =>
      refine iff_of_false (by simp) fun h => ?_
      obtain ⟨row, hrow, hle⟩ := h last.1 ((mem_group hsorted hmem _).mp mem_cons_self).1
      obtain ⟨group, hgroup, hgop, rfl⟩ := mem_latestRows.mp hrow
      rw [hlast] at hgroup
      rcases mem_append.mp hgroup with hbefore | hsame
      · exact absurd hle (not_le.mpr (hlt group hbefore last (by simp)))
      · rw [mem_singleton.mp hsame, hop] at hgop
        cases hgop

omit hparts in
/-- A rebuild writes a branch whose replays are right at every `t`, with all history stored,
exactly if the last row is not stranded, each operation changes the state of its fact, and a
full last leaflet has no facts behind it. -/
theorem buildIndex_travels_iff :
    (∃ leaves, buildIndexFromRunFiles sort order targets streams = some leaves ∧
        TravelsExactly sort order streams leaves ∧ HistoryStored streams leaves) ↔
      ¬Stranded order targets (endRows order (eventLog streams)) ∧ ChangesState (eventLog streams) ∧
        (LastLeafletOpen order targets (endRows order (eventLog streams)) ∨
          ∀ n ∈ streams.flatten, ∃ row ∈ endRows order (eventLog streams),
            n.key.sortKey order ≤ row.key.sortKey order) := by
  rw [← latestRows_eq_endRows hsorted honce]
  obtain ⟨hpanic, hwritten⟩ := buildIndex_spec sort order targets streams
  by_cases hstranded : Stranded order targets (latestRows order streams)
  · refine iff_of_false ?_ fun h => h.1 hstranded
    rintro ⟨leaves, hbuild, -⟩
    rw [hpanic hstranded] at hbuild
    cases hbuild
  · obtain ⟨leaves, cuts, lost, hbuild, hrows, hcuts, hopen, hclosed, hparts, hnewest⟩ :=
      hwritten hstranded
    have hlost : lost = [] ↔ LastLeafletOpen order targets (latestRows order streams) ∨
        ∀ n ∈ streams.flatten, ∃ row ∈ latestRows order streams,
          n.key.sortKey order ≤ row.key.sortKey order := by
      by_cases hlastopen : LastLeafletOpen order targets (latestRows order streams)
      · exact iff_of_true (hopen hlastopen) (.inl hlastopen)
      · rw [hclosed hlastopen, trailing_eq_nil_iff hsorted, or_iff_right hlastopen]
    have hretracts : ∀ group ∈ lost, group.1.op = false := by
      intro group hgroup
      by_cases hlastopen : LastLeafletOpen order targets (latestRows order streams)
      · rw [hopen hlastopen] at hgroup
        cases hgroup
      · rw [hclosed hlastopen, trailing, mem_reverse] at hgroup
        simpa using mem_takeWhile_imp hgroup
    rw [hbuild, ← hlost]
    simp only [Option.some.injEq, exists_eq_left', hstranded, not_false_eq_true, true_and]
    rw [historyStored_iff hsorted honce hparts hcuts hretracts]
    refine and_congr_left fun hnone => ?_
    subst hnone
    rw [append_nil] at hcuts
    exact travelsExactly_iff sort hsorted honce hparts hrows hcuts hnewest

end

open Sample
open UnstableSort (insertionSort)

def alternating : List (List NoveltyOp) :=
  [[novel 0 1 1 1 true, novel 0 1 1 2 false], [novel 0 1 1 3 true]]

theorem rebuild_travels_of_alternating :
    ∃ leaves, buildIndexFromRunFiles insertionSort .spot ⟨2, 2, by decide, by decide⟩ alternating =
        some leaves ∧
      TravelsExactly insertionSort .spot alternating leaves ∧ HistoryStored alternating leaves := by
  have hrows : endRows .spot (eventLog alternating) = [⟨key 1 1, 3⟩] := by decide
  refine (buildIndex_travels_iff insertionSort (by unfold NoveltySorted; decide)
    (by unfold OncePerTime; decide)).mpr ⟨?_, ?_, .inl ?_⟩
  · rw [hrows]
    rintro ⟨before, leaflet, row, hcuts, -⟩
    have hlength := congrArg length hcuts
    simp [leafletCuts, changes] at hlength
  · decide
  · exact ⟨[⟨key 1 1, 3⟩], by decide, by decide⟩

/-- A second assert of a fact hides the first from replays. A retract of a fact that was never
asserted makes replays show it. The history of retracted facts behind a full last leaflet is
lost. A last row of another predicate behind a full leaf stops the build. -/
theorem rebuild_loses_past :
    (∃ leaves ∈ buildIndexFromRunFiles insertionSort .spot ⟨2, 2, by decide, by decide⟩
        [[novel 0 1 1 1 true, novel 0 1 1 2 true]],
      ¬PresentAt insertionSort .spot leaves 1 (key 1 1) ∧
        LogRow (eventLog [[novel 0 1 1 1 true, novel 0 1 1 2 true]]) 1 ⟨key 1 1, 1⟩) ∧
    (∃ leaves ∈ buildIndexFromRunFiles insertionSort .spot ⟨2, 2, by decide, by decide⟩
        [[novel 0 1 1 2 false, novel 0 1 2 1 true]],
      PresentAt insertionSort .spot leaves 1 (key 1 1) ∧
        ∀ e ∈ eventLog [[novel 0 1 1 2 false, novel 0 1 2 1 true]], ¬(e.key = key 1 1 ∧ e.t ≤ 1)) ∧
    (∃ leaves ∈ buildIndexFromRunFiles insertionSort .spot ⟨1, 1, by decide, by decide⟩
        [[novel 0 1 1 1 true, novel 0 1 2 1 true, novel 0 1 2 2 false]],
      ¬PresentAt insertionSort .spot leaves 1 (key 1 2) ∧
        LogRow (eventLog [[novel 0 1 1 1 true, novel 0 1 2 1 true, novel 0 1 2 2 false]]) 1
          ⟨key 1 2, 1⟩ ∧
        ¬HistoryStored [[novel 0 1 1 1 true, novel 0 1 2 1 true, novel 0 1 2 2 false]] leaves) ∧
    buildIndexFromRunFiles insertionSort .psot ⟨2, 1, by decide, by decide⟩
        [[novel 0 1 1 1 true, novel 0 1 2 1 true]] = none := by
  unfold PresentAt HistoryStored
  refine ⟨?_, ?_, ?_, rfl⟩
  · decide
  · decide
  · decide

end FlureeDb.Index
