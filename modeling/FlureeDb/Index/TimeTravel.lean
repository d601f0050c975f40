import FlureeDb.Index.ReplayExact
import Mathlib.Data.List.Find

/-!
Time travel over an incremental merge. A leaflet is a faithful image of a log of operations
if replaying it gives the state of the log at every `t` that it covers. A merge of later
operations, one for each fact, notes in the history what the operations did. A replay to a
`t` before them undoes the notes and looks for the assert that a fact had then.

The note of a retract makes the replay restore the fact, also where there was no row to
retract. And the assert that a row stood for is not noted by the merge: the replay finds it
only if the history had it before.
-/

namespace FlureeDb.Index

open Lib List HistEntryV2 UnstableSort

/-- What a merge notes for an operation. -/
def notes (rows : List Row) (n : NoveltyOp) : List HistEntryV2 :=
  if n.op && rows.any fun row => row.key = n.key then [⟨n.key, n.t, false⟩, n.histEntry]
  else [n.histEntry]

/-- What is left of the existing history: an assert at its front goes if the oldest new entry
is an assert of the same fact. -/
def keptHistory (sort : UnstableSort) (rows : List Row) (existing : List HistEntryV2)
    (novelty : List NoveltyOp) : List HistEntryV2 :=
  match (sort.sort cmpHistory (novelty.flatMap (notes rows))).getLast?, existing with
  | some lastNew, firstOld :: rest =>
    if duplicateAsserts lastNew firstOld then rest else firstOld :: rest
  | _, existing => existing

section

variable {order : RunSortOrder} {rows : List Row} {novelty : List NoveltyOp}

/-- Novelty with one operation for each fact. -/
def OncePerFact (order : RunSortOrder) (novelty : List NoveltyOp) : Prop :=
  novelty.Pairwise fun a b => a.key.sortKey order < b.key.sortKey order

theorem OncePerFact.eq_of_key (h : OncePerFact order novelty) {a b : NoveltyOp} (ha : a ∈ novelty)
    (hb : b ∈ novelty) (hkey : a.key = b.key) : a = b :=
  inj_on_of_nodup_map (nodup_of_sortKey_lt h) ha hb hkey

/-- The entries that the walk notes are those of the operations, in their order. -/
theorem mergedHistory_walk (hrows : RowsSorted order rows) (honce : OncePerFact order novelty) :
    (mergeWalk order rows novelty).flatMap mergedHistory = novelty.flatMap (notes rows) := by
  have hcmp := @cmpBatchRow_compares order
  have hall := mergeJoin_all (cmpBatchRowVsRecord order) rows novelty
  have hops : (mergeWalk order rows novelty).flatMap Joined.ops = novelty :=
    mergeJoin_ops_all hcmp _ (honce.imp le_of_lt)
  have hnote : ∀ e ∈ mergeWalk order rows novelty, mergedHistory e = e.ops.flatMap (notes rows) := by
    intro e he
    cases e with
    | left => rfl
    | right n =>
      have hnone := ((right_mem_mergeJoin hcmp hrows honce hall n).mp he).2
      have hany : (rows.any fun row => row.key = n.key) = false := by
        rw [any_eq_false]
        intro row hrow hkey
        exact hnone row hrow (congrArg (FactKeyV3.sortKey order) (of_decide_eq_true hkey))
      simp [mergedHistory, Joined.ops, notes, hany]
    | both row n =>
      obtain ⟨hrow, -, hkey⟩ := (both_mem_mergeJoin hcmp hrows honce hall row n).mp he
      have hkey := FactKeyV3.sortKey_inj.mp hkey
      have hany : (rows.any fun row => row.key = n.key) = true :=
        any_eq_true.mpr ⟨row, hrow, by simpa using hkey⟩
      cases hop : n.op <;> simp [mergedHistory, Joined.ops, notes, hany, hkey]
  calc (mergeWalk order rows novelty).flatMap mergedHistory
      = (mergeWalk order rows novelty).flatMap fun e => e.ops.flatMap (notes rows) :=
        flatMap_congr hnote
    _ = ((mergeWalk order rows novelty).flatMap Joined.ops).flatMap (notes rows) :=
        flatMap_assoc.symm
    _ = novelty.flatMap (notes rows) := by rw [hops]

theorem mem_notes {n : NoveltyOp} {e : HistEntryV2} :
    e ∈ notes rows n ↔
      e = n.histEntry ∨ (n.op = true ∧ (∃ row ∈ rows, row.key = n.key) ∧ e = ⟨n.key, n.t, false⟩) := by
  unfold notes
  split
  · next h =>
    simp only [Bool.and_eq_true, any_eq_true, decide_eq_true_eq] at h
    simp only [mem_cons]
    tauto
  · next h =>
    simp only [Bool.and_eq_true, any_eq_true, decide_eq_true_eq] at h
    rw [mem_singleton]
    exact ⟨.inl, fun h' => h'.elim id fun ⟨hop, hrow, _⟩ => absurd ⟨hop, hrow⟩ h⟩

theorem key_of_mem_notes {n : NoveltyOp} {e : HistEntryV2} (h : e ∈ notes rows n) :
    e.key = n.key ∧ e.t = n.t := by
  rcases mem_notes.mp h with rfl | ⟨-, -, rfl⟩
  · exact ⟨rfl, rfl⟩
  · exact ⟨rfl, rfl⟩

theorem dedupBehind_eq {kept : HistEntryV2} {entries : List HistEntryV2}
    (h : (kept :: entries).Pairwise fun a b => duplicateAsserts a b = false) :
    dedupBehind kept entries = entries := by
  induction entries generalizing kept with
  | nil => rfl
  | cons e entries ih =>
    obtain ⟨hkept, hrest⟩ := pairwise_cons.mp h
    rw [dedupBehind, hkept e mem_cons_self, ih hrest]
    rfl

theorem dedupAdjacentAsserts_eq {entries : List HistEntryV2}
    (h : entries.Pairwise fun a b => duplicateAsserts a b = false) :
    dedupAdjacentAsserts entries = entries := by
  cases entries with
  | nil => rfl
  | cons => rw [dedupAdjacentAsserts, dedupBehind_eq h]

theorem notes_pairwise (honce : OncePerFact order novelty) :
    (novelty.flatMap (notes rows)).Pairwise fun a b => duplicateAsserts a b = false := by
  refine pairwise_flatMap.mpr ⟨fun n _ => ?_, honce.imp fun {a b} hlt x hx y hy => ?_⟩
  · unfold notes
    split
    · simp [duplicateAsserts]
    · exact pairwise_singleton _ _
  · have hne : x.key ≠ y.key := by
      rw [(key_of_mem_notes hx).1, (key_of_mem_notes hy).1]
      intro heq
      rw [heq] at hlt
      exact lt_irrefl _ hlt
    simp [duplicateAsserts, hne]

theorem cmpHistory_compares (a b : HistEntryV2) :
    (cmpHistory a b).Compares (OrderDual.toDual (2 * a.t.val + (!a.op).toNat))
      (OrderDual.toDual (2 * b.t.val + (!b.op).toNat)) := by
  have hflip : compare a.op b.op = compare (!b.op) (!a.op) := by
    cases a.op <;> cases b.op <;> rfl
  rw [cmpHistory, hflip]
  exact newestFirst_compares a.t.val b.t.val (!a.op) (!b.op)

end

/-! ### Logs -/

/-- The leaflet is the image of a log up to `t₀`: rows in order, history newest first, and a
replay gives the state of the log at every `t` up to `t₀`. -/
structure Faithful (order : RunSortOrder) (rows : List Row) (history log : List HistEntryV2)
    (t₀ : U32) : Prop where
  sorted : RowsSorted order rows
  newestFirst : history.Pairwise fun a b => b.t ≤ a.t
  rows_le : ∀ row ∈ rows, row.t ≤ t₀
  history_le : ∀ e ∈ history, e.t ≤ t₀
  log_le : ∀ e ∈ log, e.t ≤ t₀
  replays : ∀ (sort : UnstableSort) (t : ℤ), t ≤ t₀ →
    ∀ row, row ∈ replayed rows history sort order t ↔ LogRow log t row

variable {row : Row}

namespace Faithful

variable {order : RunSortOrder} {rows : List Row} {history log : List HistEntryV2} {t₀ : U32}

variable (h : Faithful order rows history log t₀) {target : ℕ}

include h

theorem untouched (hlate : t₀ ≤ target) (key : FactKeyV3) : ¬Touched rows history target key := by
  rintro (⟨e, he, -, ht⟩ | ⟨row, hrow, -, ht⟩)
  · have := Fin.le_def.mp (h.history_le e he)
    omega
  · have := Fin.le_def.mp (h.rows_le row hrow)
    omega

/-- The rows are the state from `t₀` on: each carries the `t` of its last assert. -/
theorem mem_rows (hlate : t₀ ≤ target) (row : Row) : row ∈ rows ↔ LogRow log target row := by
  have hat : row ∈ rows ↔ LogRow log (t₀ : ℕ) row := by
    rw [← h.replays (rotated 0) _ le_rfl,
      replayed_of_untouched _ h.newestFirst (h.untouched le_rfl)]
  rw [hat]
  refine logRow_congr fun e he _ => ?_
  have := Fin.le_def.mp (h.log_le e he)
  omega

theorem logRow_since (hrow : row ∈ rows) (hfrom : row.t ≤ target) : LogRow log target row := by
  obtain ⟨hin, -, hlast⟩ := (h.mem_rows (le_max_left (t₀ : ℕ) target) row).mp hrow
  exact ⟨hin, by omega, fun e he hkey ht => hlast e he hkey (by omega)⟩

/-- A fact that is restored has its assert in the history. -/
theorem found {key : FactKeyV3} (hrestored : Restored rows history target key)
    (hold : ∀ b ∈ rows, b.key = key → target < b.t) :
    ∃ a, findBaseAssertAtTarget history target key = some a ∧ LogRow log target ⟨key, a.t⟩ := by
  have hearly : (target : ℤ) ≤ t₀ := by
    by_contra hlate
    exact h.untouched (by omega) key hrestored.touched
  obtain ⟨src, hsrc, hmem⟩ := mem_replayed (rotated 0) h.sorted h.newestFirst target
  cases hfound : findBaseAssertAtTarget history target key with
  | some a =>
    refine ⟨a, rfl, (h.replays _ _ hearly _).mp ((hmem _).mpr (.inr (.inr ⟨hold, hrestored, ?_⟩)))⟩
    simp [hfound]
  | none =>
    -- the `t` that a replay falls back to lies after the target
    have hin := (hmem ⟨key, src key⟩).mpr (.inr (.inr ⟨hold, hrestored, by simp [hfound]⟩))
    have hle := ((h.replays _ _ hearly _).mp hin).2.1
    have hlt := hsrc key hrestored
    simp only at hle
    omega

/-- The state of a fact whose row, if it has one, is newer than the target. -/
theorem logRow_iff (hold : ∀ b ∈ rows, b.key = row.key → target < b.t) :
    LogRow log target row ↔ Restored rows history target row.key ∧
      (findBaseAssertAtTarget history target row.key).map t = some row.t := by
  constructor
  · intro hlog
    have hearly : (target : ℤ) ≤ t₀ := by
      by_contra hlate
      have hrow := (h.mem_rows (by omega) row).mpr hlog
      have hlt := hold row hrow rfl
      have hle := hlog.2.1
      omega
    obtain ⟨src, hsrc, hmem⟩ := mem_replayed (rotated 0) h.sorted h.newestFirst target
    have hle := hlog.2.1
    rcases (hmem row).mp ((h.replays _ _ hearly _).mpr hlog) with
      ⟨hrow, -⟩ | ⟨hrow, -⟩ | ⟨-, hrestored, hget⟩
    · have := hold row hrow rfl
      omega
    · have := hold row hrow rfl
      omega
    · obtain ⟨a, hfound, -⟩ := h.found hrestored hold
      rw [hfound] at hget ⊢
      exact ⟨hrestored, congrArg some hget⟩
  · rintro ⟨hrestored, hget⟩
    obtain ⟨a, hfound, hlog⟩ := h.found hrestored hold
    rw [hfound] at hget
    have ht : a.t = row.t := Option.some.inj hget
    rw [ht] at hlog
    exact hlog

end Faithful

section

variable {rows rows' : List Row} {history history' : List HistEntryV2} {target : ℕ}
  {key : FactKeyV3}

section

variable (hrows : ∀ row, row.key = key → (row ∈ rows ↔ row ∈ rows')) (hhistory : ∀ e, e.key = key →
  (e ∈ history ↔ e ∈ history'))

include hrows hhistory

theorem Touched.congr (h : Touched rows history target key) : Touched rows' history' target key := by
  rcases h with ⟨e, he, hkey, ht⟩ | ⟨row, hrow, hkey, ht⟩
  · exact .inl ⟨e, (hhistory e hkey).mp he, hkey, ht⟩
  · exact .inr ⟨row, (hrows row hkey).mp hrow, hkey, ht⟩

theorem Restored.congr (h : Restored rows history target key) :
    Restored rows' history' target key := by
  obtain ⟨e, he, hkey, ht, hop, hentries, hnewer⟩ := h
  refine ⟨e, (hhistory e hkey).mp he, hkey, ht, hop, fun e' he' hkey' => ?_, fun row hrow hkey' => ?_⟩
  · exact hentries e' ((hhistory e' hkey').mpr he') hkey'
  · exact hnewer row ((hrows row hkey').mpr hrow) hkey'

end

theorem Restored.forget_rows (h : Restored rows history target key) :
    Restored [] history target key := by
  obtain ⟨e, he, hkey, ht, hop, hleast, -⟩ := h
  exact ⟨e, he, hkey, ht, hop, hleast, by simp⟩

/-- A retract that decides still does beside a row at whose `t` there is an entry. -/
theorem Restored.with_rows (h : Restored [] history target key)
    (hrows : ∀ row ∈ rows, row.key = key → ∃ e ∈ history, e.key = key ∧ e.t = row.t) :
    Restored rows history target key := by
  obtain ⟨e, he, hkey, ht, hop, hleast, -⟩ := h
  refine ⟨e, he, hkey, ht, hop, hleast, fun row hrow hrowkey hnew => ?_⟩
  obtain ⟨e', he', hkey', heq⟩ := hrows row hrow hrowkey
  rw [← heq] at hnew ⊢
  exact hleast e' he' hkey' hnew

/-- The `t` of the newest assert of a fact that a history has. -/
def newestAssert (history : List HistEntryV2) (key : FactKeyV3) : Option U32 :=
  (history.find? fun e => e.op && e.key = key).map t

theorem findBaseAssert_of_newest {t : U32} (hnewest : newestAssert history key = some t)
    (ht : t ≤ target) : (findBaseAssertAtTarget history target key).map HistEntryV2.t = some t := by
  obtain ⟨e, hfind, rfl⟩ := Option.map_eq_some_iff.mp hnewest
  obtain ⟨hmatch, front, back, rfl, hfront⟩ := find?_eq_some_iff_append.mp hfind
  have hfound : findBaseAssertAtTarget (front ++ e :: back) target key = some e := by
    refine find?_eq_some_iff_append.mpr ⟨?_, front, back, rfl, fun e' he' => ?_⟩
    · rw [Bool.and_assoc, hmatch]
      simpa using ht
    · rw [Bool.and_assoc, (Bool.not_eq_true' _).mp (hfront e' he'), Bool.and_false]
      rfl
  rw [hfound]
  rfl

theorem newestAssert_eq_find (hle : ∀ e ∈ history, (e.t : ℕ) ≤ target) (key : FactKeyV3) :
    newestAssert history key = (findBaseAssertAtTarget history target key).map t := by
  have hsame : (history.find? fun e => e.op && e.key = key) =
      findBaseAssertAtTarget history target key :=
    find?_congr fun e he => by simp [hle e he]
  rw [newestAssert, hsame]

theorem mem_of_newestAssert {t : U32} (h : newestAssert history key = some t) :
    ∃ e ∈ history, e.key = key ∧ e.t = t := by
  obtain ⟨e, hfind, ht⟩ := Option.map_eq_some_iff.mp h
  have hmatch := find?_some hfind
  simp only [Bool.and_eq_true, decide_eq_true_eq] at hmatch
  exact ⟨e, mem_of_find?_eq_some hfind, hmatch.2, ht⟩

end

/-- What a fact was before an operation can be told from the history that is left: there was
nothing and it is asserted, or there was a row and the newest assert is that of the row. -/
def Recovers (rows : List Row) (kept : List HistEntryV2) (n : NoveltyOp) : Prop :=
  (n.op = true ∧ ∀ row ∈ rows, row.key ≠ n.key) ∨
    ∃ row ∈ rows, row.key = n.key ∧ newestAssert kept n.key = some row.t

/-- The image of a log, and later operations, one for each fact, to be merged into it. -/
structure Merge (order : RunSortOrder) where
  sort : UnstableSort
  rows : List Row
  existing : List HistEntryV2
  log : List HistEntryV2
  novelty : List NoveltyOp
  t₀ : U32
  faithful : Faithful order rows existing log t₀
  once : OncePerFact order novelty
  later : ∀ n ∈ novelty, t₀ < n.t

namespace Merge

variable {order : RunSortOrder} (m : Merge order) {target : ℕ} {key : FactKeyV3} {e : HistEntryV2}

abbrev noted : List HistEntryV2 := m.sort.sort cmpHistory (m.novelty.flatMap (notes m.rows))

abbrev kept : List HistEntryV2 := keptHistory m.sort m.rows m.existing m.novelty

abbrev records : List Row := (mergeNovelty m.sort order m.rows m.existing m.novelty).records

abbrev history : List HistEntryV2 := (mergeNovelty m.sort order m.rows m.existing m.novelty).history

abbrev Restores (target : ℕ) (key : FactKeyV3) : Prop := Restored m.records m.history target key

/-- The merged leaflet as of a `t`. -/
abbrev asOf (t : ℤ) : List Row := replayed m.records m.history m.sort order t

theorem mem_noted : e ∈ m.noted ↔ ∃ n ∈ m.novelty, e ∈ notes m.rows n := by
  rw [(m.sort.perm _ _).mem_iff, mem_flatMap]

/-- The history after the merge: the notes, sorted, and what is left of the existing one. -/
theorem history_eq : m.history = m.noted ++ m.kept := by
  have hdedup : dedupAdjacentAsserts m.noted = m.noted := by
    refine dedupAdjacentAsserts_eq (((m.sort.perm _ _).pairwise_iff ?_).mpr (notes_pairwise m.once))
    intro a b h
    rw [← h]
    simp only [duplicateAsserts, Bool.and_assoc, Bool.and_comm b.op, BEq.comm (a := b.key)]
  have hassemble : m.history =
      assembleHistory m.sort (m.novelty.flatMap (notes m.rows)) m.existing := by
    rw [← mergedHistory_walk m.faithful.sorted m.once]
    rfl
  rw [hassemble, kept]
  cases hexisting : m.existing with
  | nil => simp [assembleHistory, keptHistory, hdedup]
  | cons firstOld =>
    simp only [assembleHistory, keptHistory, hdedup]
    cases hlast : m.noted.getLast? with
    | none => rfl
    | some lastNew =>
      have hold : firstOld.t ≤ lastNew.t := by
        obtain ⟨n, hn, hnote⟩ := m.mem_noted.mp (mem_of_getLast? hlast)
        rw [(key_of_mem_notes hnote).2]
        exact (m.faithful.history_le firstOld (by simp [hexisting])).trans (m.later n hn).le
      simp only
      split <;> rfl

/-- At most an assert at the front of the existing history goes, of a fact that is asserted. -/
theorem kept_cases : m.kept = m.existing ∨
    ∃ e₀ n, m.existing = e₀ :: m.kept ∧ e₀.op = true ∧ n ∈ m.novelty ∧ n.key = e₀.key := by
  unfold kept keptHistory
  split
  · next lastNew firstOld rest hlast hexisting =>
    split
    · next hdup =>
      simp only [duplicateAsserts, Bool.and_eq_true, beq_iff_eq] at hdup
      obtain ⟨⟨hkey, -⟩, hold⟩ := hdup
      obtain ⟨n, hn, hnote⟩ := m.mem_noted.mp (mem_of_getLast? hlast)
      exact .inr ⟨firstOld, n, hexisting, hold, hn, (key_of_mem_notes hnote).1.symm.trans hkey⟩
    · exact .inl hexisting.symm
  · exact .inl rfl

theorem kept_sublist : m.kept.Sublist m.existing := by
  rcases m.kept_cases with heq | ⟨e₀, n, heq, -⟩
  · rw [heq]
  · rw [heq]
    exact sublist_cons_self _ _

theorem kept_le (he : e ∈ m.kept) : e.t ≤ m.t₀ :=
  m.faithful.history_le e (m.kept_sublist.subset he)

theorem mem_kept_of_other (hother : ∀ n ∈ m.novelty, n.key ≠ key)
    (hkey : e.key = key) : e ∈ m.kept ↔ e ∈ m.existing := by
  rcases m.kept_cases with heq | ⟨e₀, n, heq, -, hn, hkey₀⟩
  · rw [heq]
  · rw [heq, mem_cons]
    refine ⟨.inr, ?_⟩
    rintro (rfl | he)
    · exact absurd (hkey₀.trans hkey) (hother n hn)
    · exact he

theorem find_kept_of_other (hother : ∀ n ∈ m.novelty, n.key ≠ key) (target : ℕ) :
    findBaseAssertAtTarget m.kept target key = findBaseAssertAtTarget m.existing target key := by
  rcases m.kept_cases with heq | ⟨e₀, n, heq, -, hn, hkey₀⟩
  · rw [heq]
  · have hne : e₀.key ≠ key := fun hkey => hother n hn (hkey₀.trans hkey)
    rw [heq]
    simp [findBaseAssertAtTarget, hne]

/-- The assert that goes is the newest entry, so it decides nothing that a retract decides. -/
theorem restored_kept (target : ℕ) (key : FactKeyV3) :
    Restored [] m.kept target key ↔ Restored [] m.existing target key := by
  rcases m.kept_cases with heq | ⟨e₀, n, heq, hop₀, -⟩
  · rw [heq]
  · have hnewest := m.faithful.newestFirst
    rw [heq] at hnewest ⊢
    obtain ⟨hfirst, -⟩ := pairwise_cons.mp hnewest
    constructor
    · rintro ⟨e, he, hkey, ht, hop, hleast, -⟩
      refine ⟨e, mem_cons_of_mem e₀ he, hkey, ht, hop, fun e' he' hkey' ht' => ?_, by simp⟩
      rcases mem_cons.mp he' with rfl | he'
      · exact hfirst e he
      · exact hleast e' he' hkey' ht'
    · rintro ⟨e, he, hkey, ht, hop, hleast, -⟩
      rcases mem_cons.mp he with rfl | he
      · rw [hop₀] at hop
        cases hop
      · exact ⟨e, he, hkey, ht, hop, fun e' he' => hleast e' (mem_cons_of_mem e₀ he'), by simp⟩

theorem find_kept (hrestored : Restored [] m.existing target key) :
    findBaseAssertAtTarget m.kept target key = findBaseAssertAtTarget m.existing target key := by
  rcases m.kept_cases with heq | ⟨e₀, n, heq, -⟩
  · rw [heq]
  · have hnewest := m.faithful.newestFirst
    rw [heq] at hnewest hrestored ⊢
    obtain ⟨hfirst, -⟩ := pairwise_cons.mp hnewest
    obtain ⟨e, he, -, ht, -⟩ := hrestored
    have hnew : ¬(e₀.t : ℕ) ≤ target := by
      rcases mem_cons.mp he with rfl | he
      · omega
      · have hle := Fin.le_def.mp (hfirst e he)
        omega
    simp [findBaseAssertAtTarget, hnew]

theorem records_sorted : RowsSorted order m.records := by
  refine mergedRows_sorted m.faithful.sorted (m.once.imp le_of_lt) (m.once.imp fun hlt heq => ?_)
  rw [heq.1] at hlt
  exact lt_irrefl _ hlt

theorem mem_records (row : Row) : row ∈ m.records ↔
    (row ∈ m.rows ∧ ∀ n ∈ m.novelty, n.key ≠ row.key) ∨
      ∃ n ∈ m.novelty, n.op = true ∧ n.toRow = row :=
  mem_mergedRows m.faithful.sorted (m.once.imp le_of_lt) row

theorem mem_history (e : HistEntryV2) :
    e ∈ m.history ↔ (∃ n ∈ m.novelty, e ∈ notes m.rows n) ∨ e ∈ m.kept := by
  rw [history_eq, mem_append, mem_noted]

theorem history_newestFirst : m.history.Pairwise fun a b => b.t ≤ a.t := by
  rw [history_eq]
  have htrans : Std.TransCmp cmpHistory := transCmp_of_compares cmpHistory_compares
  refine pairwise_append.mpr ⟨(m.sort.sorted cmpHistory _).imp fun {a b} hle => ?_,
    m.faithful.newestFirst.sublist m.kept_sublist, fun a ha b hb => ?_⟩
  · have hle := (isLE_iff_le (cmpHistory_compares a b)).mp hle
    have hkeys : 2 * b.t.val + (!b.op).toNat ≤ 2 * a.t.val + (!a.op).toNat := hle
    have hbit := Bool.toNat_le (!a.op)
    rw [Fin.le_def]
    omega
  · obtain ⟨n, hn, hnote⟩ := m.mem_noted.mp ha
    rw [(key_of_mem_notes hnote).2]
    exact (m.kept_le hb).trans (m.later n hn).le

/-- What the merge noted lies after every target before the operation. -/
theorem find_history (hearly : ∀ n ∈ m.novelty, n.key = key → target < n.t) :
    findBaseAssertAtTarget m.history target key = findBaseAssertAtTarget m.kept target key := by
  have hnone : findBaseAssertAtTarget m.noted target key = none := by
    refine find?_eq_none.mpr fun e he hmatch => ?_
    simp only [Bool.and_eq_true, decide_eq_true_eq] at hmatch
    obtain ⟨n, hn, hnote⟩ := m.mem_noted.mp he
    obtain ⟨hkey, ht⟩ := key_of_mem_notes hnote
    have hlt := hearly n hn (hkey.symm.trans hmatch.2)
    rw [ht] at hmatch
    omega
  rw [history_eq, findBaseAssertAtTarget, find?_append]
  unfold findBaseAssertAtTarget at hnone
  rw [hnone]
  rfl

/-- A fact without an operation is replayed as before. -/
theorem mem_asOf_of_other (hother : ∀ n ∈ m.novelty, n.key ≠ row.key) :
    row ∈ m.asOf target ↔ LogRow m.log target row := by
  have hrows : ∀ b, b.key = row.key → (b ∈ m.rows ↔ b ∈ m.records) := by
    intro b hkey
    rw [mem_records]
    refine ⟨fun hb => .inl ⟨hb, fun n hn => hkey ▸ hother n hn⟩, ?_⟩
    rintro (⟨hb, -⟩ | ⟨n, hn, -, rfl⟩)
    · exact hb
    · exact absurd hkey (hother n hn)
  have hhistory : ∀ e, e.key = row.key → (e ∈ m.existing ↔ e ∈ m.history) := by
    intro e hkey
    rw [mem_history, m.mem_kept_of_other hother hkey]
    refine ⟨.inr, ?_⟩
    rintro (⟨n, hn, hnote⟩ | he)
    · exact absurd ((key_of_mem_notes hnote).1.symm.trans hkey) (hother n hn)
    · exact he
  have htouched : Touched m.records m.history target row.key ↔
      Touched m.rows m.existing target row.key :=
    ⟨.congr (fun b hb => (hrows b hb).symm) fun e he => (hhistory e he).symm, .congr hrows hhistory⟩
  have hrestored : Restored m.records m.history target row.key ↔
      Restored m.rows m.existing target row.key :=
    ⟨.congr (fun b hb => (hrows b hb).symm) fun e he => (hhistory e he).symm, .congr hrows hhistory⟩
  have hfind : findBaseAssertAtTarget m.history target row.key =
      findBaseAssertAtTarget m.existing target row.key := by
    rw [m.find_history fun n hn hkey => absurd hkey (hother n hn), m.find_kept_of_other hother]
  have hbases : (∀ b ∈ m.records, b.key = row.key → target < b.t) ↔
      ∀ b ∈ m.rows, b.key = row.key → target < b.t :=
    forall_congr' fun b => ⟨fun hb hin hkey => hb ((hrows b hkey).mp hin) hkey,
      fun hb hin hkey => hb ((hrows b hkey).mpr hin) hkey⟩
  obtain ⟨src', -, hmem'⟩ := mem_replayed m.sort m.records_sorted m.history_newestFirst target
  rw [hmem', htouched, hrestored, hfind, hbases, ← hrows row rfl]
  by_cases hearly : (target : ℤ) ≤ m.t₀
  · obtain ⟨src, -, hmem⟩ := mem_replayed m.sort m.faithful.sorted m.faithful.newestFirst target
    rw [← m.faithful.replays m.sort target hearly, hmem]
    refine or_congr_right (or_congr_right (and_congr_right fun hold => and_congr_right fun hr => ?_))
    obtain ⟨a, hfound, -⟩ := m.faithful.found hr hold
    rw [hfound]
    rfl
  · have hlate : m.t₀ ≤ target := by omega
    have huntouched := m.faithful.untouched hlate row.key
    have hnot : ¬Restored m.rows m.existing target row.key := fun hr => huntouched hr.touched
    rw [← m.faithful.mem_rows hlate]
    tauto

variable {n : NoveltyOp} (hn : n ∈ m.novelty)

include hn

theorem row_of_op (hkey : row.key = n.key) : row ∈ m.records ↔ n.op = true ∧ n.toRow = row := by
  rw [mem_records]
  constructor
  · rintro (⟨-, hother⟩ | ⟨n', hn', hop, rfl⟩)
    · exact absurd hkey.symm (hother n hn)
    · obtain rfl := m.once.eq_of_key hn' hn hkey
      exact ⟨hop, rfl⟩
  · rintro ⟨hop, hrow⟩
    exact .inr ⟨n, hn, hop, hrow⟩

theorem entry_of_op (hkey : e.key = n.key) : e ∈ m.history ↔ e ∈ notes m.rows n ∨ e ∈ m.kept := by
  rw [mem_history]
  refine or_congr_left ⟨?_, fun hnote => ⟨n, hn, hnote⟩⟩
  rintro ⟨n', hn', hnote⟩
  obtain rfl := m.once.eq_of_key hn' hn ((key_of_mem_notes hnote).1.symm.trans hkey)
  exact hnote

theorem kept_lt (he : e ∈ m.kept) : (e.t : ℕ) < n.t :=
  (m.kept_le he).trans_lt (m.later n hn)

theorem t_of_record (hrow : row ∈ m.records) (hkey : row.key = n.key) : row.t = n.t := by
  obtain ⟨-, rfl⟩ := (m.row_of_op hn hkey).mp hrow
  rfl

/-- From its operation on, a fact is what the operation made of it. -/
theorem mem_asOf_late (hlate : n.t ≤ target) (hkey : row.key = n.key) :
    row ∈ m.asOf target ↔ n.op = true ∧ n.toRow = row := by
  have huntouched : ¬Touched m.records m.history target row.key := by
    rintro (⟨e, he, hekey, ht⟩ | ⟨b, hb, hbkey, ht⟩)
    · rcases (m.entry_of_op hn (hekey.trans hkey)).mp he with hnote | hkept
      · rw [(key_of_mem_notes hnote).2] at ht
        omega
      · have hlt := m.kept_lt hn hkept
        omega
    · rw [m.t_of_record hn hb (hbkey.trans hkey)] at ht
      omega
  obtain ⟨src, -, hmem⟩ := mem_replayed m.sort m.records_sorted m.history_newestFirst target
  have hnot := fun hr => huntouched (Restored.touched hr)
  rw [hmem, ← m.row_of_op hn hkey]
  tauto

variable (hearly : target < n.t)

include hearly

/-- Before its operation a fact is restored if the history says so. If nothing happened to it
between the target and the operation, it is restored if the operation left a retract. -/
theorem restores_iff : m.Restores target n.key ↔
    Restored [] m.kept target n.key ∨ ((∀ e ∈ m.kept, e.key = n.key → e.t ≤ target) ∧
      (n.op = false ∨ ∃ row ∈ m.rows, row.key = n.key)) := by
  have hentry := fun {e} => @entry_of_op _ m e n hn
  constructor
  · rintro ⟨e, he, hkey, ht, hop, hleast, -⟩
    rcases (hentry hkey).mp he with hnote | hkept
    · refine .inr ⟨fun e' he' hkey' => ?_, ?_⟩
      · by_contra hnew
        have hle := Fin.le_def.mp (hleast e' ((hentry hkey').mpr (.inr he')) hkey' (by omega))
        rw [(key_of_mem_notes hnote).2] at hle
        have hlt := m.kept_lt hn he'
        omega
      · rcases mem_notes.mp hnote with rfl | ⟨-, hexists, -⟩
        · exact .inl hop
        · exact .inr hexists
    · refine .inl ⟨e, hkept, hkey, ht, hop, fun e' he' hkey' => ?_, by simp⟩
      exact hleast e' ((hentry hkey').mpr (.inr he')) hkey'
  · rintro (⟨e, hkept, hkey, ht, hop, hleast, -⟩ | ⟨hold, hretract⟩)
    · refine ⟨e, (hentry hkey).mpr (.inr hkept), hkey, ht, hop, fun e' he' hkey' ht' => ?_,
        fun b hb hbkey _ => ?_⟩
      · rcases (hentry hkey').mp he' with hnote | hkept'
        · rw [(key_of_mem_notes hnote).2]
          exact (m.kept_lt hn hkept).le
        · exact hleast e' hkept' hkey' ht'
      · rw [m.t_of_record hn hb hbkey]
        exact (m.kept_lt hn hkept).le
    · have hnote : ⟨n.key, n.t, false⟩ ∈ notes m.rows n := by
        rw [mem_notes]
        cases hop : n.op with
        | false => exact .inl (by rw [NoveltyOp.histEntry, hop])
        | true =>
          rcases hretract with hfalse | hexists
          · rw [hop] at hfalse
            cases hfalse
          · exact .inr ⟨rfl, hexists, rfl⟩
      refine ⟨⟨n.key, n.t, false⟩, (hentry rfl).mpr (.inl hnote), rfl, hearly, rfl,
        fun e' he' hkey' ht' => ?_, fun b hb hbkey _ => (m.t_of_record hn hb hbkey).ge⟩
      rcases (hentry hkey').mp he' with hnote' | hkept'
      · exact (key_of_mem_notes hnote').2.ge
      · have hle := hold e' hkept' hkey'
        omega

theorem mem_asOf_early :
    ∃ src : U32, (m.Restores target n.key → target < src) ∧ ∀ row : Row, row.key = n.key →
      (row ∈ m.asOf target ↔ m.Restores target n.key ∧
        ((findBaseAssertAtTarget m.kept target n.key).map t).getD src = row.t) := by
  obtain ⟨src, hsrc, hmem⟩ := mem_replayed m.sort m.records_sorted m.history_newestFirst target
  have hrow : ∀ b ∈ m.records, b.key = n.key → target < b.t := by
    intro b hb hkey
    rw [m.t_of_record hn hb hkey]
    exact hearly
  refine ⟨src n.key, hsrc n.key, fun row hkey => ?_⟩
  have hfind : findBaseAssertAtTarget m.history target n.key = _ :=
    m.find_history fun n' hn' hkey' => by rw [m.once.eq_of_key hn' hn hkey']; exact hearly
  rw [hmem, hkey, hfind]
  constructor
  · rintro (⟨hb, huntouched⟩ | ⟨hb, hle, -⟩ | ⟨-, hget⟩)
    · exact absurd (.inr ⟨row, hb, hkey, hrow row hb hkey⟩) huntouched
    · have hlt := hrow row hb hkey
      omega
    · exact hget
  · intro hget
    exact .inr (.inr ⟨hrow, hget⟩)

/-- Before its operation a fact is as it was, if that can be told from what is left. -/
theorem mem_asOf_of_recovers (hrecovers : Recovers m.rows m.kept n) (hkey : row.key = n.key) :
    row ∈ m.asOf target ↔ LogRow m.log target row := by
  obtain ⟨src, hsrc, hmem⟩ := m.mem_asOf_early hn hearly
  rw [hmem row hkey]
  have h := m.faithful
  have hrestored := m.restores_iff hn hearly
  rw [m.restored_kept] at hrestored
  -- a fact without a row that old is restored by the history alone
  have hbefore : (∀ b ∈ m.rows, b.key = n.key → target < b.t) →
      (m.Restores target n.key ↔ Restored [] m.existing target n.key) →
      (Restored [] m.existing target n.key ↔ Restored m.rows m.existing target n.key) →
      ((m.Restores target n.key ∧
        ((findBaseAssertAtTarget m.kept target n.key).map t).getD src = row.t) ↔
          LogRow m.log target row) := by
    intro hold hmerged hrows
    rw [← hkey] at hold
    rw [h.logRow_iff hold, hkey, hmerged, ← hrows]
    refine and_congr_right fun hr => ?_
    obtain ⟨a, hfound, -⟩ := h.found (hkey ▸ hrows.mp hr) hold
    rw [hkey] at hfound
    rw [m.find_kept hr, hfound]
    simp
  rcases hrecovers with ⟨hop, hnone⟩ | ⟨b, hb, hbkey, hnewest⟩
  · have hno : ∀ b ∈ m.rows, ¬b.key = n.key := hnone
    refine hbefore (fun b hb hbkey => absurd hbkey (hno b hb)) ?_
      ⟨fun hr => hr.with_rows fun b hb hbkey => absurd hbkey (hno b hb), Restored.forget_rows⟩
    rw [hrestored]
    refine or_iff_left ?_
    rintro ⟨-, hretract | ⟨b, hb, hbkey⟩⟩
    · rw [hop] at hretract
      cases hretract
    · exact hno b hb hbkey
  · have hone : ∀ b' ∈ m.rows, b'.key = n.key → b' = b :=
      fun b' hb' hkey' => h.sorted.eq_of_key hb' hb (hkey'.trans hbkey.symm)
    by_cases hsince : b.t ≤ target
    · -- the row stands at the target, and its assert is the newest that is left
      have hlog := h.logRow_since hb hsince
      have hr : m.Restores target n.key := by
        rw [hrestored]
        by_cases htouched : Touched m.rows m.existing target n.key
        · have hin : (target : ℤ) ≤ m.t₀ := by
            by_contra hlate
            exact h.untouched (by omega) n.key htouched
          obtain ⟨src, -, hmem⟩ := mem_replayed m.sort h.sorted h.newestFirst target
          rcases (hmem b).mp ((h.replays m.sort target hin b).mpr hlog) with
            ⟨-, huntouched⟩ | ⟨-, -, hr⟩ | ⟨hold, -⟩
          · exact absurd (hbkey ▸ htouched) huntouched
          · exact .inl (hbkey ▸ hr).forget_rows
          · exact absurd (hold b hb rfl) (by omega)
        · refine .inr ⟨fun e he hekey => ?_, .inr ⟨b, hb, hbkey⟩⟩
          by_contra hnew
          exact htouched (.inl ⟨e, m.kept_sublist.subset he, hekey, by omega⟩)
      rw [findBaseAssert_of_newest hnewest hsince]
      constructor
      · rintro ⟨-, ht⟩
        rw [Row.ext (hkey.trans hbkey.symm) (Option.getD_some.symm.trans ht).symm]
        exact hlog
      · intro hrow
        rw [hrow.eq_of_key hlog (hkey.trans hbkey.symm)]
        exact ⟨hr, rfl⟩
    · have hnew : target < b.t := by omega
      obtain ⟨a, ha, hakey, hat⟩ := mem_of_newestAssert hnewest
      refine hbefore (fun b' hb' hkey' => hone b' hb' hkey' ▸ hnew) ?_
        ⟨fun hr => hr.with_rows fun b' hb' hkey' =>
          ⟨a, m.kept_sublist.subset ha, hakey, hone b' hb' hkey' ▸ hat⟩, Restored.forget_rows⟩
      rw [hrestored]
      refine or_iff_left fun hafter => ?_
      have hle := hafter.1 a ha hakey
      rw [hat] at hle
      omega

omit hearly

/-- It can be told if a replay to `t₀` gives the row, or none. -/
theorem recovers_of_mem_at
    (hat : ∀ row : Row, row.key = n.key → (row ∈ m.asOf (m.t₀ : ℕ) ↔ row ∈ m.rows)) :
    Recovers m.rows m.kept n := by
  obtain ⟨src, hsrc, hmem⟩ := m.mem_asOf_early hn (m.later n hn)
  have hle : ∀ e ∈ m.kept, (e.t : ℕ) ≤ m.t₀ := fun e he => m.kept_le he
  by_cases hexists : ∃ row ∈ m.rows, row.key = n.key
  · obtain ⟨b, hb, hbkey⟩ := hexists
    refine .inr ⟨b, hb, hbkey, ?_⟩
    obtain ⟨hr, hget⟩ := (hmem b hbkey).mp ((hat b hbkey).mpr hb)
    rw [newestAssert_eq_find hle]
    cases hfound : findBaseAssertAtTarget m.kept m.t₀ n.key with
    | some =>
      rw [hfound] at hget
      exact congrArg some hget
    | none =>
      rw [hfound] at hget
      have hnew : (m.t₀ : ℕ) < src := hsrc hr
      have hold := Fin.le_def.mp (m.faithful.rows_le b hb)
      obtain rfl : src = b.t := hget
      omega
  · refine .inl ⟨?_, fun row hrow hkey => hexists ⟨row, hrow, hkey⟩⟩
    by_contra hop
    have hr := (m.restores_iff hn (m.later n hn)).mpr
      (.inr ⟨fun e he _ => hle e he, .inl (by simpa using hop)⟩)
    let restored : Row := ⟨n.key, ((findBaseAssertAtTarget m.kept m.t₀ n.key).map
      t).getD src⟩
    exact hexists ⟨restored, (hat restored rfl).mp ((hmem restored rfl).mpr ⟨hr, rfl⟩), rfl⟩

end Merge

/-! ### The assert that goes for a duplicate -/

/-- The history begins with an assert of the fact that the operation asserts, and no operation
is older. -/
def MayDrop (existing : List HistEntryV2) (novelty : List NoveltyOp) (n : NoveltyOp) : Prop :=
  n.op = true ∧ (∀ m ∈ novelty, n.t ≤ m.t) ∧
    (existing.head?.any fun e => e.op && e.key = n.key) = true
deriving Decidable

/-- And no other assert is as old. -/
def MustDrop (existing : List HistEntryV2) (novelty : List NoveltyOp) (n : NoveltyOp) : Prop :=
  MayDrop existing novelty n ∧ ∀ m ∈ novelty, m.op = true → m.t = n.t → m = n
deriving Decidable

section

variable {sort : UnstableSort} {order : RunSortOrder} {rows : List Row}
  {existing : List HistEntryV2} {novelty : List NoveltyOp} {n : NoveltyOp}

theorem keptHistory_of_last {lastNew : HistEntryV2}
    (hlast : (sort.sort cmpHistory (novelty.flatMap (notes rows))).getLast? = some lastNew) :
    keptHistory sort rows existing novelty =
      if existing.head?.any (duplicateAsserts lastNew) then existing.tail else existing := by
  unfold keptHistory
  rw [hlast]
  cases existing with
  | nil => rfl
  | cons => rfl

theorem exists_last_note (sort : UnstableSort) (rows : List Row) (hn : n ∈ novelty) :
    ∃ lastNew m, (sort.sort cmpHistory (novelty.flatMap (notes rows))).getLast? = some lastNew ∧
      m ∈ novelty ∧ lastNew ∈ notes rows m ∧
        ∀ m' ∈ novelty, 2 * m.t.val + (!lastNew.op).toNat ≤ 2 * m'.t.val + (!m'.op).toNat := by
  set entries := sort.sort cmpHistory (novelty.flatMap (notes rows)) with hentries
  have hmem : ∀ m ∈ novelty, m.histEntry ∈ entries := by
    intro m hm
    rw [(sort.perm _ _).mem_iff]
    exact mem_flatMap.mpr ⟨m, hm, mem_notes.mpr (.inl rfl)⟩
  have hne := ne_nil_of_mem (hmem n hn)
  obtain ⟨m, hm, hnote⟩ := mem_flatMap.mp ((sort.perm _ _).mem_iff.mp (getLast_mem hne))
  refine ⟨_, m, getLast?_eq_some_getLast hne, hm, hnote, fun m' hm' => ?_⟩
  have htrans : Std.TransCmp cmpHistory := transCmp_of_compares cmpHistory_compares
  have hsorted : SortedBy cmpHistory entries := sort.sorted cmpHistory _
  have hle := hsorted.rel_getLast_of_rel_getLast_getLast (hmem m' hm') Std.ReflCmp.isLE_rfl
  rw [← (key_of_mem_notes hnote).2]
  exact (isLE_iff_le (cmpHistory_compares m'.histEntry _)).mp hle

/-- Of the asserts of a fact the merge keeps all or drops the first. -/
theorem keptHistory_spec (sort : UnstableSort) (rows : List Row) (existing : List HistEntryV2)
    (honce : OncePerFact order novelty) (hn : n ∈ novelty) :
    (MayDrop existing novelty n ∧ keptHistory sort rows existing novelty = existing.tail) ∨
      (¬MustDrop existing novelty n ∧
        newestAssert (keptHistory sort rows existing novelty) n.key =
          newestAssert existing n.key) := by
  obtain ⟨lastNew, m, hlast, hm, hnote, holdest⟩ := exists_last_note sort rows hn
  obtain ⟨hkey, ht⟩ := key_of_mem_notes hnote
  rw [keptHistory_of_last hlast]
  cases existing with
  | nil => exact .inr ⟨fun hmust => by simpa [MayDrop] using hmust.1, rfl⟩
  | cons firstOld =>
    by_cases hdup : duplicateAsserts lastNew firstOld = true
    · simp only [head?_cons, Option.any_some, hdup, if_true]
      simp only [duplicateAsserts, Bool.and_eq_true, beq_iff_eq] at hdup
      obtain ⟨⟨hfirst, hnew⟩, hold⟩ := hdup
      by_cases hmn : m = n
      · subst hmn
        refine .inl ⟨⟨?_, fun m' hm' => ?_, ?_⟩, trivial⟩
        · rcases mem_notes.mp hnote with rfl | ⟨hop, -, -⟩
          · exact hnew
          · exact hop
        · have hle := holdest m' hm'
          have hbit := Bool.toNat_le (!m'.op)
          rw [Fin.le_def]
          omega
        · simp [hold, ← hfirst, hkey]
      · have hne : firstOld.key ≠ n.key := by
          intro heq
          exact hmn (honce.eq_of_key hm hn (hkey.symm.trans (hfirst.trans heq)))
        exact .inr ⟨fun hmust => by simpa [MayDrop, hne] using hmust.1,
          by simp [newestAssert, hne]⟩
    · rw [if_neg (by simpa using hdup)]
      refine .inr ⟨?_, rfl⟩
      rintro ⟨⟨hop, holder, hfirst⟩, honly⟩
      have hle := holdest n hn
      have hge := Fin.le_def.mp (holder m hm)
      rw [hop] at hle
      have hlastop : lastNew.op = true := by
        cases hlastop : lastNew.op with
        | true => rfl
        | false =>
          rw [hlastop] at hle
          simp only [Bool.not_true, Bool.not_false, Bool.toNat_false, Bool.toNat_true] at hle
          omega
      have hmop : m.op = true := by
        rcases mem_notes.mp hnote with rfl | ⟨hop, -, -⟩
        · exact hlastop
        · exact hop
      have hmt : m.t = n.t := by
        simp only [Bool.not_true, Bool.toNat_false] at hle
        exact Fin.ext (by omega)
      obtain rfl := honly m hm hmop hmt
      simp only [head?_cons, Option.any_some, Bool.and_eq_true, decide_eq_true_eq] at hfirst
      exact hdup (by simp [duplicateAsserts, hkey, hlastop, hfirst])

/-- A sort under which an assert that no operation is older than is the last new entry. -/
theorem exists_sort_last (rows : List Row) (hn : n ∈ novelty) (hop : n.op = true)
    (holder : ∀ m ∈ novelty, n.t ≤ m.t) :
    ∃ sort : UnstableSort,
      (sort.sort cmpHistory (novelty.flatMap (notes rows))).getLast? = some n.histEntry := by
  refine exists_sort_getLast (mem_flatMap.mpr ⟨n, hn, mem_notes.mpr (.inl rfl)⟩) ?_
  intro e he
  obtain ⟨m, hm, hnote⟩ := mem_flatMap.mp he
  have hle := Fin.le_def.mp (holder m hm)
  refine (isLE_iff_le (cmpHistory_compares e n.histEntry)).mpr ?_
  change 2 * n.t.val + (!n.op).toNat ≤ 2 * e.t.val + (!e.op).toNat
  rw [hop, (key_of_mem_notes hnote).2]
  simp only [Bool.not_true, Bool.toNat_false]
  omega

theorem exists_sort_drop (rows : List Row) (hn : n ∈ novelty) (hmay : MayDrop existing novelty n) :
    ∃ sort, keptHistory sort rows existing novelty = existing.tail := by
  obtain ⟨hop, holder, hfirst⟩ := hmay
  obtain ⟨sort, hlast⟩ := exists_sort_last rows hn hop holder
  refine ⟨sort, ?_⟩
  rw [keptHistory_of_last hlast]
  cases existing with
  | nil => cases hfirst
  | cons =>
    simp only [head?_cons, Option.any_some, Bool.and_eq_true, decide_eq_true_eq] at hfirst ⊢
    simp [duplicateAsserts, NoveltyOp.histEntry, hop, hfirst]

theorem exists_sort_keep (rows : List Row) (honce : OncePerFact order novelty) (hn : n ∈ novelty)
    (hmust : ¬MustDrop existing novelty n) :
    ∃ sort, newestAssert (keptHistory sort rows existing novelty) n.key =
      newestAssert existing n.key := by
  by_cases hmay : MayDrop existing novelty n
  · -- another assert is as old: it may come last
    have hother : ∃ m ∈ novelty, m.op = true ∧ m.t = n.t ∧ m ≠ n := by
      by_contra hnone
      refine hmust ⟨hmay, fun m hm hop ht => ?_⟩
      by_contra hne
      exact hnone ⟨m, hm, hop, ht, hne⟩
    obtain ⟨m, hm, hop, ht, hne⟩ := hother
    obtain ⟨-, holder, hfirst⟩ := hmay
    obtain ⟨sort, hlast⟩ := exists_sort_last rows hm hop fun m' hm' => ht ▸ holder m' hm'
    refine ⟨sort, ?_⟩
    rw [keptHistory_of_last hlast]
    cases existing with
    | nil => cases hfirst
    | cons =>
      simp only [head?_cons, Option.any_some, Bool.and_eq_true, decide_eq_true_eq] at hfirst ⊢
      have hkey : m.key ≠ n.key := fun heq => hne (honce.eq_of_key hm hn heq)
      simp [duplicateAsserts, NoveltyOp.histEntry, hfirst, hkey]
  · refine ⟨rotated 0, ?_⟩
    rcases keptHistory_spec (rotated 0) rows existing honce hn with ⟨h, -⟩ | ⟨-, heq⟩
    · exact absurd h hmay
    · exact heq

end

/-! ### Time travel over a merge -/

/-- Replays of the merged leaflet: to a `t` up to `t₀` as before the merge, to a later `t` the
state of the log with the novelty. -/
def PreservesTimeTravel (order : RunSortOrder) (rows : List Row) (existing log : List HistEntryV2)
    (novelty : List NoveltyOp) (t₀ : U32) : Prop :=
  ∀ sort : UnstableSort,
    let merged := mergeNovelty sort order rows existing novelty
    (∀ t : ℤ, t ≤ t₀ → ∀ row, row ∈ replayed merged.records merged.history sort order t ↔
        row ∈ replayed rows existing sort order t) ∧
      ∀ t : ℤ, t₀ < t → ∀ row, row ∈ replayed merged.records merged.history sort order t ↔
        LogRow (log ++ novelty.map NoveltyOp.histEntry) t row

/-- The assert of a row at `t` is the newest of its fact in what may be left of the history. -/
def BaseNoted (existing : List HistEntryV2) (novelty : List NoveltyOp) (n : NoveltyOp) (t : U32) :
    Prop :=
  (¬MustDrop existing novelty n → newestAssert existing n.key = some t) ∧
    (MayDrop existing novelty n → newestAssert existing.tail n.key = some t)
deriving Decidable

section

variable {order : RunSortOrder} {rows : List Row} {existing log : List HistEntryV2}
  {novelty : List NoveltyOp} {t₀ : U32}

/-- Operations that are later, or of other facts, do not change the state of a fact. -/
theorem logRow_append_of_later {t : ℤ} (hlater : ∀ n ∈ novelty, n.key = row.key → t < n.t) :
    LogRow (log ++ novelty.map NoveltyOp.histEntry) t row ↔ LogRow log t row := by
  unfold LogRow
  simp only [mem_append, mem_map]
  constructor
  · rintro ⟨hin | ⟨n, hn, heq⟩, ht, hlast⟩
    · exact ⟨hin, ht, fun e he => hlast e (.inl he)⟩
    · have hlt := hlater n hn (congrArg key heq)
      have heqt : n.t = row.t := congrArg HistEntryV2.t heq
      rw [heqt] at hlt
      omega
  · rintro ⟨hin, ht, hlast⟩
    refine ⟨.inl hin, ht, ?_⟩
    rintro e (he | ⟨n, hn, rfl⟩) hkey het
    · exact hlast e he hkey het
    · have hlt := hlater n hn hkey
      have hle : (n.t : ℤ) ≤ t := het
      omega

/-- The last operation of a fact decides its state. -/
theorem logRow_append_of_last (honce : OncePerFact order novelty) (hlog : ∀ e ∈ log, e.t ≤ t₀)
    {n : NoveltyOp} (hn : n ∈ novelty) (hlater : t₀ < n.t) {t : ℤ} (ht : n.t ≤ t)
    (hkey : row.key = n.key) :
    LogRow (log ++ novelty.map NoveltyOp.histEntry) t row ↔ n.op = true ∧ n.toRow = row := by
  have hmem : n.histEntry ∈ log ++ novelty.map NoveltyOp.histEntry :=
    mem_append_right log (mem_map_of_mem hn)
  have hentry : ∀ e ∈ log ++ novelty.map NoveltyOp.histEntry, e.key = n.key →
      e.t ≤ t₀ ∨ e = n.histEntry := by
    intro e he hekey
    rcases mem_append.mp he with he | he
    · exact .inl (hlog e he)
    · obtain ⟨n', hn', rfl⟩ := mem_map.mp he
      rw [honce.eq_of_key hn' hn hekey]
      exact .inr rfl
  constructor
  · rintro ⟨hin, -, hlast⟩
    have hge : n.t ≤ row.t := hlast n.histEntry hmem hkey.symm ht
    rcases hentry _ hin hkey with hle | heq
    · exact absurd (hlater.trans_le (hge.trans hle)) (lt_irrefl _)
    · exact ⟨(congrArg op heq).symm,
        Row.ext hkey.symm (congrArg HistEntryV2.t heq).symm⟩
  · rintro ⟨hop, rfl⟩
    refine ⟨?_, ht, fun e he hekey _ => ?_⟩
    · have heq : (⟨n.key, n.t, true⟩ : HistEntryV2) = n.histEntry := by rw [← hop]; rfl
      rw [heq]
      exact hmem
    · rcases hentry e he hekey with hle | rfl
      · exact hle.trans hlater.le
      · exact le_rfl

theorem Merge.mem_asOf (m : Merge order) (hrecovers : ∀ n ∈ m.novelty, Recovers m.rows m.kept n)
    (target : ℕ) (row : Row) :
    row ∈ m.asOf target ↔ LogRow (m.log ++ m.novelty.map NoveltyOp.histEntry) target row := by
  by_cases hop : ∃ n ∈ m.novelty, n.key = row.key
  · obtain ⟨n, hn, hkey⟩ := hop
    by_cases hlate : n.t ≤ target
    · rw [m.mem_asOf_late hn hlate hkey.symm,
        logRow_append_of_last m.once m.faithful.log_le hn (m.later n hn) (by omega) hkey.symm]
    · rw [m.mem_asOf_of_recovers hn (by omega) (hrecovers n hn) hkey.symm, logRow_append_of_later]
      intro n' hn' hkey'
      rw [m.once.eq_of_key hn' hn (hkey'.trans hkey.symm)]
      omega
  · have hother : ∀ n ∈ m.novelty, n.key ≠ row.key := fun n hn hkey => hop ⟨n, hn, hkey⟩
    rw [m.mem_asOf_of_other hother, logRow_append_of_later fun n hn hkey => absurd hkey (hother n hn)]

/-- Time travel survives a merge exactly if each operation asserts a fact that was not there,
or is of a fact that was there and whose assert is the newest in what is left of the history. -/
theorem merge_preserves_time_travel_iff (h : Faithful order rows existing log t₀)
    (honce : OncePerFact order novelty) (hlater : ∀ n ∈ novelty, t₀ < n.t) :
    PreservesTimeTravel order rows existing log novelty t₀ ↔
      ∀ n ∈ novelty, (n.op = true ∧ ∀ row ∈ rows, row.key ≠ n.key) ∨
        ∃ row ∈ rows, row.key = n.key ∧ BaseNoted existing novelty n row.t := by
  let m (sort : UnstableSort) : Merge order :=
    ⟨sort, rows, existing, log, novelty, t₀, h, honce, hlater⟩
  constructor
  · intro hpreserves n hn
    have hrecovers : ∀ sort, Recovers rows (m sort).kept n := by
      intro sort
      refine (m sort).recovers_of_mem_at hn fun row _ => ?_
      have hsame := (hpreserves sort).1 (t₀ : ℕ) le_rfl row
      rw [h.replays sort _ le_rfl, ← h.mem_rows le_rfl] at hsame
      exact hsame
    by_cases hexists : ∃ row ∈ rows, row.key = n.key
    · obtain ⟨row, hrow, hkey⟩ := hexists
      have hkept : ∀ sort, newestAssert (m sort).kept n.key = some row.t := by
        intro sort
        rcases hrecovers sort with ⟨-, hnone⟩ | ⟨b, hb, hbkey, hnewest⟩
        · exact absurd hkey (hnone row hrow)
        · rw [h.sorted.eq_of_key hrow hb (hkey.trans hbkey.symm)]
          exact hnewest
      refine .inr ⟨row, hrow, hkey, fun hmust => ?_, fun hmay => ?_⟩
      · obtain ⟨sort, hsort⟩ := exists_sort_keep rows honce hn hmust
        exact hsort.symm.trans (hkept sort)
      · obtain ⟨sort, hsort⟩ := exists_sort_drop rows hn hmay
        rw [← hsort]
        exact hkept sort
    · rcases hrecovers (rotated 0) with hassert | ⟨b, hb, hbkey, -⟩
      · exact .inl hassert
      · exact absurd ⟨b, hb, hbkey⟩ hexists
  · intro hsafe sort
    have hrecovers : ∀ n ∈ novelty, Recovers rows (m sort).kept n := by
      intro n hn
      rcases hsafe n hn with hassert | ⟨row, hrow, hkey, hnoted, htail⟩
      · exact .inl hassert
      · refine .inr ⟨row, hrow, hkey, ?_⟩
        rcases keptHistory_spec sort rows existing honce hn with ⟨hmay, heq⟩ | ⟨hmust, heq⟩
        · rw [Merge.kept, heq]
          exact htail hmay
        · exact heq.trans (hnoted hmust)
    have hmerged := (m sort).mem_asOf hrecovers
    refine ⟨fun t ht row => ?_, fun t ht row => ?_⟩
    · by_cases hneg : t < 0
      · rw [replayed_of_neg sort hneg, replayed_of_neg sort hneg]
      · obtain ⟨target, rfl⟩ := Int.eq_ofNat_of_zero_le (not_lt.mp hneg)
        rw [h.replays sort _ ht]
        refine (hmerged target row).trans (logRow_append_of_later fun n hn _ => ?_)
        have hlt := Fin.lt_def.mp (hlater n hn)
        omega
    · obtain ⟨target, rfl⟩ := Int.eq_ofNat_of_zero_le (by omega : 0 ≤ t)
      exact hmerged target row

end

namespace Sample

/-- One fact, asserted at 1. -/
def asserted : List Row := [⟨key 1 1, 1⟩]

def assertedLog : List HistEntryV2 := [⟨key 1 1, 1, true⟩]

theorem asserted_faithful {history : List HistEntryV2} (h : history.Sublist assertedLog) :
    Faithful .spot asserted history assertedLog 1 := by
  have hmem : ∀ e ∈ history, e = ⟨key 1 1, 1, true⟩ := fun e he => mem_singleton.mp (h.subset he)
  have hholds : HoldsLog .spot asserted history assertedLog := by
    refine ⟨pairwise_singleton _ _, (pairwise_singleton _ _).sublist h, fun e => ?_,
      pairwise_singleton _ _⟩
    simpa [asserted, assertedLog] using hmem e
  refine ⟨hholds.sorted, hholds.newestFirst, by decide, fun e he => (hmem e he ▸ le_rfl), by decide,
    fun sort t _ => (hholds.replays_iff sort).mpr ⟨fun row => ⟨fun hrow => ?_, fun hrow => ?_⟩,
      by decide⟩ t⟩
  · rw [mem_singleton.mp hrow]
    decide
  · obtain ⟨hkey, ht, -⟩ := mk.inj (mem_singleton.mp hrow.1)
    exact mem_singleton.mpr (Row.ext hkey ht)

/-- The leaflet after a merge, as of a `t`. -/
def mergedAt (history : List HistEntryV2) (novelty : List NoveltyOp) (t : ℤ) : List Row :=
  let merged := mergeNovelty UnstableSort.insertionSort .spot asserted history novelty
  replayed merged.records merged.history UnstableSort.insertionSort .spot t

end Sample

open Sample

/-- A retract of a fact whose assert is in the history, and an assert of a new fact. -/
theorem merge_preserves_noted_assert :
    PreservesTimeTravel .spot asserted assertedLog assertedLog
      [novel 0 1 1 2 false, novel 0 2 1 3 true] 1 :=
  (merge_preserves_time_travel_iff (asserted_faithful (Sublist.refl _))
    (by unfold OncePerFact; decide) (by decide)).mpr (by decide)

/-- A retract of a row whose assert is not in the history, a retract of a fact that is not
there, and an assert over a row that drops the row's assert from the front of the history. -/
theorem merge_loses_asserts :
    (Faithful .spot asserted [] assertedLog 1 ∧
        mergedAt [] [novel 0 1 1 2 false] 1 = [⟨key 1 1, 2⟩]) ∧
      (Faithful .spot asserted assertedLog assertedLog 1 ∧
        mergedAt assertedLog [novel 0 2 1 2 false] 1 = [⟨key 1 1, 1⟩, ⟨key 2 1, 2⟩] ∧
        mergedAt assertedLog [novel 0 1 1 2 true] 1 = [⟨key 1 1, 2⟩]) ∧
      ∀ history ∈ [[], assertedLog],
        replayed asserted history UnstableSort.insertionSort .spot 1 = [⟨key 1 1, 1⟩] := by
  exact ⟨⟨asserted_faithful (nil_sublist _), by decide⟩,
    ⟨asserted_faithful (Sublist.refl _), by decide, by decide⟩, by decide⟩

end FlureeDb.Index
