import FlureeDb.Index.NoveltyMerge
import FlureeDb.Index.Replay
import Mathlib.Data.Finset.Max

/-!
What replays are for. The rows and the history of a leaflet are a log together, and a replay is to
give the state of the log at a `t`. It takes a fact for present if the next thing that happens to
it is a retract. That is right at every `t` exactly if each operation changes the state of its
fact and the rows are the state at the end. The entry of a leaflet in its directory says whether
there may be something to undo; a negative `t` is taken for the largest there.
-/

namespace FlureeDb.Index

open Lib List

/-- The state of a log at a `t`: the assert of this row is the last of its fact's operations
up to then. -/
def LogRow (log : List HistEntryV2) (t : ℤ) (row : Row) : Prop :=
  ⟨row.key, row.t, true⟩ ∈ log ∧ (row.t : ℤ) ≤ t ∧
    ∀ e ∈ log, e.key = row.key → (e.t : ℤ) ≤ t → e.t ≤ row.t

instance (log : List HistEntryV2) (t : ℤ) (row : Row) : Decidable (LogRow log t row) :=
  inferInstanceAs (Decidable (_ ∧ _))

theorem LogRow.eq_of_key {log : List HistEntryV2} {t : ℤ} {a b : Row} (ha : LogRow log t a)
    (hb : LogRow log t b) (hkey : a.key = b.key) : a = b := by
  have hab := hb.2.2 _ ha.1 hkey ha.2.1
  have hba := ha.2.2 _ hb.1 hkey.symm hb.2.1
  exact Row.ext hkey (le_antisymm hab hba)

section

variable {log : List HistEntryV2}

/-- Each operation after 0 is a retract exactly if its fact was there before it. -/
def ChangesState (log : List HistEntryV2) : Prop :=
  ∀ e ∈ log, 0 < e.t → (e.op = false ↔ ∃ row, LogRow log ((e.t : ℤ) - 1) row ∧ row.key = e.key)

/-- The row that was there is that of an operation. -/
theorem changesState_iff : ChangesState log ↔ ∀ e ∈ log, 0 < e.t →
    (e.op = false ↔ ∃ e' ∈ log, LogRow log ((e.t : ℤ) - 1) ⟨e'.key, e'.t⟩ ∧ e'.key = e.key) := by
  refine forall₃_congr fun e _ _ => iff_congr Iff.rfl ⟨?_, ?_⟩
  · rintro ⟨row, hrow, hkey⟩
    exact ⟨_, hrow.1, hrow, hkey⟩
  · rintro ⟨e', -, hrow, hkey⟩
    exact ⟨_, hrow, hkey⟩

instance (log : List HistEntryV2) : Decidable (ChangesState log) :=
  decidable_of_iff _ changesState_iff.symm

/-- An operation that is next after a time says by itself whether a replay restores its fact. -/
theorem restored_iff_of_next (honce : log.Pairwise fun a b => ¬(a.key = b.key ∧ a.t = b.t))
    {e : HistEntryV2} (he : e ∈ log) {target : ℕ} (ht : target < e.t)
    (hnext : ∀ e' ∈ log, e'.key = e.key → target < e'.t → e.t ≤ e'.t) :
    Restored [] log target e.key ↔ e.op = false := by
  constructor
  · rintro ⟨e', he', hkey, ht', hop, hmin, -⟩
    have htime : e'.t = e.t := le_antisymm (hmin e he rfl ht) (hnext e' he' hkey ht')
    have hsame : e' = e := by
      by_contra hne
      have hsymm : Std.Symm fun a b : HistEntryV2 => ¬(a.key = b.key ∧ a.t = b.t) :=
        ⟨fun a b h heq => h ⟨heq.1.symm, heq.2.symm⟩⟩
      exact honce.forall he' he hne ⟨hkey, htime⟩
    rw [← hsame]
    exact hop
  · exact fun hop => ⟨e, he, rfl, ht, hop, hnext, by simp⟩

theorem exists_next {key : FactKeyV3} {target : ℕ} (h : ∃ e ∈ log, e.key = key ∧ target < e.t) :
    ∃ e ∈ log, e.key = key ∧ target < e.t ∧
      ∀ e' ∈ log, e'.key = key → target < e'.t → e.t ≤ e'.t := by
  obtain ⟨e, he, hkey, ht⟩ := h
  have hmem : ∀ e, e ∈ (log.filter fun e => e.key = key ∧ target < e.t).toFinset ↔
      e ∈ log ∧ e.key = key ∧ target < e.t := by simp
  obtain ⟨least, hleast, hmin⟩ := Finset.exists_min_image _ HistEntryV2.t
    ⟨e, (hmem e).mpr ⟨he, hkey, ht⟩⟩
  obtain ⟨hin, hleastkey, hafter⟩ := (hmem least).mp hleast
  exact ⟨least, hin, hleastkey, hafter, fun e' he' hkey' ht' =>
    hmin e' ((hmem e').mpr ⟨he', hkey', ht'⟩)⟩

/-- The state of a fact does not change where it has no operation. -/
theorem logRow_congr {t t' : ℤ} {row : Row}
    (h : ∀ e ∈ log, e.key = row.key → ((e.t : ℤ) ≤ t ↔ (e.t : ℤ) ≤ t')) :
    LogRow log t row ↔ LogRow log t' row := by
  refine and_congr_right fun hin => and_congr (h _ hin rfl) (forall₃_congr fun e he hkey => ?_)
  rw [h e he hkey]

/-- Undoing gives the state of a log at every time exactly if each operation changes the state
of its fact. -/
theorem restores_iff_changesState (honce : log.Pairwise fun a b => ¬(a.key = b.key ∧ a.t = b.t)) :
    (∀ (target : ℕ) (key : FactKeyV3), (∃ e ∈ log, e.key = key ∧ target < e.t) →
        (Restored [] log target key ↔ ∃ row, LogRow log target row ∧ row.key = key)) ↔
      ChangesState log := by
  constructor
  · intro h e he hpos
    have hpos' : 0 < e.t.val := hpos
    have hnext : ∀ e' ∈ log, e'.key = e.key → e.t.val - 1 < e'.t → e.t ≤ e'.t := by
      intro e' _ _ ht
      exact Fin.le_def.mpr (by omega)
    have hlt : e.t.val - 1 < e.t := by omega
    rw [← restored_iff_of_next honce he hlt hnext, h _ _ ⟨e, he, rfl, hlt⟩]
    have hcast : ((e.t.val - 1 : ℕ) : ℤ) = (e.t : ℤ) - 1 := by omega
    rw [hcast]
  · rintro h target key hlater
    obtain ⟨e, he, rfl, ht, hnext⟩ := exists_next hlater
    rw [restored_iff_of_next honce he ht hnext, h e he (Fin.lt_def.mpr (by simp; omega))]
    refine exists_congr fun row => and_congr_left fun hkey => logRow_congr fun e' he' hkey' => ?_
    have hle := fun hafter => Fin.le_def.mp (hnext e' he' (hkey'.trans hkey) hafter)
    omega

end

section

variable {order : RunSortOrder} {rows : List Row} {history log : List HistEntryV2}

theorem key_mem_replayed (sort : UnstableSort) (hsorted : RowsSorted order rows)
    (hnewest : history.Pairwise fun a b => b.t ≤ a.t) (target : ℕ) (key : FactKeyV3) :
    (∃ row ∈ replayed rows history sort order target, row.key = key) ↔
      (∃ row ∈ rows, row.key = key ∧ ¬Touched rows history target key) ∨
        Restored rows history target key := by
  obtain ⟨src, -, hmem⟩ := mem_replayed sort hsorted hnewest target
  simp only [hmem]
  constructor
  · rintro ⟨row, ⟨hrow, huntouched⟩ | ⟨-, -, hrestored⟩ | ⟨-, hrestored, -⟩, rfl⟩
    · exact .inl ⟨row, hrow, rfl, huntouched⟩
    · exact .inr hrestored
    · exact .inr hrestored
  · rintro (⟨row, hrow, rfl, huntouched⟩ | hrestored)
    · exact ⟨row, .inl ⟨hrow, huntouched⟩, rfl⟩
    · by_cases hold : ∃ row ∈ rows, row.key = key ∧ row.t ≤ target
      · obtain ⟨row, hrow, rfl, ht⟩ := hold
        exact ⟨row, .inr (.inl ⟨hrow, ht, hrestored⟩), rfl⟩
      · refine ⟨⟨key, ((findBaseAssertAtTarget history target key).map HistEntryV2.t).getD (src key)⟩,
          .inr (.inr ⟨fun b hb hkey => ?_, hrestored, rfl⟩), rfl⟩
        by_contra hle
        exact hold ⟨b, hb, hkey, by omega⟩

/-- A leaflet that holds a log: each operation is in the history or is the assert of a row, and a
fact has one operation at a `t`. -/
structure HoldsLog (order : RunSortOrder) (rows : List Row) (history log : List HistEntryV2) :
    Prop where
  sorted : RowsSorted order rows
  newestFirst : history.Pairwise fun a b => b.t ≤ a.t
  mem : ∀ e, e ∈ log ↔ e ∈ history ∨ ∃ row ∈ rows, e = ⟨row.key, row.t, true⟩
  once : log.Pairwise fun a b => ¬(a.key = b.key ∧ a.t = b.t)

namespace HoldsLog

variable (h : HoldsLog order rows history log) {target : ℕ} {key : FactKeyV3}

include h

theorem touched_iff : Touched rows history target key ↔ ∃ e ∈ log, e.key = key ∧ target < e.t := by
  simp only [h.mem]
  constructor
  · rintro (⟨e, he, hlater⟩ | ⟨row, hrow, hlater⟩)
    · exact ⟨e, .inl he, hlater⟩
    · exact ⟨_, .inr ⟨row, hrow, rfl⟩, hlater⟩
  · rintro ⟨e, he | ⟨row, hrow, rfl⟩, hlater⟩
    · exact .inl ⟨e, he, hlater⟩
    · exact .inr ⟨row, hrow, hlater⟩

theorem restored_iff : Restored rows history target key ↔ Restored [] log target key := by
  constructor
  · rintro ⟨e, he, hkey, ht, hop, hhistory, hrows⟩
    refine ⟨e, (h.mem e).mpr (.inl he), hkey, ht, hop, fun e' he' => ?_, by simp⟩
    rcases (h.mem e').mp he' with he' | ⟨row, hrow, rfl⟩
    · exact hhistory e' he'
    · exact hrows row hrow
  · rintro ⟨e, he, hkey, ht, hop, hleast, -⟩
    rcases (h.mem e).mp he with he | ⟨row, -, rfl⟩
    · exact ⟨e, he, hkey, ht, hop, fun e' he' => hleast e' ((h.mem e').mpr (.inl he')),
        fun row hrow => hleast _ ((h.mem _).mpr (.inr ⟨row, hrow, rfl⟩))⟩
    · cases hop

/-- The assert that a fact had is the newest in the history up to the target. -/
theorem find_of_logRow {row : Row} (hrow : LogRow log target row)
    (hnew : ∀ b ∈ rows, b.key = row.key → target < b.t) :
    (findBaseAssertAtTarget history target row.key).map HistEntryV2.t = some row.t := by
  obtain ⟨hin, hle, hlast⟩ := hrow
  have hin : ⟨row.key, row.t, true⟩ ∈ history := by
    rcases (h.mem _).mp hin with hin | ⟨b, hb, heq⟩
    · exact hin
    · obtain ⟨hkey, ht, -⟩ := HistEntryV2.mk.inj heq
      have hlt := hnew b hb hkey.symm
      rw [← ht] at hlt
      omega
  have hsome : (findBaseAssertAtTarget history target row.key).isSome := by
    rw [findBaseAssertAtTarget, find?_isSome]
    exact ⟨_, hin, by simpa using hle⟩
  obtain ⟨a, hfound⟩ := Option.isSome_iff_exists.mp hsome
  obtain ⟨hmatch, front, back, hsplit, hfront⟩ := find?_eq_some_iff_append.mp hfound
  simp only [Bool.and_eq_true, decide_eq_true_eq] at hmatch
  rw [hfound, Option.map_some, Option.some_inj]
  refine le_antisymm (hlast a ((h.mem a).mpr (.inl ?_)) hmatch.2 (by omega)) ?_
  · rw [hsplit]
    simp
  · have hnewest := h.newestFirst
    rw [hsplit] at hin hnewest
    rcases mem_append.mp hin with hin | hin
    · have hnot := hfront _ hin
      simp at hnot
      omega
    rcases mem_cons.mp hin with heq | hin
    · exact (congrArg HistEntryV2.t heq).le
    · exact (pairwise_cons.mp (pairwise_append.mp hnewest).2.1).1 _ hin

/-- Replays give the state of the log at every `t` exactly if the rows are its state at the end
and each operation changes the state of its fact. -/
theorem replays_iff (sort : UnstableSort) :
    (∀ (t : ℤ) row, row ∈ replayed rows history sort order t ↔ LogRow log t row) ↔
      (∀ row, row ∈ rows ↔ LogRow log (2 ^ 32 - 1) row) ∧ ChangesState log := by
  rw [← restores_iff_changesState h.once]
  constructor
  · intro hexact
    refine ⟨fun row => ?_, fun target key hlater => ?_⟩
    · have hend : replayed rows history sort order (2 ^ 32 - 1 : ℕ) = rows :=
        replayed_of_untouched sort h.newestFirst fun key => by
          rw [h.touched_iff]
          rintro ⟨e, -, -, hlt⟩
          exact absurd e.t.isLt (by omega)
      have hrow := hexact (2 ^ 32 - 1 : ℕ) row
      rw [hend] at hrow
      exact hrow
    · simp only [← h.restored_iff, ← hexact, key_mem_replayed sort h.sorted h.newestFirst]
      exact (or_iff_right fun ⟨_, _, _, hnot⟩ => hnot (h.touched_iff.mpr hlater)).symm
  · rintro ⟨hlatest, hrestores⟩ t row
    rcases lt_or_ge t 0 with hneg | hpos
    · rw [replayed_of_neg sort hneg]
      refine iff_of_false not_mem_nil fun hrow => ?_
      have hle := hrow.2.1
      omega
    obtain ⟨target, rfl⟩ := Int.eq_ofNat_of_zero_le hpos
    obtain ⟨src, -, hmem⟩ := mem_replayed sort h.sorted h.newestFirst target
    rw [hmem]
    by_cases hlater : ∃ e ∈ log, e.key = row.key ∧ target < e.t
    · have hrestored := hrestores target row.key hlater
      have hnew : ∀ b ∈ rows, b.key = row.key → target < b.t := by
        obtain ⟨e, he, hkey, hlt⟩ := hlater
        intro b hb hbkey
        exact lt_of_lt_of_le hlt (Fin.le_def.mp
          (((hlatest b).mp hb).2.2 e he (hkey.trans hbkey.symm) (by omega)))
      rw [h.restored_iff]
      constructor
      · rintro (⟨-, hnot⟩ | ⟨hrow, hle, -⟩ | ⟨-, hr, hget⟩)
        · exact absurd (h.touched_iff.mpr hlater) hnot
        · exact absurd (hnew row hrow rfl) (by omega)
        · obtain ⟨row', hrow', hkey⟩ := hrestored.mp hr
          rw [← hkey, h.find_of_logRow hrow' (hkey ▸ hnew)] at hget
          rw [← Row.ext hkey hget]
          exact hrow'
      · intro hrow
        refine .inr (.inr ⟨hnew, hrestored.mpr ⟨row, hrow, rfl⟩, ?_⟩)
        rw [h.find_of_logRow hrow hnew]
        rfl
    · have huntouched : ¬Touched rows history target row.key := mt h.touched_iff.mp hlater
      have hnot : ¬Restored rows history target row.key := fun hr => huntouched hr.touched
      simp only [huntouched, hnot, not_false_eq_true, and_true, and_false, false_and, or_false]
      rw [hlatest]
      refine logRow_congr fun e he hkey => ?_
      have hearly : ¬target < e.t := fun hlt => hlater ⟨e, he, hkey, hlt⟩
      omega

end HoldsLog

/-! ### Replays by the directory -/

/-- What the directory of a leaf says of the history of a leaflet. -/
structure LeafletDirEntryV3 where
  historyLen : ℕ
  historyMaxT : U32

/-- The segment has a length if there is something in it, and the newest `t` is the entry's. -/
structure LeafletDirEntryV3.Describes (entry : LeafletDirEntryV3) (history : List HistEntryV2) :
    Prop where
  len : entry.historyLen = 0 ↔ history = []
  maxT : entry.historyMaxT = (history.map fun e => e.t.val).max?.getD 0

def batchHasRowsAboveT (rows : List Row) (tTarget : ℕ) : Bool := rows.any fun row => tTarget < row.t

/-- `replay_leaflet_at_t`, with the entries that the bytes of the sidecar are decoded to. -/
def replayLeafletAtT (sort : UnstableSort) (order : RunSortOrder) (rows : List Row)
    (entry : LeafletDirEntryV3) (sidecar : Option (List HistEntryV2)) (toT : ℤ) :
    Except String (Option (List Row)) :=
  let toTU32 := if 0 ≤ toT ∧ toT < 2 ^ 32 then toT.toNat else 2 ^ 32 - 1
  if toTU32 < entry.historyMaxT || batchHasRowsAboveT rows toTU32 then
    if 0 < entry.historyLen then
      match sidecar with
      | some history => .ok (replayLeaflet rows history sort order toT)
      | none => .error "history replay requires sidecar bytes but none were provided"
    else .ok (replayLeaflet rows [] sort order toT)
  else .ok none

theorem replayLeafletAtT_iff (sort : UnstableSort)
    (hnewest : history.Pairwise fun a b => b.t ≤ a.t) {entry : LeafletDirEntryV3}
    (hentry : entry.Describes history) (toT : ℤ) :
    (replayLeafletAtT sort order rows entry (some history) toT).map (fun out => out.getD rows) =
        .ok (replayed rows history sort order toT) ↔ 0 ≤ toT ∨ rows = [] := by
  unfold replayLeafletAtT
  extract_lets toTU32
  split
  · next habove =>
    -- something is above a target, so it is the target that was asked for
    have hrange : 0 ≤ toT ∧ toT < 2 ^ 32 := by
      by_contra hrange
      simp only [toTU32, if_neg hrange, batchHasRowsAboveT, Bool.or_eq_true, any_eq_true,
        decide_eq_true_eq] at habove
      omega
    have hsame : (if 0 < entry.historyLen then history else []) = history := by
      split
      · rfl
      · exact (hentry.len.mp (by omega)).symm
    refine iff_of_true ?_ (.inl hrange.1)
    rw [← hsame]
    split <;> rfl
  · next hnone =>
    simp only [Bool.or_eq_true, decide_eq_true_eq, not_or, batchHasRowsAboveT, any_eq_true,
      not_exists, not_and] at hnone
    change Except.ok rows = .ok (replayed rows history sort order toT) ↔ _
    rw [Except.ok.injEq]
    rcases lt_or_ge toT 0 with hneg | hpos
    · rw [replayed_of_neg sort hneg]
      exact ⟨.inr, fun h => h.resolve_left (by omega)⟩
    obtain ⟨target, rfl⟩ := Int.eq_ofNat_of_zero_le hpos
    have hclamp : ∀ t : U32, ¬toTU32 < t → ¬target < t := by
      intro t
      simp only [toTU32]
      split <;> omega
    refine iff_of_true (replayed_of_untouched sort hnewest fun key => ?_).symm (.inl hpos)
    rintro (⟨e, he, -, ht⟩ | ⟨row, hrow, -, ht⟩)
    · refine hclamp e.t (fun hlt => hnone.1 (lt_of_lt_of_le hlt ?_)) ht
      rw [hentry.maxT]
      exact le_max?_getD_of_mem (mem_map_of_mem (f := fun e => e.t.val) he)
    · exact hclamp row.t (hnone.2 row hrow) ht

/-- **Replays of a leaflet.** They are in order, and they give the state of the log at every `t`
exactly if the rows are the state at the end and each operation changes the state of its fact. A
replay by the directory gives the same rows unless the `t` is negative and there are rows. -/
theorem replay_reconstructs_iff (h : HoldsLog order rows history log) {entry : LeafletDirEntryV3}
    (hentry : entry.Describes history) (sort : UnstableSort) :
    (∀ t, RowsSorted order (replayed rows history sort order t)) ∧
    ((∀ t row, row ∈ replayed rows history sort order t ↔ LogRow log t row) ↔
      (∀ row, row ∈ rows ↔ LogRow log (2 ^ 32 - 1) row) ∧ ChangesState log) ∧
    ∀ toT, (replayLeafletAtT sort order rows entry (some history) toT).map
        (fun out => out.getD rows) = .ok (replayed rows history sort order toT) ↔
      0 ≤ toT ∨ rows = [] :=
  ⟨replayed_sorted sort h.sorted h.newestFirst, h.replays_iff sort,
    replayLeafletAtT_iff sort h.newestFirst hentry⟩

end

open Sample
open UnstableSort (insertionSort)

/-- A fact that was there from 1 on until 2. -/
def retracted : List HistEntryV2 := [⟨key 1 1, 2, false⟩, ⟨key 1 1, 1, true⟩]

theorem retracted_replays :
    (∀ t, RowsSorted .spot (replayed [] retracted insertionSort .spot t)) ∧
      ∀ t row, row ∈ replayed [] retracted insertionSort .spot t ↔ LogRow retracted t row := by
  obtain ⟨hsorted, hreplays, -⟩ := @replay_reconstructs_iff .spot [] retracted retracted
    ⟨Pairwise.nil, by decide, by simp, by decide⟩ ⟨2, 2⟩ ⟨by decide, by decide⟩ insertionSort
  refine ⟨hsorted, hreplays.mpr ⟨fun row => iff_of_false not_mem_nil ?_, by decide⟩⟩
  rintro ⟨hin, -, hlast⟩
  obtain ⟨hkey, ht, -⟩ : row.key = key 1 1 ∧ row.t = 1 ∧ True := by simpa [retracted] using hin
  exact absurd (hlast ⟨key 1 1, 2, false⟩ mem_cons_self hkey.symm (by decide)) (by rw [ht]; decide)

/-- A fact that is asserted twice is not there in between, one that is retracted without an assert
was there before, and a replay by the directory leaves the rows as they are at a negative `t`. -/
theorem replay_not_exact :
    (replayed [⟨key 1 1, 3⟩] [⟨key 1 1, 1, true⟩] insertionSort .spot 2 = [] ∧
      LogRow [⟨key 1 1, 3, true⟩, ⟨key 1 1, 1, true⟩] 2 ⟨key 1 1, 1⟩) ∧
    replayed [] [⟨key 1 1, 2, false⟩] insertionSort .spot 1 = [⟨key 1 1, 2⟩] ∧
    replayLeaflet [⟨key 1 1, 1⟩] [] insertionSort .spot (-1) = some [] ∧
    replayLeafletAtT insertionSort .spot [⟨key 1 1, 1⟩] ⟨0, 0⟩ none (-1) = .ok none := by
  decide

end FlureeDb.Index
