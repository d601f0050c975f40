import FlureeDb.Index.Leaf
import FlureeDb.Lib.MergeJoin
import Mathlib.Data.List.Dedup

/-!
Time travel: a leaflet as of an earlier `t`. The rows are the latest state; the history and
the rows' own `t` say what happened after the target. What happened is undone, newest first.
A fact whose earliest later event is a retract was there at the target; it is restored with
the `t` of its newest assert up to the target that the history has.
-/

namespace FlureeDb.Index

open Lib List Prod

structure UndoEvent where
  t : U32
  isAssert : Bool
  key : FactKeyV3
  source : Option HistEntryV2

/-- What is known of a fact while events are undone. -/
structure FactState where
  present : Bool
  includeSrc : Option HistEntryV2

def FactState.undo (state : FactState) (event : UndoEvent) : FactState :=
  if event.isAssert then { state with present := false }
  else { present := true, includeSrc := state.includeSrc.or event.source }

section

variable (rows : List Row) (history : List HistEntryV2) (target : ℕ)

/-- `membership`: a fact's row with its index. The last row of a fact counts. -/
def membership (key : FactKeyV3) : Option (Row × ℕ) :=
  rows.zipIdx.reverse.find? fun p => p.1.key = key

/-- The events after the target: from the history, which is newest first, and from the rows. -/
def undoEvents : List UndoEvent :=
  (history.takeWhile fun e => target < e.t).map (fun e => ⟨e.t, e.op, e.key, some e⟩) ++
    (rows.filter fun row => target < row.t).map fun row => ⟨row.t, true, row.key, none⟩

/-- Newest first, asserts before retracts. -/
def cmpUndo (a b : UndoEvent) : Ordering :=
  (compare b.t a.t).then (compare b.isAssert a.isAssert)

/-- A fact's state when the events are undone. The source keeps the states of all facts in one
map. -/
def factState (events : List UndoEvent) (key : FactKeyV3) : FactState :=
  (events.filter fun event => event.key = key).foldl FactState.undo
    ⟨(membership rows key).isSome, none⟩

variable (key : FactKeyV3)

def findBaseAssertAtTarget : Option HistEntryV2 :=
  history.find? fun e => e.t ≤ target && e.op && e.key = key

def restoredRow (state : FactState) : Option Row :=
  ((findBaseAssertAtTarget history target key).or state.includeSrc).map fun e => ⟨e.key, e.t⟩

/-- The index to leave out and the row to put in, for a fact with events. -/
def deriveChange (state : FactState) : Option ℕ × Option Row :=
  match membership rows key with
  | some (row, i) =>
    if !state.present then (some i, none)
    else if target < row.t then (some i, restoredRow history target key state)
    else (none, none)
  | none => if state.present then (none, restoredRow history target key state) else (none, none)

variable (sort : UnstableSort)

/-- The changes of all facts with events. The source visits the facts in the order of a hash
map; what is put in is sorted afterwards. -/
def deriveChanges : List (Option ℕ × Option Row) :=
  let events := sort.sort cmpUndo (undoEvents rows history target)
  (events.map UndoEvent.key).dedup.map fun key =>
    deriveChange rows history target key (factState rows events key)

/-- What is put out where the walk over the kept rows and the included ones meets something. -/
def replayedRow : Joined Row Row → Row
  | .left row => row
  | .right row => row
  | .both _ row => row

variable (order : RunSortOrder)

/-- The merge of the rows that are not left out with the rows to put in, which are sorted
first. -/
def applyChanges (changes : List (Option ℕ × Option Row)) : List Row :=
  let kept := (rows.zipIdx.filter fun p => p.2 ∉ changes.filterMap fst).map fst
  let includes := sort.sort (fun a b => cmpV2ForOrder order a.key b.key)
    (changes.filterMap snd)
  (mergeJoin (fun row incl => cmpV2ForOrder order row.key incl.key) (fun _ => true) kept
    includes).1.map replayedRow

/-- `replay_leaflet`. Nothing is returned if the rows are right as they are. -/
def replayLeaflet (tTarget : ℤ) : Option (List Row) :=
  if 2 ^ 32 - 1 < tTarget then none
  else if tTarget < 0 then some []
  else if (undoEvents rows history tTarget.toNat).isEmpty then none
  else some (applyChanges rows sort order (deriveChanges rows history tTarget.toNat sort))

def replayed (tTarget : ℤ) : List Row :=
  (replayLeaflet rows history sort order tTarget).getD rows

end

/-! ### What a replay gives -/

variable {key : FactKeyV3}

variable {order : RunSortOrder} {rows : List Row} {history : List HistEntryV2} {target : ℕ}

/-- The fact has an event after the target. -/
def Touched (rows : List Row) (history : List HistEntryV2) (target : ℕ) (key : FactKeyV3) : Prop :=
  (∃ e ∈ history, e.key = key ∧ target < e.t) ∨ ∃ row ∈ rows, row.key = key ∧ target < row.t

/-- The earliest event of the fact after the target is a retract. -/
def Restored (rows : List Row) (history : List HistEntryV2) (target : ℕ) (key : FactKeyV3) : Prop :=
  ∃ e ∈ history, e.key = key ∧ target < e.t ∧ e.op = false ∧
    (∀ e' ∈ history, e'.key = key → target < e'.t → e.t ≤ e'.t) ∧
      ∀ row ∈ rows, row.key = key → target < row.t → e.t ≤ row.t

theorem Restored.touched (h : Restored rows history target key) :
    Touched rows history target key := by
  obtain ⟨e, he, hkey, ht, -⟩ := h
  exact .inl ⟨e, he, hkey, ht⟩

/-- The last event that is undone says whether the fact is there. -/
theorem present_foldl (events : List UndoEvent) (state : FactState) :
    (events.foldl FactState.undo state).present =
      (events.getLast?.elim state.present fun event => !event.isAssert) := by
  induction events generalizing state with
  | nil => rfl
  | cons event events ih =>
    rw [foldl_cons, ih]
    cases events with
    | nil => cases h : event.isAssert <;> simp [FactState.undo, h]
    | cons =>
      rfl

/-- A fact is restored from the first retract that is undone. -/
theorem includeSrc_foldl (events : List UndoEvent) (state : FactState) :
    (events.foldl FactState.undo state).includeSrc =
      state.includeSrc.or (events.findSome? fun e => if e.isAssert then none else e.source) := by
  induction events generalizing state with
  | nil => simp
  | cons event events ih =>
    rw [foldl_cons, ih]
    cases hop : event.isAssert with
    | true => simp [FactState.undo, hop]
    | false => cases hsrc : event.source <;> simp [FactState.undo, hop, hsrc]

theorem cmpUndo_compares (a b : UndoEvent) :
    (cmpUndo a b).Compares (OrderDual.toDual (2 * a.t.val + a.isAssert.toNat))
      (OrderDual.toDual (2 * b.t.val + b.isAssert.toNat)) :=
  newestFirst_compares a.t.val b.t.val a.isAssert b.isAssert

/-- The last of events that are sorted is the earliest, and a retract if there is one at its
time. -/
theorem getLast_sorted {events : List UndoEvent} (hsorted : SortedBy cmpUndo events)
    {last : UndoEvent} (hlast : events.getLast? = some last) :
    ∀ event ∈ events, 2 * last.t.val + last.isAssert.toNat ≤
      2 * event.t.val + event.isAssert.toNat := by
  obtain ⟨front, rfl⟩ := getLast?_eq_some_iff.mp hlast
  intro event hevent
  rcases mem_append.mp hevent with hfront | hsingle
  · have hle := (pairwise_append.mp hsorted).2.2 event hfront last (mem_singleton_self last)
    exact (isLE_iff_le (cmpUndo_compares event last)).mp hle
  · rw [mem_singleton.mp hsingle]

theorem sorted_undo (sort : UnstableSort) (events : List UndoEvent) :
    SortedBy cmpUndo (sort.sort cmpUndo events) := by
  have htrans : Std.TransCmp cmpUndo := transCmp_of_compares cmpUndo_compares
  exact sort.sorted cmpUndo events

theorem mem_factEvents (sort : UnstableSort) {event : UndoEvent} :
    (event ∈ (sort.sort cmpUndo (undoEvents rows history target)).filter
      fun event => event.key = key) ↔ event ∈ undoEvents rows history target ∧ event.key = key := by
  rw [mem_filter, (sort.perm _ _).mem_iff, decide_eq_true_eq]

/-- The state of a fact when the events after the target are undone. -/
abbrev undoneState (rows : List Row) (history : List HistEntryV2) (target : ℕ) (sort : UnstableSort)
    (key : FactKeyV3) : FactState :=
  factState rows (sort.sort cmpUndo (undoEvents rows history target)) key

section

variable (hnewest : history.Pairwise fun a b => b.t ≤ a.t)

include hnewest

theorem mem_takeWhile_newer (e : HistEntryV2) :
    (e ∈ history.takeWhile fun e => target < e.t) ↔ e ∈ history ∧ target < e.t := by
  rw [takeWhile_eq_filter, mem_filter, decide_eq_true_eq]
  refine hnewest.imp fun hle hlt => ?_
  rw [decide_eq_true_eq] at hlt ⊢
  exact hlt.trans_le hle

theorem mem_undoEvents (event : UndoEvent) :
    event ∈ undoEvents rows history target ↔
      (∃ e ∈ history, target < e.t ∧ event = ⟨e.t, e.op, e.key, some e⟩) ∨
        ∃ row ∈ rows, target < row.t ∧ event = ⟨row.t, true, row.key, none⟩ := by
  simp only [undoEvents, mem_append, mem_map, mem_takeWhile_newer hnewest,
    mem_filter, decide_eq_true_eq]
  constructor
  · rintro (⟨e, ⟨he, ht⟩, rfl⟩ | ⟨row, ⟨hrow, ht⟩, rfl⟩)
    · exact .inl ⟨e, he, ht, rfl⟩
    · exact .inr ⟨row, hrow, ht, rfl⟩
  · rintro (⟨e, he, ht, rfl⟩ | ⟨row, hrow, ht, rfl⟩)
    · exact .inl ⟨e, ⟨he, ht⟩, rfl⟩
    · exact .inr ⟨row, ⟨hrow, ht⟩, rfl⟩

theorem touched_iff :
    Touched rows history target key ↔ ∃ event ∈ undoEvents rows history target, event.key = key := by
  simp only [mem_undoEvents hnewest]
  constructor
  · rintro (⟨e, he, rfl, ht⟩ | ⟨row, hrow, rfl, ht⟩)
    · exact ⟨_, .inl ⟨e, he, ht, rfl⟩, rfl⟩
    · exact ⟨_, .inr ⟨row, hrow, ht, rfl⟩, rfl⟩
  · rintro ⟨event, ⟨e, he, ht, rfl⟩ | ⟨row, hrow, ht, rfl⟩, rfl⟩
    · exact .inl ⟨e, he, rfl, ht⟩
    · exact .inr ⟨row, hrow, rfl, ht⟩

theorem restored_iff :
    Restored rows history target key ↔
      ∃ event ∈ undoEvents rows history target, event.key = key ∧ event.isAssert = false ∧
        ∀ event' ∈ undoEvents rows history target, event'.key = key → event.t ≤ event'.t := by
  simp only [mem_undoEvents hnewest]
  constructor
  · rintro ⟨e, he, rfl, ht, hop, hhistory, hrows⟩
    refine ⟨_, .inl ⟨e, he, ht, rfl⟩, rfl, hop, ?_⟩
    rintro event' (⟨e', he', ht', rfl⟩ | ⟨row, hrow, ht', rfl⟩) hkey'
    · exact hhistory e' he' hkey' ht'
    · exact hrows row hrow hkey' ht'
  · rintro ⟨event, ⟨e, he, ht, rfl⟩ | ⟨row, hrow, ht, rfl⟩, hkey, hop, hearliest⟩
    · exact ⟨e, he, hkey, ht, hop,
        fun e' he' hkey' ht' => hearliest _ (.inl ⟨e', he', ht', rfl⟩) hkey',
        fun row hrow hkey' ht' => hearliest _ (.inr ⟨row, hrow, ht', rfl⟩) hkey'⟩
    · cases hop

/-- A fact with events is there after undoing exactly if its earliest event is a retract. -/
theorem factState_present (sort : UnstableSort) (htouched : Touched rows history target key) :
    (undoneState rows history target sort key).present = true ↔ Restored rows history target key := by
  obtain ⟨event, hevent, hkey⟩ := (touched_iff hnewest).mp htouched
  have hne := ne_nil_of_mem ((mem_factEvents sort).mpr ⟨hevent, hkey⟩)
  have hlast := getLast?_eq_some_getLast hne
  have hearliest := getLast_sorted (SortedBy.sublist (sorted_undo sort _) filter_sublist) hlast
  obtain ⟨hin, hlastkey⟩ := (mem_factEvents sort).mp (getLast_mem hne)
  rw [undoneState, factState, present_foldl, hlast, restored_iff hnewest]
  generalize getLast _ hne = last at *
  change (!last.isAssert) = true ↔ _
  rw [Bool.not_eq_true']
  constructor
  · intro hretract
    refine ⟨last, hin, hlastkey, hretract, fun event hevent hkey => ?_⟩
    have hle := hearliest event ((mem_factEvents sort).mpr ⟨hevent, hkey⟩)
    have hbit := Bool.toNat_le event.isAssert
    rw [Fin.le_def]
    omega
  · rintro ⟨event, hevent, hkey, hop, hfirst⟩
    have hle := hearliest event ((mem_factEvents sort).mpr ⟨hevent, hkey⟩)
    have hge := hfirst last hin hlastkey
    rw [Fin.le_def] at hge
    rw [hop, Bool.toNat_false] at hle
    cases hassert : last.isAssert with
    | false => rfl
    | true =>
      rw [hassert, Bool.toNat_true] at hle
      omega

/-- The retract that a fact is restored from, if there is no assert to take. -/
theorem factState_source (sort : UnstableSort) (hrestored : Restored rows history target key) :
    ∃ e, (undoneState rows history target sort key).includeSrc = some e ∧ e.key = key ∧
      target < e.t := by
  obtain ⟨event, hevent, hkey, hop, -⟩ := (restored_iff hnewest).mp hrestored
  rw [undoneState, factState, includeSrc_foldl]
  generalize hf : (fun e : UndoEvent => if e.isAssert then none else e.source) = f
  have hsome : (f event).isSome := by
    rcases (mem_undoEvents hnewest event).mp hevent with ⟨e, -, -, rfl⟩ | ⟨row, -, -, rfl⟩
    · simp [← hf, show e.op = false from hop]
    · cases hop
  obtain ⟨src, hsrc⟩ := Option.isSome_iff_exists.mp
    (findSome?_isSome_iff.mpr ⟨event, (mem_factEvents sort).mpr ⟨hevent, hkey⟩, hsome⟩)
  refine ⟨src, hsrc, ?_⟩
  subst hf
  obtain ⟨event, hevent, heq⟩ := exists_of_findSome?_eq_some hsrc
  obtain ⟨hin, hkey'⟩ := (mem_factEvents sort).mp hevent
  rcases (mem_undoEvents hnewest event).mp hin with ⟨e', -, ht', rfl⟩ | ⟨row, -, -, rfl⟩
  · obtain rfl : e' = src := Option.some.inj (Option.ite_none_left_eq_some.mp heq).2
    exact ⟨hkey', ht'⟩
  · cases heq

end

variable {row : Row} {i : ℕ}

theorem membership_eq_some (hsorted : RowsSorted order rows) :
    membership rows key = some (row, i) ↔ rows[i]? = some row ∧ row.key = key := by
  have hfound : ∀ {row : Row} {i : ℕ}, membership rows key = some (row, i) →
      rows[i]? = some row ∧ row.key = key := by
    intro row i h
    have hmem := mem_of_find?_eq_some h
    rw [mem_reverse, mk_mem_zipIdx_iff_getElem?] at hmem
    exact ⟨hmem, by simpa using find?_some h⟩
  refine ⟨hfound, fun ⟨hrow, hkey⟩ => ?_⟩
  have hin : (row, i) ∈ rows.zipIdx.reverse := by
    rw [mem_reverse, mk_mem_zipIdx_iff_getElem?]
    exact hrow
  have hsome : (membership rows key).isSome := by
    rw [membership, find?_isSome]
    exact ⟨(row, i), hin, by simpa using hkey⟩
  obtain ⟨⟨row', j⟩, hmembership⟩ := Option.isSome_iff_exists.mp hsome
  obtain ⟨hrow', hkey'⟩ := hfound hmembership
  -- the fact has one row, and it stands at one index
  obtain rfl : row' = row := hsorted.eq_of_key (mem_of_getElem? hrow')
    (mem_of_getElem? hrow) (hkey'.trans hkey.symm)
  have hnodup : rows.Nodup := Nodup.of_map _ hsorted.keys_nodup
  obtain ⟨hi, hget⟩ := List.getElem?_eq_some_iff.mp hrow
  obtain ⟨hj, hget'⟩ := List.getElem?_eq_some_iff.mp hrow'
  have hij : j = i := (hnodup.getElem_inj_iff).mp (hget'.trans hget.symm)
  rw [hmembership, hij]

theorem membership_eq_none : membership rows key = none ↔ ∀ row ∈ rows, row.key ≠ key := by
  rw [membership, find?_eq_none]
  constructor
  · intro h row hrow hkey
    obtain ⟨i, hi, rfl⟩ := getElem_of_mem hrow
    refine h (rows[i], i) ?_ (by simpa using hkey)
    rw [mem_reverse, mk_mem_zipIdx_iff_getElem?]
    exact getElem?_eq_getElem hi
  · rintro h ⟨row, i⟩ hin
    rw [mem_reverse, mk_mem_zipIdx_iff_getElem?] at hin
    simpa using h row (mem_of_getElem? hin)

/-- The walk puts out the rows that are kept and those that are put in. -/
theorem mem_replay_walk {kept includes : List Row} (hkept : RowsSorted order kept)
    (hincludes : includes.Pairwise fun a b => a.key.sortKey order ≤ b.key.sortKey order)
    (hapart : ∀ a ∈ kept, ∀ b ∈ includes, b.key ≠ a.key) (row : Row) :
    row ∈ (mergeJoin (fun row incl => cmpV2ForOrder order row.key incl.key) (fun _ => true) kept
        includes).1.map replayedRow ↔ row ∈ kept ∨ row ∈ includes := by
  have hcmp : ∀ a b : Row, (cmpV2ForOrder order a.key b.key).Compares (a.key.sortKey order)
      (b.key.sortKey order) := fun a b => cmpV2_compares order a.key b.key
  have hleft := left_mem_mergeJoin (fun _ => true) hcmp hincludes hkept row
  have hops := mergeJoin_ops_all hcmp kept hincludes
  rw [mem_map]
  constructor
  · rintro ⟨e, he, rfl⟩
    cases e with
    | left => exact .inl (mem_of_mem_rows hcmp hincludes he mem_cons_self)
    | right | both => exact .inr (mem_of_mem_ops hcmp hincludes he mem_cons_self)
  · rintro (hrow | hrow)
    · refine ⟨.left row, hleft.mpr ⟨hrow, fun b hb heq => ?_⟩, rfl⟩
      exact hapart row hrow b hb (FactKeyV3.sortKey_inj.mp heq)
    · rw [← hops] at hrow
      obtain ⟨e, he, hop⟩ := mem_flatMap.mp hrow
      refine ⟨e, he, ?_⟩
      cases e with
      | left => cases hop
      | right | both => exact (mem_singleton.mp hop).symm

variable (sort : UnstableSort) (hsorted : RowsSorted order rows)
  (hnewest : history.Pairwise fun a b => b.t ≤ a.t)

include hnewest in
theorem mem_deriveChanges (change : Option ℕ × Option Row) :
    change ∈ deriveChanges rows history target sort ↔
      ∃ key, Touched rows history target key ∧
        deriveChange rows history target key (undoneState rows history target sort key) =
          change := by
  rw [deriveChanges, mem_map]
  simp only [mem_dedup, mem_map, (sort.perm _ _).mem_iff, touched_iff hnewest]

include hnewest in
theorem undoEvents_eq_nil : undoEvents rows history target = [] ↔
    ∀ key, ¬Touched rows history target key := by
  simp only [eq_nil_iff_forall_not_mem, touched_iff hnewest]
  constructor
  · rintro h key ⟨event, hevent, -⟩
    exact h event hevent
  · exact fun h event hevent => h event.key ⟨event, hevent, rfl⟩

theorem replayed_of_neg {tTarget : ℤ} (hneg : tTarget < 0) :
    replayed rows history sort order tTarget = [] := by
  unfold replayed replayLeaflet
  rw [if_neg (by omega), if_pos hneg]
  rfl

include hnewest in
theorem replayed_of_untouched (h : ∀ key, ¬Touched rows history target key) :
    replayed rows history sort order target = rows := by
  have hempty := (undoEvents_eq_nil hnewest).mpr h
  unfold replayed replayLeaflet
  split
  · rfl
  · rw [if_neg (by omega), Int.toNat_natCast, hempty]
    rfl

include hnewest in
theorem replayed_of_touched (h : Touched rows history target key) :
    replayed rows history sort order target =
      applyChanges rows sort order (deriveChanges rows history target sort) := by
  have hsmall : ¬(2 : ℤ) ^ 32 - 1 < target := by
    rcases h with ⟨e, -, -, ht⟩ | ⟨row, -, -, ht⟩
    · have := e.t.isLt
      omega
    · have := row.t.isLt
      omega
  have hnonempty : undoEvents rows history target ≠ [] :=
    fun hempty => (undoEvents_eq_nil hnewest).mp hempty key h
  unfold replayed replayLeaflet
  rw [if_neg hsmall, if_neg (by omega), Int.toNat_natCast, if_neg (by simpa using hnonempty)]
  rfl

include hnewest in
/-- The row to leave out is that of a fact which was not there, or was there as an older row. -/
theorem deriveChange_fst (htouched : Touched rows history target key) :
    (deriveChange rows history target key (undoneState rows history target sort key)).1 = some i ↔
      ∃ row, membership rows key = some (row, i) ∧
        (¬Restored rows history target key ∨ target < row.t) := by
  rw [← factState_present hnewest sort htouched]
  cases hm : membership rows key with
  | none =>
    simp only [deriveChange, hm]
    split <;> simp
  | some p =>
    simp only [deriveChange, hm]
    cases (undoneState rows history target sort key).present with
    | false => simp [Prod.ext_iff]
    | true => by_cases hnew : target < p.1.t <;> simp [Prod.ext_iff, hnew]

include hnewest in
theorem key_of_restoredRow (hrestored : Restored rows history target key)
    (hrow : restoredRow history target key (undoneState rows history target sort key) = some row) :
    row.key = key := by
  obtain ⟨src, hsrc, hsrckey, -⟩ := factState_source hnewest sort hrestored
  rw [restoredRow, hsrc, Option.map_eq_some_iff] at hrow
  obtain ⟨e, he, rfl⟩ := hrow
  rcases Option.or_eq_some_iff.mp he with hfound | ⟨-, hfound⟩
  · have hmatch := List.find?_some hfound
    simp only [Bool.and_eq_true, decide_eq_true_eq] at hmatch
    exact hmatch.2
  · obtain rfl : src = e := Option.some.inj hfound
    exact hsrckey

include hsorted hnewest

/-- A row is put in for a fact that was there and has no row that old. -/
theorem deriveChange_snd (htouched : Touched rows history target key) :
    (deriveChange rows history target key (undoneState rows history target sort key)).2 = some row ↔
      row.key = key ∧ (∀ b ∈ rows, b.key = key → target < b.t) ∧ Restored rows history target key ∧
        restoredRow history target key (undoneState rows history target sort key) = some row := by
  rw [and_iff_right_of_imp fun h => key_of_restoredRow sort hnewest h.2.1 h.2.2,
    ← factState_present hnewest sort htouched]
  cases hm : membership rows key with
  | none =>
    have hbase : ∀ b ∈ rows, b.key = key → target < b.t :=
      fun b hb hkey => absurd hkey (membership_eq_none.mp hm b hb)
    simp only [deriveChange, hm]
    split <;> simp_all
  | some p =>
    obtain ⟨hget, hkey⟩ := (membership_eq_some hsorted).mp hm
    have hbase : (∀ b ∈ rows, b.key = key → target < b.t) ↔ target < p.1.t := by
      refine ⟨fun h => h p.1 (mem_of_getElem? hget) hkey, fun hnew b hb hb' => ?_⟩
      rw [hsorted.eq_of_key hb (mem_of_getElem? hget) (hb'.trans hkey.symm)]
      exact hnew
    simp only [deriveChange, hm, hbase]
    cases (undoneState rows history target sort key).present with
    | false => simp
    | true => by_cases hnew : target < p.1.t <;> simp [hnew]

theorem mem_excludes (hrow : rows[i]? = some row) :
    i ∈ (deriveChanges rows history target sort).filterMap fst ↔
      Touched rows history target row.key ∧
        (¬Restored rows history target row.key ∨ target < row.t) := by
  simp only [mem_filterMap, mem_deriveChanges sort hnewest]
  constructor
  · rintro ⟨change, ⟨key, htouched, rfl⟩, hi⟩
    obtain ⟨row', hm, hwhy⟩ := (deriveChange_fst sort hnewest htouched).mp hi
    obtain ⟨hrow', rfl⟩ := (membership_eq_some hsorted).mp hm
    obtain rfl : row' = row := Option.some.inj (hrow'.symm.trans hrow)
    exact ⟨htouched, hwhy⟩
  · rintro ⟨htouched, hwhy⟩
    exact ⟨_, ⟨row.key, htouched, rfl⟩, (deriveChange_fst sort hnewest htouched).mpr
      ⟨row, (membership_eq_some hsorted).mpr ⟨hrow, rfl⟩, hwhy⟩⟩

theorem mem_includes (row : Row) :
    row ∈ (deriveChanges rows history target sort).filterMap snd ↔
      (∀ b ∈ rows, b.key = row.key → target < b.t) ∧ Restored rows history target row.key ∧
        restoredRow history target row.key (undoneState rows history target sort row.key) =
          some row := by
  simp only [mem_filterMap, mem_deriveChanges sort hnewest]
  constructor
  · rintro ⟨change, ⟨key, htouched, rfl⟩, hrow⟩
    obtain ⟨rfl, h⟩ := (deriveChange_snd sort hsorted hnewest htouched).mp hrow
    exact h
  · intro h
    exact ⟨_, ⟨row.key, h.2.1.touched, rfl⟩,
      (deriveChange_snd sort hsorted hnewest h.2.1.touched).mpr ⟨rfl, h⟩⟩

omit hsorted hnewest in
theorem kept_sublist (excludes : List ℕ) :
    ((rows.zipIdx.filter fun p => p.2 ∉ excludes).map fst).Sublist rows := by
  have h := (filter_sublist (l := rows.zipIdx) (p := fun p => decide (p.2 ∉ excludes))).map fst
  rwa [zipIdx_map_fst] at h

omit hsorted hnewest in
theorem includes_sorted (includes : List Row) :
    (sort.sort (fun a b : Row => cmpV2ForOrder order a.key b.key) includes).Pairwise
      fun a b => a.key.sortKey order ≤ b.key.sortKey order := by
  have htrans : Std.TransCmp fun a b : Row => cmpV2ForOrder order a.key b.key :=
    @transCmp_of_compares Row (List ℕ) _ _ (fun row => row.key.sortKey order)
      fun a b => cmpV2_compares order a.key b.key
  exact (sort.sorted _ _).imp fun hle => cmpV2_isLE.mp hle

theorem mem_applyChanges (row : Row) :
    row ∈ applyChanges rows sort order (deriveChanges rows history target sort) ↔
      (row ∈ rows ∧ ¬(Touched rows history target row.key ∧
          (¬Restored rows history target row.key ∨ target < row.t))) ∨
        row ∈ (deriveChanges rows history target sort).filterMap Prod.snd := by
  set changes := deriveChanges rows history target sort with hchanges
  have hkept : ∀ row, row ∈ (rows.zipIdx.filter fun p => p.2 ∉ changes.filterMap fst).map
      fst ↔ row ∈ rows ∧ ¬(Touched rows history target row.key ∧
        (¬Restored rows history target row.key ∨ target < row.t)) := by
    intro row
    simp only [mem_map, mem_filter, decide_eq_true_eq, Prod.exists, exists_and_right,
      exists_eq_right, mk_mem_zipIdx_iff_getElem?]
    constructor
    · rintro ⟨i, hi, hnot⟩
      exact ⟨mem_of_getElem? hi, fun h => hnot ((mem_excludes sort hsorted hnewest hi).mpr h)⟩
    · rintro ⟨hrow, hnot⟩
      obtain ⟨i, hi⟩ := getElem?_of_mem hrow
      exact ⟨i, hi, fun h => hnot ((mem_excludes sort hsorted hnewest hi).mp h)⟩
  rw [applyChanges, mem_replay_walk (hsorted.sublist (kept_sublist _)) (includes_sorted sort _),
    hkept, (sort.perm _ _).mem_iff]
  intro a ha b hb hkey
  rw [(sort.perm _ _).mem_iff, mem_includes sort hsorted hnewest] at hb
  obtain ⟨hold, hrestored, -⟩ := hb
  obtain ⟨hrow, hnot⟩ := (hkept a).mp ha
  rw [hkey] at hrestored
  exact hnot ⟨hrestored.touched, .inr (hold a hrow hkey.symm)⟩

theorem applyChanges_sorted :
    RowsSorted order (applyChanges rows sort order (deriveChanges rows history target sort)) := by
  have hdistinct : ((deriveChanges rows history target sort).filterMap snd).Pairwise
      fun a b => a.key ≠ b.key := by
    have hkey : ∀ key ∈ ((sort.sort cmpUndo (undoEvents rows history target)).map
        UndoEvent.key).dedup, Touched rows history target key := by
      simp only [mem_dedup, mem_map, (sort.perm _ _).mem_iff, touched_iff hnewest]
      exact fun _ h => h
    refine pairwise_filterMap.mpr (pairwise_map.mpr ((nodup_dedup _).imp_of_mem ?_))
    intro k k' hk hk' hne a ha b hb heq
    obtain ⟨rfl, -⟩ := (deriveChange_snd sort hsorted hnewest (hkey k hk)).mp ha
    obtain ⟨rfl, -⟩ := (deriveChange_snd sort hsorted hnewest (hkey k' hk')).mp hb
    exact hne heq
  have hincludes := (@includes_sorted order sort _).and
    (((sort.perm (fun a b : Row => cmpV2ForOrder order a.key b.key) _).pairwise_iff
      fun h => h.symm).mpr hdistinct)
  refine pairwise_map.mpr (Pairwise.imp ?_ (mergeJoin_pairwise
    (fun a b : Row => cmpV2_compares order a.key b.key) (fun h => h.1)
      (hsorted.sublist (kept_sublist _)) hincludes))
  have hkey : ∀ e : Joined Row Row, (replayedRow e).key.sortKey order =
      e.key (fun row => row.key.sortKey order) (fun row => row.key.sortKey order) :=
    fun e => by cases e <;> rfl
  rintro e e' (hlt | ⟨b, hb, b', hb', hle, hne⟩)
  · rw [hkey, hkey]
    exact hlt
  · rw [hkey, hkey, Joined.key_of_mem_ops hb, Joined.key_of_mem_ops hb']
    exact lt_of_le_of_ne hle fun heq => hne (FactKeyV3.sortKey_inj.mp heq)

theorem replayed_sorted (t : ℤ) : RowsSorted order (replayed rows history sort order t) := by
  unfold replayed replayLeaflet
  split
  · exact hsorted
  split
  · exact Pairwise.nil
  split
  · exact hsorted
  · exact applyChanges_sorted sort hsorted hnewest

/-- The rows as of the target. A row stays if nothing happened to its fact since, or if the
fact was there and the row is that old. A fact that was there and has no such row is restored
with the newest assert that the history has; if it has none, with some later `t`. -/
theorem mem_replayed (target : ℕ) :
    ∃ src : FactKeyV3 → U32, (∀ key, Restored rows history target key → target < src key) ∧
      ∀ row, row ∈ replayed rows history sort order target ↔
        (row ∈ rows ∧ ¬Touched rows history target row.key) ∨
          (row ∈ rows ∧ row.t ≤ target ∧ Restored rows history target row.key) ∨
          ((∀ b ∈ rows, b.key = row.key → target < b.t) ∧ Restored rows history target row.key ∧
            ((findBaseAssertAtTarget history target row.key).map HistEntryV2.t).getD
              (src row.key) = row.t) := by
  by_cases hany : ∃ key, Touched rows history target key
  · obtain ⟨key, hkey⟩ := hany
    set state := undoneState rows history target sort with hstate
    have hsrc : ∀ key, Restored rows history target key →
        ∃ e, (state key).includeSrc = some e ∧ e.key = key ∧ target < e.t :=
      fun key h => factState_source hnewest sort h
    refine ⟨fun key => ((state key).includeSrc.map HistEntryV2.t).getD 0, fun key h => ?_,
      fun row => ?_⟩
    · obtain ⟨e, he, -, ht⟩ := hsrc key h
      simpa [he] using ht
    rw [replayed_of_touched sort hnewest hkey, mem_applyChanges sort hsorted hnewest, ← or_assoc,
      mem_includes sort hsorted hnewest, ← and_or_left]
    refine or_congr (and_congr_right fun _ => ?_) (and_congr_right fun _ =>
      and_congr_right fun hrestored => ?_)
    · rw [← not_lt]
      tauto
    · obtain ⟨e, he, hkey, -⟩ := hsrc row.key hrestored
      rw [restoredRow, he]
      cases hfound : findBaseAssertAtTarget history target row.key with
      | none =>
        simp only [he, Option.none_or, Option.map_some, Option.some.injEq, Option.map_none,
          Option.getD_none, Option.getD_some]
        exact ⟨fun h => congrArg Row.t h, fun h => by rw [hkey, h]⟩
      | some =>
        have hmatch := find?_some hfound
        simp only [Bool.and_eq_true, decide_eq_true_eq] at hmatch
        simp only [Option.some_or, Option.map_some, Option.some.injEq, Option.getD_some]
        exact ⟨fun h => congrArg Row.t h, fun h => by rw [hmatch.2, h]⟩
  · rw [replayed_of_untouched sort hnewest (fun key h => hany ⟨key, h⟩)]
    have hnone : ∀ key, ¬Touched rows history target key := fun key h => hany ⟨key, h⟩
    have hnot : ∀ key, ¬Restored rows history target key := fun key h => hnone key h.touched
    exact ⟨fun _ => 0, fun key h => absurd h (hnot key), fun row => by simp [hnone, hnot]⟩

end FlureeDb.Index
