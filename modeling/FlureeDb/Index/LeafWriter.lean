import FlureeDb.Index.Leaf
import FlureeDb.Lib.SortedList

/-!
The writer that branches are built with. Rows are buffered into leaflets, leaflets into
leaves. The writer remembers the first row of the open leaf for its routing key. A row
that starts a new segment closes the leaflet before it; if that also closes the leaf, the
row is already buffered and counts for the closed leaf. Should no row follow, the open leaf
has no first row when the writer finishes, and the writer panics.

History entries that are pushed between rows go to the segment of the open leaflet, whatever
closes it. Entries behind the last leaflet have no leaflet.
-/

namespace FlureeDb.Index

open Lib List Option

structure LeafTargets where
  leafletRows : ℕ
  leafRows : ℕ
  leafletRows_pos : 0 < leafletRows
  leafRows_pos : 0 < leafRows

/-- `sidecar` has the history segments of the open leaf, the last of them for the buffered rows
if one was started for them. -/
structure LeafWriter where
  recordBuf : List Row
  sidecar : List (List HistEntryV2)
  segmentStarted : Bool
  segPId : Option U32
  segOType : Option U16
  encoded : List Leaflet
  accumulatedRows : ℕ
  leafFirst : Option Row
  last : Option Row
  completed : List Leaf

namespace LeafWriter

def new : LeafWriter where
  recordBuf := []
  sidecar := []
  segmentStarted := false
  segPId := none
  segOType := none
  encoded := []
  accumulatedRows := 0
  leafFirst := none
  last := none
  completed := []

/-- `push_entry`: to the last segment. -/
def pushEntry (sidecar : List (List HistEntryV2)) (entry : HistEntryV2) : List (List HistEntryV2) :=
  sidecar.modifyLast (· ++ [entry])

def pushHistoryEntry (w : LeafWriter) (entry : HistEntryV2) : LeafWriter :=
  { w with
    sidecar := pushEntry (if w.segmentStarted then w.sidecar else w.sidecar ++ [[]]) entry
    segmentStarted := true }

/-- `build`: newest entries first in each segment. -/
def buildSidecar (sort : UnstableSort) (sidecar : List (List HistEntryV2)) :
    List (List HistEntryV2) :=
  sidecar.map (sort.sort fun a b => compare b.t a.t)

/-- Leaflets with the segments that stand at their places. -/
def withHistory : List Leaflet → List (List HistEntryV2) → List Leaflet
  | [], _ => []
  | leaflets, [] => leaflets
  | leaflet :: leaflets, history :: segments =>
    { leaflet with history := history } :: withHistory leaflets segments

section

variable (sort : UnstableSort) (order : RunSortOrder) (targets : LeafTargets) (w : LeafWriter)

def shouldFlushForSegmentation (next : Row) : Bool :=
  match order with
  | .post | .psot => w.segPId.any (· != next.key.pId)
  | .opst => w.segOType.any (· != next.key.oType)
  | .spot => false

def addLeaflet (leaflet : Leaflet) : LeafWriter :=
  { w with
    recordBuf := []
    sidecar := if w.segmentStarted then w.sidecar else w.sidecar ++ [[]]
    segmentStarted := false
    segPId := none
    segOType := none
    encoded := w.encoded ++ [leaflet]
    accumulatedRows := w.accumulatedRows + leaflet.rows.length }

def flushLeaflet : Option LeafWriter :=
  if w.recordBuf.isEmpty then some w
  else do
    let leaflet ← encodeLeaflet order [] w.recordBuf
    some (w.addLeaflet leaflet)

/-- The leaflets of the open leaf. Without any entry no segment is referenced. -/
def leafLeaflets : List Leaflet :=
  if w.sidecar.any (!·.isEmpty) then withHistory w.encoded (buildSidecar sort w.sidecar)
  else w.encoded

def addLeaf (first last : Row) : LeafWriter :=
  { w with
    encoded := []
    sidecar := []
    accumulatedRows := 0
    leafFirst := none
    completed := w.completed ++ [⟨first.key, last.key, w.leafLeaflets sort⟩] }

/-- Both rows are unwrapped: without a first row the writer panics. -/
def flushLeaf : Option LeafWriter :=
  if w.encoded.isEmpty then some w
  else do
    let first ← w.leafFirst
    let last ← w.last
    some (w.addLeaf sort first last)

/-- The part of `push_record` between the flushes. -/
def buffer (record : Row) : LeafWriter :=
  { w with
    recordBuf := w.recordBuf ++ [record]
    segPId := match order with
      | .post | .psot => some record.key.pId
      | _ => w.segPId
    segOType := match order with
      | .opst => some record.key.oType
      | _ => w.segOType
    leafFirst := w.leafFirst.or (some record)
    last := some record }

def pushRecord (record : Row) : Option LeafWriter := do
  let w ← if !w.recordBuf.isEmpty && w.shouldFlushForSegmentation order record then
    w.flushLeaflet order else some w
  let w := w.buffer order record
  let w ← if targets.leafletRows ≤ w.recordBuf.length then w.flushLeaflet order else some w
  if targets.leafRows ≤ w.accumulatedRows then w.flushLeaf sort else some w

def finish : Option (List Leaf) := do
  let w ← if w.recordBuf.isEmpty then some w else w.flushLeaflet order
  let w ← if w.encoded.isEmpty then some w else w.flushLeaf sort
  some w.completed

/-- Writes a branch: the pushes, then the finish. -/
def writeLeaves (records : List Row) : Option (List Leaf) := do
  let w ← records.foldlM (pushRecord sort order targets) new
  w.finish sort order

end

/-! ### What a push does -/

def rows (w : LeafWriter) : List Row :=
  branchRows w.completed ++ w.encoded.flatMap Leaflet.rows ++ w.recordBuf

/-- What holds of the writer between pushes. -/
structure Steady (order : RunSortOrder) (targets : LeafTargets) (w : LeafWriter) : Prop where
  room : w.recordBuf.length < targets.leafletRows
  accumulated_lt : w.accumulatedRows < targets.leafRows
  segment : ∀ a ∈ w.recordBuf.getLast?, ∀ next,
    w.shouldFlushForSegmentation order next = !sameSegment order a next
  first : w.leafFirst = none → w.encoded = [] ∧ w.recordBuf.length ≤ 1
  last : w.last = none → w.encoded = [] ∧ w.recordBuf = []

variable (sort : UnstableSort) {order : RunSortOrder} {targets : LeafTargets}

theorem steady_new : Steady order targets new where
  room := targets.leafletRows_pos
  accumulated_lt := targets.leafRows_pos
  segment := fun a ha => by cases ha
  first := fun _ => ⟨rfl, Nat.zero_le _⟩
  last := fun _ => ⟨rfl, rfl⟩

variable {w : LeafWriter} {first last : Row}

theorem flushLeaflet_spec (h : w.recordBuf ≠ []) :
    ∃ leaflet, encodeLeaflet order [] w.recordBuf = some leaflet ∧ leaflet.rows = w.recordBuf ∧
      w.flushLeaflet order = some (w.addLeaflet leaflet) := by
  obtain ⟨leaflet, hencode, hrows⟩ := @encodeLeaflet_eq_some order _ [] h
  refine ⟨leaflet, hencode, hrows, ?_⟩
  simp [flushLeaflet, h, hencode]

theorem flushLeaf_spec (h : w.encoded ≠ []) (hfirst : w.leafFirst = some first)
    (hlast : w.last = some last) : w.flushLeaf sort = some (w.addLeaf sort first last) := by
  simp [flushLeaf, h, hfirst, hlast]

theorem rows_addLeaflet {leaflet : Leaflet} (h : leaflet.rows = w.recordBuf) :
    (w.addLeaflet leaflet).rows = w.rows := by
  simp [rows, addLeaflet, h]

theorem map_rows_withHistory (leaflets : List Leaflet) (segments : List (List HistEntryV2)) :
    (withHistory leaflets segments).map Leaflet.rows = leaflets.map Leaflet.rows := by
  induction leaflets generalizing segments with
  | nil => rfl
  | cons leaflet leaflets ih =>
    cases segments with
    | nil => rfl
    | cons history segments => exact congrArg (leaflet.rows :: ·) (ih segments)

theorem map_rows_leafLeaflets (w : LeafWriter) :
    (w.leafLeaflets sort).map Leaflet.rows = w.encoded.map Leaflet.rows := by
  unfold leafLeaflets
  split
  · exact map_rows_withHistory _ _
  · rfl

theorem rows_addLeaf (w : LeafWriter) (first last : Row) :
    (w.addLeaf sort first last).rows = w.rows := by
  have hleaflets : (w.leafLeaflets sort).flatMap Leaflet.rows = w.encoded.flatMap Leaflet.rows := by
    rw [flatMap_def, flatMap_def, map_rows_leafLeaflets]
  simp [rows, addLeaf, branchRows, Leaf.rows, hleaflets]

theorem rows_buffer (w : LeafWriter) (record : Row) :
    (w.buffer order record).rows = w.rows ++ [record] := by
  simp [rows, buffer]

/-- The row starts a new segment behind these. -/
def changes (order : RunSortOrder) (buf : List Row) (next : Row) : Bool :=
  buf.getLast?.any fun a => !sameSegment order a next

/-- Rows in the open leaf, when a leaflet has been added. -/
def closeLeaf (targets : LeafTargets) (rows : ℕ) : ℕ :=
  if targets.leafRows ≤ rows then 0 else rows

theorem Steady.flush_eq (h : w.Steady order targets) (record : Row) :
    (!w.recordBuf.isEmpty && w.shouldFlushForSegmentation order record) =
      changes order w.recordBuf record := by
  cases hlast : w.recordBuf.getLast? with
  | none => simp [changes, getLast?_eq_none_iff.mp hlast]
  | some a =>
    have hne : w.recordBuf ≠ [] := by
      intro hnil
      rw [hnil] at hlast
      cases hlast
    simp [changes, hlast, hne, h.segment a hlast]

theorem segment_buffer (w : LeafWriter) (record next : Row) :
    (w.buffer order record).shouldFlushForSegmentation order next =
      !sameSegment order record next := by
  cases order <;> rfl

/-- The writer when a leaflet was closed: the leaf is closed too if it is full. -/
def closeIfFull (sort : UnstableSort) (targets : LeafTargets) (w : LeafWriter) (first last : Row) :
    LeafWriter :=
  if targets.leafRows ≤ w.accumulatedRows then w.addLeaf sort first last else w

theorem flushLeaf_closeIfFull (h : w.encoded ≠ []) (hfirst : w.leafFirst = some first)
    (hlast : w.last = some last) :
    (if targets.leafRows ≤ w.accumulatedRows then w.flushLeaf sort else some w) =
      some (closeIfFull sort targets w first last) := by
  unfold closeIfFull
  split
  · exact flushLeaf_spec sort h hfirst hlast
  · rfl

variable (order targets) in
theorem closeIfFull_spec (hroom : w.recordBuf.length < targets.leafletRows)
    (hsegment : ∀ a ∈ w.recordBuf.getLast?, ∀ next,
      w.shouldFlushForSegmentation order next = !sameSegment order a next)
    (hfirst : w.leafFirst = some first) (hlast : w.last = some last)
    (hbrief : w.recordBuf.length ≤ 1) :
    (closeIfFull sort targets w first last).Steady order targets ∧
      (closeIfFull sort targets w first last).rows = w.rows ∧
      (closeIfFull sort targets w first last).recordBuf = w.recordBuf ∧
      (closeIfFull sort targets w first last).accumulatedRows =
        closeLeaf targets w.accumulatedRows ∧
      ((closeIfFull sort targets w first last).leafFirst = none ↔
        targets.leafRows ≤ w.accumulatedRows) := by
  have hsome : w.last ≠ none := by simp [hlast]
  unfold closeIfFull closeLeaf
  split
  next h =>
    refine ⟨?_, rows_addLeaf sort w first last, rfl, rfl, iff_of_true rfl h⟩
    exact {
      room := hroom
      accumulated_lt := targets.leafRows_pos
      segment := hsegment
      first := fun _ => ⟨rfl, hbrief⟩
      last := fun hnone => absurd hnone hsome }
  next h =>
    refine ⟨?_, rfl, rfl, rfl, iff_of_false (by simp [hfirst]) h⟩
    exact {
      room := hroom
      accumulated_lt := Nat.lt_of_not_le h
      segment := hsegment
      first := fun hnone => by simp [hfirst] at hnone
      last := fun hnone => absurd hnone hsome }

/-- What a push does: the row closes the leaflet before it, or fills its own, or waits. -/
inductive Pushed (sort : UnstableSort) (order : RunSortOrder) (targets : LeafTargets)
    (w : LeafWriter) (record first : Row) : LeafWriter → Prop
  | change {leaflet : Leaflet} (hchange : changes order w.recordBuf record = true)
      (hencode : encodeLeaflet order [] w.recordBuf = some leaflet)
      (hrows : leaflet.rows = w.recordBuf) :
      Pushed sort order targets w record first
        (closeIfFull sort targets ((w.addLeaflet leaflet).buffer order record) first record)
  | fill {leaflet : Leaflet} (hsame : changes order w.recordBuf record = false)
      (hfull : targets.leafletRows ≤ w.recordBuf.length + 1)
      (hencode : encodeLeaflet order [] (w.recordBuf ++ [record]) = some leaflet)
      (hrows : leaflet.rows = w.recordBuf ++ [record]) :
      Pushed sort order targets w record first
        (closeIfFull sort targets ((w.buffer order record).addLeaflet leaflet) first record)
  | wait (hsame : changes order w.recordBuf record = false)
      (hroom : w.recordBuf.length + 1 < targets.leafletRows) :
      Pushed sort order targets w record first (w.buffer order record)

variable {buf : List Row}

theorem ne_nil_of_changes {record : Row} (h : changes order buf record = true) : buf ≠ [] := by
  rintro rfl
  cases h

/-- A push never fails. -/
theorem pushRecord_cases (h : w.Steady order targets) (record : Row) :
    ∃ first w', w.leafFirst.or (some record) = some first ∧
      w.pushRecord sort order targets record = some w' ∧
        Pushed sort order targets w record first w' := by
  obtain ⟨first, hfirst⟩ : ∃ first, w.leafFirst.or (some record) = some first := by
    cases w.leafFirst with
    | none => exact ⟨record, rfl⟩
    | some first => exact ⟨first, rfl⟩
  have hroom := h.room
  refine ⟨first, ?_⟩
  simp only [pushRecord, h.flush_eq]
  cases hc : changes order w.recordBuf record with
  | true =>
    have hne := ne_nil_of_changes hc
    have hlen : 0 < w.recordBuf.length := length_pos_iff.mpr hne
    obtain ⟨leaflet, hencode, hrows, hflush⟩ := @flushLeaflet_spec order w hne
    have hopen : ¬targets.leafletRows ≤
        ((w.addLeaflet leaflet).buffer order record).recordBuf.length := by
      change ¬targets.leafletRows ≤ 1
      omega
    refine ⟨_, hfirst, ?_, .change hc hencode hrows⟩
    rw [hflush]
    simp only [bind_eq_bind, bind_some, if_neg hopen]
    exact flushLeaf_closeIfFull sort (by simp [buffer, addLeaflet]) hfirst rfl
  | false =>
    have hlength : (w.buffer order record).recordBuf.length = w.recordBuf.length + 1 := by
      simp [buffer]
    simp only [bind_eq_bind, bind_some, hlength]
    by_cases hfull : targets.leafletRows ≤ w.recordBuf.length + 1
    · obtain ⟨leaflet, hencode, hrows, hflush⟩ :=
        @flushLeaflet_spec order (w.buffer order record) (by simp [buffer])
      refine ⟨_, hfirst, ?_, .fill hc hfull hencode hrows⟩
      rw [if_pos hfull, hflush]
      exact flushLeaf_closeIfFull sort (by simp [addLeaflet]) hfirst rfl
    · refine ⟨_, hfirst, ?_, .wait hc (Nat.lt_of_not_le hfull)⟩
      rw [if_neg hfull]
      exact if_neg (Nat.not_le_of_lt h.accumulated_lt)

theorem pushRecord_spec (h : w.Steady order targets) (record : Row) :
    ∃ w', w.pushRecord sort order targets record = some w' ∧ w'.Steady order targets ∧
      w'.rows = w.rows ++ [record] ∧
        if changes order w.recordBuf record then
          w'.recordBuf = [record] ∧
            w'.accumulatedRows = closeLeaf targets (w.accumulatedRows + w.recordBuf.length) ∧
              (w'.leafFirst = none ↔
                targets.leafRows ≤ w.accumulatedRows + w.recordBuf.length)
        else if targets.leafletRows ≤ w.recordBuf.length + 1 then
          w'.recordBuf = [] ∧
            w'.accumulatedRows = closeLeaf targets (w.accumulatedRows + (w.recordBuf.length + 1))
        else
          w'.recordBuf = w.recordBuf ++ [record] ∧ w'.accumulatedRows = w.accumulatedRows ∧
            w'.leafFirst ≠ none := by
  obtain ⟨first, w', hfirst, hpush, hcase⟩ := pushRecord_cases sort h record
  refine ⟨w', hpush, ?_⟩
  have hroom := h.room
  -- the buffer ends with the row that was pushed
  have hsegment : ∀ w : LeafWriter, ∀ a ∈ (w.buffer order record).recordBuf.getLast?, ∀ next,
      (w.buffer order record).shouldFlushForSegmentation order next = !sameSegment order a next := by
    intro w a ha next
    obtain rfl : record = a := by simpa [buffer] using ha
    exact segment_buffer w record next
  cases hcase with
  | @change leaflet hchange hencode hrows =>
    have hlen : 0 < w.recordBuf.length := length_pos_iff.mpr (ne_nil_of_changes hchange)
    have hacc : ((w.addLeaflet leaflet).buffer order record).accumulatedRows =
        w.accumulatedRows + w.recordBuf.length := by simp [buffer, addLeaflet, hrows]
    obtain ⟨hsteady, hrows', hbuf, hacc', hnone⟩ := closeIfFull_spec sort order targets
      (show [record].length < targets.leafletRows by rw [length_singleton]; omega)
      (hsegment (w.addLeaflet leaflet)) hfirst rfl le_rfl
    rw [hacc] at hacc' hnone
    rw [hrows', rows_buffer, rows_addLeaflet hrows, if_pos hchange]
    exact ⟨hsteady, rfl, hbuf, hacc', hnone⟩
  | @fill leaflet hsame hfull hencode hrows =>
    have hacc : ((w.buffer order record).addLeaflet leaflet).accumulatedRows =
        w.accumulatedRows + (w.recordBuf.length + 1) := by simp [buffer, addLeaflet, hrows]
    obtain ⟨hsteady, hrows', hbuf, hacc', -⟩ := closeIfFull_spec sort order targets
      (w := (w.buffer order record).addLeaflet leaflet) targets.leafletRows_pos
      (fun a ha => by cases ha) hfirst rfl (Nat.zero_le 1)
    rw [hacc] at hacc'
    rw [hrows', rows_addLeaflet hrows, rows_buffer, if_neg (by simp [hsame]), if_pos hfull]
    exact ⟨hsteady, rfl, hbuf, hacc'⟩
  | wait hsame hroom =>
    have hsome : (w.buffer order record).leafFirst ≠ none := by
      change w.leafFirst.or (some record) ≠ none
      simp
    refine ⟨?_, rows_buffer w record, ?_⟩
    · exact {
        room := by simpa [buffer] using hroom
        accumulated_lt := h.accumulated_lt
        segment := hsegment w
        first := fun hnone => absurd hnone hsome
        last := fun hnone => nomatch hnone }
    · rw [if_neg (by simp [hsame]), if_neg (Nat.not_le_of_lt hroom)]
      exact ⟨rfl, rfl, hsome⟩

/-! ### What a run does -/

section

variable (order : RunSortOrder) (targets : LeafTargets)

/-- The leaflets that rows are cut into behind a leaflet that is still open: a new one where
the segment changes, and where one is full. -/
def leafletCuts : List Row → List Row → List (List Row)
  | buf, [] => if buf.isEmpty then [] else [buf]
  | buf, row :: rows =>
    if changes order buf row then buf :: leafletCuts [row] rows
    else if targets.leafletRows ≤ buf.length + 1 then (buf ++ [row]) :: leafletCuts [] rows
    else leafletCuts (buf ++ [row]) rows

/-- Rows in the leaf that is open behind these leaflets. -/
def openRows (rows : ℕ) (leaflets : List (List Row)) : ℕ :=
  leaflets.foldl (fun n leaflet => closeLeaf targets (n + leaflet.length)) rows

/-- The last row is alone in its leaflet, and the leaflet before, not full itself, fills the
leaf. -/
def StrandedBehind (n : ℕ) (buf rows : List Row) : Prop :=
  ∃ before leaflet row, leafletCuts order targets buf rows = before ++ [leaflet, [row]] ∧
    leaflet.length < targets.leafletRows ∧
      targets.leafRows ≤ openRows targets n before + leaflet.length

def Stranded (rows : List Row) : Prop := StrandedBehind order targets 0 [] rows

end

theorem flatten_leafletCuts (buf rows : List Row) :
    (leafletCuts order targets buf rows).flatten = buf ++ rows := by
  induction rows generalizing buf with
  | nil => cases buf <;> simp [leafletCuts]
  | cons row rows ih =>
    simp only [leafletCuts]
    split
    · simp [ih]
    · split
      · simp [ih]
      · simp [ih]

/-- Being stranded does not depend on a leaflet further ahead, except through the rows of the
open leaf. -/
theorem stranded_cons {n : ℕ} {buf' rows rows' closed : List Row}
    (hcuts : leafletCuts order targets buf rows = closed :: leafletCuts order targets buf' rows') :
    StrandedBehind order targets n buf rows ↔
      (∃ row, leafletCuts order targets buf' rows' = [[row]] ∧
          closed.length < targets.leafletRows ∧ targets.leafRows ≤ n + closed.length) ∨
        StrandedBehind order targets (closeLeaf targets (n + closed.length)) buf' rows' := by
  unfold StrandedBehind
  rw [hcuts]
  constructor
  · rintro ⟨before, leaflet, row, hsplit, hopen, hfull⟩
    cases before with
    | nil =>
      obtain ⟨rfl, hrest⟩ := cons_eq_cons.mp hsplit
      exact .inl ⟨row, hrest, hopen, hfull⟩
    | cons first before =>
      obtain ⟨rfl, hrest⟩ := cons_eq_cons.mp hsplit
      exact .inr ⟨before, leaflet, row, hrest, hopen, hfull⟩
  · rintro (⟨row, hrest, hopen, hfull⟩ | ⟨before, leaflet, row, hrest, hopen, hfull⟩)
    · exact ⟨[], closed, row, by rw [hrest]; rfl, hopen, hfull⟩
    · exact ⟨closed :: before, leaflet, row, by rw [hrest]; rfl, hopen, hfull⟩

/-- The open leaf has a row, but no first row is known for it. -/
def Headless (w : LeafWriter) : Prop := w.leafFirst = none ∧ w.recordBuf ≠ []

/-- A run of pushes: rows in this order, and history entries anywhere between them. -/
inductive Pushes (sort : UnstableSort) (order : RunSortOrder) (targets : LeafTargets) :
    LeafWriter → List Row → LeafWriter → Prop
  | done (w : LeafWriter) : Pushes sort order targets w [] w
  | history {w w' : LeafWriter} {entry : HistEntryV2} {records : List Row}
      (hrest : Pushes sort order targets (w.pushHistoryEntry entry) records w') :
      Pushes sort order targets w records w'
  | record {w w₁ w' : LeafWriter} {record : Row} {records : List Row}
      (hpush : w.pushRecord sort order targets record = some w₁)
      (hrest : Pushes sort order targets w₁ records w') :
      Pushes sort order targets w (record :: records) w'

theorem Steady.pushHistoryEntry (h : w.Steady order targets) (entry : HistEntryV2) :
    (w.pushHistoryEntry entry).Steady order targets := { h with }

/-- Behind a leaflet that is closed, the last one is the last of the rest if there is one. -/
theorem getLast?_leafletCuts {closed rows : List Row} (hne : buf ++ rows ≠ []) :
    (closed :: leafletCuts order targets buf rows).getLast? =
      (leafletCuts order targets buf rows).getLast? := by
  have hflat := @flatten_leafletCuts order targets buf rows
  cases hcuts : leafletCuts order targets buf rows with
  | nil =>
    rw [hcuts] at hflat
    exact absurd hflat.symm hne
  | cons first => rw [getLast?_cons_cons]

/-- The pushes of a run leave the writer without a first row exactly if the last row is
stranded, and leave rows in the buffer exactly if the last leaflet is not full. -/
theorem run_spec {w' : LeafWriter} {records : List Row} (h : w.Steady order targets)
    (hrun : Pushes sort order targets w records w') :
    w'.Steady order targets ∧ w'.rows = w.rows ++ records ∧
      (w'.Headless ↔ (records = [] ∧ w.Headless) ∨
        StrandedBehind order targets w.accumulatedRows w.recordBuf records) ∧
      (w'.recordBuf ≠ [] ↔
        ∃ leaflet ∈ (leafletCuts order targets w.recordBuf records).getLast?,
          leaflet.length < targets.leafletRows) := by
  induction hrun with
  | done w =>
    have hnot : ¬StrandedBehind order targets w.accumulatedRows w.recordBuf [] := by
      rintro ⟨before, leaflet, row, hsplit, -, -⟩
      have hlength := congrArg length hsplit
      simp only [leafletCuts] at hlength
      split at hlength <;> simp at hlength
    refine ⟨h, by simp, by simp [hnot], ?_⟩
    by_cases hbuf : w.recordBuf = []
    · simp [leafletCuts, hbuf]
    · simp [leafletCuts, hbuf, h.room]
  | history hrest ih => exact ih (h.pushHistoryEntry _)
  | @record w w₁ w' record records hpush hrest ih =>
    obtain ⟨w₂, hpush', hsteady, hrows, hstep⟩ := pushRecord_spec sort h record
    obtain rfl : w₁ = w₂ := some.inj (hpush.symm.trans hpush')
    obtain ⟨hsteady', hrows', hheadless, hbuffer⟩ := ih hsteady
    refine ⟨hsteady', by rw [hrows', hrows, append_assoc, singleton_append], ?_⟩
    rw [hheadless, hbuffer]
    simp only [reduceCtorEq, false_and, false_or]
    by_cases hc : changes order w.recordBuf record = true
    · rw [if_pos hc] at hstep
      obtain ⟨hbuf, hacc, hnone⟩ := hstep
      have hcuts : leafletCuts order targets w.recordBuf (record :: records) =
          w.recordBuf :: leafletCuts order targets [record] records := by
        simp [leafletCuts, hc]
      have hlast : (∃ row, leafletCuts order targets [record] records = [[row]]) ↔
          records = [] := by
        constructor
        · rintro ⟨row, hrow⟩
          have hflat := @flatten_leafletCuts order targets [record] records
          rw [hrow] at hflat
          exact (cons_eq_cons.mp hflat).2.symm
        · rintro rfl
          exact ⟨record, rfl⟩
      refine ⟨?_, by rw [hbuf, hcuts, getLast?_leafletCuts (cons_ne_nil _ _)]⟩
      rw [stranded_cons hcuts, hacc]
      simp only [Headless, hbuf, hnone]
      constructor
      · rintro (⟨rfl, hfull, -⟩ | hlater)
        · exact .inl ⟨record, rfl, h.room, hfull⟩
        · exact .inr hlater
      · rintro (⟨row, hrow, -, hfull⟩ | hlater)
        · exact .inl ⟨hlast.mp ⟨row, hrow⟩, hfull, by simp⟩
        · exact .inr hlater
    rw [if_neg hc] at hstep
    by_cases hfull : targets.leafletRows ≤ w.recordBuf.length + 1
    · rw [if_pos hfull] at hstep
      obtain ⟨hbuf, hacc⟩ := hstep
      have hcuts : leafletCuts order targets w.recordBuf (record :: records) =
          (w.recordBuf ++ [record]) :: leafletCuts order targets [] records := by
        simp [leafletCuts, hc, hfull]
      rw [stranded_cons hcuts, hbuf, hacc, hcuts]
      constructor
      · simp only [Headless, hbuf, ne_eq, not_true, and_false, false_or, length_append,
          length_singleton]
        constructor
        · exact .inr
        · rintro (⟨row, -, hopen, -⟩ | hlater)
          · omega
          · exact hlater
      · cases records with
        | nil => simpa [leafletCuts] using hfull
        | cons next => rw [getLast?_leafletCuts (cons_ne_nil _ _)]
    · rw [if_neg hfull] at hstep
      obtain ⟨hbuf, hacc, hfirst⟩ := hstep
      have hcuts : leafletCuts order targets w.recordBuf (record :: records) =
          leafletCuts order targets (w.recordBuf ++ [record]) records := by
        simp [leafletCuts, hc, hfull]
      unfold StrandedBehind
      rw [hcuts, hbuf, hacc]
      simp [Headless, hfirst]

theorem exists_pushes (h : w.Steady order targets) (records : List Row) :
    ∃ w', records.foldlM (pushRecord sort order targets) w = some w' ∧
      Pushes sort order targets w records w' := by
  induction records generalizing w with
  | nil => exact ⟨w, rfl, .done w⟩
  | cons record records ih =>
    obtain ⟨w₁, hpush, hsteady, -⟩ := pushRecord_spec sort h record
    obtain ⟨w', hrun, hpushes⟩ := ih hsteady
    refine ⟨w', ?_, .record hpush hpushes⟩
    rw [foldlM_cons, hpush]
    exact hrun

/-- The finish panics on a leaf without a first row, and otherwise loses nothing. -/
theorem finish_spec (h : w.Steady order targets) :
    (w.Headless → w.finish sort order = none) ∧
      (¬w.Headless → ∃ leaves, w.finish sort order = some leaves ∧ branchRows leaves = w.rows) := by
  by_cases hbuf : w.recordBuf = []
  · refine ⟨fun hheadless => absurd hbuf hheadless.2, fun _ => ?_⟩
    by_cases hencoded : w.encoded = []
    · exact ⟨w.completed, by simp [finish, hbuf, hencoded], by simp [rows, hbuf, hencoded]⟩
    · obtain ⟨first, hfirst⟩ := ne_none_iff_exists'.mp fun hnone => hencoded (h.first hnone).1
      obtain ⟨last, hlast⟩ := ne_none_iff_exists'.mp fun hnone => hencoded (h.last hnone).1
      refine ⟨(w.addLeaf sort first last).completed, ?_, ?_⟩
      · simp [finish, hbuf, hencoded, flushLeaf_spec sort hencoded hfirst hlast]
      · rw [← rows_addLeaf sort w first last]
        simp [rows, addLeaf, hbuf]
  · obtain ⟨leaflet, -, hrows, hflush⟩ := @flushLeaflet_spec order w hbuf
    obtain ⟨last, hlast⟩ := ne_none_iff_exists'.mp fun hnone => hbuf (h.last hnone).2
    have hencoded : (w.addLeaflet leaflet).encoded ≠ [] := by simp [addLeaflet]
    constructor
    · intro hheadless
      have hnone : (w.addLeaflet leaflet).leafFirst = none := hheadless.1
      simp [finish, hbuf, hflush, hencoded, flushLeaf, hnone]
    · intro hheadless
      obtain ⟨first, hfirst⟩ := ne_none_iff_exists'.mp fun hnone => hheadless ⟨hnone, hbuf⟩
      refine ⟨((w.addLeaflet leaflet).addLeaf sort first last).completed, ?_, ?_⟩
      · simp [finish, hbuf, hflush, hencoded,
          @flushLeaf_spec sort (w.addLeaflet leaflet) first last hencoded hfirst hlast]
      · rw [← rows_addLeaflet hrows, ← rows_addLeaf sort _ first last]
        simp [rows, addLeaf, addLeaflet]

/-- A branch is written exactly if the last row is not stranded, and then has all rows. -/
theorem writeLeaves_spec (records : List Row) :
    (Stranded order targets records → writeLeaves sort order targets records = none) ∧
      (¬Stranded order targets records →
        ∃ leaves, writeLeaves sort order targets records = some leaves ∧
          branchRows leaves = records) := by
  obtain ⟨w, hrun, hpushes⟩ := exists_pushes sort (@steady_new order targets) records
  obtain ⟨hsteady, hrows, hheadless, -⟩ := run_spec sort steady_new hpushes
  have hstranded : w.Headless ↔ Stranded order targets records := by
    rw [hheadless]
    simp [Headless, new, Stranded]
  obtain ⟨hpanic, hok⟩ := finish_spec sort hsteady
  rw [hstranded] at hpanic hok
  have hwrite : writeLeaves sort order targets records = w.finish sort order := by
    simp [writeLeaves, hrun]
  rw [hwrite]
  refine ⟨hpanic, fun h => ?_⟩
  obtain ⟨leaves, hfinish, hleaves⟩ := hok h
  exact ⟨leaves, hfinish, by rw [hleaves, hrows]; rfl⟩

end LeafWriter

end FlureeDb.Index
