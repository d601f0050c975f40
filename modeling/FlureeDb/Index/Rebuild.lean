import FlureeDb.Index.KWayMerge
import FlureeDb.Index.LeafWriter
import FlureeDb.Index.Replay
import Mathlib.Data.List.ModifyLast

/-!
The full rebuild: the run streams of a graph are merged, the winner of each fact is pushed as a
row if it is an assert, and everything else that happened to the fact is pushed to the history.

All entries of a fact are pushed between two rows, so they stand in one segment. It is the
segment of the leaflet that is open then, which need not be the leaflet of the fact's row.
Entries behind the last row are kept only if that row's leaflet is still open.
-/

namespace FlureeDb.Index

open Lib List LeafWriter

namespace LeafWriter

variable (sort : UnstableSort) (order : RunSortOrder) (targets : LeafTargets)

/-- The body of the rebuild loop: the history of a fact, then its winner. -/
def pushGroup (w : LeafWriter) (group : NoveltyOp × List NoveltyOp) : Option LeafWriter :=
  let w := (group.2.map NoveltyOp.histEntry).foldl pushHistoryEntry w
  if group.1.op then w.pushRecord sort order targets group.1.toRow
  else some (w.pushHistoryEntry group.1.histEntry)

end LeafWriter

/-- `build_index` over the run files of a graph, with history. -/
def buildIndexFromRunFiles (sort : UnstableSort) (order : RunSortOrder) (targets : LeafTargets)
    (streams : List (List NoveltyOp)) : Option (List Leaf) := do
  let w ← (KWayMerge.merged order streams).foldlM (pushGroup sort order targets)
    new
  w.finish sort order

namespace LeafWriter

variable {w' : LeafWriter}

section

variable (sort : UnstableSort) {order : RunSortOrder} {targets : LeafTargets}

def histories (leaves : List Leaf) : List (List HistEntryV2) :=
  leaves.flatMap fun leaf => leaf.leaflets.map Leaflet.history

def NewestFirst (history : List HistEntryV2) : Prop := history.Pairwise fun a b => b.t ≤ a.t

/-- What was pushed to the history: `parts` for the leaflets that are closed, `last` for the one
that is open. -/
structure Logged (w : LeafWriter) (parts : List (List HistEntryV2)) (last : List HistEntryV2) :
    Prop where
  sidecar : ∃ segments, w.sidecar = segments ++ (if w.segmentStarted then [last] else []) ∧
    segments.length = w.encoded.length ∧
      List.Forall₂ List.Perm (histories w.completed ++ segments) parts
  idle : w.segmentStarted = false → last = []
  blank : ∀ leaflet ∈ w.encoded, leaflet.history = []
  newestFirst : ∀ history ∈ histories w.completed, NewestFirst history

theorem logged_new : new.Logged [] [] where
  sidecar := ⟨[], rfl, rfl, Forall₂.nil⟩
  idle _ := rfl
  blank := by simp [new]
  newestFirst := by simp [new, histories]

theorem compareNewest (a b : HistEntryV2) :
    (compare b.t a.t).Compares (OrderDual.toDual a.t.val) (OrderDual.toDual b.t.val) :=
  toDual_compares_toDual.mpr ((compare_iff b.t.val a.t.val).mp rfl)

theorem newestFirst_sorted (sort : UnstableSort) (entries : List HistEntryV2) :
    NewestFirst (sort.sort (fun a b => compare b.t a.t) entries) := by
  have htrans : Std.TransCmp fun a b : HistEntryV2 => compare b.t a.t :=
    transCmp_of_compares compareNewest
  exact (sort.sorted (fun a b : HistEntryV2 => compare b.t a.t) entries).imp
    fun {a b} hle => (isLE_iff_le (compareNewest a b)).mp hle

variable {w : LeafWriter} {parts : List (List HistEntryV2)} {last : List HistEntryV2}

section

variable (h : w.Logged parts last)

include h

/-- A segment that was not started is empty. -/
theorem Logged.started : ∃ segments,
    (if w.segmentStarted then w.sidecar else w.sidecar ++ [[]]) = segments ++ [last] ∧
      segments.length = w.encoded.length ∧
        List.Forall₂ List.Perm (histories w.completed ++ segments) parts := by
  obtain ⟨segments, hsidecar, hrest⟩ := h.sidecar
  refine ⟨segments, ?_, hrest⟩
  cases hstarted : w.segmentStarted with
  | true => simpa [hstarted] using hsidecar
  | false => simpa [hstarted, h.idle hstarted] using hsidecar

theorem Logged.pushHistoryEntry (entry : HistEntryV2) :
    (w.pushHistoryEntry entry).Logged parts (last ++ [entry]) where
  sidecar := by
    obtain ⟨segments, hopen, hrest⟩ := h.started
    refine ⟨segments, ?_, hrest⟩
    change pushEntry (if w.segmentStarted then w.sidecar else w.sidecar ++ [[]]) entry = _
    rw [hopen, pushEntry, modifyLast_concat]
    rfl
  idle hstarted := by cases hstarted
  blank := h.blank
  newestFirst := h.newestFirst

theorem Logged.foldl_pushHistoryEntry (entries : List HistEntryV2) :
    (entries.foldl LeafWriter.pushHistoryEntry w).Logged parts (last ++ entries) := by
  induction entries generalizing w last with
  | nil => simpa using h
  | cons entry entries ih => simpa using ih (h.pushHistoryEntry entry)

theorem Logged.buffer (order : RunSortOrder) (record : Row) :
    (w.buffer order record).Logged parts last := { h with }

theorem Logged.addLeaflet {leaflet : Leaflet} (hblank : leaflet.history = []) :
    (w.addLeaflet leaflet).Logged (parts ++ [last]) [] where
  sidecar := by
    obtain ⟨segments, hopen, hlength, hparts⟩ := h.started
    refine ⟨segments ++ [last], hopen.trans (append_nil _).symm, ?_, ?_⟩
    · simpa [LeafWriter.addLeaflet] using hlength
    · rw [← append_assoc]
      exact rel_append hparts (.cons (Perm.refl last) .nil)
  idle _ := rfl
  blank := forall_mem_append.mpr ⟨h.blank, forall_mem_singleton.mpr hblank⟩
  newestFirst := h.newestFirst

end

theorem map_history_withHistory {leaflets : List Leaflet} {segments : List (List HistEntryV2)}
    (hlength : segments.length = leaflets.length) (extra : List (List HistEntryV2)) :
    (withHistory leaflets (segments ++ extra)).map Leaflet.history = segments := by
  induction leaflets generalizing segments with
  | nil =>
    rw [length_eq_zero_iff.mp hlength]
    cases extra <;> rfl
  | cons leaflet leaflets ih =>
    cases segments with
    | nil => cases hlength
    | cons history =>
      exact congrArg (history :: ·) (ih (Nat.succ.inj hlength))

theorem forall₂_perm_trans {α : Type*} {as bs cs : List (List α)}
    (hab : List.Forall₂ List.Perm as bs) (hbc : List.Forall₂ List.Perm bs cs) :
    List.Forall₂ List.Perm as cs := by
  induction hab generalizing cs with
  | nil => exact hbc
  | cons hperm _ ih =>
    cases hbc with
    | cons hperm' hrest => exact .cons (hperm.trans hperm') (ih hrest)

/-- The leaflets of a leaf have the segments that were collected for them, each sorted. -/
theorem Logged.histories_addLeaf (h : w.Logged parts last) (first last' : Row) :
    List.Forall₂ List.Perm (histories (w.addLeaf sort first last').completed) parts ∧
      ∀ history ∈ histories (w.addLeaf sort first last').completed, NewestFirst history := by
  obtain ⟨segments, hsidecar, hlength, hparts⟩ := h.sidecar
  have hmap : ∃ f : List HistEntryV2 → List HistEntryV2, (∀ l ∈ segments, (f l).Perm l) ∧
      (∀ l ∈ segments, NewestFirst (f l)) ∧
        (w.leafLeaflets sort).map Leaflet.history = segments.map f := by
    unfold leafLeaflets
    split
    · refine ⟨sort.sort fun a b => compare b.t a.t, fun l _ => sort.perm _ l,
        fun l _ => newestFirst_sorted sort l, ?_⟩
      rw [hsidecar, buildSidecar, map_append,
        map_history_withHistory (by rw [length_map, hlength])]
    next hnone =>
      have hempty : ∀ l ∈ segments, l = [] := by
        intro l hl
        by_contra hne
        refine hnone (any_eq_true.mpr ⟨l, ?_, by simpa using hne⟩)
        rw [hsidecar]
        exact mem_append_left _ hl
      refine ⟨id, fun l _ => Perm.refl l, fun l hl => ?_, ?_⟩
      · rw [hempty l hl]
        exact Pairwise.nil
      · rw [map_id, eq_replicate_iff.mpr ⟨hlength, hempty⟩]
        refine eq_replicate_iff.mpr ⟨length_map _, fun history hhistory => ?_⟩
        obtain ⟨leaflet, hleaflet, rfl⟩ := mem_map.mp hhistory
        exact h.blank leaflet hleaflet
  obtain ⟨f, hperm, hnewest, hmap⟩ := hmap
  have hsplit : histories (w.addLeaf sort first last').completed =
      histories w.completed ++ segments.map f := by
    simp [addLeaf, histories, ← hmap]
  rw [hsplit]
  constructor
  · refine forall₂_perm_trans (rel_append ?_ ?_) hparts
    · exact forall₂_same.mpr fun l _ => Perm.refl l
    · exact forall₂_map_left_iff.mpr (forall₂_same.mpr hperm)
  · exact forall_mem_append.mpr ⟨h.newestFirst, forall_mem_map.mpr hnewest⟩

theorem Logged.addLeaf (h : w.Logged parts last) (hidle : w.segmentStarted = false)
    (first last' : Row) : (w.addLeaf sort first last').Logged parts last where
  sidecar := by
    refine ⟨[], ?_, rfl, ?_⟩
    · change [] = [] ++ (if w.segmentStarted then [last] else [])
      rw [hidle]
      rfl
    · rw [append_nil]
      exact (h.histories_addLeaf sort first last').1
  idle := h.idle
  blank := by simp [LeafWriter.addLeaf]
  newestFirst := (h.histories_addLeaf sort first last').2

theorem encodeLeaflet_history {history : List HistEntryV2} {rows : List Row} {leaflet : Leaflet}
    (h : encodeLeaflet order history rows = some leaflet) : leaflet.history = history := by
  cases rows with
  | nil => cases h
  | cons => rw [← Option.some.inj h]

theorem Logged.closeIfFull (h : w.Logged parts last) (hidle : w.segmentStarted = false)
    (first last' : Row) : (closeIfFull sort targets w first last').Logged parts last := by
  unfold LeafWriter.closeIfFull
  split
  · exact h.addLeaf sort hidle first last'
  · exact h

/-- A row that is pushed may close a leaflet, and the part with it. If no row is left open, no
part is. -/
theorem Logged.pushRecord (hsteady : w.Steady order targets) (h : w.Logged parts last)
    {record : Row} (hpush : w.pushRecord sort order targets record = some w') :
    (w'.Logged parts last ∧ w'.recordBuf ≠ []) ∨ w'.Logged (parts ++ [last]) [] := by
  obtain ⟨first, w₁, -, hpush', hcase⟩ := pushRecord_cases sort hsteady record
  obtain rfl : w' = w₁ := Option.some.inj (hpush.symm.trans hpush')
  cases hcase with
  | change _ hencode =>
    exact .inr (((h.addLeaflet (encodeLeaflet_history hencode)).buffer order record).closeIfFull
      sort rfl first record)
  | fill _ _ hencode =>
    exact .inr (((h.buffer order record).addLeaflet (encodeLeaflet_history hencode)).closeIfFull
      sort rfl first record)
  | wait => exact .inl ⟨h.buffer order record, by simp [LeafWriter.buffer]⟩

end

/-! ### What a rebuild writes -/

variable (sort : UnstableSort) {order : RunSortOrder} {targets : LeafTargets}

variable (group : NoveltyOp × List NoveltyOp)

/-- What is pushed to the history for a fact. -/
def groupEntries : List HistEntryV2 :=
  (if group.1.op then group.2 else group.2 ++ [group.1]).map NoveltyOp.histEntry

def groupRow : Option Row :=
  if group.1.op then some group.1.toRow else none

variable (groups : List (NoveltyOp × List NoveltyOp))

/-- The facts behind the last row. -/
def trailing : List (NoveltyOp × List NoveltyOp) :=
  (groups.reverse.takeWhile fun group => !group.1.op).reverse

theorem trailing_concat (group : NoveltyOp × List NoveltyOp) :
    trailing (groups ++ [group]) = if group.1.op then [] else trailing groups ++ [group] := by
  unfold trailing
  rw [reverse_append, reverse_singleton, singleton_append, takeWhile_cons]
  cases group.1.op with
  | true => rfl
  | false => simp

variable {w : LeafWriter}

theorem pushes_foldl {records : List Row} (entries : List HistEntryV2)
    (h : Pushes sort order targets (entries.foldl pushHistoryEntry w) records w') :
    Pushes sort order targets w records w' := by
  induction entries generalizing w with
  | nil => exact h
  | cons entry entries ih => exact .history (ih h)

theorem Steady.foldl_pushHistoryEntry (h : w.Steady order targets) (entries : List HistEntryV2) :
    (entries.foldl LeafWriter.pushHistoryEntry w).Steady order targets :=
  foldlRecOn entries _ h fun _ h entry _ => h.pushHistoryEntry entry

theorem pushes_append {w₁ : LeafWriter} {records records' : List Row}
    (h : Pushes sort order targets w records w₁) (h' : Pushes sort order targets w₁ records' w') :
    Pushes sort order targets w (records ++ records') w' := by
  induction h with
  | done => exact h'
  | history hrest ih => exact .history (ih h')
  | record hpush hrest ih => exact .record hpush (ih h')

theorem pushGroup_spec (hsteady : w.Steady order targets) (group : NoveltyOp × List NoveltyOp) :
    ∃ w', w.pushGroup sort order targets group = some w' ∧
      Pushes sort order targets w (groupRow group).toList w' ∧
        ∀ parts last, w.Logged parts last →
          (w'.Logged parts (last ++ groupEntries group) ∧
              (w'.recordBuf = [] → group.1.op = false ∧ w.recordBuf = [])) ∨
            w'.Logged (parts ++ [last ++ groupEntries group]) [] ∧ group.1.op = true := by
  set w₁ := (group.2.map NoveltyOp.histEntry).foldl pushHistoryEntry w with hw₁
  have hsteady₁ : w₁.Steady order targets := hsteady.foldl_pushHistoryEntry _
  have hbuf : w₁.recordBuf = w.recordBuf :=
    foldlRecOn (motive := fun w' => recordBuf w' = w.recordBuf) _ _ rfl fun _ h _ _ => h
  cases hop : group.1.op with
  | true =>
    obtain ⟨w', hpush, -⟩ := pushRecord_spec sort hsteady₁ group.1.toRow
    refine ⟨w', ?_, ?_, ?_⟩
    · simp only [pushGroup, hop]
      exact hpush
    · simp only [groupRow, hop]
      exact pushes_foldl sort _ (.record hpush (.done w'))
    · intro parts last hlogged
      have hentries : groupEntries group = group.2.map NoveltyOp.histEntry := by
        simp [groupEntries, hop]
      rw [hentries]
      rcases (hlogged.foldl_pushHistoryEntry (group.2.map NoveltyOp.histEntry)).pushRecord sort
        hsteady₁ hpush with ⟨hopen, hne⟩ | hclosed
      · exact .inl ⟨hopen, fun hnil => absurd hnil hne⟩
      · exact .inr ⟨hclosed, rfl⟩
  | false =>
    refine ⟨w₁.pushHistoryEntry group.1.histEntry, ?_, ?_, ?_⟩
    · simp only [pushGroup, hop]
      rfl
    · simp only [groupRow, hop]
      exact pushes_foldl sort _ (.history (.done _))
    · intro parts last hlogged
      have hentries : groupEntries group =
          group.2.map NoveltyOp.histEntry ++ [group.1.histEntry] := by
        simp [groupEntries, hop]
      rw [hentries, ← append_assoc]
      refine .inl ⟨(hlogged.foldl_pushHistoryEntry _).pushHistoryEntry _, fun hnil => ⟨rfl, ?_⟩⟩
      exact hbuf.symm.trans hnil

/-- All facts: the parts are cut from the facts one behind the other. -/
theorem run_groups :
    ∃ (w : LeafWriter) (cuts : List (List (NoveltyOp × List NoveltyOp)))
      (lastCut : List (NoveltyOp × List NoveltyOp)),
        groups.foldlM (pushGroup sort order targets) new = some w ∧
      Pushes sort order targets new (groups.filterMap groupRow) w ∧
        w.Logged (cuts.map (List.flatMap groupEntries)) (lastCut.flatMap groupEntries) ∧
          cuts.flatten ++ lastCut = groups ∧ (w.recordBuf = [] → lastCut = trailing groups) := by
  induction groups using reverseRecOn with
  | nil => exact ⟨new, [], [], rfl, .done new, logged_new, rfl, fun _ => rfl⟩
  | append_singleton groups group ih =>
    obtain ⟨w, cuts, lastCut, hfold, hpushes, hlogged, hcuts, hlast⟩ := ih
    obtain ⟨hsteady, -⟩ := run_spec sort steady_new hpushes
    obtain ⟨w', hpush, hpushes', hstep⟩ := pushGroup_spec sort hsteady group
    have hrows : (groups ++ [group]).filterMap groupRow =
        groups.filterMap groupRow ++ (groupRow group).toList := by
      cases hrow : groupRow group <;> simp [hrow]
    have hentries : (lastCut ++ [group]).flatMap groupEntries =
        lastCut.flatMap groupEntries ++ groupEntries group := by simp
    have hfold' : (groups ++ [group]).foldlM (pushGroup sort order targets) new = some w' := by
      rw [foldlM_append, hfold]
      simp [hpush]
    have hrun := pushes_append sort hpushes hpushes'
    rw [← hrows] at hrun
    rcases hstep _ _ hlogged with ⟨hopen, hbuf⟩ | ⟨hclosed, hop⟩
    · rw [← hentries] at hopen
      refine ⟨w', cuts, lastCut ++ [group], hfold', hrun, hopen, by rw [← hcuts, append_assoc],
        fun hnil => ?_⟩
      obtain ⟨hop, hbefore⟩ := hbuf hnil
      rw [trailing_concat, hop, if_neg Bool.false_ne_true, hlast hbefore]
    · rw [← hentries] at hclosed
      refine ⟨w', cuts ++ [lastCut ++ [group]], [], hfold', hrun, ?_, ?_, fun _ => ?_⟩
      · rw [map_append]
        exact hclosed
      · simp [← hcuts]
      · rw [trailing_concat, hop, if_pos rfl]

theorem finish_eq (w : LeafWriter) :
    w.finish sort order =
      (if w.recordBuf.isEmpty then some w else w.flushLeaflet order).bind fun w =>
        (if w.encoded.isEmpty then some w else w.flushLeaf sort).map completed := by
  simp only [finish, apply_ite (Option.map _), Option.map_eq_bind]
  split
  · rfl
  · rfl

/-- The finish closes what is open: the last part too, if rows are. -/
theorem Logged.finish {parts : List (List HistEntryV2)} {last : List HistEntryV2}
    (h : w.Logged parts last) {leaves : List Leaf} (hfinish : w.finish sort order = some leaves) :
    List.Forall₂ List.Perm (histories leaves)
        (if w.recordBuf = [] then parts else parts ++ [last]) ∧
      ∀ history ∈ histories leaves, NewestFirst history := by
  have hleaf : ∀ {w : LeafWriter} {parts last}, w.Logged parts last →
      (if w.encoded.isEmpty then some w else w.flushLeaf sort).map completed = some leaves →
        Forall₂ Perm (histories leaves) parts ∧
          ∀ history ∈ histories leaves, NewestFirst history := by
    intro w parts last h hdone
    by_cases hempty : w.encoded = []
    · obtain rfl : w.completed = leaves := by simpa [hempty] using hdone
      obtain ⟨segments, -, hlength, hsegments⟩ := h.sidecar
      rw [hempty, length_nil, length_eq_zero_iff] at hlength
      rw [hlength, append_nil] at hsegments
      exact ⟨hsegments, h.newestFirst⟩
    · rw [if_neg (by simpa using hempty), flushLeaf, if_neg (by simpa using hempty)] at hdone
      simp only [Option.bind_eq_bind, Option.map_eq_some_iff, Option.bind_eq_some_iff,
        Option.some.injEq] at hdone
      obtain ⟨_, ⟨first, -, last', -, rfl⟩, rfl⟩ := hdone
      exact h.histories_addLeaf sort first last'
  by_cases hbuf : w.recordBuf = []
  · rw [if_pos hbuf]
    refine hleaf h ?_
    rw [finish_eq, if_pos (by simpa using hbuf)] at hfinish
    exact hfinish
  · rw [if_neg hbuf]
    obtain ⟨leaflet, hencode, -, hflush⟩ := @flushLeaflet_spec order w hbuf
    refine hleaf (h.addLeaflet (encodeLeaflet_history hencode)) ?_
    rw [finish_eq, if_neg (by simpa using hbuf), hflush] at hfinish
    exact hfinish

end LeafWriter

/-! ### Written branches -/

variable (sort : UnstableSort) (order : RunSortOrder) (targets : LeafTargets)
  (streams : List (List NoveltyOp))

def latestRows : List Row := (KWayMerge.merged order streams).filterMap groupRow

/-- The last leaflet is closed before it is full. -/
def LastLeafletOpen (rows : List Row) : Prop :=
  ∃ leaflet ∈ (leafletCuts order targets [] rows).getLast?, leaflet.length < targets.leafletRows

/-- A branch is written unless the last row is stranded. It has all rows, and the history of
all facts, cut into segments, up to those that are lost behind the last row. -/
theorem buildIndex_spec :
    (Stranded order targets (latestRows order streams) →
        buildIndexFromRunFiles sort order targets streams = none) ∧
      (¬Stranded order targets (latestRows order streams) →
        ∃ (leaves : List Leaf) (cuts : List (List (NoveltyOp × List NoveltyOp)))
          (lost : List (NoveltyOp × List NoveltyOp)),
            buildIndexFromRunFiles sort order targets streams = some leaves ∧
          branchRows leaves = latestRows order streams ∧
            cuts.flatten ++ lost = KWayMerge.merged order streams ∧
              (LastLeafletOpen order targets (latestRows order streams) → lost = []) ∧
                (¬LastLeafletOpen order targets (latestRows order streams) →
                  lost = trailing (KWayMerge.merged order streams)) ∧
                  List.Forall₂ List.Perm (histories leaves) (cuts.map (List.flatMap groupEntries)) ∧
                    ∀ history ∈ histories leaves, NewestFirst history) := by
  obtain ⟨w, cuts, lastCut, hfold, hpushes, hlogged, hcuts, hlast⟩ :=
    @run_groups sort order targets (KWayMerge.merged order streams)
  change Pushes sort order targets new (latestRows order streams) w at hpushes
  obtain ⟨hsteady, hrows, hheadless, hbuffer⟩ := run_spec sort steady_new hpushes
  have hstranded : w.Headless ↔ Stranded order targets (latestRows order streams) := by
    rw [hheadless]
    simp [Headless, new, Stranded]
  have hbuild : buildIndexFromRunFiles sort order targets streams = w.finish sort order := by
    rw [buildIndexFromRunFiles, hfold]
    rfl
  obtain ⟨hpanic, hok⟩ := finish_spec sort hsteady
  rw [hstranded] at hpanic hok
  rw [hbuild]
  refine ⟨hpanic, fun h => ?_⟩
  obtain ⟨leaves, hfinish, hleaves⟩ := hok h
  obtain ⟨hparts, hnewest⟩ := hlogged.finish sort hfinish
  have hrows' : branchRows leaves = latestRows order streams := by
    rw [hleaves, hrows]
    rfl
  by_cases hbuf : w.recordBuf = []
  · rw [if_pos hbuf] at hparts
    have hclosed : ¬LastLeafletOpen order targets (latestRows order streams) :=
      fun hopen => hbuffer.mpr hopen hbuf
    exact ⟨leaves, cuts, lastCut, hfinish, hrows', hcuts, fun hopen => absurd hopen hclosed,
      fun _ => hlast hbuf, hparts, hnewest⟩
  · rw [if_neg hbuf] at hparts
    have hopen : LastLeafletOpen order targets (latestRows order streams) := hbuffer.mp hbuf
    refine ⟨leaves, cuts ++ [lastCut], [], hfinish, hrows', by simpa using hcuts, fun _ => rfl,
      fun hclosed => absurd hopen hclosed, ?_, hnewest⟩
    rw [map_append]
    exact hparts

end FlureeDb.Index
