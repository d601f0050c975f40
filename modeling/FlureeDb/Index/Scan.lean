import FlureeDb.Index.Cursor

/-!
What a cursor puts out, from the first batch to the last. A scan is read off as two nested
walks, over the leaves that are opened and over the leaflets of each, which share the
operations that are pending. Passing over a leaflet loses no row that matches the filter.
-/

namespace FlureeDb.Index

open Lib List

theorem lt_of_mem_dropWhile {α : Type*} {order : RunSortOrder} {key : α → FactKeyV3}
    {bound : FactKeyV3} {l : List α}
    (hl : l.Pairwise fun a b => (key a).sortKey order ≤ (key b).sortKey order) :
    ∀ a ∈ l.dropWhile (fun a => cmpV2ForOrder order (key a) bound != .gt),
      bound.sortKey order < (key a).sortKey order := by
  intro a ha
  rw [dropWhile_eq_filter, mem_filter] at ha
  · exact cmpV2_gt.mp (by simpa using ha.2)
  · refine hl.imp fun hab hb => ?_
    rw [bne_iff_ne, cmpV2_ne_gt] at hb ⊢
    exact hab.trans hb

namespace BinaryFilter

variable {order : RunSortOrder} (filter : BinaryFilter)

theorem matchesKey_iff (key : FactKeyV3) :
    filter.matchesKey key = true ↔ ∀ c, ∀ v ∈ filter.boundValue c, key.column c = v := by
  have hall : ∀ {n : ℕ} (o : Option (Fin n)) (x : Fin n),
      (o.all fun f => decide (x = f)) = true ↔ ∀ v ∈ o.map Fin.val, x.val = v := by
    intro n o
    cases o with
    | none => simp
    | some f => simp [Fin.ext_iff]
  simp only [matchesKey, Bool.and_eq_true, hall]
  constructor
  · rintro ⟨⟨⟨⟨hs, hp⟩, ht⟩, hk⟩, hi⟩ c
    cases c with
    | sId => exact hs
    | pId => exact hp
    | oType => exact ht
    | oKey => exact hk
    | oI => exact hi
  · intro h
    exact ⟨⟨⟨⟨h .sId, h .pId⟩, h .oType⟩, h .oKey⟩, h .oI⟩

theorem matchesKey_of_isEmpty (h : filter.isEmpty = true) (key : FactKeyV3) :
    filter.matchesKey key = true := by
  simp only [isEmpty, Bool.and_eq_true, Option.isNone_iff_eq_none] at h
  simp [matchesKey, h]

variable {cols : List Column}

theorem le_of_cons_le {a b : FactKeyV3} {c : Column}
    (h : (c :: cols).map a.column ≤ (c :: cols).map b.column) :
    a.column c ≤ b.column c ∧
      (a.column c = b.column c → cols.map a.column ≤ cols.map b.column) := by
  have hnot := not_lt.mpr h
  simp only [map_cons, cons_lt_cons_iff, not_or, not_and, not_lt] at hnot
  exact ⟨hnot.1, fun heq => hnot.2 heq.symm⟩

section

variable {α : Type*} {key : α → FactKeyV3} {c : Column} {l : List α}

def SortedOn (key : α → FactKeyV3) (cols : List Column) (l : List α) : Prop :=
  l.Pairwise fun a b => cols.map (key a).column ≤ cols.map (key b).column

/-- Two binary searches find the rows with a value in the first column. -/
theorem SortedOn.narrow (h : SortedOn key (c :: cols) l) (v : ℕ) :
    (l.take (partitionPoint (fun a => (key a).column c ≤ v) l)).drop
      (partitionPoint (fun a => (key a).column c < v) l) =
        l.filter fun a => (key a).column c = v := by
  rw [drop_partitionPoint, take_partitionPoint, takeWhile_eq_filter, filter_filter]
  · refine filter_congr fun a _ => ?_
    rw [Bool.eq_iff_iff]
    simp only [Bool.and_eq_true, Bool.not_eq_true', decide_eq_false_iff_not, decide_eq_true_eq]
    omega
  all_goals
    refine h.imp fun hab hb => ?_
    have hle := (le_of_cons_le hab).1
    rw [decide_eq_true_eq] at hb ⊢
    omega

theorem SortedOn.behind (h : SortedOn key (c :: cols) l) (v : ℕ) :
    SortedOn key cols (l.filter fun a => (key a).column c = v) := by
  refine (h.sublist filter_sublist).imp_of_mem fun ha hb hab => (le_of_cons_le hab).2 ?_
  have hac := of_mem_filter ha
  have hbc := of_mem_filter hb
  rw [decide_eq_true_eq] at hac hbc
  rw [hac, hbc]

theorem filter_column {v : ℕ} (h : filter.boundValue c = some v) :
    (l.filter fun a => (key a).column c = v).filter (fun a => filter.matchesKey (key a)) =
      l.filter fun a => filter.matchesKey (key a) := by
  rw [filter_filter]
  refine filter_congr fun a _ => ?_
  rw [Bool.eq_iff_iff, Bool.and_eq_true, decide_eq_true_eq, and_iff_left_iff_imp]
  exact fun hmatch => (filter.matchesKey_iff (key a)).mp hmatch c v h

end

/-- Narrowing by the bound columns in front keeps every row that matches. -/
theorem filter_leadingBoundRange {rest : List Column} {rows : List Row}
    (hsorted : SortedOn Row.key (cols ++ rest) rows) :
    (filter.leadingBoundRange cols rows).filter (fun row => filter.matchesKey row.key) =
      rows.filter fun row => filter.matchesKey row.key := by
  induction cols generalizing rows with
  | nil => rfl
  | cons c cols ih =>
    unfold leadingBoundRange
    cases hbound : filter.boundValue c with
    | none => rfl
    | some v =>
      simp only [hsorted.narrow v]
      rw [ih (hsorted.behind v), filter.filter_column hbound]

/-- The columns that are searched by are the first of the order. -/
theorem exists_seekColumns (order : RunSortOrder) :
    ∃ rest, order.columns = seekColumns order ++ rest := by
  cases order with
  | spot | psot => exact ⟨[.oI], rfl⟩
  | post => exact ⟨[.oI, .sId], rfl⟩
  | opst => exact ⟨[.oI, .pId, .sId], rfl⟩

theorem filterBatch_eq {rows : List Row} (hsorted : RowsSorted order rows) :
    filter.filterBatch order rows = rows.filter fun row => filter.matchesKey row.key := by
  obtain ⟨rest, hrest⟩ := exists_seekColumns order
  refine @filter_leadingBoundRange filter _ rest _ ?_
  rw [← hrest]
  exact hsorted.imp le_of_lt

/-- A key between two others that the columns tell apart from the bound values does not
match. -/
theorem not_matches_of_outOfRange {first last key : FactKeyV3}
    (hfirst : cols.map first.column ≤ cols.map key.column)
    (hlast : cols.map key.column ≤ cols.map last.column)
    (h : filter.outOfRange first last cols = true) : filter.matchesKey key = false := by
  induction cols with
  | nil => cases h
  | cons c cols ih =>
    obtain ⟨hfc, hfrest⟩ := le_of_cons_le hfirst
    obtain ⟨hlc, hlrest⟩ := le_of_cons_le hlast
    have hrest : first.column c = last.column c → filter.outOfRange first last cols = true →
        filter.matchesKey key = false := by
      intro heq hout
      exact ih (hfrest (by omega)) (hlrest (by omega)) hout
    unfold outOfRange at h
    cases hbound : filter.boundValue c with
    | none =>
      simp only [hbound] at h
      split at h
      · cases h
      · next heq => exact hrest (not_not.mp heq) h
    | some v =>
      simp only [hbound] at h
      split at h
      · next hout =>
        rw [Bool.eq_false_iff]
        intro hmatch
        have hv := (filter.matchesKey_iff key).mp hmatch c v hbound
        omega
      · split at h
        · cases h
        · next heq => exact hrest (not_not.mp heq) h

theorem filter_eq_nil_of_outOfRange {leaflet : Leaflet} (hok : leaflet.Ok order)
    (h : filter.leafletOutOfRange order leaflet.firstKey leaflet.lastKey = true) :
    leaflet.rows.filter (fun row => filter.matchesKey row.key) = [] := by
  rw [filter_eq_nil_iff]
  intro row hrow
  simp only [leafletOutOfRange, Bool.and_eq_true] at h
  rw [filter.not_matches_of_outOfRange (hok.first_le row hrow) (hok.le_last row hrow) h.2]
  exact Bool.false_ne_true

theorem filter_eq_nil_of_skip {pConst : Option U32} {oTypeConst : Option U16} {rows : List Row}
    (hp : ∀ p ∈ pConst, ∀ row ∈ rows, row.key.pId = p)
    (ho : ∀ o ∈ oTypeConst, ∀ row ∈ rows, row.key.oType = o)
    (h : filter.skipLeaflet pConst oTypeConst = true) :
    rows.filter (fun row => filter.matchesKey row.key) = [] := by
  rw [filter_eq_nil_iff]
  intro row hrow hmatch
  simp only [skipLeaflet, Bool.or_eq_true, Option.any_eq_true, decide_eq_true_eq] at h
  rw [matchesKey_iff] at hmatch
  rcases h with ⟨p, hbound, p', hconst, hne⟩ | ⟨o, hbound, o', hconst, hne⟩
  · have hcol := hmatch .pId p.val (by simp [boundValue, hbound])
    exact hne ((Fin.ext hcol).symm.trans (hp p' hconst row hrow))
  · have hcol := hmatch .oType o.val (by simp [boundValue, hbound])
    exact hne ((Fin.ext hcol).symm.trans (ho o' hconst row hrow))

end BinaryFilter

/-! ### Draining a cursor -/

namespace BinaryCursor

variable (sort : UnstableSort)

/-- The rows that are still to come from the open leaf, and the operations that are left
then. -/
def scanLeaf (c : BinaryCursor) : List Leaflet → List OverlayOp → List Row × List OverlayOp
  | [], ops => ([], ops)
  | leaflet :: leaflets, ops =>
    match c.visitLeaflet sort leaflet ops with
    | none => ([], ops)
    | some (rows, ops) =>
      (rows ++ (c.scanLeaf leaflets ops).1, (c.scanLeaf leaflets ops).2)

/-- The rows that come when all leaves are read. -/
def tailRows (c : BinaryCursor) : List Row :=
  if (c.leafOps ++ c.laterOps).isEmpty then [] else c.emitOverlayOnly

/-- The rows that are still to come when no leaf is open. -/
def scanLeaves : ℕ → BinaryCursor → List Row
  | 0, c => c.tailRows
  | n + 1, c =>
    match c.ahead with
    | [] => []
    | leaf :: rest =>
      let c := c.openLeaf leaf rest n
      let scan := c.scanLeaf sort (c.currentLeaf.getD []) c.leafOps
      scan.1 ++ scanLeaves n { c with currentLeaf := none, leafOps := scan.2 }

def remaining (c : BinaryCursor) : List Row :=
  if c.exhausted then []
  else match c.currentLeaf with
    | none => scanLeaves sort c.toOpen c
    | some leaflets =>
      let scan := c.scanLeaf sort leaflets c.leafOps
      scan.1 ++ scanLeaves sort c.toOpen { c with currentLeaf := none, leafOps := scan.2 }

/-- What a call gives: the next rows, and none only if there are none. -/
def Gives (rows : List Row) : Option (List Row) × BinaryCursor → Prop
  | (none, _) => rows = []
  | (some batch, c) => batch ≠ [] ∧ rows = batch ++ c.remaining sort

theorem scanLeaf_cons (c : BinaryCursor) (leaflet : Leaflet) (leaflets : List Leaflet)
    (ops : List OverlayOp) :
    c.scanLeaf sort (leaflet :: leaflets) ops =
      match c.visitLeaflet sort leaflet ops with
      | none => ([], ops)
      | some (rows, ops) =>
        (rows ++ (c.scanLeaf sort leaflets ops).1, (c.scanLeaf sort leaflets ops).2) := rfl

/-- The cursors differ only in how far they have come. -/
structure ReadsAs (c d : BinaryCursor) : Prop where
  order : c.order = d.order
  filter : c.filter = d.filter
  rangeMin : c.rangeMin = d.rangeMin
  rangeMax : c.rangeMax = d.rangeMax
  maxT : c.maxT = d.maxT
  toT : c.toT = d.toT

namespace ReadsAs

variable {sort} {c d : BinaryCursor} (h : ReadsAs c d)

include h

theorem needReplay_eq : c.needReplay = d.needReplay := by
  rw [needReplay, h.toT, h.maxT, needReplay]

theorem emits_eq : c.emits = d.emits := by
  funext o
  rw [emits, h.toT, h.filter, emits]

theorem seekLeaflets_eq (leaf : Leaf) : c.seekLeaflets leaf = d.seekLeaflets leaf := by
  rw [seekLeaflets, h.needReplay_eq, h.rangeMin, h.order, seekLeaflets]

theorem visitLeaflet_eq (leaflet : Leaflet) (ops : List OverlayOp) :
    c.visitLeaflet sort leaflet ops = d.visitLeaflet sort leaflet ops := by
  cases d
  obtain ⟨horder, hfilter, hmin, hmax, hmaxT, htoT⟩ := h
  subst horder hfilter hmax hmaxT htoT
  rfl

theorem scanLeaf_eq (leaflets : List Leaflet) (ops : List OverlayOp) :
    c.scanLeaf sort leaflets ops = d.scanLeaf sort leaflets ops := by
  induction leaflets generalizing ops with
  | nil => rfl
  | cons leaflet leaflets ih => simp only [scanLeaf_cons, h.visitLeaflet_eq, ih]

end ReadsAs

variable (c : BinaryCursor)

theorem nextInLeaf_spec (leaflets : List Leaflet) (ops : List OverlayOp) :
    match c.nextInLeaf sort leaflets ops with
    | (none, _, ops') => c.scanLeaf sort leaflets ops = ([], ops')
    | (some batch, leaflets', ops') => batch ≠ [] ∧ c.scanLeaf sort leaflets ops =
        (batch ++ (c.scanLeaf sort leaflets' ops').1, (c.scanLeaf sort leaflets' ops').2) := by
  induction leaflets generalizing ops with
  | nil => rfl
  | cons leaflet leaflets ih =>
    rw [scanLeaf_cons, nextInLeaf]
    cases hvisit : c.visitLeaflet sort leaflet ops with
    | none => rfl
    | some visited =>
      obtain ⟨rows, ops'⟩ := visited
      cases rows with
      | nil => exact ih ops'
      | cons row rows => exact ⟨cons_ne_nil row rows, rfl⟩

/-- The call when a leaf is open: a batch of the leaf, or what comes behind it. -/
theorem gives_of_leaf {c : BinaryCursor} (hopen : c.exhausted = false) (leaflets : List Leaflet)
    (next : BinaryCursor → Option (List Row) × BinaryCursor)
    (hnext : ∀ d : BinaryCursor, d.exhausted = false →
      Gives sort (scanLeaves sort c.toOpen d) (next d)) :
    Gives sort
      ((c.scanLeaf sort leaflets c.leafOps).1 ++ scanLeaves sort c.toOpen
        { c with currentLeaf := none, leafOps := (c.scanLeaf sort leaflets c.leafOps).2 })
      (match c.nextInLeaf sort leaflets c.leafOps with
      | (some batch, leaflets, ops) =>
        (some batch, { c with currentLeaf := some leaflets, leafOps := ops })
      | (none, _, ops) => next { c with currentLeaf := none, leafOps := ops }) := by
  have hspec := c.nextInLeaf_spec sort leaflets c.leafOps
  cases hcall : c.nextInLeaf sort leaflets c.leafOps with
  | mk batch left =>
    obtain ⟨leaflets', ops'⟩ := left
    rw [hcall] at hspec
    cases batch with
    | none =>
      rw [hspec]
      exact hnext { c with currentLeaf := none, leafOps := ops' } hopen
    | some batch =>
      obtain ⟨hne, hscan⟩ := hspec
      refine ⟨hne, ?_⟩
      have hreads : ReadsAs { c with currentLeaf := some leaflets', leafOps := ops' } c :=
        ⟨rfl, rfl, rfl, rfl, rfl, rfl⟩
      rw [remaining, if_neg (by simp [hopen])]
      simp only [hscan, hreads.scanLeaf_eq, append_assoc]

theorem openLeaves_gives (n : ℕ) (c : BinaryCursor) (hopen : c.exhausted = false) :
    Gives sort (scanLeaves sort n c) (openLeaves sort n c) := by
  induction n generalizing c with
  | zero =>
    unfold scanLeaves tailRows openLeaves finish
    split
    · rfl
    · cases htail : c.emitOverlayOnly with
      | nil => rfl
      | cons row rows => exact ⟨cons_ne_nil row rows, by simp [remaining]⟩
  | succ n ih =>
    unfold scanLeaves openLeaves
    cases hahead : c.ahead with
    | nil => rfl
    | cons leaf rest =>
      exact @gives_of_leaf sort (c.openLeaf leaf rest n) hopen
        ((c.openLeaf leaf rest n).currentLeaf.getD []) (openLeaves sort n) ih

theorem nextBatch_gives : Gives sort (c.remaining sort) (c.nextBatch sort) := by
  rw [remaining, nextBatch]
  by_cases hopen : c.exhausted = true
  · rw [if_pos hopen, if_pos hopen]
    rfl
  · rw [if_neg hopen, if_neg hopen]
    have hopen : c.exhausted = false := Bool.eq_false_iff.mpr hopen
    cases hleaf : c.currentLeaf with
    | none => exact openLeaves_gives sort c.toOpen c hopen
    | some leaflets =>
      exact gives_of_leaf sort hopen leaflets (openLeaves sort c.toOpen)
        (openLeaves_gives sort c.toOpen)

/-- Draining comes to an end, since every batch has a row. -/
theorem exists_drains : ∃ batches, Drains sort c batches ∧ batches.flatten = c.remaining sort := by
  generalize hn : (c.remaining sort).length = n
  induction n using Nat.strong_induction_on generalizing c with
  | _ n ih =>
    have hgives := c.nextBatch_gives sort
    cases hcall : c.nextBatch sort with
    | mk batch c' =>
      rw [hcall] at hgives
      cases batch with
      | none => exact ⟨[], .done (by rw [hcall]), hgives.symm⟩
      | some batch =>
        obtain ⟨hne, hrows⟩ := hgives
        have hpos := length_pos_iff.mpr hne
        rw [hrows, length_append] at hn
        obtain ⟨batches, hdrains, hflat⟩ := ih _ (by omega) c' rfl
        exact ⟨batch :: batches, .batch hcall hdrains, by rw [flatten_cons, hflat, hrows]⟩

/-- However it is drained, a cursor puts out the rows that are to come. -/
theorem Drains.flatten_eq {c : BinaryCursor} {batches : List (List Row)}
    (h : Drains sort c batches) : batches.flatten = c.remaining sort := by
  induction h with
  | @done c h =>
    have hgives := c.nextBatch_gives sort
    cases hcall : c.nextBatch sort with
    | mk batch =>
      rw [hcall] at h hgives
      obtain rfl : batch = none := h
      exact hgives.symm
  | @batch c c' rows batches h _ ih =>
    have hgives := c.nextBatch_gives sort
    rw [h] at hgives
    rw [flatten_cons, ih]
    exact hgives.2.symm

end BinaryCursor

end FlureeDb.Index
