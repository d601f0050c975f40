import FlureeDb.Index.NoveltyMerge
import FlureeDb.Index.LeafWriter

/-!
Incremental indexing. The novelty of a graph is sorted by fact, cut along the leaves of the
branch and along the leaflets of each leaf, and merged leaflet by leaflet. A graph that has
no branch yet gets one from the writer.

The cuts do not matter: the rows of the new branch are those of one merge of the whole
novelty with all rows. The merge takes every assert for the last word on its fact, so the new
branch is the current state only if each assert is. A leaflet that lost its last row stays in
the branch without column blocks, and the next merge into it fails. The writer ignores the
operations, and a branch without leaves drops the novelty.
-/

namespace FlureeDb.Index

open Lib List

section

variable (sort : UnstableSort) (order : RunSortOrder)

/-- `slice_novelty_to_leaflets`: cut where a leaflet's first key is reached, by bytes. -/
def sliceNoveltyToLeaflets (novelty : List NoveltyOp) (leaflets : List Leaflet) :
    List (List NoveltyOp) :=
  match leaflets with
  | [] => []
  | _ :: rest => sliceAt (fun leaflet n =>
    cmpOrderedKeyV2 (writeOrderedKeyV2 order n.key) (writeOrderedKeyV2 order leaflet.firstKey)
      == .lt) rest novelty

/-- `partition_history_to_chunks`: an entry goes to the last chunk that starts at or before
it. -/
def partitionHistoryToChunks (chunks : List (List Row)) (history : List HistEntryV2) :
    List (List HistEntryV2) :=
  let boundaries := chunks.tail.filterMap List.head?
  (List.range chunks.length).map fun i => history.filter fun e =>
    partitionPoint (fun boundary => cmpV2ForOrder order e.key boundary.key != .lt) boundaries == i

/-- `load_leaflet_columns`: a leaflet without rows was stored by `empty_encoded_leaflet_with_keys`,
which writes no column block, and the first column that is looked for is missing. -/
def loadLeafletColumns (leaflet : Leaflet) : Option (List Row) :=
  if leaflet.rows.isEmpty then none else some leaflet.rows

/-- `merge_and_encode_leaflet`. A leaflet that lost its last row keeps its keys. -/
def mergeAndEncodeLeaflet (leafletTargetRows : ℕ) (leaflet : Leaflet) (novelty : List NoveltyOp) :
    Option (List Leaflet) := do
  let rows ← loadLeafletColumns leaflet
  let merged := mergeNovelty sort order rows leaflet.history novelty
  if merged.records.isEmpty then some [{ leaflet with rows := [], history := merged.history }]
  else
    match splitBySegmentationAndSize order merged.records leafletTargetRows with
    | [chunk] => do
      let encoded ← encodeLeaflet order merged.history chunk
      some [encoded]
    | chunks =>
      (chunks.zip (partitionHistoryToChunks order chunks merged.history)).mapM
        fun (chunk, history) => encodeLeaflet order history chunk

/-- The step of the loop over the leaflets in `update_leaf`. -/
def processLeaflet (leafletTargetRows : ℕ) (leaflet : Leaflet) (slice : List NoveltyOp) :
    Option (List Leaflet) :=
  if slice.isEmpty then some [leaflet]
  else mergeAndEncodeLeaflet sort order leafletTargetRows leaflet slice

/-- The grouping of `assemble_output_leaves`, behind a group that is still open. -/
def groupLeaves (leafTargetRows : ℕ) : ℕ → List Leaflet → List Leaflet → List (List Leaflet)
  | _, group, [] => if group.isEmpty then [] else [group]
  | rows, group, leaflet :: leaflets =>
    if leafTargetRows ≤ rows + leaflet.rows.length then
      (group ++ [leaflet]) :: groupLeaves leafTargetRows 0 [] leaflets
    else groupLeaves leafTargetRows (rows + leaflet.rows.length) (group ++ [leaflet]) leaflets

def buildLeafFromGroup (group : List Leaflet) : Leaf where
  firstKey := (group.head?.map Leaflet.firstKey).getD ⟨0, 0, 0, 0, 0⟩
  lastKey := (group.getLast?.map Leaflet.lastKey).getD ⟨0, 0, 0, 0, 0⟩
  leaflets := group

def updateLeaf (leafletTargetRows leafTargetRows : ℕ) (leaf : Leaf) (novelty : List NoveltyOp) :
    Option (List Leaf) :=
  if novelty.isEmpty then some [leaf]
  else do
    let processed ← (leaf.leaflets.zip (sliceNoveltyToLeaflets order novelty leaf.leaflets)).mapM
      fun (leaflet, slice) => processLeaflet sort order leafletTargetRows leaflet slice
    some ((groupLeaves leafTargetRows 0 [] processed.flatten).map buildLeafFromGroup)

end

section

variable (sort : UnstableSort) (order : RunSortOrder)

def sliceNoveltyToLeaves (novelty : List NoveltyOp) (leaves : List Leaf) : List (List NoveltyOp) :=
  match leaves with
  | [] => []
  | _ :: rest => sliceAt (fun leaf n => cmpV2ForOrder order n.key leaf.firstKey == .lt) rest novelty

variable (targets : LeafTargets)

/-- The target of `make_leaf_update_input`: a leaf that stays within twice the target is kept
whole. -/
def leafTargetFor (leaf : Leaf) (novelty : List NoveltyOp) : ℕ :=
  let estimatedRows := leaf.rows.length + novelty.length
  if targets.leafRows * 2 < estimatedRows then max targets.leafRows 1
  else max targets.leafRows (estimatedRows + 1)

/-- The step of the loop over the leaves in `update_branch`. -/
def processLeaf (leaf : Leaf) (slice : List NoveltyOp) : Option (List Leaf) :=
  if slice.isEmpty then some [leaf]
  else updateLeaf sort order targets.leafletRows (leafTargetFor targets leaf slice) leaf slice

def updateBranch (leaves : List Leaf) (novelty : List NoveltyOp) :
    Option (List Leaf) := do
  let updated ← (leaves.zip (sliceNoveltyToLeaves order novelty leaves)).mapM
    fun (leaf, slice) => processLeaf sort order targets leaf slice
  some updated.flatten

end

/-! ### The index -/

structure IndexerConfig where
  leafletRows : ℕ
  leafletsPerLeaf : ℕ

def IndexerConfig.targets (config : IndexerConfig) : LeafTargets where
  leafletRows := max config.leafletRows 1
  leafRows := min (max config.leafletRows 1 * max config.leafletsPerLeaf 1) (2 ^ 64 - 1)
  leafletRows_pos := by omega
  leafRows_pos := by
    have h : 0 < max config.leafletRows 1 * max config.leafletsPerLeaf 1 :=
      Nat.mul_pos (by omega) (by omega)
    omega

/-- The branches of a root, by graph and order. -/
def IndexRoot := U16 → (order : RunSortOrder) → Option (Branch order)

section

variable (sort : UnstableSort) (config : IndexerConfig)

/-- A task of phase 2: the records of one graph, sorted by fact, go into its branch for one
order or into a fresh one. A graph without records has no task. -/
def phase2Task (order : RunSortOrder) (base : Option (Branch order)) (records : List NoveltyOp) :
    Option (List Leaf) :=
  let sorted := sort.sort (fun a b => cmpV2ForOrder order a.key b.key) records
  match base with
  | some branch =>
    if records.isEmpty then some branch.leaves
    else updateBranch sort order config.targets branch.leaves sorted
  | none =>
    if records.isEmpty then some []
    else LeafWriter.writeLeaves sort order config.targets (sorted.map fun n => n.toRow)

/-- `incremental_index`, phase 2: the leaves for a graph and an order. -/
def incrementalIndex (root : IndexRoot) (novelty : List NoveltyOp) (gId : U16)
    (order : RunSortOrder) : Option (List Leaf) :=
  phase2Task sort config order (root gId order) (novelty.filter fun n => n.gId = gId)

end

theorem exists_mapM {α β : Type*} {f : α → Option β} {R : α → β → Prop} {l : List α}
    (h : ∀ a ∈ l, ∃ b, f a = some b ∧ R a b) : ∃ bs, l.mapM f = some bs ∧ List.Forall₂ R l bs := by
  induction l with
  | nil => exact ⟨[], rfl, Forall₂.nil⟩
  | cons a l ih =>
    obtain ⟨b, hb, hR⟩ := h a mem_cons_self
    obtain ⟨bs, hbs, hforall⟩ := ih fun a' ha' => h a' (mem_cons_of_mem a ha')
    refine ⟨b :: bs, ?_, Forall₂.cons hR hforall⟩
    simp [hb, hbs]

theorem mapM_eq_none {α β : Type*} {f : α → Option β} {l : List α} {a : α} (ha : a ∈ l)
    (h : f a = none) : l.mapM f = none := by
  induction l with
  | nil => cases ha
  | cons b l ih =>
    rcases mem_cons.mp ha with rfl | ha
    · simp [h]
    · simp [ih ha]

theorem flatMap_flatten {α β : Type*} (parts : List (List α)) (f : α → List β) :
    parts.flatten.flatMap f = parts.flatMap fun part => part.flatMap f := by
  rw [flatten_eq_flatMap, flatMap_assoc]
  rfl

theorem flatMap_of_forall₂ {α β γ : Type*} {f : α → List γ} {g : β → List γ} {l : List α}
    {l' : List β} (h : List.Forall₂ (fun a b => g b = f a) l l') : l'.flatMap g = l.flatMap f := by
  induction h with
  | nil => rfl
  | cons hab _ ih => rw [flatMap_cons, flatMap_cons, hab, ih]

variable {order : RunSortOrder} (sort : UnstableSort)

theorem flatten_groupLeaves (target rows : ℕ) (group leaflets : List Leaflet) :
    (groupLeaves target rows group leaflets).flatten = group ++ leaflets := by
  induction leaflets generalizing rows group with
  | nil => cases group <;> simp [groupLeaves]
  | cons leaflet leaflets ih =>
    simp only [groupLeaves]
    split
    · simp [ih]
    · simp [ih]

theorem branchRows_groupLeaves (target : ℕ) (leaflets : List Leaflet) :
    branchRows ((groupLeaves target 0 [] leaflets).map buildLeafFromGroup) =
      leaflets.flatMap Leaflet.rows := by
  have hflatten := flatten_groupLeaves target 0 [] leaflets
  rw [nil_append] at hflatten
  rw [branchRows, flatMap_map, ← hflatten, flatMap_flatten, hflatten]
  rfl

/-- Encoding pieces that are not empty, with any history for each, keeps their rows. -/
theorem encode_chunks {chunks : List (List Row)} (hchunks : [] ∉ chunks)
    {histories : List (List HistEntryV2)} (hlength : histories.length = chunks.length) :
    ∃ leaflets, (chunks.zip histories).mapM (fun (chunk, history) =>
        encodeLeaflet order history chunk) = some leaflets ∧
      leaflets.flatMap Leaflet.rows = chunks.flatten := by
  obtain ⟨leaflets, hleaflets, hrows⟩ := exists_mapM (l := chunks.zip histories)
    (f := fun p => encodeLeaflet order p.2 p.1) (R := fun p leaflet => leaflet.rows = p.1) <| by
      intro p hp
      refine encodeLeaflet_eq_some fun hnil => hchunks ?_
      rw [← hnil]
      exact (of_mem_zip hp).1
  refine ⟨leaflets, hleaflets, ?_⟩
  have hmap : (chunks.zip histories).flatMap (fun p => p.1) = chunks.flatten := by
    rw [flatMap_def, map_fst_zip (by omega)]
  rw [flatMap_of_forall₂ hrows, hmap]

theorem mergeAndEncodeLeaflet_rows (target : ℕ) {leaflet : Leaflet} (hfull : leaflet.rows ≠ [])
    (novelty : List NoveltyOp) :
    ∃ leaflets, mergeAndEncodeLeaflet sort order target leaflet novelty = some leaflets ∧
      leaflets.flatMap Leaflet.rows =
        (mergeWalk order leaflet.rows novelty).flatMap mergedRows := by
  set merged := mergeNovelty sort order leaflet.rows leaflet.history novelty with hmerged
  have hrecords : merged.records = (mergeWalk order leaflet.rows novelty).flatMap mergedRows := rfl
  obtain ⟨hflatten, hnonempty⟩ := split_spec order merged.records target
  have hload : loadLeafletColumns leaflet = some leaflet.rows := by
    simp [loadLeafletColumns, hfull]
  rw [← hrecords]
  by_cases hempty : merged.records = []
  · refine ⟨[{ leaflet with rows := [], history := merged.history }], ?_, by simp [hempty]⟩
    simp [mergeAndEncodeLeaflet, hload, ← hmerged, hempty]
  · have hgeneral := @encode_chunks order _ hnonempty
      (partitionHistoryToChunks order (splitBySegmentationAndSize order merged.records target)
        merged.history) (by simp [partitionHistoryToChunks])
    simp only [mergeAndEncodeLeaflet, hload, Option.bind_eq_bind, Option.bind_some, ← hmerged,
      List.isEmpty_iff, hempty, if_false]
    split
    · next chunk hchunks =>
      rw [hchunks] at hflatten hnonempty
      obtain ⟨encoded, hencoded, hrows⟩ : ∃ encoded,
          encodeLeaflet order merged.history chunk = some encoded ∧ encoded.rows = chunk :=
        encodeLeaflet_eq_some (by simpa using hnonempty)
      refine ⟨[encoded], by simp [hencoded], ?_⟩
      simpa [hrows] using hflatten
    · rw [hflatten] at hgeneral
      exact hgeneral

theorem processLeaflet_rows (target : ℕ) {leaflet : Leaflet} {slice : List NoveltyOp}
    (hread : ∀ n ∈ slice, leaflet.rows ≠ []) :
    ∃ leaflets, processLeaflet sort order target leaflet slice = some leaflets ∧
      leaflets.flatMap Leaflet.rows = (mergeWalk order leaflet.rows slice).flatMap mergedRows := by
  by_cases hslice : slice = []
  · refine ⟨[leaflet], by simp [processLeaflet, hslice], ?_⟩
    rw [hslice, mergedRows_nil, flatMap_singleton]
  · obtain ⟨n, hn⟩ := exists_mem_of_ne_nil slice hslice
    simp only [processLeaflet, List.isEmpty_iff, hslice]
    exact mergeAndEncodeLeaflet_rows sort target (hread n hn) slice

theorem processLeaflet_eq_none (target : ℕ) {leaflet : Leaflet} (hempty : leaflet.rows = [])
    {slice : List NoveltyOp} (hslice : slice ≠ []) :
    processLeaflet sort order target leaflet slice = none := by
  simp [processLeaflet, hslice, mergeAndEncodeLeaflet, loadLeafletColumns, hempty]

variable {novelty : List NoveltyOp}

/-- Merging parts that are apart with their slices of the novelty is one merge. -/
theorem mergeWalk_slices {γ : Type*} {below : γ → NoveltyOp → Bool} {first last : γ → FactKeyV3}
    {rows : γ → List Row}
    (hbelow : ∀ c n, below c n = true ↔ n.key.sortKey order < (first c).sortKey order) (part : γ)
    (parts : List γ) (hspan : ∀ c ∈ part :: parts, (first c).sortKey order ≤ (last c).sortKey order)
    (hfirst : ∀ c ∈ part :: parts, ∀ row ∈ rows c, (first c).sortKey order ≤ row.key.sortKey order)
    (hlast : ∀ c ∈ part :: parts, ∀ row ∈ rows c, row.key.sortKey order ≤ (last c).sortKey order)
    (hapart : (part :: parts).Pairwise fun c c' =>
      (last c).sortKey order < (first c').sortKey order) (hnovelty : NoveltySorted order novelty) :
    ((part :: parts).zip (sliceAt below parts novelty)).flatMap
        (fun p => mergeWalk order (rows p.1) p.2) =
      mergeWalk order ((part :: parts).flatMap rows) novelty := by
  refine mergeJoin_slices (@cmpBatchRow_compares order) hbelow part parts ?_ ?_ ?_ hnovelty
  · exact hapart.imp_of_mem fun hc _ hlt row hrow => lt_of_le_of_lt (hlast _ hc row hrow) hlt
  · exact fun c hc => hfirst c (mem_cons_of_mem part hc)
  · refine (pairwise_cons.mp hapart).2.imp_of_mem fun hc _ hlt => ?_
    exact (hspan _ (mem_cons_of_mem part hc)).trans hlt.le

variable {leaf : Leaf}

/-! ### Where a record goes -/

/-- The leaflet of the leaf that a record goes to has rows. -/
def Leaf.FindsRows (order : RunSortOrder) (leaf : Leaf) (n : NoveltyOp) : Prop :=
  ∀ leaflet ∈ routedIn (fun leaflet => leaflet.firstKey.sortKey order) (n.key.sortKey order)
    leaf.leaflets, leaflet.rows ≠ []

/-- The leaf that a record goes to finds rows for it. -/
def FindsRows (order : RunSortOrder) (leaves : List Leaf) (n : NoveltyOp) : Prop :=
  ∀ leaf ∈ routedIn (fun leaf => leaf.firstKey.sortKey order) (n.key.sortKey order) leaves,
    leaf.FindsRows order n

instance (leaf : Leaf) (n : NoveltyOp) : Decidable (leaf.FindsRows order n) :=
  inferInstanceAs (Decidable (∀ leaflet ∈ routedIn _ _ _, _))

instance (leaves : List Leaf) (n : NoveltyOp) : Decidable (FindsRows order leaves n) :=
  inferInstanceAs (Decidable (∀ leaf ∈ routedIn _ _ _, _))

theorem forall_leaflet_slices_iff (leaf : Leaf) (hnovelty : NoveltySorted order novelty) :
    (∀ p ∈ leaf.leaflets.zip (sliceNoveltyToLeaflets order novelty leaf.leaflets),
        ∀ n ∈ p.2, p.1.rows ≠ []) ↔ ∀ n ∈ novelty, leaf.FindsRows order n := by
  unfold Leaf.FindsRows
  cases leaf.leaflets with
  | nil => simp [routedIn]
  | cons first rest =>
    have hbelow (leaflet : Leaflet) (n : NoveltyOp) : (cmpOrderedKeyV2
        (writeOrderedKeyV2 order n.key) (writeOrderedKeyV2 order leaflet.firstKey) == .lt) = true ↔
          n.key.sortKey order < leaflet.firstKey.sortKey order := by
      rw [beq_iff_eq, cmpOrderedKeyV2_write, cmpV2_lt]
    have hslices := forall_slices_iff (Q := fun leaflet _ => leaflet.rows ≠ []) hbelow first rest
      hnovelty
    simpa [sliceNoveltyToLeaflets, routedIn] using hslices

theorem forall_leaf_slices_iff (leaves : List Leaf) (hnovelty : NoveltySorted order novelty) :
    (∀ p ∈ leaves.zip (sliceNoveltyToLeaves order novelty leaves),
        ∀ n ∈ p.2, p.1.FindsRows order n) ↔ ∀ n ∈ novelty, FindsRows order leaves n := by
  unfold FindsRows
  cases leaves with
  | nil => simp [routedIn]
  | cons first rest =>
    have hbelow (leaf : Leaf) (n : NoveltyOp) :
        (cmpV2ForOrder order n.key leaf.firstKey == .lt) = true ↔
          n.key.sortKey order < leaf.firstKey.sortKey order := by
      rw [beq_iff_eq, cmpV2_lt]
    have hslices := forall_slices_iff (Q := fun leaf n => leaf.FindsRows order n) hbelow first rest
      hnovelty
    simpa [sliceNoveltyToLeaves, routedIn] using hslices

theorem mergeWalk_leaflets (hleaf : leaf.Ok order) (hnovelty : NoveltySorted order novelty) :
    (leaf.leaflets.zip (sliceNoveltyToLeaflets order novelty leaf.leaflets)).flatMap
        (fun p => mergeWalk order p.1.rows p.2) = mergeWalk order leaf.rows novelty := by
  have hok := hleaf.leaflets
  have hapart := hleaf.apart
  rw [Leaf.rows]
  cases hleaflets : leaf.leaflets with
  | nil => exact absurd hleaflets hleaf.nonempty
  | cons first rest =>
    rw [hleaflets] at hok hapart
    refine mergeWalk_slices ?_ first rest (fun l hl => (hok l hl).range)
      (fun l hl => (hok l hl).first_le) (fun l hl => (hok l hl).le_last) hapart hnovelty
    intro leaflet n
    rw [beq_iff_eq, cmpOrderedKeyV2_write, cmpV2_lt]

theorem mergeWalk_leaves (branch : Branch order) (hleaves : branch.leaves ≠ [])
    (hnovelty : NoveltySorted order novelty) :
    (branch.leaves.zip (sliceNoveltyToLeaves order novelty branch.leaves)).flatMap
        (fun p => mergeWalk order p.1.rows p.2) =
      mergeWalk order (branchRows branch.leaves) novelty := by
  have hok := branch.ok
  have hapart := branch.apart
  cases hcases : branch.leaves with
  | nil => exact absurd hcases hleaves
  | cons first rest =>
    rw [hcases] at hok hapart
    refine mergeWalk_slices ?_ first rest (fun l hl => (hok l hl).range)
      (fun l hl _ hrow => (hok l hl).first_le_row hrow)
      (fun l hl _ hrow => (hok l hl).row_le_last hrow) hapart hnovelty
    intro leaf n
    rw [beq_iff_eq, cmpV2_lt]

theorem updateLeaf_rows (hleaf : leaf.Ok order) (leafletTarget leafTarget : ℕ)
    (hnovelty : NoveltySorted order novelty) (hread : ∀ n ∈ novelty, leaf.FindsRows order n) :
    ∃ leaves, updateLeaf sort order leafletTarget leafTarget leaf novelty = some leaves ∧
      branchRows leaves = (mergeWalk order leaf.rows novelty).flatMap mergedRows := by
  by_cases hempty : novelty = []
  · refine ⟨[leaf], by simp [updateLeaf, hempty], ?_⟩
    rw [hempty, mergedRows_nil]
    simp [branchRows]
  · obtain ⟨processed, hprocessed, hrows⟩ := exists_mapM
      (l := leaf.leaflets.zip (sliceNoveltyToLeaflets order novelty leaf.leaflets))
      fun p hp => @processLeaflet_rows order sort leafletTarget p.1 p.2
        ((forall_leaflet_slices_iff leaf hnovelty).mpr hread p hp)
    refine ⟨(groupLeaves leafTarget 0 [] processed.flatten).map buildLeafFromGroup,
      by simp [updateLeaf, hempty, hprocessed], ?_⟩
    rw [branchRows_groupLeaves, flatMap_flatten, flatMap_of_forall₂ hrows,
      ← mergeWalk_leaflets hleaf hnovelty, flatMap_assoc]

theorem updateLeaf_eq_none (leafletTarget leafTarget : ℕ) (hnovelty : NoveltySorted order novelty)
    (hunread : ¬ ∀ n ∈ novelty, leaf.FindsRows order n) :
    updateLeaf sort order leafletTarget leafTarget leaf novelty = none := by
  have hempty : novelty ≠ [] := by
    rintro rfl
    simp at hunread
  rw [← forall_leaflet_slices_iff leaf hnovelty] at hunread
  push Not at hunread
  obtain ⟨p, hp, n, hn, hrows⟩ := hunread
  have hnone : processLeaflet sort order leafletTarget p.1 p.2 = none :=
    processLeaflet_eq_none sort leafletTarget hrows (ne_nil_of_mem hn)
  have hprocessed := mapM_eq_none (f := fun p => processLeaflet sort order leafletTarget p.1 p.2)
    hp hnone
  simp [updateLeaf, hempty, hprocessed]

theorem processLeaf_eq (targets : LeafTargets) (leaf : Leaf) (slice : List NoveltyOp) :
    processLeaf sort order targets leaf slice = updateLeaf sort order targets.leafletRows
      (leafTargetFor targets leaf slice) leaf slice := by
  cases slice <;> rfl

theorem processLeaf_rows (hleaf : leaf.Ok order) (targets : LeafTargets) {slice : List NoveltyOp}
    (hslice : NoveltySorted order slice) (hread : ∀ n ∈ slice, leaf.FindsRows order n) :
    ∃ leaves, processLeaf sort order targets leaf slice = some leaves ∧
      branchRows leaves = (mergeWalk order leaf.rows slice).flatMap mergedRows := by
  rw [processLeaf_eq]
  exact updateLeaf_rows sort hleaf targets.leafletRows _ hslice hread

theorem mem_sliceAt {β γ : Type*} {below : γ → β → Bool} {cs : List γ} {bs slice : List β}
    (h : slice ∈ sliceAt below cs bs) : slice.Sublist bs := by
  induction cs generalizing bs with
  | nil => rw [mem_singleton.mp h]
  | cons c cs ih =>
    rcases mem_cons.mp h with rfl | h
    · exact take_sublist _ _
    · exact (ih h).trans (drop_sublist _ _)

theorem mem_sliceNoveltyToLeaves {novelty slice : List NoveltyOp} {leaves : List Leaf}
    (h : slice ∈ sliceNoveltyToLeaves order novelty leaves) : slice.Sublist novelty := by
  cases leaves with
  | nil => cases h
  | cons first => exact mem_sliceAt h

/-- The update of a branch with leaves is one merge of all rows with all novelty. -/
theorem updateBranch_rows (targets : LeafTargets) (branch : Branch order)
    (hleaves : branch.leaves ≠ []) (hnovelty : NoveltySorted order novelty)
    (hread : ∀ n ∈ novelty, FindsRows order branch.leaves n) :
    ∃ leaves, updateBranch sort order targets branch.leaves novelty = some leaves ∧
      branchRows leaves = (mergeWalk order (branchRows branch.leaves) novelty).flatMap mergedRows := by
  obtain ⟨updated, hupdated, hrows⟩ := exists_mapM
    (l := branch.leaves.zip (sliceNoveltyToLeaves order novelty branch.leaves))
    fun p hp => processLeaf_rows sort (branch.ok p.1 (of_mem_zip hp).1) targets
      (hnovelty.sublist (mem_sliceNoveltyToLeaves (of_mem_zip hp).2))
      ((forall_leaf_slices_iff branch.leaves hnovelty).mpr hread p hp)
  refine ⟨updated.flatten, by simp [updateBranch, hupdated], ?_⟩
  have hflatten : branchRows updated.flatten = updated.flatMap branchRows := flatMap_flatten _ _
  rw [hflatten, flatMap_of_forall₂ hrows, ← mergeWalk_leaves branch hleaves hnovelty,
    flatMap_assoc]

/-- A record that goes to a leaflet without rows fails the update. -/
theorem updateBranch_eq_none (targets : LeafTargets) {leaves : List Leaf}
    (hnovelty : NoveltySorted order novelty)
    (hunread : ¬ ∀ n ∈ novelty, FindsRows order leaves n) :
    updateBranch sort order targets leaves novelty = none := by
  rw [← forall_leaf_slices_iff leaves hnovelty] at hunread
  push Not at hunread
  obtain ⟨p, hp, n, hn, hrows⟩ := hunread
  have hnone : processLeaf sort order targets p.1 p.2 = none := by
    rw [processLeaf_eq]
    exact updateLeaf_eq_none sort _ _
      (hnovelty.sublist (mem_sliceNoveltyToLeaves (of_mem_zip hp).2)) fun h => hrows (h n hn)
  have hprocessed := mapM_eq_none (f := fun p => processLeaf sort order targets p.1 p.2) hp hnone
  simp [updateBranch, hprocessed]

/-- A branch without leaves has no slices, and the novelty is dropped. -/
theorem updateBranch_nil (targets : LeafTargets) (novelty : List NoveltyOp) :
    updateBranch sort order targets [] novelty = some [] := rfl

/-! ### The current state -/

section

/-- What is said about facts: the rows of the base, as asserts, and the novelty. -/
def statements (base : List Row) (novelty : List NoveltyOp) : List (Row × Bool) :=
  base.map (fun row => (row, true)) ++ novelty.map fun n => (n.toRow, n.op)

/-- The statement of highest `t` on the row's fact is the assert of this row. -/
def CurrentRow (statements : List (Row × Bool)) (row : Row) : Prop :=
  (row, true) ∈ statements ∧ ∀ s ∈ statements, s.1.key = row.key → s.1.t ≤ row.t

instance (statements : List (Row × Bool)) (row : Row) : Decidable (CurrentRow statements row) :=
  inferInstanceAs (Decidable (_ ∧ _))

/-- The leaves hold the current state: in order, each fact once, with the `t` of its last
assert. -/
def HoldsCurrent (order : RunSortOrder) (statements : List (Row × Bool)) (leaves : List Leaf) :
    Prop :=
  RowsSorted order (branchRows leaves) ∧
    ∀ row, row ∈ branchRows leaves ↔ CurrentRow statements row

/-- What the records must be like for the task. In a branch with leaves, every record must go to
a leaflet with rows and every assert must be the last operation on its fact. In a branch
without leaves, no fact may come to stand. For a fresh branch there must be no retract and no
second record of a fact, and the last row must not be stranded. -/
def TaskSafe (sort : UnstableSort) (config : IndexerConfig) (order : RunSortOrder)
    (base : Option (Branch order)) (records : List NoveltyOp) : Prop :=
  match base with
  | some branch =>
    if branch.leaves = [] then
      ∀ n ∈ records, n.op = true → ∃ n' ∈ records, n'.key = n.key ∧ n.t < n'.t
    else (∀ n ∈ records, FindsRows order branch.leaves n) ∧
      ∀ n ∈ records, n.op = true → ∀ n' ∈ records, n'.key = n.key → n'.t ≤ n.t
  | none =>
    (∀ n ∈ records, n.op = true) ∧ records.Pairwise (fun n n' => n.key ≠ n'.key) ∧
      ¬LeafWriter.Stranded order config.targets
        ((sort.sort (fun a b => cmpV2ForOrder order a.key b.key) records).map fun n => n.toRow)

end

section

variable {config : IndexerConfig} {t₀ : U32} {records : List NoveltyOp}

theorem sorted_records (order : RunSortOrder) (records : List NoveltyOp) :
    NoveltySorted order (sort.sort (fun a b => cmpV2ForOrder order a.key b.key) records) := by
  have htrans : Std.TransCmp fun a b : NoveltyOp => cmpV2ForOrder order a.key b.key :=
    @transCmp_of_compares NoveltyOp (List ℕ) _ _ (fun n => n.key.sortKey order)
      fun a b => cmpV2_compares order a.key b.key
  refine (sort.sorted _ records).imp fun hle => ?_
  exact cmpV2_isLE.mp hle

theorem mem_sorted {n : NoveltyOp} :
    n ∈ sort.sort (fun a b => cmpV2ForOrder order a.key b.key) records ↔ n ∈ records :=
  (sort.perm _ records).mem_iff

/-- The current rows: those of the base that nothing is said about, and the asserts that are
last. -/
theorem currentRow_iff {base : List Row} (hbase : ∀ row ∈ base, row.t ≤ t₀)
    (hsorted : RowsSorted order base) (hlater : ∀ n ∈ records, t₀ < n.t) (row : Row) :
    CurrentRow (statements base records) row ↔
      (row ∈ base ∧ ∀ n ∈ records, n.key ≠ row.key) ∨
        ∃ n ∈ records, n.op = true ∧ n.toRow = row ∧
          ∀ n' ∈ records, n'.key = n.key → n'.t ≤ n.t := by
  simp only [CurrentRow, statements, mem_append, mem_map, Prod.mk.injEq, and_true,
    exists_eq_right]
  constructor
  · rintro ⟨hrow | ⟨n, hn, rfl, hop⟩, hlast⟩
    · refine .inl ⟨hrow, fun n hn hkey => ?_⟩
      have hle := hlast (n.toRow, n.op) (.inr ⟨n, hn, rfl⟩) hkey
      exact absurd (hle.trans (hbase row hrow)) (not_le.mpr (hlater n hn))
    · exact .inr ⟨n, hn, hop, rfl, fun n' hn' hkey =>
        hlast (n'.toRow, n'.op) (.inr ⟨n', hn', rfl⟩) hkey⟩
  · rintro (⟨hrow, hnone⟩ | ⟨n, hn, hop, rfl, hlast⟩)
    · refine ⟨.inl hrow, ?_⟩
      rintro s (⟨row', hrow', rfl⟩ | ⟨n, hn, rfl⟩) hkey
      · rw [hsorted.eq_of_key hrow' hrow hkey]
      · exact absurd hkey (hnone n hn)
    · refine ⟨.inr ⟨n, hn, rfl, hop⟩, ?_⟩
      rintro s (⟨row', hrow', rfl⟩ | ⟨n', hn', rfl⟩) hkey
      · exact (hbase row' hrow').trans (hlater n hn).le
      · exact hlast n' hn' hkey

theorem updateBranch_current_iff {branch : Branch order} (hleaves : branch.leaves ≠ [])
    (hbase : ∀ row ∈ branchRows branch.leaves, row.t ≤ t₀) (hlater : ∀ n ∈ records, t₀ < n.t)
    (honce : records.Pairwise fun n n' => ¬(n.key = n'.key ∧ n.t = n'.t)) :
    (∃ leaves, updateBranch sort order config.targets branch.leaves
          (sort.sort (fun a b => cmpV2ForOrder order a.key b.key) records) = some leaves ∧
        HoldsCurrent order (statements (branchRows branch.leaves) records) leaves) ↔
      (∀ n ∈ records, FindsRows order branch.leaves n) ∧
        ∀ n ∈ records, n.op = true → ∀ n' ∈ records, n'.key = n.key → n'.t ≤ n.t := by
  have hsorted := sorted_records sort order records
  have hfinds : (∀ n ∈ sort.sort (fun a b => cmpV2ForOrder order a.key b.key) records,
      FindsRows order branch.leaves n) ↔ ∀ n ∈ records, FindsRows order branch.leaves n := by
    simp only [mem_sorted]
  by_cases hread : ∀ n ∈ records, FindsRows order branch.leaves n
  swap
  · rw [updateBranch_eq_none sort config.targets hsorted (hfinds.not.mpr hread)]
    simp [hread]
  rw [and_iff_right hread]
  obtain ⟨leaves, hupdate, hrows⟩ := updateBranch_rows sort config.targets branch hleaves hsorted
    (hfinds.mpr hread)
  have hmem : ∀ row, row ∈ branchRows leaves ↔
      (row ∈ branchRows branch.leaves ∧ ∀ n ∈ records, n.key ≠ row.key) ∨
        ∃ n ∈ records, n.op = true ∧ n.toRow = row := by
    intro row
    rw [hrows, mem_mergedRows branch.sorted hsorted]
    simp only [mem_sorted]
  have hcurrent := currentRow_iff hbase branch.sorted hlater
  constructor
  · rintro ⟨leaves', hupdate', -, hholds⟩ n hn hop
    obtain rfl : leaves = leaves' := Option.some.inj (hupdate.symm.trans hupdate')
    have hrow := (hholds n.toRow).mp ((hmem n.toRow).mpr (.inr ⟨n, hn, hop, rfl⟩))
    rcases (hcurrent n.toRow).mp hrow with ⟨-, hnone⟩ | ⟨n₁, -, -, heq, hlast⟩
    · exact absurd rfl (hnone n hn)
    · have hkey : n₁.key = n.key := congrArg Row.key heq
      have ht : n₁.t = n.t := congrArg Row.t heq
      intro n' hn' hkey'
      exact ht ▸ hlast n' hn' (hkey'.trans hkey.symm)
  · intro hsafe
    have hone : records.Pairwise fun a b => ¬(a.key = b.key ∧ a.op = true ∧ b.op = true) := by
      refine honce.imp_of_mem fun ha hb hne hboth => hne ⟨hboth.1, ?_⟩
      exact le_antisymm (hsafe _ hb hboth.2.2 _ ha hboth.1) (hsafe _ ha hboth.2.1 _ hb hboth.1.symm)
    have hone' := ((sort.perm (fun a b => cmpV2ForOrder order a.key b.key)
      records).pairwise_iff fun h hboth => h ⟨hboth.1.symm, hboth.2.2, hboth.2.1⟩).mpr hone
    refine ⟨leaves, hupdate, ?_, fun row => ?_⟩
    · rw [hrows]
      exact mergedRows_sorted branch.sorted hsorted hone'
    · rw [hmem, hcurrent]
      refine or_congr_right ⟨?_, ?_⟩
      · rintro ⟨n, hn, hop, rfl⟩
        exact ⟨n, hn, hop, rfl, hsafe n hn hop⟩
      · rintro ⟨n, hn, hop, rfl, -⟩
        exact ⟨n, hn, hop, rfl⟩

theorem empty_current_iff (hlater : ∀ n ∈ records, t₀ < n.t) :
    HoldsCurrent order (statements [] records) [] ↔
      ∀ n ∈ records, n.op = true → ∃ n' ∈ records, n'.key = n.key ∧ n.t < n'.t := by
  have hcurrent := @currentRow_iff order t₀ records [] (by simp) Pairwise.nil hlater
  simp only [HoldsCurrent, hcurrent, branchRows, flatMap_nil, not_mem_nil, false_and,
    false_or, false_iff]
  constructor
  · rintro ⟨-, hnone⟩ n hn hop
    by_contra hlast
    refine hnone n.toRow ⟨n, hn, hop, rfl, fun n' hn' hkey => ?_⟩
    exact not_lt.mp fun hlt => hlast ⟨n', hn', hkey, hlt⟩
  · intro h
    refine ⟨Pairwise.nil, ?_⟩
    rintro row ⟨n, hn, hop, -, hlast⟩
    obtain ⟨n', hn', hkey, hlt⟩ := h n hn hop
    exact absurd (hlast n' hn' hkey) (not_le.mpr hlt)

theorem writeLeaves_current_iff (hlater : ∀ n ∈ records, t₀ < n.t) :
    (∃ leaves, LeafWriter.writeLeaves sort order config.targets
          ((sort.sort (fun a b => cmpV2ForOrder order a.key b.key) records).map
            fun n => n.toRow) = some leaves ∧
        HoldsCurrent order (statements [] records) leaves) ↔
      TaskSafe sort config order none records := by
  set sorted := sort.sort (fun a b => cmpV2ForOrder order a.key b.key) records with hsort
  have hsorted : NoveltySorted order sorted := sorted_records sort order records
  have hcurrent := @currentRow_iff order t₀ records [] (by simp) Pairwise.nil hlater
  have hmem : ∀ row, row ∈ sorted.map (fun n => n.toRow) ↔ ∃ n ∈ records, n.toRow = row := by
    intro row
    simp only [mem_map, hsort, mem_sorted]
  have hdistinct : (sorted.Pairwise fun n n' => n.key ≠ n'.key) ↔
      records.Pairwise fun n n' => n.key ≠ n'.key :=
    (sort.perm _ records).pairwise_iff fun h => h.symm
  have hsame : (records.Pairwise fun n n' => n.key ≠ n'.key) →
      ∀ n ∈ records, ∀ n' ∈ records, n.key = n'.key → n = n' := fun hpair n hn n' hn' =>
    inj_on_of_nodup_map (pairwise_map.mpr hpair) hn hn'
  obtain ⟨hpanic, hwritten⟩ := @LeafWriter.writeLeaves_spec sort order config.targets
    (sorted.map fun n => n.toRow)
  constructor
  · rintro ⟨leaves, hwrite, hrows, hholds⟩
    have hopen : ¬LeafWriter.Stranded order config.targets (sorted.map fun n => n.toRow) := by
      intro hstranded
      rw [hpanic hstranded] at hwrite
      cases hwrite
    obtain ⟨leaves', hwrite', hleaves⟩ := hwritten hopen
    obtain rfl : leaves' = leaves := Option.some.inj (hwrite'.symm.trans hwrite)
    rw [hleaves] at hrows hholds
    have hpair : records.Pairwise fun n n' => n.key ≠ n'.key := by
      have hnodup := hrows.keys_nodup
      rw [map_map] at hnodup
      exact hdistinct.mp (pairwise_map.mp hnodup)
    refine ⟨fun n hn => ?_, hpair, hopen⟩
    rcases (hcurrent _).mp ((hholds _).mp ((hmem n.toRow).mpr ⟨n, hn, rfl⟩)) with
      ⟨hnil, -⟩ | ⟨n₁, hn₁, hop, heq, -⟩
    · cases hnil
    · rw [hsame hpair n hn n₁ hn₁ (congrArg Row.key heq).symm]
      exact hop
  · rintro ⟨hassert, hpair, hopen⟩
    obtain ⟨leaves, hwrite, hleaves⟩ := hwritten hopen
    refine ⟨leaves, hwrite, ?_, fun row => ?_⟩
    · rw [hleaves]
      refine pairwise_map.mpr ((hsorted.and (hdistinct.mpr hpair)).imp ?_)
      intro a b hab
      exact lt_of_le_of_ne hab.1 fun heq => hab.2 (FactKeyV3.sortKey_inj.mp heq)
    · rw [hleaves, hmem, hcurrent]
      constructor
      · rintro ⟨n, hn, rfl⟩
        refine .inr ⟨n, hn, hassert n hn, rfl, fun n' hn' hkey => ?_⟩
        rw [hsame hpair n' hn' n hn hkey]
      · rintro (⟨hnil, -⟩ | ⟨n, hn, -, rfl, -⟩)
        · cases hnil
        · exact ⟨n, hn, rfl⟩

def baseRows (base : Option (Branch order)) : List Row :=
  base.elim [] fun branch => branchRows branch.leaves

theorem phase2Task_current_iff {base : Option (Branch order)}
    (hbase : ∀ row ∈ baseRows base, row.t ≤ t₀) (hlater : ∀ n ∈ records, t₀ < n.t)
    (honce : records.Pairwise fun n n' => ¬(n.key = n'.key ∧ n.t = n'.t)) :
    (∃ leaves, phase2Task sort config order base records = some leaves ∧
        HoldsCurrent order (statements (baseRows base) records) leaves) ↔
      TaskSafe sort config order base records := by
  cases base with
  | none =>
    by_cases hempty : records = []
    · subst hempty
      refine ⟨fun _ => ⟨by simp, Pairwise.nil, ?_⟩, fun _ => ⟨[], by simp [phase2Task], ?_⟩⟩
      · have hnil : sort.sort (fun a b => cmpV2ForOrder order a.key b.key) ([] : List NoveltyOp) =
            [] := (sort.perm _ []).eq_nil
        rw [hnil]
        rintro ⟨before, leaflet, row, hcuts, -, -⟩
        simp [LeafWriter.leafletCuts] at hcuts
      · exact (@empty_current_iff order t₀ [] (by simp)).mpr (by simp)
    · simp only [phase2Task, List.isEmpty_iff, hempty]
      exact writeLeaves_current_iff sort hlater
  | some branch =>
    simp only [phase2Task, TaskSafe]
    by_cases hleaves : branch.leaves = []
    · have hrows : baseRows (some branch) = [] := by simp [baseRows, hleaves, branchRows]
      have hresult : (if records.isEmpty = true then some branch.leaves
          else updateBranch sort order config.targets branch.leaves
            (sort.sort (fun a b => cmpV2ForOrder order a.key b.key) records)) = some [] := by
        rw [hleaves, updateBranch_nil, ite_self]
      rw [hresult, hrows, if_pos hleaves, ← @empty_current_iff order t₀ records hlater]
      simp
    · rw [if_neg hleaves]
      by_cases hempty : records = []
      · subst hempty
        refine ⟨fun _ => by simp, fun _ => ⟨branch.leaves, by simp, branch.sorted, fun row => ?_⟩⟩
        rw [currentRow_iff hbase branch.sorted hlater]
        simp [baseRows]
      · simp only [List.isEmpty_iff, hempty]
        exact updateBranch_current_iff sort hleaves hbase hlater honce

end

namespace Sample

def leaflet : Leaflet := ⟨key 1 1, key 1 1, none, none, [⟨key 1 1, 1⟩], []⟩

def branch : Branch .spot where
  leaves := [⟨key 1 1, key 1 1, [leaflet]⟩]
  ok := by
    intro leaf hleaf
    obtain rfl := mem_singleton.mp hleaf
    refine ⟨by simp, ?_, by simp, by simp [leaflet], by simp [leaflet]⟩
    intro l hl
    obtain rfl := mem_singleton.mp hl
    exact ⟨by simp [leaflet, RowsSorted], le_rfl, by simp [leaflet], by simp [leaflet],
      by simp [leaflet], by simp [leaflet]⟩
  apart := by simp

/-- The branch after its only row was retracted. -/
def emptied : Branch .opst where
  leaves := [⟨key 1 1, key 1 1, [{ leaflet with rows := [] }]⟩]
  ok := by
    intro leaf hleaf
    obtain rfl := mem_singleton.mp hleaf
    refine ⟨by simp, ?_, by simp, by simp [leaflet], by simp [leaflet]⟩
    intro l hl
    obtain rfl := mem_singleton.mp hl
    exact ⟨List.Pairwise.nil, le_rfl, by simp, by simp, by simp, by simp⟩
  apart := by simp

/-- The default graph has a branch in SPOT, one without leaves in PSOT and an emptied one in
OPST. -/
def root : IndexRoot
  | 0, .spot => some branch
  | 0, .psot => some ⟨[], by simp, List.Pairwise.nil⟩
  | 0, .opst => some emptied
  | _, _ => none

def config : IndexerConfig := ⟨2, 1⟩

theorem root_base (gId : U16) (order : RunSortOrder) :
    ∀ row ∈ baseRows (root gId order), row.t ≤ 1 := by
  intro row hrow
  unfold root at hrow
  split at hrow
  · obtain rfl : row = ⟨key 1 1, 1⟩ := by
      simpa [baseRows, branch, branchRows, Leaf.rows, leaflet] using hrow
    exact le_rfl
  · simp [baseRows, branchRows] at hrow
  · simp [baseRows, branchRows, emptied, Leaf.rows] at hrow
  · simp [baseRows] at hrow

end Sample

open Sample
open UnstableSort (insertionSort)

end FlureeDb.Index
