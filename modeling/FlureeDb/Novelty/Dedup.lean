import FlureeDb.Novelty.Segmentation

/-!
The latest operations against what is stored. Clearing reads them anew through
handles, so they are right only while handles resolve. In every state that calls lead
to, with bulk loads that leave segments that can be named, the operation known for a
fact is not earlier than any stored one, and it is stored itself if it is a retract.
A bulk load may leave it ahead of what is stored: the walk drops stored asserts.
-/

namespace FlureeDb.Novelty

open FlureeDb.Core Lib List OpLog

variable {V : Type} [ObjectValue V] (sort : Bool → UnstableSort)

theorem foldlM_eq_some {σ α : Type} {f : σ → α → Option σ} {f' : σ → α → σ} {l : List α}
    (h : ∀ a ∈ l, ∀ s, f s a = some (f' s a)) (s : σ) : l.foldlM f s = some (l.foldl f' s) := by
  induction l generalizing s with
  | nil => rfl
  | cons a l ih =>
    rw [foldlM_cons, h a mem_cons_self]
    exact ih (fun b hb => h b (mem_cons_of_mem _ hb)) _

variable (n : Novelty V)

theorem fullRead_perm (g : ℕ) (index : IndexType) :
    (n.readFlakes g index none none true).Perm (n.stored g) := by
  have h := readFlakes_perm n g index none none true
  have hall : n.expected g index none none true = n.stored g :=
    filter_eq_self.mpr fun f _ => rfl
  rwa [hall] at h

variable (fs : FactState V)

/-- What reading one graph records. -/
def recordGraph (g : ℕ) : FactState V :=
  if (n.graphs.get g).isEmpty then fs
  else fs.recordAll g (n.readFlakes g .spot none none true)

theorem recordGraph_self (g : ℕ) (key : Flake V) :
    (n.recordGraph fs g).get g key =
      (opsOf key (n.stored g)).foldl latest (fs.get g key) := by
  unfold recordGraph
  split
  next hempty =>
    unfold stored
    rw [isEmpty_iff.mp hempty]
    rfl
  next =>
    rw [FactState.get_recordAll]
    refine foldl_latest_congr (fun op => ?_) _
    exact (opsOf_perm (fullRead_perm n g .spot) key).mem_iff

theorem recordGraph_other {g h : ℕ} (hne : h ≠ g)
    (key : Flake V) : (n.recordGraph fs g).get h key = fs.get h key := by
  unfold recordGraph
  split
  · rfl
  · exact FactState.get_recordAll_of_graph fs hne _ key

variable {n}

/-- While handles resolve, the latest operations are rebuilt from what is stored. -/
theorem rebuildFactState_get (hn : ∀ g : GraphId, n.Addressable g) :
    ∃ fs, n.rebuildFactState = some fs ∧ ∀ (g : GraphId) (key : Flake V),
      fs.get g key = (opsOf key (n.stored g)).foldl latest none := by
  have hrebuild : n.rebuildFactState =
      some ((range n.graphs.slots.length).foldl n.recordGraph FactState.new) := by
    refine foldlM_eq_some (fun g hg fs => ?_) _
    have hlt : g < 2 ^ 16 := lt_of_lt_of_le (mem_range.mp hg) n.graphs.fits
    unfold recordGraph
    split
    · rfl
    · have hread := mapM_eq_some (readIds_resolve .spot none none true hlt (hn ⟨g, hlt⟩))
      unfold sliceForRange
      rw [hread]
      rfl
  refine ⟨_, hrebuild, fun g key => ?_⟩
  have hfold := foldl_component n.recordGraph (fun fs g => fs.get g key)
    (fun g cur => (opsOf key (n.stored g)).foldl latest cur)
    (fun fs g => recordGraph_self n fs g key)
    (fun fs g h hne => recordGraph_other n fs hne key)
    (range n.graphs.slots.length) nodup_range FactState.new g
  rw [hfold]
  split
  next => rfl
  next hout =>
    have hnil : n.stored g = [] := by
      unfold stored Graphs.get
      rw [getD_eq_default _ _ (not_lt.mp fun h => hout (mem_range.mpr h))]
      rfl
    rw [hnil]
    rfl

theorem stored_eq_nil (hsound : n.Sound) (hzero : n.flakeCount = 0) (g : ℕ) : n.stored g = [] := by
  have hall : n.allFlakes = [] := by
    rw [← length_eq_zero_iff, ← sum_lengths, ← hsound.count, hzero]
  unfold allFlakes at hall
  rw [flatMap_eq_nil_iff] at hall
  unfold stored
  rw [flatMap_eq_nil_iff]
  intro seg hseg
  refine hall seg (mem_flatten.mpr ⟨n.graphs.get g, ?_, hseg⟩)
  unfold Graphs.get at hseg ⊢
  by_cases hlt : g < n.graphs.slots.length
  · rw [getD_eq_getElem _ _ hlt]
    exact getElem_mem hlt
  · rw [getD_eq_default _ _ (not_lt.mp hlt)] at hseg
    cases hseg

/-- A clearing returns while handles resolve, and leaves what is later than the cutoff. If
there was anything stored, the latest operations are those of what is left. -/
theorem clearUpTo_effect (hsound : n.Sound) (hfits : n.Fits) (cutoff : ℤ) :
    ∃ n', n.clearUpTo sort cutoff = some n' ∧
      (∀ g : ℕ, n'.stored g = (n.stored g).filter fun f => cutoff < f.t) ∧
      ((n.flakeCount = 0 ∧ n' = n) ∨ ∀ (g : GraphId) (key : Flake V),
        n'.factState.get g key = (opsOf key (n'.stored g)).foldl latest none) := by
  by_cases hzero : n.flakeCount = 0
  · refine ⟨n, if_pos hzero, fun g => ?_, .inl ⟨hzero, rfl⟩⟩
    rw [stored_eq_nil hsound hzero]
    rfl
  · let cleared := { n with graphs := n.graphs.map (clearSegments sort cutoff) }.recomputeTotals
    have hget : ∀ g, cleared.graphs.get g = clearSegments sort cutoff (n.graphs.get g) :=
      clear_get sort n cutoff
    have hstored : ∀ g, cleared.stored g = (n.stored g).filter fun f => cutoff < f.t := by
      intro g
      unfold stored
      rw [hget, clearSegments_flakes]
    have haddressable : ∀ g : GraphId, cleared.Addressable g := by
      intro g
      obtain ⟨hsmall, hlength⟩ := clearSegments_small sort cutoff (hsound.small g)
      refine ⟨?_, ?_⟩
      · rw [hget]
        exact hlength.trans (hfits g)
      · rw [hget]
        exact hsmall
    obtain ⟨fs, hfs, hlatest⟩ := rebuildFactState_get haddressable
    refine ⟨{ cleared with factState := fs, epoch := n.epoch + 1 }, ?_, hstored, .inr hlatest⟩
    unfold clearUpTo
    rw [if_neg hzero]
    change (cleared.rebuildFactState >>= fun fs => _) = _
    rw [hfs]
    rfl

/-! ### The latest operations in runs -/

/-- No stored operation is later than the latest one known, and a latest one that
retracts is stored. -/
def Tracked (n : Novelty V) : Prop :=
  ∀ (g : GraphId) (key : Flake V), OpLog.Tracks (opsOf key (n.stored g)) (n.factState.get g key)

variable {n' seq : Novelty V} {reverseGraph : Sid → Option GraphId}
  {batches : List (List (Flake V) × ℤ)}

section

variable (h : n.bulkApplyCommits sort reverseGraph batches = .ok n') {g : GraphId}

include h

theorem bulkApplyCommits_stored (hg : bulkBatch reverseGraph batches g ≠ []) :
    n'.graphs.get g =
        bulkSegments sort (bulkKept sort (n.stored g) (bulkBatch reverseGraph batches g)) ∧
      n'.stored g = bulkKept sort (n.stored g) (bulkBatch reverseGraph batches g) := by
  have hstate := bulkApplyCommits_graphState sort h g
  rw [if_pos hg] at hstate
  have hsegs : n'.graphs.get g =
      bulkSegments sort (bulkKept sort (n.stored g) (bulkBatch reverseGraph batches g)) :=
    congrArg Prod.fst hstate
  refine ⟨hsegs, ?_⟩
  calc n'.stored g = (n'.graphs.get g).flatMap Segment.flakes := rfl
    _ = _ := by rw [hsegs, bulkSegments_flakes]

/-- What it leaves of a fact there. -/
theorem bulkApplyCommits_touched (hg : bulkBatch reverseGraph batches g ≠ []) (key : Flake V) :
    opsOf key (n'.stored g) =
        walk false (bulkOps sort key (n.stored g) (bulkBatch reverseGraph batches g)) ∧
      n'.factState.get g key =
        (walk false (bulkOps sort key (n.stored g)
          (bulkBatch reverseGraph batches g))).foldl latest (n.factState.get g key) := by
  have hstate := bulkApplyCommits_graphState sort h g
  rw [if_pos hg] at hstate
  have hget := congrFun (congrArg Prod.snd hstate) key
  change n'.factState.get g key =
    (opsOf key (bulkKept sort (n.stored g) _)).foldl latest (n.factState.get g key) at hget
  rw [opsOf_bulkKept] at hget
  rw [(bulkApplyCommits_stored sort h hg).2, opsOf_bulkKept]
  exact ⟨rfl, hget⟩

theorem bulkApplyCommits_untouched (hg : bulkBatch reverseGraph batches g = []) :
    n'.graphs.get g = n.graphs.get g ∧ n'.factState.get g = n.factState.get g := by
  have hstate := bulkApplyCommits_graphState sort h g
  rw [if_neg (not_not.mpr hg)] at hstate
  exact ⟨congrArg Prod.fst hstate, congrArg Prod.snd hstate⟩

end

theorem call_tracked (hsound : n.Sound) (hfits : n.Fits) (hn : n.Tracked)
    {c : Call V} (h : n.call sort c = .ok n') : n'.Tracked := by
  intro g key
  rcases call_ok sort h with ⟨reverseGraph, flakes, commitT, rfl, happly⟩ |
    ⟨reverseGraph, batches, rfl, hbulk⟩ | ⟨width, rfl, rfl⟩ | ⟨cutoff, rfl, hclear⟩
  · rw [applyCommit_stored sort happly, applyCommit_get sort happly]
    exact (hn g key).append _
  · by_cases hg : bulkBatch reverseGraph batches g = []
    · obtain ⟨hsegs, hget⟩ := bulkApplyCommits_untouched sort hbulk hg
      unfold stored
      rw [hsegs, hget]
      exact hn g key
    · obtain ⟨hstored, hget⟩ := bulkApplyCommits_touched sort hbulk hg key
      rw [hstored, hget]
      -- the walk drops no retract
      refine (hn g key).record fun t ht => ?_
      rw [mem_walk_retract, mem_bulkOps]
      exact mem_append_left _ ht
  · rw [tierCompact_factState]
    exact (hn g key).congr fun op => (opsOf_perm (tierCompact_stored sort n width g) key).mem_iff
  · obtain ⟨m, hm, -, heffect⟩ := clearUpTo_effect sort hsound hfits cutoff
    obtain rfl : m = n' := Option.some.inj (hm.symm.trans hclear)
    rcases heffect with ⟨-, rfl⟩ | hget
    · exact hn g key
    · rw [hget]
      exact tracks_empty.record fun t ht => by cases ht

theorem ReachableFitting.tracked {t₀ : ℤ} (h : ReachableFitting sort t₀ n) : n.Tracked := by
  induction h with
  | start => exact fun _ _ => tracks_empty
  | step hreached htaken _ ih =>
    exact call_tracked sort (reachable sort hreached).sound
      (fits sort hreached) ih htaken

/-! ### Commit by commit -/

def applyCommits (n : Novelty V) (reverseGraph : Sid → Option GraphId)
    (batches : List (List (Flake V) × ℤ)) : Except NoveltyError (Novelty V) :=
  batches.foldlM (fun n batch => n.applyCommit sort reverseGraph batch.1 batch.2) n

/-- The operations on a fact of a graph, batch by batch. -/
def opBatches (reverseGraph : Sid → Option GraphId) (g : GraphId) (key : Flake V)
    (batches : List (List (Flake V) × ℤ)) : List OpLog :=
  batches.map fun batch => opsOf key (batch.1.filter (routesTo reverseGraph g))

theorem flatten_opBatches (g : GraphId) (key : Flake V) :
    (opBatches reverseGraph g key batches).flatten =
      opsOf key (bulkBatch reverseGraph batches g) := by
  unfold opBatches bulkBatch
  induction batches with
  | nil => rfl
  | cons batch batches ih =>
    rw [map_cons, flatten_cons, ih, flatMap_cons, filter_append,
      opsOf_append]

theorem timed_opBatches (htimes : batches.Pairwise fun a b => a.2 < b.2)
    (hcarry : ∀ batch ∈ batches, ∀ f ∈ batch.1, f.t = batch.2)
    (reverseGraph : Sid → Option GraphId) (g : GraphId) (key : Flake V) :
    OpLog.Timed (opBatches reverseGraph g key batches) := by
  have htime : ∀ batch ∈ batches,
      ∀ op ∈ opsOf key (batch.1.filter (routesTo reverseGraph g)), op.1 = batch.2 := by
    intro batch hbatch op hop
    obtain ⟨f, hf, -, rfl⟩ := mem_opsOf.mp hop
    exact hcarry batch hbatch f (mem_of_mem_filter hf)
  clear hcarry
  induction batches with
  | nil => trivial
  | cons batch batches ih =>
    obtain ⟨hlater, htail⟩ := pairwise_cons.mp htimes
    refine ⟨⟨batch.2, htime batch mem_cons_self, fun op hop => ?_⟩,
      ih htail fun b hb => htime b (mem_cons_of_mem _ hb)⟩
    obtain ⟨log, hlog, hop⟩ := mem_flatten.mp hop
    obtain ⟨b, hb, rfl⟩ := mem_map.mp hlog
    rw [htime b (mem_cons_of_mem _ hb) op hop]
    exact hlater b hb

theorem applyCommits_cons {batch : List (Flake V) × ℤ}
    (h : n.applyCommits sort reverseGraph (batch :: batches) = .ok seq) :
    ∃ next, n.applyCommit sort reverseGraph batch.1 batch.2 = .ok next ∧
      next.applyCommits sort reverseGraph batches = .ok seq := by
  unfold applyCommits at h ⊢
  exact Checked.bind_eq_ok.mp h

/-- Commits one after the other treat every fact for itself. -/
theorem applyCommits_effect
    (h : n.applyCommits sort reverseGraph batches = .ok seq) (g : GraphId) (key : Flake V) :
    opsOf key (seq.stored g) = opsOf key (n.stored g) ++
        (applyBatches (n.factState.get g key) (opBatches reverseGraph g key batches)).1 ∧
      seq.factState.get g key =
        (applyBatches (n.factState.get g key) (opBatches reverseGraph g key batches)).2 := by
  induction batches generalizing n with
  | nil =>
    cases h
    exact ⟨(append_nil _).symm, rfl⟩
  | cons batch batches ih =>
    obtain ⟨next, hnext, hrest⟩ := applyCommits_cons sort h
    obtain ⟨hstored, hget⟩ := ih hrest
    rw [applyCommit_get sort hnext g] at hstored hget
    rw [applyCommit_stored sort hnext g, append_assoc] at hstored
    exact ⟨hstored, hget⟩

omit [ObjectValue V] in
theorem resolves_of_route {flakes : List (Flake V)} {routed : List (Flake V × GraphId)}
    (h : route reverseGraph flakes = .ok routed) :
    ∀ f ∈ flakes, ∃ g, resolveFlakeGId reverseGraph f = .ok g := by
  induction flakes generalizing routed with
  | nil => exact fun _ h => by cases h
  | cons f flakes ih =>
    obtain ⟨g, rest, hg, hrest, -⟩ := route_cons_ok h
    intro x hx
    rcases mem_cons.mp hx with rfl | hx
    · exact ⟨g, hg⟩
    · exact ih hrest x hx

/-- What is applied commit by commit goes to known graphs. -/
theorem applyCommits_resolves (h : n.applyCommits sort reverseGraph batches = .ok seq) :
    ∀ f ∈ batches.flatMap Prod.fst, ∃ g, resolveFlakeGId reverseGraph f = .ok g := by
  induction batches generalizing n with
  | nil => exact fun _ h => by cases h
  | cons batch batches ih =>
    obtain ⟨next, hnext, hrest⟩ := applyCommits_cons sort h
    intro f hf
    rw [flatMap_cons, mem_append] at hf
    rcases hf with hf | hf
    · rcases applyCommit_ok sort hnext with ⟨hnil, -⟩ | ⟨-, routed, hroute, -⟩
      · rw [hnil] at hf
        cases hf
      · exact resolves_of_route hroute f hf
    · exact ih hrest f hf

/-! ### Bulk load against commit by commit -/

/-- Every fact is present at the same times. -/
def SamePresence (n n' : Novelty V) : Prop :=
  ∀ (g : GraphId) (key : Flake V) (toT : ℤ),
    presentAt (opsOf key (n.stored g)) toT = presentAt (opsOf key (n'.stored g)) toT

/-- The next commit is deduplicated the same. -/
def SameDecisions (n n' : Novelty V) : Prop :=
  ∀ (g : GraphId) (f : Flake V), n.factState.isAsserted g f = n'.factState.isAsserted g f

/-- No fact of a graph that is loaded has an assert at which the two ways part. -/
def BulkAgrees (n : Novelty V) (reverseGraph : Sid → Option GraphId)
    (batches : List (List (Flake V) × ℤ)) : Prop :=
  ∀ (g : GraphId) (key : Flake V), bulkBatch reverseGraph batches g ≠ [] →
    OpLog.Agrees (opsOf key (n.stored g)) (n.factState.get g key)
      (opsOf key (bulkBatch reverseGraph batches g))

section

variable {bulk : Novelty V} (htimes : batches.Pairwise fun a b => a.2 < b.2)
  (hcarry : ∀ batch ∈ batches, ∀ f ∈ batch.1, f.t = batch.2)
  (hseq : n.applyCommits sort reverseGraph batches = .ok seq)
  (hbulk : n.bulkApplyCommits sort reverseGraph batches = .ok bulk)

variable {g : GraphId}

include hseq hbulk in
theorem same_of_untouched (hg : bulkBatch reverseGraph batches g = []) (key : Flake V) :
    opsOf key (seq.stored g) = opsOf key (bulk.stored g) ∧
      seq.factState.get g key = bulk.factState.get g key := by
  obtain ⟨hstored, hget⟩ := applyCommits_effect sort hseq g key
  obtain ⟨hsegs, hget'⟩ := bulkApplyCommits_untouched sort hbulk hg
  have hstored' : bulk.stored g = n.stored g := congrArg (List.flatMap Segment.flakes) hsegs
  have hnone : (opBatches reverseGraph g key batches).flatten = [] := by
    rw [flatten_opBatches, hg]
    rfl
  rw [applyBatches_of_flatten_nil hnone] at hstored hget
  rw [hstored, hget, hstored', hget', append_nil]
  exact ⟨rfl, rfl⟩

include htimes hcarry hseq hbulk

theorem present_touched_iff (hg : bulkBatch reverseGraph batches g ≠ []) (key : Flake V) :
    (∀ toT, presentAt (opsOf key (seq.stored g)) toT =
        presentAt (opsOf key (bulk.stored g)) toT) ↔
      OpLog.Agrees (opsOf key (n.stored g)) (n.factState.get g key)
        (opsOf key (bulkBatch reverseGraph batches g)) := by
  have hretract := applyBatches_retract (n.factState.get g key)
    (opBatches reverseGraph g key batches)
  have hassert := applyBatches_assert (n.factState.get g key) _
    (timed_opBatches htimes hcarry reverseGraph g key)
  rw [flatten_opBatches] at hretract hassert
  rw [(applyCommits_effect sort hseq g key).1, (bulkApplyCommits_touched sort hbulk hg key).1,
    ← present_iff_agrees (bulkOps_sorted sort key _ _) (mem_bulkOps sort key _ _)
      hretract hassert]
  refine forall_congr' fun toT => ?_
  rw [Bool.eq_iff_iff, presentAt_iff, presentAt_iff]

theorem samePresence_iff : SamePresence seq bulk ↔ n.BulkAgrees reverseGraph batches := by
  constructor
  · intro hsame g key hg
    exact (present_touched_iff sort htimes hcarry hseq hbulk hg key).mp (hsame g key)
  · intro hagrees g key
    by_cases hg : bulkBatch reverseGraph batches g = []
    · intro toT
      rw [(same_of_untouched sort hseq hbulk hg key).1]
    · exact (present_touched_iff sort htimes hcarry hseq hbulk hg key).mpr (hagrees g key hg)

theorem sameDecisions_of_agrees (hn : n.Tracked) (hagrees : n.BulkAgrees reverseGraph batches) :
    SameDecisions seq bulk := by
  intro g key
  unfold FactState.isAsserted
  by_cases hg : bulkBatch reverseGraph batches g = []
  · rw [(same_of_untouched sort hseq hbulk hg key).2]
  · have hretract := applyBatches_retract (n.factState.get g key)
      (opBatches reverseGraph g key batches)
    have hassert := applyBatches_assert (n.factState.get g key) _
      (timed_opBatches htimes hcarry reverseGraph g key)
    rw [flatten_opBatches] at hretract hassert
    rw [(applyCommits_effect sort hseq g key).2, (bulkApplyCommits_touched sort hbulk hg key).2,
      Bool.eq_iff_iff, applyBatches_snd, asserted_foldl_iff, asserted_foldl_iff]
    exact (holds_walk_iff (bulkOps_sorted sort key _ _) (mem_bulkOps sort key _ _)
      hretract hassert (hn g key) (hagrees g key hg)).symm

end

/-- **Bulk load against commit by commit.** Where commits one after the other return, a
bulk load of the same batches returns. Every fact is present at the same times after
both exactly if no assert parts them, in every state; and in the states that calls lead
to, the next commit is then deduplicated the same as well. -/
theorem bulk_load_eq_commits_iff (n : Novelty V) (reverseGraph : Sid → Option GraphId)
    (batches : List (List (Flake V) × ℤ)) (htimes : batches.Pairwise fun a b => a.2 < b.2)
    (hcarry : ∀ batch ∈ batches, ∀ f ∈ batch.1, f.t = batch.2) (seq : Novelty V)
    (hseq : n.applyCommits sort reverseGraph batches = .ok seq) :
    ∃ bulk, n.bulkApplyCommits sort reverseGraph batches = .ok bulk ∧
      (SamePresence seq bulk ↔ n.BulkAgrees reverseGraph batches) ∧
      ∀ t₀, ReachableFitting sort t₀ n →
        (SamePresence seq bulk ∧ SameDecisions seq bulk ↔ n.BulkAgrees reverseGraph batches) := by
  obtain ⟨bulk, hbulk⟩ := bulkApplyCommits_total sort n (applyCommits_resolves sort hseq)
  have hpresence := samePresence_iff sort htimes hcarry hseq hbulk
  refine ⟨bulk, hbulk, hpresence, fun t₀ hn => ?_⟩
  constructor
  · rintro ⟨hsame, -⟩
    exact hpresence.mp hsame
  · intro hagrees
    exact ⟨hpresence.mpr hagrees, sameDecisions_of_agrees sort htimes hcarry hseq hbulk
      (ReachableFitting.tracked sort hn) hagrees⟩

/-- In empty novelty the two ways agree on batches that never give both operations on a
fact at one time. -/
theorem bulkAgrees_new (t : ℤ) (reverseGraph : Sid → Option GraphId)
    (batches : List (List (Flake V) × ℤ))
    (hpair : ∀ a ∈ batches.flatMap Prod.fst, ∀ b ∈ batches.flatMap Prod.fst,
      keyCmp a b = .eq → a.t = b.t → a.op = b.op) :
    (new t : Novelty V).BulkAgrees reverseGraph batches := by
  intro g key _
  refine agrees_of_no_pair fun u hassert hretract => ?_
  obtain ⟨a, ha, hka, hopa⟩ := mem_opsOf.mp hassert
  obtain ⟨b, hb, hkb, hopb⟩ := mem_opsOf.mp hretract
  obtain ⟨hta, hopa⟩ := Prod.mk.inj hopa
  obtain ⟨htb, hopb⟩ := Prod.mk.inj hopb
  have hop := hpair a (mem_of_mem_filter ha) b (mem_of_mem_filter hb)
    (keyCmp_trans (keyCmp_symm hka) hkb) (hta.trans htb.symm)
  rw [hopa, hopb] at hop
  cases hop

open Sample

/-- An assert and then a retract agree. -/
theorem bulk_load_eq_commits_of_retract :
    ∃ seq bulk : Novelty OrdinaryValue,
      (new 0).applyCommits sorts noGraphs
        [([fact 1 1 true], 1), ([fact 1 2 false], 2)] = .ok seq ∧
      (new 0).bulkApplyCommits sorts noGraphs
        [([fact 1 1 true], 1), ([fact 1 2 false], 2)] = .ok bulk ∧
      (SamePresence seq bulk ∧ SameDecisions seq bulk ↔
        (new 0).BulkAgrees noGraphs [([fact 1 1 true], 1), ([fact 1 2 false], 2)]) ∧
      (new 0 : Novelty OrdinaryValue).BulkAgrees noGraphs
        [([fact 1 1 true], 1), ([fact 1 2 false], 2)] := by
  obtain ⟨bulk, hbulk, -, hiff⟩ := bulk_load_eq_commits_iff sorts (new 0) noGraphs
    [([fact 1 1 true], 1), ([fact 1 2 false], 2)] (by decide) (by decide) _ rfl
  exact ⟨_, bulk, rfl, hbulk, hiff 0 Reach.start,
    bulkAgrees_new 0 noGraphs _ (by decide +kernel)⟩

/-- A fact asserted and retracted by one commit and asserted again by the next one is
present after commits one after the other, and absent after a bulk load. -/
theorem bulk_load_loses_reassertion :
    ∃ seq bulk : Novelty OrdinaryValue,
      (new 0).applyCommits sorts noGraphs
        [([fact 1 1 true, fact 1 1 false], 1), ([fact 1 2 true], 2)] = .ok seq ∧
      (new 0).bulkApplyCommits sorts noGraphs
        [([fact 1 1 true, fact 1 1 false], 1), ([fact 1 2 true], 2)] = .ok bulk ∧
      presentAt (opsOf (fact 1 2 true) (seq.stored 0)) 2 = true ∧
      presentAt (opsOf (fact 1 2 true) (bulk.stored 0)) 2 = false :=
  ⟨_, _, rfl, rfl, by decide +kernel, by decide +kernel⟩

end FlureeDb.Novelty
