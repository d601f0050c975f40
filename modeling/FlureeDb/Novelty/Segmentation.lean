import FlureeDb.Novelty.Layout

/-!
What a reader of novelty sees, in every state that calls lead to. The reads of a graph
are the flakes stored for it, in the range and in the order of the index, however the
segments lie; a compaction changes none of them; the counters are the sums. Handles
resolve as long as the segments of the graph can be named: a bulk load cuts a graph
into segments without counting them, and beyond 2⁴⁸ flakes the number of a segment
runs into the bits of the graph.
-/

namespace FlureeDb.Novelty

open FlureeDb.Core Lib List

variable {V : Type} [ObjectValue V] (sort : Bool → UnstableSort)

def allFlakes (n : Novelty V) : List (Flake V) := n.graphs.slots.flatten.flatMap Segment.flakes

theorem sum_lengths (n : Novelty V) :
    (n.graphs.sum fun seg => seg.flakes.length) = n.allFlakes.length := by
  unfold Graphs.sum allFlakes
  rw [length_flatMap]

theorem sum_sizes (n : Novelty V) :
    n.graphs.sum Segment.size = (n.allFlakes.map Flake.sizeBytes).sum := by
  unfold Graphs.sum allFlakes
  induction n.graphs.slots.flatten with
  | nil => rfl
  | cons seg segs ih =>
    rw [map_cons, sum_cons, ih, seg.size_eq, flatMap_cons, map_append,
      sum_append]

/-- The states that calls lead to, from empty novelty. -/
def Reachable (t₀ : ℤ) (n : Novelty V) : Prop :=
  Reach (call sort) (fun _ _ _ => True) (new t₀) n

/-- The states that calls lead to when every bulk load leaves segments that handles
can name. -/
def ReachableFitting (t₀ : ℤ) (n : Novelty V) : Prop :=
  Reach (call sort) (fun _ c n' => c.isBulk → n'.Fits) (new t₀) n

variable {t₀ : ℤ} {n : Novelty V}

theorem Reachable.sound (h : Reachable sort t₀ n) : n.Sound := by
  induction h with
  | start => exact sound_new t₀
  | step _ htaken _ ih => exact call_sound sort ih htaken

theorem ReachableFitting.reachable (h : ReachableFitting sort t₀ n) : Reachable sort t₀ n := by
  induction h with
  | start => exact Reach.start
  | step _ htaken _ ih => exact Reach.step ih htaken trivial

theorem ReachableFitting.fits (h : ReachableFitting sort t₀ n) : n.Fits := by
  induction h with
  | start => exact fun _ => Nat.zero_le _
  | step hreached htaken hok ih =>
    exact call_fits sort (reachable sort hreached).sound ih htaken hok

/-- The reads after a compaction are those before it, up to the order of flakes that
the index calls equal. -/
theorem rangeFlakes_tierCompact (n : Novelty V) (width g : ℕ) (index : IndexType)
    (first rhs : Option (Flake V)) (leftmost : Bool) :
    ((n.tierCompact sort width).1.rangeFlakes g index first rhs leftmost).Perm
      (n.rangeFlakes g index first rhs leftmost) ∧
    List.Forall₂ (fun a b => index.compare a b = .eq)
      ((n.tierCompact sort width).1.rangeFlakes g index first rhs leftmost)
      (n.rangeFlakes g index first rhs leftmost) := by
  have hperm : ((n.tierCompact sort width).1.rangeFlakes g index first rhs leftmost).Perm
      (n.rangeFlakes g index first rhs leftmost) :=
    calc (n.tierCompact sort width).1.readFlakes g index first rhs leftmost
        |>.Perm ((n.tierCompact sort width).1.expected g index first rhs leftmost) :=
          readFlakes_perm _ g index first rhs leftmost
      _ |>.Perm (n.expected g index first rhs leftmost) :=
          (tierCompact_stored sort n width g).filter _
      _ |>.Perm (n.readFlakes g index first rhs leftmost) :=
          (readFlakes_perm n g index first rhs leftmost).symm
  exact ⟨hperm, SortedBy.forall₂_of_perm (readFlakes_sorted _ g index first rhs leftmost)
    (readFlakes_sorted n g index first rhs leftmost) hperm⟩

/-- **Reads do not depend on segmentation.** In every state that calls lead to: a read of
a graph yields exactly the stored flakes in the range, in the order of the index, on the
path for one segment as on the path that merges; a compaction leaves every read; the
handles of a read resolve to its flakes while the graph has at most 2²⁴ segments, which
is so in every state where no bulk load has left more; and the length and the size are
the sums over the stored flakes. -/
theorem reads_independent_of_segmentation (t₀ : ℤ) (n : Novelty V) (hn : Reachable sort t₀ n) :
    (∀ g index first rhs leftmost,
      ((n.rangeFlakes g index first rhs leftmost).Perm
          ((n.stored g).filter (Segment.inRange index first rhs leftmost)) ∧
        SortedBy index.compare (n.rangeFlakes g index first rhs leftmost)) ∧
      (((n.graphMerge g index first rhs leftmost).map Prod.snd).Perm
          ((n.stored g).filter (Segment.inRange index first rhs leftmost)) ∧
        SortedBy index.compare ((n.graphMerge g index first rhs leftmost).map Prod.snd))) ∧
    (∀ width g index first rhs leftmost,
      ((n.tierCompact sort width).1.rangeFlakes g index first rhs leftmost).Perm
          (n.rangeFlakes g index first rhs leftmost) ∧
        List.Forall₂ (fun a b => index.compare a b = .eq)
          ((n.tierCompact sort width).1.rangeFlakes g index first rhs leftmost)
          (n.rangeFlakes g index first rhs leftmost)) ∧
    (∀ g : GraphId, (n.graphs.get g).length ≤ maxSegments → ∀ index first rhs leftmost,
      (n.sliceForRange g index first rhs leftmost).map n.getFlake =
        (n.rangeFlakes g index first rhs leftmost).map some) ∧
    (ReachableFitting sort t₀ n → n.Fits) ∧
    n.len = n.allFlakes.length ∧ n.size = (n.allFlakes.map Flake.sizeBytes).sum := by
  have hsound := Reachable.sound sort hn
  refine ⟨?_, ?_, ?_, ReachableFitting.fits sort, ?_, ?_⟩
  · intro g index first rhs leftmost
    exact ⟨⟨readFlakes_perm n g index first rhs leftmost,
      readFlakes_sorted n g index first rhs leftmost⟩,
      graphMerge_perm n g index first rhs leftmost,
      graphMerge_sorted n g index first rhs leftmost⟩
  · exact rangeFlakes_tierCompact sort n
  · intro g hfits index first rhs leftmost
    exact readIds_resolve index first rhs leftmost g.isLt (hsound.addressable hfits)
  · rw [← sum_lengths]
    exact hsound.count
  · rw [← sum_sizes]
    exact hsound.size

/-! ### Too many segments -/

variable {flakes : List (Flake V)}

theorem dedupWalk_retracts (h : ∀ f ∈ flakes, f.op = false) (state : Option (Flake V × Bool)) :
    dedupWalk state flakes = flakes := by
  induction flakes generalizing state with
  | nil => cases state <;> rfl
  | cons f flakes ih =>
    have hf : f.op = false := h f mem_cons_self
    have htail : ∀ f ∈ flakes, f.op = false := fun x hx => h x (mem_cons_of_mem _ hx)
    cases state with
    | none => exact congrArg (f :: ·) (ih htail _)
    | some state =>
      unfold dedupWalk
      rw [hf, ih htail]
      split
      · rfl
      · rfl

theorem chunkSegments_ne_nil (parallel : Bool) (rounds : ℕ) (h : flakes ≠ []) :
    ∀ seg ∈ chunkSegments sort parallel rounds flakes, seg.flakes ≠ [] := by
  fun_induction chunkSegments sort parallel rounds flakes with
  | case1 | case3 => exact forall_mem_singleton.mpr h
  | case2 rounds flakes hlarge ih =>
    refine forall_mem_cons.mpr ⟨?_, ih ?_⟩
    · rw [Segment.build_flakes, ne_eq, take_eq_nil_iff]
      exact fun h' => h'.elim (by decide) h
    · rw [ne_eq, drop_eq_nil_iff]
      omega

theorem Small.length_le {segs : List (Segment V)} (h : Small segs) :
    (segs.flatMap Segment.flakes).length ≤ segs.length * maxSegmentFlakes := by
  induction segs with
  | nil => exact Nat.zero_le _
  | cons seg segs ih =>
    have hseg := h seg mem_cons_self
    have htail := ih fun s hs => h s (mem_cons_of_mem _ hs)
    rw [flatMap_cons, length_append, length_cons, Nat.succ_mul]
    omega

theorem bulk_replicate (f : Flake V) (hg : f.g = none) (hop : f.op = false) (m : ℕ) (hm : 0 < m)
    (t : ℤ) : ∃ n : Novelty V,
      (new 0).call sort (.bulkApplyCommits (fun _ => none) [(replicate m f, t)]) = .ok n ∧
      n.graphs.get 0 = chunks sort true (replicate m f) ∧ n.graphs.get 1 = [] := by
  have hresolve : resolveFlakeGId (fun _ => none) f = .ok 0 := by
    unfold resolveFlakeGId
    rw [hg]
  have hall : [(replicate m f, t)].flatMap Prod.fst = replicate m f :=
    flatMap_singleton ..
  have hknown : ∀ x ∈ [(replicate m f, t)].flatMap Prod.fst,
      ∃ g, resolveFlakeGId (fun _ => none) x = .ok g := by
    intro x hx
    rw [hall] at hx
    rw [eq_of_mem_replicate hx]
    exact ⟨0, hresolve⟩
  obtain ⟨n, hn⟩ := bulkApplyCommits_total sort (new 0 : Novelty V) hknown
  have hbatch : ∀ g : GraphId, bulkBatch (fun _ => none) [(replicate m f, t)] g =
      if g = 0 then replicate m f else [] := by
    intro g
    unfold bulkBatch routesTo
    rw [hall]
    split
    next hzero =>
      rw [filter_eq_self]
      intro x hx
      rw [eq_of_mem_replicate hx, hresolve, hzero]
      rfl
    next hne =>
      rw [filter_eq_nil_iff]
      intro x hx
      rw [eq_of_mem_replicate hx, hresolve]
      simpa using fun h => hne h.symm
  have hzero := congrArg Prod.fst (bulkApplyCommits_graphState sort hn 0)
  have hone := congrArg Prod.fst (bulkApplyCommits_graphState sort hn 1)
  have hne : replicate m f ≠ [] := by
    rw [ne_eq, replicate_eq_nil_iff]
    omega
  rw [hbatch, if_pos rfl, if_pos hne] at hzero
  rw [hbatch] at hone
  refine ⟨n, ?_, ?_, hone⟩
  · change (bulkApplyCommits sort (new 0) _ _).mapError Failure.error = .ok n
    rw [hn]
    rfl
  · have hkept : bulkKept sort [] (replicate m f) = replicate m f := by
      have hsort : (sort true).sort bulkCmp ([] ++ replicate m f) = replicate m f :=
        perm_replicate.mp ((sort true).perm bulkCmp _)
      unfold bulkKept
      rw [hsort]
      exact dedupWalk_retracts (fun x hx => by rw [eq_of_mem_replicate hx, hop]) none
    refine hzero.trans ?_
    change bulkSegments sort (bulkKept sort [] (replicate m f)) = _
    rw [hkept]
    unfold bulkSegments
    rw [if_neg (by rw [List.isEmpty_iff]; exact hne)]

/-- The first segment that cannot be named passes for a segment of the next graph. -/
theorem pack_overflow (loc : ℕ) : FlakeId.pack 0 maxSegments loc = FlakeId.pack 1 0 loc := by
  have hbits : 0 <<< 48 ||| maxSegments <<< 24 = 1 <<< 48 ||| 0 <<< 24 := by decide
  exact congrArg (fun raw => FlakeId.mk ((raw ||| loc) % 2 ^ 64)) hbits

/-- With more than 2⁴⁸ flakes in the default graph and none in the next one, some handle
of a full read resolves to nothing. -/
theorem unresolved_of_replicate (f : Flake V) (hg : f.g = none) (hop : f.op = false) (t : ℤ) :
    ∃ n : Novelty V, Reachable sort 0 n ∧
      ∃ id ∈ n.sliceForRange 0 .spot none none true, n.getFlake id = none := by
  obtain ⟨n, hcall, hzero, hone⟩ := bulk_replicate sort f hg hop (2 ^ 48 + 1) (by omega) t
  refine ⟨n, Reach.step Reach.start hcall trivial, ?_⟩
  obtain ⟨hsmall, -⟩ := chunks_small sort true (replicate (2 ^ 48 + 1) f)
  have hlength : maxSegments < (n.graphs.get 0).length := by
    have h := Small.length_le hsmall
    rw [chunks_flakes, length_replicate, ← hzero,
      show maxSegmentFlakes = 2 ^ 24 from rfl] at h
    rw [show maxSegments = 2 ^ 24 from rfl]
    omega
  -- the segment behind the last name, and an entry of it
  obtain ⟨seg, hseg⟩ : ∃ seg, (n.graphs.get 0)[maxSegments]? = some seg :=
    ⟨_, getElem?_eq_getElem hlength⟩
  have hmem : seg ∈ chunks sort true (replicate (2 ^ 48 + 1) f) := by
    rw [← hzero]
    exact mem_of_getElem? hseg
  have hne : seg.order .spot ≠ [] := by
    intro hnil
    have hperm := seg.order_perm .spot
    rw [hnil] at hperm
    refine chunkSegments_ne_nil sort true _ ?_ seg hmem ?_
    · rw [ne_eq, replicate_eq_nil_iff]
      omega
    · rw [← length_eq_zero_iff, ← length_zipIdx, ← hperm.length_eq]
      rfl
  obtain ⟨e, he⟩ := exists_mem_of_ne_nil _ hne
  have hloc : e.2 < 2 ^ 24 := by
    have hzip := mem_zipIdx_iff_getElem?.mp ((seg.order_perm .spot).mem_iff.mp he)
    have hlt := (List.getElem?_eq_some_iff.mp hzip).1
    have hle : seg.flakes.length ≤ 2 ^ 24 := hsmall seg hmem
    omega
  refine ⟨FlakeId.pack 0 maxSegments e.2, ?_, ?_⟩
  · have hentry : (e.1, maxSegments, e.2) ∈
        (streamsOf n 0 .spot none none true).flatten := by
      rw [streams_flatten, mem_flatMap]
      refine ⟨(seg, maxSegments), mk_mem_zipIdx_iff_getElem?.mpr hseg, ?_⟩
      rw [Segment.range_eq_filter, mem_map]
      exact ⟨e, mem_filter.mpr ⟨he, rfl⟩, rfl⟩
    unfold sliceForRange readIds
    split
    next hnil =>
      rw [hnil] at hlength
      cases hlength
    next s hsingle =>
      rw [hsingle, length_singleton] at hlength
      exact absurd hlength (by decide)
    next =>
      unfold graphMerge
      rw [map_map, mem_map]
      exact ⟨_, (merged_perm n 0 .spot none none true).mem_iff.mpr hentry, rfl⟩
  · rw [pack_overflow]
    obtain ⟨hgraph, -, -⟩ := @FlakeId.unpack_pack 1 0 e.2 (by decide) (by decide) hloc
    unfold getFlake
    rw [hgraph, hone]
    rfl

/-! ### A sample -/

namespace Sample

scoped instance object : ObjectValue OrdinaryValue := ordinaryObject fun _ => 8

def sorts : Bool → UnstableSort := fun _ => .insertionSort

def noGraphs : Sid → Option GraphId := fun _ => none

/-- An operation on one fact of the default graph, told apart by its object. -/
def fact (o : Int64) (t : ℤ) (op : Bool) : Flake OrdinaryValue :=
  ⟨none, ⟨1, "s"⟩, ⟨1, "p"⟩, ⟨.long o, trivial⟩, ⟨2, "long"⟩, t, op, none⟩

/-- After two commits, a segment each. -/
def twoCommits : Novelty OrdinaryValue :=
  ((new 0).accept sorts [(fact 2 1 true, 0)] 1).accept sorts
    [(fact 1 2 true, 0), (fact 3 2 true, 0)] 2

theorem twoCommits_reachable : Reachable sorts 0 twoCommits := by
  have hfirst : (new 0).call sorts (.applyCommit noGraphs [fact 2 1 true] 1) =
      .ok ((new 0).accept sorts [(fact 2 1 true, 0)] 1) := rfl
  have hsecond : ((new 0).accept sorts [(fact 2 1 true, 0)] 1).call sorts
      (.applyCommit noGraphs [fact 1 2 true, fact 3 2 true] 2) = .ok twoCommits := rfl
  exact Reach.step (Reach.step Reach.start hfirst trivial) hsecond trivial

end Sample

open Sample

/-- Two segments are merged by a full read, and every handle of it resolves. -/
theorem reads_independent_of_two_segments :
    (twoCommits.graphs.get 0).length = 2 ∧
      (twoCommits.rangeFlakes 0 .spot none none true).map Flake.t = [2, 1, 2] ∧
      (twoCommits.sliceForRange 0 .spot none none true).map twoCommits.getFlake =
        (twoCommits.rangeFlakes 0 .spot none none true).map some ∧
      twoCommits.len = twoCommits.allFlakes.length := by
  have hreads := reads_independent_of_segmentation sorts 0 twoCommits twoCommits_reachable
  refine ⟨rfl, by decide +kernel, ?_, hreads.2.2.2.2.1⟩
  exact hreads.2.2.1 0 (by decide +kernel) .spot none none true

/-- A handle of a full read of a bulk-loaded graph resolves to nothing. -/
theorem handle_beyond_last_segment : ∃ n : Novelty OrdinaryValue, Reachable sorts 0 n ∧
    ∃ id ∈ n.sliceForRange 0 .spot none none true, n.getFlake id = none :=
  unresolved_of_replicate sorts (fact 1 1 false) rfl rfl 1

end FlureeDb.Novelty
