import FlureeDb.Novelty.Calls

/-!
How the flakes lie in segments makes no difference to a reader. Compaction and
clearing are followed here segment by segment: compaction permutes what a graph
stores, clearing filters it. The counters are the sums over what is stored, and a
handle has room for every place, as long as no bulk load leaves more segments than a
handle can name.
-/

namespace FlureeDb.Novelty

open FlureeDb.Core Lib List Segment

variable {V : Type} [ObjectValue V] (sort : Bool → UnstableSort)

theorem takeClass_perm (width cls k : ℕ) (segs : List (Segment V)) :
    ((takeClass width cls k segs).1 ++
      (takeClass width cls k segs).2.flatMap flakes).Perm
      (segs.flatMap flakes) := by
  -- a segment that stays comes after the flakes that were taken
  have hstays : ∀ (seg : Segment V) {taken : List (Flake V)} {rest segs : List (Segment V)},
      (taken ++ rest.flatMap flakes).Perm (segs.flatMap flakes) →
        (taken ++ (seg :: rest).flatMap flakes).Perm
          ((seg :: segs).flatMap flakes) :=
    fun seg _ _ _ h => (perm_append_comm_assoc _ _ _).trans (h.append_left seg.flakes)
  fun_induction takeClass width cls k segs with
  | case1 => rfl
  | case2 seg segs _ ih => exact hstays seg ih
  | case3 k seg segs hcls _ ih =>
    rw [append_assoc]
    exact ih.append_left _
  | case4 k seg segs hcls _ ih => exact hstays seg ih

theorem tierCompactLoop_perm (width fuel minClass : ℕ) (segs : List (Segment V)) :
    ((tierCompactLoop sort width fuel minClass segs).1.flatMap flakes).Perm
      (segs.flatMap flakes) := by
  fun_induction tierCompactLoop sort width fuel minClass segs with
  | case4 fuel minClass segs _ target _ _ _ ih =>
    refine ih.trans ?_
    rw [flatMap_append, chunks_flakes]
    exact perm_append_comm.trans (takeClass_perm width target width segs)
  | _ => rfl

/-- The rounds of a cascade are enough: no class is above 64. -/
theorem sizeClassLoop_le (count width fuel bound cls : ℕ) :
    sizeClassLoop count width fuel bound cls ≤ cls + fuel := by
  fun_induction sizeClassLoop count width fuel bound cls with
  | _ => omega

theorem segmentClass_le (width : ℕ) (seg : Segment V) : segmentClass width seg ≤ 64 := by
  unfold segmentClass sizeClass
  split
  · omega
  · have := sizeClassLoop_le seg.flakes.length width 64 width 0
    omega

variable {segs : List (Segment V)} {width : ℕ}

/-- A target class is one of the segments' classes and has a full group. -/
theorem targetClass_spec {minClass target : ℕ} (h : targetClass width minClass segs = some target) :
    minClass ≤ target ∧ target ≤ 64 ∧
      width ≤ (segs.filter fun seg => segmentClass width seg == target).length := by
  have hmem := min?_mem h
  rw [mem_filter, Bool.and_eq_true, decide_eq_true_eq, decide_eq_true_eq] at hmem
  obtain ⟨hmem, hmin, hfull⟩ := hmem
  obtain ⟨seg, -, rfl⟩ := mem_map.mp hmem
  refine ⟨hmin, segmentClass_le width seg, ?_⟩
  rw [count_eq_countP, countP_map, countP_eq_length_filter] at hfull
  exact hfull

/-! ### Room in the handles -/

/-- No segment is larger than a handle can address. -/
def Small (segs : List (Segment V)) : Prop := ∀ seg ∈ segs, seg.flakes.length ≤ maxSegmentFlakes

theorem takeClass_sublist (width cls k : ℕ) (segs : List (Segment V)) :
    (takeClass width cls k segs).2 <+ segs := by
  fun_induction takeClass width cls k segs with
  | case1 => exact .slnil
  | case2 seg segs _ ih | case4 k seg segs hcls _ ih => exact ih.cons_cons _
  | case3 k seg segs hcls _ ih => exact ih.cons _

theorem takeClass_length {cls : ℕ} (k : ℕ) (hsmall : Small segs)
    (hk : k ≤ (segs.filter fun seg => segmentClass width seg == cls).length) :
    (takeClass width cls k segs).2.length + k = segs.length ∧
      (takeClass width cls k segs).1.length ≤ k * maxSegmentFlakes := by
  fun_induction takeClass width cls k segs with
  | case1 k =>
    obtain rfl : k = 0 := Nat.le_zero.mp hk
    exact ⟨rfl, Nat.zero_le _⟩
  | case2 seg segs rest ih =>
    obtain ⟨hlength, hflakes⟩ := ih (forall_mem_cons.mp hsmall).2 (Nat.zero_le _)
    exact ⟨by simp only [length_cons, rest]; omega, hflakes⟩
  | case3 k seg segs hcls rest ih =>
    obtain ⟨hseg, hsmall⟩ := forall_mem_cons.mp hsmall
    rw [filter_cons_of_pos (by simp [hcls]), length_cons] at hk
    obtain ⟨hlength, hflakes⟩ := ih hsmall (by omega)
    simp only [length_cons, length_append, Nat.succ_mul, rest]
    omega
  | case4 k seg segs hcls rest ih =>
    rw [filter_cons_of_neg (by simp [hcls])] at hk
    obtain ⟨hlength, hflakes⟩ := ih (forall_mem_cons.mp hsmall).2 hk
    exact ⟨by simp only [length_cons, rest]; omega, hflakes⟩

/-- A cascade leaves small segments, and no more of them than there were. -/
theorem tierCompactLoop_small (hwidth : 2 ≤ width) (fuel minClass : ℕ) (hsmall : Small segs) :
    Small (tierCompactLoop sort width fuel minClass segs).1 ∧
      (tierCompactLoop sort width fuel minClass segs).1.length ≤ segs.length := by
  fun_induction tierCompactLoop sort width fuel minClass segs with
  | case1 | case2 | case3 => exact ⟨hsmall, le_refl _⟩
  | case4 fuel minClass segs _ target htarget taken _ ih =>
    obtain ⟨-, -, hfull⟩ := targetClass_spec htarget
    obtain ⟨hlength, hflakes⟩ := takeClass_length width hsmall hfull
    obtain ⟨hchunks, hcount⟩ := chunks_small sort true taken.1
    have hcount' := hcount (width - 1) (by
      rw [show width - 1 + 1 = width by omega]
      exact hflakes)
    have hmerged : Small (taken.2 ++ chunks sort true taken.1) :=
      forall_mem_append.mpr ⟨fun seg hseg => hsmall seg ((takeClass_sublist ..).mem hseg), hchunks⟩
    obtain ⟨hsmall', hle⟩ := ih hmerged
    refine ⟨hsmall', hle.trans ?_⟩
    simp only [length_append, taken] at hcount' ⊢
    omega

/-! ### Clearing -/

theorem clearSegment_flakes (cutoff : ℤ) (seg : Segment V) :
    (clearSegment sort cutoff seg).toList.flatMap flakes =
      seg.flakes.filter fun f => cutoff < f.t := by
  unfold clearSegment
  split
  next hstale =>
    refine (filter_eq_nil_iff.mpr fun f hf => ?_).symm
    have := seg.le_maxT f hf
    simp only [decide_eq_true_eq]
    omega
  next =>
    split
    next hfresh =>
      rw [Option.toList_some, flatMap_singleton]
      refine (filter_eq_self.mpr fun f hf => ?_).symm
      have := seg.minT_le f hf
      simp only [decide_eq_true_eq]
      omega
    next =>
      dsimp only
      split
      next hempty =>
        rw [isEmpty_iff.mp hempty]
        rfl
      next => rw [Option.toList_some, flatMap_singleton, build_flakes]

theorem clearSegments_flakes (cutoff : ℤ) (segs : List (Segment V)) :
    (clearSegments sort cutoff segs).flatMap flakes =
      (segs.flatMap flakes).filter fun f => cutoff < f.t := by
  rw [clearSegments, filterMap_eq_flatMap_toList, flatMap_assoc, filter_flatMap]
  simp only [clearSegment_flakes]

theorem clearSegments_small (cutoff : ℤ) (hsmall : Small segs) :
    Small (clearSegments sort cutoff segs) ∧
      (clearSegments sort cutoff segs).length ≤ segs.length := by
  refine ⟨fun s hs => ?_, length_filterMap_le _ _⟩
  obtain ⟨seg, hseg, hkept⟩ := mem_filterMap.mp hs
  have hflakes := clearSegment_flakes sort cutoff seg
  rw [hkept, Option.toList_some, flatMap_singleton] at hflakes
  rw [hflakes]
  exact (length_filter_le _ _).trans (hsmall seg hseg)

section

theorem sum_set (w : Segment V → ℕ) (slots : List (List (Segment V))) (i : ℕ)
    (hi : i < slots.length) (segs : List (Segment V)) :
    ((slots.set i segs).flatten.map w).sum + ((slots.getD i []).map w).sum =
      (slots.flatten.map w).sum + (segs.map w).sum := by
  induction slots generalizing i with
  | nil => cases hi
  | cons slot slots ih =>
    cases i with
    | zero =>
      simp only [set_cons_zero, flatten_cons, map_append, sum_append,
        getD_cons_zero]
      omega
    | succ i =>
      have h := ih i (Nat.lt_of_succ_lt_succ hi)
      simp only [set_cons_succ, flatten_cons, map_append, sum_append,
        getD_cons_succ]
      omega

/-- Replacing the segments of a graph exchanges their share. -/
theorem Graphs.sum_set (w : Segment V → ℕ) (gs : Graphs V) (g : GraphId) (segs : List (Segment V)) :
    (gs.set g segs).sum w + ((gs.get g).map w).sum = gs.sum w + (segs.map w).sum := by
  have hpad : (gs.slots ++ replicate (g + 1 - gs.slots.length) []).flatten =
      gs.slots.flatten := by
    rw [flatten_append, flatten_replicate_nil, append_nil]
  have h := Novelty.sum_set w (gs.slots ++ replicate (g + 1 - gs.slots.length) []) g
    (by rw [length_append, length_replicate]; omega) segs
  rwa [hpad, getD_padded] at h

end

/-- The counters are the sums over the segments, and no segment is too large. -/
structure Sound (n : Novelty V) : Prop where
  size : n.size = n.graphs.sum Segment.size
  count : n.flakeCount = n.graphs.sum fun seg => seg.flakes.length
  small : ∀ g : GraphId, Small (n.graphs.get g)

theorem sound_new (t : ℤ) : (new t : Novelty V).Sound where
  size := rfl
  count := rfl
  small _ _ h := by cases h

variable {n : Novelty V}

theorem sound_recomputeTotals (h : ∀ g : GraphId, Small (n.graphs.get g)) :
    n.recomputeTotals.Sound where
  size := rfl
  count := rfl
  small := h

theorem sum_pushSegment (w : Segment V → ℕ) (n : Novelty V) (g : GraphId) (seg : Segment V) :
    (n.pushSegment g seg).graphs.sum w = n.graphs.sum w + w seg := by
  have hsum := n.graphs.sum_set w g (n.graphs.get g ++ [seg])
  rw [map_append, sum_append, map_singleton, sum_singleton] at hsum
  change (n.graphs.set g (n.graphs.get g ++ [seg])).sum w = _
  omega

theorem Sound.pushSegment (h : n.Sound) (g : GraphId) {seg : Segment V}
    (hseg : seg.flakes.length ≤ maxSegmentFlakes) : (n.pushSegment g seg).Sound where
  size := by
    rw [sum_pushSegment, ← h.size]
    rfl
  count := by
    rw [sum_pushSegment, ← h.count]
    rfl
  small g' := by
    change Small ((n.graphs.set g (n.graphs.get g ++ [seg])).get g')
    by_cases hg : g' = g
    · rw [hg, Graphs.get_set_self]
      intro s hs
      rcases mem_append.mp hs with hs | hs
      · exact h.small g s hs
      · rw [mem_singleton.mp hs]
        exact hseg
    · rw [Graphs.get_set_of_ne _ (fun h => hg (Fin.ext h))]
      exact h.small g'

variable {routed : List (Flake V × GraphId)}

theorem Sound.accept (h : n.Sound) (hrouted : routed.length ≤ maxSegmentFlakes) (commitT : ℤ) :
    (n.accept sort routed commitT).Sound := by
  have hbatch : ∀ g, (batchOf (n.keptOf routed) g).length ≤ maxSegmentFlakes := by
    intro g
    unfold batchOf
    rw [length_map]
    exact (length_filter_le _ _).trans ((length_filter_le _ _).trans hrouted)
  -- every push keeps the counters right, whatever the other fields are
  exact foldlRecOn _ _ ⟨h.size, h.count, h.small⟩ fun m hm g _ => hm.pushSegment g (hbatch g)

variable {reverseGraph : Sid → Option GraphId}

omit [ObjectValue V] in
theorem route_length {flakes : List (Flake V)} (h : route reverseGraph flakes = .ok routed) :
    routed.length = flakes.length := by
  induction flakes generalizing routed with
  | nil =>
    cases h
    rfl
  | cons f flakes ih =>
    obtain ⟨g, rest, -, hrest, rfl⟩ := route_cons_ok h
    rw [length_cons, length_cons, ih hrest]

theorem bulkSegments_small (kept : List (Flake V)) : Small (bulkSegments sort kept) := by
  unfold bulkSegments
  split
  · intro seg hseg
    cases hseg
  · exact (chunks_small sort true kept).1

/-- Without a merge nothing has changed. -/
theorem tierCompactLoop_eq_self (width fuel minClass : ℕ) (segs : List (Segment V))
    (h : (tierCompactLoop sort width fuel minClass segs).2 = 0) :
    (tierCompactLoop sort width fuel minClass segs).1 = segs := by
  cases fuel with
  | zero => rfl
  | succ fuel =>
    unfold tierCompactLoop at h ⊢
    split
    · rfl
    next hlength =>
      rw [if_neg hlength] at h
      split
      · rfl
      next target htarget =>
        rw [htarget] at h
        cases h

theorem tierCompact_cases (n : Novelty V) (width : ℕ) :
    (n.tierCompact sort width).1 = n ∨ 2 ≤ width ∧ ∃ m : Novelty V,
      (n.tierCompact sort width).1 = m.recomputeTotals ∧ m.factState = n.factState ∧
        ∀ g, m.graphs.get g = (tierCompactGraph sort width (n.graphs.get g)).1 := by
  unfold tierCompact
  split
  · exact .inl rfl
  next hwidth =>
    dsimp only
    split
    · refine .inr ⟨not_lt.mp hwidth, _, rfl, rfl, Graphs.get_map _ ?_⟩
      unfold tierCompactGraph tierCompactLoop
      rw [if_pos (by simp only [length_nil]; omega)]
    next hmerges =>
      have hzero := sum_eq_zero_iff.mp (Nat.le_zero.mp (not_lt.mp hmerges))
      have hsame : n.graphs.slots.map (fun segs => (tierCompactGraph sort width segs).1) =
          n.graphs.slots.map id := map_congr_left fun segs hsegs =>
        tierCompactLoop_eq_self sort width 65 0 segs (hzero _ (mem_map_of_mem hsegs))
      simp only [Graphs.map, hsame, map_id]
      exact .inl trivial

theorem tierCompact_stored (n : Novelty V) (width g : ℕ) :
    ((n.tierCompact sort width).1.stored g).Perm (n.stored g) := by
  rcases tierCompact_cases sort n width with heq | ⟨-, m, heq, -, hget⟩
  · rw [heq]
  · rw [heq]
    change ((m.graphs.get g).flatMap flakes).Perm _
    rw [hget]
    exact tierCompactLoop_perm sort width 65 0 _

theorem tierCompact_factState (n : Novelty V) (width : ℕ) :
    (n.tierCompact sort width).1.factState = n.factState := by
  rcases tierCompact_cases sort n width with heq | ⟨-, m, heq, hfacts, -⟩
  · rw [heq]
  · rw [heq]
    exact hfacts

theorem Sound.tierCompact (h : n.Sound) (width : ℕ) : (n.tierCompact sort width).1.Sound := by
  rcases tierCompact_cases sort n width with heq | ⟨hwidth, m, heq, -, hget⟩
  · rw [heq]
    exact h
  · rw [heq]
    refine sound_recomputeTotals fun g => ?_
    rw [hget]
    exact (tierCompactLoop_small sort hwidth 65 0 (h.small g)).1

variable {n' : Novelty V} {c : Call V}

theorem clearUpTo_some {cutoff : ℤ} (h : n.clearUpTo sort cutoff = some n') :
    (n.flakeCount = 0 ∧ n' = n) ∨
      ∃ factState, n'.graphs = n.graphs.map (clearSegments sort cutoff) ∧
        { n with graphs := n.graphs.map (clearSegments sort cutoff) }.recomputeTotals.rebuildFactState
          = some factState ∧
        n'.factState = factState ∧ n'.size = n'.graphs.sum Segment.size ∧
        n'.flakeCount = n'.graphs.sum fun seg => seg.flakes.length := by
  unfold clearUpTo at h
  split at h
  next hzero => exact .inl ⟨hzero, (Option.some.inj h).symm⟩
  next =>
    cases hrebuild : ({ n with graphs := n.graphs.map (clearSegments sort cutoff) } :
        Novelty V).recomputeTotals.rebuildFactState with
    | none =>
      simp only [hrebuild] at h
      cases h
    | some factState =>
      simp only [hrebuild] at h
      cases h
      exact .inr ⟨factState, rfl, rfl, rfl, rfl, rfl⟩

theorem clear_get (n : Novelty V) (cutoff : ℤ) (g : ℕ) :
    (n.graphs.map (clearSegments sort cutoff)).get g =
      clearSegments sort cutoff (n.graphs.get g) :=
  Graphs.get_map _ rfl g

/-! ### Runs -/

theorem call_ok (h : n.call sort c = .ok n') :
    (∃ reverseGraph flakes commitT, c = .applyCommit reverseGraph flakes commitT ∧
      n.applyCommit sort reverseGraph flakes commitT = .ok n') ∨
    (∃ reverseGraph batches, c = .bulkApplyCommits reverseGraph batches ∧
      n.bulkApplyCommits sort reverseGraph batches = .ok n') ∨
    (∃ width, c = .tierCompact width ∧ n' = (n.tierCompact sort width).1) ∨
    ∃ cutoff, c = .clearUpTo cutoff ∧ n.clearUpTo sort cutoff = some n' := by
  cases c with
  | applyCommit reverseGraph flakes commitT =>
    exact .inl ⟨reverseGraph, flakes, commitT, rfl, Checked.mapError_eq_ok.mp h⟩
  | bulkApplyCommits reverseGraph batches =>
    exact .inr (.inl ⟨reverseGraph, batches, rfl, Checked.mapError_eq_ok.mp h⟩)
  | tierCompact width =>
    cases h
    exact .inr (.inr (.inl ⟨width, rfl, rfl⟩))
  | clearUpTo cutoff =>
    refine .inr (.inr (.inr ⟨cutoff, rfl, ?_⟩))
    simp only [Novelty.call] at h
    cases hclear : n.clearUpTo sort cutoff with
    | none =>
      rw [hclear] at h
      cases h
    | some m =>
      rw [hclear] at h
      cases h
      rfl

theorem call_sound (hn : n.Sound) (h : n.call sort c = .ok n') : n'.Sound := by
  rcases call_ok sort h with ⟨reverseGraph, flakes, commitT, rfl, happly⟩ |
    ⟨reverseGraph, batches, rfl, hbulk⟩ | ⟨width, rfl, rfl⟩ | ⟨cutoff, rfl, hclear⟩
  · rcases applyCommit_ok sort happly with ⟨-, rfl⟩ | ⟨hsize, routed, hroute, -, rfl⟩
    · exact hn
    · exact hn.accept sort (by rw [route_length hroute]; exact hsize) commitT
  · have hsmall : ∀ g : GraphId, Small (n'.graphs.get g) := by
      intro g
      have hstate := congrArg Prod.fst (bulkApplyCommits_graphState sort hbulk g)
      change n'.graphs.get g = _ at hstate
      rw [hstate]
      split
      · exact bulkSegments_small sort _
      · exact hn.small g
    obtain ⟨routed, -, hbulk⟩ := Checked.bind_eq_ok.mp hbulk
    split at hbulk
    · cases hbulk
      exact ⟨hn.size, hn.count, hsmall⟩
    · cases hbulk
      exact ⟨rfl, rfl, hsmall⟩
  · exact hn.tierCompact sort width
  · rcases clearUpTo_some sort hclear with ⟨-, rfl⟩ | ⟨fs, hgraphs, -, -, hsize, hcount⟩
    · exact hn
    · refine ⟨hsize, hcount, fun g => ?_⟩
      rw [hgraphs, clear_get]
      exact (clearSegments_small sort cutoff (hn.small g)).1

variable {g : GraphId}

theorem touched_keptOf (h : g ∈ touched (n.keptOf routed)) : g ∈ touched routed := by
  unfold touched at h ⊢
  rw [mem_dedup, mem_map] at h ⊢
  obtain ⟨e, he, hg⟩ := h
  exact ⟨e, mem_of_mem_filter he, hg⟩

/-- No graph has more segments than a handle can name. -/
def Fits (n : Novelty V) : Prop := ∀ g : GraphId, (n.graphs.get g).length ≤ maxSegments

def Call.isBulk : Call V → Prop
  | .bulkApplyCommits _ _ => True
  | _ => False

/-- Only a bulk load can make the segments of a graph too many. -/
theorem call_fits (hn : n.Sound) (hfits : n.Fits) (h : n.call sort c = .ok n')
    (hbulk : c.isBulk → n'.Fits) : n'.Fits := by
  rcases call_ok sort h with ⟨reverseGraph, flakes, commitT, rfl, happly⟩ |
    ⟨reverseGraph, batches, rfl, -⟩ | ⟨width, rfl, rfl⟩ | ⟨cutoff, rfl, hclear⟩
  · rcases applyCommit_ok sort happly with ⟨-, rfl⟩ | ⟨-, routed, hroute, hcapacity, rfl⟩
    · exact hfits
    · intro g
      rw [accept_graphs]
      split
      next hg =>
        rw [length_append]
        exact hcapacity g (touched_keptOf hg)
      next => exact hfits g
  · exact hbulk trivial
  · rcases tierCompact_cases sort n width with heq | ⟨hwidth, m, heq, -, hget⟩
    · rw [heq]
      exact hfits
    · rw [heq]
      intro g
      change (m.graphs.get g).length ≤ _
      rw [hget]
      exact (tierCompactLoop_small sort hwidth 65 0 (hn.small g)).2.trans (hfits g)
  · rcases clearUpTo_some sort hclear with ⟨-, rfl⟩ | ⟨fs, hgraphs, -⟩
    · exact hfits
    · intro g
      rw [hgraphs, clear_get]
      exact (clearSegments_small sort cutoff (hn.small g)).2.trans (hfits g)

theorem Sound.addressable (hn : n.Sound) (hfits : (n.graphs.get g).length ≤ maxSegments) :
    n.Addressable g :=
  ⟨hfits, hn.small g⟩

end FlureeDb.Novelty
