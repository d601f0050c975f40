import FlureeDb.Lib.Checked
import FlureeDb.Lib.Run
import FlureeDb.Novelty.Reads

/-!
Clearing, and the calls that change novelty as one machine. For each call there is
one statement of what it leaves: the segments of every graph and the latest operation
on every fact. The invariants of runs rest on these and look into no call again.
-/

namespace FlureeDb.Novelty

open FlureeDb.Core Lib List Nat OpLog Segment

variable {V : Type} [ObjectValue V] (sort : Bool → UnstableSort)

/-- What is left of a segment: nothing if all of it is stale, the segment itself if none
of it is, and otherwise a new one of the survivors. -/
def clearSegment (cutoff : ℤ) (seg : Segment V) : Option (Segment V) :=
  if seg.maxT ≤ cutoff then none
  else if cutoff < seg.minT then some seg
  else
    let survivors := seg.flakes.filter fun f => cutoff < f.t
    if survivors.isEmpty then none else some (build sort survivors false)

def clearSegments (cutoff : ℤ) (segs : List (Segment V)) : List (Segment V) :=
  segs.filterMap (clearSegment sort cutoff)

/-- The latest operations of what is stored, read graph by graph through handles. -/
def rebuildFactState (n : Novelty V) : Option (FactState V) :=
  (List.range n.graphs.slots.length).foldlM
    (fun fs g =>
      if (n.graphs.get g).isEmpty then some fs
      else do
        let flakes ← (n.sliceForRange g .spot none none true).mapM n.getFlake
        return fs.recordAll g flakes)
    FactState.new

/-- Drops the flakes up to the cutoff. There is no result if a handle cannot be
resolved. -/
def clearUpTo (n : Novelty V) (cutoff : ℤ) : Option (Novelty V) :=
  if n.flakeCount = 0 then some n
  else do
    let n' := { n with graphs := n.graphs.map (clearSegments sort cutoff) }.recomputeTotals
    let factState ← n'.rebuildFactState
    return { n' with factState := factState, epoch := n.epoch + 1 }

inductive Call (V : Type)
  | applyCommit (reverseGraph : Sid → Option GraphId) (flakes : List (Flake V)) (commitT : ℤ)
  | bulkApplyCommits (reverseGraph : Sid → Option GraphId) (batches : List (List (Flake V) × ℤ))
  | tierCompact (width : ℕ)
  | clearUpTo (cutoff : ℤ)

/-- A call, as far as it returns. -/
def call (n : Novelty V) : Call V → Except Failure (Novelty V)
  | .applyCommit reverseGraph flakes commitT =>
    (n.applyCommit sort reverseGraph flakes commitT).mapError .error
  | .bulkApplyCommits reverseGraph batches =>
    (n.bulkApplyCommits sort reverseGraph batches).mapError .error
  | .tierCompact width => .ok (n.tierCompact sort width).1
  | .clearUpTo cutoff =>
    match n.clearUpTo sort cutoff with
    | some n' => .ok n'
    | none => .error .panic

def routesTo (reverseGraph : Sid → Option GraphId) (g : GraphId) (f : Flake V) : Bool :=
  match resolveFlakeGId reverseGraph f with
  | .ok g' => g' == g
  | .error _ => false

variable {routed : List (Flake V × GraphId)}

section

variable {reverseGraph : Sid → Option GraphId} {flakes : List (Flake V)}

omit [ObjectValue V] in
theorem route_cons_ok {f : Flake V} (h : route reverseGraph (f :: flakes) = .ok routed) :
    ∃ g rest, resolveFlakeGId reverseGraph f = .ok g ∧ route reverseGraph flakes = .ok rest ∧
      routed = (f, g) :: rest := by
  unfold route at h ⊢
  rw [mapM_cons] at h
  obtain ⟨_, hpair, h⟩ := Checked.bind_eq_ok.mp h
  obtain ⟨g, hg, rfl⟩ := Checked.map_eq_ok.mp hpair
  obtain ⟨rest, hrest, h⟩ := Checked.bind_eq_ok.mp h
  exact ⟨g, rest, hg, hrest, (Except.ok.inj h).symm⟩

omit [ObjectValue V] in
theorem batchOf_route (h : route reverseGraph flakes = .ok routed) (g : GraphId) :
    batchOf routed g = flakes.filter (routesTo reverseGraph g) := by
  induction flakes generalizing routed with
  | nil =>
    cases h
    rfl
  | cons f flakes ih =>
    obtain ⟨g', rest, hg, hrest, rfl⟩ := route_cons_ok h
    have hto : routesTo reverseGraph g f = (g' == g) := by
      unfold routesTo
      rw [hg]
    have htail := ih hrest
    unfold batchOf at htail ⊢
    rw [filter_cons, filter_cons, hto, ← htail]
    split
    · rfl
    · rfl

omit [ObjectValue V] in
theorem route_total (h : ∀ f ∈ flakes, ∃ g, resolveFlakeGId reverseGraph f = .ok g) :
    ∃ routed, route reverseGraph flakes = .ok routed := by
  induction flakes with
  | nil => exact ⟨[], rfl⟩
  | cons f flakes ih =>
    obtain ⟨g, hg⟩ := h f mem_cons_self
    obtain ⟨routed, hrouted⟩ := ih fun f' hf' => h f' (mem_cons_of_mem _ hf')
    refine ⟨(f, g) :: routed, ?_⟩
    unfold route at hrouted ⊢
    rw [mapM_cons, hg, hrouted]
    rfl

end

omit [ObjectValue V] in
theorem mem_touched {g : GraphId} : g ∈ touched routed ↔ batchOf routed g ≠ [] := by
  unfold touched batchOf
  rw [mem_dedup, mem_map, ne_eq, map_eq_nil_iff, filter_eq_nil_iff]
  push Not
  constructor
  · rintro ⟨e, he, rfl⟩
    exact ⟨e, he, beq_self_eq_true _⟩
  · rintro ⟨e, he, heq⟩
    exact ⟨e, he, beq_iff_eq.mp heq⟩

/-! ### Segments of a list of flakes -/

variable (parallel : Bool)

theorem chunkSegments_flakes (rounds : ℕ) (flakes : List (Flake V)) :
    (chunkSegments sort parallel rounds flakes).flatMap Segment.flakes = flakes := by
  fun_induction chunkSegments sort parallel rounds flakes with
  | case1 | case3 => exact flatMap_singleton ..
  | case2 rounds flakes _ ih => rw [flatMap_cons, ih, build_flakes, take_append_drop]

theorem chunks_flakes (flakes : List (Flake V)) :
    (chunks sort parallel flakes).flatMap Segment.flakes = flakes :=
  chunkSegments_flakes sort parallel flakes.length flakes

/-- With enough rounds no segment is too large, and there are no more segments than
are needed. -/
theorem chunkSegments_small (rounds : ℕ) (flakes : List (Flake V))
    (hrounds : flakes.length ≤ (rounds + 1) * maxSegmentFlakes) :
    (∀ seg ∈ chunkSegments sort parallel rounds flakes, seg.flakes.length ≤ maxSegmentFlakes) ∧
      ∀ k, flakes.length ≤ (k + 1) * maxSegmentFlakes →
        (chunkSegments sort parallel rounds flakes).length ≤ k + 1 := by
  fun_induction chunkSegments sort parallel rounds flakes with
  | case1 | case3 =>
    refine ⟨forall_mem_singleton.mpr ?_, fun k _ => succ_le_succ (zero_le k)⟩
    rw [build_flakes]
    omega
  | case2 rounds flakes hlarge ih =>
    rw [length_drop] at ih
    rw [add_one_mul] at hrounds
    obtain ⟨hsmall, hcount⟩ := ih (by omega)
    refine ⟨forall_mem_cons.mpr ⟨length_take_le _ _, hsmall⟩, fun k hk => ?_⟩
    cases k with
    | zero => omega
    | succ k =>
      rw [add_one_mul] at hk
      exact succ_le_succ (hcount k (by omega))

theorem chunks_small (flakes : List (Flake V)) :
    (∀ seg ∈ chunks sort parallel flakes, seg.flakes.length ≤ maxSegmentFlakes) ∧
      ∀ k, flakes.length ≤ (k + 1) * maxSegmentFlakes →
        (chunks sort parallel flakes).length ≤ k + 1 := by
  refine chunkSegments_small sort parallel flakes.length flakes ?_
  have : 1 ≤ maxSegmentFlakes := by decide
  calc flakes.length ≤ (flakes.length + 1) * 1 := by omega
    _ ≤ (flakes.length + 1) * maxSegmentFlakes := mul_le_mul_left _ this

section

variable (n : Novelty V) (routed : List (Flake V × GraphId)) (commitT : ℤ) (g : GraphId)

theorem accept_graphs :
    (n.accept sort routed commitT).graphs.get g =
      if g ∈ touched (n.keptOf routed) then
        n.graphs.get g ++ [build sort (batchOf (n.keptOf routed) g) false]
      else n.graphs.get g := by
  refine foldl_component _ (fun (n : Novelty V) (g : GraphId) => n.graphs.get g)
    (fun g segs => segs ++ [build sort (batchOf (n.keptOf routed) g) false])
    ?_ ?_ _ (nodup_dedup _) _ g
  · intro n g
    exact Graphs.get_set_self _ _ _
  · intro n g h hne
    exact Graphs.get_set_of_ne _ (fun h => hne (Fin.ext h)) _

theorem accept_stored :
    (n.accept sort routed commitT).stored g = n.stored g ++ batchOf (n.keptOf routed) g := by
  unfold stored
  rw [accept_graphs]
  split
  next => rw [flatMap_append, flatMap_singleton, build_flakes]
  next hnot =>
    rw [mem_touched, not_not] at hnot
    rw [hnot, append_nil]

end

/-- Recording the batches of the graphs one after the other. -/
theorem foldl_recordAll_get (fs : FactState V) (routed : List (Flake V × GraphId)) (g : GraphId)
    (key : Flake V) :
    ((touched routed).foldl (fun fs g => fs.recordAll g (batchOf routed g)) fs).get g key =
      (opsOf key (batchOf routed g)).foldl latest (fs.get g key) := by
  have h := foldl_component (fun (fs : FactState V) (g : GraphId) =>
      fs.recordAll g (batchOf routed g))
    (fun (fs : FactState V) (g : GraphId) => fs.get g key)
    (fun g cur => (opsOf key (batchOf routed g)).foldl latest cur)
    (fun fs g => FactState.get_recordAll fs g _ key)
    (fun fs g h hne => FactState.get_recordAll_of_graph fs (fun h => hne (Fin.ext h)) _ key)
    (touched routed) (nodup_dedup _) fs g
  rw [h]
  split
  next => rfl
  next hnot =>
    rw [mem_touched, not_not] at hnot
    rw [hnot]
    rfl

section

variable (n : Novelty V) (routed : List (Flake V × GraphId))

theorem accept_factState (commitT : ℤ) :
    (n.accept sort routed commitT).factState =
      (touched (n.keptOf routed)).foldl
        (fun fs g => fs.recordAll g (batchOf (n.keptOf routed) g)) n.factState := by
  unfold accept
  -- a pushed segment leaves the state as it is
  exact foldl_field factState (by intros; rfl) _ _

/-- Of the operations on one fact a commit keeps what its current operation allows. -/
theorem opsOf_keptOf (g : GraphId) (key : Flake V) :
    opsOf key (batchOf (n.keptOf routed) g) =
      keepBatch (n.factState.get g key) (opsOf key (batchOf routed g)) := by
  unfold opsOf batchOf keptOf keepBatch
  simp only [filter_map, map_map, filter_filter]
  congr 1
  refine filter_congr fun e _ => ?_
  simp only [Function.comp, opOf]
  cases hg : e.2 == g with
  | false => simp
  | true =>
    cases hkey : keyCmp key e.1 == .eq with
    | false => simp
    | true =>
      rw [beq_iff_eq.mp hg, FactState.isAsserted,
        ← n.factState.congr g (beq_iff_eq.mp hkey)]
      simp

end

theorem forM_checkSegmentCapacity (n : Novelty V) (l : List GraphId)
    (h : l.forM n.checkSegmentCapacity = .ok ()) :
    ∀ g ∈ l, (n.graphs.get g).length + 1 ≤ maxSegments := by
  intro g hg
  have hcheck := Checked.forM_eq_ok.mp h g hg
  unfold checkSegmentCapacity at hcheck
  split at hcheck
  · cases hcheck
  next hle => exact not_lt.mp hle

variable {reverseGraph : Sid → Option GraphId} {flakes : List (Flake V)}

theorem applyCommit_ok {n n' : Novelty V} {commitT : ℤ}
    (h : n.applyCommit sort reverseGraph flakes commitT = .ok n') :
    (flakes = [] ∧ n' = n) ∨
      (flakes.length ≤ maxSegmentFlakes ∧ ∃ routed, route reverseGraph flakes = .ok routed ∧
        (∀ g ∈ touched routed, (n.graphs.get g).length + 1 ≤ maxSegments) ∧
        n' = n.accept sort routed commitT) := by
  unfold applyCommit at h
  split at h
  next hempty => exact .inl ⟨isEmpty_iff.mp hempty, (Except.ok.inj h).symm⟩
  next =>
    split at h
    · cases h
    next hsize =>
      obtain ⟨routed, hroute, h⟩ := Checked.bind_eq_ok.mp h
      obtain ⟨⟨⟩, hcheck, h⟩ := Checked.bind_eq_ok.mp h
      exact .inr ⟨not_lt.mp hsize, routed, hroute, forM_checkSegmentCapacity n _ hcheck,
        (Except.ok.inj h).symm⟩

section

variable {n n' : Novelty V} {commitT : ℤ}
  (h : n.applyCommit sort reverseGraph flakes commitT = .ok n') (g : GraphId) (key : Flake V)

include h

theorem applyCommit_stored :
    opsOf key (n'.stored g) = opsOf key (n.stored g) ++
      keepBatch (n.factState.get g key)
        (opsOf key (flakes.filter (routesTo reverseGraph g))) := by
  rcases applyCommit_ok sort h with ⟨rfl, rfl⟩ | ⟨-, routed, hroute, -, rfl⟩
  · exact (append_nil _).symm
  · rw [accept_stored, opsOf_append, opsOf_keptOf, batchOf_route hroute]

theorem applyCommit_get :
    n'.factState.get g key =
      (keepBatch (n.factState.get g key)
        (opsOf key (flakes.filter (routesTo reverseGraph g)))).foldl latest
        (n.factState.get g key) := by
  rcases applyCommit_ok sort h with ⟨rfl, rfl⟩ | ⟨-, routed, hroute, -, rfl⟩
  · rfl
  · rw [accept_factState, foldl_recordAll_get, opsOf_keptOf, batchOf_route hroute]

end

/-! ### What a bulk load leaves -/

theorem bulkCmp_eq (a b : Flake V) :
    bulkCmp a b = (keyCmp a b).then ((compare a.t b.t).then (compare a.op b.op)) := by
  unfold bulkCmp keyCmp
  rw [Ordering.then_assoc]

instance : Std.TransCmp (bulkCmp : Flake V → Flake V → Ordering) :=
  inferInstanceAs (Std.TransCmp (compareLex (compareLex keyCmp
    fun a b : Flake V => compare a.t b.t) fun a b => compare a.op b.op))

variable {a b : Flake V}

theorem keyCmp_isLE_of_bulkCmp (h : (bulkCmp a b).isLE) : (keyCmp a b).isLE := by
  rw [bulkCmp_eq] at h
  exact (Ordering.isLE_then_iff_and.mp h).1

omit [ObjectValue V] in
theorem before_of_isLE (h : ((compare a.t b.t).then (compare a.op b.op)).isLE) :
    OpLog.Before (opOf a) (opOf b) := by
  rw [Ordering.isLE_then_iff_or, compare_lt_iff_lt, compare_eq_iff_eq] at h
  refine h.imp_right (And.imp_right fun hop => ?_)
  revert hop
  change (compare a.op b.op).isLE → a.op = true → b.op = true
  cases a.op <;> cases b.op <;> decide

/-- Flakes of one identity stand in the order of their operations. -/
theorem before_of_bulkCmp (hkey : keyCmp a b = .eq) (h : (bulkCmp a b).isLE) :
    OpLog.Before (opOf a) (opOf b) := by
  rw [bulkCmp_eq, hkey] at h
  exact before_of_isLE h

theorem opsOf_sorted (h : SortedBy bulkCmp flakes) (key : Flake V) :
    (opsOf key flakes).Pairwise OpLog.Before := by
  refine pairwise_map.mpr ((Pairwise.and_mem.mp (h.filter _)).imp ?_)
  rintro a b ⟨ha, hb, hab⟩
  have ha : keyCmp key a = .eq := by simpa using (mem_filter.mp ha).2
  have hb : keyCmp key b = .eq := by simpa using (mem_filter.mp hb).2
  exact before_of_bulkCmp (keyCmp_trans (keyCmp_symm ha) hb) hab

/-- An assert is dropped if the flake before it has its identity and the flag is up. -/
theorem dedupWalk_cons (last f : Flake V) (asserted : Bool) (flakes : List (Flake V)) :
    dedupWalk (some (last, asserted)) (f :: flakes) =
      if f.op && (sameIdentity last f && asserted) then dedupWalk (some (last, true)) flakes
      else f :: dedupWalk (some (f, f.op)) flakes := by
  rw [dedupWalk]
  cases sameIdentity last f <;> cases hop : f.op <;> cases asserted <;> rfl

/-- The walk treats every identity for itself. The induction is on the flakes that are
left; all of them come after the last one kept. -/
theorem opsOf_dedupWalk_some (key : Flake V) (flakes : List (Flake V))
    (hsorted : SortedBy keyCmp flakes) (last : Flake V)
    (hlast : ∀ f ∈ flakes, (keyCmp last f).isLE) (asserted : Bool) :
    opsOf key (dedupWalk (some (last, asserted)) flakes) =
      walk (keyCmp key last == .eq && asserted) (opsOf key flakes) := by
  induction flakes generalizing last asserted with
  | nil => rfl
  | cons f flakes ih =>
    obtain ⟨hf, htail⟩ := pairwise_cons.mp hsorted
    obtain ⟨hlastf, hlast⟩ := forall_mem_cons.mp hlast
    rw [dedupWalk_cons]
    split
    next hdropped =>
      rw [Bool.and_eq_true, Bool.and_eq_true, sameIdentity_iff] at hdropped
      obtain ⟨hop, hsame, rfl⟩ := hdropped
      rw [ih htail last hlast, Std.TransCmp.congr_right hsame]
      by_cases hkey : keyCmp key f = .eq
      · rw [opsOf_cons_of_eq hkey, walk_cons, hkey]
        simp [opOf, hop]
      · rw [opsOf_cons_of_ne hkey]
    next hkept =>
      by_cases hkey : keyCmp key f = .eq
      · have hflag : sameIdentity last f = (keyCmp key last == .eq) := by
          rw [Bool.eq_iff_iff, sameIdentity_iff, beq_iff_eq, Std.TransCmp.congr_left hkey]
          exact ⟨keyCmp_symm, keyCmp_symm⟩
        rw [hflag] at hkept
        rw [opsOf_cons_of_eq hkey, opsOf_cons_of_eq hkey, ih htail f hf, walk_cons,
          if_neg (show ¬ ((opOf f).2 && _) = true from hkept), hkey]
        rfl
      · rw [opsOf_cons_of_ne hkey, opsOf_cons_of_ne hkey, ih htail f hf]
        by_cases hkl : keyCmp key last = .eq
        · -- the identity of the last flake is over
          have hnone : opsOf key flakes = [] := by
            rw [eq_nil_iff_forall_not_mem]
            intro op hmem
            obtain ⟨x, hx, hkx, -⟩ := mem_opsOf.mp hmem
            have hfl : (keyCmp f last).isLE := by
              rw [Std.TransCmp.congr_right (keyCmp_trans (keyCmp_symm hkl) hkx)]
              exact hf x hx
            exact hkey (keyCmp_trans hkl (Std.OrientedCmp.isLE_antisymm hlastf hfl))
          rw [hnone]
          rfl
        · rw [beq_eq_false_iff_ne.mpr hkey, beq_eq_false_iff_ne.mpr hkl]
          rfl

theorem opsOf_dedupWalk (key : Flake V) (hsorted : SortedBy bulkCmp flakes) :
    opsOf key (dedupWalk none flakes) = walk false (opsOf key flakes) := by
  have hkeys : SortedBy keyCmp flakes := Pairwise.imp keyCmp_isLE_of_bulkCmp hsorted
  cases flakes with
  | nil => rfl
  | cons f flakes =>
    obtain ⟨hf, htail⟩ := pairwise_cons.mp hkeys
    unfold dedupWalk
    by_cases hkey : keyCmp key f = .eq
    · rw [opsOf_cons_of_eq hkey, opsOf_cons_of_eq hkey,
        opsOf_dedupWalk_some key flakes htail f hf, walk_cons, hkey]
      simp [opOf]
    · rw [opsOf_cons_of_ne hkey, opsOf_cons_of_ne hkey,
        opsOf_dedupWalk_some key flakes htail f hf, beq_eq_false_iff_ne.mpr hkey]
      rfl

/-- What the walk keeps of the stored flakes of a graph and new ones. -/
def bulkKept (storedFlakes newFlakes : List (Flake V)) : List (Flake V) :=
  dedupWalk none ((sort true).sort bulkCmp (storedFlakes ++ newFlakes))

/-- The operations on a fact in walking order. -/
def bulkOps (key : Flake V) (storedFlakes newFlakes : List (Flake V)) : OpLog :=
  opsOf key ((sort true).sort bulkCmp (storedFlakes ++ newFlakes))

section

variable (key : Flake V) (storedFlakes newFlakes : List (Flake V))

theorem opsOf_bulkKept :
    opsOf key (bulkKept sort storedFlakes newFlakes) =
      walk false (bulkOps sort key storedFlakes newFlakes) :=
  opsOf_dedupWalk key ((sort true).sorted bulkCmp _)

theorem bulkOps_sorted : (bulkOps sort key storedFlakes newFlakes).Pairwise OpLog.Before :=
  opsOf_sorted ((sort true).sorted bulkCmp _) key

theorem mem_bulkOps (op : ℤ × Bool) :
    op ∈ bulkOps sort key storedFlakes newFlakes ↔
      op ∈ opsOf key storedFlakes ++ opsOf key newFlakes := by
  rw [← opsOf_append]
  exact (opsOf_perm ((sort true).perm bulkCmp _) key).mem_iff

end

def bulkSegments (kept : List (Flake V)) : List (Segment V) :=
  if kept.isEmpty then [] else chunks sort true kept

theorem bulkSegments_flakes (kept : List (Flake V)) :
    (bulkSegments sort kept).flatMap Segment.flakes = kept := by
  unfold bulkSegments
  split
  next hempty => rw [isEmpty_iff.mp hempty, flatMap_nil]
  next => exact chunks_flakes sort true kept

/-- What is known of a graph: its segments and the latest operations on its facts. -/
def graphState (n : Novelty V) (g : GraphId) : List (Segment V) × (Flake V → Option (ℤ × Bool)) :=
  (n.graphs.get g, n.factState.get g)

/-- What a bulk load makes of it. -/
def bulkState (newFlakes : List (Flake V))
    (state : List (Segment V) × (Flake V → Option (ℤ × Bool))) :
    List (Segment V) × (Flake V → Option (ℤ × Bool)) :=
  let kept := bulkKept sort (state.1.flatMap Segment.flakes) newFlakes
  (bulkSegments sort kept, fun key => (opsOf key kept).foldl latest (state.2 key))

theorem bulkGraph_self (maxT : ℤ) (n : Novelty V) (g : GraphId) (newFlakes : List (Flake V)) :
    (n.bulkGraph sort maxT g newFlakes).graphState g =
      bulkState sort newFlakes (n.graphState g) := by
  refine Prod.ext ?_ ?_
  · change (setGraphSegments sort n.graphs g _ true).get g = bulkSegments sort _
    unfold setGraphSegments
    split
    next hempty =>
      rw [Graphs.get_set_self]
      exact (if_pos hempty).symm
    next hnot =>
      rw [Graphs.get_set_self]
      exact (if_neg hnot).symm
  · funext key
    exact FactState.get_recordAll _ _ _ _

theorem bulkGraph_other (maxT : ℤ) (n : Novelty V) {g h : GraphId} (hne : h ≠ g)
    (newFlakes : List (Flake V)) :
    (n.bulkGraph sort maxT g newFlakes).graphState h = n.graphState h := by
  have hne' : (h : ℕ) ≠ g := fun h => hne (Fin.ext h)
  refine Prod.ext ?_ ?_
  · change (setGraphSegments sort n.graphs g _ true).get h = n.graphs.get h
    unfold setGraphSegments
    split
    · exact Graphs.get_set_of_ne _ hne' _
    · exact Graphs.get_set_of_ne _ hne' _
  · funext key
    exact FactState.get_recordAll_of_graph _ hne' _ _

def bulkBatch (reverseGraph : Sid → Option GraphId) (batches : List (List (Flake V) × ℤ))
    (g : GraphId) : List (Flake V) :=
  (batches.flatMap Prod.fst).filter (routesTo reverseGraph g)

variable {batches : List (List (Flake V) × ℤ)}

/-- A bulk load rebuilds the graphs that its flakes go to, and leaves the others. -/
theorem bulkApplyCommits_graphState {n n' : Novelty V}
    (h : n.bulkApplyCommits sort reverseGraph batches = .ok n') (g : GraphId) :
    n'.graphState g =
      if bulkBatch reverseGraph batches g ≠ [] then
        bulkState sort (bulkBatch reverseGraph batches g) (n.graphState g)
      else n.graphState g := by
  obtain ⟨routed, hroute, h⟩ := Checked.bind_eq_ok.mp h
  have hbatch : bulkBatch reverseGraph batches g = batchOf routed g :=
    (batchOf_route hroute g).symm
  rw [hbatch]
  change (if routed.isEmpty then _ else _) = _ at h
  split at h
  next hempty =>
    rw [isEmpty_iff.mp hempty]
    cases h
    rfl
  next =>
    cases h
    have hfold := foldl_component
      (fun (m : Novelty V) (g : GraphId) => m.bulkGraph sort
        (batches.foldl (fun t batch => max t batch.2) n.t) g (batchOf routed g))
      graphState (fun g => bulkState sort (batchOf routed g))
      (fun m g => bulkGraph_self sort _ m g _)
      (fun m g h hne => bulkGraph_other sort _ m hne _)
      (touched routed) (nodup_dedup _) n g
    simp only [mem_touched] at hfold
    exact hfold

theorem bulkApplyCommits_total (n : Novelty V)
    (h : ∀ f ∈ batches.flatMap Prod.fst, ∃ g, resolveFlakeGId reverseGraph f = .ok g) :
    ∃ n', n.bulkApplyCommits sort reverseGraph batches = .ok n' := by
  obtain ⟨routed, hrouted⟩ := route_total h
  unfold bulkApplyCommits
  rw [hrouted]
  change ∃ n', (if routed.isEmpty then _ else _) = _
  split
  · exact ⟨_, rfl⟩
  · exact ⟨_, rfl⟩

end FlureeDb.Novelty
