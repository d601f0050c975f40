import FlureeDb.Novelty.Store

/-!
Reading novelty. A read of one graph goes through the order of its segment when there
is one, and merges the orders of several segments otherwise, taking the least head and
the older segment on a tie. Either way it is the stored flakes of the graph in the
range, in the order of the index. Handles are packed from the number of the segment
and the place in it, and resolved through the current segments.
-/

namespace FlureeDb.Novelty

open FlureeDb.Core Lib List Segment

variable {V : Type} [ObjectValue V]

section

variable (n : Novelty V) (g : ℕ) (index : IndexType) (first rhs : Option (Flake V))
  (leftmost : Bool)

/-- The head of a stream against another: the flakes, then the segments. An entry is
a flake, the number of its segment and its place there. -/
def mergeCmp (a b : Flake V × ℕ × ℕ) : Ordering :=
  (index.compare a.1 b.1).then (compare a.2.1 b.2.1)

/-- The stream of a segment, unless it has nothing to give. -/
def streamOf (seg : Segment V × ℕ) : Option (List (Flake V × ℕ × ℕ)) :=
  if seg.1.mayOverlap index first rhs leftmost then
    let order := seg.1.range index first rhs leftmost
    if order.isEmpty then none else some (order.map fun e => (e.1, seg.2, e.2))
  else none

def streamsOf : List (List (Flake V × ℕ × ℕ)) :=
  (n.graphs.get g).zipIdx.filterMap (streamOf index first rhs leftmost)

def graphMerge : List (FlakeId × Flake V) :=
  let streams := streamsOf n g index first rhs leftmost
  (mergeStreams (mergeCmp index) streams.flatten.length streams).map fun e =>
    (FlakeId.pack g e.2.1 e.2.2, e.1)

def readFlakes : List (Flake V) :=
  match n.graphs.get g with
  | [] => []
  | [seg] =>
    if seg.mayOverlap index first rhs leftmost then
      (seg.range index first rhs leftmost).map Prod.fst
    else []
  | _ => (n.graphMerge g index first rhs leftmost).map Prod.snd

def readIds : List FlakeId :=
  match n.graphs.get g with
  | [] => []
  | [seg] =>
    if seg.mayOverlap index first rhs leftmost then
      (seg.range index first rhs leftmost).map fun e => FlakeId.pack g 0 e.2
    else []
  | _ => (n.graphMerge g index first rhs leftmost).map Prod.fst

def sliceForRange : List FlakeId := n.readIds g index first rhs leftmost

def rangeFlakes : List (Flake V) := n.readFlakes g index first rhs leftmost

/-- The flake of a handle; where there is none, the code panics. -/
def getFlake (id : FlakeId) : Option (Flake V) :=
  (n.graphs.get id.graph)[id.seg]?.bind fun seg => seg.flakes[id.loc]?

def len : ℕ := n.flakeCount

end

section

variable (n : Novelty V) (g : ℕ) (index : IndexType) (first rhs : Option (Flake V))
  (leftmost : Bool)

instance : Std.TransCmp (mergeCmp index : Flake V × ℕ × ℕ → Flake V × ℕ × ℕ → Ordering) :=
  have := transCmp_comap (fun e : Flake V × ℕ × ℕ => e.1) index.compare
  have := transCmp_comap (fun e : Flake V × ℕ × ℕ => e.2.1) compare
  inferInstanceAs (Std.TransCmp (compareLex (fun a b : Flake V × ℕ × ℕ => index.compare a.1 b.1)
    fun a b => compare a.2.1 b.2.1))

theorem isLE_of_mergeCmp {a b : Flake V × ℕ × ℕ} (h : (mergeCmp index a b).isLE) :
    (index.compare a.1 b.1).isLE :=
  (Ordering.isLE_then_iff_and.mp h).1

/-- A segment gives its range, tagged, whichever way it was found to have none. -/
theorem streamOf_getD (seg : Segment V × ℕ) :
    (streamOf index first rhs leftmost seg).getD [] =
      (seg.1.range index first rhs leftmost).map fun e => (e.1, seg.2, e.2) := by
  unfold streamOf
  cases hover : seg.1.mayOverlap index first rhs leftmost with
  | false =>
    rw [range_eq_nil_of_mayOverlap index first rhs leftmost seg.1 hover]
    rfl
  | true =>
    rw [if_pos rfl]
    dsimp only
    split
    next hempty =>
      rw [isEmpty_iff.mp hempty]
      rfl
    next => rfl

theorem streams_flatten :
    (streamsOf n g index first rhs leftmost).flatten =
      (n.graphs.get g).zipIdx.flatMap fun seg =>
        (seg.1.range index first rhs leftmost).map fun e => (e.1, seg.2, e.2) := by
  unfold streamsOf
  induction (n.graphs.get g).zipIdx with
  | nil => rfl
  | cons seg segs ih =>
    rw [flatMap_cons, ← streamOf_getD, ← ih]
    cases hstream : streamOf index first rhs leftmost seg with
    | none => rw [filterMap_cons_none hstream, Option.getD_none, nil_append]
    | some stream => rw [filterMap_cons_some hstream, flatten_cons, Option.getD_some]

theorem streams_sorted : ∀ stream ∈ streamsOf n g index first rhs leftmost,
    SortedBy (mergeCmp index) stream := by
  intro stream hmem
  obtain ⟨seg, -, hseg⟩ := mem_filterMap.mp hmem
  have hstream := streamOf_getD index first rhs leftmost seg
  rw [hseg, Option.getD_some] at hstream
  rw [hstream, range_eq_filter]
  refine pairwise_map.mpr ((seg.1.order_sorted index).filter _ |>.imp ?_)
  intro a b hab
  change ((index.compare a.1 b.1).then (compare seg.2 seg.2)).isLE
  rw [Std.compare_self, Ordering.then_eq]
  exact hab

theorem merged_perm :
    (mergeStreams (mergeCmp index) (streamsOf n g index first rhs leftmost).flatten.length
      (streamsOf n g index first rhs leftmost)).Perm
      (streamsOf n g index first rhs leftmost).flatten :=
  mergeStreams_perm (le_refl _)

/-- An entry of a stream is at its place in its segment. -/
theorem entry_resolves {e : Flake V × ℕ × ℕ}
    (h : e ∈ (streamsOf n g index first rhs leftmost).flatten) :
    ∃ seg, (n.graphs.get g)[e.2.1]? = some seg ∧ seg.flakes[e.2.2]? = some e.1 := by
  rw [streams_flatten, mem_flatMap] at h
  obtain ⟨⟨seg, i⟩, hseg, he⟩ := h
  obtain ⟨entry, hentry, rfl⟩ := mem_map.mp he
  rw [range_eq_filter] at hentry
  have hzip := ((seg.order_perm index).mem_iff).mp (mem_of_mem_filter hentry)
  exact ⟨seg, mk_mem_zipIdx_iff_getElem?.mp hseg, mem_zipIdx_iff_getElem?.mp hzip⟩

end

/-! ### Reads are filters of what is stored -/

variable (n : Novelty V) (g : ℕ) (index : IndexType) (first rhs : Option (Flake V))
  (leftmost : Bool)

/-- The flakes a read of the graph has to give. -/
def expected : List (Flake V) := (n.stored g).filter (inRange index first rhs leftmost)

theorem range_flakes_perm (seg : Segment V) :
    ((seg.range index first rhs leftmost).map Prod.fst).Perm
      (seg.flakes.filter (inRange index first rhs leftmost)) := by
  have hzip : seg.flakes.zipIdx.map Prod.fst = seg.flakes := by simp
  rw [range_eq_filter]
  calc ((seg.order index).filter fun e => inRange index first rhs leftmost e.1).map Prod.fst
      = ((seg.order index).map Prod.fst).filter (inRange index first rhs leftmost) := by
        rw [filter_map]
        rfl
    _ |>.Perm ((seg.flakes.zipIdx.map Prod.fst).filter
        (inRange index first rhs leftmost)) :=
        ((seg.order_perm index).map _).filter _
    _ = seg.flakes.filter (inRange index first rhs leftmost) := by rw [hzip]

theorem range_flakes_sorted (seg : Segment V) :
    SortedBy index.compare ((seg.range index first rhs leftmost).map Prod.fst) := by
  rw [range_eq_filter]
  exact pairwise_map.mpr ((seg.order_sorted index).filter _)

theorem graphMerge_perm :
    ((n.graphMerge g index first rhs leftmost).map Prod.snd).Perm
      (n.expected g index first rhs leftmost) := by
  unfold graphMerge
  rw [map_map]
  refine ((merged_perm n g index first rhs leftmost).map _).trans ?_
  rw [streams_flatten]
  unfold expected stored
  rw [map_flatMap, filter_flatMap]
  have hsegs : (n.graphs.get g).zipIdx.map Prod.fst = n.graphs.get g := by simp
  conv_rhs => rw [← hsegs, flatMap_map]
  refine Perm.flatMap_left _ fun seg _ => ?_
  rw [map_map]
  exact range_flakes_perm index first rhs leftmost seg.1

theorem graphMerge_sorted :
    SortedBy index.compare ((n.graphMerge g index first rhs leftmost).map Prod.snd) := by
  have hmerge := mergeStreams_sorted (streams_sorted n g index first rhs leftmost) (le_refl _)
  unfold graphMerge
  rw [map_map]
  exact pairwise_map.mpr (hmerge.imp fun h => isLE_of_mergeCmp index h)

/-- Both ways of reading give the stored flakes in the range. -/
theorem readFlakes_perm :
    (n.readFlakes g index first rhs leftmost).Perm (n.expected g index first rhs leftmost) := by
  unfold readFlakes
  split
  next hnil =>
    unfold expected stored
    rw [hnil]
    rfl
  next seg hone =>
    have hperm := range_flakes_perm index first rhs leftmost seg
    have hexpected : n.expected g index first rhs leftmost =
        seg.flakes.filter (inRange index first rhs leftmost) := by
      unfold expected stored
      rw [hone, flatMap_singleton]
    rw [hexpected]
    split
    · exact hperm
    next hover =>
      rw [range_eq_nil_of_mayOverlap index first rhs leftmost seg (by simpa using hover)]
        at hperm
      exact hperm
  next => exact graphMerge_perm n g index first rhs leftmost

theorem readFlakes_sorted : SortedBy index.compare (n.readFlakes g index first rhs leftmost) := by
  unfold readFlakes
  split
  next => exact Pairwise.nil
  next seg hone =>
    split
    · exact range_flakes_sorted index first rhs leftmost seg
    · exact Pairwise.nil
  next => exact graphMerge_sorted n g index first rhs leftmost

/-- Every part of a handle to the graph has room in it. -/
def Addressable : Prop :=
  (n.graphs.get g).length ≤ maxSegments ∧
    ∀ seg ∈ n.graphs.get g, seg.flakes.length ≤ maxSegmentFlakes

variable {n g}

theorem getFlake_pack (hg : g < 2 ^ 16) (hn : n.Addressable g) {i l : ℕ} {seg : Segment V}
    {f : Flake V} (hseg : (n.graphs.get g)[i]? = some seg) (hf : seg.flakes[l]? = some f) :
    n.getFlake (FlakeId.pack g i l) = some f := by
  have hi : i < 2 ^ 24 := by
    have hlt := (List.getElem?_eq_some_iff.mp hseg).1
    have hle : (n.graphs.get g).length ≤ 2 ^ 24 := hn.1
    omega
  have hl : l < 2 ^ 24 := by
    have hlt := (List.getElem?_eq_some_iff.mp hf).1
    have hle : seg.flakes.length ≤ 2 ^ 24 := hn.2 seg (mem_of_getElem? hseg)
    omega
  obtain ⟨hgraph, hsegment, hloc⟩ := FlakeId.unpack_pack hg hi hl
  unfold getFlake
  rw [hgraph, hsegment, hloc, hseg]
  exact hf

theorem readIds_resolve (hg : g < 2 ^ 16) (hn : n.Addressable g) :
    (n.readIds g index first rhs leftmost).map n.getFlake =
      (n.readFlakes g index first rhs leftmost).map some := by
  unfold readIds readFlakes
  split
  next => rfl
  next seg hone =>
    split
    next =>
      rw [map_map, map_map]
      refine map_congr_left fun e he => ?_
      rw [range_eq_filter] at he
      have hzip := ((seg.order_perm index).mem_iff).mp (mem_of_mem_filter he)
      exact getFlake_pack hg hn (by rw [hone]; rfl) (mem_zipIdx_iff_getElem?.mp hzip)
    next => rfl
  next =>
    unfold graphMerge
    rw [map_map, map_map, map_map, map_map]
    refine map_congr_left fun e he => ?_
    have hmem := (merged_perm n g index first rhs leftmost).mem_iff.mp he
    obtain ⟨seg, hseg, hf⟩ := entry_resolves n g index first rhs leftmost hmem
    exact getFlake_pack hg hn hseg hf

end FlureeDb.Novelty
