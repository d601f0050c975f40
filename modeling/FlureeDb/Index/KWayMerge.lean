import FlureeDb.Lib.BinaryHeap
import FlureeDb.Index.NoveltyMerge
import Mathlib.Data.Prod.Lex

/-!
The merge of sorted run streams by a heap of their heads. Records come out in the order of the
comparator; equal records come stream by stream, as they stand in the streams. With duplicates
removed, one record comes out of each run of records of one fact: the one with the highest `t`,
and of several with that `t` the first.
-/

namespace FlureeDb.Index

open Lib List Option BinaryHeap

structure HeapEntry where
  record : NoveltyOp
  streamIdx : ℕ
deriving DecidableEq, Repr

/-- `heap_less`: an earlier stream's head on a tie. -/
def heapLess (cmp : NoveltyOp → NoveltyOp → Ordering) (a b : HeapEntry) : Bool :=
  match cmp a.record b.record with
  | .lt => true
  | .gt => false
  | .eq => a.streamIdx < b.streamIdx

/-- The streams are what they have not given out, the head included. -/
structure KWayMerge where
  heap : List HeapEntry
  streams : List (List NoveltyOp)

variable {streams : List (List NoveltyOp)} {record winner n : NoveltyOp}

namespace KWayMerge

section

variable (cmp : NoveltyOp → NoveltyOp → Ordering)

def new (streams : List (List NoveltyOp)) : KWayMerge where
  heap := build (heapLess cmp)
    (streams.zipIdx.filterMap fun p => p.1.head?.map fun record => ⟨record, p.2⟩)
  streams := streams

/-- The heap when the stream at its root has been advanced. -/
def replaceTop (heap : List HeapEntry) (streamIdx : ℕ) (next : Option NoveltyOp) : List HeapEntry :=
  match next with
  | some record => siftDown (heapLess cmp) (heap.set 0 ⟨record, streamIdx⟩) 0
  | none => siftDown (heapLess cmp) (BinaryHeap.swap heap 0 (heap.length - 1)).dropLast 0

def nextRecord (m : KWayMerge) : Option (NoveltyOp × KWayMerge) :=
  match m.heap with
  | [] => none
  | top :: _ =>
    let rest := (m.streams.getD top.streamIdx []).tail
    some (top.record,
      { heap := replaceTop cmp m.heap top.streamIdx rest.head?
        streams := m.streams.set top.streamIdx rest })

/-- The loop over the records that are of the winner's fact. -/
def takeDuplicates : ℕ → NoveltyOp → List NoveltyOp → KWayMerge →
    NoveltyOp × List NoveltyOp × KWayMerge
  | 0, winner, history, m => (winner, history, m)
  | fuel + 1, winner, history, m =>
    match m.heap.head? with
    | none => (winner, history, m)
    | some peeked =>
      if winner.key = peeked.record.key then
        match m.nextRecord cmp with
        | none => (winner, history, m)
        | some (dup, m) =>
          if winner.t < dup.t then takeDuplicates fuel dup (history ++ [winner]) m
          else takeDuplicates fuel winner (history ++ [dup]) m
      else (winner, history, m)

def nextDedupedWithHistory (m : KWayMerge) : Option (NoveltyOp × List NoveltyOp × KWayMerge) :=
  match m.nextRecord cmp with
  | none => none
  | some (winner, m) => some (takeDuplicates cmp m.streams.flatten.length winner [] m)

/-- The same loop; what does not win is not kept. -/
def nextDeduped (m : KWayMerge) : Option (NoveltyOp × KWayMerge) :=
  (m.nextDedupedWithHistory cmp).map fun r => (r.1, r.2.2)

/-- So many calls of `next_record`, up to the one that gives nothing. -/
def drainRecords : ℕ → KWayMerge → List NoveltyOp
  | 0, _ => []
  | n + 1, m =>
    match m.nextRecord cmp with
    | none => []
    | some (record, m) => record :: drainRecords n m

/-- So many calls of `next_deduped`, up to the one that gives nothing. -/
def drainDeduped : ℕ → KWayMerge → List NoveltyOp
  | 0, _ => []
  | n + 1, m =>
    match m.nextDeduped cmp with
    | none => []
    | some (winner, m) => winner :: drainDeduped n m

/-- So many calls of `next_deduped_with_history`, up to the one that gives nothing. -/
def drain : ℕ → KWayMerge → List (NoveltyOp × List NoveltyOp)
  | 0, _ => []
  | n + 1, m =>
    match m.nextDedupedWithHistory cmp with
    | none => []
    | some (winner, history, m) => (winner, history) :: drain n m

end

variable (order : RunSortOrder)

/-- The comparator of an index. -/
def cmpRecords (a b : NoveltyOp) : Ordering := cmpV2ForOrder order a.key b.key

/-- Each call gives a record out, so there are at most as many as records. -/
def merged (streams : List (List NoveltyOp)) : List (NoveltyOp × List NoveltyOp) :=
  drain (cmpRecords order) streams.flatten.length (new (cmpRecords order) streams)

def mergedDeduped (streams : List (List NoveltyOp)) : List NoveltyOp :=
  drainDeduped (cmpRecords order) streams.flatten.length (new (cmpRecords order) streams)

section

variable {cmp : NoveltyOp → NoveltyOp → Ordering} {κ : Type} [LinearOrder κ] {rank : NoveltyOp → κ}

variable (rank) in
def heapKey (e : HeapEntry) : κ ×ₗ ℕ := toLex (rank e.record, e.streamIdx)

variable (rank) in
/-- The heap holds the heads of the streams, each once, and the streams are sorted. -/
structure Ok (m : KWayMerge) : Prop where
  heap : BinaryHeap.HeapFrom (heapKey rank) 0 m.heap
  heads : ∀ e, e ∈ m.heap ↔ ∃ rest, m.streams[e.streamIdx]? = some (e.record :: rest)
  distinct : (m.heap.map HeapEntry.streamIdx).Nodup
  sorted : ∀ stream ∈ m.streams, stream.Pairwise fun a b => rank a ≤ rank b

theorem mem_heads (streams : List (List NoveltyOp)) (e : HeapEntry) :
    (e ∈ streams.zipIdx.filterMap fun p => p.1.head?.map fun record => (⟨record, p.2⟩ : HeapEntry)) ↔
      ∃ rest, streams[e.streamIdx]? = some (e.record :: rest) := by
  simp only [mem_filterMap, Prod.exists, mem_zipIdx_iff_getElem?, map_eq_some_iff,
    head?_eq_some_iff]
  constructor
  · rintro ⟨stream, i, hi, record, ⟨rest, rfl⟩, rfl⟩
    exact ⟨rest, hi⟩
  · rintro ⟨rest, h⟩
    exact ⟨_, _, h, e.record, ⟨rest, rfl⟩, rfl⟩

/-- The heap after a call: the other heads, and the next record of the stream. -/
theorem replaceTop_perm (top : HeapEntry) (rest : List HeapEntry) (next : Option NoveltyOp) :
    (replaceTop cmp (top :: rest) top.streamIdx next).Perm
      ((next.map fun record => (⟨record, top.streamIdx⟩ : HeapEntry)).toList ++ rest) := by
  cases next with
  | some => exact siftDown_perm _ 0
  | none =>
    refine (siftDown_perm _ 0).trans ?_
    exact dropLast_swap_perm top rest

section

variable (hcmp : ∀ a b, (cmp a b).Compares (rank a) (rank b))

include hcmp

theorem heapLess_iff (a b : HeapEntry) :
    heapLess cmp a b = true ↔ heapKey rank a < heapKey rank b := by
  rw [heapKey, heapKey, Prod.Lex.toLex_lt_toLex]
  unfold heapLess
  have hab := hcmp a.record b.record
  cases h : cmp a.record b.record with
  | lt => simp [hab.eq_lt.mp h]
  | eq => simp [hab.eq_eq.mp h]
  | gt =>
    have hgt := hab.eq_gt.mp h
    simp [hgt.not_gt, hgt.ne']

theorem new_ok (hsorted : ∀ stream ∈ streams, stream.Pairwise fun a b => rank a ≤ rank b) :
    (new cmp streams).Ok rank where
  heap := build_heap (heapLess_iff hcmp) _
  heads e := by
    rw [← mem_heads]
    exact (build_perm _).mem_iff
  distinct := by
    refine ((build_perm _).map HeapEntry.streamIdx).nodup_iff.mpr ?_
    have hidx : (streams.zipIdx.filterMap fun p => p.1.head?.map fun record =>
        (⟨record, p.2⟩ : HeapEntry)).map HeapEntry.streamIdx =
          (streams.zipIdx.filter fun p => p.1.head?.isSome).map Prod.snd := by
      rw [map_filterMap, ← filterMap_eq_map, ← filterMap_eq_filter,
        filterMap_filterMap]
      apply filterMap_congr
      rintro ⟨stream, i⟩ -
      cases stream with
      | nil => rfl
      | cons => rfl
    rw [hidx]
    refine Nodup.sublist (filter_sublist.map Prod.snd) ?_
    rw [zipIdx_map_snd]
    exact nodup_range'
  sorted := hsorted

theorem replaceTop_heap {heap : List HeapEntry} (h : BinaryHeap.HeapFrom (heapKey rank) 0 heap)
    (streamIdx : ℕ) (next : Option NoveltyOp) :
    BinaryHeap.HeapFrom (heapKey rank) 0 (replaceTop cmp heap streamIdx next) := by
  cases next with
  | some => exact siftDown_root (heapLess_iff hcmp) h _
  | none => exact siftDown_pop (heapLess_iff hcmp) h

end

/-! ### One record -/

variable {m m' : KWayMerge} {records : List NoveltyOp}

section

variable (h : m.Ok rank)

include h

/-- The root is least, and of a stream before its own nothing is equal. -/
theorem Ok.root_le {top : HeapEntry} {heads : List HeapEntry} (hheap : m.heap = top :: heads)
    {i : ℕ} {stream : List NoveltyOp} (hstream : m.streams[i]? = some stream) (hn : n ∈ stream) :
    rank top.record < rank n ∨ rank top.record = rank n ∧ top.streamIdx ≤ i := by
  cases stream with
  | nil => cases hn
  | cons first tail =>
    have hfirst := (h.heads ⟨first, i⟩).mpr ⟨tail, hstream⟩
    obtain ⟨j, hj⟩ := getElem?_of_mem hfirst
    have hroot := h.heap.root_le j top (by rw [hheap]; rfl) ⟨first, i⟩ hj
    have hle : rank first ≤ rank n := by
      rcases mem_cons.mp hn with rfl | hn
      · exact le_rfl
      · have hsorted := h.sorted _ (mem_of_getElem? hstream)
        exact (pairwise_cons.mp hsorted).1 n hn
    rcases Prod.Lex.toLex_le_toLex.mp hroot with hlt | ⟨heq, hi⟩
    · exact .inl (hlt.trans_le hle)
    · rcases hle.lt_or_eq with hlt | heq'
      · exact .inl (heq.trans_lt hlt)
      · exact .inr ⟨heq.trans heq', hi⟩

variable (hnext : m.nextRecord cmp = some (record, m'))

include hnext

/-- What a call that gives a record does: the stream at the root is one record shorter. -/
theorem nextRecord_cases :
    ∃ before rest after heads, m.streams = before ++ (record :: rest) :: after ∧
      m'.streams = before ++ rest :: after ∧ m.heap = ⟨record, before.length⟩ :: heads ∧
        m'.heap = replaceTop cmp m.heap before.length rest.head? := by
  unfold nextRecord at hnext
  split at hnext
  · cases hnext
  next top heads hheap =>
    obtain ⟨rfl, rfl⟩ := Prod.mk.inj (some.inj hnext)
    obtain ⟨rest, hstream⟩ := (h.heads top).mp (by rw [hheap]; exact mem_cons_self)
    obtain ⟨hlt, hget⟩ := List.getElem?_eq_some_iff.mp hstream
    obtain ⟨before, after, hsplit, hlength, hset⟩ := @exists_of_set _ _ rest _ hlt
    rw [hget] at hsplit
    have htail : (m.streams.getD top.streamIdx []).tail = rest := by
      rw [getD_eq_getElem?_getD, hstream]
      rfl
    refine ⟨before, rest, after, heads, hsplit, ?_, ?_, ?_⟩
    · change m.streams.set top.streamIdx _ = _
      rw [htail, hset]
    · rw [hheap, hlength]
    · change replaceTop cmp m.heap top.streamIdx _ = _
      rw [htail, hlength]

theorem nextRecord_ok (hcmp : ∀ a b, (cmp a b).Compares (rank a) (rank b)) : m'.Ok rank := by
  obtain ⟨before, rest, after, heads, hstreams, hstreams', hheap, hheap'⟩ := nextRecord_cases h hnext
  have hperm := @replaceTop_perm cmp ⟨record, before.length⟩ heads rest.head?
  have hdistinct := h.distinct
  rw [hheap, map_cons, nodup_cons] at hdistinct
  have hothers : ∀ e ∈ heads, e.streamIdx ≠ before.length := by
    intro e he heq
    exact hdistinct.1 (mem_map.mpr ⟨e, he, heq⟩)
  have hset : m'.streams = m.streams.set before.length rest := by simp [hstreams, hstreams']
  have hat : ∀ i, i ≠ before.length → m'.streams[i]? = m.streams[i]? := by
    intro i hne
    rw [hset, getElem?_set_ne hne.symm]
  have hself : m'.streams[before.length]? = some rest := by simp [hstreams']
  constructor
  · rw [hheap']
    exact replaceTop_heap hcmp h.heap _ _
  · intro e
    rw [hheap', hheap, hperm.mem_iff, mem_append]
    constructor
    · rintro (hnew | hold)
      · cases rest with
        | nil => cases hnew
        | cons next rest =>
          obtain rfl : e = ⟨next, before.length⟩ := by simpa using hnew
          exact ⟨rest, hself⟩
      · obtain ⟨tail, htail⟩ := (h.heads e).mp (by rw [hheap]; exact mem_cons_of_mem _ hold)
        exact ⟨tail, by rw [hat _ (hothers e hold)]; exact htail⟩
    · rintro ⟨tail, htail⟩
      by_cases hidx : e.streamIdx = before.length
      · rw [hidx, hself, some.injEq] at htail
        subst htail
        refine .inl ?_
        rw [head?_cons, map_some, toList_some, mem_singleton, ← hidx]
      · rw [hat _ hidx] at htail
        have hmem := (h.heads e).mpr ⟨tail, htail⟩
        rw [hheap] at hmem
        rcases mem_cons.mp hmem with rfl | hold
        · exact absurd rfl hidx
        · exact .inr hold
  · rw [hheap', hheap]
    refine (hperm.map HeapEntry.streamIdx).nodup_iff.mpr ?_
    cases rest with
    | nil => exact hdistinct.2
    | cons => exact nodup_cons.mpr hdistinct
  · intro stream hstream
    rw [hset] at hstream
    rcases mem_or_eq_of_mem_set hstream with hin | rfl
    · exact h.sorted stream hin
    · exact (pairwise_cons.mp (h.sorted (record :: stream) (by simp [hstreams]))).2

/-- One call: no record that is left is before the one given out, and it is the first of those
that are equal. -/
theorem nextRecord_spec :
    (∀ n ∈ m.streams.flatten, rank record ≤ rank n) ∧
      (∀ k, m.streams.flatten.filter (rank · = k) =
        (record :: m'.streams.flatten).filter (rank · = k)) ∧
      m.streams.flatten.Perm (record :: m'.streams.flatten) := by
  obtain ⟨before, rest, after, heads, hstreams, hstreams', hheap, -⟩ := nextRecord_cases h hnext
  refine ⟨?_, ?_, ?_⟩
  · intro n hn
    obtain ⟨stream, hstream, hn⟩ := mem_flatten.mp hn
    obtain ⟨i, hi⟩ := getElem?_of_mem hstream
    rcases h.root_le hheap hi hn with hlt | ⟨heq, -⟩
    · exact hlt.le
    · exact heq.le
  · intro k
    have hbefore : rank record = k → before.flatten.filter (rank · = k) = [] := by
      rintro rfl
      rw [filter_eq_nil_iff]
      intro n hn hrank
      obtain ⟨stream, hstream, hn⟩ := mem_flatten.mp hn
      obtain ⟨i, hi⟩ := getElem?_of_mem hstream
      obtain ⟨hlt, -⟩ := List.getElem?_eq_some_iff.mp hi
      have hin : m.streams[i]? = some stream := by rw [hstreams, getElem?_append_left hlt, hi]
      rcases h.root_le hheap hin hn with hless | ⟨-, hle⟩
      · exact hless.ne' (of_decide_eq_true hrank)
      · exact absurd hlt (not_lt.mpr hle)
    rw [hstreams, hstreams']
    simp only [flatten_append, flatten_cons, filter_append, filter_cons]
    split
    · next hk => rw [hbefore (of_decide_eq_true hk)]; rfl
    · rfl
  · rw [hstreams, hstreams']
    simp only [flatten_append]
    exact perm_middle

end

theorem head?_heap (cmp : NoveltyOp → NoveltyOp → Ordering) (m : KWayMerge) :
    m.heap.head?.map HeapEntry.record = (m.nextRecord cmp).map Prod.fst := by
  unfold nextRecord
  cases m.heap <;> rfl

theorem nextRecord_none (h : m.Ok rank) (hnone : m.nextRecord cmp = none) :
    m.streams.flatten = [] := by
  have hheap : m.heap = [] := by simpa [hnone] using head?_heap cmp m
  rw [flatten_eq_nil_iff]
  intro stream hstream
  obtain ⟨i, hi⟩ := getElem?_of_mem hstream
  cases stream with
  | nil => rfl
  | cons record rest =>
    have hmem := (h.heads ⟨record, i⟩).mpr ⟨rest, hi⟩
    rw [hheap] at hmem
    cases hmem

/-! ### All records -/

/-- The records of the calls, up to the one that gives nothing. No more come than the streams
have left. -/
inductive Yields (cmp : NoveltyOp → NoveltyOp → Ordering) : KWayMerge → List NoveltyOp → Prop
  | done {m : KWayMerge} : m.nextRecord cmp = none → Yields cmp m []
  | next {m m' : KWayMerge} {record : NoveltyOp} {records : List NoveltyOp} :
    m.nextRecord cmp = some (record, m') → records.length ≤ m'.streams.flatten.length →
      Yields cmp m' records → Yields cmp m (record :: records)

variable (rank) in
/-- The records in order, equal ones as they were. -/
structure StablySorts (flat records : List NoveltyOp) : Prop where
  perm : records.Perm flat
  sorted : records.Pairwise fun a b => rank a ≤ rank b
  stable : ∀ k, records.filter (rank · = k) = flat.filter (rank · = k)

theorem exists_yields (hcmp : ∀ a b, (cmp a b).Compares (rank a) (rank b)) (h : m.Ok rank) :
    ∃ records, Yields cmp m records ∧ StablySorts rank m.streams.flatten records := by
  induction hlength : m.streams.flatten.length using Nat.strong_induction_on generalizing m with
  | h _ ih =>
    cases hnext : m.nextRecord cmp with
    | none =>
      rw [nextRecord_none h hnext]
      exact ⟨[], .done hnext, Perm.refl _, Pairwise.nil, fun _ => rfl⟩
    | some next =>
      obtain ⟨record, m'⟩ := next
      obtain ⟨hleast, hstable, hperm⟩ := nextRecord_spec h hnext
      have hlt : m'.streams.flatten.length < m.streams.flatten.length := by
        rw [hperm.length_eq]
        exact Nat.lt_succ_self _
      obtain ⟨records, hyields, hrest⟩ := ih _ (hlength ▸ hlt) (nextRecord_ok h hnext hcmp) rfl
      have hall := (hrest.perm.cons record).trans hperm.symm
      refine ⟨record :: records, .next hnext hrest.perm.length_eq.le hyields, hall,
        pairwise_cons.mpr ⟨fun n hn => ?_, hrest.sorted⟩, fun k => ?_⟩
      · exact hleast n (hall.mem_iff.mp (mem_cons_of_mem _ hn))
      · rw [hstable, filter_cons, filter_cons, hrest.stable]

theorem Yields.drainRecords_eq (h : Yields cmp m records) {n : ℕ}
    (hn : records.length ≤ n) : drainRecords cmp n m = records := by
  induction h generalizing n with
  | done hnone => cases n <;> simp [drainRecords, hnone]
  | next hnext _ _ ih =>
    cases n with
    | zero => cases hn
    | succ n => simp [drainRecords, hnext, ih (Nat.le_of_succ_le_succ hn)]

/-- The record with the highest `t`, the first of several. -/
def firstLatest (winner : NoveltyOp) (records : List NoveltyOp) : NoveltyOp :=
  records.foldl (fun winner dup => if winner.t < dup.t then dup else winner) winner

/-- The winner stands before all others with its `t`. -/
theorem firstLatest_split (first : NoveltyOp) (rest : List NoveltyOp) :
    ∃ before after, first :: rest = before ++ firstLatest first rest :: after ∧
      (∀ n ∈ before, n.t < (firstLatest first rest).t) ∧
        ∀ n ∈ after, n.t ≤ (firstLatest first rest).t := by
  -- the winner of the first records is found before the last one is looked at
  induction rest using reverseRecOn with
  | nil => exact ⟨[], [], rfl, by simp, by simp⟩
  | append_singleton rest dup ih =>
    obtain ⟨before, after, hsplit, hbefore, hafter⟩ := ih
    have hfold : firstLatest first (rest ++ [dup]) =
        if (firstLatest first rest).t < dup.t then dup else firstLatest first rest := by
      rw [firstLatest, foldl_append]
      rfl
    rw [hfold, ← cons_append, hsplit]
    by_cases hnewer : (firstLatest first rest).t < dup.t
    · rw [if_pos hnewer]
      refine ⟨before ++ firstLatest first rest :: after, [], rfl, ?_, by simp⟩
      rw [forall_mem_append, forall_mem_cons]
      exact ⟨fun n hn => (hbefore n hn).trans hnewer, hnewer,
        fun n hn => (hafter n hn).trans_lt hnewer⟩
    · rw [if_neg hnewer]
      refine ⟨before, after ++ [dup], by simp, hbefore, ?_⟩
      exact forall_mem_append.mpr ⟨hafter, forall_mem_singleton.mpr (not_lt.mp hnewer)⟩

theorem le_firstLatest {first : NoveltyOp} {rest : List NoveltyOp} (h : n ∈ first :: rest) :
    n.t ≤ (firstLatest first rest).t := by
  obtain ⟨before, after, hsplit, hbefore, hafter⟩ := firstLatest_split first rest
  rw [hsplit] at h
  rcases mem_append.mp h with h | h
  · exact (hbefore n h).le
  · rcases mem_cons.mp h with rfl | h
    · exact le_rfl
    · exact hafter n h

/-- The winner of a run of records of one fact, and all others as its history. -/
def Decides (group : List NoveltyOp) (g : NoveltyOp × List NoveltyOp) : Prop :=
  ∃ first rest, group = first :: rest ∧ g.1 = firstLatest first rest ∧
    (g.1 :: g.2).Perm (first :: rest)

theorem Decides.mem {group : List NoveltyOp} {g : NoveltyOp × List NoveltyOp}
    (h : Decides group g) : g.1 ∈ group := by
  obtain ⟨first, rest, rfl, -, hperm⟩ := h
  exact hperm.mem_iff.mp mem_cons_self

/-- The loop gives the winner of the records up to the first of another fact. -/
theorem Yields.takeDuplicates_spec (h : Yields cmp m records) {fuel : ℕ}
    (hfuel : records.length ≤ fuel) (winner : NoveltyOp) (history : List NoveltyOp) :
    ∃ lost m', takeDuplicates cmp fuel winner history m =
        (firstLatest winner (records.takeWhile (·.key = winner.key)), history ++ lost, m') ∧
      (firstLatest winner (records.takeWhile (·.key = winner.key)) :: lost).Perm
        (winner :: records.takeWhile (·.key = winner.key)) ∧
      Yields cmp m' (records.dropWhile (·.key = winner.key)) := by
  induction h generalizing fuel winner history with
  | @done m hnone =>
    have hhead : m.heap.head? = none := by simpa [hnone] using head?_heap cmp m
    refine ⟨[], m, ?_, Perm.refl _, .done hnone⟩
    cases fuel <;> simp [takeDuplicates, hhead, firstLatest]
  | @next m m₁ record records hnext _ hyields ih =>
    obtain ⟨peeked, hhead, rfl⟩ : ∃ peeked, m.heap.head? = some peeked ∧ peeked.record = record := by
      simpa [hnext] using head?_heap cmp m
    cases fuel with
    | zero => cases hfuel
    | succ fuel =>
      have hfuel := Nat.le_of_succ_le_succ hfuel
      rw [takeDuplicates, hhead]
      by_cases hkey : peeked.record.key = winner.key
      · simp only [takeWhile_cons, dropWhile_cons, hkey, hnext, decide_true, if_true]
        by_cases hnewer : winner.t < peeked.record.t
        · obtain ⟨lost, m', heq, hperm, hrest⟩ := ih hfuel peeked.record (history ++ [winner])
          rw [hkey] at heq hperm hrest
          have hfirst : ∀ l, firstLatest winner (peeked.record :: l) = firstLatest peeked.record l :=
            fun l => by rw [firstLatest, foldl_cons, if_pos hnewer]; rfl
          rw [if_pos hnewer, heq, hfirst]
          refine ⟨winner :: lost, m', by simp, ?_, hrest⟩
          exact (Perm.swap _ _ _).trans (hperm.cons winner)
        · obtain ⟨lost, m', heq, hperm, hrest⟩ := ih hfuel winner (history ++ [peeked.record])
          have hfirst : ∀ l, firstLatest winner (peeked.record :: l) = firstLatest winner l :=
            fun l => by rw [firstLatest, foldl_cons, if_neg hnewer]; rfl
          rw [if_neg hnewer, heq, hfirst]
          refine ⟨peeked.record :: lost, m', by simp, ?_, hrest⟩
          exact (Perm.swap _ _ _).trans
            ((hperm.cons peeked.record).trans (Perm.swap _ _ _))
      · simp only [takeWhile_cons, dropWhile_cons, hkey, Ne.symm hkey]
        exact ⟨[], m, by simp [firstLatest], Perm.refl _, .next hnext ‹_› hyields⟩

/-- One call that removes duplicates. -/
theorem Yields.nextDeduped (h : Yields cmp m (record :: records)) :
    ∃ g m', m.nextDedupedWithHistory cmp = some (g.1, g.2, m') ∧
      Decides (record :: records.takeWhile (·.key = record.key)) g ∧
      Yields cmp m' (records.dropWhile (·.key = record.key)) := by
  cases h with
  | next hnext hlength hyields =>
    obtain ⟨lost, m', heq, hperm, hrest⟩ := hyields.takeDuplicates_spec hlength record []
    refine ⟨(_, lost), m', ?_, ⟨record, _, rfl, rfl, hperm⟩, hrest⟩
    rw [nextDedupedWithHistory, hnext]
    exact congrArg some heq

end

/-! ### The records of an index -/

def ofFact (key : FactKeyV3) (streams : List (List NoveltyOp)) : List NoveltyOp :=
  streams.flatten.filter fun n => n.key = key

theorem key_of_mem_ofFact {key : FactKeyV3} (h : n ∈ ofFact key streams) : n.key = key := by
  simpa using of_mem_filter h

variable {cmp : NoveltyOp → NoveltyOp → Ordering} {m : KWayMerge} {order} {records : List NoveltyOp}

/-- Of sorted records the groups are the facts. -/
theorem Yields.drain_sorted (h : Yields cmp m records)
    (hsorted : NoveltySorted order records) {n : ℕ} (hn : records.length ≤ n) :
    (drain cmp n m).Pairwise (fun a b => a.1.key.sortKey order < b.1.key.sortKey order) ∧
      (∀ g ∈ drain cmp n m, Decides (records.filter (·.key = g.1.key)) g) ∧
        ∀ r ∈ records, ∃ g ∈ drain cmp n m, g.1.key = r.key := by
  induction n generalizing m records with
  | zero =>
    obtain rfl := length_eq_zero_iff.mp (Nat.le_zero.mp hn)
    exact ⟨Pairwise.nil, by simp [drain], by simp⟩
  | succ n ih =>
    cases records with
    | nil =>
      cases h with
      | done hnone => simp [drain, nextDedupedWithHistory, hnone]
    | cons record records =>
      obtain ⟨g, m', hcall, hdecides, hrest⟩ := h.nextDeduped
      obtain ⟨hleast, hsorted⟩ := pairwise_cons.mp hsorted
      -- what stands before a record of the fact is of the fact
      have hfront : records.Pairwise fun a b => decide (b.key = record.key) = true →
          decide (a.key = record.key) = true := by
        refine hsorted.imp_of_mem fun {a b} ha _ hab hb => ?_
        rw [of_decide_eq_true hb] at hab
        exact decide_eq_true (FactKeyV3.sortKey_inj.mp (le_antisymm hab (hleast a ha)))
      rw [takeWhile_eq_filter hfront] at hdecides
      rw [dropWhile_eq_filter hfront] at hrest
      have hkey : g.1.key = record.key := by
        rcases mem_cons.mp hdecides.mem with heq | hin
        · rw [heq]
        · simpa using (mem_filter.mp hin).2
      obtain ⟨hpairs, hgroups, hall⟩ := ih hrest (hsorted.sublist filter_sublist)
        ((length_filter_le _ _).trans (Nat.le_of_succ_le_succ hn))
      have hlater : ∀ g' ∈ drain cmp n m', g'.1 ∈ records ∧ g'.1.key ≠ record.key := by
        intro g' hg'
        simpa using (mem_filter.mp (hgroups g' hg').mem).1
      rw [drain, hcall]
      refine ⟨pairwise_cons.mpr ⟨fun g' hg' => ?_, hpairs⟩, forall_mem_cons.mpr ⟨?_, fun g' hg' => ?_⟩,
        forall_mem_cons.mpr ⟨⟨g, mem_cons_self, hkey⟩, fun r hr => ?_⟩⟩
      · obtain ⟨hin, hne⟩ := hlater g' hg'
        rw [hkey]
        exact lt_of_le_of_ne (hleast _ hin) fun heq => hne (FactKeyV3.sortKey_inj.mp heq).symm
      · rw [hkey, filter_cons_of_pos (by simp)]
        exact hdecides
      · have hne := (hlater g' hg').2
        have hgroup := hgroups g' hg'
        rw [List.filter_filter] at hgroup
        rw [filter_cons_of_neg (by simpa using hne.symm), filter_congr fun r _ => ?_]
        · exact hgroup
        · by_cases hr : r.key = g'.1.key <;> simp [hr, hne]
      · by_cases hr' : r.key = record.key
        · exact ⟨g, mem_cons_self, hkey.trans hr'.symm⟩
        · obtain ⟨g', hg', hkey'⟩ := hall r (mem_filter.mpr ⟨hr, by simpa using hr'⟩)
          exact ⟨g', mem_cons_of_mem _ hg', hkey'⟩

theorem drainDeduped_eq (n : ℕ) (m : KWayMerge) :
    drainDeduped cmp n m = (drain cmp n m).map Prod.fst := by
  induction n generalizing m with
  | zero => rfl
  | succ n ih =>
    unfold drainDeduped drain nextDeduped
    cases m.nextDedupedWithHistory cmp with
    | none => rfl
    | some r => exact congrArg (r.1 :: ·) (ih r.2.2)

theorem mergedDeduped_eq (streams : List (List NoveltyOp)) :
    mergedDeduped order streams = (merged order streams).map Prod.fst := drainDeduped_eq _ _

/-- The merge of sorted streams: one result for each fact, in order, with the winner of the
fact's records and all others as its history. -/
theorem merged_spec (hsorted : ∀ stream ∈ streams, NoveltySorted order stream) :
    (merged order streams).Pairwise (fun a b => a.1.key.sortKey order < b.1.key.sortKey order) ∧
      (∀ g ∈ merged order streams, Decides (ofFact g.1.key streams) g) ∧
        ∀ r ∈ streams.flatten, ∃ g ∈ merged order streams, g.1.key = r.key := by
  have hcmp : ∀ a b : NoveltyOp, (cmpRecords order a b).Compares (a.key.sortKey order)
    (b.key.sortKey order) := fun a b => cmpV2_compares order a.key b.key
  obtain ⟨records, hyields, hsorts⟩ := exists_yields hcmp (new_ok hcmp hsorted)
  obtain ⟨hpairs, hgroups, hall⟩ := hyields.drain_sorted hsorts.sorted hsorts.perm.length_eq.le
  refine ⟨hpairs, fun g hg => ?_, fun r hr => hall r (hsorts.perm.mem_iff.mpr hr)⟩
  have hfact := hsorts.stable (g.1.key.sortKey order)
  simp only [FactKeyV3.sortKey_inj] at hfact
  have hgroup := hgroups g hg
  rw [hfact] at hgroup
  exact hgroup

/-! ### Any comparator -/

theorem Yields.drain_decides (h : Yields cmp m records) {n : ℕ} (hn : records.length ≤ n) :
    Forall₂ Decides (records.splitBy fun a b => a.key = b.key) (drain cmp n m) := by
  induction n generalizing m records with
  | zero =>
    obtain rfl := length_eq_zero_iff.mp (Nat.le_zero.mp hn)
    exact .nil
  | succ n ih =>
    cases records with
    | nil =>
      cases h with
      | done hnone => simp [drain, nextDedupedWithHistory, hnone]
    | cons record =>
      obtain ⟨g, m', hcall, hdecides, hrest⟩ := h.nextDeduped
      rw [splitBy_key_cons fun n : NoveltyOp => n.key, drain, hcall]
      exact .cons hdecides (ih hrest ((dropWhile_sublist _).length_le.trans
        (Nat.le_of_succ_le_succ hn)))

end KWayMerge

open KWayMerge

/-- The calls give every record once, in order, equal ones as they stand in the streams, and end.
Without duplicates they give the record with the highest `t` of each longest run of records of
one fact, and the others as its history. -/
def MergesStably (cmp : NoveltyOp → NoveltyOp → Ordering) (streams : List (List NoveltyOp)) : Prop :=
  ∃ records : List NoveltyOp,
    (∀ n ≥ streams.flatten.length, drainRecords cmp n (new cmp streams) = records) ∧
    records.Perm streams.flatten ∧ SortedBy cmp records ∧
    (∀ a, records.filter (cmp · a = .eq) = streams.flatten.filter (cmp · a = .eq)) ∧
    ∀ n ≥ streams.flatten.length,
      Forall₂ (fun group g => (g.1 :: g.2).Perm group ∧ ∀ n ∈ group, n.t ≤ g.1.t)
        (records.splitBy fun a b => a.key = b.key) (drain cmp n (new cmp streams))

theorem kway_merge_stable (cmp : NoveltyOp → NoveltyOp → Ordering) [Std.TransCmp cmp]
    (streams : List (List NoveltyOp)) (hsorted : ∀ stream ∈ streams, SortedBy cmp stream) :
    MergesStably cmp streams := by
  obtain ⟨κ, _, rank, hcmp⟩ := exists_rank cmp
  have hle : ∀ {l : List NoveltyOp}, SortedBy cmp l ↔ l.Pairwise fun a b => rank a ≤ rank b :=
    fun {l} => by simp only [SortedBy, isLE_iff_le (hcmp _ _)]
  obtain ⟨records, hyields, hperm, hsorted, hstable⟩ :=
    exists_yields hcmp (new_ok hcmp fun stream hstream => hle.mp (hsorted stream hstream))
  have hlength := hperm.length_eq.le
  refine ⟨records, fun n hn => hyields.drainRecords_eq (hlength.trans hn), hperm, hle.mpr hsorted,
    fun a => ?_, fun n hn => (hyields.drain_decides (hlength.trans hn)).imp fun group g hg => ?_⟩
  · simp only [(hcmp _ a).eq_eq]
    exact hstable (rank a)
  · obtain ⟨first, rest, rfl, hwinner, hgroup⟩ := hg
    refine ⟨hgroup, fun n hn => ?_⟩
    rw [hwinner]
    exact le_firstLatest hn

open Sample in
/-- Two records of one fact in two streams, and one of another fact. -/
theorem two_streams_merge_stably :
    MergesStably (cmpRecords .spot)
      [[novel 0 1 1 1 true, novel 0 2 1 1 true], [novel 0 1 1 2 false]] := by
  have : Std.TransCmp (cmpRecords .spot) :=
    @transCmp_of_compares NoveltyOp (List ℕ) _ _ (fun n => n.key.sortKey .spot)
      fun a b => cmpV2_compares .spot a.key b.key
  exact kway_merge_stable _ _ (by simp [SortedBy]; decide)

end FlureeDb.Index
