import FlureeDb.Branch.Delta
import FlureeDb.Ledger.Snapshot
import FlureeDb.Novelty.Live

/-!
The state of a ledger that has no index: a snapshot and the novelty over it. A read
takes the flakes of a graph up to a time, in the order of an index, and keeps the last
flake of each fact if it asserts; it knows a fact by a hash table, and so takes equal values
that are hashed apart for different ones. A load walks the commits back from a head, applies
their deltas to the first snapshot and puts their flakes into novelty, the oldest
first, each commit followed by the flakes that describe it.

What a loaded state has of a fact is said by the operations of the commits on it: the
last one decides, and of two at one time the assert.
-/

namespace FlureeDb.Ledger

open Branch FlureeDb.Core Lib Novelty List

variable {Id V : Type} [ObjectValue V]

/-- Goes through the flakes from the last to the first; the first flake of a fact that
is met is kept if it asserts. The second list has the facts met. -/
def staleStep (f : Flake V) (state : List (Flake V) × List (Flake V)) :
    List (Flake V) × List (Flake V) :=
  if state.2.any fun f' => f.same f' then state
  else (if f.op then f :: state.1 else state.1, f :: state.2)

def removeStaleFlakes (flakes : List (Flake V)) : List (Flake V) :=
  (flakes.foldr staleStep ([], [])).1

def indexLe (index : IndexType) (a b : Flake V) : Bool := (index.compare a b).isLE

def collectOverlayOnly (n : Novelty V) (g : ℕ) (index : IndexType) (toT : ℤ) : List (Flake V) :=
  let flakes := (n.readFlakes g index none none true).filter fun f => decide (f.t ≤ toT)
  removeStaleFlakes (flakes.mergeSort (indexLe index))

theorem collectOverlayOnly_of_sorted {n : Novelty V} {g : ℕ} {index : IndexType} {toT : ℤ}
    (h : ((n.readFlakes g index none none true).filter fun f => decide (f.t ≤ toT)).Pairwise
      fun a b => indexLe index a b = true) :
    collectOverlayOnly n g index toT =
      removeStaleFlakes ((n.readFlakes g index none none true).filter fun f => decide (f.t ≤ toT)) :=
  congrArg removeStaleFlakes (mergeSort_of_pairwise h)

theorem mem_seen (flakes : List (Flake V)) (v : Flake V) :
    ((flakes.foldr staleStep ([], [])).2.any fun f => v.same f) = flakes.any fun f => v.same f := by
  induction flakes with
  | nil => rfl
  | cons f flakes ih =>
    rw [foldr_cons, any_cons, ← ih]
    unfold staleStep
    split
    next hseen =>
      cases hv : v.same f with
      | false => rfl
      | true =>
        obtain ⟨f', hf', hsame⟩ := any_eq_true.mp hseen
        exact any_eq_true.mpr ⟨f', hf', same_equivalence.trans hv hsame⟩
    next => rfl

/-- The flakes behind a flake decide whether it is kept. -/
theorem removeStaleFlakes_cons (f : Flake V) (flakes : List (Flake V)) :
    removeStaleFlakes (f :: flakes) =
      if (flakes.any fun f' => f.same f') || !f.op then removeStaleFlakes flakes
      else f :: removeStaleFlakes flakes := by
  unfold removeStaleFlakes
  rw [foldr_cons, staleStep, mem_seen]
  cases flakes.any fun f' => f.same f' with
  | true => rfl
  | false => cases f.op <;> simp

variable {f : Flake V} {g : ℕ} {flakes : List (Flake V)} {n : Novelty V} {index : IndexType}

theorem mem_of_removeStaleFlakes (h : f ∈ removeStaleFlakes flakes) : f ∈ flakes ∧ f.op = true := by
  induction flakes with
  | nil => cases h
  | cons f' flakes ih =>
    rw [removeStaleFlakes_cons] at h
    split at h
    · exact ⟨mem_cons_of_mem _ (ih h).1, (ih h).2⟩
    next hkept =>
      obtain rfl | h := mem_cons.mp h
      · exact ⟨mem_cons_self, by simp_all⟩
      · exact ⟨mem_cons_of_mem _ (ih h).1, (ih h).2⟩

theorem mem_stored_of_collectOverlayOnly {toT : ℤ} (h : f ∈ collectOverlayOnly n g index toT) :
    f ∈ n.stored g ∧ f.op = true := by
  obtain ⟨hin, hop⟩ := mem_of_removeStaleFlakes h
  have hread := (mem_filter.mp ((mergeSort_perm _ _).mem_iff.mp hin)).1
  exact ⟨(fullRead_perm n g index).mem_iff.mp hread, hop⟩

/-- The flakes of a fact are hashed alike. -/
def HashedAlike (v : Flake V) (flakes : List (Flake V)) : Prop :=
  ∀ f ∈ flakes, ∀ f' ∈ flakes, v.eq f = true → v.eq f' = true → f.same f' = true

/-- A fact is left if the last flake of it asserts. -/
theorem any_removeStaleFlakes {flakes : List (Flake V)} {v : Flake V} (h : HashedAlike v flakes) :
    ((removeStaleFlakes flakes).any fun f => v.eq f) = OpLog.final false (opsEq v flakes) := by
  induction flakes with
  | nil => rfl
  | cons f flakes ih =>
    have ih := ih fun e he e' he' => h e (mem_cons_of_mem _ he) e' (mem_cons_of_mem _ he')
    rw [removeStaleFlakes_cons]
    cases hv : v.eq f with
    | false =>
      have hlog : opsEq v (f :: flakes) = opsEq v flakes := by simp [opsEq, hv]
      rw [hlog, ← ih]
      split
      · rfl
      · rw [any_cons, hv, Bool.false_or]
    | true =>
      have hlog : opsEq v (f :: flakes) = opOf f :: opsEq v flakes := by simp [opsEq, hv]
      have hsame : (flakes.any fun f' => f.same f') = flakes.any fun f' => v.eq f' := by
        rw [Bool.eq_iff_iff, any_eq_true, any_eq_true]
        refine exists_congr fun f' => and_congr_right fun hf' => ⟨fun hsame => ?_, fun hv' => ?_⟩
        · exact eq_trans hv (eq_of_same hsame)
        · exact h f mem_cons_self f' (mem_cons_of_mem _ hf') hv hv'
      rw [hlog, OpLog.final_cons, hsame]
      cases hany : flakes.any fun f' => v.eq f' with
      | true =>
        -- a later flake of the fact decides, whatever was before
        obtain ⟨f', hf', heq⟩ := any_eq_true.mp hany
        have hne : opsEq v flakes ≠ [] := ne_nil_of_mem
          (mem_map_of_mem (mem_filter.mpr ⟨hf', heq⟩))
        rw [Bool.true_or, if_pos rfl, ih]
        unfold OpLog.final
        rw [getLast?_eq_some_getLast hne]
        rfl
      | false =>
        have hnone : ∀ f' ∈ flakes, ¬ v.eq f' = true := by
          simpa using any_eq_false.mp hany
        rw [opsEq_eq_nil hnone] at ih ⊢
        change _ = f.op
        cases hop : f.op with
        | true => simp [hv]
        | false => exact ih

/-- Within a fact every index goes by the time, and then by the operation. -/
theorem before_of_indexLe {a b : Flake V} (heq : a.eq b = true) (h : indexLe index a b = true) :
    OpLog.Before (opOf a) (opOf b) := by
  have hkey := keyCmp_of_eq heq
  simp only [keyCmp, Ordering.then_eq_eq] at hkey
  obtain ⟨⟨⟨hs, hp⟩, ho⟩, hm⟩ := hkey
  have horder : ((compare a.t b.t).then (compare a.op b.op)).isLE = true := by
    unfold indexLe at h
    cases index with
    | spot => simpa [IndexType.compare, Flake.cmpSpot, hs, hp, ho, hm] using h
    | psot => simpa [IndexType.compare, Flake.cmpPsot, hs, hp, ho, hm] using h
    | post => simpa [IndexType.compare, Flake.cmpPost, hs, hp, ho, hm] using h
    | opst => simpa [IndexType.compare, Flake.cmpOpst, hs, hp, ho, hm] using h
  exact before_of_isLE horder

/-- A read of a graph has a fact if the last stored operation on it asserts. -/
theorem any_collectOverlayOnly {n : Novelty V} {g : ℕ} {v : Flake V} (h : HashedAlike v (n.stored g))
    (index : IndexType) (toT : ℤ) :
    ((collectOverlayOnly n g index toT).any fun f => v.eq f) = true ↔
      OpLog.LastAsserts (opsEq v (n.stored g)) toT := by
  unfold collectOverlayOnly
  dsimp only
  generalize hsorted : mergeSort _ _ = sorted
  have hperm : sorted.Perm ((n.stored g).filter fun f => decide (f.t ≤ toT)) := by
    rw [← hsorted]
    exact (mergeSort_perm _ _).trans ((fullRead_perm n g index).filter _)
  rw [any_removeStaleFlakes fun f hf f' hf' => h f (mem_filter.mp (hperm.mem_iff.mp hf)).1 f'
    (mem_filter.mp (hperm.mem_iff.mp hf')).1]
  have hmem : ∀ op, op ∈ opsEq v sorted ↔ op ∈ opsEq v (n.stored g) ∧ op.1 ≤ toT := by
    intro op
    unfold opsEq
    rw [mem_map, mem_map]
    constructor
    · rintro ⟨f, hf, rfl⟩
      obtain ⟨hin, heq⟩ := mem_filter.mp hf
      obtain ⟨hin, hle⟩ := mem_filter.mp (hperm.mem_iff.mp hin)
      exact ⟨⟨f, mem_filter.mpr ⟨hin, heq⟩, rfl⟩, of_decide_eq_true hle⟩
    · rintro ⟨⟨f, hf, rfl⟩, hle⟩
      obtain ⟨hin, heq⟩ := mem_filter.mp hf
      have hin' := hperm.mem_iff.mpr (mem_filter.mpr ⟨hin, decide_eq_true hle⟩)
      exact ⟨f, mem_filter.mpr ⟨hin', heq⟩, rfl⟩
  have hbefore : (opsEq v sorted).Pairwise OpLog.Before := by
    have hpairs : sorted.Pairwise fun a b => indexLe index a b = true := by
      rw [← hsorted]
      refine pairwise_mergeSort (fun a b c hab hbc => ?_) (fun a b => ?_) _
      · exact Std.TransCmp.isLE_trans hab hbc
      · have hswap : index.compare b a = (index.compare a b).swap := Std.OrientedCmp.eq_swap
        unfold indexLe
        rw [hswap]
        cases index.compare a b <;> rfl
    refine pairwise_map.mpr ((hpairs.filter _).imp_of_mem fun {a b} ha hb hab => ?_)
    exact before_of_indexLe (eq_trans (eq_symm (mem_filter.mp ha).2) (mem_filter.mp hb).2)
      hab
  have hall : (opsEq v sorted).filter (fun op => decide (op.1 ≤ toT)) = opsEq v sorted :=
    filter_eq_self.mpr fun op hop => decide_eq_true ((hmem op).mp hop).2
  rw [← hall, ← OpLog.lastAsserts_iff_final hbefore]
  exact OpLog.lastAsserts_congr fun op hle => by rw [hmem, and_iff_left hle]

/-! ### States -/

/-- A state without an index: the snapshot is the one of time 0 with the deltas of the
commits. -/
structure LedgerState (Id V : Type) [ObjectValue V] where
  snapshot : LedgerSnapshot
  novelty : Novelty V
  headCommitId : Option Id

namespace LedgerState

variable (st : LedgerState Id V)

def t : ℤ := max st.novelty.t 0

/-- The graph of a key: by the IRI of its Sid. -/
def graphOf : Option Sid → Option ℕ
  | none => some (defaultGraphId : ℕ)
  | some sid => (st.snapshot.decodeSid sid).bind st.snapshot.graphRegistry.graphIdForIri

/-- The flakes of a key that a read at a time finds. -/
def assertedForKey (key : ConflictKey) (toT : ℤ) : List (Flake V) :=
  match st.graphOf key.g with
  | none => []
  | some g =>
    ((collectOverlayOnly st.novelty g .spot toT).filter fun f => f.s == key.s && f.p == key.p).filter
      fun f => f.op && f.g == key.g

def currentAssertedForKey (key : ConflictKey) : List (Flake V) := st.assertedForKey key st.t

/-- A value of a key is found by a read at a time. -/
def HoldsAt (v : Flake V) (toT : ℤ) : Prop :=
  ∃ f ∈ st.assertedForKey (conflictKey v) toT, v.eq f = true

def Holds (v : Flake V) : Prop := st.HoldsAt v st.t

end LedgerState

/-- The namespace of the subjects that stand for commits. -/
def flureeCommit : ℕ := 9

/-- What the code takes from elsewhere: the sorts of the standard library, the order in
which a hash map is visited, the split of IRIs that the first commit fixes, and the
flakes that describe a commit. All that matters of the latter is where they go, and
that they do not tell the times of the flakes of the commit. -/
structure Runtime (Id V : Type) [ObjectValue V] where
  sort : Bool → UnstableSort
  order : HashMap.IterOrder ℕ String
  nsSplitMode : NsSplitMode
  generateCommitFlakes : Id → Commit Id V → String → ℤ → List (Flake V)
  generated : ∀ {x : Id} {c : Commit Id V} {ledgerId : String} {t : ℤ} {f : Flake V},
    f ∈ generateCommitFlakes x c ledgerId t →
      f.g = none ∧ f.s.namespaceCode = flureeCommit ∧ f.t = t ∧ f.op = true
  generated_timeless : ∀ (x : Id) (c : Commit Id V) (time : ℤ) (ledgerId : String) (t : ℤ),
    generateCommitFlakes x { c with flakes := c.flakes.map fun f => { f with t := time } }
      ledgerId t = generateCommitFlakes x c ledgerId t

/-- A runtime that describes commits by no flake. -/
noncomputable def silentRuntime (Id V : Type) [ObjectValue V] : Runtime Id V where
  sort := Sample.sorts
  order := HashMap.IterOrder.listed ℕ String
  nsSplitMode := .mostGranular
  generateCommitFlakes _ _ _ _ := []
  generated h := nomatch h
  generated_timeless _ _ _ _ _ := rfl

/-- Flakes about commits that name no graph go to the given one. -/
def stampGraphOnCommitFlakes (flakes : List (Flake V)) (graphSid : Sid) : List (Flake V) :=
  flakes.map fun f =>
    if f.g.isNone && f.s.namespaceCode == flureeCommit then { f with g := some graphSid } else f

inductive LedgerError
  | snapshot (err : SnapshotError)
  | novelty (err : NoveltyError)

/-- The snapshot that a load starts from. -/
def Runtime.genesis (rt : Runtime Id V) (ledgerId : String) : LedgerSnapshot :=
  { LedgerSnapshot.genesis ledgerId with nsSplitMode := rt.nsSplitMode }

variable {st : LedgerState Id V}

section

variable [DecidableEq Id] (rt : Runtime Id V) (ledgerId : String) (dag : CommitDag Id V)
  (head : Id)

/-- The flakes of the commits and of their descriptions, commit by commit. -/
def commitBatches : List (List (Flake V) × ℤ) :=
  (traceIds dag head 0).map fun x =>
    ((dag.commit x).flakes ++ rt.generateCommitFlakes x (dag.commit x) ledgerId (dag.t x), dag.t x)

/-- The namespaces that the commits register; the newest commit that has a code wins. -/
def mergedNsDelta : HashMap ℕ String :=
  (traceCommitsById dag head 0).foldl (fun delta c => delta ∪ c.namespaceDelta) ∅

def allGraphIris : List String :=
  (traceCommitsById dag head 0).flatMap fun c => (rt.order.iter c.graphDelta).map Prod.snd

def loadNovelty : Except LedgerError (LedgerState Id V) := do
  let snapshot ← ((rt.genesis ledgerId).applyEnvelopeDeltas rt.order (mergedNsDelta dag head)
    (allGraphIris rt dag head)).mapError .snapshot
  let (reverseGraph, graphSid) ← snapshot.commitRouting.mapError .snapshot
  let batches := (commitBatches rt ledgerId dag head).map fun batch =>
    (stampGraphOnCommitFlakes batch.1 graphSid, batch.2)
  let novelty ← ((Novelty.new 0).bulkApplyCommits rt.sort reverseGraph.lookup
    batches.reverse).mapError .novelty
  return ⟨snapshot, novelty, some head⟩

variable {rt ledgerId dag head}

theorem loadNovelty_ok (h : loadNovelty rt ledgerId dag head = .ok st) :
    ∃ reverseGraph graphSid,
      (rt.genesis ledgerId).applyEnvelopeDeltas rt.order (mergedNsDelta dag head)
          (allGraphIris rt dag head) = .ok st.snapshot ∧
        st.snapshot.commitRouting = .ok (reverseGraph, graphSid) ∧
        (Novelty.new 0).bulkApplyCommits rt.sort reverseGraph.lookup
            ((commitBatches rt ledgerId dag head).map fun batch =>
              (stampGraphOnCommitFlakes batch.1 graphSid, batch.2)).reverse = .ok st.novelty ∧
          st.headCommitId = some head := by
  obtain ⟨snapshot, hsnapshot, h⟩ := Checked.bind_eq_ok.mp h
  obtain ⟨⟨reverseGraph, graphSid⟩, hrouting, h⟩ := Checked.bind_eq_ok.mp h
  obtain ⟨novelty, hnovelty, h⟩ := Checked.bind_eq_ok.mp h
  cases h
  exact ⟨reverseGraph, graphSid, Checked.mapError_eq_ok.mp hsnapshot,
    Checked.mapError_eq_ok.mp hrouting, Checked.mapError_eq_ok.mp hnovelty, rfl⟩

end

/-! ### What a load leaves -/

def factOps (v : Flake V) (flakes : List (Flake V)) : OpLog :=
  opsEq v (flakes.filter fun f => f.g == v.g)

variable {v : Flake V}

theorem mem_factOps {op : ℤ × Bool} :
    op ∈ factOps v flakes ↔ ∃ f ∈ flakes, f.g = v.g ∧ v.eq f = true ∧ opOf f = op := by
  simp only [factOps, opsEq, mem_map, mem_filter, beq_iff_eq, and_assoc]

/-- One of the flakes asserts the fact, or retracts it. -/
abbrev HasOp (flakes : List (Flake V)) (v : Flake V) (asserts : Bool) : Prop :=
  ∃ f ∈ flakes, f.g = v.g ∧ v.eq f = true ∧ f.op = asserts

/-- If there is a flake of the fact, all flakes of its graph with its identity are, and they
are hashed alike. -/
def ToldApart (v : Flake V) (flakes : List (Flake V)) : Prop :=
  ∀ f ∈ flakes, ∀ f' ∈ flakes, f.g = v.g → f'.g = v.g → v.eq f = true → keyCmp v f' = .eq →
    f.same f' = true

/-- A read of a graph whose flakes have the Sid of the fact. -/
theorem LedgerState.holdsAt_iff (hg : st.graphOf v.g = some g)
    (hsid : ∀ f ∈ st.novelty.stored g, f.g = v.g) (hhash : HashedAlike v (st.novelty.stored g))
    (toT : ℤ) :
    st.HoldsAt v toT ↔ OpLog.LastAsserts (opsEq v (st.novelty.stored g)) toT := by
  rw [← any_collectOverlayOnly hhash .spot, any_eq_true]
  have hread : st.assertedForKey (conflictKey v) toT =
      ((collectOverlayOnly st.novelty g .spot toT).filter fun f => f.s == v.s && f.p == v.p).filter
        fun f => f.op && f.g == v.g := by
    unfold assertedForKey
    split
    next hnone => exact absurd (hg.symm.trans hnone) (by simp)
    next g' hg' =>
      rw [Option.some.inj (hg.symm.trans hg')]
      rfl
  unfold HoldsAt
  rw [hread]
  refine exists_congr fun f => and_congr_left fun heq => ?_
  rw [mem_filter, mem_filter, and_assoc, and_iff_left_iff_imp]
  intro hf
  obtain ⟨hstored, hop⟩ := mem_stored_of_collectOverlayOnly hf
  simp only [Flake.eq, Bool.and_eq_true, beq_iff_eq] at heq
  simp [hop, hsid f hstored, heq.1.1.1.1, heq.1.1.1.2]

variable {reverseGraph : Sid → Option GraphId} {batches : List (List (Flake V) × ℤ)}
  {sort : Bool → UnstableSort}

/-- What a bulk load that returns was given goes to known graphs, and its time is that of
the latest commit. -/
theorem bulkApplyCommits_ok {n' : Novelty V}
    (h : n.bulkApplyCommits sort reverseGraph batches = .ok n') :
    (∀ f ∈ batches.flatMap Prod.fst, ∃ g, resolveFlakeGId reverseGraph f = .ok g) ∧
      n'.t = batches.foldl (fun t batch => max t batch.2) n.t := by
  obtain ⟨routed, hroute, h⟩ := Checked.bind_eq_ok.mp h
  refine ⟨resolves_of_route hroute, ?_⟩
  split at h
  · cases h
    rfl
  · cases h
    rfl

omit [ObjectValue V] in
theorem routesTo_iff {g : GraphId} :
    routesTo reverseGraph g f = true ↔
      (f.g = none ∧ g = 0) ∨ ∃ sid, f.g = some sid ∧ reverseGraph sid = some g := by
  unfold routesTo resolveFlakeGId
  cases f.g with
  | none =>
    constructor
    · exact fun h => .inl ⟨rfl, (beq_iff_eq.mp h).symm⟩
    · rintro (⟨-, rfl⟩ | ⟨sid, hsid, -⟩)
      · exact beq_self_eq_true _
      · cases hsid
  | some sid =>
    cases hsid : reverseGraph sid with
    | none => simp [hsid]
    | some => simp [hsid]

omit [ObjectValue V] in
theorem resolves_iff :
    (∃ g, resolveFlakeGId reverseGraph f = .ok g) ↔ ∃ g, routesTo reverseGraph g f = true := by
  unfold routesTo
  cases resolveFlakeGId reverseGraph f with
  | error => simp
  | ok => simp

omit [ObjectValue V] in
theorem sid_of_routesTo (hrouting : LedgerSnapshot.Routing reverseGraph) {g : GraphId}
    {f f' : Flake V} (hf : routesTo reverseGraph g f = true)
    (hf' : routesTo reverseGraph g f' = true) : f.g = f'.g := by
  obtain ⟨hnone, hg⟩ | ⟨sid, hsid, hg⟩ := routesTo_iff.mp hf
  · obtain ⟨hnone', -⟩ | ⟨sid', -, hg'⟩ := routesTo_iff.mp hf'
    · rw [hnone, hnone']
    · rw [hg] at hg'
      exact absurd hg' hrouting.named
  · obtain ⟨-, hg'⟩ | ⟨sid', hsid', hg'⟩ := routesTo_iff.mp hf'
    · rw [hg'] at hg
      exact absurd hg hrouting.named
    · rw [hsid, hsid', hrouting.injective hg hg']

theorem LedgerState.graphOf_of_routesTo (hplain : st.snapshot.Plain) {map : HashMap Sid GraphId}
    (hbuild : st.snapshot.buildReverseGraph = .ok map) {g : GraphId}
    (h : routesTo map.lookup g f = true) : st.graphOf f.g = some (g : ℕ) := by
  obtain ⟨hnone, rfl⟩ | ⟨sid, hsid, hg⟩ := routesTo_iff.mp h
  · rw [hnone]
    rfl
  · obtain ⟨-, iri, hslot, hiri⟩ := (LedgerSnapshot.lookup_buildReverseGraph hbuild).mp hg
    rw [hsid]
    change (st.snapshot.decodeSid sid).bind _ = _
    rw [hplain.decode_encode hiri]
    exact st.snapshot.graphRegistry.graphIdForIri_eq_some.mpr hslot

theorem LedgerState.graphOf_lt {sid : Option Sid} (h : st.graphOf sid = some g) : g < 2 ^ 16 := by
  cases sid with
  | none =>
    cases h
    exact Fin.isLt _
  | some =>
    obtain ⟨iri, -, hiri⟩ := Option.bind_eq_some_iff.mp h
    have hslot := st.snapshot.graphRegistry.graphIdForIri_eq_some.mp hiri
    exact (List.getElem?_eq_some_iff.mp hslot).1.trans st.snapshot.graphRegistry.fits

/-- What a read of a key finds is one of the flakes that were loaded, of the key's graph. -/
theorem LedgerState.mem_loaded_of_asserted
    (hbulk : (Novelty.new 0).bulkApplyCommits sort reverseGraph batches = .ok st.novelty)
    {key : ConflictKey} {toT : ℤ} (hf : f ∈ st.assertedForKey key toT) :
    f ∈ batches.flatMap Prod.fst ∧ f.g = key.g := by
  unfold LedgerState.assertedForKey at hf
  split at hf
  · cases hf
  next g hg =>
    obtain ⟨hf, hop⟩ := mem_filter.mp hf
    have hin : f ∈ st.novelty.stored ((⟨g, LedgerState.graphOf_lt hg⟩ : GraphId) : ℕ) :=
      (mem_stored_of_collectOverlayOnly (mem_filter.mp hf).1).1
    rw [Bool.and_eq_true, beq_iff_eq] at hop
    exact ⟨(mem_filter.mp (mem_stored_bulkApplyCommits sort hbulk hin)).1, hop.2⟩

/-- What a loaded state has of a fact at a time is said by the operations of the
commits. -/
theorem loaded_holdsAt (hplain : st.snapshot.Plain) {map : HashMap Sid GraphId}
    (hbuild : st.snapshot.buildReverseGraph = .ok map)
    (hbulk : (Novelty.new 0).bulkApplyCommits sort map.lookup batches = .ok st.novelty)
    (htold : ToldApart v (batches.flatMap Prod.fst)) (toT : ℤ) :
    st.HoldsAt v toT ↔ OpLog.LastAsserts (factOps v (batches.flatMap Prod.fst)) toT := by
  have hrouting := LedgerSnapshot.routing_of_buildReverseGraph hbuild
  have hmem : ∀ {g : GraphId} {f : Flake V}, f ∈ bulkBatch map.lookup batches g →
      f ∈ batches.flatMap Prod.fst ∧ routesTo map.lookup g f = true := mem_filter.mp
  have hstored : ∀ {g : GraphId} {f : Flake V}, f ∈ st.novelty.stored g →
      f ∈ bulkBatch map.lookup batches g := mem_stored_bulkApplyCommits sort hbulk
  by_cases hany : ∃ f ∈ batches.flatMap Prod.fst, f.g = v.g
  · obtain ⟨first, hfirst, hsid⟩ := hany
    obtain ⟨g, hg⟩ := resolves_iff.mp ((bulkApplyCommits_ok hbulk).1 first hfirst)
    have hgraph : st.graphOf v.g = some (g : ℕ) :=
      hsid ▸ LedgerState.graphOf_of_routesTo hplain hbuild hg
    have hsame : ∀ f ∈ bulkBatch map.lookup batches g, f.g = v.g := fun f hf =>
      (sid_of_routesTo hrouting (hmem hf).2 hg).trans hsid
    have htold : ∀ f ∈ bulkBatch map.lookup batches g, ∀ f' ∈ bulkBatch map.lookup batches g,
        v.eq f = true → keyCmp v f' = .eq → f.same f' = true := fun f hf f' hf' =>
      htold f (hmem hf).1 f' (hmem hf').1 (hsame f hf) (hsame f' hf')
    have hlog := mem_opsEq_bulkApplyCommits sort hbulk (v := v) (g := g) fun f hf f' hf' heq hkey =>
      eq_trans heq (eq_of_same (htold f hf f' hf' heq hkey))
    have hhash : HashedAlike v (st.novelty.stored g) := fun f hf f' hf' heq heq' =>
      htold f (hstored hf) f' (hstored hf') heq (keyCmp_of_eq heq')
    rw [LedgerState.holdsAt_iff hgraph (fun f hf => hsame f (hstored hf)) hhash,
      OpLog.lastAsserts_congr fun op _ => hlog op, OpLog.lastAsserts_kept]
    have hbatch : bulkBatch map.lookup batches g =
        (batches.flatMap Prod.fst).filter fun f => f.g == v.g := by
      refine filter_congr fun f hf => ?_
      rw [Bool.eq_iff_iff, beq_iff_eq]
      refine ⟨fun hroute => (sid_of_routesTo hrouting hroute hg).trans hsid, fun heq => ?_⟩
      rw [routesTo_iff] at hg ⊢
      rwa [heq, ← hsid]
    rw [hbatch]
    rfl
  · -- no flake has the Sid of the fact, neither given nor stored
    have hops : factOps v (batches.flatMap Prod.fst) = [] := by
      refine eq_nil_iff_forall_not_mem.mpr fun op hop => ?_
      obtain ⟨f, hf, hsid, -⟩ := mem_factOps.mp hop
      exact hany ⟨f, hf, hsid⟩
    rw [hops, iff_false_right (OpLog.not_lastAsserts_nil toT)]
    rintro ⟨f, hf, -⟩
    exact hany ⟨f, LedgerState.mem_loaded_of_asserted hbulk hf⟩

end FlureeDb.Ledger
