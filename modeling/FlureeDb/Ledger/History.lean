import FlureeDb.Ledger.State

/-!
Histories: commits as the code writes them. The flakes of a commit have its time, times
are positive, and the codes of namespaces are allocated ones. Novelty knows a fact by the
comparators and a read by a hash table; a history tells facts apart if the two agree. A state
loaded from a head of such a history has a fact of the data at a time if the last operation up
to it, over all ancestors of the head, asserts.
-/

namespace FlureeDb.Ledger

open Branch FlureeDb.Core Lib Novelty List LedgerSnapshot

variable {Id V : Type} [ObjectValue V]

/-- The data are the facts whose subject is no commit; the flakes that describe commits
are about commits. -/
def IsData (v : Flake V) : Prop := v.s.namespaceCode ≠ flureeCommit

instance (v : Flake V) : Decidable (IsData v) := inferInstanceAs (Decidable (_ ≠ _))

variable {v f : Flake V}

omit [ObjectValue V] in
theorem isData_of_subject (h : IsData v) (hs : f.s = v.s) : IsData f := by
  unfold IsData
  rw [hs]
  exact h

theorem subject_of_keyCmp {a b : Flake V} (h : keyCmp a b = .eq) : b.s = a.s := by
  simp only [keyCmp, Ordering.then_eq_eq] at h
  exact ((Sid.cmp_eq_iff _ _).mp h.1.1.1).symm

theorem isData_of_eq (h : IsData v) (heq : v.eq f = true) : IsData f :=
  isData_of_subject h (subject_of_keyCmp (keyCmp_of_eq heq))

structure History (Id V : Type) [ObjectValue V] extends CommitDag Id V where
  positive : ∀ x ∈ ids, 0 < (commit x).t
  stamped : ∀ x ∈ ids, ∀ f ∈ (commit x).flakes, f.t = (commit x).t
  codes : ∀ x ∈ ids, NamespaceCodes.UserCodes (commit x).namespaceDelta

/-- Flakes of data that the comparators take for one fact are equal and hashed alike. -/
def History.TellsApart (hist : History Id V) : Prop :=
  ∀ x ∈ hist.ids, ∀ y ∈ hist.ids, ∀ f ∈ (hist.commit x).flakes, ∀ f' ∈ (hist.commit y).flakes,
    IsData f → f.g = f'.g → keyCmp f f' = .eq → f.same f' = true

section

variable [DecidableEq Id] (rt : Runtime Id V) (ledgerId : String) (dag : CommitDag Id V)
  (head : Id)

/-- All flakes that a load puts into novelty. -/
def loadedFlakes (graphSid : Sid) : List (Flake V) :=
  (traceIds dag head 0).reverse.flatMap fun x =>
    stampGraphOnCommitFlakes ((dag.commit x).flakes ++
      rt.generateCommitFlakes x (dag.commit x) ledgerId (dag.t x)) graphSid

variable {rt ledgerId dag head}

theorem flatMap_batches (graphSid : Sid) :
    ((commitBatches rt ledgerId dag head).map fun batch =>
      (stampGraphOnCommitFlakes batch.1 graphSid, batch.2)).reverse.flatMap Prod.fst =
        loadedFlakes rt ledgerId dag head graphSid := by
  unfold commitBatches loadedFlakes
  rw [← map_reverse, ← map_reverse, flatMap_map, flatMap_map]

omit [ObjectValue V] in
theorem lookup_mergedNsDelta {code : ℕ} {text : String}
    (h : (mergedNsDelta dag head).lookup code = some text) :
    ∃ x ∈ traceIds dag head 0, (dag.commit x).namespaceDelta.lookup code = some text := by
  obtain h | ⟨c, hc, h⟩ := HashMap.lookup_foldl_union (fun c : Commit Id V => c.namespaceDelta) h
  · rw [Finmap.lookup_empty] at h
    cases h
  · obtain ⟨x, hx, rfl⟩ := mem_map.mp hc
    exact ⟨x, hx, h⟩

/-- The flakes of data that a load puts into novelty are those of the commits. -/
theorem mem_loadedFlakes {graphSid : Sid} (hdata : IsData f) :
    f ∈ loadedFlakes rt ledgerId dag head graphSid ↔
      ∃ x ∈ traceIds dag head 0, f ∈ (dag.commit x).flakes := by
  have hstamp : ∀ f' : Flake V, (if f'.g.isNone && f'.s.namespaceCode == flureeCommit then
      { f' with g := some graphSid } else f') = f ↔ f' = f := by
    intro f'
    split
    next hcommit =>
      rw [Bool.and_eq_true, beq_iff_eq] at hcommit
      refine ⟨fun heq => ?_, fun heq => ?_⟩
      · rw [← heq] at hdata
        exact absurd hcommit.2 hdata
      · rw [heq] at hcommit
        exact absurd hcommit.2 hdata
    next => rfl
  unfold loadedFlakes stampGraphOnCommitFlakes
  simp only [mem_flatMap, mem_reverse, mem_map, hstamp, exists_eq_right,
    mem_append]
  refine exists_congr fun x => and_congr_right fun _ => or_iff_left fun hgen => ?_
  exact hdata (rt.generated hgen).2.1

end

theorem foldl_max_attained {α : Type} (l : List (α × ℤ)) (start : ℤ) :
    l.foldl (fun t e => max t e.2) start = start ∨
      ∃ e ∈ l, e.2 = l.foldl (fun t e => max t e.2) start := by
  induction l generalizing start with
  | nil => exact .inl rfl
  | cons e l ih =>
    rw [foldl_cons]
    obtain heq | ⟨e', he', heq⟩ := ih (max start e.2)
    · rw [heq]
      exact (max_choice start e.2).imp_right fun hmax => ⟨e, mem_cons_self, hmax.symm⟩
    · exact .inr ⟨e', mem_cons_of_mem _ he', heq⟩

variable {st : LedgerState Id V}

namespace History

variable [DecidableEq Id] {rt : Runtime Id V} {ledgerId : String} (hist : History Id V)
  {head : Id}

def ops (head : Id) (v : Flake V) : OpLog :=
  (traceIds hist.toCommitDag head 0).flatMap fun x => factOps v (hist.commit x).flakes

variable {hist}

theorem mem_ops {op : ℤ × Bool} (hhead : head ∈ hist.ids) :
    op ∈ hist.ops head v ↔
      ∃ x, hist.Reaches head x ∧ op ∈ factOps v (hist.commit x).flakes := by
  unfold ops
  rw [mem_flatMap]
  exact exists_congr fun x => and_congr_left fun _ => mem_traceIds_zero hist.positive hhead

variable (hhead : head ∈ hist.ids) (h : loadNovelty rt ledgerId hist.toCommitDag head = .ok st)

include hhead h

theorem load_plain : st.snapshot.Plain := by
  obtain ⟨_, _, happly, -⟩ := loadNovelty_ok h
  refine (applyEnvelopeDeltas_ok happly).plain
    (plain_genesis ledgerId) fun code text hlookup => ?_
  obtain ⟨x, hx, hlookup⟩ := lookup_mergedNsDelta hlookup
  exact hist.codes x (mem_ids_of_mem_traceIds hhead hx) code text hlookup

/-- What a loaded state has of the data is a flake of a commit. -/
theorem mem_commit_of_asserted (hdata : IsData f) {key : ConflictKey} {toT : ℤ}
    (hf : f ∈ st.assertedForKey key toT) : ∃ x ∈ hist.ids, f ∈ (hist.commit x).flakes := by
  obtain ⟨_, graphSid, -, -, hbulk, -⟩ := loadNovelty_ok h
  have hloaded := (LedgerState.mem_loaded_of_asserted hbulk hf).1
  rw [flatMap_batches, mem_loadedFlakes hdata] at hloaded
  obtain ⟨x, hx, hin⟩ := hloaded
  exact ⟨x, mem_ids_of_mem_traceIds hhead hx, hin⟩

/-- A loaded state has a fact of the data if the last operation of the ancestors on it
asserts. -/
theorem load_holdsAt (htells : hist.TellsApart) (hdata : IsData v) (toT : ℤ) :
    st.HoldsAt v toT ↔ OpLog.LastAsserts (hist.ops head v) toT := by
  obtain ⟨map, graphSid, -, hrouting, hbulk, -⟩ := loadNovelty_ok h
  have hbuild := (commitRouting_ok hrouting).1
  have htold : ToldApart v (loadedFlakes rt ledgerId hist.toCommitDag head graphSid) := by
    intro f hf f' hf' hg hg' heq hkey
    obtain ⟨x, hx, hin⟩ := (mem_loadedFlakes (isData_of_eq hdata heq)).mp hf
    obtain ⟨y, hy, hin'⟩ :=
      (mem_loadedFlakes (isData_of_subject hdata (subject_of_keyCmp hkey))).mp hf'
    refine htells x (mem_ids_of_mem_traceIds hhead hx) y (mem_ids_of_mem_traceIds hhead hy) f hin
      f' hin' (isData_of_eq hdata heq) (hg.trans hg'.symm) ?_
    exact keyCmp_trans (keyCmp_symm (keyCmp_of_eq heq)) hkey
  rw [← flatMap_batches] at htold
  rw [loaded_holdsAt (load_plain hhead h) hbuild hbulk htold, flatMap_batches]
  refine OpLog.lastAsserts_congr fun op _ => ?_
  unfold ops
  rw [mem_factOps, mem_flatMap]
  constructor
  · rintro ⟨f, hf, hg, heq, hop⟩
    obtain ⟨x, hx, hin⟩ := (mem_loadedFlakes (isData_of_eq hdata heq)).mp hf
    exact ⟨x, hx, mem_factOps.mpr ⟨f, hin, hg, heq, hop⟩⟩
  · rintro ⟨x, hx, hops⟩
    obtain ⟨f, hin, hg, heq, hop⟩ := mem_factOps.mp hops
    exact ⟨f, (mem_loadedFlakes (isData_of_eq hdata heq)).mpr ⟨x, hx, hin⟩, hg, heq, hop⟩

theorem load_t :
    (∀ x, hist.Reaches head x → hist.t x ≤ st.t) ∧ ∃ x, hist.Reaches head x ∧ hist.t x = st.t := by
  obtain ⟨map, graphSid, -, -, hbulk, -⟩ := loadNovelty_ok h
  have ht := (bulkApplyCommits_ok hbulk).2
  have hbound := (Segment.le_foldl_max Prod.snd (((commitBatches rt ledgerId hist.toCommitDag
    head).map fun batch => (stampGraphOnCommitFlakes batch.1 graphSid, batch.2)).reverse) 0).2
  have hattained := foldl_max_attained (((commitBatches rt ledgerId hist.toCommitDag
    head).map fun batch => (stampGraphOnCommitFlakes batch.1 graphSid, batch.2)).reverse) 0
  rw [show (0 : ℤ) = (new 0 : Novelty V).t from rfl, ← ht] at hbound hattained
  have hbatch : ∀ time, (∃ batch ∈ ((commitBatches rt ledgerId hist.toCommitDag head).map
      fun batch => (stampGraphOnCommitFlakes batch.1 graphSid, batch.2)).reverse,
        batch.2 = time) ↔ ∃ x, hist.Reaches head x ∧ hist.t x = time := by
    intro time
    simp [commitBatches, mem_traceIds_zero hist.positive hhead]
  have hle : ∀ x, hist.Reaches head x → hist.t x ≤ st.novelty.t := by
    intro x hx
    obtain ⟨batch, hin, heq⟩ := (hbatch (hist.t x)).mpr ⟨x, hx, rfl⟩
    exact heq ▸ hbound batch hin
  have hpositive : 0 < st.novelty.t :=
    (hist.positive head hhead).trans_le (hle head (Reaches.refl _ head))
  have hst : st.t = st.novelty.t := max_eq_left hpositive.le
  rw [hst]
  refine ⟨hle, (hbatch st.novelty.t).mp (hattained.resolve_left ?_)⟩
  exact hpositive.ne'

theorem ops_le {op : ℤ × Bool} (hop : op ∈ hist.ops head v) : op.1 ≤ st.t := by
  obtain ⟨x, hreach, hop⟩ := (mem_ops hhead).mp hop
  obtain ⟨f, hf, -, -, rfl⟩ := mem_factOps.mp hop
  have hx := CommitDag.Reaches.mem_ids hreach hhead
  exact (hist.stamped x hx f hf).trans_le ((load_t hhead h).1 x hreach)

/-- A loaded state has a value if the last operation of all on it asserts. -/
theorem load_holds (htells : hist.TellsApart) (hdata : IsData v) :
    st.Holds v ↔ OpLog.EndsAsserted (hist.ops head v) := by
  unfold LedgerState.Holds
  rw [load_holdsAt hhead h htells hdata]
  exact OpLog.lastAsserts_iff_endsAsserted fun op hop => ops_le hhead h hop

end History

end FlureeDb.Ledger
