import FlureeDb.Ledger.History

/-!
Making a commit. Flakes are staged over a state if their graphs are registered in it.
A commit gets the time after that of the state, the head of the state as its first
parent, and the merge parents behind it. It is written with the flakes as they are; the
encoding has no times of flakes, so that a commit is read back with all flakes at its
own time.

The clock of a commit, its signatures and its transaction are left out, and the encoding
is taken to read back what was written.
-/

namespace FlureeDb.Ledger

open Branch FlureeDb.Core Lib Novelty List CommitDag.Reaches Lib.Reaches

variable {Id V : Type} [ObjectValue V]

inductive TransactError
  | unknownGraph (sid : Sid)
  | emptyTransaction
  | noveltyAtMax
  | noveltyWouldExceed (currentBytes deltaBytes maxBytes : ℕ)
  | ledger (err : LedgerError)

structure CommitOpts (Id : Type) where
  skipBackpressure : Bool
  mergeParents : List Id
  namespaceDelta : HashMap ℕ String
  graphDelta : HashMap ℕ String

/-- A commit that is built, and the state below it, which has the deltas already. -/
structure StagedCommit (Id V : Type) [ObjectValue V] where
  commit : Commit Id V
  base : LedgerState Id V

/-- A flake of a graph that the state does not know is refused. -/
def stageFlake (reverseGraph : HashMap Sid GraphId) (f : Flake V) : Except TransactError Unit :=
  match f.g with
  | none => .ok ()
  | some sid => if (reverseGraph.lookup sid).isSome then .ok () else .error (.unknownGraph sid)

/-- Staged flakes over a state, for all of whose graphs the state has a number. -/
def newStagedLedger (base : LedgerState Id V) (flakes : List (Flake V)) :
    Except TransactError Unit := do
  let reverseGraph ← base.snapshot.buildReverseGraph.mapError fun err => .ledger (.snapshot err)
  flakes.forM (stageFlake reverseGraph)

def buildCommit (rt : Runtime Id V) (reindexMaxBytes : ℕ) (base : LedgerState Id V)
    (flakes : List (Flake V)) (opts : CommitOpts Id) : Except TransactError (StagedCommit Id V) :=
  let graphIris := (rt.order.iter opts.graphDelta).map Prod.snd
  let registersNewGraph :=
    graphIris.any fun iri => (base.snapshot.graphRegistry.graphIdForIri iri).isNone
  let deltaBytes := (flakes.map Flake.sizeBytes).sum
  let currentBytes := base.novelty.size
  if flakes.isEmpty && opts.mergeParents.isEmpty && !registersNewGraph then
    .error .emptyTransaction
  else if !opts.skipBackpressure && decide (reindexMaxBytes ≤ base.novelty.size) then
    .error .noveltyAtMax
  else if !opts.skipBackpressure && decide (reindexMaxBytes ≤ currentBytes + deltaBytes) then
    .error (.noveltyWouldExceed currentBytes deltaBytes reindexMaxBytes)
  else
    match base.snapshot.applyEnvelopeDeltas rt.order opts.namespaceDelta graphIris with
    | .error err => .error (.ledger (.snapshot err))
    | .ok snapshot =>
      .ok
        { commit :=
            { t := base.t + 1
              parents := base.headCommitId.toList ++ opts.mergeParents
              flakes := flakes
              namespaceDelta := opts.namespaceDelta
              graphDelta := opts.graphDelta }
          base := { base with snapshot := snapshot } }

/-- A commit as it is read back. -/
def stored (c : Commit Id V) : Commit Id V :=
  { c with flakes := c.flakes.map fun f => { f with t := c.t } }

variable {f : Flake V}

omit [ObjectValue V] in
theorem mem_stored {c : Commit Id V} :
    f ∈ (stored c).flakes ↔ ∃ f' ∈ c.flakes, { f' with t := c.t } = f := mem_map

/-! ### What a commit that is built has -/

variable {rt : Runtime Id V} {reindexMaxBytes : ℕ} {base : LedgerState Id V}
  {flakes : List (Flake V)} {opts : CommitOpts Id} {staged : StagedCommit Id V}

theorem buildCommit_ok (h : buildCommit rt reindexMaxBytes base flakes opts = .ok staged) :
    staged.commit =
        ⟨base.t + 1, base.headCommitId.toList ++ opts.mergeParents, flakes, opts.namespaceDelta,
          opts.graphDelta⟩ ∧
      base.snapshot.applyEnvelopeDeltas rt.order opts.namespaceDelta
          ((rt.order.iter opts.graphDelta).map Prod.snd) = .ok staged.base.snapshot ∧
        staged.base.novelty = base.novelty ∧ staged.base.headCommitId = base.headCommitId := by
  unfold buildCommit at h
  dsimp only at h
  split at h
  · cases h
  · split at h
    · cases h
    · split at h
      · cases h
      · split at h
        · cases h
        next snapshot happly =>
          cases h
          exact ⟨rfl, happly, rfl, rfl⟩

variable {ledgerId : String} {dag : CommitDag Id V} {head : Id}

theorem buildCommit_commit [DecidableEq Id] (hload : loadNovelty rt ledgerId dag head = .ok base)
    (h : buildCommit rt reindexMaxBytes base flakes opts = .ok staged) :
    staged.commit = ⟨base.t + 1, head :: opts.mergeParents, flakes, opts.namespaceDelta,
      opts.graphDelta⟩ := by
  obtain ⟨_, _, -, -, -, hheadId⟩ := loadNovelty_ok hload
  rw [(buildCommit_ok h).1, hheadId]
  rfl

/-- A commit without deltas is built if it has a flake or a merge parent, given room. -/
theorem buildCommit_bare {skip : Bool} {merged : List Id} {bytes : ℕ}
    (hcontent : (flakes.isEmpty && merged.isEmpty) = false)
    (hroom : base.novelty.size + (flakes.map Flake.sizeBytes).sum < bytes) :
    buildCommit rt bytes base flakes ⟨skip, merged, ∅, ∅⟩ =
      .ok ⟨⟨base.t + 1, base.headCommitId.toList ++ merged, flakes, ∅, ∅⟩, base⟩ := by
  unfold buildCommit
  dsimp only
  rw [hcontent, decide_eq_false (by omega), decide_eq_false (by omega),
    HashMap.IterOrder.iter_empty, map_nil, base.snapshot.applyEnvelopeDeltas_empty]
  simp

variable [DecidableEq Id] {st : LedgerState Id V}

namespace History

/-- A commit that may be put over a history. -/
structure Appends (hist : History Id V) (x : Id) (c : Commit Id V) : Prop where
  fresh : x ∉ hist.ids
  parents : ∀ y ∈ c.parents, y ∈ hist.ids
  positive : 0 < c.t
  codes : NamespaceCodes.UserCodes c.namespaceDelta

variable {hist : History Id V} {x : Id} {c : Commit Id V}

variable {y : Id} {v : Flake V}

/-- A commit of the history has a flake of the fact, hashed as it is. -/
def HasFact (hist : History Id V) (v : Flake V) : Prop :=
  ∃ y ∈ hist.ids, ∃ f ∈ (hist.commit y).flakes, f.g = v.g ∧ v.same f = true

omit [DecidableEq Id] in
theorem hasFact_of_mem (hy : y ∈ hist.ids) (hf : f ∈ (hist.commit y).flakes) :
    hist.HasFact f := ⟨y, hy, f, hf, rfl, same_equivalence.refl f⟩

def append (h : hist.Appends x c) : History Id V where
  ids := x :: hist.ids
  commit y := if y = x then stored c else hist.commit y
  closed := by
    intro y hy z hz
    split at hz
    · exact mem_cons_of_mem _ (h.parents z hz)
    next hne =>
      exact mem_cons_of_mem _ (hist.closed y ((mem_cons.mp hy).resolve_left hne) z hz)
  positive := by
    intro y hy
    split
    · exact h.positive
    next hne => exact hist.positive y ((mem_cons.mp hy).resolve_left hne)
  stamped := by
    intro y hy f hf
    split at hf
    next hsame =>
      rw [if_pos hsame]
      obtain ⟨f', -, rfl⟩ := mem_stored.mp hf
      rfl
    next hne =>
      rw [if_neg hne]
      exact hist.stamped y ((mem_cons.mp hy).resolve_left hne) f hf
  codes := by
    intro y hy
    split
    · exact h.codes
    next hne => exact hist.codes y ((mem_cons.mp hy).resolve_left hne)

section

variable (h : hist.Appends x c)

theorem append_commit_self : (append h).commit x = stored c := if_pos rfl

theorem append_commit_of_mem (hy : y ∈ hist.ids) : (append h).commit y = hist.commit y := by
  have hne : y ≠ x := fun hsame => h.fresh (hsame ▸ hy)
  exact if_neg hne

/-- A commit of known facts leaves facts told apart. -/
theorem append_tellsApart (htells : hist.TellsApart)
    (hfacts : ∀ f ∈ c.flakes, IsData f → hist.HasFact f) : (append h).TellsApart := by
  have hknown : ∀ y ∈ (append h).ids, ∀ f ∈ ((append h).commit y).flakes, IsData f →
      hist.HasFact f := by
    intro y hy f hf hdata
    obtain rfl | hy := mem_cons.mp hy
    · rw [append_commit_self h] at hf
      obtain ⟨f', hf', rfl⟩ := mem_stored.mp hf
      exact hfacts f' hf' hdata
    · rw [append_commit_of_mem h hy] at hf
      exact hasFact_of_mem hy hf
  intro y hy z hz f hf f' hf' hdata hg hkey
  obtain ⟨i, hi, e, he, hge, hsame⟩ := hknown y hy f hf hdata
  obtain ⟨j, hj, e', he', hge', hsame'⟩ :=
    hknown z hz f' hf' (isData_of_subject hdata (subject_of_keyCmp hkey))
  have heq := eq_of_same hsame
  refine same_equivalence.trans hsame (same_equivalence.trans (htells i hi j hj e he e' he'
    (isData_of_eq hdata heq) (hge.trans (hg.trans hge'.symm)) ?_) (same_equivalence.symm hsame'))
  exact keyCmp_trans (keyCmp_symm (keyCmp_of_eq heq))
    (keyCmp_trans hkey (keyCmp_of_eq (eq_of_same hsame')))

theorem append_reaches_old {p : Id} (hp : p ∈ hist.ids) :
    (append h).Reaches p y ↔ hist.Reaches p y := by
  constructor
  · intro hreach
    induction hreach with
    | refl => exact refl _ p
    | @tail y z hy hz ih =>
      refine tail ih ?_
      have hcommit := append_commit_of_mem h (mem_ids ih hp)
      change z ∈ ((append h).commit y).parents at hz
      rwa [hcommit] at hz
  · intro hreach
    induction hreach with
    | refl => exact refl _ p
    | @tail y z hy hz ih =>
      refine tail ih ?_
      have hcommit := append_commit_of_mem h (mem_ids hy hp)
      change z ∈ ((append h).commit y).parents
      rwa [hcommit]

theorem append_reaches_new :
    (append h).Reaches x y ↔ y = x ∨ ∃ p ∈ c.parents, hist.Reaches p y := by
  have hparents : (append h).toCommitDag.parents x = c.parents := by
    unfold CommitDag.parents
    rw [append_commit_self h]
    rfl
  constructor
  · intro hreach
    obtain rfl | ⟨p, hp, hreach⟩ := Relation.ReflTransGen.cases_head hreach
    · exact .inl rfl
    · rw [hparents] at hp
      exact .inr ⟨p, hp, (append_reaches_old h (h.parents p hp)).mp hreach⟩
  · rintro (rfl | ⟨p, hp, hreach⟩)
    · exact refl _ _
    · refine Relation.ReflTransGen.head ?_ ((append_reaches_old h (h.parents p hp)).mpr hreach)
      rw [hparents]
      exact hp

/-- The operations on a fact behind the new commit: its own, at its time, and those
behind its parents. -/
theorem mem_append_ops {op : ℤ × Bool} :
    op ∈ (append h).ops x v ↔
      (op.1 = c.t ∧ HasOp c.flakes v op.2) ∨ ∃ p ∈ c.parents, op ∈ hist.ops p v := by
  rw [mem_ops mem_cons_self]
  constructor
  · rintro ⟨y, hy, hop⟩
    obtain rfl | ⟨p, hp, hreach⟩ := (append_reaches_new h).mp hy
    · rw [append_commit_self h] at hop
      obtain ⟨f, hf, hg, heq, rfl⟩ := mem_factOps.mp hop
      obtain ⟨f', hf', rfl⟩ := mem_stored.mp hf
      exact .inl ⟨rfl, f', hf', hg, heq, rfl⟩
    · have hin := h.parents p hp
      rw [append_commit_of_mem h (mem_ids hreach hin)] at hop
      exact .inr ⟨p, hp, (mem_ops hin).mpr ⟨y, hreach, hop⟩⟩
  · rintro (⟨ht, f, hf, hg, heq, hop⟩ | ⟨p, hp, hop⟩)
    · refine ⟨x, refl _ _, ?_⟩
      rw [append_commit_self h]
      exact mem_factOps.mpr ⟨{ f with t := c.t }, mem_stored.mpr ⟨f, hf, rfl⟩, hg, heq,
        Prod.ext ht.symm hop⟩
    · have hin := h.parents p hp
      obtain ⟨y, hreach, hop⟩ := (mem_ops hin).mp hop
      refine ⟨y, (append_reaches_new h).mpr (.inr ⟨p, hp, hreach⟩), ?_⟩
      rwa [append_commit_of_mem h (mem_ids hreach hin)]

/-- A commit over one parent that is later than all before it decides on the facts that
it has operations on. -/
theorem append_endsAsserted (hparents : c.parents = [head])
    (hlate : ∀ op ∈ hist.ops head v, op.1 < c.t) :
    OpLog.EndsAsserted ((append h).ops x v) ↔
      HasOp c.flakes v true ∨
        (¬ HasOp c.flakes v false ∧ OpLog.EndsAsserted (hist.ops head v)) := by
  refine OpLog.endsAsserted_batch (p := HasOp c.flakes v) (fun op => ?_) hlate
  rw [mem_append_ops, hparents]
  simp

end

/-- A fact holds after a commit if the commit asserts it, or if it held before and the commit
does not retract it. -/
theorem holds_of_commit (hhead : head ∈ hist.ids)
    (hload : loadNovelty rt ledgerId hist.toCommitDag head = .ok base)
    (hbuilt : buildCommit rt reindexMaxBytes base flakes opts = .ok staged)
    (hparents : opts.mergeParents = []) {happends : hist.Appends x staged.commit}
    {after : LedgerState Id V} (htells : hist.TellsApart) (htells' : (append happends).TellsApart)
    (hafter : loadNovelty rt ledgerId (append happends).toCommitDag x = .ok after)
    (hdata : IsData v) :
    after.Holds v ↔ HasOp flakes v true ∨ (¬ HasOp flakes v false ∧ base.Holds v) := by
  have hcommit := buildCommit_commit hload hbuilt
  rw [hparents] at hcommit
  rw [load_holds mem_cons_self hafter htells' hdata, load_holds hhead hload htells hdata,
    append_endsAsserted,
    hcommit]
  · rw [hcommit]
  · rw [hcommit]
    exact fun op hop => Int.lt_add_one_of_le (ops_le hhead hload hop)

end History

/-! ### Loads that can be computed -/

def mainId : String := "a:main"

def devId : String := "a:dev"

theorem mainId_routes : (LedgerSnapshot.genesis mainId).commitRouting.isOk = true := by
  decide +kernel

/-- A load of commits without deltas, by a runtime that describes them by no flake. -/
theorem load_silent {ids : List Id} {novelty : Novelty V} (hids : traceIds dag head 0 = ids)
    (hdeltas : ∀ x ∈ ids, (dag.commit x).namespaceDelta = ∅ ∧ (dag.commit x).graphDelta = ∅)
    (hrouting : (LedgerSnapshot.genesis ledgerId).commitRouting.isOk = true)
    (hbulk : ∀ reverseGraph graphSid, (Novelty.new 0).bulkApplyCommits Sample.sorts reverseGraph
      ((ids.map fun x => ((dag.commit x).flakes ++ [], dag.t x)).map fun batch =>
        (stampGraphOnCommitFlakes batch.1 graphSid, batch.2)).reverse = .ok novelty) :
    loadNovelty (silentRuntime Id V) ledgerId dag head =
      .ok ⟨.genesis ledgerId, novelty, some head⟩ := by
  have hns : mergedNsDelta dag head = ∅ := by
    unfold mergedNsDelta traceCommitsById
    rw [hids]
    exact HashMap.foldl_union_empty _ (forall_mem_map.mpr fun x hx => (hdeltas x hx).1)
  have hiris : allGraphIris (silentRuntime Id V) dag head = [] := by
    unfold allGraphIris traceCommitsById
    rw [hids, flatMap_eq_nil_iff]
    refine forall_mem_map.mpr fun x hx => ?_
    rw [(hdeltas x hx).2, HashMap.IterOrder.iter_empty, map_nil]
  obtain ⟨⟨reverseGraph, graphSid⟩, hrouting⟩ := Checked.isOk_iff.mp hrouting
  have hsnapshot := (LedgerSnapshot.genesis ledgerId).applyEnvelopeDeltas_empty
    (silentRuntime Id V).order
  unfold loadNovelty commitBatches
  rw [hns, hiris, hids]
  refine Checked.bind_eq_ok.mpr ⟨_, Checked.mapError_eq_ok.mpr hsnapshot,
    Checked.bind_eq_ok.mpr ⟨_, Checked.mapError_eq_ok.mpr hrouting, ?_⟩⟩
  exact Checked.bind_eq_ok.mpr ⟨novelty, Checked.mapError_eq_ok.mpr (hbulk _ _), rfl⟩

open Sample

/-- The state after commits of data of the default graph. -/
def computedState (ledgerId : String) (batches : List (List (Flake OrdinaryValue) × ℤ)) (head : ℕ) :
    LedgerState ℕ OrdinaryValue :=
  ⟨.genesis ledgerId, ((Novelty.new 0).bulkApplyCommits sorts noGraphs batches).toOption.getD
    (Novelty.new 0), some head⟩

end FlureeDb.Ledger
