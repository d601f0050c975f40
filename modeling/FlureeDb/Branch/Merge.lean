import FlureeDb.Ledger.Commit

/-!
Merging one branch into another. The commit of a merge has the flakes of the commits of
the source that are later than the common ancestor, one commit after the other, without
those of conflicting keys if the target wins, and with retracts of the values of the
target if the source wins. All of them get the time after that of the target.

The merge is compared with a three-way merge of the values. A load of the merge commit
goes through both parents, so that a value is decided by the operations of both
histories together with those of the commit itself. When the two agree on a fact is said by the
sides on which its key was touched, the values of the sides, what the commit takes over of the
source, and the times of the last operations.
-/

namespace FlureeDb.Branch

open FlureeDb.Core Ledger Lib Novelty List History

variable {Id V : Type} [ObjectValue V]

inductive ConflictStrategy
  | takeBoth
  | abort
  | takeSource
  | takeBranch
  | skip
  deriving DecidableEq

/-- An internal error ends with the text of its cause, if it has one. -/
inductive ApiError
  | invalidBranch (text : String)
  | branchConflict (text : String)
  | internal (text : String) (cause : Option TransactError)
  | http (status : ℕ) (text : String)
  | transact (err : TransactError)

def stagingError (during : String) (err : TransactError) : ApiError :=
  match err with
  | .unknownGraph sid =>
    .internal ("Failed to stage flakes during " ++ during ++ ": ") (some (.unknownGraph sid))
  | err => .internal ("Failed to build reverse graph during " ++ during ++ ": ") (some err)

/-- Retracts of the current values of the keys; the time is overwritten by the commit. -/
def buildSourceRetractions (keys : List ConflictKey) (st : LedgerState Id V) : List (Flake V) :=
  keys.flatMap fun key =>
    (st.currentAssertedForKey key).map fun f => { f with op := false, t := 0 }

/-- The flakes win if the source is taken, and lose if the branch is. -/
def applyTwoWayStrategy (flakes : List (Flake V)) (keys : List ConflictKey)
    (strategy : ConflictStrategy) (opposite : LedgerState Id V) : List (Flake V) :=
  if keys.isEmpty then flakes
  else
    match strategy with
    | .takeSource => flakes ++ buildSourceRetractions keys opposite
    | .takeBranch => flakes.filter fun f => !decide (conflictKey f ∈ keys)
    | _ => flakes

section

variable [DecidableEq Id] (dag : CommitDag Id V) (source target : Id) (ancestor : CommonAncestor Id)

def conflicts : List ConflictKey :=
  (computeDeltaKeys dag source ancestor.t).filter fun key =>
    decide (key ∈ computeDeltaKeys dag target ancestor.t)

/-- A merge that is no fast-forward, up to the commit. The branches are named in the text
of the error. -/
def buildMergeGeneral (rt : Runtime Id V) (reindexMaxBytes : ℕ) (sourceBranch resolvedTarget : String)
    (strategy : ConflictStrategy) (targetState : LedgerState Id V) :
    Except ApiError (StagedCommit Id V) := do
  if strategy = .skip then
    throw (.invalidBranch "Skip strategy is not supported for merge")
  let keys := conflicts dag source target ancestor
  if strategy = .abort ∧ keys ≠ [] then
    throw (.branchConflict ("Merge aborted: " ++ toString keys.length ++ " conflict(s) between " ++
      sourceBranch ++ " and " ++ resolvedTarget ++ " with abort strategy"))
  let data := collectCommitData dag source ancestor.t
  let resolvedFlakes := applyTwoWayStrategy data.flakes keys strategy targetState
  (newStagedLedger targetState resolvedFlakes).mapError (stagingError "merge")
  (buildCommit rt reindexMaxBytes targetState resolvedFlakes
    ⟨false, [source], data.namespaceDelta, data.graphDelta⟩).mapError .transact

end

/-! ### The operations of a merge commit -/

variable {v f : Flake V}

theorem conflictKey_of_eq (hg : f.g = v.g) (heq : v.eq f = true) :
    conflictKey f = conflictKey v := by
  simp only [Flake.eq, Bool.and_eq_true, beq_iff_eq] at heq
  unfold conflictKey
  rw [hg, heq.1.1.1.1, heq.1.1.1.2]

variable {st : LedgerState Id V}

theorem conflictKey_of_asserted {key : ConflictKey} {toT : ℤ} (h : f ∈ st.assertedForKey key toT) :
    conflictKey f = key := by
  unfold LedgerState.assertedForKey at h
  split at h
  · cases h
  · obtain ⟨h, hg⟩ := mem_filter.mp h
    have hsp := (mem_filter.mp h).2
    simp only [Bool.and_eq_true, beq_iff_eq] at hg hsp
    unfold conflictKey
    rw [hsp.1, hsp.2, hg.2]

variable {keys : List ConflictKey} {asserts : Bool}

/-- The retracts of a fact: its key is one of the keys, and it holds. -/
theorem mem_buildSourceRetractions :
    HasOp (buildSourceRetractions keys st) v asserts ↔
      conflictKey v ∈ keys ∧ st.Holds v ∧ asserts = false := by
  constructor
  · rintro ⟨f, hf, hg, heq, rfl⟩
    obtain ⟨key, hkey, hf⟩ := mem_flatMap.mp hf
    obtain ⟨f', hf', rfl⟩ := mem_map.mp hf
    have hsame : key = conflictKey v :=
      (conflictKey_of_asserted hf').symm.trans (conflictKey_of_eq (f := f') hg heq)
    rw [hsame] at hkey hf'
    exact ⟨hkey, ⟨f', hf', heq⟩, rfl⟩
  · rintro ⟨hkey, ⟨f, hf, heq⟩, rfl⟩
    refine ⟨{ f with op := false, t := 0 }, mem_flatMap.mpr ⟨_, hkey, ?_⟩, ?_, heq, rfl⟩
    · exact mem_map.mpr ⟨f, hf, rfl⟩
    · exact congrArg ConflictKey.g (conflictKey_of_asserted hf)

variable {flakes : List (Flake V)} {strategy : ConflictStrategy} {hist : History Id V}

/-- What a strategy leaves of the operations on a fact, and what it adds. -/
theorem mem_applyTwoWayStrategy :
    HasOp (applyTwoWayStrategy flakes keys strategy st) v asserts ↔
      (¬(strategy = .takeBranch ∧ conflictKey v ∈ keys) ∧ HasOp flakes v asserts) ∨
        (strategy = .takeSource ∧ conflictKey v ∈ keys ∧ st.Holds v ∧ asserts = false) := by
  unfold applyTwoWayStrategy
  split
  next hempty =>
    rw [isEmpty_iff.mp hempty]
    simp
  next =>
    split
    next =>
      rw [← mem_buildSourceRetractions]
      simp [HasOp, or_and_right, exists_or]
    next =>
      simp only [HasOp, reduceCtorEq, false_and, or_false, true_and, mem_filter, Bool.not_eq_true',
        decide_eq_false_iff_not]
      constructor
      · rintro ⟨f, ⟨hf, hkey⟩, hg, heq, hop⟩
        rw [conflictKey_of_eq hg heq] at hkey
        exact ⟨hkey, f, hf, hg, heq, hop⟩
      · rintro ⟨hkey, f, hf, hg, heq, hop⟩
        rw [← conflictKey_of_eq hg heq] at hkey
        exact ⟨f, ⟨hf, hkey⟩, hg, heq, hop⟩
    next hsource hbranch =>
      have hsource : strategy ≠ .takeSource := hsource
      have hbranch : strategy ≠ .takeBranch := hbranch
      simp [hsource, hbranch]

omit [ObjectValue V] in
/-- The parts of the collected data do not depend on each other. -/
theorem collectFromCommits_eq (commits : List (Commit Id V)) (transform : Flake V → Flake V) :
    collectFromCommits commits transform =
      ⟨commits.flatMap fun c => c.flakes.map transform,
        commits.foldl (fun delta c => delta ∪ c.namespaceDelta) ∅,
        commits.foldl (fun delta c => delta ∪ c.graphDelta) ∅⟩ := by
  unfold collectFromCommits
  induction commits using List.reverseRecOn with
  | nil => rfl
  | append_singleton commits c ih =>
    rw [foldl_concat, foldl_concat, foldl_concat, ih]
    simp

omit [ObjectValue V] in
theorem userCodes_collectFromCommits {commits : List (Commit Id V)} {transform : Flake V → Flake V}
    (h : ∀ c ∈ commits, NamespaceCodes.UserCodes c.namespaceDelta) :
    NamespaceCodes.UserCodes (collectFromCommits commits transform).namespaceDelta := by
  rw [collectFromCommits_eq]
  intro code text hlookup
  obtain hlookup | ⟨c, hc, hlookup⟩ :=
    HashMap.lookup_foldl_union (fun c : Commit Id V => c.namespaceDelta) hlookup
  · rw [Finmap.lookup_empty] at hlookup
    cases hlookup
  · exact h c hc code text hlookup

/-- A strategy keeps flakes, and adds retracts of what is read. -/
theorem mem_of_applyTwoWayStrategy (hf : f ∈ applyTwoWayStrategy flakes keys strategy st) :
    f ∈ flakes ∨ ∃ key, ∃ f' ∈ st.currentAssertedForKey key, { f' with op := false, t := 0 } = f := by
  unfold applyTwoWayStrategy at hf
  split at hf
  · exact .inl hf
  · split at hf
    · refine (mem_append.mp hf).imp_right fun hf => ?_
      obtain ⟨key, -, hf⟩ := mem_flatMap.mp hf
      exact ⟨key, mem_map.mp hf⟩
    · exact .inl (mem_filter.mp hf).1
    · exact .inl hf

theorem hasFact_applyTwoWayStrategy [DecidableEq Id] {rt : Runtime Id V} {ledgerId : String}
    {head : Id} (hhead : head ∈ hist.ids)
    (hload : loadNovelty rt ledgerId hist.toCommitDag head = .ok st)
    (hflakes : ∀ f ∈ flakes, hist.HasFact f) (hdata : IsData f)
    (hf : f ∈ applyTwoWayStrategy flakes keys strategy st) : hist.HasFact f := by
  obtain hf | ⟨key, f', hf', rfl⟩ := mem_of_applyTwoWayStrategy hf
  · exact hflakes f hf
  · obtain ⟨x, hx, hin⟩ := mem_commit_of_asserted hhead hload (f := f') hdata hf'
    exact ⟨x, hx, f', hin, rfl, same_equivalence.refl f'⟩

section

variable [DecidableEq Id] {rt : Runtime Id V} {reindexMaxBytes : ℕ}
  {sourceBranch resolvedTarget sourceId targetId baseId : String} {source target : Id}
  {ancestor : CommonAncestor Id} {targetState : LedgerState Id V} {staged : StagedCommit Id V}

abbrev mergeOpts (hist : History Id V) (source : Id) (ancestor : CommonAncestor Id) :
    CommitOpts Id :=
  let data := collectCommitData hist.toCommitDag source ancestor.t
  ⟨false, [source], data.namespaceDelta, data.graphDelta⟩

def mergeFlakes (hist : History Id V) (source target : Id) (ancestor : CommonAncestor Id)
    (strategy : ConflictStrategy) (targetState : LedgerState Id V) : List (Flake V) :=
  applyTwoWayStrategy (collectCommitData hist.toCommitDag source ancestor.t).flakes
    (conflicts hist.toCommitDag source target ancestor) strategy targetState

omit [ObjectValue V] in
theorem mem_collectCommitData {dag : CommitDag Id V} {stopAtT : ℤ} :
    f ∈ (collectCommitData dag source stopAtT).flakes ↔
      ∃ x ∈ traceIds dag source stopAtT, f ∈ (dag.commit x).flakes := by
  unfold collectCommitData
  rw [collectFromCommits_eq]
  simp

theorem buildMergeGeneral_ok
    (h : buildMergeGeneral hist.toCommitDag source target ancestor rt reindexMaxBytes sourceBranch
      resolvedTarget strategy targetState = .ok staged) :
    strategy ≠ .skip ∧
      (strategy = .abort → conflicts hist.toCommitDag source target ancestor = []) ∧
        buildCommit rt reindexMaxBytes targetState
          (mergeFlakes hist source target ancestor strategy targetState)
          (mergeOpts hist source ancestor) = .ok staged := by
  unfold buildMergeGeneral at h
  dsimp only at h
  split at h
  · cases h
  next hskip =>
    split at h
    · cases h
    next habort =>
      obtain ⟨_, -, hcommit⟩ := Checked.bind_eq_ok.mp h
      exact ⟨hskip, fun hstrategy => by_contra fun hne => habort ⟨hstrategy, hne⟩,
        Checked.mapError_eq_ok.mp hcommit⟩

/-! ### What the two sides have -/

def Touches (dag : CommitDag Id V) (x : Id) (key : ConflictKey) : Prop :=
  ∃ f ∈ (dag.commit x).flakes, conflictKey f = key

/-- A key is touched by a commit that the first head has and the second lacks. -/
def TouchedOnlyBy (dag : CommitDag Id V) (head other : Id) (key : ConflictKey) : Prop :=
  ∃ x, dag.Reaches head x ∧ ¬ dag.Reaches other x ∧ Touches dag x key

/-- A key is touched on both sides by commits that are seen: those later than the time that are
reached by way of later ones. -/
def Conflicting (dag : CommitDag Id V) (source target : Id) (time : ℤ) (key : ConflictKey) : Prop :=
  (∃ x, dag.ReachesSince time source x ∧ Touches dag x key) ∧
    ∃ x, dag.ReachesSince time target x ∧ Touches dag x key

/-- A merge carries an operation of the source over into its commit. -/
def Carried (hist : History Id V) (source target : Id) (time : ℤ) (strategy : ConflictStrategy)
    (v : Flake V) (asserts : Bool) : Prop :=
  ¬ (strategy = .takeBranch ∧ Conflicting hist.toCommitDag source target time (conflictKey v)) ∧
    ∃ x, hist.ReachesSince time source x ∧ HasOp (hist.commit x).flakes v asserts

/-- A merge retracts a value of the target. -/
def Cleared (hist : History Id V) (source target : Id) (time : ℤ) (strategy : ConflictStrategy)
    (v : Flake V) : Prop :=
  strategy = .takeSource ∧ Conflicting hist.toCommitDag source target time (conflictKey v) ∧
    OpLog.EndsAsserted (hist.ops target v)

omit [ObjectValue V] in
theorem mem_computeDeltaKeys {dag : CommitDag Id V} {head : Id} (hhead : head ∈ dag.ids) {time : ℤ}
    {key : ConflictKey} :
    key ∈ computeDeltaKeys dag head time ↔ ∃ x, dag.ReachesSince time head x ∧ Touches dag x key := by
  unfold computeDeltaKeys traceCommitsById Touches
  simp [mem_traceIds_since hhead]

omit [ObjectValue V] in
theorem mem_conflicts {dag : CommitDag Id V} (hsource : source ∈ dag.ids) (htarget : target ∈ dag.ids)
    {key : ConflictKey} :
    key ∈ conflicts dag source target ancestor ↔ Conflicting dag source target ancestor.t key := by
  unfold conflicts Conflicting
  rw [mem_filter, decide_eq_true_eq, mem_computeDeltaKeys hsource, mem_computeDeltaKeys htarget]

variable {m : Id}

section

variable (hsource : source ∈ hist.ids) (htarget : target ∈ hist.ids)
  (hload : loadNovelty rt targetId hist.toCommitDag target = .ok targetState)
  (hbuilt : buildMergeGeneral hist.toCommitDag source target ancestor rt reindexMaxBytes sourceBranch
    resolvedTarget strategy targetState = .ok staged)

include hload hbuilt in
theorem merge_commit :
    staged.commit =
      ⟨targetState.t + 1, [target, source],
        mergeFlakes hist source target ancestor strategy targetState,
        (mergeOpts hist source ancestor).namespaceDelta,
        (mergeOpts hist source ancestor).graphDelta⟩ :=
  buildCommit_commit hload (buildMergeGeneral_ok hbuilt).2.2

include hsource htarget hload hbuilt in
theorem merge_appends (hm : m ∉ hist.ids) : hist.Appends m staged.commit := by
  rw [merge_commit hload hbuilt]
  refine ⟨hm, fun y hy => ?_, Int.lt_add_one_of_le (le_max_right _ _),
    userCodes_collectFromCommits fun c hc => ?_⟩
  · obtain rfl | hy := mem_cons.mp hy
    · exact htarget
    · exact (mem_singleton.mp hy) ▸ hsource
  · obtain ⟨x, hx, rfl⟩ := mem_map.mp hc
    exact hist.codes x (mem_ids_of_mem_traceIds hsource (mem_reverse.mp hx))

include hsource htarget hload hbuilt in
theorem merge_tellsApart (htells : hist.TellsApart) (hm : m ∉ hist.ids) :
    (History.append (merge_appends hsource htarget hload hbuilt hm)).TellsApart := by
  refine append_tellsApart _ htells fun f hf hdata => ?_
  rw [merge_commit hload hbuilt] at hf
  refine hasFact_applyTwoWayStrategy htarget hload (fun f hf => ?_) hdata hf
  obtain ⟨x, hx, hf⟩ := mem_collectCommitData.mp hf
  exact hasFact_of_mem (mem_ids_of_mem_traceIds hsource hx) hf

/-- The commit of a merge has an operation on a fact: one of the source since the ancestor,
unless the branch is taken, or a retract if the source is taken and the target has the value. -/
def BatchOp (hist : History Id V) (source target : Id) (ancestor : CommonAncestor Id)
    (strategy : ConflictStrategy) (v : Flake V) (asserts : Bool) : Prop :=
  Carried hist source target ancestor.t strategy v asserts ∨
    (asserts = false ∧ Cleared hist source target ancestor.t strategy v)

include hsource htarget hload in
theorem hasOp_mergeFlakes (htells : hist.TellsApart) (hdata : IsData v) :
    HasOp (mergeFlakes hist source target ancestor strategy targetState) v asserts ↔
      BatchOp hist source target ancestor strategy v asserts := by
  unfold mergeFlakes BatchOp Carried Cleared
  rw [mem_applyTwoWayStrategy, load_holds htarget hload htells hdata,
    mem_conflicts hsource htarget]
  refine or_congr (and_congr_right fun _ => ?_) (by tauto)
  simp only [HasOp, mem_collectCommitData, mem_traceIds_since hsource]
  constructor
  · rintro ⟨f, ⟨x, hx, hf⟩, hrest⟩
    exact ⟨x, hx, f, hf, hrest⟩
  · rintro ⟨x, hx, f, hf, hrest⟩
    exact ⟨f, ⟨x, hx, hf⟩, hrest⟩

theorem mem_merged_ops (htells : hist.TellsApart) (hm : m ∉ hist.ids) (hdata : IsData v)
    {op : ℤ × Bool} :
    op ∈ (History.append (merge_appends hsource htarget hload hbuilt hm)).ops m v ↔
      (op.1 = targetState.t + 1 ∧ BatchOp hist source target ancestor strategy v op.2) ∨
        op ∈ hist.ops target v ∨ op ∈ hist.ops source v := by
  rw [mem_append_ops, merge_commit hload hbuilt, hasOp_mergeFlakes hsource htarget hload htells hdata]
  simp

end

/-! ### A three-way merge -/

/-- What a three-way merge says of a value: whether the key was touched by the source and
by the target, and whether the value is one of the source, of the target, of their
ancestor, and of the result. -/
def ThreeWay (strategy : ConflictStrategy) (bySource byTarget inSource inTarget inBase inMerged :
    Prop) : Prop :=
  (¬ bySource → (inMerged ↔ inTarget)) ∧
    (bySource → ¬ byTarget → (inMerged ↔ inSource)) ∧
      (bySource → byTarget →
        match strategy with
        | .takeSource => inMerged ↔ inSource
        | .takeBranch => inMerged ↔ inTarget
        | .takeBoth => inMerged ↔ (inTarget ∧ ¬ (inBase ∧ ¬ inSource)) ∨ (inSource ∧ ¬ inBase)
        | .abort => True
        | .skip => True)

/-- What the two sides of a merge and its commit have on a fact. The key was touched on a side; the
value is one of a side or of the ancestor; the commit takes over operations of the source, or
retracts the value of the target; the source has operations after the time of the commit, or from
it on; and one side has the last operation of both. -/
structure FactSides where
  bySource : Prop
  byTarget : Prop
  inSource : Prop
  inTarget : Prop
  inBase : Prop
  carried : Bool → Prop
  cleared : Prop
  sourceAfter : Prop
  sourceFrom : Prop
  sourceLast : Prop
  targetLast : Prop

namespace FactSides

variable (s : FactSides)

/-- The merge commit has an operation on the fact. -/
def Written : Prop := s.carried true ∨ s.carried false ∨ s.cleared

/-- What is read of the fact behind the merge commit. -/
def Ends : Prop :=
  (s.Written ∧ ((s.carried true ∧ ¬ s.sourceAfter) ∨ (s.inSource ∧ s.sourceFrom))) ∨
    (¬ s.Written ∧ ((s.inTarget ∧ ¬ s.sourceLast) ∨ (s.inSource ∧ ¬ s.targetLast)))

/-- When a merge treats a fact as a three-way merge does. -/
structure Agrees (strategy : ConflictStrategy) : Prop where
  untouched : ¬ s.bySource → s.Written → (s.carried true ↔ s.inTarget)
  source_only : s.bySource → ¬ s.byTarget → s.Written → ¬ s.sourceAfter →
    (s.carried true → s.inSource) ∧ (s.inSource → s.carried true ∨ s.sourceFrom)
  take_source : s.bySource → s.byTarget → strategy = .takeSource →
    (s.Written → ¬ s.sourceAfter →
      (s.carried true → s.inSource) ∧ (s.inSource → s.carried true ∨ s.sourceFrom)) ∧
    (¬ s.Written → (s.inTarget → ¬ s.inSource → s.sourceLast) ∧
      (s.inSource → ¬ s.inTarget → ¬ s.targetLast))
  take_branch : s.bySource → s.byTarget → strategy = .takeBranch →
    (s.Written → s.sourceAfter → (s.inSource ↔ s.inTarget)) ∧
    (s.Written → ¬ s.sourceAfter →
      (s.carried true ∨ (s.inSource ∧ s.sourceFrom) ↔ s.inTarget)) ∧
    (¬ s.Written → (s.inTarget → ¬ s.inSource → ¬ s.sourceLast) ∧
      (s.inSource → ¬ s.inTarget → s.targetLast))
  take_both : s.bySource → s.byTarget → strategy = .takeBoth →
    (s.Written → s.sourceAfter → (s.inSource → s.inBase → s.inTarget) ∧
      (s.inTarget → ¬ s.inBase → s.inSource)) ∧
    (s.Written → ¬ s.sourceAfter →
      (s.inBase → (s.carried true ∨ (s.inSource ∧ s.sourceFrom) ↔ s.inTarget ∧ s.inSource)) ∧
      (¬ s.inBase → (s.carried true ∨ (s.inSource ∧ s.sourceFrom) ↔ s.inTarget ∨ s.inSource))) ∧
    (¬ s.Written → (s.inTarget → ¬ s.inSource → (s.sourceLast ↔ s.inBase)) ∧
      (s.inSource → ¬ s.inTarget → (s.targetLast ↔ s.inBase)))

variable {s}

theorem ends_of_written (h : s.Written) :
    s.Ends ↔ (s.carried true ∧ ¬ s.sourceAfter) ∨ (s.inSource ∧ s.sourceFrom) := by
  unfold Ends
  rw [and_iff_right h, or_iff_left fun hnot => hnot.1 h]

theorem ends_of_not_written (h : ¬ s.Written) :
    s.Ends ↔ (s.inTarget ∧ ¬ s.sourceLast) ∨ (s.inSource ∧ ¬ s.targetLast) := by
  unfold Ends
  rw [and_iff_right h, or_iff_right fun hwritten => h hwritten.1]

/-- A side that only has what the other has neither goes on after the merge nor ends last. -/
theorem threeWay_ends_iff {strategy : ConflictStrategy} (hafter : s.sourceAfter → s.sourceFrom)
    (hlast : ¬ (s.sourceLast ∧ s.targetLast))
    (hsource : ¬ s.bySource →
      ¬ s.sourceFrom ∧ ¬ s.sourceLast ∧ (s.inSource → s.inTarget ∨ s.targetLast))
    (htarget : ¬ s.byTarget → ¬ s.targetLast ∧ (s.inTarget → s.inSource ∨ s.sourceLast)) :
    ThreeWay strategy s.bySource s.byTarget s.inSource s.inTarget s.inBase s.Ends ↔
      s.Agrees strategy := by
  have hwritten := ends_of_written (s := s)
  have hunwritten := ends_of_not_written (s := s)
  constructor
  · rintro ⟨huntouched, honly, hboth⟩
    refine ⟨fun hs _ => ?_, fun hs ht _ _ => ?_, fun hs ht hstrategy => ?_,
      fun hs ht hstrategy => ?_, fun hs ht hstrategy => ?_⟩
    · have hpart := huntouched hs
      have hsub := hsource hs
      grind
    · have hpart := honly hs ht
      grind
    · subst hstrategy
      have hpart := hboth hs ht
      grind
    · subst hstrategy
      have hpart := hboth hs ht
      grind
    · subst hstrategy
      have hpart := hboth hs ht
      grind
  · intro h
    refine ⟨fun hs => ?_, fun hs ht => ?_, fun hs ht => ?_⟩
    · have hpart := h.untouched hs
      have hsub := hsource hs
      by_cases hw : s.Written <;> grind
    · have hpart := h.source_only hs ht
      have hsub := htarget ht
      by_cases hw : s.Written <;> grind
    · cases strategy with
      | takeSource =>
        have hpart := h.take_source hs ht rfl
        by_cases hw : s.Written <;> grind
      | takeBranch =>
        have hpart := h.take_branch hs ht rfl
        by_cases hw : s.Written <;> grind
      | takeBoth =>
        have hpart := h.take_both hs ht rfl
        by_cases hw : s.Written <;> grind
      | abort => trivial
      | skip => trivial

end FactSides

/-- The sides of a fact, for a merge that is committed at a time. -/
def factSides (hist : History Id V) (source target : Id) (ancestor : CommonAncestor Id)
    (strategy : ConflictStrategy) (time : ℤ) (v : Flake V) : FactSides where
  bySource := TouchedOnlyBy hist.toCommitDag source target (conflictKey v)
  byTarget := TouchedOnlyBy hist.toCommitDag target source (conflictKey v)
  inSource := OpLog.EndsAsserted (hist.ops source v)
  inTarget := OpLog.EndsAsserted (hist.ops target v)
  inBase := OpLog.EndsAsserted (hist.ops ancestor.commitId v)
  carried := Carried hist source target ancestor.t strategy v
  cleared := Cleared hist source target ancestor.t strategy v
  sourceAfter := ∃ op ∈ hist.ops source v, time < op.1
  sourceFrom := ∃ op ∈ hist.ops source v, time ≤ op.1
  sourceLast := OpLog.Outlasts (hist.ops source v) (hist.ops target v)
  targetLast := OpLog.Outlasts (hist.ops target v) (hist.ops source v)

/-- Without a commit of its own that touches the key, a side has only operations on the fact that
the other side has. -/
theorem ops_subset {head other : Id} (hhead : head ∈ hist.ids) (hother : other ∈ hist.ids)
    (h : ¬ TouchedOnlyBy hist.toCommitDag head other (conflictKey v)) :
    hist.ops head v ⊆ hist.ops other v := by
  intro op hop
  obtain ⟨x, hx, hop⟩ := (mem_ops hhead).mp hop
  refine (mem_ops hother).mpr ⟨x, by_contra fun hlacks => h ⟨x, hx, hlacks, ?_⟩, hop⟩
  obtain ⟨f, hf, hg, heq, -⟩ := mem_factOps.mp hop
  exact ⟨f, hf, conflictKey_of_eq hg heq⟩

/-- The values of every key are those of a three-way merge, and a merge that aborts on
conflicts has none. -/
structure MergesThreeWay (hist : History Id V) (source target : Id) (strategy : ConflictStrategy)
    (inSource inTarget inBase inMerged : Flake V → Prop) : Prop where
  values : ∀ v, IsData v → ThreeWay strategy
    (TouchedOnlyBy hist.toCommitDag source target (conflictKey v))
    (TouchedOnlyBy hist.toCommitDag target source (conflictKey v))
    (inSource v) (inTarget v) (inBase v) (inMerged v)
  abort : strategy = .abort → ∀ key, ¬ (TouchedOnlyBy hist.toCommitDag source target key ∧
    TouchedOnlyBy hist.toCommitDag target source key)

/-- The states that a merge is about: the two heads and their ancestor, as loaded, the
commit that the merge builds, and the state loaded from it. -/
structure MergeRun (rt : Runtime Id V) (reindexMaxBytes : ℕ) (hist : History Id V)
    (source target : Id) (strategy : ConflictStrategy) where
  sourceBranch : String
  resolvedTarget : String
  sourceId : String
  targetId : String
  baseId : String
  source_mem : source ∈ hist.ids
  target_mem : target ∈ hist.ids
  ancestor : CommonAncestor Id
  answer : Answer hist.toCommitDag source target ancestor
  sourceState : LedgerState Id V
  source_load : loadNovelty rt sourceId hist.toCommitDag source = .ok sourceState
  targetState : LedgerState Id V
  target_load : loadNovelty rt targetId hist.toCommitDag target = .ok targetState
  baseState : LedgerState Id V
  base_load : loadNovelty rt baseId hist.toCommitDag ancestor.commitId = .ok baseState
  staged : StagedCommit Id V
  built : buildMergeGeneral hist.toCommitDag source target ancestor rt reindexMaxBytes sourceBranch
    resolvedTarget strategy targetState = .ok staged
  mergeId : Id
  fresh : mergeId ∉ hist.ids
  merged : LedgerState Id V
  merged_load : loadNovelty rt targetId
    (History.append (merge_appends source_mem target_mem target_load built fresh)).toCommitDag
      mergeId =
      .ok merged

section

variable (htells : hist.TellsApart) (run : MergeRun rt reindexMaxBytes hist source target strategy)
  (hdata : IsData v)

include htells hdata

theorem MergeRun.merged_holds :
    run.merged.Holds v ↔
      (factSides hist source target run.ancestor strategy (run.targetState.t + 1) v).Ends := by
  have hops : ∀ op, op ∈ _ ↔ _ := fun op =>
    mem_merged_ops run.source_mem run.target_mem run.target_load run.built htells run.fresh hdata
  rw [load_holds mem_cons_self run.merged_load
    (merge_tellsApart run.source_mem run.target_mem run.target_load run.built htells run.fresh) hdata]
  by_cases hwritten : ∃ asserts, BatchOp hist source target run.ancestor strategy v asserts
  · rw [OpLog.endsAsserted_beside hops
      (fun op hop => Int.lt_add_one_of_le (ops_le run.target_mem run.target_load hop)) hwritten,
      FactSides.ends_of_written]
    · simp [BatchOp, factSides]
    · obtain ⟨asserts, hcarried | ⟨-, hcleared⟩⟩ := hwritten
      · cases asserts with
        | true => exact .inl hcarried
        | false => exact .inr (.inl hcarried)
      · exact .inr (.inr hcleared)
  · rw [OpLog.endsAsserted_union fun op => (hops op).trans (or_iff_right fun h => hwritten ⟨_, h.2⟩),
      FactSides.ends_of_not_written]
    · rfl
    · rintro (hcarried | hcarried | hcleared)
      · exact hwritten ⟨true, .inl hcarried⟩
      · exact hwritten ⟨false, .inl hcarried⟩
      · exact hwritten ⟨false, .inr ⟨rfl, hcleared⟩⟩

end

end

open Sample

/-- Two branches of a commit that give one key a value each. -/
def fork : History ℕ OrdinaryValue where
  ids := [0, 1, 2]
  commit
    | 0 => ⟨1, [], [fact 1 1 true], ∅, ∅⟩
    | 1 => ⟨2, [0], [fact 2 2 true], ∅, ∅⟩
    | _ => ⟨2, [0], [fact 3 2 true], ∅, ∅⟩
  closed := by decide
  positive := by decide
  stamped := by decide
  codes := by
    rintro (_ | _ | x) _ code text h <;> cases h

theorem fork_tellsApart : fork.TellsApart := by
  unfold TellsApart
  decide +kernel

theorem fork_answer : Answer fork.toCommitDag 1 2 ⟨0, 1⟩ := ⟨7, by decide⟩

theorem fork_reaches {head x : ℕ} (hhead : head = 1 ∨ head = 2)
    (h : fork.toCommitDag.Reaches head x) : x = head ∨ x = 0 := by
  refine Reaches.invariant (p := fun x => x = head ∨ x = 0) (fun y hy z hz => ?_) h (.inl rfl)
  obtain rfl | rfl := hy
  · obtain rfl | rfl := hhead
    · exact .inr (mem_singleton.mp hz)
    · exact .inr (mem_singleton.mp hz)
  · cases hz

def forkTarget : LedgerState ℕ OrdinaryValue :=
  computedState mainId [([fact 1 1 true], 1), ([fact 3 2 true], 2)] 2

/-- What is loaded from a merge that commits the flakes. -/
def forkMerged (flakes : List (Flake OrdinaryValue)) : LedgerState ℕ OrdinaryValue :=
  computedState mainId [([fact 1 1 true], 1), ([fact 3 2 true], 2), ([fact 2 2 true], 2),
    (flakes.map fun f => { f with t := 3 }, 3)] 3

theorem exists_forkRun {strategy : ConflictStrategy} (hskip : strategy ≠ .skip)
    (habort : strategy ≠ .abort) {flakes : List (Flake OrdinaryValue)}
    (hflakes : mergeFlakes fork 1 2 ⟨0, 1⟩ strategy forkTarget = flakes)
    (hstages : (newStagedLedger forkTarget flakes).isOk = true)
    (hroom : forkTarget.novelty.size + (flakes.map Flake.sizeBytes).sum < 1000)
    (hbulk : ∀ reverseGraph graphSid, (Novelty.new 0).bulkApplyCommits sorts reverseGraph
      [(stampGraphOnCommitFlakes [fact 1 1 true] graphSid, 1),
        (stampGraphOnCommitFlakes [fact 3 2 true] graphSid, 2),
        (stampGraphOnCommitFlakes [fact 2 2 true] graphSid, 2),
        (stampGraphOnCommitFlakes ((flakes.map fun f => { f with t := 3 }) ++ []) graphSid, 3)] =
          .ok (forkMerged flakes).novelty) :
    ∃ run : MergeRun (silentRuntime ℕ OrdinaryValue) 1000 fork 1 2 strategy,
      run.targetState = forkTarget ∧ run.merged = forkMerged flakes := by
  have hload : loadNovelty (silentRuntime ℕ OrdinaryValue) mainId fork.toCommitDag 2 =
      .ok forkTarget :=
    load_silent (traceIds_of_sorted (by decide) : _ = [2, 0]) (by decide) mainId_routes
      fun _ _ => rfl
  have hdata : collectCommitData fork.toCommitDag 1 1 = ⟨[fact 2 2 true], ∅, ∅⟩ := by
    unfold collectCommitData
    rw [traceIds_of_sorted (by decide)]
    rfl
  obtain ⟨⟨⟩, hstages⟩ := Checked.isOk_iff.mp hstages
  have hbuilt : buildMergeGeneral fork.toCommitDag 1 2 ⟨0, 1⟩ (silentRuntime ℕ OrdinaryValue) 1000
      "dev" "main" strategy forkTarget = .ok ⟨⟨3, [2, 1], flakes, ∅, ∅⟩, forkTarget⟩ := by
    unfold mergeFlakes at hflakes
    unfold buildMergeGeneral
    rw [if_neg hskip, if_neg fun h => habort h.1]
    dsimp only
    rw [hflakes, hstages, hdata, buildCommit_bare (by simp) hroom]
    rfl
  have hsource : loadNovelty (silentRuntime ℕ OrdinaryValue) devId fork.toCommitDag 1 =
      .ok (computedState devId [([fact 1 1 true], 1), ([fact 2 2 true], 2)] 1) :=
    load_silent (traceIds_of_sorted (by decide) : _ = [1, 0]) (by decide) (by decide +kernel)
      fun _ _ => rfl
  have hbase : loadNovelty (silentRuntime ℕ OrdinaryValue) mainId fork.toCommitDag 0 =
      .ok (computedState mainId [([fact 1 1 true], 1)] 0) :=
    load_silent (traceIds_of_sorted (by decide) : _ = [0]) (by decide) mainId_routes
      fun _ _ => rfl
  refine ⟨⟨"dev", "main", devId, mainId, mainId, by decide, by decide, ⟨0, 1⟩, fork_answer, _,
    hsource, _, hload, _, hbase, _, hbuilt, 3, by decide, _,
    load_silent (?_ : _ = [3, 1, 2, 0]) ?_ mainId_routes hbulk⟩, rfl, rfl⟩
  · change ([((3 : ℤ), 3), (2, 1), (1, 0), (2, 2)].mergeSort newestFirst).map Prod.snd = _
    simp [mergeSort, newestFirst]
  · simp [append, Ledger.stored, fork]

end FlureeDb.Branch
