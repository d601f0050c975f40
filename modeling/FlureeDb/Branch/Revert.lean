import FlureeDb.Branch.Merge

/-!
Reverting commits. The commits that are selected must be ancestors of the head with one
parent each. A revert commits the inverses of all their flakes, the oldest commit first,
all at the time after that of the head. A key that the selection touches and a commit
outside it as well, not before the oldest selected one, is in conflict.

A revert undoes the selection if and only if a fact that a selected commit has an operation
on held before the selection just in case that some selected commit retracts it: of the
inverses, which have one time, an assert wins.
-/

namespace FlureeDb.Branch

open FlureeDb.Core Ledger Lib Novelty List History CommitDag.Reaches Checked

variable {Id V : Type} [ObjectValue V]

/-- What to revert: some commits, or those behind the first of a range up to the last. -/
inductive ResolvedSource (Id : Type)
  | commits (head : Id) (tail : List Id)
  | range (start stop : Id)

structure NonEmpty (α : Type) where
  head : α
  tail : List α

def NonEmpty.toList {α : Type} (l : NonEmpty α) : List α := l.head :: l.tail

def NonEmpty.tryFromVec {α : Type} : List α → Option (NonEmpty α)
  | [] => none
  | a :: l => some ⟨a, l⟩

theorem NonEmpty.toList_of_tryFromVec {α : Type} {l : List α} {l' : NonEmpty α}
    (h : NonEmpty.tryFromVec l = some l') : l'.toList = l := by
  cases l with
  | nil => cases h
  | cons a =>
    cases h
    rfl

/-- The selected commits, the newest first, and the time of the oldest. -/
structure RevertPlan (Id : Type) where
  orderedCommits : List Id
  oldestT : ℤ
  nonempty : orderedCommits ≠ []

theorem NonEmpty.sorted_ne_nil (l : NonEmpty (ℤ × Id)) : l.toList.mergeSort newestFirst ≠ [] := by
  intro h
  have hlen := congrArg length h
  rw [length_mergeSort] at hlen
  cases hlen

/-- Keys are sorted by subject, predicate and graph; no graph comes first. -/
def ConflictKey.le (a b : ConflictKey) : Bool :=
  let byGraph :=
    match a.g, b.g with
    | none, none => Ordering.eq
    | none, some _ => .lt
    | some _, none => .gt
    | some g, some g' => g.cmp g'
  (((a.s.cmp b.s).then (a.p.cmp b.p)).then byGraph).isLE

def invertAt {V : Type} (f : Flake V) (t : ℤ) : Flake V := { f with op := !f.op, t := t }

section

variable [DecidableEq Id] [ToString Id] (dag : CommitDag Id V)

/-- The time of a commit that the walk from the head has listed. -/
def dagIndex (head x : Id) : Option (ℤ × Id) :=
  (collectDagCids dag head 0).find? fun e => e.2 == x

/-- The commits that were not seen before, each once. -/
def pickCommits (head : Id) : List Id → List Id → Except ApiError (List (ℤ × Id))
  | _, [] => .ok []
  | seen, x :: xs =>
    if x ∈ seen then pickCommits head seen xs
    else
      match dagIndex dag head x with
      | none => .error (.invalidBranch
          ("Commit " ++ toString x ++ " is not reachable from the branch HEAD"))
      | some e => (pickCommits head (x :: seen) xs).map (e :: ·)

/-- The commits behind the start of a range up to its end. -/
def pickRange (head start stop : Id) : Except ApiError (NonEmpty (ℤ × Id)) :=
  match dagIndex dag head stop with
  | none => .error (.invalidBranch
      ("Range endpoint " ++ toString stop ++ " is not reachable from the branch HEAD"))
  | some (stopT, _) =>
    match dagIndex dag head start with
    | none => .error (.invalidBranch
        ("Range endpoint " ++ toString start ++ " is not reachable from the branch HEAD"))
    | some (startT, _) =>
      let notAncestor := .invalidBranch
        ("Range start " ++ toString start ++ " is not an ancestor of " ++ toString stop)
      if stopT ≤ startT then .error notAncestor
      else
        let ancestry := collectDagCids dag stop 0
        if !(ancestry.any fun e => e.2 == start) then .error notAncestor
        else
          match NonEmpty.tryFromVec (ancestry.filter fun e => e.2 != start && startT < e.1) with
          | none => .error (.invalidBranch "Revert range selects zero commits")
          | some picked => .ok picked

/-- The selected commits with their times. Of a list the first is always picked. -/
def pick (head : Id) : ResolvedSource Id → Except ApiError (NonEmpty (ℤ × Id))
  | .commits x xs =>
    match dagIndex dag head x with
    | none => .error (.invalidBranch
        ("Commit " ++ toString x ++ " is not reachable from the branch HEAD"))
    | some e => (pickCommits dag head [x] xs).map fun rest => ⟨e, rest⟩
  | .range start stop => pickRange dag head start stop

def checkRevertible (e : ℤ × Id) : Except ApiError Unit :=
  match (dag.parents e.2).length with
  | 0 => .error (.invalidBranch ("Cannot revert genesis commit " ++ toString e.2))
  | 1 => .ok ()
  | _ => .error (.invalidBranch ("Cannot revert merge commit " ++ toString e.2 ++
      "; reverting merges is not yet supported"))

def resolveRevertPlan (head : Id) (source : ResolvedSource Id) : Except ApiError (RevertPlan Id) := do
  let withT ← pick dag head source
  withT.toList.forM (checkRevertible dag)
  let sorted := withT.toList.mergeSort newestFirst
  return ⟨sorted.map Prod.snd, (sorted.getLast withT.sorted_ne_nil).1,
    fun h => withT.sorted_ne_nil (map_eq_nil_iff.mp h)⟩

/-- The keys that both selected commits and others touch, from the oldest selected one
on. -/
def computeConflictKeys (head : Id) (revertedSet : List Id) (oldestT : ℤ) : List ConflictKey :=
  let traced := traceIds dag head (oldestT - 1)
  let keysOf (ids : List Id) := (ids.flatMap fun x => (dag.commit x).flakes.map conflictKey).dedup
  let revertedKeys := keysOf (traced.filter fun x => decide (x ∈ revertedSet))
  let interveningKeys := keysOf (traced.filter fun x => !decide (x ∈ revertedSet))
  (revertedKeys.filter fun key => decide (key ∈ interveningKeys)).mergeSort ConflictKey.le

/-- The commit of a revert, or none if nothing is left to commit. -/
def buildRevertCommit (rt : Runtime Id V) (reindexMaxBytes : ℕ) (plan : RevertPlan Id)
    (keys : List ConflictKey) (strategy : ConflictStrategy) (targetState : LedgerState Id V) :
    Except ApiError (Option (StagedCommit Id V)) := do
  let data := collectFromCommits (plan.orderedCommits.reverse.map dag.commit) (invertAt · 0)
  let staged := applyTwoWayStrategy data.flakes keys strategy targetState
  if targetState.headCommitId.isNone then
    throw (.internal "branch has no head commit id" none)
  if staged.isEmpty then return none
  (newStagedLedger targetState staged).mapError (stagingError "revert")
  let commit ← (buildCommit rt reindexMaxBytes targetState staged
    ⟨false, [], data.namespaceDelta, data.graphDelta⟩).mapError .transact
  return some commit

def prepareRevert (rt : Runtime Id V) (reindexMaxBytes : ℕ) (branch : String) (head : Id)
    (source : ResolvedSource Id) (strategy : ConflictStrategy) (targetState : LedgerState Id V) :
    Except ApiError (Option (StagedCommit Id V)) := do
  if strategy = .takeBoth then
    throw (.invalidBranch "TakeBoth strategy is not supported for revert")
  if strategy = .skip then
    throw (.invalidBranch "Skip strategy is not supported for revert")
  let plan ← resolveRevertPlan dag head source
  let keys := computeConflictKeys dag head plan.orderedCommits plan.oldestT
  if strategy = .abort ∧ keys ≠ [] then
    throw (.branchConflict ("Revert aborted: " ++ toString keys.length ++ " conflict(s) on " ++
      branch ++ " with abort strategy"))
  buildRevertCommit dag rt reindexMaxBytes plan keys strategy targetState

end

/-! ### What a plan selects -/

variable {x : Id} {xs : List Id}

section

variable [DecidableEq Id] [ToString Id] {hist : History Id V} {head : Id}
  (hhead : head ∈ hist.ids)

include hhead

omit [ToString Id] in
theorem dagIndex_eq_some {e : ℤ × Id} :
    dagIndex hist.toCommitDag head x = some e ↔ e = (hist.t x, x) ∧ hist.Reaches head x := by
  have hlisted : ∀ e, e ∈ collectDagCids hist.toCommitDag head 0 ↔
      e = (hist.t e.2, e.2) ∧ hist.Reaches head e.2 := by
    intro e
    rw [← mem_traceIds_zero hist.positive hhead]
    constructor
    · intro he
      exact ⟨Prod.ext (t_of_mem_walkDag he) rfl, mem_map_of_mem he⟩
    · rintro ⟨heq, hin⟩
      obtain ⟨e', he', hid⟩ := mem_map.mp hin
      have hsame : e = e' := by
        rw [heq, ← hid, ← t_of_mem_walkDag he']
      rwa [hsame]
  have hfound : ∀ e, dagIndex hist.toCommitDag head x = some e →
      e = (hist.t x, x) ∧ hist.Reaches head x := by
    intro e h
    have hid : e.2 = x := beq_iff_eq.mp (List.find?_some (p := fun e : ℤ × Id => e.2 == x) h)
    have he := (hlisted e).mp (mem_of_find?_eq_some h)
    rwa [hid] at he
  refine ⟨hfound e, ?_⟩
  rintro ⟨rfl, hreach⟩
  have hin := (hlisted (hist.t x, x)).mpr ⟨rfl, hreach⟩
  cases hfind : dagIndex hist.toCommitDag head x with
  | none => exact absurd (beq_self_eq_true x) (List.find?_eq_none.mp hfind _ hin)
  | some e => rw [(hfound e hfind).1]

/-- The picked commits are those that are new, and all of them must be behind the head. -/
theorem pickCommits_eq_ok {seen : List Id} {out : List (ℤ × Id)} :
    pickCommits hist.toCommitDag head seen xs = .ok out ↔
      (∀ x ∈ fresh seen xs, hist.Reaches head x) ∧
        (fresh seen xs).map (fun x => (hist.t x, x)) = out := by
  fun_induction fresh seen xs generalizing out with
  | case1 => simp [pickCommits]
  | case2 seen x xs hseen ih => rw [pickCommits, if_pos hseen, ih]
  | case3 seen x xs hseen ih =>
    rw [pickCommits, if_neg hseen, forall_mem_cons]
    by_cases hreach : hist.Reaches head x
    · rw [(dagIndex_eq_some hhead).mpr ⟨rfl, hreach⟩, and_iff_right hreach, map_eq_ok]
      simp [ih]
    · have hnone : dagIndex hist.toCommitDag head x = none :=
        Option.eq_none_iff_forall_ne_some.mpr fun e he => hreach ((dagIndex_eq_some hhead).mp he).2
      simp [hnone, hreach]

variable {source : ResolvedSource Id}

theorem pick_ok {l : NonEmpty (ℤ × Id)} (h : pick hist.toCommitDag head source = .ok l) :
    ∀ e ∈ l.toList, e.1 = hist.t e.2 ∧ hist.Reaches head e.2 := by
  cases source with
  | commits x =>
    unfold pick at h
    dsimp only at h
    split at h
    · cases h
    next e hindex =>
      obtain ⟨rest, hrest, rfl⟩ := map_eq_ok.mp h
      obtain ⟨rfl, hreach⟩ := (dagIndex_eq_some hhead).mp hindex
      obtain ⟨hbehind, rfl⟩ := (pickCommits_eq_ok hhead).mp hrest
      exact forall_mem_cons.mpr ⟨⟨rfl, hreach⟩, forall_mem_map.mpr fun x hx => ⟨rfl, hbehind x hx⟩⟩
  | range start =>
    unfold pick pickRange at h
    dsimp only at h
    split at h
    · cases h
    next stopT x hstop =>
      obtain ⟨-, hstop⟩ := (dagIndex_eq_some hhead).mp hstop
      split at h
      · cases h
      split at h
      · cases h
      split at h
      · cases h
      split at h
      · cases h
      next picked hpicked =>
        cases h
        have hlisted : l.toList = _ := NonEmpty.toList_of_tryFromVec hpicked
        intro e he
        rw [hlisted] at he
        have hin := (mem_filter.mp he).1
        refine ⟨t_of_mem_walkDag hin, hstop.trans ?_⟩
        exact (mem_traceIds_zero hist.positive (mem_ids hstop hhead)).mp (mem_map_of_mem hin)

/-- What a plan selects is behind the head and has one parent, and the time of the plan
is that of its oldest commit. -/
theorem resolveRevertPlan_ok {plan : RevertPlan Id}
    (h : resolveRevertPlan hist.toCommitDag head source = .ok plan) :
    (∀ x ∈ plan.orderedCommits, hist.Reaches head x ∧ (hist.parents x).length = 1) ∧
      (∀ x ∈ plan.orderedCommits, plan.oldestT ≤ hist.t x) ∧
        ∃ x ∈ plan.orderedCommits, hist.t x = plan.oldestT := by
  obtain ⟨l, hpick, h⟩ := bind_eq_ok.mp h
  obtain ⟨u, hcheck, h⟩ := bind_eq_ok.mp h
  cases h
  have hlisted := pick_ok hhead hpick
  have hperm := mergeSort_perm l.toList newestFirst
  have hselected : ∀ x ∈ (l.toList.mergeSort newestFirst).map Prod.snd, ∃ e ∈ l.toList, e.2 = x := by
    intro x hx
    obtain ⟨e, he, rfl⟩ := mem_map.mp hx
    exact ⟨e, hperm.mem_iff.mp he, rfl⟩
  have hlast := getLast_mem l.sorted_ne_nil
  have hlastT := (hlisted _ (hperm.mem_iff.mp hlast)).1
  refine ⟨fun x hx => ?_, fun x hx => ?_, _, mem_map_of_mem hlast, hlastT.symm⟩
  · obtain ⟨e, he, rfl⟩ := hselected x hx
    refine ⟨(hlisted e he).2, ?_⟩
    have hone := forM_eq_ok.mp hcheck e he
    unfold checkRevertible at hone
    split at hone
    · cases hone
    next => assumption
    · cases hone
  · obtain ⟨e, he, rfl⟩ := hselected x hx
    rw [← (hlisted e he).1]
    -- the last of the sorted list is not later than any
    exact (pairwise_newestFirst l.toList).rel_getLast_of_rel_getLast_getLast
      (hperm.mem_iff.mpr he) le_rfl

end

/-! ### The operations of a revert -/

/-- A commit outside the selection touches the key, not before the oldest selected one. -/
def TouchedSince (dag : CommitDag Id V) (head : Id) (plan : RevertPlan Id) (key : ConflictKey) :
    Prop :=
  ∃ x, dag.Reaches head x ∧ plan.oldestT ≤ dag.t x ∧ x ∉ plan.orderedCommits ∧ Touches dag x key

/-- The oldest of the selected commits that touch a key. -/
structure OldestTouching (dag : CommitDag Id V) (plan : RevertPlan Id) (key : ConflictKey) (x : Id) :
    Prop where
  selected : x ∈ plan.orderedCommits
  touches : Touches dag x key
  oldest : ∀ y ∈ plan.orderedCommits, Touches dag y key → dag.t x ≤ dag.t y

section

variable [DecidableEq Id] [ToString Id] {rt : Runtime Id V} {reindexMaxBytes : ℕ}
  {branch branchId : String} {hist : History Id V} {head : Id} {source : ResolvedSource Id}
  {strategy : ConflictStrategy} {state : LedgerState Id V} {plan : RevertPlan Id}

abbrev revertKeys (hist : History Id V) (head : Id) (plan : RevertPlan Id) : List ConflictKey :=
  computeConflictKeys hist.toCommitDag head plan.orderedCommits plan.oldestT

theorem mem_computeConflictKeys (hdag : hist.Increasing) (hhead : head ∈ hist.ids)
    (hplan : resolveRevertPlan hist.toCommitDag head source = .ok plan) {key : ConflictKey} :
    key ∈ revertKeys hist head plan ↔
      (∃ x ∈ plan.orderedCommits, Touches hist.toCommitDag x key) ∧
        TouchedSince hist.toCommitDag head plan key := by
  obtain ⟨hbehind, holdest, -⟩ := resolveRevertPlan_ok hhead hplan
  have htraced : ∀ x, x ∈ traceIds hist.toCommitDag head (plan.oldestT - 1) ↔
      hist.Reaches head x ∧ plan.oldestT ≤ hist.t x := by
    intro x
    rw [mem_traceIds hdag hhead, Int.sub_one_lt_iff]
  unfold revertKeys computeConflictKeys
  rw [(mergeSort_perm _ _).mem_iff]
  simp only [mem_filter, mem_dedup, mem_flatMap, mem_map, decide_eq_true_eq,
    Bool.not_eq_true', decide_eq_false_iff_not, htraced]
  refine and_congr ⟨?_, ?_⟩ ⟨?_, ?_⟩
  · rintro ⟨x, ⟨-, hx⟩, htouch⟩
    exact ⟨x, hx, htouch⟩
  · rintro ⟨x, hx, htouch⟩
    exact ⟨x, ⟨⟨(hbehind x hx).1, holdest x hx⟩, hx⟩, htouch⟩
  · rintro ⟨x, ⟨⟨hreach, hlate⟩, hx⟩, htouch⟩
    exact ⟨x, hreach, hlate, hx, htouch⟩
  · rintro ⟨x, hreach, hlate, hx, htouch⟩
    exact ⟨x, ⟨⟨hreach, hlate⟩, hx⟩, htouch⟩

def revertFlakes (hist : History Id V) (head : Id) (plan : RevertPlan Id)
    (strategy : ConflictStrategy) (state : LedgerState Id V) : List (Flake V) :=
  applyTwoWayStrategy
    (collectFromCommits (plan.orderedCommits.reverse.map hist.commit) (invertAt · 0)).flakes
    (computeConflictKeys hist.toCommitDag head plan.orderedCommits plan.oldestT) strategy state

abbrev revertData (hist : History Id V) (plan : RevertPlan Id) : CollectedCommitData V :=
  collectFromCommits (plan.orderedCommits.reverse.map hist.commit) (invertAt · 0)

abbrev revertOpts (hist : History Id V) (plan : RevertPlan Id) : CommitOpts Id :=
  ⟨false, [], (revertData hist plan).namespaceDelta, (revertData hist plan).graphDelta⟩

omit [DecidableEq Id] [ToString Id] in
theorem mem_revertData {f : Flake V} :
    f ∈ (revertData hist plan).flakes ↔
      ∃ x ∈ plan.orderedCommits, ∃ f' ∈ (hist.commit x).flakes, invertAt f' 0 = f := by
  rw [revertData, collectFromCommits_eq]
  simp

theorem prepareRevert_ok {outcome : Option (StagedCommit Id V)}
    (h : prepareRevert hist.toCommitDag rt reindexMaxBytes branch head source strategy state =
      .ok outcome) :
    (strategy ≠ .takeBoth ∧ strategy ≠ .skip) ∧
      ∃ plan, resolveRevertPlan hist.toCommitDag head source = .ok plan ∧
        (strategy = .abort → revertKeys hist head plan = []) ∧
        (outcome = none → revertFlakes hist head plan strategy state = []) ∧
          ∀ staged, outcome = some staged →
            buildCommit rt reindexMaxBytes state (revertFlakes hist head plan strategy state)
              (revertOpts hist plan) = .ok staged := by
  unfold prepareRevert at h
  dsimp only at h
  split at h
  · cases h
  next hboth =>
    split at h
    · cases h
    next hskip =>
      obtain ⟨plan, hplan, h⟩ := bind_eq_ok.mp h
      split at h
      · cases h
      next habort =>
        refine ⟨⟨hboth, hskip⟩, plan, hplan,
          fun hstrategy => by_contra fun hne => habort ⟨hstrategy, hne⟩, ?_⟩
        unfold buildRevertCommit at h
        dsimp only at h
        split at h
        · cases h
        split at h
        next hempty =>
          cases h
          exact ⟨fun _ => isEmpty_iff.mp hempty, fun _ h => (nomatch h)⟩
        next =>
          obtain ⟨u, -, h⟩ := bind_eq_ok.mp h
          obtain ⟨commit, hcommit, h⟩ := bind_eq_ok.mp h
          cases h
          refine ⟨fun h => (nomatch h), fun staged hstaged => ?_⟩
          cases hstaged
          exact mapError_eq_ok.mp hcommit

theorem revert_appends (hhead : head ∈ hist.ids)
    (hload : loadNovelty rt branchId hist.toCommitDag head = .ok state) {staged : StagedCommit Id V}
    (h : prepareRevert hist.toCommitDag rt reindexMaxBytes branch head source strategy state =
      .ok (some staged)) (hx : x ∉ hist.ids) : hist.Appends x staged.commit := by
  obtain ⟨-, plan, hplan, -, -, hcommit⟩ := prepareRevert_ok h
  have hselected : ∀ y ∈ plan.orderedCommits, y ∈ hist.ids := fun y hy =>
    mem_ids ((resolveRevertPlan_ok hhead hplan).1 y hy).1 hhead
  rw [buildCommit_commit hload (hcommit staged rfl)]
  refine ⟨hx, fun y hy => (mem_singleton.mp hy) ▸ hhead, Int.lt_add_one_of_le (le_max_right _ _),
    userCodes_collectFromCommits fun c hc => ?_⟩
  obtain ⟨y, hy, rfl⟩ := mem_map.mp hc
  exact hist.codes y (hselected y (mem_reverse.mp hy))

theorem revert_tellsApart (htells : hist.TellsApart) (hhead : head ∈ hist.ids)
    (hload : loadNovelty rt branchId hist.toCommitDag head = .ok state) {staged : StagedCommit Id V}
    (h : prepareRevert hist.toCommitDag rt reindexMaxBytes branch head source strategy state =
      .ok (some staged)) (hx : x ∉ hist.ids) :
    (History.append (revert_appends hhead hload h hx)).TellsApart := by
  obtain ⟨-, plan, hplan, -, -, hcommit⟩ := prepareRevert_ok h
  refine append_tellsApart _ htells fun f hf hdata => ?_
  rw [buildCommit_commit hload (hcommit staged rfl)] at hf
  refine hasFact_applyTwoWayStrategy hhead hload (fun f hf => ?_) hdata hf
  obtain ⟨y, hy, f', hf', rfl⟩ := mem_revertData.mp hf
  exact ⟨y, mem_ids ((resolveRevertPlan_ok hhead hplan).1 y hy).1 hhead, f', hf', rfl,
    same_equivalence.refl f'⟩

/-- The states of a revert: the one of the head, and the one after it, which is loaded from
the commit that the revert makes, or still the first if it makes none. -/
structure RevertRun (rt : Runtime Id V) (reindexMaxBytes : ℕ) (hist : History Id V) (head : Id)
    (source : ResolvedSource Id) (strategy : ConflictStrategy) where
  branch : String
  branchId : String
  head_mem : head ∈ hist.ids
  state : LedgerState Id V
  load : loadNovelty rt branchId hist.toCommitDag head = .ok state
  plan : RevertPlan Id
  planned : resolveRevertPlan hist.toCommitDag head source = .ok plan
  newId : Id
  fresh : newId ∉ hist.ids
  after : LedgerState Id V
  reverted :
    (prepareRevert hist.toCommitDag rt reindexMaxBytes branch head source strategy state = .ok none ∧
      after = state) ∨
    ∃ staged, ∃ h : prepareRevert hist.toCommitDag rt reindexMaxBytes branch head source strategy
        state = .ok (some staged),
      loadNovelty rt branchId (History.append (revert_appends head_mem load h fresh)).toCommitDag
        newId = .ok after

def SelectedOp (hist : History Id V) (plan : RevertPlan Id) (v : Flake V) (asserts : Bool) : Prop :=
  ∃ x ∈ plan.orderedCommits, ∃ f ∈ (hist.commit x).flakes,
    f.g = v.g ∧ v.eq f = true ∧ f.op = asserts

variable {v : Flake V} {asserts : Bool}

omit [ToString Id] in
theorem mem_revertFlakes :
    HasOp (revertFlakes hist head plan strategy state) v asserts ↔
      (¬ (strategy = .takeBranch ∧ conflictKey v ∈ revertKeys hist head plan) ∧
        SelectedOp hist plan v !asserts) ∨
      (strategy = .takeSource ∧ conflictKey v ∈ revertKeys hist head plan ∧
        state.Holds v ∧ asserts = false) := by
  unfold revertFlakes
  rw [mem_applyTwoWayStrategy]
  refine or_congr_left (and_congr_right fun _ => ?_)
  constructor
  · rintro ⟨f, hf, hg, heq, rfl⟩
    obtain ⟨x, hx, f', hf', rfl⟩ := mem_revertData.mp hf
    exact ⟨x, hx, f', hf', hg, heq, (Bool.not_not _).symm⟩
  · rintro ⟨x, hx, f, hf, hg, heq, hop⟩
    refine ⟨invertAt f 0, mem_revertData.mpr ⟨x, hx, f, hf, rfl⟩, hg, heq, ?_⟩
    change (!f.op) = asserts
    rw [hop, Bool.not_not]

/-- After a revert a fact holds if the revert asserts it, or if it held before and the
revert does not retract it. -/
theorem RevertRun.after_holds (run : RevertRun rt reindexMaxBytes hist head source strategy)
    (htells : hist.TellsApart) (hdata : IsData v) :
    run.after.Holds v ↔
      HasOp (revertFlakes hist head run.plan strategy run.state) v true ∨
      (¬ HasOp (revertFlakes hist head run.plan strategy run.state) v false ∧
        run.state.Holds v) := by
  have hsame : ∀ {plan}, resolveRevertPlan hist.toCommitDag head source = .ok plan →
      plan = run.plan := fun h => Except.ok.inj (h.symm.trans run.planned)
  obtain ⟨hnone, hafter⟩ | ⟨staged, hsome, hafter⟩ := run.reverted
  · obtain ⟨-, plan, hplan, -, hempty, -⟩ := prepareRevert_ok hnone
    rw [hafter, ← hsame hplan, hempty rfl]
    simp
  · obtain ⟨-, plan, hplan, -, -, hcommit⟩ := prepareRevert_ok hsome
    rw [← hsame hplan]
    exact holds_of_commit run.head_mem run.load (hcommit staged rfl) rfl htells
      (revert_tellsApart htells run.head_mem run.load hsome run.fresh) hafter hdata

/-! ### What a revert should do -/

/-- A revert of a selection leaves what held before the selection, or what holds. The
values before a time are given, those at the head and those after the revert. -/
structure RevertsExactly (hist : History Id V) (head : Id) (plan : RevertPlan Id)
    (strategy : ConflictStrategy) (before : ℤ → Flake V → Prop) (current after : Flake V → Prop) :
    Prop where
  undone : ∀ v, IsData v → ¬ TouchedSince hist.toCommitDag head plan (conflictKey v) →
    ∀ x, OldestTouching hist.toCommitDag plan (conflictKey v) x → (after v ↔ before (hist.t x) v)
  untouched : ∀ v, IsData v →
    (∀ x ∈ plan.orderedCommits, ¬ Touches hist.toCommitDag x (conflictKey v)) →
      (after v ↔ current v)
  take_branch : strategy = .takeBranch → ∀ v, IsData v →
    TouchedSince hist.toCommitDag head plan (conflictKey v) →
      (∃ x ∈ plan.orderedCommits, Touches hist.toCommitDag x (conflictKey v)) →
        (after v ↔ current v)
  take_source : strategy = .takeSource → ∀ v, IsData v →
    TouchedSince hist.toCommitDag head plan (conflictKey v) →
      ∀ x, OldestTouching hist.toCommitDag plan (conflictKey v) x → (after v ↔ before (hist.t x) v)

section

variable (hdag : hist.Increasing) (htells : hist.TellsApart)
  (run : RevertRun rt reindexMaxBytes hist head source strategy)

omit [ToString Id] [DecidableEq Id] in
theorem touches_of_selectedOp (h : SelectedOp hist plan v asserts) :
    ∃ x ∈ plan.orderedCommits, Touches hist.toCommitDag x (conflictKey v) := by
  obtain ⟨x, hx, f, hf, hg, heq, -⟩ := h
  exact ⟨x, hx, f, hf, conflictKey_of_eq hg heq⟩

theorem RevertRun.accepted :
    (strategy ≠ .takeBoth ∧ strategy ≠ .skip) ∧
      (strategy = .abort → revertKeys hist head run.plan = []) := by
  have hprepared : ∃ outcome, prepareRevert hist.toCommitDag rt reindexMaxBytes run.branch head
      source strategy run.state = .ok outcome := by
    obtain ⟨hnone, -⟩ | ⟨staged, hsome, -⟩ := run.reverted
    · exact ⟨_, hnone⟩
    · exact ⟨_, hsome⟩
  obtain ⟨outcome, h⟩ := hprepared
  obtain ⟨hstrategy, plan, hplan, habort, -⟩ := prepareRevert_ok h
  cases Except.ok.inj (hplan.symm.trans run.planned)
  exact ⟨hstrategy, habort⟩

abbrev RevertRun.Since (v : Flake V) : Prop :=
  TouchedSince hist.toCommitDag head run.plan (conflictKey v)

abbrev RevertRun.Touched (v : Flake V) : Prop :=
  ∃ x ∈ run.plan.orderedCommits, Touches hist.toCommitDag x (conflictKey v)

include hdag htells in
/-- A fact that the revert has an operation on holds after it if a selected commit
retracts it. -/
theorem RevertRun.after_of_op (hdata : IsData v) (htouched : run.Touched v)
    (hkept : ¬ (strategy = .takeBranch ∧ run.Since v))
    (hop : (∃ asserts, SelectedOp hist run.plan v asserts) ∨
      (strategy = .takeSource ∧ run.Since v)) :
    run.after.Holds v ↔ SelectedOp hist run.plan v false := by
  have hkey : conflictKey v ∈ revertKeys hist head run.plan ↔ _ :=
    mem_computeConflictKeys hdag run.head_mem run.planned
  rw [and_iff_right htouched] at hkey
  rw [run.after_holds htells hdata, mem_revertFlakes, mem_revertFlakes, hkey, and_iff_right hkept,
    and_iff_right hkept]
  simp only [Bool.not_true, Bool.not_false, and_true, reduceCtorEq, and_false, or_false]
  rw [or_iff_left_iff_imp]
  rintro ⟨hnot, hholds⟩
  obtain ⟨asserts, hop⟩ | hsource := hop
  · cases asserts with
    | true => exact absurd (.inl hop) hnot
    | false => exact hop
  · exact absurd (.inr ⟨hsource.1, hsource.2, hholds⟩) hnot

include hdag htells in
theorem RevertRun.after_of_no_op (hdata : IsData v)
    (hop : (strategy = .takeBranch ∧ run.Since v) ∨
      ¬ ((∃ asserts, SelectedOp hist run.plan v asserts) ∨
        (strategy = .takeSource ∧ run.Touched v ∧ run.Since v))) :
    run.after.Holds v ↔ run.state.Holds v := by
  have hnone : ∀ asserts,
      ¬ HasOp (revertFlakes hist head run.plan strategy run.state) v asserts := by
    intro asserts hflake
    rw [mem_revertFlakes, mem_computeConflictKeys hdag run.head_mem run.planned] at hflake
    obtain ⟨hbranch, hsince⟩ | hno := hop
    · obtain ⟨hkept, hselected⟩ | ⟨hsource, -⟩ := hflake
      · exact hkept ⟨hbranch, touches_of_selectedOp hselected, hsince⟩
      · rw [hbranch] at hsource
        cases hsource
    · obtain ⟨-, hselected⟩ | ⟨hsource, hkey, -⟩ := hflake
      · exact hno (.inl ⟨_, hselected⟩)
      · exact hno (.inr ⟨hsource, hkey⟩)
  rw [run.after_holds htells hdata, or_iff_right (hnone true), and_iff_right (hnone false)]

include htells in
/-- If neither the selection nor a commit since has an operation on a fact, it is as it
was before the selection. -/
theorem RevertRun.holdsAt_of_no_op (hdata : IsData v)
    (hsince : ¬ run.Since v) (hop : ¬ ∃ asserts, SelectedOp hist run.plan v asserts)
    (hx : OldestTouching hist.toCommitDag run.plan (conflictKey v) x) :
    run.state.HoldsAt v (hist.t x - 1) ↔ run.state.Holds v := by
  rw [load_holdsAt run.head_mem run.load htells hdata, load_holds run.head_mem run.load htells hdata]
  refine OpLog.lastAsserts_iff_endsAsserted fun op hin => ?_
  obtain ⟨y, hreach, hin⟩ := (mem_ops run.head_mem).mp hin
  obtain ⟨f, hf, hg, heq, rfl⟩ := mem_factOps.mp hin
  have hstamp : f.t = hist.t y :=
    hist.stamped y (mem_ids hreach run.head_mem) f hf
  have holdest := (resolveRevertPlan_ok run.head_mem run.planned).2.1 x hx.selected
  by_contra hlate
  have hlate : run.plan.oldestT ≤ hist.t y := by
    change ¬ f.t ≤ _ at hlate
    omega
  by_cases hy : y ∈ run.plan.orderedCommits
  · exact hop ⟨f.op, y, hy, f, hf, hg, heq, rfl⟩
  · exact hsince ⟨y, hreach, hlate, hy, f, hf, conflictKey_of_eq hg heq⟩

end

/-- A key that is touched by the selection and since is in conflict, which only two strategies
allow. -/
theorem RevertRun.takeSource_of_since (hdag : hist.Increasing)
    (run : RevertRun rt reindexMaxBytes hist head source strategy)
    (hx : OldestTouching hist.toCommitDag run.plan (conflictKey v) x)
    (hkept : ¬ (strategy = .takeBranch ∧ run.Since v)) (hsince : run.Since v) :
    strategy = .takeSource := by
  obtain ⟨⟨hboth, hskip⟩, habort⟩ := run.accepted
  cases strategy with
  | takeSource => rfl
  | takeBranch => exact absurd ⟨rfl, hsince⟩ hkept
  | takeBoth => exact absurd rfl hboth
  | skip => exact absurd rfl hskip
  | abort =>
    have hkey := (mem_computeConflictKeys hdag run.head_mem run.planned).mpr
      ⟨⟨x, hx.selected, hx.touches⟩, hsince⟩
    rw [habort rfl] at hkey
    cases hkey

/-- A revert without conflicts of commits without deltas. -/
theorem prepareRevert_bare {flakes : List (Flake V)} (hboth : strategy ≠ .takeBoth)
    (hskip : strategy ≠ .skip) (hplan : resolveRevertPlan hist.toCommitDag head source = .ok plan)
    (hkeys : revertKeys hist head plan = []) (hdata : revertData hist plan = ⟨flakes, ∅, ∅⟩)
    (hne : flakes ≠ []) (hhead : state.headCommitId = some head)
    (hstages : (newStagedLedger state flakes).isOk = true)
    (hroom : state.novelty.size + (flakes.map Flake.sizeBytes).sum < reindexMaxBytes) :
    prepareRevert hist.toCommitDag rt reindexMaxBytes branch head source strategy state =
      .ok (some ⟨⟨state.t + 1, [head], flakes, ∅, ∅⟩, state⟩) := by
  obtain ⟨⟨⟩, hstages⟩ := isOk_iff.mp hstages
  have hcommit : buildCommit rt reindexMaxBytes state flakes ⟨false, [], ∅, ∅⟩ =
      .ok ⟨⟨state.t + 1, state.headCommitId.toList ++ [], flakes, ∅, ∅⟩, state⟩ :=
    buildCommit_bare (by simp [hne]) hroom
  unfold prepareRevert
  rw [if_neg hboth, if_neg hskip, hplan]
  change (if strategy = .abort ∧ revertKeys hist head plan ≠ [] then _ else
    buildRevertCommit hist.toCommitDag rt reindexMaxBytes plan (revertKeys hist head plan) strategy
      state) = _
  rw [hkeys, if_neg fun h => h.2 rfl]
  unfold buildRevertCommit
  unfold revertData at hdata
  rw [hdata]
  dsimp only
  rw [show applyTwoWayStrategy flakes [] strategy state = flakes from rfl, hstages, hcommit, hhead,
    if_neg (by simp), if_neg (by simpa using hne)]
  rfl

end

open Sample

/-- A value is asserted and then retracted. -/
def backAndForth : History ℕ OrdinaryValue where
  ids := [0, 1, 2]
  commit
    | 0 => ⟨1, [], [fact 1 1 true], ∅, ∅⟩
    | 1 => ⟨2, [0], [fact 2 2 true], ∅, ∅⟩
    | _ => ⟨3, [1], [fact 2 3 false], ∅, ∅⟩
  closed := by decide
  positive := by decide
  stamped := by decide
  codes := by
    rintro (_ | _ | x) _ code text h <;> cases h

theorem backAndForth_tellsApart : backAndForth.TellsApart := by
  unfold TellsApart
  decide +kernel

theorem backAndForth_increasing : backAndForth.Increasing := by
  unfold CommitDag.Increasing
  decide

theorem backAndForth_plan :
    ∃ plan, resolveRevertPlan backAndForth.toCommitDag 2 (.commits 1 [2]) = .ok plan ∧
      plan.orderedCommits = [2, 1] ∧ plan.oldestT = 2 := by
  have hwalk : collectDagCids backAndForth.toCommitDag 2 0 = [(3, 2), (2, 1), (1, 0)] :=
    mergeSort_of_pairwise (by decide)
  unfold resolveRevertPlan pick pickCommits dagIndex
  rw [hwalk]
  refine ⟨_, rfl, ?_, ?_⟩
  · simp [NonEmpty.toList, mergeSort, newestFirst]
  · simp [NonEmpty.toList, mergeSort, newestFirst]

def bothBefore : LedgerState ℕ OrdinaryValue :=
  computedState mainId [([fact 1 1 true], 1), ([fact 2 2 true], 2), ([fact 2 3 false], 3)] 2

def bothAfter : LedgerState ℕ OrdinaryValue :=
  computedState mainId [([fact 1 1 true], 1), ([fact 2 2 true], 2), ([fact 2 3 false], 3),
    ([fact 2 4 false, fact 2 4 true], 4)] 3

theorem exists_revertBoth (strategy : ConflictStrategy) (hboth : strategy ≠ .takeBoth)
    (hskip : strategy ≠ .skip) :
    ∃ run : RevertRun (silentRuntime ℕ OrdinaryValue) 1000 backAndForth 2 (.commits 1 [2]) strategy,
      run.plan.orderedCommits = [2, 1] ∧ run.plan.oldestT = 2 ∧ run.state = bothBefore ∧
        run.after = bothAfter := by
  obtain ⟨plan, hplan, hselected, holdest⟩ := backAndForth_plan
  have hload : loadNovelty (silentRuntime ℕ OrdinaryValue) mainId backAndForth.toCommitDag 2 =
      .ok bothBefore :=
    load_silent (traceIds_of_sorted (by decide) : _ = [2, 1, 0]) (by decide) mainId_routes
      fun _ _ => rfl
  have hkeys : revertKeys backAndForth 2 plan = [] := by
    unfold revertKeys computeConflictKeys
    rw [hselected, holdest, traceIds_of_sorted (by decide)]
    exact mergeSort_nil
  have hdata : revertData backAndForth plan = ⟨[fact 2 0 false, fact 2 0 true], ∅, ∅⟩ := by
    unfold revertData
    rw [hselected]
    rfl
  have hprepared : prepareRevert backAndForth.toCommitDag (silentRuntime ℕ OrdinaryValue) 1000 "main"
      2 (.commits 1 [2]) strategy bothBefore = .ok (some _) :=
    prepareRevert_bare hboth hskip hplan hkeys hdata (cons_ne_nil _ _) rfl (by decide +kernel)
      (by decide +kernel)
  exact ⟨⟨"main", mainId, by decide, _, hload, plan, hplan, 3, by decide, bothAfter, .inr ⟨_,
    hprepared, load_silent (traceIds_of_sorted (of_decide_eq_true rfl) : _ = [3, 2, 1, 0])
      (of_decide_eq_true rfl) mainId_routes fun _ _ => rfl⟩⟩, hselected, holdest, rfl, rfl⟩

end FlureeDb.Branch
